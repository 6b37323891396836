import FourVin.Program
import FourVin.Text.Blank

/-!
Diagnostics: a cause at a location. Every stage of assembling reports its first fault this way. The
wording of all causes stands in `Cause.message`; `Diagnostic.render` adds the source line and a
marker for the operator.
-/
namespace FourVin

inductive Cause where
  /-- A character that begins no token. -/
  | unexpectedCharacter (found : Char)
  | unknownRegister (name : String)
  | integerOverflow (text : String)
  | floatOverflow (text : String)
  /-- A token that cannot follow those before it. -/
  | unexpectedToken (shown : String)
  | unexpectedEnd
  | duplicateLabel (name : String) (first : Location)
  | undeclaredLabel (name : String)
  | operandCount (mnemonic : String) (expected got : Nat)
  | operandType (expected : String) (got : ValueType)
  /-- A fault in the text that an instruction stands for, located within that text. -/
  | inExpansion (mnemonic : String) (location : Location) (cause : Cause)
  | unknownMnemonic (mnemonic : String)
  | unresolvedLabel (name : String)
  | unencodable (mnemonic reason : String)
  deriving DecidableEq

def Cause.message : Cause → String
  | unexpectedCharacter found => "Unexpected token '" ++ found.toString ++ "'"
  | unknownRegister name => "Unknown register: '" ++ name ++ "'"
  | integerOverflow text => "Integer literal '" ++ text ++ "' does not fit in 32 bits"
  | floatOverflow text => "Float literal '" ++ text ++ "' is out of single precision range"
  | unexpectedToken shown => "Syntax error at '" ++ shown ++ "'"
  | unexpectedEnd => "Unexpected end of file"
  | duplicateLabel name first => "Label '" ++ name ++ "' already declared at " ++ first.text
  | undeclaredLabel name => "No declaration for label '" ++ name ++ "' found"
  | operandCount _ expected got =>
      "Expected " ++ expected.repr ++ " arguments, got " ++ got.repr
  | operandType expected got => "Expected type '" ++ expected ++ "', got '" ++ got.name ++ "'"
  | inExpansion mnemonic _ cause => "In expansion of '" ++ mnemonic ++ "': " ++ cause.message
  | unknownMnemonic mnemonic => "Invalid op code: '" ++ mnemonic ++ "'"
  | unresolvedLabel name => "Label '" ++ name ++ "' has no address"
  | unencodable mnemonic reason => "Cannot encode '" ++ mnemonic ++ "': " ++ reason

structure Diagnostic where
  location : Location
  cause : Cause
  deriving DecidableEq

namespace Diagnostic

def message (d : Diagnostic) : String := d.cause.message

def sourceLine (d : Diagnostic) (source : String) : String :=
  String.ofList (Text.trim (Text.line (d.location.line - 1) source.toList))

/-- A run of dashes as long as the column, under the source line. -/
def marker (d : Diagnostic) : String :=
  ">>>>" ++ String.ofList (List.replicate d.location.column '-') ++ "^"

/-- The location and message, the source line and the marker, each on a line of its own. -/
def render (d : Diagnostic) (source : String) : String :=
  d.location.text ++ " " ++ d.message ++ "\n     " ++ d.sourceLine source ++ "\n" ++ d.marker

end Diagnostic

end FourVin
