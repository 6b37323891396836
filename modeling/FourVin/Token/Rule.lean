import FourVin.Diagnostic
import FourVin.InstructionSet
import FourVin.Text.Digit
import FourVin.Text.Hex
import FourVin.Token

/-!
The rules of the lexical grammar. A rule takes the longest text of its form from the front of the
input, its lexeme, which is empty when the rule does not apply. `Rule.first?` picks the first rule
in `Rule.all` that applies, and `Rule.kind` says what its lexeme means.

Numbers may hold decimal digits of any script, but only those of ASCII denote a value.
-/
namespace FourVin

open Text

inductive Rule where
  | newlines
  | word
  | register
  | float
  | hex
  | integer
  | mark
  deriving DecidableEq

namespace Rule

/-- The rules in the order in which they are tried. -/
def all : List Rule := [newlines, word, register, float, hex, integer, mark]

def isWordChar (c : Char) : Bool := c.isAlphanum || c = '_'

/-- A letter, then letters, digits and underscores. -/
def wordLexeme : List Char → List Char
  | [] => []
  | c :: rest => if c.isAlpha then c :: rest.takeWhile isWordChar else []

/-- A percent sign and one to three letters. -/
def registerLexeme : List Char → List Char
  | '%' :: rest =>
    match (rest.takeWhile Char.isAlpha).take 3 with
    | [] => []
    | name => '%' :: name
  | _ => []

/-- Digits around a point, of which only the digits behind a leading point are required. -/
def floatLexeme (input : List Char) : List Char :=
  let whole := input.takeWhile isDecimal
  match input.dropWhile isDecimal with
  | '.' :: rest =>
    let fraction := rest.takeWhile isDecimal
    if whole.isEmpty && fraction.isEmpty then [] else whole ++ '.' :: fraction
  | _ => []

def hexLexeme : List Char → List Char
  | '0' :: 'x' :: rest =>
    match rest.takeWhile isHexDigit with
    | [] => []
    | digits => '0' :: 'x' :: digits
  | _ => []

def markOf? : Char → Option Token.Kind
  | ',' => some .comma
  | ';' => some .semicolon
  | ':' => some .colon
  | '$' => some .dollar
  | _ => none

def markLexeme : List Char → List Char
  | [] => []
  | c :: _ => if (markOf? c).isSome then [c] else []

def lexeme : Rule → List Char → List Char
  | newlines, input => input.takeWhile (· = '\n')
  | word, input => wordLexeme input
  | register, input => registerLexeme input
  | float, input => floatLexeme input
  | hex, input => hexLexeme input
  | integer, input => input.takeWhile isDecimal
  | mark, input => markLexeme input

def applies (rule : Rule) (input : List Char) : Bool := !(rule.lexeme input).isEmpty

def first? (input : List Char) : Option Rule := all.find? fun rule => rule.applies input

def toWord? (value : Nat) : Option UInt32 :=
  if value < UInt32.size then some (UInt32.ofNat value) else none

def wordKind (text : List Char) : Token.Kind :=
  let word := String.ofList text
  if InstructionSet.isMnemonic word then .mnemonic word else .name word

def registerKind (text : List Char) : Except Cause Token.Kind :=
  match Register.ofName? (String.ofList text.tail) with
  | some r => .ok (.register r)
  | none => .error (.unknownRegister (String.ofList text))

def floatKind (text : List Char) : Except Cause Token.Kind :=
  if text.all fun c => c.isDigit || c = '.' then
    let x := Double.ofDecimal (Decimal.ofText text)
    if x.overflowsSingle then .error (.floatOverflow (String.ofList text)) else .ok (.float x)
  else .error (.unexpectedCharacter '.')

def hexKind (text : List Char) : Except Cause Token.Kind :=
  match toWord? (ofHexDigits (text.drop 2)) with
  | some n => .ok (.hex n)
  | none => .error (.integerOverflow (String.ofList text))

def integerKind (text : List Char) : Except Cause Token.Kind :=
  match if text.all Char.isDigit then toWord? (Nat.ofDigitChars 10 text 0) else none with
  | some n => .ok (.integer n)
  | none => .error (.integerOverflow (String.ofList text))

def markKind (text : List Char) : Except Cause Token.Kind :=
  match text.head?.bind markOf? with
  | some kind => .ok kind
  | none => .error (.unexpectedCharacter (text.headD ' '))

def kind : Rule → List Char → Except Cause Token.Kind
  | newlines, _ => .ok .newline
  | word, text => .ok (wordKind text)
  | register, text => registerKind text
  | float, text => floatKind text
  | hex, text => hexKind text
  | integer, text => integerKind text
  | mark, text => markKind text

theorem wordLexeme_isPrefix (input : List Char) : wordLexeme input <+: input := by
  unfold wordLexeme
  split
  · exact List.nil_prefix
  · split
    · exact List.cons_prefix_cons.mpr ⟨rfl, List.takeWhile_prefix _⟩
    · exact List.nil_prefix

theorem registerLexeme_isPrefix (input : List Char) : registerLexeme input <+: input := by
  unfold registerLexeme
  split
  · split
    · exact List.nil_prefix
    · exact List.cons_prefix_cons.mpr
        ⟨rfl, List.IsPrefix.trans ( List.take_prefix _ _) ( List.takeWhile_prefix _)⟩
  · exact List.nil_prefix

theorem floatLexeme_isPrefix (input : List Char) : floatLexeme input <+: input := by
  unfold floatLexeme
  dsimp only
  split
  · next rest hrest =>
    split
    · exact List.nil_prefix
    · have hsplit := List.takeWhile_append_dropWhile (p := isDecimal) (l := input)
      rw [hrest] at hsplit
      conv => rhs; rw [← hsplit]
      exact (List.prefix_append_right_inj _).mpr
        (List.cons_prefix_cons.mpr ⟨rfl, List.takeWhile_prefix _⟩)
  · exact List.nil_prefix

theorem hexLexeme_isPrefix (input : List Char) : hexLexeme input <+: input := by
  unfold hexLexeme
  split
  · split
    · exact List.nil_prefix
    · exact List.cons_prefix_cons.mpr
        ⟨rfl, List.cons_prefix_cons.mpr ⟨rfl, List.takeWhile_prefix _⟩⟩
  · exact List.nil_prefix

theorem markLexeme_isPrefix (input : List Char) : markLexeme input <+: input := by
  unfold markLexeme
  split
  · exact List.nil_prefix
  · split
    · exact List.cons_prefix_cons.mpr ⟨rfl, List.nil_prefix⟩
    · exact List.nil_prefix

/-- A rule takes its lexeme from the front of the input. -/
theorem lexeme_isPrefix (rule : Rule) (input : List Char) : rule.lexeme input <+: input := by
  cases rule with
  | newlines => exact List.takeWhile_prefix _
  | word => exact wordLexeme_isPrefix input
  | register => exact registerLexeme_isPrefix input
  | float => exact floatLexeme_isPrefix input
  | hex => exact hexLexeme_isPrefix input
  | integer => exact List.takeWhile_prefix _
  | mark => exact markLexeme_isPrefix input

theorem lexeme_ne_nil_of_first? {input : List Char} {rule : Rule} (h : first? input = some rule) :
    rule.lexeme input ≠ [] := by
  simpa [applies] using List.find?_some h

end Rule

end FourVin
