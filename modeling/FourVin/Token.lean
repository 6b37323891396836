import FourVin.Program

/-!
Tokens: what a stretch of source text means, its spelling, and where it begins.
-/
namespace FourVin

namespace Token

inductive Kind where
  | register (r : Register)
  | integer (n : UInt32)
  | hex (n : UInt32)
  | float (x : Double)
  /-- A word that names an instruction. -/
  | mnemonic (word : String)
  /-- Any other word. -/
  | name (word : String)
  | comma
  | semicolon
  | colon
  | dollar
  /-- A run of line feeds. -/
  | newline
  deriving DecidableEq

end Token

structure Token where
  kind : Token.Kind
  text : String
  location : Location
  deriving DecidableEq

/-- A token as diagnostics show it: its spelling, on one line. -/
def Token.shown (t : Token) : String :=
  match t.kind with
  | .newline => "\\n"
  | _ => t.text

end FourVin
