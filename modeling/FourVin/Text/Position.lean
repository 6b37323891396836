/-!
Places in a source text. Lines and columns count from one, and a column counts the bytes of the
UTF-8 form since the last line feed. A position is moved by the text that has been passed, so that
`advance` over a concatenation is `advance` over its parts.
-/
namespace FourVin

structure Position where
  line : Nat
  column : Nat
  deriving DecidableEq

namespace Position

def start : Position := ⟨1, 1⟩

def step (p : Position) (c : Char) : Position :=
  if c = '\n' then ⟨p.line + 1, 1⟩ else ⟨p.line, p.column + c.utf8Size⟩

/-- The position right after `text`, when `text` begins at `p`. -/
def advance (p : Position) (text : List Char) : Position := text.foldl step p

@[simp] theorem advance_nil (p : Position) : p.advance [] = p := rfl

@[simp] theorem advance_cons (p : Position) (c : Char) (text : List Char) :
    p.advance (c :: text) = (p.step c).advance text := rfl

theorem advance_append (p : Position) (left right : List Char) :
    p.advance (left ++ right) = (p.advance left).advance right := by
  simp [advance, List.foldl_append]

theorem advance_line (p : Position) (text : List Char) :
    (p.advance text).line = p.line + text.count '\n' := by
  induction text generalizing p with
  | nil => rfl
  | cons c rest ih =>
    rw [advance_cons, ih, List.count_cons]
    by_cases hc : c = '\n'
    · simp [step, hc]
      omega
    · simp [step, hc]

/-- A line feed leads to the first column of a new line. -/
theorem advance_lineFeed (p : Position) (text : List Char) :
    p.advance (text ++ ['\n']) = ⟨p.line + text.count '\n' + 1, 1⟩ := by
  rw [advance_append, ← advance_line]
  rfl

end Position

structure Location where
  file : String
  position : Position
  deriving DecidableEq

namespace Location

def line (l : Location) : Nat := l.position.line

def column (l : Location) : Nat := l.position.column

def text (l : Location) : String := l.file ++ ":" ++ l.line.repr ++ ":" ++ l.column.repr

end Location

end FourVin
