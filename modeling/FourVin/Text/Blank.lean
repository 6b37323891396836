/-!
White space, trimming and lines of a text. White space here is the Unicode property of that name,
which is wider than the blanks that may stand between two tokens.
-/
namespace FourVin.Text

/-- The first and last character of every run of white space. -/
def whiteSpace : List (Nat × Nat) :=
  [(0x09, 0x0D), (0x20, 0x20), (0x85, 0x85), (0xA0, 0xA0), (0x1680, 0x1680), (0x2000, 0x200A),
   (0x2028, 0x2029), (0x202F, 0x202F), (0x205F, 0x205F), (0x3000, 0x3000)]

def isWhiteSpace (c : Char) : Bool :=
  whiteSpace.any fun run => run.1 ≤ c.toNat && c.toNat ≤ run.2

def trim (text : List Char) : List Char :=
  ((text.dropWhile isWhiteSpace).reverse.dropWhile isWhiteSpace).reverse

/-- The line of a text with the given index, counted from zero and without its line feed. A text
has an empty line at every index past its end. -/
def line : Nat → List Char → List Char
  | _, [] => []
  | 0, c :: rest => if c = '\n' then [] else c :: line 0 rest
  | n + 1, c :: rest => if c = '\n' then line n rest else line (n + 1) rest

theorem newline_not_mem_line (n : Nat) (text : List Char) : '\n' ∉ line n text := by
  fun_induction line n text with
  | case1 => simp
  | case2 => simp
  | case3 c rest hc ih => simp [ih, Ne.symm hc]
  | case4 n rest ih => exact ih
  | case5 n c rest hc ih => exact ih

end FourVin.Text
