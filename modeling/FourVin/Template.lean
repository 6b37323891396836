/-!
Templates: texts in which `%0`, `%1`, ... stand for operands. The placeholders are replaced one
index after the other, the highest first, so that `%1` never takes the front of `%10`.
-/
namespace FourVin

namespace Text

/-- Replaces every occurrence of `pattern`, from left to right, in the text behind its first `skip`
characters; an occurrence that was replaced is skipped. -/
def replaceFrom (pattern replacement : List Char) : Nat → List Char → List Char
  | _, [] => []
  | skip + 1, _ :: rest => replaceFrom pattern replacement skip rest
  | 0, c :: rest =>
    if pattern.isPrefixOf (c :: rest) then
      replacement ++ replaceFrom pattern replacement (pattern.length - 1) rest
    else c :: replaceFrom pattern replacement 0 rest

def replace (pattern replacement text : List Char) : List Char :=
  replaceFrom pattern replacement 0 text

end Text

namespace Template

def placeholder (index : Nat) : List Char := '%' :: Nat.toDigits 10 index

def fillFrom (template : List Char) : Nat → List String → List Char
  | _, [] => template
  | index, operand :: rest =>
    Text.replace (placeholder index) operand.toList (fillFrom template (index + 1) rest)

def fill (template : String) (operands : List String) : String :=
  String.ofList (fillFrom template.toList 0 operands)

end Template

end FourVin
