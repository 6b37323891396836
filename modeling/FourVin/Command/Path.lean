/-!
Paths as texts. A path is a list of names between slashes, where empty names do not matter, and the
last name may have an extension after its last point. The sizes of a path and of a name are counted
in bytes and are limited.
-/
namespace FourVin.Path

def maxSize : Nat := 4095

def maxNameSize : Nat := 255

/-- The texts between the slashes of a path, empty ones included. -/
def split : List Char → List (List Char)
  | [] => [[]]
  | c :: rest =>
    match split rest with
    | [] => [[c]]
    | first :: others => if c = '/' then [] :: first :: others else (c :: first) :: others

def names (path : String) : List String :=
  ((split path.toList).filter (· ≠ [])).map String.ofList

def isAbsolute (path : String) : Bool := path.toList.head? = some '/'

/-- Whether a path can only lead to a directory because of a slash at its end. -/
def endsInSlash (path : String) : Bool := path.toList.getLast? = some '/'

def splitName (path : List Char) : List Char × List Char :=
  let name := (path.reverse.takeWhile (· ≠ '/')).reverse
  (path.take (path.length - name.length), name)

/-- A name without its extension. A point at the front of the name begins no extension. -/
def stem (name : List Char) : List Char :=
  let front := (name.reverse.dropWhile (· ≠ '.')).drop 1
  if front.isEmpty then name else front.reverse

/-- A name without the text of its extension, but with the point before it. -/
def trunk (name : List Char) : List Char :=
  if stem name = name then name else stem name ++ ['.']

def isDots (name : List Char) : Bool := name = ['.'] || name = ['.', '.']

/-- The path with the extension of its last name replaced. The old extension is cut off first: a
name that is left as dots leads to a directory and is given no new one. -/
def withExtension (path extension : String) : String :=
  let (front, name) := splitName path.toList
  if isDots (trunk name) then String.ofList (front ++ trunk name)
  else String.ofList (front ++ stem name) ++ "." ++ extension

end FourVin.Path
