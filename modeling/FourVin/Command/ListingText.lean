import FourVin.Image

/-!
The listing of an image as text: one row per instruction in four columns, of which all but the last
are padded to their widest cell, then an empty line, then the labels by address.
-/
namespace FourVin.Command

def upperHex (width n : Nat) : String := String.ofList ((Text.hexPadded width n).map Char.toUpper)

def hexBytes (bytes : List UInt8) : String :=
  " ".intercalate (bytes.map fun b => upperHex 2 b.toNat)

def offsetCell (entry : ListingEntry) : String := "0x" ++ upperHex 4 entry.offset ++ ":"

def padded (width : Nat) (cell : String) : String :=
  String.ofList (cell.toList.rightpad width ' ')

def widest (cells : List String) : Nat := (cells.map String.length).foldl max 0

def rows (listing : List ListingEntry) : List String :=
  let offsetWidth := widest (listing.map offsetCell)
  let textWidth := widest (listing.map ListingEntry.text)
  listing.map fun entry =>
    padded offsetWidth (offsetCell entry) ++ " " ++ padded textWidth entry.text ++ " => " ++
      hexBytes entry.bytes

def labelRows (labels : LabelTable UInt32) : List String :=
  (labels.entries.mergeSort fun a b => a.2 ≤ b.2).map fun e =>
    "$" ++ e.1 ++ " = 0x" ++ upperHex 4 e.2.toNat

def listingText (image : Image) : String :=
  let lines (texts : List String) : String := String.join (texts.map (· ++ "\n"))
  lines (rows image.listing) ++ "\n" ++ lines (labelRows image.labels)

end FourVin.Command
