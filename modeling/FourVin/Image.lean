import FourVin.LabelTable
import FourVin.Word

/-!
Images: the machine code of a program, the word addresses of its labels, and a listing with one
entry per instruction. An image is written as the hexadecimal digits of its complete words; bytes
behind the last complete word are not written.
-/
namespace FourVin

structure ListingEntry where
  /-- Where the instruction begins, in bytes. -/
  offset : Nat
  text : String
  bytes : List UInt8
  deriving DecidableEq

structure Image where
  bytes : List UInt8
  labels : LabelTable UInt32
  listing : List ListingEntry
  deriving DecidableEq

namespace Image

def words (image : Image) : List UInt32 := Word.ofByteList image.bytes

def hex (image : Image) : String := " ".intercalate (image.words.map Word.hex)

end Image

end FourVin
