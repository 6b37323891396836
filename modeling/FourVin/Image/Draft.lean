import FourVin.Image
import FourVin.Image.Encoding

/-!
Building an image in one pass. A draft collects bytes, label addresses and listing entries while the
declarations are added in order. The address of a label may not be known where it is used, so an
address is first written as zero and leaves a hole; the holes are filled when all labels are known.
An address is then written twice, into the bytes and into the entry of its instruction. A hole does
not say which entry that is: it is looked for from the end of the listing.
-/
namespace FourVin

structure Hole where
  /-- Where the address goes, in bytes. -/
  offset : Nat
  label : String
  /-- The instruction that needs the address. -/
  location : Location
  deriving DecidableEq

structure Draft where
  bytes : Array UInt8
  labels : LabelTable UInt32
  holes : Array Hole
  /-- The listing, its latest entry first. -/
  entries : List ListingEntry
  deriving DecidableEq

namespace Draft

def empty : Draft := ⟨#[], .empty, #[], []⟩

def address (d : Draft) : UInt32 := UInt32.ofNat (d.bytes.size / 4)

def hole? (d : Draft) (ins : Instruction) (code : Code) : Option Hole :=
  code.label?.map fun label => ⟨d.bytes.size + code.header.length, label, ins.location⟩

def addLabel (d : Draft) (name : String) : Draft :=
  { d with labels := d.labels.insert name d.address }

def addCode (d : Draft) (ins : Instruction) (code : Code) : Draft where
  bytes := d.bytes ++ code.bytes
  labels := d.labels
  holes := d.holes ++ (d.hole? ins code).toList
  entries := ⟨d.bytes.size, ins.text, code.bytes⟩ :: d.entries

def add (layout : Layout) (d : Draft) : Declaration → Except Diagnostic Draft
  | .label name _ => .ok (d.addLabel name)
  | .instruction ins => do
    let code ← ins.encode layout
    return d.addCode ins code

def ofProgram (layout : Layout) (p : Program) : Except Diagnostic Draft :=
  p.declarations.foldlM (add layout) empty

def overwrite (bytes : Array UInt8) (offset : Nat) : List UInt8 → Array UInt8
  | [] => bytes
  | b :: rest => overwrite (bytes.setIfInBounds offset b) (offset + 1) rest

@[simp] theorem size_overwrite (bytes : Array UInt8) (offset : Nat) (written : List UInt8) :
    (overwrite bytes offset written).size = bytes.size := by
  induction written generalizing bytes offset with
  | nil => rfl
  | cons b rest ih => simp [overwrite, ih]

/-- The entry with bytes written over those from `offset` on, an offset into the whole code. -/
def overwriteEntry (offset : Nat) (written : List UInt8) (entry : ListingEntry) : ListingEntry :=
  { entry with bytes := (overwrite entry.bytes.toArray (offset - entry.offset) written).toList }

/-- The entries with bytes written into the latest of them that begins before `offset`. -/
def amend (offset : Nat) (written : List UInt8) (entries : List ListingEntry) :
    List ListingEntry :=
  entries.modify (entries.findIdx fun entry => entry.offset < offset)
    (overwriteEntry offset written)

def write (d : Draft) (offset : Nat) (written : List UInt8) : Draft :=
  { d with
    bytes := overwrite d.bytes offset written
    entries := amend offset written d.entries }

def fill (labels : LabelTable UInt32) (d : Draft) (hole : Hole) : Except Diagnostic Draft :=
  match labels.find? hole.label with
  | some address => .ok (d.write hole.offset (Word.toBytes address))
  | none => .error ⟨hole.location, .unresolvedLabel hole.label⟩

def resolve (d : Draft) : Except Diagnostic Draft := d.holes.toList.foldlM (fill d.labels) d

def finish (d : Draft) : Except Diagnostic Image := do
  let filled ← d.resolve
  return ⟨filled.bytes.toList, d.labels, filled.entries.reverse⟩

end Draft

def Image.ofProgram (layout : Layout) (p : Program) : Except Diagnostic Image := do
  let draft ← Draft.ofProgram layout p
  draft.finish

end FourVin
