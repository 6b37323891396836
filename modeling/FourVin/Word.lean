import FourVin.Text.Hex

/-!
Words of 32 bits and their bytes, the most significant first.
-/
namespace FourVin.Word

def toBytes (w : UInt32) : List UInt8 :=
  [UInt8.ofNat (w.toNat / 0x1000000), UInt8.ofNat (w.toNat / 0x10000),
   UInt8.ofNat (w.toNat / 0x100), UInt8.ofNat w.toNat]

def ofBytes (a b c d : UInt8) : UInt32 :=
  UInt32.ofNat (((a.toNat * 256 + b.toNat) * 256 + c.toNat) * 256 + d.toNat)

def hex (w : UInt32) : String := String.ofList (Text.hexFixed 8 w.toNat)

/-- The complete words at the front of a byte sequence. -/
def ofByteList : List UInt8 → List UInt32
  | a :: b :: c :: d :: rest => ofBytes a b c d :: ofByteList rest
  | _ => []

@[simp] theorem length_toBytes (w : UInt32) : (toBytes w).length = 4 := rfl

theorem toNat_ofBytes (a b c d : UInt8) :
    (ofBytes a b c d).toNat = ((a.toNat * 256 + b.toNat) * 256 + c.toNat) * 256 + d.toNat := by
  have ha := a.toNat_lt
  have hb := b.toNat_lt
  have hc := c.toNat_lt
  have hd := d.toNat_lt
  rw [ofBytes, UInt32.toNat_ofNat']
  omega

theorem ofByteList_toBytes_append (w : UInt32) (rest : List UInt8) :
    ofByteList (toBytes w ++ rest) = w :: ofByteList rest := by
  have hw := w.toNat_lt
  simp only [toBytes, List.cons_append, List.nil_append, ofByteList, List.cons.injEq, and_true]
  apply UInt32.toNat_inj.mp
  rw [toNat_ofBytes]
  simp only [UInt8.toNat_ofNat']
  omega

theorem eq_of_toBytes_eq {w v : UInt32} (h : toBytes w = toBytes v) : w = v := by
  have hwords := ofByteList_toBytes_append w []
  rw [h, ofByteList_toBytes_append] at hwords
  exact (List.cons.inj hwords).1.symm

theorem toBytes_ofBytes (a b c d : UInt8) : toBytes (ofBytes a b c d) = [a, b, c, d] := by
  have ha := a.toNat_lt
  have hb := b.toNat_lt
  have hc := c.toNat_lt
  have hd := d.toNat_lt
  simp only [toBytes, List.cons.injEq, and_true, ← UInt8.toNat_inj, UInt8.toNat_ofNat',
    toNat_ofBytes]
  omega

/-- What does not begin with four bytes is shorter than that. -/
theorem length_lt_four {bytes : List UInt8}
    (h : ∀ a b c d rest, bytes ≠ a :: b :: c :: d :: rest) : bytes.length < 4 := by
  match bytes with
  | [] | [_] | [_, _] | [_, _, _] => simp
  | a :: b :: c :: d :: rest => exact absurd rfl (h a b c d rest)

theorem length_ofByteList (bytes : List UInt8) : (ofByteList bytes).length = bytes.length / 4 := by
  fun_induction ofByteList bytes with
  | case1 a b c d rest ih =>
    simp only [List.length_cons, ih]
    omega
  | case2 bytes h => rw [List.length_nil, Nat.div_eq_of_lt (length_lt_four h)]

end FourVin.Word
