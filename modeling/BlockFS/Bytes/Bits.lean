/-
The bits of a byte string, the lowest bit of each byte first.

`ofBits_bits` says that the bits determine the bytes.
-/
import BlockFS.Bytes

namespace BlockFS
namespace Bytes

/-- The eight bits of a byte, lowest first. -/
def bitsOfByte (b : UInt8) : List Bool :=
  (List.range 8).map b.toNat.testBit

/-- The byte with the given bits, lowest first. -/
def byteOfBits (bits : List Bool) : UInt8 :=
  UInt8.ofNat (bits.foldr (fun bit n => bit.toNat + 2 * n) 0)

/-- The bits of all bytes. -/
def bits (bs : Bytes) : List Bool :=
  bs.flatMap bitsOfByte

/-- The bytes with the given bits; a last byte is filled up with zeros. -/
def ofBits : List Bool → Bytes
  | a :: b :: c :: d :: e :: f :: g :: h :: rest =>
    byteOfBits [a, b, c, d, e, f, g, h] :: ofBits rest
  | [] => []
  | bits => [byteOfBits bits]

@[simp] theorem length_bitsOfByte (b : UInt8) : (bitsOfByte b).length = 8 := by
  simp [bitsOfByte]

@[simp] theorem length_bits (bs : Bytes) : (bits bs).length = 8 * bs.length := by
  simp [bits, List.length_flatMap, List.map_const', Nat.mul_comm]

theorem byteOfBits_bitsOfByte (b : UInt8) : byteOfBits (bitsOfByte b) = b := by
  rw [← UInt8.toNat_inj, byteOfBits, UInt8.toNat_ofNat']
  have hb : b.toNat < 256 := b.toNat_lt
  generalize hn : b.toNat = n at hb
  have h : ∀ n < 256,
      ((List.range 8).map (Nat.testBit n)).foldr (fun bit m => bit.toNat + 2 * m) 0 % 2 ^ 8 = n := by
    decide +kernel
  simpa [bitsOfByte, hn] using h n hb

theorem ofBits_bits (bs : Bytes) : ofBits (bits bs) = bs := by
  induction bs with
  | nil => rfl
  | cons b bs ih =>
    have h : bits (b :: bs) = bitsOfByte b ++ bits bs := rfl
    rw [h]
    conv => rhs; rw [← byteOfBits_bitsOfByte b, ← ih]
    simp [bitsOfByte, List.range, List.range.loop, ofBits]

end Bytes
end BlockFS
