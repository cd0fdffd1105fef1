/-
Byte strings: fixed-width numbers, least significant byte first, and zero padding.

`ofNat_toNat` gives the bytes of a number back, as many as there were.
-/

namespace BlockFS

/-- A byte string. -/
abbrev Bytes := List UInt8

/-- Sizes are 64-bit words: a number of bytes from here on is out of reach. -/
def sizeLimit : Nat := 1 <<< 64

/-- The end of the address space: no value takes up as many bytes of memory. -/
def addressLimit : Nat := 1 <<< 63

namespace Bytes

/-- The `w` low bytes of `n`, least significant first. -/
def ofNat : (w : Nat) → Nat → Bytes
  | 0, _ => []
  | w + 1, n => UInt8.ofNat n :: ofNat w (n / 256)

/-- The number whose bytes, least significant first, are `bs`. -/
def toNat : Bytes → Nat
  | [] => 0
  | b :: bs => b.toNat + 256 * toNat bs

@[simp] theorem length_ofNat (w n : Nat) : (ofNat w n).length = w := by
  induction w generalizing n with
  | zero => rfl
  | succ w ih => simp [ofNat, ih]

theorem ofNat_toNat (bs : Bytes) : ofNat bs.length (toNat bs) = bs := by
  induction bs with
  | nil => rfl
  | cons b bs ih =>
    have hb : b.toNat < 256 := b.toNat_lt
    have hdiv : (b.toNat + 256 * toNat bs) / 256 = toNat bs := by omega
    have hhead : UInt8.ofNat (b.toNat + 256 * toNat bs) = b := by
      rw [← UInt8.toNat_inj, UInt8.toNat_ofNat']
      omega
    rw [List.length_cons, ofNat, toNat, hdiv, ih, hhead]

/-- `bs` followed by as many zeros as it takes to make `len` bytes. -/
def padTo (len : Nat) (bs : Bytes) : Bytes :=
  bs ++ List.replicate (len - bs.length) 0

theorem length_padTo {len : Nat} {bs : Bytes} (h : bs.length ≤ len) :
    (padTo len bs).length = len := by
  simp only [padTo, List.length_append, List.length_replicate]
  omega

def first? (n : Nat) (bs : Bytes) : Option Bytes :=
  if n ≤ bs.length then some (bs.take n) else none

/-- The first `count` pieces of `size` bytes.  The last one is shorter if `bs` ends
inside it. -/
def pieces (size : Nat) : (count : Nat) → Bytes → List Bytes
  | 0, _ => []
  | count + 1, bs => bs.take size :: pieces size count (bs.drop size)

@[simp] theorem length_pieces (size count : Nat) (bs : Bytes) :
    (pieces size count bs).length = count := by
  induction count generalizing bs with
  | zero => rfl
  | succ count ih => simp [pieces, ih]

theorem flatten_pieces (size count : Nat) (bs : Bytes) :
    (pieces size count bs).flatten = bs.take (count * size) := by
  induction count generalizing bs with
  | zero => simp [pieces]
  | succ count ih =>
    rw [pieces, List.flatten_cons, ih, Nat.succ_mul, Nat.add_comm, List.take_add]

end Bytes
end BlockFS
