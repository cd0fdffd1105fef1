/-
The contents of a file, of which only the bytes up to the last one written are kept.

The view of an image is its `size` and `byteAt`; `byteAt_write` and `byteAt_clear` say what
the operations do to it.
-/
import BlockFS.Bytes.Patch

namespace BlockFS

/-- The lengths of files lie below. -/
def fileLengthLimit : Nat := 1 <<< 63

/-- A file of `size` bytes.  Those behind `stored` are zero. -/
structure Image where
  stored : ByteArray
  size : Nat
  stored_le : stored.size ≤ size

namespace Image

def zeros (size : Nat) : Image := ⟨.empty, size, Nat.zero_le size⟩

def ofByteArray (a : ByteArray) : Image := ⟨a, a.size, Nat.le_refl _⟩

/-- The byte at position `i`, which is zero from the end of the file on. -/
def byteAt (img : Image) (i : Nat) : UInt8 := Bytes.peek img.stored i

/-- The `len` bytes from position `pos` on, with zeros from the end of the file on. -/
def slice (img : Image) (pos len : Nat) : Bytes :=
  (List.range len).map fun k => img.byteAt (pos + k)

/-- The `len` bytes from position `pos` on, if the file has them all. -/
def read? (img : Image) (pos len : Nat) : Option Bytes :=
  if pos + len ≤ img.size then some (img.slice pos len) else none

def toBytes (img : Image) : Bytes := img.slice 0 img.size

/-- Writes `bs` at position `pos`, with zeros in between if that is behind the end.
Writing nothing leaves the file as it is. -/
def write (img : Image) (pos : Nat) (bs : Bytes) : Image :=
  if bs = [] then img
  else
    ⟨Bytes.patch img.stored pos bs, max img.size (pos + bs.length), by
      have := img.stored_le
      rw [Bytes.size_patch]
      omega⟩

theorem size_putAll_zeros_le (img : Image) (pos len : Nat) :
    (Bytes.putAll img.stored pos
      (List.replicate (min (pos + len) img.stored.size - pos) 0)).size
      ≤ max img.size (pos + len) := by
  have := img.stored_le
  by_cases h : pos ≤ img.stored.size
  · rw [Bytes.size_putAll _ h, List.length_replicate]
    omega
  · rw [show min (pos + len) img.stored.size - pos = 0 by omega, List.replicate_zero, Bytes.putAll]
    omega

/-- Sets `len` bytes from position `pos` on to zero.  The file is extended if it ends
before them. -/
def clear (img : Image) (pos len : Nat) : Image :=
  let count := min (pos + len) img.stored.size - pos
  ⟨Bytes.putAll img.stored pos (List.replicate count 0), max img.size (pos + len),
    size_putAll_zeros_le img pos len⟩

/-- All bytes of the file, ready to be written out. -/
def toByteArray (img : Image) : ByteArray :=
  Bytes.pushZeros (img.size - img.stored.size) img.stored

@[simp] theorem length_slice (img : Image) (pos len : Nat) : (img.slice pos len).length = len := by
  simp [slice]

@[simp] theorem size_zeros (size : Nat) : (zeros size).size = size := rfl

@[simp] theorem byteAt_zeros (size i : Nat) : (zeros size).byteAt i = 0 :=
  Bytes.peek_of_size_le (Nat.zero_le i)

theorem slice_zeros (size pos len : Nat) : (zeros size).slice pos len = List.replicate len 0 := by
  apply List.ext_getElem (by simp)
  intro i h₁ h₂
  simp [slice]

theorem size_write (img : Image) (pos : Nat) (bs : Bytes) :
    (img.write pos bs).size = if bs = [] then img.size else max img.size (pos + bs.length) := by
  unfold write
  split <;> rfl

theorem byteAt_write (img : Image) (pos : Nat) (bs : Bytes) (i : Nat) :
    (img.write pos bs).byteAt i
      = if pos ≤ i ∧ i < pos + bs.length then bs.getD (i - pos) 0 else img.byteAt i := by
  unfold write
  split
  · next h =>
    rw [if_neg]
    simp only [h, List.length_nil]
    omega
  · exact Bytes.peek_patch img.stored pos bs i

@[simp] theorem size_clear (img : Image) (pos len : Nat) :
    (img.clear pos len).size = max img.size (pos + len) := rfl

theorem byteAt_clear (img : Image) (pos len i : Nat) :
    (img.clear pos len).byteAt i
      = if pos ≤ i ∧ i < pos + len then 0 else img.byteAt i := by
  have hend : img.stored.size ≤ i → Bytes.peek img.stored i = 0 := Bytes.peek_of_size_le
  by_cases hpos : pos ≤ img.stored.size
  · simp only [clear, byteAt, Bytes.peek_putAll _ hpos, List.length_replicate]
    grind
  · have hcount : min (pos + len) img.stored.size - pos = 0 := by omega
    simp only [clear, byteAt, hcount, List.replicate_zero, Bytes.putAll]
    grind

theorem size_toByteArray (img : Image) : img.toByteArray.size = img.size := by
  have := img.stored_le
  rw [toByteArray, Bytes.size_pushZeros]
  omega

theorem peek_toByteArray (img : Image) (i : Nat) : Bytes.peek img.toByteArray i = img.byteAt i :=
  Bytes.peek_pushZeros _ _ i

end Image
end BlockFS
