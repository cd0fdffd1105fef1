/-
The allocation bitmap: which blocks of a store are occupied.

The view of a bitmap is `occupied`.  `allocate` takes the least free block, and
`release` gives one back; blocks 0 and 1 stay occupied throughout, which the type
records.  In bytes the flags stand eight to a byte.  The bits behind the last flag of
the last byte carry no meaning but are kept as they were read.
-/
import BlockFS.Block
import BlockFS.Bytes.Bits

namespace BlockFS

/-- Which blocks of a store are occupied. -/
structure Bitmap where
  /-- One flag for each block. -/
  flags : Array Bool
  /-- The bits that fill the last byte. -/
  spare : List Bool
  noBlock_set : flags[0]? = some true
  rootBlock_set : flags[1]? = some true
  spare_length : spare.length = (8 - flags.size % 8) % 8

namespace Bitmap

/-- The least number of blocks that a store has: the reserved ones. -/
def minBlocks : Nat := 2

/-- The numbers of bits that can be counted in memory lie below. -/
def sizeLimit : Nat := 1 <<< 61

/-- Why there is no bitmap of a size. -/
inductive SizeFault where
  | tooFewBlocks
  | tooManyBlocks
  deriving DecidableEq

def SizeFault.message : SizeFault → String
  | tooFewBlocks => s!"a disk needs at least {minBlocks} blocks"
  | tooManyBlocks => "too many blocks for a bitmap"

/-- Why bytes are no bitmap of a store. -/
inductive LoadFault where
  | tooFewBlocks (blocks : Nat)
  | tooShort (bits blocks : Nat)
  | reservedFree
  deriving DecidableEq

def LoadFault.message : LoadFault → String
  | tooFewBlocks blocks => s!"a disk needs at least {minBlocks} blocks, found {blocks}"
  | tooShort bits blocks => s!"bitmap holds {bits} bits, expected {blocks}"
  | reservedFree => "reserved blocks are marked as free"

inductive ReleaseFault where
  | outOfBounds (block : BlockNumber)
  | reserved (block : BlockNumber)
  | alreadyFree (block : BlockNumber)
  deriving DecidableEq

def ReleaseFault.message : ReleaseFault → String
  | outOfBounds block => s!"block number out of bounds: {block}"
  | reserved block => s!"block {block} is reserved"
  | alreadyFree block => s!"block {block} is already free"

def size (m : Bitmap) : Nat := m.flags.size

/-- Whether the block numbered `k` is occupied; no block from `size` on is. -/
def occupied (m : Bitmap) (k : Nat) : Bool := m.flags[k]? == some true

def isAllocated (m : Bitmap) (b : BlockNumber) : Bool := m.occupied b.toNat

def freeCount (m : Bitmap) : Nat := m.flags.count false

theorem two_le_size (m : Bitmap) : 2 ≤ m.size :=
  (Array.getElem?_eq_some_iff.1 m.rootBlock_set).1

/-- The flags of `n` blocks of which only the reserved ones are occupied. -/
def freshFlags (n : Nat) : Array Bool :=
  ((Array.replicate n false).setIfInBounds 0 true).setIfInBounds 1 true

/-- The bitmap of `n` blocks of which only the reserved ones are occupied. -/
def fresh (n : Nat) : Except SizeFault Bitmap :=
  if h : n < minBlocks then .error .tooFewBlocks
  else if sizeLimit ≤ n then .error .tooManyBlocks
  else
    .ok {
      flags := freshFlags n
      spare := List.replicate ((8 - n % 8) % 8) false
      noBlock_set := by simp [freshFlags, minBlocks] at h ⊢; grind
      rootBlock_set := by simp [freshFlags, minBlocks] at h ⊢; grind
      spare_length := by simp [freshFlags] }

/-- The bitmap of `n` blocks at the start of `bs`. -/
def ofBytes (bs : Bytes) (n : Nat) : Except LoadFault Bitmap :=
  let bits := Bytes.bits (bs.take ((n + 7) / 8))
  if n < minBlocks then .error (.tooFewBlocks n)
  else if h : 8 * bs.length < n then .error (.tooShort (8 * bs.length) n)
  else
    let flags := (bits.take n).toArray
    if hr : flags[0]? = some true ∧ flags[1]? = some true then
      .ok {
        flags := flags
        spare := bits.drop n
        noBlock_set := hr.1
        rootBlock_set := hr.2
        spare_length := by
          have hbits : bits.length = 8 * min ((n + 7) / 8) bs.length := by
            simp [bits, Bytes.length_bits]
          have hsize : flags.size = n := by simp [flags]; omega
          rw [List.length_drop, hsize]
          omega }
    else .error .reservedFree

/-- The bytes of a bitmap, spare bits included. -/
def toBytes (m : Bitmap) : Bytes :=
  Bytes.ofBits (m.flags.toList ++ m.spare)

def allocate (m : Bitmap) : Option (BlockNumber × Bitmap) :=
  match m.flags.findIdx? (! ·) with
  | none => none
  | some i =>
    some (UInt32.ofNat i, {
      flags := m.flags.setIfInBounds i true
      spare := m.spare
      noBlock_set := by have := m.noBlock_set; grind
      rootBlock_set := by have := m.rootBlock_set; grind
      spare_length := by have := m.spare_length; grind })

def release (m : Bitmap) (b : BlockNumber) : Except ReleaseFault Bitmap :=
  if m.size ≤ b.toNat then .error (.outOfBounds b)
  else if h : b.toNat < minBlocks then .error (.reserved b)
  else if !m.isAllocated b then .error (.alreadyFree b)
  else
    .ok {
      flags := m.flags.setIfInBounds b.toNat false
      spare := m.spare
      noBlock_set := by have := m.noBlock_set; have := h; grind [minBlocks]
      rootBlock_set := by have := m.rootBlock_set; have := h; grind [minBlocks]
      spare_length := by have := m.spare_length; grind }

/-- Whether two bitmaps occupy the same blocks of the same store; spare bits do not
count. -/
def agrees (m n : Bitmap) : Bool := m.flags == n.flags

theorem occupied_of_size_le {m : Bitmap} {k : Nat} (h : m.size ≤ k) : m.occupied k = false := by
  simp [occupied, Array.getElem?_eq_none_iff.2 h]

theorem lt_size_of_occupied {m : Bitmap} {k : Nat} (h : m.occupied k = true) : k < m.size := by
  apply Decidable.byContradiction
  intro hk
  rw [occupied_of_size_le (Nat.le_of_not_lt hk)] at h
  cases h

theorem occupied_zero (m : Bitmap) : m.occupied 0 = true := by
  simp [occupied, m.noBlock_set]

theorem occupied_one (m : Bitmap) : m.occupied 1 = true := by
  simp [occupied, m.rootBlock_set]

theorem size_of_fresh {n : Nat} {m : Bitmap} (h : fresh n = .ok m) : m.size = n := by
  unfold fresh at h
  split at h
  · cases h
  split at h
  · cases h
  cases h
  simp [size, freshFlags]

/-- In a fresh bitmap only the reserved blocks are occupied. -/
theorem occupied_of_fresh {n : Nat} {m : Bitmap} (h : fresh n = .ok m) (k : Nat) :
    m.occupied k = decide (k < minBlocks) := by
  unfold fresh at h
  split at h
  · cases h
  next hn =>
  split at h
  · cases h
  cases h
  simp only [occupied, freshFlags, minBlocks] at hn ⊢
  grind

/-- The block handed out is the least free one, and the only one that changes. -/
theorem allocate_eq_some {m n : Bitmap} {b : BlockNumber} (h : m.allocate = some (b, n)) :
    ∃ i, b = UInt32.ofNat i ∧ i < m.size ∧ m.occupied i = false ∧
      (∀ j < i, m.occupied j = true) ∧ n.size = m.size ∧
      ∀ k, n.occupied k = (decide (k = i) || m.occupied k) := by
  unfold allocate at h
  split at h
  · cases h
  · next i hi =>
    cases h
    obtain ⟨hlt, hfree, hleast⟩ := Array.findIdx?_eq_some_iff_getElem.1 hi
    refine ⟨i, rfl, hlt, ?_, ?_, ?_, ?_⟩
    · simpa [occupied, Array.getElem?_eq_getElem hlt] using hfree
    · intro j hj
      simpa [occupied, Array.getElem?_eq_getElem (Nat.lt_trans hj hlt)] using hleast j hj
    · simp [size]
    · intro k
      have hlt : i < m.flags.size := hlt
      simp only [occupied, Array.getElem?_setIfInBounds]
      grind

theorem allocate_eq_none_iff (m : Bitmap) :
    m.allocate = none ↔ ∀ k < m.size, m.occupied k = true := by
  have hfind : m.allocate = none ↔ m.flags.findIdx? (! ·) = none := by
    unfold allocate
    split <;> simp_all
  rw [hfind, Array.findIdx?_eq_none_iff]
  constructor
  · intro h k hk
    have := h _ (Array.getElem_mem hk)
    simpa [occupied, Array.getElem?_eq_getElem hk] using this
  · intro h x hx
    obtain ⟨k, hk, rfl⟩ := Array.mem_iff_getElem.1 hx
    have := h k hk
    simpa [occupied, Array.getElem?_eq_getElem hk] using this

/-- A block is released exactly if it is occupied and not reserved. -/
theorem release_eq_ok {m n : Bitmap} {b : BlockNumber} (h : m.release b = .ok n) :
    minBlocks ≤ b.toNat ∧ m.occupied b.toNat = true ∧ n.size = m.size ∧
      ∀ k, n.occupied k = (!decide (k = b.toNat) && m.occupied k) := by
  unfold release at h
  split at h
  · cases h
  split at h
  · cases h
  split at h
  · cases h
  next hsize hreserved hfree =>
  cases h
  refine ⟨by omega, by simpa [isAllocated] using hfree, by simp [size], ?_⟩
  intro k
  have hlt : b.toNat < m.flags.size := by simpa [size] using hsize
  simp only [occupied, Array.getElem?_setIfInBounds]
  grind

theorem exists_release {m : Bitmap} {b : BlockNumber} (hb : minBlocks ≤ b.toNat)
    (h : m.isAllocated b = true) : ∃ n, m.release b = .ok n := by
  have hlt := lt_size_of_occupied h
  unfold release
  rw [if_neg (by omega), dif_neg (by omega), if_neg (by simp [h])]
  exact ⟨_, rfl⟩

end Bitmap
end BlockFS
