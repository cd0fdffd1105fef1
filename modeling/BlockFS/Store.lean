/-
A store: blocks of one length, numbered from 0, and the bitmap that says which of them
are occupied.

Block 0 is never handed out.  In memory it is unused, in a disk image it holds the
header.  Reading and writing do not ask whether a block is occupied.
-/
import BlockFS.Bitmap
import BlockFS.Image

namespace BlockFS

/-- What a store keeps its blocks in. -/
inductive Medium where
  | memory
  | disk
  deriving DecidableEq

/-- Why a call to a store fails. -/
inductive StoreFault where
  /-- Block 0 is read or written; the medium says what it is there for. -/
  | reserved (medium : Medium)
  | outOfBounds (block : BlockNumber)
  | wrongLength (length blockLen : Nat)
  /-- The file ends before the block does. -/
  | shortRead (block : BlockNumber)
  | release (fault : Bitmap.ReleaseFault)
  deriving DecidableEq

/-- The texts of a fault, each followed by its cause. -/
def StoreFault.chain : StoreFault → List String
  | reserved .memory => ["block 0 is reserved"]
  | reserved .disk => ["block 0 holds the disk header"]
  | outOfBounds block => [s!"block number out of bounds: {block}"]
  | wrongLength length blockLen => [s!"block is {length} bytes long, expected {blockLen}"]
  | shortRead block => [s!"reading block {block}", "failed to fill whole buffer"]
  | release fault => [fault.message]

/-- Blocks of `blockLen` bytes.  Block `k` lies at `k * blockLen` in the image. -/
structure Store where
  medium : Medium
  blockLen : Nat
  bitmap : Bitmap
  image : Image

namespace Store

def blockCount (s : Store) : Nat := s.bitmap.size

def freeCount (s : Store) : Nat := s.bitmap.freeCount

def isAllocated (s : Store) (b : BlockNumber) : Bool := s.bitmap.isAllocated b

def position (s : Store) (b : BlockNumber) : Except StoreFault Nat :=
  if b = noBlock then .error (.reserved s.medium)
  else if s.blockCount ≤ b.toNat then .error (.outOfBounds b)
  else .ok (b.toNat * s.blockLen)

def read (s : Store) (b : BlockNumber) : Except StoreFault Bytes :=
  match s.position b with
  | .error fault => .error fault
  | .ok pos =>
    match s.image.read? pos s.blockLen with
    | some contents => .ok contents
    | none => .error (.shortRead b)

def write (s : Store) (b : BlockNumber) (contents : Bytes) : Except StoreFault Store :=
  if contents.length ≠ s.blockLen then .error (.wrongLength contents.length s.blockLen)
  else
    match s.position b with
    | .error fault => .error fault
    | .ok pos =>
      let ⟨medium, blockLen, bitmap, image⟩ := s
      .ok ⟨medium, blockLen, bitmap, image.write pos contents⟩

def allocate (s : Store) : Option (BlockNumber × Store) :=
  let ⟨medium, blockLen, bitmap, image⟩ := s
  match bitmap.allocate with
  | none => none
  | some (b, bitmap) => some (b, ⟨medium, blockLen, bitmap, image⟩)

def release (s : Store) (b : BlockNumber) : Except StoreFault Store :=
  let ⟨medium, blockLen, bitmap, image⟩ := s
  match bitmap.release b with
  | .ok bitmap => .ok ⟨medium, blockLen, bitmap, image⟩
  | .error fault => .error (.release fault)

/-- Why there is no store in memory. -/
inductive MemoryFault where
  | emptyBlocks
  /-- There is no room for the blocks. -/
  | exceedsMemory
  | bitmap (fault : Bitmap.SizeFault)
  deriving DecidableEq

def MemoryFault.message : MemoryFault → String
  | emptyBlocks => "blocks must be at least one byte long"
  | exceedsMemory => "too many bytes for a store in memory"
  | bitmap fault => fault.message

/-- A store in memory.  All blocks are zero, so block 1 is an empty root directory. -/
def inMemory (blockLen blocks : Nat) : Except MemoryFault Store :=
  if blockLen = 0 then .error .emptyBlocks
  else if addressLimit ≤ blockLen * blocks then .error .exceedsMemory
  else
    match Bitmap.fresh blocks with
    | .error fault => .error (.bitmap fault)
    | .ok bitmap => .ok ⟨.memory, blockLen, bitmap, Image.zeros (blockLen * blocks)⟩

theorem position_eq_ok_iff {s : Store} {b : BlockNumber} {pos : Nat} :
    s.position b = .ok pos ↔
      b ≠ noBlock ∧ b.toNat < s.blockCount ∧ pos = b.toNat * s.blockLen := by
  unfold position
  grind

/-- What was written to a block is read from it. -/
theorem read_of_write {s t : Store} {b : BlockNumber} {contents : Bytes}
    (h : s.write b contents = .ok t) : t.read b = .ok contents := by
  unfold write at h
  split at h
  · cases h
  · next hlen =>
    have hlen : contents.length = s.blockLen := Decidable.not_not.1 hlen
    split at h
    · cases h
    · next pos hpos =>
      cases h
      have hread : (s.image.write pos contents).read? pos s.blockLen = some contents := by
        unfold Image.read?
        rw [if_pos]
        · congr 1
          apply List.ext_getElem (by simp [hlen])
          intro i h₁ h₂
          simp only [Image.slice, List.getElem_map, List.getElem_range, Image.byteAt_write]
          rw [if_pos (by omega), Nat.add_sub_cancel_left]
          simp [h₂]
        · rw [Image.size_write]
          split
          · next hnil =>
            subst hnil
            obtain ⟨_, _, rfl⟩ := position_eq_ok_iff.1 hpos
            rw [← hlen]
            simp
          · omega
      unfold read
      have hpos' : position { s with image := s.image.write pos contents } b = .ok pos := hpos
      rw [hpos']
      simp only [hread]

/-- Writing to a block leaves the others as they are. -/
theorem read_of_write_of_ne {s t : Store} {a b : BlockNumber} {contents : Bytes}
    (h : s.write b contents = .ok t) (hne : a ≠ b) {old : Bytes} (hold : s.read a = .ok old) :
    t.read a = .ok old := by
  unfold write at h
  split at h
  · cases h
  · next hlen =>
    have hlen : contents.length = s.blockLen := Decidable.not_not.1 hlen
    split at h
    · cases h
    · next pos hpos =>
      cases h
      obtain ⟨_, _, rfl⟩ := position_eq_ok_iff.1 hpos
      unfold read at hold ⊢
      split at hold
      · cases hold
      · next apos hapos =>
        have hapos' : position ⟨s.medium, s.blockLen, s.bitmap,
            s.image.write (b.toNat * s.blockLen) contents⟩ a = .ok apos := hapos
        obtain ⟨_, _, rfl⟩ := position_eq_ok_iff.1 hapos
        rw [hapos']
        have hnat : a.toNat ≠ b.toNat := fun h => hne (UInt32.toNat_inj.1 h)
        have hdisj : a.toNat * s.blockLen + s.blockLen ≤ b.toNat * s.blockLen ∨
            b.toNat * s.blockLen + s.blockLen ≤ a.toNat * s.blockLen := by
          rcases Nat.lt_or_gt_of_ne hnat with hlt | hgt
          · exact .inl (Nat.succ_mul a.toNat s.blockLen ▸ Nat.mul_le_mul_right _ hlt)
          · exact .inr (Nat.succ_mul b.toNat s.blockLen ▸ Nat.mul_le_mul_right _ hgt)
        have hslice : (s.image.write (b.toNat * s.blockLen) contents).slice
              (a.toNat * s.blockLen) s.blockLen
            = s.image.slice (a.toNat * s.blockLen) s.blockLen := by
          apply List.map_congr_left
          intro k hk
          have hk := List.mem_range.1 hk
          rw [Image.byteAt_write, if_neg (by omega)]
        have hsize : s.image.size ≤ (s.image.write (b.toNat * s.blockLen) contents).size := by
          rw [Image.size_write]
          split <;> omega
        simp only [Image.read?] at hold ⊢
        by_cases hfits : a.toNat * s.blockLen + s.blockLen ≤ s.image.size
        · rw [if_pos hfits] at hold
          rw [if_pos (Nat.le_trans hfits hsize), hslice]
          exact hold
        · rw [if_neg hfits] at hold
          cases hold

end Store
end BlockFS
