/-
A bitmap stands for the set of the blocks that are occupied.

Calls take one set of numbers to another one (`Step`): the least number that is not in the set
is handed out, and a number is freed that is in it and is not reserved.  The bits behind the last
flag play no part in that, and with no more than `2 ^ 32` blocks no number is cut off.  So the
bitmap and the set stay in step over any calls (`Marks.call`, `callAll_marks`).
-/
import BlockFS.Proofs.Bitmap.Bytes
import BlockFS.Proofs.Occupancy
import Mathlib.Data.Finset.Card
import Mathlib.Order.Bounds.Basic

namespace BlockFS
namespace Bitmap

variable {m n : Bitmap} {b : BlockNumber}

theorem spare_of_allocate (h : m.allocate = some (b, n)) : n.spare = m.spare := by
  unfold allocate at h
  split at h
  · cases h
  · cases h
    rfl

theorem spare_of_release (h : m.release b = .ok n) : n.spare = m.spare := by
  unfold release at h
  split at h
  · cases h
  split at h
  · cases h
  split at h
  · cases h
  cases h
  rfl

/-- A bitmap is its flags and the bits behind them. -/
theorem eq_of_occupied (hsize : n.size = m.size) (hspare : n.spare = m.spare)
    (h : ∀ k < m.size, n.occupied k = m.occupied k) : n = m := by
  have hflags : n.flags = m.flags := by
    refine Array.ext hsize fun k hn hm => ?_
    have hk := h k hm
    simpa [occupied, hn, hm] using hk
  cases m
  cases n
  cases hflags
  cases hspare
  rfl

/-! ## Calls -/

inductive Call where
  | allocate
  | release (b : BlockNumber)
  deriving DecidableEq

/-- What a call is answered with. -/
inductive Reply where
  /-- The block that is handed out, if there is one. -/
  | block (b : Option BlockNumber)
  /-- Whether the block has been freed. -/
  | freed (done : Bool)
  deriving DecidableEq

def call (m : Bitmap) : Call → Reply × Bitmap
  | .allocate =>
    match m.allocate with
    | some (b, n) => (.block (some b), n)
    | none => (.block none, m)
  | .release b =>
    match m.release b with
    | .ok n => (.freed true, n)
    | .error _ => (.freed false, m)

/-- The answers to calls, and the bitmap after them. -/
def callAll (m : Bitmap) : List Call → List Reply × Bitmap
  | [] => ([], m)
  | c :: cs =>
    let (r, n) := m.call c
    let (rs, n) := n.callAll cs
    (r :: rs, n)

theorem call_allocate (m : Bitmap) :
    m.call .allocate =
      match m.allocate with
      | some (b, n) => (.block (some b), n)
      | none => (.block none, m) := rfl

theorem call_release (m : Bitmap) (b : BlockNumber) :
    m.call (.release b) =
      match m.release b with
      | .ok n => (.freed true, n)
      | .error _ => (.freed false, m) := rfl

theorem callAll_cons (m : Bitmap) (c : Call) (cs : List Call) :
    m.callAll (c :: cs) =
      ((m.call c).1 :: ((m.call c).2.callAll cs).1, ((m.call c).2.callAll cs).2) := rfl

/-! ## Sets of blocks -/

/-- What a call makes of the occupied ones among the first `n` blocks, and its answer. -/
inductive Step (n : Nat) : Finset Nat → Call → Reply → Finset Nat → Prop where
  /-- The least block that is free is handed out. -/
  | allocate {A : Finset Nat} {b : BlockNumber} (h : IsLeast {k | k < n ∧ k ∉ A} b.toNat) :
    Step n A .allocate (.block (some b)) (insert b.toNat A)
  | full : Step n (Finset.range n) .allocate (.block none) (Finset.range n)
  | release {A : Finset Nat} {b : BlockNumber} (hmin : minBlocks ≤ b.toNat) (hlt : b.toNat < n)
    (hmem : b.toNat ∈ A) : Step n A (.release b) (.freed true) (A.erase b.toNat)
  | refuse {A : Finset Nat} {b : BlockNumber}
    (h : ¬ (minBlocks ≤ b.toNat ∧ b.toNat < n ∧ b.toNat ∈ A)) :
    Step n A (.release b) (.freed false) A

/-- What calls in turn make of the occupied blocks. -/
inductive Steps (n : Nat) : Finset Nat → List Call → List Reply → Finset Nat → Prop where
  | nil {A : Finset Nat} : Steps n A [] [] A
  | cons {A B C : Finset Nat} {c : Call} {cs : List Call} {r : Reply} {rs : List Reply}
    (h : Step n A c r B) (hs : Steps n B cs rs C) : Steps n A (c :: cs) (r :: rs) C

section Steps

variable {n : Nat} {A B : Finset Nat} {c : Call} {r : Reply} {cs : List Call} {rs : List Reply}

/-- A block stays occupied until it is freed. -/
theorem Step.mem (h : Step n A c r B) (hc : c ≠ .release b) (hb : b.toNat ∈ A) : b.toNat ∈ B := by
  cases h with
  | allocate h => exact Finset.mem_insert_of_mem hb
  | full => exact hb
  | release hmin hlt hmem =>
    refine Finset.mem_erase.2 ⟨fun heq => hc ?_, hb⟩
    rw [UInt32.toNat_inj.1 heq]
  | refuse h => exact hb

theorem Steps.mem (h : Steps n A cs rs B) (hcs : .release b ∉ cs) (hb : b.toNat ∈ A) :
    b.toNat ∈ B := by
  induction h with
  | nil => exact hb
  | cons h hs ih =>
    obtain ⟨hc, hcs⟩ := not_or.1 (mt List.mem_cons.2 hcs)
    exact ih hcs (h.mem (Ne.symm hc) hb)

theorem Step.not_mem_of_block (h : Step n A .allocate (.block (some b)) B) :
    b.toNat ∉ A ∧ b.toNat ∈ B := by
  cases h with
  | allocate h => exact ⟨h.1.2, Finset.mem_insert_self _ _⟩

end Steps

/-! ## The set of a bitmap -/

/-- The blocks that are occupied. -/
def blocks (m : Bitmap) : Finset Nat := (Finset.range m.size).filter (m.occupied ·)

theorem mem_blocks {k : Nat} : k ∈ m.blocks ↔ m.occupied k = true := by
  rw [blocks, Finset.mem_filter, Finset.mem_range]
  exact ⟨fun h => h.2, fun h => ⟨lt_size_of_occupied h, h⟩⟩

theorem lt_size_of_mem_blocks {k : Nat} (h : k ∈ m.blocks) : k < m.size :=
  lt_size_of_occupied (mem_blocks.1 h)

theorem not_mem_blocks {k : Nat} : k ∉ m.blocks ↔ m.occupied k = false := by
  rw [mem_blocks, Bool.not_eq_true]

theorem freeCount_add_card (m : Bitmap) : m.freeCount + m.blocks.card = m.size := by
  have hlist : m.blocks = ((List.range m.size).filter m.occupied).toFinset := by
    ext k
    simp [blocks]
  rw [hlist, List.toFinset_card_of_nodup (List.nodup_range.filter _), ← List.countP_eq_length_filter]
  exact m.freeCount_add_countP

/-- A bitmap of `n` blocks marks those in `A`, the reserved ones among them. -/
structure Marks (m : Bitmap) (n : Nat) (A : Finset Nat) : Prop where
  size : m.size = n
  noBlock : 0 ∈ A
  rootBlock : 1 ∈ A
  subset : A ⊆ Finset.range n
  isAllocated_iff : ∀ b : BlockNumber, m.isAllocated b = true ↔ b.toNat ∈ A
  freeCount : m.freeCount = n - A.card

theorem marks_blocks (m : Bitmap) : m.Marks m.size m.blocks where
  size := rfl
  noBlock := mem_blocks.2 m.occupied_zero
  rootBlock := mem_blocks.2 m.occupied_one
  subset := Finset.filter_subset _ _
  isAllocated_iff := fun _ => mem_blocks.symm
  freeCount := by
    have hcard := m.freeCount_add_card
    omega

theorem blocks_of_allocate (hcount : m.size ≤ 2 ^ 32) (h : m.allocate = some (b, n)) :
    IsLeast {k | k < m.size ∧ k ∉ m.blocks} b.toNat ∧ n.size = m.size ∧
      n.blocks = insert b.toNat m.blocks := by
  obtain ⟨i, rfl, hlt, hfree, hleast, hsize, hocc⟩ := allocate_eq_some h
  have hi : (UInt32.ofNat i).toNat = i := UInt32.toNat_ofNat_of_lt' (Nat.lt_of_lt_of_le hlt hcount)
  rw [hi]
  refine ⟨⟨⟨hlt, not_mem_blocks.2 hfree⟩, fun k hk => ?_⟩, hsize, ?_⟩
  · exact Nat.le_of_not_lt fun hki => hk.2 (mem_blocks.2 (hleast k hki))
  · ext k
    rw [Finset.mem_insert, mem_blocks, mem_blocks, hocc]
    simp

theorem blocks_of_allocate_none (h : m.allocate = none) : m.blocks = Finset.range m.size := by
  ext k
  rw [Finset.mem_range]
  exact ⟨lt_size_of_mem_blocks, fun hk => mem_blocks.2 ((allocate_eq_none_iff m).1 h k hk)⟩

theorem blocks_of_release (h : m.release b = .ok n) :
    minBlocks ≤ b.toNat ∧ b.toNat ∈ m.blocks ∧ n.size = m.size ∧
      n.blocks = m.blocks.erase b.toNat := by
  obtain ⟨hmin, hocc, hsize, hrest⟩ := release_eq_ok h
  refine ⟨hmin, mem_blocks.2 hocc, hsize, ?_⟩
  ext k
  rw [Finset.mem_erase, mem_blocks, mem_blocks, hrest]
  simp

theorem size_call (m : Bitmap) (c : Call) : (m.call c).2.size = m.size := by
  cases c with
  | allocate =>
    rw [call_allocate]
    cases h : m.allocate with
    | none => rfl
    | some p =>
      obtain ⟨_, -, -, -, -, hsize, -⟩ := allocate_eq_some h
      exact hsize
  | release b =>
    rw [call_release]
    cases h : m.release b with
    | error fault => rfl
    | ok n => exact (blocks_of_release h).2.2.1

theorem size_callAll (m : Bitmap) (cs : List Call) : (m.callAll cs).2.size = m.size := by
  induction cs generalizing m with
  | nil => rfl
  | cons c cs ih => rw [callAll_cons, ih, size_call]

/-- A call does to the set what it does to the bitmap. -/
theorem step_call (hcount : m.size ≤ 2 ^ 32) (c : Call) :
    Step m.size m.blocks c (m.call c).1 (m.call c).2.blocks := by
  cases c with
  | allocate =>
    rw [call_allocate]
    cases h : m.allocate with
    | none =>
      have hfull := blocks_of_allocate_none h
      show Step m.size m.blocks .allocate (.block none) m.blocks
      rw [hfull]
      exact .full
    | some p =>
      obtain ⟨b, n⟩ := p
      obtain ⟨hleast, -, hblocks⟩ := blocks_of_allocate hcount h
      show Step m.size m.blocks .allocate (.block (some b)) n.blocks
      rw [hblocks]
      exact .allocate hleast
  | release b =>
    rw [call_release]
    cases h : m.release b with
    | error fault =>
      refine .refuse fun hb => ?_
      obtain ⟨n, hn⟩ := exists_release hb.1 (mem_blocks.1 hb.2.2)
      rw [h] at hn
      cases hn
    | ok n =>
      obtain ⟨hmin, hmem, -, hblocks⟩ := blocks_of_release h
      show Step m.size m.blocks (.release b) (.freed true) n.blocks
      rw [hblocks]
      exact .release hmin (lt_size_of_mem_blocks hmem) hmem

theorem steps_callAll (hcount : m.size ≤ 2 ^ 32) (cs : List Call) :
    Steps m.size m.blocks cs (m.callAll cs).1 (m.callAll cs).2.blocks := by
  induction cs generalizing m with
  | nil => exact .nil
  | cons c cs ih =>
    have hsize := m.size_call c
    have hrest := ih (hsize.symm ▸ hcount)
    rw [hsize] at hrest
    exact .cons (step_call hcount c) hrest

/-! ## From the start on -/

/-- A bitmap of `n` blocks has just been made, with no block occupied but the reserved ones or
from bytes. -/
def Made (n : Nat) (m : Bitmap) : Prop :=
  fresh n = .ok m ∨ ∃ bs, ofBytes bs n = .ok m

theorem Made.size {n : Nat} (h : Made n m) : m.size = n := by
  rcases h with h | ⟨bs, h⟩
  · exact size_of_fresh h
  · exact size_of_ofBytes h

theorem exists_fresh {n : Nat} (hmin : minBlocks ≤ n) (hmax : n < sizeLimit) :
    ∃ m, fresh n = .ok m := by
  unfold fresh
  rw [dif_neg (Nat.not_lt.2 hmin), if_neg (Nat.not_le.2 hmax)]
  exact ⟨_, rfl⟩

theorem blocks_of_fresh {n : Nat} (h : fresh n = .ok m) : m.blocks = {0, 1} := by
  ext k
  have hlt : k < minBlocks ↔ k = 0 ∨ k = 1 := by
    unfold minBlocks
    omega
  rw [mem_blocks, occupied_of_fresh h, decide_eq_true_iff, hlt, Finset.mem_insert,
    Finset.mem_singleton]

theorem blocks_of_ofBytes {n : Nat} {bs : Bytes} (h : ofBytes bs n = .ok m) :
    m.blocks = (Finset.range n).filter (Bytes.bit bs ·) := by
  ext k
  rw [mem_blocks, occupied_of_ofBytes h, Finset.mem_filter, Finset.mem_range, Bool.and_eq_true,
    decide_eq_true_iff]

theorem Step.block_none_iff {n : Nat} {A B : Finset Nat} {r : Reply}
    (h : Step n A .allocate r B) : r = .block none ↔ A = Finset.range n := by
  cases h with
  | full => simp
  | allocate h =>
    refine ⟨fun h => (nomatch h), fun heq => ?_⟩
    have hfree := h.1
    rw [heq] at hfree
    exact absurd (Finset.mem_range.2 hfree.1) hfree.2

theorem Step.freed_true_iff {n : Nat} {A B : Finset Nat} {r : Reply}
    (h : Step n A (.release b) r B) :
    r = .freed true ↔ minBlocks ≤ b.toNat ∧ b.toNat < n ∧ b.toNat ∈ A := by
  cases h with
  | release hmin hlt hmem => exact ⟨fun _ => ⟨hmin, hlt, hmem⟩, fun _ => rfl⟩
  | refuse h => exact ⟨fun heq => (nomatch heq), fun hb => absurd hb h⟩

/-- A block that has been handed out is not handed out again before it is freed. -/
theorem call_allocate_ne (hcount : m.size ≤ 2 ^ 32)
    (h : (m.call .allocate).1 = .block (some b)) {cs : List Call} (hcs : .release b ∉ cs) :
    (((m.call .allocate).2.callAll cs).2.call .allocate).1 ≠ .block (some b) := by
  intro heq
  have hcount₁ : (m.call .allocate).2.size ≤ 2 ^ 32 := by rwa [size_call]
  have hcount₂ : ((m.call .allocate).2.callAll cs).2.size ≤ 2 ^ 32 := by rwa [size_callAll]
  have hfirst := step_call hcount .allocate
  have hlast := step_call hcount₂ .allocate
  rw [h] at hfirst
  rw [heq] at hlast
  exact hlast.not_mem_of_block.1 ((steps_callAll hcount₁ cs).mem hcs hfirst.not_mem_of_block.2)

/-- A bitmap is a set of blocks.  However it was made, calls to it do what they do to the set: the
least free block is handed out, none if all are occupied, and a block is freed if it is occupied
and not reserved.  No block is handed out again before it has been freed. -/
theorem callAll_marks {n : Nat} (hmin : minBlocks ≤ n) (hmax : n ≤ 2 ^ 32) :
    (∃ m, fresh n = .ok m) ∧ (∀ m, fresh n = .ok m → m.blocks = {0, 1}) ∧
      (∀ bs m, ofBytes bs n = .ok m → m.blocks = (Finset.range n).filter (Bytes.bit bs ·)) ∧
      ∀ m, Made n m → ∀ cs : List Call,
        let v := (m.callAll cs).2
        Steps n m.blocks cs (m.callAll cs).1 v.blocks ∧ v.Marks n v.blocks ∧
          ((v.call .allocate).1 = .block none ↔ v.blocks = Finset.range n) ∧
          (∀ b, (v.call (.release b)).1 = .freed true ↔
            minBlocks ≤ b.toNat ∧ b.toNat < n ∧ b.toNat ∈ v.blocks) ∧
          ∀ b, (v.call .allocate).1 = .block (some b) → minBlocks ≤ b.toNat ∧
            ∀ cs' : List Call, .release b ∉ cs' →
              (((v.call .allocate).2.callAll cs').2.call .allocate).1 ≠ .block (some b) := by
  refine ⟨exists_fresh hmin (Nat.lt_of_le_of_lt hmax (by decide)), fun _ => blocks_of_fresh,
    fun _ _ => blocks_of_ofBytes, ?_⟩
  intro m hm cs v
  obtain rfl := hm.size
  have hsize : v.size = m.size := m.size_callAll cs
  have hcount : v.size ≤ 2 ^ 32 := hsize.symm ▸ hmax
  have hstep := fun c => step_call hcount c
  have hmarks := v.marks_blocks
  rw [hsize] at hstep hmarks
  refine ⟨steps_callAll hmax cs, hmarks, (hstep .allocate).block_none_iff,
    fun b => (hstep (.release b)).freed_true_iff, fun b hb => ⟨?_, ?_⟩⟩
  · have hfree := hstep .allocate
    rw [hb] at hfree
    have hnot := hfree.not_mem_of_block.1
    by_contra hlt
    have hlt : b.toNat < 2 := Nat.lt_of_not_le hlt
    have hzero : b.toNat ≠ 0 := fun h => hnot (h ▸ hmarks.noBlock)
    have hone : b.toNat ≠ 1 := fun h => hnot (h ▸ hmarks.rootBlock)
    omega
  · exact fun cs' hcs' => call_allocate_ne hcount hb hcs'

/-- Thirteen blocks in two bytes, of which the three bits behind the last block are set. -/
theorem callAll_marks_spareBits : ∃ m, ofBytes [0x07, 0xE0] 13 = .ok m ∧
    minBlocks ≤ 13 ∧ 13 ≤ 2 ^ 32 ∧ m.blocks = {0, 1, 2} ∧
    (m.callAll [.allocate, .release 2, .allocate, .release 1]).1 =
      [.block (some 3), .freed true, .block (some 2), .freed false] ∧
    Steps 13 m.blocks [.allocate, .release 2, .allocate, .release 1]
      [.block (some 3), .freed true, .block (some 2), .freed false] {0, 1, 2, 3} := by
  obtain ⟨m, hm, hstart, hend, hreplies⟩ : ∃ m, ofBytes [0x07, 0xE0] 13 = .ok m ∧
      m.blocks = {0, 1, 2} ∧
      (m.callAll [.allocate, .release 2, .allocate, .release 1]).2.blocks = {0, 1, 2, 3} ∧
      (m.callAll [.allocate, .release 2, .allocate, .release 1]).1 =
        [.block (some 3), .freed true, .block (some 2), .freed false] :=
    ⟨_, rfl, by decide +kernel, by decide +kernel, by decide +kernel⟩
  have hsteps := ((callAll_marks (by decide) (by decide)).2.2.2 m (.inr ⟨_, hm⟩)
    [.allocate, .release 2, .allocate, .release 1]).1
  rw [hreplies, hend] at hsteps
  exact ⟨m, hm, by decide, by decide, hstart, hreplies, hsteps⟩

end Bitmap
end BlockFS
