/-
What a store does to the blocks in use.

A store is read through two views: `InUse` says which blocks hold something, `bytes` says
what.  Every call to a store has one lemma that says what becomes of both.  `Extends` and
`Shrinks` compare two stores whose blocks in use differ by a list of blocks.  The blocks in
use beyond a list are its `leaks`, and `freeCount_add_leaks` counts all there are.
-/
import BlockFS.Store
import Mathlib.Data.Bool.Count
import Mathlib.Data.List.Nodup

namespace BlockFS

namespace Bitmap

theorem count_true_eq_countP (m : Bitmap) :
    m.flags.toList.count true = (List.range m.size).countP m.occupied := by
  have hmap : m.flags.toList = (List.range m.size).map m.occupied := by
    apply List.ext_getElem
    · simp [size]
    · intro k h₁ h₂
      have hk : k < m.flags.size := by simpa using h₁
      simp [occupied, hk]
  rw [List.count, hmap, List.countP_map]
  congr 1
  funext k
  simp

theorem freeCount_add_countP (m : Bitmap) :
    m.freeCount + (List.range m.size).countP m.occupied = m.size := by
  have h := List.count_true_add_count_false m.flags.toList
  rw [count_true_eq_countP] at h
  rw [freeCount, ← Array.count_toList, size]
  simp only [size, Array.length_toList] at h
  omega

end Bitmap

/-! ## Views of a store -/

namespace Store

/-- The bytes of a block, or none if it cannot be read. -/
def bytes (s : Store) (b : BlockNumber) : Bytes :=
  match s.read b with
  | .ok contents => contents
  | .error _ => []

/-- A block that holds something.  Block 0 never does, although the bitmap marks it. -/
def InUse (s : Store) (b : BlockNumber) : Prop :=
  b ≠ noBlock ∧ s.isAllocated b = true

instance (s : Store) (b : BlockNumber) : Decidable (s.InUse b) :=
  inferInstanceAs (Decidable (_ ∧ _))

/-- All blocks can be numbered, and lie within the image. -/
structure WellFormed (s : Store) : Prop where
  blockCount_lt : s.blockCount < 2 ^ 32
  covered : s.blockCount * s.blockLen ≤ s.image.size

theorem InUse.lt {s : Store} {b : BlockNumber} (h : s.InUse b) : b.toNat < s.blockCount :=
  Bitmap.lt_size_of_occupied h.2

theorem inUse_rootBlock (s : Store) : s.InUse rootBlock :=
  ⟨by decide, s.bitmap.occupied_one⟩

theorem length_of_read {s : Store} {b : BlockNumber} {contents : Bytes}
    (h : s.read b = .ok contents) : contents.length = s.blockLen := by
  unfold read at h
  split at h
  · cases h
  · split at h
    · next hread =>
      cases h
      unfold Image.read? at hread
      split at hread
      · cases hread
        exact Image.length_slice ..
      · cases hread
    · cases h

/-- A block ends within the image. -/
theorem WellFormed.block_le {s : Store} (hs : s.WellFormed) {b : BlockNumber}
    (hb : b.toNat < s.blockCount) : b.toNat * s.blockLen + s.blockLen ≤ s.image.size := by
  have hend : (b.toNat + 1) * s.blockLen ≤ s.blockCount * s.blockLen :=
    Nat.mul_le_mul_right _ hb
  rw [Nat.succ_mul] at hend
  exact Nat.le_trans hend hs.covered

/-- Every block but block 0 can be read. -/
theorem WellFormed.read_eq {s : Store} (hs : s.WellFormed) {b : BlockNumber} (hb : b ≠ noBlock)
    (hlt : b.toNat < s.blockCount) :
    s.read b = .ok (s.image.slice (b.toNat * s.blockLen) s.blockLen) := by
  have hpos : s.position b = .ok (b.toNat * s.blockLen) :=
    position_eq_ok_iff.2 ⟨hb, hlt, rfl⟩
  unfold Store.read
  rw [hpos]
  simp only [Image.read?, if_pos (hs.block_le hlt)]

theorem WellFormed.read {s : Store} (hs : s.WellFormed) {b : BlockNumber} (hb : s.InUse b) :
    s.read b = .ok (s.bytes b) := by
  unfold bytes
  rw [hs.read_eq hb.1 hb.lt]

theorem WellFormed.length_bytes {s : Store} (hs : s.WellFormed) {b : BlockNumber}
    (hb : s.InUse b) : (s.bytes b).length = s.blockLen :=
  length_of_read (hs.read hb)

theorem bytes_of_read {s : Store} {b : BlockNumber} {contents : Bytes}
    (h : s.read b = .ok contents) : s.bytes b = contents := by
  unfold bytes
  rw [h]

theorem WellFormed.ofNat_toNat {s : Store} (hs : s.WellFormed) {k : Nat} (hk : k < s.blockCount) :
    (UInt32.ofNat k).toNat = k :=
  UInt32.toNat_ofNat_of_lt' (Nat.lt_trans hk hs.blockCount_lt)

theorem WellFormed.inUse_ofNat_iff {s : Store} (hs : s.WellFormed) {k : Nat} (hk : k < s.blockCount) :
    s.InUse (UInt32.ofNat k) ↔ k ≠ 0 ∧ s.bitmap.occupied k = true := by
  have hto : (UInt32.ofNat k).toNat = k := hs.ofNat_toNat hk
  have hzero : UInt32.ofNat k = noBlock ↔ k = 0 := by
    rw [← UInt32.toNat_inj, hto]
    exact Iff.rfl
  rw [InUse, isAllocated, Bitmap.isAllocated, hto, ne_eq, hzero]

/-! ## Writing -/

/-- The store after a block has been given new contents. -/
structure Rewrites (s t : Store) (b : BlockNumber) (contents : Bytes) : Prop where
  bitmap : t.bitmap = s.bitmap
  blockLen : t.blockLen = s.blockLen
  wellFormed : t.WellFormed
  bytes_self : t.bytes b = contents
  bytes_of_ne : ∀ a, s.InUse a → a ≠ b → t.bytes a = s.bytes a

namespace Rewrites

variable {s t : Store} {b : BlockNumber} {contents : Bytes}

theorem blockCount (h : Rewrites s t b contents) : t.blockCount = s.blockCount := by
  unfold Store.blockCount
  rw [h.bitmap]

theorem inUse_iff (h : Rewrites s t b contents) (a : BlockNumber) : t.InUse a ↔ s.InUse a := by
  unfold InUse isAllocated
  rw [h.bitmap]

end Rewrites

theorem write_eq (s : Store) (b : BlockNumber) (contents : Bytes) :
    s.write b contents =
      if contents.length ≠ s.blockLen then .error (.wrongLength contents.length s.blockLen)
      else (s.position b).map fun pos =>
        ⟨s.medium, s.blockLen, s.bitmap, s.image.write pos contents⟩ := by
  unfold Store.write
  cases s.position b <;> rfl

theorem write_eq_ok {s t : Store} {b : BlockNumber} {contents : Bytes}
    (h : s.write b contents = .ok t) :
    contents.length = s.blockLen ∧ b ≠ noBlock ∧ b.toNat < s.blockCount ∧
      t = ⟨s.medium, s.blockLen, s.bitmap, s.image.write (b.toNat * s.blockLen) contents⟩ := by
  rw [write_eq] at h
  split at h
  · cases h
  next hlen =>
  cases hp : s.position b with
  | error fault =>
    rw [hp] at h
    cases h
  | ok pos =>
    obtain ⟨hb, hlt, rfl⟩ := position_eq_ok_iff.1 hp
    rw [hp] at h
    cases h
    exact ⟨Decidable.not_not.1 hlen, hb, hlt, rfl⟩

/-- Whichever block is written, in use or not, no other one changes. -/
theorem WellFormed.rewrites {s t : Store} (hs : s.WellFormed) {b : BlockNumber} {contents : Bytes}
    (h : s.write b contents = .ok t) : s.Rewrites t b contents := by
  have hself : t.bytes b = contents := bytes_of_read (read_of_write h)
  have hother : ∀ a, s.InUse a → a ≠ b → t.bytes a = s.bytes a :=
    fun a ha hne => bytes_of_read (read_of_write_of_ne h hne (hs.read ha))
  obtain ⟨-, -, -, rfl⟩ := write_eq_ok h
  refine ⟨rfl, rfl, ⟨hs.blockCount_lt, ?_⟩, hself, hother⟩
  show s.blockCount * s.blockLen ≤ (s.image.write _ contents).size
  have := hs.covered
  rw [Image.size_write]
  split <;> omega

theorem WellFormed.write {s : Store} (hs : s.WellFormed) {b : BlockNumber} {contents : Bytes}
    (hb : s.InUse b) (hlen : contents.length = s.blockLen) :
    ∃ t, s.write b contents = .ok t ∧ s.Rewrites t b contents := by
  have hpos : s.position b = .ok (b.toNat * s.blockLen) :=
    position_eq_ok_iff.2 ⟨hb.1, hb.lt, rfl⟩
  have hwrite : s.write b contents =
      .ok ⟨s.medium, s.blockLen, s.bitmap, s.image.write (b.toNat * s.blockLen) contents⟩ := by
    unfold Store.write
    rw [if_neg (by omega), hpos]
  exact ⟨_, hwrite, hs.rewrites hwrite⟩

/-! ## Occupying blocks -/

/-- Blocks that were not in use have come into use.  Those that were keep their bytes. -/
structure Extends (s t : Store) (new : List BlockNumber) : Prop where
  wellFormed : t.WellFormed
  blockLen : t.blockLen = s.blockLen
  blockCount : t.blockCount = s.blockCount
  nodup : new.Nodup
  fresh : ∀ b ∈ new, ¬ s.InUse b
  inUse_iff : ∀ b, t.InUse b ↔ s.InUse b ∨ b ∈ new
  bytes : ∀ b, s.InUse b → t.bytes b = s.bytes b

namespace Extends

variable {s t u : Store} {new more : List BlockNumber}

theorem refl (hs : s.WellFormed) : Extends s s [] where
  wellFormed := hs
  blockLen := rfl
  blockCount := rfl
  nodup := List.nodup_nil
  fresh := by simp
  inUse_iff := by simp
  bytes := fun _ _ => rfl

theorem inUse (h : Extends s t new) {b : BlockNumber} (hb : s.InUse b) : t.InUse b :=
  (h.inUse_iff b).2 (.inl hb)

theorem trans (h : Extends s t new) (h' : Extends t u more) : Extends s u (new ++ more) where
  wellFormed := h'.wellFormed
  blockLen := h'.blockLen.trans h.blockLen
  blockCount := h'.blockCount.trans h.blockCount
  nodup := by
    refine List.nodup_append.2 ⟨h.nodup, h'.nodup, ?_⟩
    intro a ha b hb heq
    subst heq
    exact h'.fresh a hb ((h.inUse_iff a).2 (.inr ha))
  fresh := by
    intro b hb
    rcases List.mem_append.1 hb with hb | hb
    · exact h.fresh b hb
    · exact fun hs => h'.fresh b hb (h.inUse hs)
  inUse_iff := by
    intro b
    rw [h'.inUse_iff, h.inUse_iff, List.mem_append, or_assoc]
  bytes := fun b hb => (h'.bytes b (h.inUse hb)).trans (h.bytes b hb)

theorem perm (h : Extends s t new) (hp : new.Perm more) : Extends s t more where
  wellFormed := h.wellFormed
  blockLen := h.blockLen
  blockCount := h.blockCount
  nodup := hp.nodup_iff.1 h.nodup
  fresh := fun b hb => h.fresh b (hp.mem_iff.2 hb)
  inUse_iff := fun b => by rw [h.inUse_iff, hp.mem_iff]
  bytes := h.bytes

theorem rewrites (h : Extends s t new) {b : BlockNumber} {contents : Bytes} (hb : b ∈ new)
    (hw : t.Rewrites u b contents) : Extends s u new where
  wellFormed := hw.wellFormed
  blockLen := hw.blockLen.trans h.blockLen
  blockCount := hw.blockCount.trans h.blockCount
  nodup := h.nodup
  fresh := h.fresh
  inUse_iff := fun a => (hw.inUse_iff a).trans (h.inUse_iff a)
  bytes := by
    intro a ha
    have hne : a ≠ b := by
      intro heq
      subst heq
      exact h.fresh a hb ha
    exact (hw.bytes_of_ne a (h.inUse ha) hne).trans (h.bytes a ha)

end Extends

theorem bytes_bitmap {s : Store} {m : Bitmap} (hm : m.size = s.bitmap.size) (b : BlockNumber) :
    bytes ⟨s.medium, s.blockLen, m, s.image⟩ b = s.bytes b := by
  unfold bytes read position blockCount
  simp only [hm]

theorem WellFormed.bitmap {s : Store} (hs : s.WellFormed) {m : Bitmap}
    (hm : m.size = s.bitmap.size) : WellFormed ⟨s.medium, s.blockLen, m, s.image⟩ := by
  refine ⟨?_, ?_⟩
  · show m.size < 2 ^ 32
    rw [hm]
    exact hs.blockCount_lt
  · show m.size * s.blockLen ≤ s.image.size
    rw [hm]
    exact hs.covered

theorem allocate_eq_some {s t : Store} {b : BlockNumber} (h : s.allocate = some (b, t)) :
    ∃ m, s.bitmap.allocate = some (b, m) ∧ t = ⟨s.medium, s.blockLen, m, s.image⟩ := by
  obtain ⟨medium, blockLen, bitmap, image⟩ := s
  simp only [Store.allocate] at h
  split at h
  · cases h
  · next c m hm =>
    cases h
    exact ⟨m, hm, rfl⟩

/-- The free blocks in the order in which they are handed out. -/
def freeBlocks (s : Store) : List BlockNumber :=
  ((List.range s.blockCount).filter fun k => ! s.bitmap.occupied k).map UInt32.ofNat

theorem freeBlocks_of_allocate {s t : Store} {b : BlockNumber} (h : s.allocate = some (b, t)) :
    s.freeBlocks = b :: t.freeBlocks := by
  obtain ⟨m, hm, rfl⟩ := allocate_eq_some h
  obtain ⟨i, rfl, hlt, hfree, hleast, hsize, hocc⟩ := Bitmap.allocate_eq_some hm
  -- None below the block is free, neither before nor after; the flags above it stay.
  obtain ⟨n, hn⟩ : ∃ n, s.bitmap.size = i + 1 + n := Nat.exists_eq_add_of_le hlt
  have hbelow : ∀ m' : Bitmap, (∀ j < i, m'.occupied j = true) →
      (List.range i).filter (fun k => ! m'.occupied k) = [] := by
    intro m' hall
    refine List.filter_eq_nil_iff.2 fun j hj => ?_
    simp [hall j (List.mem_range.1 hj)]
  have habove : ((List.range n).map (i + 1 + ·)).filter (fun k => ! m.occupied k) =
      ((List.range n).map (i + 1 + ·)).filter (fun k => ! s.bitmap.occupied k) := by
    refine List.filter_congr fun k hk => ?_
    obtain ⟨j, -, rfl⟩ := List.mem_map.1 hk
    have hne : i + 1 + j ≠ i := by omega
    rw [hocc, decide_eq_false hne, Bool.false_or]
  have hcount : m.size = i + 1 + n := hsize.trans hn
  unfold freeBlocks blockCount
  rw [hcount, hn, List.range_add, List.range_succ]
  simp only [List.filter_append]
  rw [hbelow m fun j hj => by rw [hocc, hleast j hj, Bool.or_true], hbelow s.bitmap hleast, habove]
  have htaken : m.occupied i = true := by rw [hocc, decide_eq_true rfl, Bool.true_or]
  simp [htaken, hfree]

theorem freeBlocks_congr {s t : Store} (h : t.bitmap = s.bitmap) : t.freeBlocks = s.freeBlocks := by
  unfold freeBlocks blockCount
  rw [h]

theorem WellFormed.allocate {s t : Store} (hs : s.WellFormed) {b : BlockNumber}
    (h : s.allocate = some (b, t)) : s.Extends t [b] := by
  obtain ⟨m, hm, rfl⟩ := allocate_eq_some h
  obtain ⟨i, rfl, hlt, hfree, -, hsize, hocc⟩ := Bitmap.allocate_eq_some hm
  have hi : (UInt32.ofNat i).toNat = i := hs.ofNat_toNat hlt
  have hzero : UInt32.ofNat i ≠ noBlock := by
    intro hb
    have : i = 0 := by rw [← hi, hb]; rfl
    rw [this, Bitmap.occupied_zero] at hfree
    cases hfree
  refine ⟨hs.bitmap hsize, rfl, hsize, List.pairwise_singleton .., ?_, ?_,
    fun b _ => bytes_bitmap hsize b⟩
  · intro b hb hused
    rw [List.mem_singleton.1 hb, InUse, Store.isAllocated, Bitmap.isAllocated, hi, hfree] at hused
    cases hused.2
  · intro b
    have hiff : b.toNat = i ↔ b = UInt32.ofNat i := by
      rw [← UInt32.toNat_inj, hi]
    simp only [InUse, Store.isAllocated, Bitmap.isAllocated, hocc, Bool.or_eq_true,
      decide_eq_true_eq, List.mem_singleton, hiff]
    constructor
    · intro h
      obtain ⟨hb, rfl | hb'⟩ := h
      · exact .inr rfl
      · exact .inl ⟨hb, hb'⟩
    · intro h
      rcases h with ⟨hb, hb'⟩ | rfl
      · exact ⟨hb, .inr hb'⟩
      · exact ⟨hzero, .inl rfl⟩

/-! ## Freeing blocks -/

/-- Blocks have gone out of use.  No block has changed its bytes. -/
structure Shrinks (s t : Store) (gone : List BlockNumber) : Prop where
  wellFormed : t.WellFormed
  blockLen : t.blockLen = s.blockLen
  blockCount : t.blockCount = s.blockCount
  inUse_iff : ∀ b, t.InUse b ↔ s.InUse b ∧ b ∉ gone
  bytes : ∀ b, t.bytes b = s.bytes b

namespace Shrinks

variable {s t u : Store} {gone more new : List BlockNumber}

theorem refl (hs : s.WellFormed) : Shrinks s s [] where
  wellFormed := hs
  blockLen := rfl
  blockCount := rfl
  inUse_iff := by simp
  bytes := fun _ => rfl

theorem trans (h : Shrinks s t gone) (h' : Shrinks t u more) : Shrinks s u (gone ++ more) where
  wellFormed := h'.wellFormed
  blockLen := h'.blockLen.trans h.blockLen
  blockCount := h'.blockCount.trans h.blockCount
  inUse_iff := by
    intro b
    rw [h'.inUse_iff, h.inUse_iff, List.mem_append, not_or, and_assoc]
  bytes := fun b => (h'.bytes b).trans (h.bytes b)

theorem extends_of_cons {b : BlockNumber} (h : Extends s t (b :: new)) (h' : Shrinks t u [b]) :
    Extends s u new where
  wellFormed := h'.wellFormed
  blockLen := h'.blockLen.trans h.blockLen
  blockCount := h'.blockCount.trans h.blockCount
  nodup := (List.nodup_cons.1 h.nodup).2
  fresh := fun a ha => h.fresh a (List.mem_cons_of_mem b ha)
  inUse_iff := by
    intro a
    have hb : b ∉ new := (List.nodup_cons.1 h.nodup).1
    have hfresh : ¬ s.InUse b := h.fresh b List.mem_cons_self
    rw [h'.inUse_iff, h.inUse_iff, List.mem_cons, List.mem_singleton]
    constructor
    · intro h
      obtain ⟨ha | rfl | ha, hne⟩ := h
      · exact .inl ha
      · exact absurd rfl hne
      · exact .inr ha
    · intro h
      rcases h with ha | ha
      · exact ⟨.inl ha, fun e => hfresh (e ▸ ha)⟩
      · exact ⟨.inr (.inr ha), fun e => hb (e ▸ ha)⟩
  bytes := fun a ha => (h'.bytes a).trans (h.bytes a ha)

end Shrinks

theorem release_eq (s : Store) (b : BlockNumber) :
    s.release b =
      match s.bitmap.release b with
      | .ok m => .ok ⟨s.medium, s.blockLen, m, s.image⟩
      | .error fault => .error (.release fault) := rfl

theorem release_eq_ok {s t : Store} {b : BlockNumber} (h : s.release b = .ok t) :
    ∃ m, s.bitmap.release b = .ok m ∧ t = ⟨s.medium, s.blockLen, m, s.image⟩ := by
  rw [release_eq] at h
  split at h
  · next m hm =>
    cases h
    exact ⟨m, hm, rfl⟩
  · cases h

theorem WellFormed.shrinks {s t : Store} (hs : s.WellFormed) {b : BlockNumber}
    (h : s.release b = .ok t) : s.Shrinks t [b] := by
  obtain ⟨m, hm, rfl⟩ := release_eq_ok h
  obtain ⟨-, -, hsize, hocc⟩ := Bitmap.release_eq_ok hm
  refine ⟨hs.bitmap hsize, rfl, hsize, fun a => ?_, bytes_bitmap hsize⟩
  have hiff : a.toNat = b.toNat ↔ a = b := UInt32.toNat_inj
  simp only [InUse, Store.isAllocated, Bitmap.isAllocated, hocc, Bool.and_eq_true,
    Bool.not_eq_true', decide_eq_false_iff_not, hiff, List.mem_singleton]
  constructor
  · intro h
    obtain ⟨ha, hne, hocc⟩ := h
    exact ⟨⟨ha, hocc⟩, hne⟩
  · intro h
    obtain ⟨⟨ha, hocc⟩, hne⟩ := h
    exact ⟨ha, hne, hocc⟩

theorem WellFormed.release {s : Store} (hs : s.WellFormed) {b : BlockNumber} (hb : s.InUse b)
    (hroot : b ≠ rootBlock) : ∃ t, s.release b = .ok t ∧ s.Shrinks t [b] := by
  have hmin : Bitmap.minBlocks ≤ b.toNat := by
    have h0 : b.toNat ≠ 0 := fun h => hb.1 (UInt32.toNat_inj.1 h)
    have h1 : b.toNat ≠ 1 := fun h => hroot (UInt32.toNat_inj.1 h)
    show 2 ≤ b.toNat
    omega
  obtain ⟨m, hm⟩ := Bitmap.exists_release hmin hb.2
  have hrelease : s.release b = .ok ⟨s.medium, s.blockLen, m, s.image⟩ := by
    unfold Store.release
    simp only [hm]
  exact ⟨_, hrelease, hs.shrinks hrelease⟩

/-! ## Counting -/

/-- The blocks that are in use without being among some others, in ascending order. -/
def leaks (s : Store) (bs : List BlockNumber) : List BlockNumber :=
  ((List.range s.blockCount).map UInt32.ofNat).filter fun b => s.InUse b ∧ b ∉ bs

section Counting

variable {s t : Store} {bs bs' new : List BlockNumber}

theorem mem_leaks {b : BlockNumber} : b ∈ s.leaks bs ↔ s.InUse b ∧ b ∉ bs := by
  unfold leaks
  rw [List.mem_filter, decide_eq_true_eq]
  refine ⟨fun h => h.2, fun h => ⟨List.mem_map.2 ⟨b.toNat, ?_, UInt32.ofNat_toNat⟩, h⟩⟩
  exact List.mem_range.2 h.1.lt

theorem pairwise_leaks (hs : s.WellFormed) : (s.leaks bs).Pairwise (· < ·) := by
  unfold leaks
  refine (List.pairwise_map.2 ?_).filter _
  refine List.pairwise_lt_range.imp_of_mem ?_
  intro j k hj hk hjk
  rw [UInt32.lt_iff_toNat_lt, hs.ofNat_toNat (List.mem_range.1 hj),
    hs.ofNat_toNat (List.mem_range.1 hk)]
  exact hjk

theorem nodup_leaks (hs : s.WellFormed) : (s.leaks bs).Nodup :=
  (pairwise_leaks hs).imp fun h => UInt32.ne_of_lt h

theorem leaks_congr (hcount : t.blockCount = s.blockCount)
    (h : ∀ b, t.InUse b ∧ b ∉ bs' ↔ s.InUse b ∧ b ∉ bs) : t.leaks bs' = s.leaks bs := by
  unfold leaks
  rw [hcount]
  refine List.filter_congr fun b _ => ?_
  rw [decide_eq_decide]
  exact h b

theorem WellFormed.freeCount_add_length (hs : s.WellFormed) {used : List BlockNumber}
    (hnodup : used.Nodup) (hused : ∀ b, s.InUse b ↔ b ∈ used) :
    s.freeCount + used.length + 1 = s.blockCount := by
  have hperm : ((List.range s.blockCount).filter s.bitmap.occupied).Perm
      (0 :: used.map UInt32.toNat) := by
    refine (List.perm_ext_iff_of_nodup (List.nodup_range.filter _) ?_).2 fun k => ?_
    · refine List.nodup_cons.2 ⟨?_, hnodup.map fun a b h => UInt32.toNat_inj.1 h⟩
      intro h
      obtain ⟨b, hb, h0⟩ := List.mem_map.1 h
      exact ((hused b).2 hb).1 (UInt32.toNat_inj.1 h0)
    · rw [List.mem_filter, List.mem_range, List.mem_cons, List.mem_map]
      constructor
      · intro h
        obtain ⟨hk, hocc⟩ := h
        by_cases h0 : k = 0
        · exact .inl h0
        · have hto : (UInt32.ofNat k).toNat = k := hs.ofNat_toNat hk
          refine .inr ⟨UInt32.ofNat k, (hused _).1 ⟨?_, ?_⟩, hto⟩
          · intro h
            rw [← hto, h] at h0
            exact h0 rfl
          · rw [Store.isAllocated, Bitmap.isAllocated, hto]
            exact hocc
      · intro h
        rcases h with rfl | ⟨b, hb, rfl⟩
        · exact ⟨Nat.lt_of_lt_of_le (by omega) s.bitmap.two_le_size, s.bitmap.occupied_zero⟩
        · exact ⟨((hused b).2 hb).lt, ((hused b).2 hb).2⟩
  have hlen := hperm.length_eq
  have hcount := s.bitmap.freeCount_add_countP
  rw [List.countP_eq_length_filter] at hcount
  simp only [List.length_cons, List.length_map] at hlen
  simp only [freeCount, blockCount] at hlen ⊢
  omega

/-- Every block but block 0 is free, or one of some blocks in use, or in use besides them. -/
theorem WellFormed.freeCount_add_leaks (hs : s.WellFormed) (hnodup : bs.Nodup)
    (huse : ∀ b ∈ bs, s.InUse b) :
    s.freeCount + bs.length + (s.leaks bs).length + 1 = s.blockCount := by
  have hall : (bs ++ s.leaks bs).Nodup := by
    refine List.nodup_append.2 ⟨hnodup, nodup_leaks hs, ?_⟩
    intro a ha b hb heq
    subst heq
    exact (mem_leaks.1 hb).2 ha
  have hmem : ∀ b, s.InUse b ↔ b ∈ bs ++ s.leaks bs := by
    intro b
    rw [List.mem_append, mem_leaks]
    by_cases hb : b ∈ bs
    · simp [hb, huse b hb]
    · simp [hb]
  have h := hs.freeCount_add_length hall hmem
  rw [List.length_append] at h
  omega

theorem mem_freeBlocks (hs : s.WellFormed) {b : BlockNumber} :
    b ∈ s.freeBlocks ↔ b.toNat < s.blockCount ∧ s.isAllocated b = false := by
  unfold freeBlocks
  rw [List.mem_map]
  constructor
  · intro h
    obtain ⟨k, hk, rfl⟩ := h
    obtain ⟨hlt, hfree⟩ := List.mem_filter.1 hk
    have hto : (UInt32.ofNat k).toNat = k := hs.ofNat_toNat (List.mem_range.1 hlt)
    rw [isAllocated, Bitmap.isAllocated, hto]
    exact ⟨List.mem_range.1 hlt, by simpa using hfree⟩
  · intro h
    obtain ⟨hlt, hfree⟩ := h
    refine ⟨b.toNat, List.mem_filter.2 ⟨List.mem_range.2 hlt, ?_⟩, UInt32.ofNat_toNat⟩
    have hfree : s.bitmap.occupied b.toNat = false := hfree
    simp [hfree]

theorem nodup_map_ofNat (hs : s.WellFormed) : ((List.range s.blockCount).map UInt32.ofNat).Nodup := by
  refine List.nodup_range.map_on fun j hj k hk h => ?_
  rw [← hs.ofNat_toNat (List.mem_range.1 hj), h, hs.ofNat_toNat (List.mem_range.1 hk)]

/-- Block 0, some blocks in use, those in use besides them, and the free ones are all the blocks,
each of them once. -/
theorem WellFormed.blocks_perm (hs : s.WellFormed) (hnodup : bs.Nodup)
    (huse : ∀ b ∈ bs, s.InUse b) :
    (noBlock :: (bs ++ s.leaks bs ++ s.freeBlocks)).Perm
      ((List.range s.blockCount).map UInt32.ofNat) := by
  have hfree : s.freeBlocks.Nodup := (nodup_map_ofNat hs).sublist (List.filter_sublist.map _)
  have hzero : s.isAllocated noBlock = true := s.bitmap.occupied_zero
  have hused : ∀ b, b ∈ bs ++ s.leaks bs → s.InUse b := fun b hb =>
    (List.mem_append.1 hb).elim (huse b) fun hb => (mem_leaks.1 hb).1
  have hall : (bs ++ s.leaks bs).Nodup :=
    List.nodup_append.2 ⟨hnodup, nodup_leaks hs, fun a ha b hb heq => (mem_leaks.1 hb).2 (heq ▸ ha)⟩
  refine (List.perm_ext_iff_of_nodup (List.nodup_cons.2 ⟨?_, ?_⟩) (nodup_map_ofNat hs)).2 ?_
  · intro h
    rcases List.mem_append.1 h with h | h
    · exact (hused _ h).1 rfl
    · rw [mem_freeBlocks hs, hzero] at h
      exact absurd h.2 (by decide)
  · refine List.nodup_append.2 ⟨hall, hfree, fun a ha b hb heq => ?_⟩
    have hb := ((mem_freeBlocks hs).1 hb).2
    rw [← heq, (hused a ha).2] at hb
    cases hb
  · intro b
    have hlt : b ∈ (List.range s.blockCount).map UInt32.ofNat ↔ b.toNat < s.blockCount := by
      refine ⟨fun h => ?_, fun h => List.mem_map.2 ⟨b.toNat, List.mem_range.2 h, UInt32.ofNat_toNat⟩⟩
      obtain ⟨k, hk, rfl⟩ := List.mem_map.1 h
      rw [hs.ofNat_toNat (List.mem_range.1 hk)]
      exact List.mem_range.1 hk
    rw [hlt, List.mem_cons, List.mem_append, mem_freeBlocks hs]
    constructor
    · rintro (rfl | h | h)
      · exact Bitmap.lt_size_of_occupied hzero
      · exact (hused b h).lt
      · exact h.1
    · intro h
      by_cases hb : b = noBlock
      · exact .inl hb
      right
      cases ha : s.isAllocated b with
      | false => exact .inr ⟨h, rfl⟩
      | true =>
        left
        rw [List.mem_append, mem_leaks]
        by_cases hmem : b ∈ bs
        · exact .inl hmem
        · exact .inr ⟨⟨hb, ha⟩, hmem⟩

theorem Extends.freeCount (hs : s.WellFormed) (h : Extends s t new) :
    t.freeCount + new.length = s.freeCount := by
  have hbefore : s.freeCount + [].length + (s.leaks []).length + 1 = s.blockCount :=
    hs.freeCount_add_leaks List.nodup_nil (by simp)
  have hafter := h.wellFormed.freeCount_add_leaks h.nodup
    fun b hb => (h.inUse_iff b).2 (.inr hb)
  have hleaks : t.leaks new = s.leaks [] := by
    refine leaks_congr h.blockCount fun b => ?_
    rw [h.inUse_iff]
    have hfresh := h.fresh b
    have hnil : b ∉ ([] : List BlockNumber) := List.not_mem_nil
    tauto
  rw [hleaks, h.blockCount] at hafter
  simp only [List.length_nil] at hbefore
  omega

theorem freeCount_of_allocate (h : s.allocate = none) : s.freeCount = 0 := by
  obtain ⟨medium, blockLen, bitmap, image⟩ := s
  simp only [allocate] at h
  split at h
  · next hnone =>
    have hall := bitmap.allocate_eq_none_iff.1 hnone
    have hcount := bitmap.freeCount_add_countP
    have hsize : (List.range bitmap.size).countP bitmap.occupied = bitmap.size := by
      rw [List.countP_eq_length.2 fun k hk => hall k (List.mem_range.1 hk), List.length_range]
    show bitmap.freeCount = 0
    omega
  · cases h

end Counting

end Store
end BlockFS
