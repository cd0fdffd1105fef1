/-
What a check claims, and what it looks for in one block.

A run of claims succeeds exactly if the blocks differ from each other, are in use and have
not been claimed (`exists_claimAll`, `claimable_of_claimAll`).  A visit is such a run over
the references of a block that keeps to the limits.
-/
import BlockFS.Proofs.Mount

namespace BlockFS
namespace Check

namespace Claims

/-- More blocks have been claimed. -/
structure Adds (c c' : Claims) (bs : List BlockNumber) : Prop where
  size : c'.marks.size = c.marks.size
  has_iff : ∀ k, c'.has k = true ↔ c.has k = true ∨ ∃ b ∈ bs, b.toNat = k

/-- Blocks that can be claimed one after the other. -/
def Claimable (s : Store) (c : Claims) (bs : List BlockNumber) : Prop :=
  bs.Nodup ∧ ∀ b ∈ bs, s.InUse b ∧ c.has b.toNat = false

namespace Adds

variable {c c' c'' : Claims} {bs bs' : List BlockNumber}

theorem refl (c : Claims) : Adds c c [] := ⟨rfl, by simp⟩

theorem trans (h : Adds c c' bs) (h' : Adds c' c'' bs') : Adds c c'' (bs ++ bs') where
  size := h'.size.trans h.size
  has_iff := by
    intro k
    rw [h'.has_iff, h.has_iff, or_assoc]
    simp only [List.mem_append, or_and_right, exists_or]

theorem perm (h : Adds c c' bs) (hp : bs.Perm bs') : Adds c c' bs' where
  size := h.size
  has_iff := by
    intro k
    rw [h.has_iff]
    simp only [hp.mem_iff]

theorem has_eq_false_iff (h : Adds c c' bs) (b : BlockNumber) :
    c'.has b.toNat = false ↔ c.has b.toNat = false ∧ b ∉ bs := by
  have hiff : (∃ a ∈ bs, a.toNat = b.toNat) ↔ b ∈ bs := by
    constructor
    · intro h
      obtain ⟨a, ha, hab⟩ := h
      exact UInt32.toNat_inj.1 hab ▸ ha
    · exact fun hb => ⟨b, hb, rfl⟩
  rw [← Bool.not_eq_true, h.has_iff, hiff, not_or, Bool.not_eq_true]

end Adds

theorem Claimable.perm {s : Store} {c : Claims} {bs bs' : List BlockNumber}
    (h : Claimable s c bs) (hp : bs.Perm bs') : Claimable s c bs' :=
  ⟨hp.nodup_iff.1 h.1, fun b hb => h.2 b (hp.mem_iff.2 hb)⟩

theorem claimable_append_iff {s : Store} {c c' : Claims} {bs bs' : List BlockNumber}
    (h : Adds c c' bs) :
    Claimable s c (bs ++ bs') ↔ Claimable s c bs ∧ Claimable s c' bs' := by
  constructor
  · intro h
    obtain ⟨hnodup, hall⟩ := h
    obtain ⟨h₁, h₂, hdisj⟩ := List.nodup_append.1 hnodup
    refine ⟨⟨h₁, fun b hb => hall b (List.mem_append_left _ hb)⟩, h₂, fun b hb => ?_⟩
    obtain ⟨huse, hc⟩ := hall b (List.mem_append_right _ hb)
    exact ⟨huse, (h.has_eq_false_iff b).2 ⟨hc, fun hmem => hdisj b hmem b hb rfl⟩⟩
  · intro h
    obtain ⟨⟨h₁, hall⟩, h₂, hall'⟩ := h
    refine ⟨List.nodup_append.2 ⟨h₁, h₂, ?_⟩, fun b hb => ?_⟩
    · intro a ha b hb heq
      subst heq
      exact ((h.has_eq_false_iff a).1 (hall' a hb).2).2 ha
    · rcases List.mem_append.1 hb with hb | hb
      · exact hall b hb
      · exact ⟨(hall' b hb).1, ((h.has_eq_false_iff b).1 (hall' b hb).2).1⟩

section Claim

variable {s : Store} {c c' : Claims}

theorem has_setIfInBounds {b : BlockNumber} (hb : b.toNat < c.marks.size) (k : Nat) :
    has ⟨c.marks.setIfInBounds b.toNat true⟩ k = true ↔ c.has k = true ∨ b.toNat = k := by
  unfold has
  rw [Array.getElem?_setIfInBounds]
  by_cases hk : b.toNat = k
  · subst hk
    simp [hb]
  · simp [hk]

theorem claim_of_claimable {b : BlockNumber} (hsize : c.marks.size = s.blockCount)
    (hb : s.InUse b) (hc : c.has b.toNat = false) :
    ∃ c', c.claim s.bitmap b = .ok c' ∧ Adds c c' [b] := by
  have hlt : b.toNat < c.marks.size := hsize ▸ hb.lt
  have halloc : s.bitmap.isAllocated b = true := hb.2
  refine ⟨⟨c.marks.setIfInBounds b.toNat true⟩, ?_, ?_, fun k => ?_⟩
  · unfold claim
    rw [if_neg hb.1, if_neg (by omega), if_neg (by simp [halloc]), if_neg (by simp [hc])]
  · exact Array.size_setIfInBounds
  · rw [has_setIfInBounds hlt]
    simp

theorem claimable_of_claim {b : BlockNumber} (h : c.claim s.bitmap b = .ok c') :
    s.InUse b ∧ c.has b.toNat = false ∧ Adds c c' [b] := by
  unfold claim at h
  split at h
  · cases h
  next hne =>
  split at h
  · cases h
  next hlt =>
  split at h
  · cases h
  next halloc =>
  split at h
  · cases h
  next hhas =>
  cases h
  have halloc : s.bitmap.isAllocated b = true := by simpa using halloc
  refine ⟨⟨hne, halloc⟩, by simpa using hhas, Array.size_setIfInBounds, fun k => ?_⟩
  rw [has_setIfInBounds (by omega)]
  simp

theorem exists_claimAll {bs : List BlockNumber} (hsize : c.marks.size = s.blockCount)
    (h : Claimable s c bs) : ∃ c', c.claimAll s.bitmap bs = .ok c' := by
  induction bs generalizing c with
  | nil => exact ⟨c, rfl⟩
  | cons b bs ih =>
    obtain ⟨huse, hc⟩ := h.2 b List.mem_cons_self
    obtain ⟨c₁, hclaim, hadds⟩ := claim_of_claimable hsize huse hc
    have hrest : Claimable s c₁ bs := ((claimable_append_iff hadds).1 h).2
    rw [claimAll, hclaim]
    exact ih (hadds.size.trans hsize) hrest

theorem claimable_of_claimAll {bs : List BlockNumber} (h : c.claimAll s.bitmap bs = .ok c') :
    Claimable s c bs ∧ Adds c c' bs := by
  induction bs generalizing c with
  | nil =>
    cases h
    exact ⟨⟨List.nodup_nil, by simp⟩, .refl _⟩
  | cons b bs ih =>
    rw [claimAll] at h
    split at h
    · cases h
    · next c₁ hclaim =>
      obtain ⟨huse, hc, hadds⟩ := claimable_of_claim hclaim
      obtain ⟨hrest, hadds'⟩ := ih h
      have hone : Claimable s c [b] := by
        refine ⟨List.nodup_singleton b, fun a ha => ?_⟩
        rw [List.mem_singleton.1 ha]
        exact ⟨huse, hc⟩
      have hall : Claimable s c ([b] ++ bs) := (claimable_append_iff hadds).2 ⟨hone, hrest⟩
      exact ⟨hall, hadds.trans hadds'⟩

end Claim
end Claims

/-! ## Visits -/

section Visits

variable {g : Geometry} {s : Store} {c c' : Claims}

theorem claimEntries_eq_ok_iff {m : Bitmap} {seen : List String} {es : List Entry} :
    claimEntries g m seen c es = .ok c' ↔
      (∀ e ∈ es, e.name.utf8ByteSize ≤ g.maxNameLength ∧ e.name ∉ seen) ∧
        (es.map Entry.name).Nodup ∧ c.claimAll m (es.map Entry.target) = .ok c' := by
  induction es generalizing seen c with
  | nil => simp [claimEntries, Claims.claimAll]
  | cons e es ih =>
    rw [claimEntries, List.map_cons, List.map_cons, Claims.claimAll, List.forall_mem_cons,
      List.nodup_cons]
    by_cases hname : g.maxNameLength < e.name.utf8ByteSize
    · rw [if_pos hname]
      simp only [reduceCtorEq, false_iff]
      omega
    · rw [if_neg hname]
      by_cases hseen : e.name ∈ seen
      · simp [hseen]
      · rw [if_neg hseen]
        cases hclaim : c.claim m e.target with
        | error fault => simp
        | ok c₁ =>
          have hdisj : (∀ x ∈ es, x.name.utf8ByteSize ≤ g.maxNameLength ∧ x.name ∉ e.name :: seen) ↔
              (∀ x ∈ es, x.name.utf8ByteSize ≤ g.maxNameLength ∧ x.name ∉ seen) ∧
                e.name ∉ es.map Entry.name := by
            simp only [List.mem_cons, not_or, List.mem_map, not_exists, not_and]
            constructor
            · intro h
              exact ⟨fun x hx => ⟨(h x hx).1, (h x hx).2.2⟩, fun x hx => (h x hx).2.1⟩
            · rintro ⟨h, hne⟩ x hx
              exact ⟨(h x hx).1, hne x hx, (h x hx).2⟩
          rw [ih, hdisj]
          simp only [hseen, not_false_eq_true, and_true, Nat.le_of_not_lt hname, true_and]
          tauto

theorem claimEntries_nil_eq_ok_iff {m : Bitmap} {es : List Entry} :
    claimEntries g m [] c es = .ok c' ↔
      (∀ e ∈ es, e.name.utf8ByteSize ≤ g.maxNameLength) ∧ (es.map Entry.name).Nodup ∧
        c.claimAll m (es.map Entry.target) = .ok c' := by
  rw [claimEntries_eq_ok_iff]
  simp only [List.not_mem_nil, not_false_eq_true, and_true]

variable {t : Tally} {b : BlockNumber} {v : Visit}

theorem visit_directory_eq_ok_iff {dir : Directory} :
    visit g s.bitmap c t b (.directory dir) = .ok v ↔
      g.Admits (.directory dir) ∧
        c.claimAll s.bitmap (g.references (.directory dir)) = .ok v.claims ∧
        v.tally = t.countDirectory ∧ v.children = (dir.entries.map Entry.target).reverse := by
  obtain ⟨claims, tally, children⟩ := v
  simp only [visit, Geometry.Admits, Geometry.references]
  by_cases hsize : g.maxDirEntries < dir.size
  · rw [if_pos hsize]
    simp only [reduceCtorEq, false_iff]
    omega
  rw [if_neg hsize]
  cases hclaims : claimEntries g s.bitmap [] c dir.entries with
  | error fault =>
    simp only [reduceCtorEq, false_iff]
    intro h
    obtain ⟨⟨-, hnames, hnodup⟩, hall, -⟩ := h
    rw [claimEntries_nil_eq_ok_iff.2 ⟨hnames, hnodup, hall⟩] at hclaims
    cases hclaims
  | ok c₁ =>
    obtain ⟨hnames, hnodup, hall⟩ := claimEntries_nil_eq_ok_iff.1 hclaims
    rw [hall]
    simp only [Except.ok.injEq, Visit.mk.injEq]
    constructor
    · intro h
      obtain ⟨rfl, rfl, rfl⟩ := h
      exact ⟨⟨Nat.le_of_not_lt hsize, hnames, hnodup⟩, rfl, rfl, rfl⟩
    · intro h
      obtain ⟨-, rfl, rfl, rfl⟩ := h
      exact ⟨rfl, rfl, rfl⟩

theorem visit_file_eq_ok_iff (hg : 0 < g.blockSize) {i : Inode} :
    visit g s.bitmap c t b (.file i) = .ok v ↔
      g.Admits (.file i) ∧ c.claimAll s.bitmap (g.references (.file i)) = .ok v.claims ∧
        v.tally = t.countFile (g.references (.file i)).length ∧ v.children = [] := by
  obtain ⟨claims, tally, children⟩ := v
  simp only [visit, Geometry.Admits]
  by_cases hsize : g.maxFileSize < i.fileSize.toNat
  · rw [if_pos hsize]
    simp only [reduceCtorEq, false_iff]
    omega
  rw [if_neg hsize]
  by_cases hslots : g.maxDataBlocks < i.dataBlocks.length
  · rw [if_pos hslots]
    simp only [reduceCtorEq, false_iff]
    omega
  rw [if_neg hslots]
  cases hblocks : g.fileBlocks b i with
  | error e =>
    simp only [reduceCtorEq, false_iff]
    intro h
    obtain ⟨⟨-, hneeded, -⟩, hall, -⟩ := h
    have hnone : noBlock ∉ g.references (.file i) := fun hmem =>
      ((Claims.claimable_of_claimAll hall).1.2 _ hmem).1.1 rfl
    rw [(Geometry.fileBlocks_eq_ok_iff hg).2 ⟨rfl, hneeded, hnone⟩] at hblocks
    cases hblocks
  | ok bs =>
    obtain ⟨rfl, hneeded, -⟩ := (Geometry.fileBlocks_eq_ok_iff hg).1 hblocks
    cases hall : c.claimAll s.bitmap (g.references (.file i)) with
    | error fault => simp [hall]
    | ok c₁ =>
      simp only [hall, Except.ok.injEq, Visit.mk.injEq]
      constructor
      · intro h
        obtain ⟨rfl, rfl, rfl⟩ := h
        exact ⟨⟨Nat.le_of_not_lt hsize, hneeded, Nat.le_of_not_lt hslots⟩, rfl, rfl, rfl⟩
      · intro h
        obtain ⟨-, rfl, rfl, rfl⟩ := h
        exact ⟨rfl, rfl, rfl⟩

/-- A visit claims what a block refers to, if the block keeps to the limits. -/
theorem visit_eq_ok_iff {block : Block} (hg : 0 < g.blockSize) :
    visit g s.bitmap c t b block = .ok v ↔
      g.Admits block ∧ c.claimAll s.bitmap (g.references block) = .ok v.claims ∧
        match block with
        | .directory d =>
          v.tally = t.countDirectory ∧ v.children = (d.entries.map Entry.target).reverse
        | .file i => v.tally = t.countFile (g.references (.file i)).length ∧ v.children = [] := by
  cases block with
  | directory dir => exact visit_directory_eq_ok_iff
  | file i => exact visit_file_eq_ok_iff hg

end Visits

end Check
end BlockFS
