/-
What every operation keeps, whichever of its calls fail.

An operation brings some blocks into use, rewrites one block and frees some, in this order
(`Store.Changes`).  If what it brings in and drops accounts for the difference between two
layouts, the new layout is sound and nothing else is touched (`Kept.of_changes`).  Leaked
blocks stay leaked, and none is added unless a release has failed; that keeps the number of
blocks that are free or laid out (`Kept.room_eq`).
-/
import BlockFS.Proofs.Mount
import BlockFS.Proofs.Transactions

namespace BlockFS

/-! ## Changes of a store -/

/-- Blocks have come into use, one block in use has been rewritten, and blocks have gone out
of use. -/
structure Store.Changes (s s' : Store) (new : List BlockNumber) (written : BlockNumber)
    (gone : List BlockNumber) : Prop where
  wellFormed : s'.WellFormed
  blockLen : s'.blockLen = s.blockLen
  blockCount : s'.blockCount = s.blockCount
  fresh : ∀ b ∈ new, ¬ s.InUse b
  inUse_iff : ∀ b, s'.InUse b ↔ (s.InUse b ∨ b ∈ new) ∧ b ∉ gone
  bytes : ∀ b, s.InUse b → b ≠ written → s'.bytes b = s.bytes b

namespace Store

variable {s t u : Store} {new gone : List BlockNumber} {b : BlockNumber}

theorem Extends.changes (h : s.Extends t new) {contents : Bytes} (hw : t.Rewrites u b contents) :
    s.Changes u new b [] where
  wellFormed := hw.wellFormed
  blockLen := hw.blockLen.trans h.blockLen
  blockCount := hw.blockCount.trans h.blockCount
  fresh := h.fresh
  inUse_iff := by
    intro a
    rw [hw.inUse_iff, h.inUse_iff]
    simp
  bytes := fun a ha hne => (hw.bytes_of_ne a (h.inUse ha) hne).trans (h.bytes a ha)

theorem Changes.shrinks (h : s.Changes t new b []) (h' : t.Shrinks u gone) :
    s.Changes u new b gone where
  wellFormed := h'.wellFormed
  blockLen := h'.blockLen.trans h.blockLen
  blockCount := h'.blockCount.trans h.blockCount
  fresh := h.fresh
  inUse_iff := by
    intro a
    rw [h'.inUse_iff, h.inUse_iff]
    simp
  bytes := fun a ha hne => (h'.bytes a).trans (h.bytes a ha hne)

end Store

/-! ## What is kept -/

/-- A sound layout has become another one.  The leaked blocks still are, and they are all if
no release has failed. -/
structure Kept (g : Geometry) (d d' : Device) (l l' : Layout) : Prop extends d.Later d' where
  wellFormed : d'.store.WellFormed
  blockLen : d'.store.blockLen = d.store.blockLen
  blockCount : d'.store.blockCount = d.store.blockCount
  sound : l'.Sound g d'.store
  leaked : ∀ b, d.store.InUse b → b ∉ l.blocks → d'.store.InUse b ∧ b ∉ l'.blocks
  exact : d'.calls.failedReleases = d.calls.failedReleases →
    ∀ b, d'.store.InUse b → b ∉ l'.blocks → d.store.InUse b ∧ b ∉ l.blocks

namespace Kept

variable {g : Geometry} {d d' d'' : Device} {l l' l'' : Layout}

theorem untouched (hs : d.store.WellFormed) (hl : l.Sound g d.store) (h : d.Untouched d') :
    Kept g d d' l l where
  toLater := h.toSteady.later
  wellFormed := h.store ▸ hs
  blockLen := by rw [h.store]
  blockCount := by rw [h.store]
  sound := h.store ▸ hl
  leaked := by
    intro b hb hmem
    rw [h.store]
    exact ⟨hb, hmem⟩
  exact := by
    intro _ b hb hmem
    rw [h.store] at hb
    exact ⟨hb, hmem⟩

theorem trans (h : Kept g d d' l l') (h' : Kept g d' d'' l' l'') : Kept g d d'' l l'' where
  toLater := h.toLater.trans h'.toLater
  wellFormed := h'.wellFormed
  blockLen := h'.blockLen.trans h.blockLen
  blockCount := h'.blockCount.trans h.blockCount
  sound := h'.sound
  leaked := fun b hb hmem => h'.leaked b (h.leaked b hb hmem).1 (h.leaked b hb hmem).2
  exact := by
    intro heq b hb hmem
    -- The failures only add up, so there was none on either part of the way.
    have h₁ := h.failed_le
    have h₂ := h'.failed_le
    obtain ⟨hb', hmem'⟩ := h'.exact (by omega) b hb hmem
    exact h.exact (by omega) b hb' hmem'

theorem of_reverts (hl : l.Sound g d.store) (h : d.Reverts d') : Kept g d d' l l := by
  obtain ⟨stuck, hstore, hstuck⟩ := h.store
  refine ⟨h.toLater, hstore.wellFormed, hstore.blockLen, hstore.blockCount, ?_, ?_, ?_⟩
  · exact hl.frame (fun b hb => hstore.bytes b (hl.inUse b hb))
      (fun b hb => hstore.inUse (hl.inUse b hb))
  · exact fun b hb hmem => ⟨hstore.inUse hb, hmem⟩
  · intro heq b hb hmem
    rcases (hstore.inUse_iff b).1 hb with hb | hb
    · exact ⟨hb, hmem⟩
    · rw [hstuck heq] at hb
      exact absurd hb List.not_mem_nil

theorem serves (h : Kept g d d' l l') (hd : d.store.Serves g) : d'.store.Serves g :=
  hd.of_blockLen h.wellFormed h.blockLen

theorem leaks_subset (h : Kept g d d' l l') :
    d.store.leaks l.blocks ⊆ d'.store.leaks l'.blocks := by
  intro b hb
  obtain ⟨huse, hmem⟩ := Store.mem_leaks.1 hb
  exact Store.mem_leaks.2 (h.leaked b huse hmem)

theorem leaks_eq (h : Kept g d d' l l')
    (heq : d'.calls.failedReleases = d.calls.failedReleases) :
    d'.store.leaks l'.blocks = d.store.leaks l.blocks :=
  Store.leaks_congr h.blockCount fun b =>
    ⟨fun hb => h.exact heq b hb.1 hb.2, fun hb => h.leaked b hb.1 hb.2⟩

/-- Which blocks are in use afterwards depends on the two layouts and on what was in use. -/
theorem inUse_iff (h : Kept g d d' l l')
    (heq : d'.calls.failedReleases = d.calls.failedReleases) (b : BlockNumber) :
    d'.store.InUse b ↔ b ∈ l'.blocks ∨ d.store.InUse b ∧ b ∉ l.blocks := by
  constructor
  · intro hb
    by_cases hmem : b ∈ l'.blocks
    · exact .inl hmem
    · exact .inr (h.exact heq b hb hmem)
  · intro hb
    rcases hb with hmem | ⟨hb, hmem⟩
    · exact h.sound.inUse b hmem
    · exact (h.leaked b hb hmem).1

theorem room_eq (h : Kept g d d' l l') (hs : d.store.WellFormed) (hl : l.Sound g d.store)
    (heq : d'.calls.failedReleases = d.calls.failedReleases) :
    d'.store.freeCount + l'.blocks.length = d.store.freeCount + l.blocks.length := by
  have hbefore := hs.freeCount_add_leaks hl.nodup hl.inUse
  have hafter := h.wellFormed.freeCount_add_leaks h.sound.nodup h.sound.inUse
  rw [h.leaks_eq heq, h.blockCount] at hafter
  omega

section Changes

variable {fs : List Layout.Frame} {t : Layout} {new gone : List BlockNumber}

/-- A part of a layout takes up new blocks and drops others, of which those in `gone` have been
freed.  None may be missing there unless a release has failed. -/
theorem of_changes (t' : Layout) (dropped : List BlockNumber)
    (hl : (Layout.fill fs t).Sound g d.store)
    (hc : d.store.Changes d'.store new t.block gone) (hblock : t'.block = t.block)
    (ht' : t'.Stored g d'.store) (hnodup : t'.blocks.Nodup)
    (hblocks : ∀ b, b ∈ t'.blocks ↔ (b ∈ t.blocks ∨ b ∈ new) ∧ b ∉ dropped)
    (hgone : gone ⊆ dropped) (hdropped : dropped ⊆ t.blocks) (hlater : d.Later d')
    (hall : d'.calls.failedReleases = d.calls.failedReleases → dropped ⊆ gone) :
    Kept g d d' (Layout.fill fs t) (Layout.fill fs t') := by
  have hparts := List.nodup_append.1 ((Layout.blocks_fill fs t).nodup_iff.1 hl.nodup)
  have hapart : ∀ b ∈ t.blocks, b ∉ fs.flatMap Layout.Frame.blocks :=
    fun b hb hmem => hparts.2.2 b hmem b hb rfl
  have huse : ∀ b ∈ fs.flatMap Layout.Frame.blocks, d.store.InUse b :=
    fun b hb => hl.inUse b (Layout.mem_blocks_fill.2 (.inl hb))
  have hrest : ∀ b ∈ t'.blocks, b ∉ fs.flatMap Layout.Frame.blocks := by
    intro b hb hmem
    rcases ((hblocks b).1 hb).1 with hb | hb
    · exact hapart b hb hmem
    · exact hc.fresh b hb (huse b hmem)
  have hsame : ∀ b ∈ fs.flatMap Layout.Frame.blocks, d'.store.bytes b = d.store.bytes b := by
    intro b hb
    refine hc.bytes b (huse b hb) ?_
    intro heq
    subst heq
    exact hapart _ t.block_mem_blocks hb
  have hout : ∀ b ∈ fs.flatMap Layout.Frame.blocks, d'.store.InUse b := fun b hb =>
    (hc.inUse_iff b).2 ⟨.inl (huse b hb), fun hmem => hapart b (hdropped (hgone hmem)) hb⟩
  have hin : ∀ b ∈ t'.blocks, d'.store.InUse b := by
    intro b hb
    obtain ⟨hmem, hkept⟩ := (hblocks b).1 hb
    refine (hc.inUse_iff b).2 ⟨hmem.imp_left fun hb => ?_, fun hb => hkept (hgone hb)⟩
    exact hl.inUse b (Layout.mem_blocks_fill.2 (.inr hb))
  refine ⟨hlater, hc.wellFormed, hc.blockLen, hc.blockCount,
    hl.replace hblock ht' hnodup hrest hsame hout hin, ?_, ?_⟩
  · intro b hb hmem
    rw [Layout.mem_blocks_fill, not_or] at hmem ⊢
    refine ⟨(hc.inUse_iff b).2 ⟨.inl hb, fun hg => hmem.2 (hdropped (hgone hg))⟩, hmem.1, ?_⟩
    intro hb'
    exact ((hblocks b).1 hb').1.elim hmem.2 fun hnew => hc.fresh b hnew hb
  · intro heq b hb hmem
    rw [Layout.mem_blocks_fill, not_or] at hmem ⊢
    obtain ⟨hsrc, hkept⟩ := (hc.inUse_iff b).1 hb
    have hnot : b ∉ t.blocks ∧ b ∉ new := by
      rw [← not_or]
      exact fun h => hmem.2 ((hblocks b).2 ⟨h, fun hd => hkept (hall heq hd)⟩)
    exact ⟨hsrc.resolve_right hnot.2, hmem.1, hnot.1⟩

end Changes
end Kept
end BlockFS
