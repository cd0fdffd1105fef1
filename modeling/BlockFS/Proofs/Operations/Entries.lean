/-
Operations that add an entry to a directory or take one out.

The tree changes when the block of the directory is rewritten.  Before that nothing has
happened but that a block came into use, and after that blocks are only freed.
-/
import BlockFS.Proofs.Operations.Reading

namespace BlockFS
namespace Place

variable {g : Geometry} {d : Device} {z : Spot} {name : String}

/-! ## Adding an entry -/

/-- What is put into the block of a new entry is a layout with no further blocks. -/
structure Leaf (g : Geometry) (contents : Block) (leaf : BlockNumber → Layout) (tree : Tree) :
    Prop where
  admits : g.Admits contents
  stored : ∀ s b, s.metadata? b = some contents → (leaf b).Stored g s
  blocks : ∀ b, (leaf b).blocks = [b]
  tree : ∀ b, (leaf b).tree = tree

theorem leaf_directory (g : Geometry) :
    Leaf g (.directory .empty) (fun b => .directory b []) (.directory []) where
  admits := g.admits_empty
  stored := fun _ _ h => .directory h g.admits_empty fun _ he => absurd he List.not_mem_nil
  blocks := fun _ => rfl
  tree := fun _ => rfl

theorem leaf_file {s : Store} (hs : s.Serves g) :
    Leaf g (.file .empty) (fun b => .file b [] []) (.file []) where
  admits := by
    have hzero := Geometry.blocksFor_zero hs.blockSize_pos
    exact ⟨Nat.zero_le _, Nat.le_of_eq hzero, Nat.zero_le _⟩
  stored := by
    intro s b h
    have hzero := Geometry.blocksFor_zero hs.blockSize_pos
    exact .file h ⟨Nat.zero_le _, Nat.le_of_eq hzero, Nat.zero_le _⟩ List.take_nil.symm rfl
  blocks := fun _ => rfl
  tree := fun _ => rfl

section Create

variable {contents : Block} {leaf : BlockNumber → Layout} {tree : Tree}

theorem Leaf.block_eq (h : Leaf g contents leaf tree) (b : BlockNumber) : (leaf b).block = b := by
  have hblocks := h.blocks b
  rw [Layout.blocks_eq_cons] at hblocks
  exact (List.cons.inj hblocks).1

def withEntry (z : Spot) (name : String) (t : Layout) : Spot :=
  ⟨z.above, z.block, z.entries ++ [(name, t)]⟩

/-- The spot with a new entry in the first free block. -/
def added (z : Spot) (name : String) (leaf : BlockNumber → Layout) : List BlockNumber → Spot
  | [] => z
  | b :: _ => withEntry z name (leaf b)

theorem entriesOf_withEntry (h : Leaf g contents leaf tree) (b : BlockNumber) :
    (⟨Layout.entriesOf z.entries⟩ : Directory).push ⟨name, b⟩ =
      ⟨Layout.entriesOf (withEntry z name (leaf b)).entries⟩ := by
  rw [withEntry, Layout.entriesOf_append, Layout.entriesOf_cons, h.block_eq]
  rfl

theorem admits_withEntry (hz : z.whole.Sound g d.store) (h : Leaf g contents leaf tree)
    (hname : name.utf8ByteSize ≤ g.maxNameLength) (hnew : splitAt? name z.entries = none)
    (hroom : z.entries.length < g.maxDirEntries) (b : BlockNumber) :
    g.Admits (.directory ⟨Layout.entriesOf (withEntry z name (leaf b)).entries⟩) := by
  obtain ⟨-, hnames, hnodup⟩ := (Spot.directory hz).2.1
  have hlength : (Layout.entriesOf z.entries).length = z.entries.length := List.length_map ..
  rw [withEntry, Layout.entriesOf_append, Layout.entriesOf_cons, h.block_eq]
  refine ⟨?_, fun e he => ?_, ?_⟩
  · show (Layout.entriesOf z.entries ++ ([⟨name, b⟩] : List Entry)).length ≤ g.maxDirEntries
    rw [List.length_append, hlength]
    exact hroom
  · rcases List.mem_append.1 he with he | he
    · exact hnames e he
    · rw [List.mem_singleton.1 he]
      exact hname
  · show ((Layout.entriesOf z.entries ++ ([⟨name, b⟩] : List Entry)).map Entry.name).Nodup
    rw [List.map_append, Layout.map_name_entriesOf]
    refine List.nodup_append.2 ⟨?_, List.nodup_singleton _, ?_⟩
    · rw [← Layout.map_name_entriesOf]
      exact hnodup
    · intro x hx y hy heq
      subst heq
      obtain ⟨e, he, rfl⟩ := List.mem_map.1 hx
      exact splitAt?_eq_none_iff.1 hnew e he (List.mem_singleton.1 hy)

theorem kept_withEntry {s₁ : Store} {d' : Device} {b : BlockNumber} {bytes : Bytes}
    (hz : z.whole.Sound g d.store) (h : Leaf g contents leaf tree)
    (hadmits : g.Admits (.directory ⟨Layout.entriesOf (withEntry z name (leaf b)).entries⟩))
    (hnew : d.store.Extends s₁ [b]) (hb : s₁.metadata? b = some contents)
    (hw : s₁.Rewrites d'.store z.block bytes)
    (hdir : d'.store.metadata? z.block =
      some (.directory ⟨Layout.entriesOf (withEntry z name (leaf b)).entries⟩))
    (hd : d.Steady d') : Kept g d d' z.whole (withEntry z name (leaf b)).whole := by
  have hc : d.store.Changes d'.store [b] z.block [] := hnew.changes hw
  have hfresh : ¬ d.store.InUse b := hnew.fresh b List.mem_cons_self
  have hb' : d'.store.metadata? b = some contents := by
    refine (Store.metadata?_congr (hw.bytes_of_ne b ?_ ?_)).trans hb
    · exact (hnew.inUse_iff b).2 (.inr List.mem_cons_self)
    · intro heq
      subst heq
      exact hfresh (Spot.inUse_block hz)
  have hblocks : Layout.blocksOf (withEntry z name (leaf b)).entries =
      Layout.blocksOf z.entries ++ [b] := by
    rw [withEntry, Layout.blocksOf_append]
    show Layout.blocksOf z.entries ++ ((leaf b).blocks ++ []) = _
    rw [h.blocks, List.append_nil]
  refine Kept.of_changes (withEntry z name (leaf b)).here [] hz hc rfl ?_ ?_ (fun a => ?_)
    (List.Subset.refl _) (List.nil_subset _) hd.later (fun _ => List.Subset.refl _)
  · refine .directory hdir hadmits fun e he => ?_
    rcases List.mem_append.1 he with he | he
    · exact Spot.stored_of_changes hz hc e he
    · rw [List.mem_singleton.1 he]
      exact h.stored _ _ hb'
  · show (z.block :: Layout.blocksOf (withEntry z name (leaf b)).entries).Nodup
    rw [hblocks, ← List.cons_append]
    refine List.nodup_append.2 ⟨Spot.nodup hz, List.nodup_singleton _, ?_⟩
    intro x hx y hy heq
    subst heq
    exact hfresh (List.mem_singleton.1 hy ▸ Spot.inUse hz hx)
  · show a ∈ z.block :: Layout.blocksOf (withEntry z name (leaf b)).entries ↔ _
    rw [hblocks, ← List.cons_append, List.mem_append]
    simp only [List.not_mem_nil, not_false_eq_true, and_true]
    exact Iff.rfl

theorem ends_addEntry (hs : d.store.Serves g) (hz : z.whole.Sound g d.store)
    (h : Leaf g contents leaf tree) (hname : name.utf8ByteSize ≤ g.maxNameLength)
    (hnew : splitAt? name z.entries = none) (hroom : z.entries.length < g.maxDirEntries) :
    Ends (Transaction.atomically (do
        let b ← Transaction.allocate
        Transaction.lift (Device.writeBlock b contents)
        Transaction.lift (Device.writeBlock z.block
          (.directory ((⟨Layout.entriesOf z.entries⟩ : Directory).push ⟨name, b⟩)))) d)
      (fun _ d' => 0 < d.store.freeCount ∧
        ∃ b free, d.store.freeBlocks = b :: free ∧
          Kept g d d' z.whole (withEntry z name (leaf b)).whole)
      (fun e d' => (e = .diskFull ∧ d.store.freeCount = 0 ∨ d.Interrupts .write e) ∧
        d.Reverts d') := by
  refine Transaction.ends_atomically ?_
  have hstart : d.store.WellFormed := hs.wellFormed
  refine (Transaction.ends_allocate (t := ⟨d, []⟩) hstart).bind ?_ ?_
  · intro e t herr
    obtain ⟨rfl, hfull, rfl⟩ := herr
    exact ⟨.inl ⟨rfl, hfull⟩, [], .refl hstart⟩
  intro b t₁ h₁
  have hfree : t₁.device.store.freeCount + 1 = d.store.freeCount :=
    h₁.extends_store.freeCount hstart
  have hs₁ : t₁.device.store.Serves g :=
    hs.of_blockLen h₁.extends_store.wellFormed h₁.extends_store.blockLen
  refine (Transaction.ends_lift (hs₁.ends_writeBlock (h₁.inUse List.mem_cons_self) h.admits)).bind
    ?_ ?_
  · intro e t₂ herr
    obtain ⟨hp, he, hd⟩ := herr
    exact ⟨.inr (he.of_plan h₁.steady.plan), [b], h₁.untouched hp hd⟩
  intro _ t₂ hres
  obtain ⟨hp₂, ⟨c, hw₂⟩, hb, hd₂⟩ := hres
  have h₂ := h₁.rewrites hp₂ hd₂ List.mem_cons_self hw₂
  have hs₂ : t₂.device.store.Serves g :=
    hs.of_blockLen h₂.extends_store.wellFormed h₂.extends_store.blockLen
  have hadmits := admits_withEntry hz h hname hnew hroom b
  rw [entriesOf_withEntry h]
  refine (Transaction.ends_lift (hs₂.ends_writeBlock
    (h₂.extends_store.inUse (Spot.inUse_block hz)) hadmits)).imp ?_ ?_
  · intro _ t₃ hres
    obtain ⟨-, ⟨c', hw₃⟩, hdir, hd₃⟩ := hres
    exact ⟨by omega, b, _, h₁.free,
      kept_withEntry hz h hadmits h₂.extends_store hb hw₃ hdir (h₂.steady.trans hd₃)⟩
  · intro e t₃ herr
    obtain ⟨hp₃, he, hd₃⟩ := herr
    exact ⟨.inr (he.of_plan h₂.steady.plan), [b], h₂.untouched hp₃ hd₃⟩

/-- An entry is added as the tree says, and if it is not then nothing is. -/
theorem ends_createEntry (hs : d.store.Serves g) (hz : z.whole.Sound g d.store)
    (h : Leaf g contents leaf tree) (name : String) :
    Ends (createEntry ⟨g, z.block⟩ name contents d)
      (fun _ d' => z.Moves g (added z name leaf d.store.freeBlocks)
        (z.cursor.create g d.store.freeCount name tree) d d')
      (fun e d' => z.Stays g (z.cursor.create g d.store.freeCount name tree) e d d') := by
  unfold createEntry
  by_cases hname : g.maxNameLength < name.utf8ByteSize
  · rw [if_pos hname]
    refine ⟨.untouched hs.wellFormed hz (.refl d), .inl ?_⟩
    rw [Cursor.create, if_pos hname]
  rw [if_neg hname]
  refine (ends_readHere hs hz).bind
    (fun e d' he => ⟨.untouched hs.wellFormed hz he.2, .inr (.inl he.1)⟩) ?_
  intro _ d₁ hres
  obtain ⟨rfl, hd₁⟩ := hres
  have hkept : Kept g d d₁ z.whole z.whole := .untouched hs.wellFormed hz hd₁
  have hcursor : (splitAt? name z.cursor.entries).isSome = (splitAt? name z.entries).isSome := by
    show (splitAt? name (Layout.treesOf z.entries)).isSome = _
    rw [Layout.splitAt?_treesOf, Option.isSome_map]
  have hlength : z.cursor.entries.length = z.entries.length := Layout.length_treesOf z.entries
  have hsize : (⟨Layout.entriesOf z.entries⟩ : Directory).size = z.entries.length :=
    List.length_map ..
  rw [Layout.contains_entriesOf, hsize]
  dsimp only
  by_cases hdup : (splitAt? name z.entries).isSome = true
  · rw [if_pos hdup]
    refine ⟨hkept, .inl ?_⟩
    rw [Cursor.create, if_neg hname, if_pos (hcursor.trans hdup)]
  rw [if_neg hdup]
  by_cases hfull : g.maxDirEntries ≤ z.entries.length
  · rw [if_pos hfull]
    refine ⟨hkept, .inl ?_⟩
    rw [Cursor.create, if_neg hname, if_neg (hcursor ▸ hdup), if_pos (hlength ▸ hfull)]
  rw [if_neg hfull]
  have hcreate : z.cursor.create g d.store.freeCount name tree =
      if d.store.freeCount = 0 then .error .diskFull
      else .ok ⟨z.cursor.above, z.cursor.entries ++ [(name, tree)]⟩ := by
    rw [Cursor.create, if_neg hname, if_neg (hcursor ▸ hdup), if_neg (hlength ▸ hfull)]
  rw [hcreate]
  rw [← hd₁.store] at hs hz
  refine (ends_addEntry hs hz h (Nat.le_of_not_lt hname) (Option.not_isSome_iff_eq_none.1 hdup)
    (Nat.lt_of_not_le hfull)).imp ?_ ?_
  · intro _ d' hres
    obtain ⟨hfree, b, free, hfirst, hkept'⟩ := hres
    rw [hd₁.store] at hfree hfirst
    rw [hfirst]
    refine ⟨rfl, ?_, hkept.trans hkept'⟩
    rw [if_neg (by omega)]
    show _ = Except.ok (Cursor.mk _ (Layout.treesOf (z.entries ++ [(name, leaf b)])))
    rw [Layout.treesOf_append]
    show _ = Except.ok (Cursor.mk _ (Layout.treesOf z.entries ++ [(name, (leaf b).tree)]))
    rw [h.tree]
    rfl
  · intro e d' herr
    obtain ⟨hcause, hback⟩ := herr
    refine ⟨hkept.trans (.of_reverts hz hback), ?_⟩
    rcases hcause with ⟨rfl, hzero⟩ | he
    · rw [hd₁.store] at hzero
      rw [if_pos hzero]
      exact .inl rfl
    · exact .inr (.inr (he.of_plan hd₁.plan))

end Create

/-! ## Taking an entry out -/

section Remove

variable {before after : List (String × Layout)} {t : Layout} {freed : List BlockNumber}

def without (z : Spot) (before after : List (String × Layout)) : Spot :=
  ⟨z.above, z.block, before ++ after⟩

/-- The spot with the first entry of a name taken out. -/
def removed (z : Spot) (name : String) : Spot :=
  match splitAt? name z.entries with
  | none => z
  | some (before, _, after) => without z before after

theorem removed_of_split (h : splitAt? name z.entries = some (before, t, after)) :
    removed z name = without z before after := by
  unfold removed
  rw [h]

theorem blocksOf_perm_of_split (h : splitAt? name z.entries = some (before, t, after)) :
    (Layout.blocksOf z.entries).Perm (Layout.blocksOf (before ++ after) ++ t.blocks) := by
  rw [(eq_append_of_splitAt? h).1, Layout.blocksOf_append, Layout.blocksOf_append]
  show (Layout.blocksOf before ++ (t.blocks ++ Layout.blocksOf after)).Perm _
  rw [List.append_assoc]
  exact List.Perm.append_left _ List.perm_append_comm

theorem admits_without (hz : z.whole.Sound g d.store)
    (h : splitAt? name z.entries = some (before, t, after)) :
    g.Admits (.directory ⟨Layout.entriesOf (before ++ after)⟩) := by
  obtain ⟨hsize, hnames, hnodup⟩ := (Spot.directory hz).2.1
  have hsub : (Layout.entriesOf (before ++ after)).Sublist (Layout.entriesOf z.entries) := by
    rw [(eq_append_of_splitAt? h).1]
    exact ((List.sublist_cons_self _ _).append_left _).map _
  exact ⟨Nat.le_trans hsub.length_le hsize, fun e he => hnames e (hsub.subset he),
    hnodup.sublist (hsub.map _)⟩

/-- Blocks of the entry that is gone from the rewritten directory have been freed. -/
theorem kept_without {s₁ : Store} {d' : Device} {bytes : Bytes} (hz : z.whole.Sound g d.store)
    (h : splitAt? name z.entries = some (before, t, after))
    (hw : d.store.Rewrites s₁ z.block bytes)
    (hdir : s₁.metadata? z.block = some (.directory ⟨Layout.entriesOf (before ++ after)⟩))
    (hfreed : s₁.Shrinks d'.store freed) (hsub : freed ⊆ t.blocks) (hd : d.Later d')
    (hall : d'.calls.failedReleases = d.calls.failedReleases → t.blocks ⊆ freed)
    (hs : d.store.WellFormed) : Kept g d d' z.whole (without z before after).whole := by
  have hc₁ : d.store.Changes s₁ [] z.block [] := (Store.Extends.refl hs).changes hw
  have hc : d.store.Changes d'.store [] z.block freed := hc₁.shrinks hfreed
  have hperm := blocksOf_perm_of_split h
  have hnodup := (List.nodup_cons.1 (Spot.nodup hz)).2
  have hparts := List.nodup_append.1 (hperm.nodup_iff.1 hnodup)
  have hblock : z.block ∉ Layout.blocksOf z.entries := (List.nodup_cons.1 (Spot.nodup hz)).1
  have hmem : ∀ a, a ∈ Layout.blocksOf z.entries ↔
      a ∈ Layout.blocksOf (before ++ after) ∨ a ∈ t.blocks := fun a => by
    rw [hperm.mem_iff, List.mem_append]
  refine Kept.of_changes (without z before after).here t.blocks hz hc rfl ?_ ?_ (fun a => ?_) hsub
    ?_ hd hall
  · refine .directory ?_ (admits_without hz h) fun e he => ?_
    · exact (Store.metadata?_congr (hfreed.bytes _)).trans hdir
    · refine (Spot.stored_of_changes hz hc₁ e ?_).frame fun b _ => hfreed.bytes b
      rw [(eq_append_of_splitAt? h).1]
      exact ((List.sublist_cons_self _ _).append_left _).subset he
  · exact List.nodup_cons.2 ⟨fun hb => hblock ((hmem _).2 (.inl hb)), hparts.1⟩
  · show a ∈ z.block :: Layout.blocksOf (before ++ after) ↔
      (a ∈ z.block :: Layout.blocksOf z.entries ∨ a ∈ []) ∧ a ∉ t.blocks
    rw [List.mem_cons, List.mem_cons, hmem]
    constructor
    · intro h
      rcases h with rfl | ha
      · exact ⟨.inl (.inl rfl), fun ht => hblock ((hmem _).2 (.inr ht))⟩
      · exact ⟨.inl (.inr (.inl ha)), fun ht => hparts.2.2 a ha a ht rfl⟩
    · intro h
      obtain ⟨(rfl | ha | ha) | ha, hnot⟩ := h
      · exact .inl rfl
      · exact .inr ha
      · exact absurd ha hnot
      · exact absurd ha List.not_mem_nil
  · exact fun a ha => List.mem_cons_of_mem _ ((hmem a).2 (.inr ha))

/-- An entry is taken out by rewriting the directory and then freeing its blocks. -/
theorem ends_removeEntry (hs : d.store.Serves g) (hz : z.whole.Sound g d.store)
    (h : splitAt? name z.entries = some (before, t, after)) (hfreed : freed.Perm t.blocks) :
    Ends ((Device.writeBlock z.block
        (.directory ((⟨Layout.entriesOf z.entries⟩ : Directory).erase name)) >>= fun _ =>
          Device.releaseEach freed) d)
      (fun _ d' => Kept g d d' z.whole (without z before after).whole)
      (fun e d' => Kept g d d' z.whole z.whole ∧ d.Interrupts .write e ∨
        d.Interrupts .release e ∧ Kept g d d' z.whole (without z before after).whole) := by
  rw [Layout.erase_entriesOf h]
  refine (hs.ends_writeBlock (Spot.inUse_block hz) (admits_without hz h)).bind ?_ ?_
  · intro e d₁ herr
    obtain ⟨he, hd₁⟩ := herr
    exact .inl ⟨.untouched hs.wellFormed hz hd₁, he⟩
  intro _ d₁ hres
  obtain ⟨⟨bytes, hw⟩, hdir, hd₁⟩ := hres
  have huse : ∀ b ∈ freed, d₁.store.InUse b ∧ b ≠ rootBlock := by
    intro b hb
    obtain ⟨hin, huse⟩ := (stored_of_split hz h).2 b (hfreed.mem_iff.1 hb)
    exact ⟨(hw.inUse_iff b).2 huse, Spot.not_root hz hin⟩
  have hnodup : freed.Nodup := hfreed.nodup_iff.2 (nodup_of_split hz h)
  refine (Device.ends_releaseEach hw.wellFormed huse hnodup).imp ?_ ?_
  · intro _ d' hres
    obtain ⟨hgone, hd'⟩ := hres
    exact kept_without hz h hw hdir hgone hfreed.subset (hd₁.trans hd').later
      (fun _ => hfreed.symm.subset) hs.wellFormed
  · intro e d' herr
    obtain ⟨he, hplan, hfailed, gone, hsub, hgone⟩ := herr
    obtain ⟨b, k, hek, hk⟩ := he
    rw [hd₁.failed] at hfailed
    rw [hd₁.plan] at hk
    refine .inr ⟨⟨b, k, hek, hk⟩, kept_without hz h hw hdir hgone
      (List.Subset.trans hsub hfreed.subset)
      ⟨hplan.trans hd₁.plan, Nat.le_of_lt hfailed, fun _ => ⟨k, hk⟩⟩ (fun heq => ?_)
      hs.wellFormed⟩
    omega

theorem cursor_without (z : Spot) (before after : List (String × Layout)) :
    (without z before after).cursor =
      ⟨z.cursor.above, Layout.treesOf before ++ Layout.treesOf after⟩ := by
  show Cursor.mk _ (Layout.treesOf (before ++ after)) = _
  rw [Layout.treesOf_append]
  rfl

/-- What is left to do once the entry has been looked up. -/
theorem ends_remove {d₁ : Device} {r : Except Error Cursor} (hs : d.store.Serves g)
    (hz : z.whole.Sound g d.store) (hd₁ : d.Untouched d₁)
    (h : splitAt? name z.entries = some (before, t, after)) (hfreed : freed.Perm t.blocks)
    (hresult : r = .ok (without z before after).cursor) :
    Ends ((Device.writeBlock z.block
        (.directory ((⟨Layout.entriesOf z.entries⟩ : Directory).erase name)) >>= fun _ =>
          Device.releaseEach freed) d₁)
      (fun _ d' => z.Moves g (removed z name) r d d')
      (fun e d' => z.Stays g r e d d' ∨
        d.Interrupts .release e ∧ z.Moves g (removed z name) r d d') := by
  rw [removed_of_split h]
  have hkept : Kept g d d₁ z.whole z.whole := .untouched hs.wellFormed hz hd₁
  refine (ends_removeEntry (hkept.serves hs) hkept.sound h hfreed).imp ?_ ?_
  · exact fun _ d' hd' => ⟨rfl, hresult, hkept.trans hd'⟩
  · intro e d' herr
    rcases herr with ⟨hd', he⟩ | ⟨he, hd'⟩
    · exact .inl ⟨hkept.trans hd', .inr (.inr (he.of_plan hd₁.plan))⟩
    · exact .inr ⟨he.of_plan hd₁.plan, rfl, hresult, hkept.trans hd'⟩

theorem releaseEach_append_singleton (bs : List BlockNumber) (b : BlockNumber) :
    Device.releaseEach (bs ++ [b]) = Device.releaseEach bs >>= fun _ => Device.release b := by
  induction bs with
  | nil => exact bind_pure_unit.trans (pure_bind _ _).symm
  | cons c bs ih =>
    rw [List.cons_append, Device.releaseEach, Device.releaseEach, ih, bind_assoc]

theorem ends_removeDirectory (hs : d.store.Serves g) (hz : z.whole.Sound g d.store)
    (name : String) :
    Ends (removeDirectory ⟨g, z.block⟩ name d)
      (fun _ d' => z.Moves g (removed z name) (z.cursor.removeDirectory name) d d')
      (fun e d' => z.Stays g (z.cursor.removeDirectory name) e d d' ∨
        d.Interrupts .release e ∧
          z.Moves g (removed z name) (z.cursor.removeDirectory name) d d') := by
  unfold removeDirectory
  refine ends_findDirectory hs hz name
    (fun e d' hd he => .inl ⟨.untouched hs.wellFormed hz hd, .inr (.inl he)⟩) ?_ ?_ ?_
  · intro d' hd h
    refine .inl ⟨.untouched hs.wellFormed hz hd, .inl ?_⟩
    rw [Cursor.removeDirectory, h]
  · intro before contents after d' hd h
    refine .inl ⟨.untouched hs.wellFormed hz hd, .inl ?_⟩
    rw [Cursor.removeDirectory, h]
  intro before b es after d₁ hd₁ h
  have hkept : Kept g d d₁ z.whole z.whole := .untouched hs.wellFormed hz hd₁
  have hsplit := splitAt?_cursor h
  cases es with
  | cons e es =>
    refine .inl ⟨hkept, .inl ?_⟩
    rw [Cursor.removeDirectory, hsplit]
    rfl
  | nil =>
    have hresult : z.cursor.removeDirectory name = .ok (without z before after).cursor := by
      rw [Cursor.removeDirectory, hsplit, cursor_without]
      rfl
    have hone : Device.release b = Device.releaseEach [b] := bind_pure_unit.symm
    show Ends ((Device.writeBlock z.block
      (.directory ((⟨Layout.entriesOf z.entries⟩ : Directory).erase name)) >>= fun _ =>
        Device.release b) d₁) _ _
    rw [hone]
    exact ends_remove hs hz hd₁ h (List.Perm.refl [b]) hresult

theorem ends_removeFile (hs : d.store.Serves g) (hz : z.whole.Sound g d.store) (name : String) :
    Ends (removeFile ⟨g, z.block⟩ name d)
      (fun _ d' => z.Moves g (removed z name) (z.cursor.removeFile name) d d')
      (fun e d' => z.Stays g (z.cursor.removeFile name) e d d' ∨
        d.Interrupts .release e ∧
          z.Moves g (removed z name) (z.cursor.removeFile name) d d') := by
  unfold removeFile
  refine ends_findFile hs hz name
    (fun e d' hd he => .inl ⟨.untouched hs.wellFormed hz hd, .inr (.inl he)⟩) ?_ ?_ ?_
  · intro d' hd h
    refine .inl ⟨.untouched hs.wellFormed hz hd, .inl ?_⟩
    rw [Cursor.removeFile, h]
  · intro before ts after d' hd h
    refine .inl ⟨.untouched hs.wellFormed hz hd, .inl ?_⟩
    rw [Cursor.removeFile, h]
  intro before b bs contents after i d₁ hd₁ h hi
  have hresult : z.cursor.removeFile name = .ok (without z before after).cursor := by
    rw [Cursor.removeFile, splitAt?_cursor h, cursor_without]
    rfl
  have hheld : i.populated? g.blockSize = some bs := Geometry.populated?_of_fileBlocks hi.blocks
  show Ends ((expect (i.populated? g.blockSize) >>= fun blocks =>
    Device.writeBlock z.block
      (.directory ((⟨Layout.entriesOf z.entries⟩ : Directory).erase name)) >>= fun _ =>
        Device.releaseEach blocks >>= fun _ => Device.release b) d₁) _ _
  rw [hheld]
  show Ends ((Device.writeBlock z.block
    (.directory ((⟨Layout.entriesOf z.entries⟩ : Directory).erase name)) >>= fun _ =>
      Device.releaseEach bs >>= fun _ => Device.release b) d₁) _ _
  rw [← releaseEach_append_singleton]
  exact ends_remove hs hz hd₁ h (List.perm_append_singleton ..) hresult

end Remove
end Place
end BlockFS
