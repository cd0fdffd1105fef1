/-
Appending to a file.

The data go into new blocks, behind what the partly filled last block held, and the tree
changes when the inode is rewritten.  That last block is freed only afterwards, so the disk
has to have a block more free than the file grows by.
-/
import BlockFS.Proofs.Operations.Reading

namespace BlockFS
namespace Place

variable {g : Geometry} {d : Device} {z : Spot} {name : String} {b : BlockNumber}

/-! ## Full blocks -/

/-- The contents of a file with the inode in `b`, cut behind its full blocks `kept`. -/
structure Cut (g : Geometry) (s : Store) (b : BlockNumber) (kept : List BlockNumber)
    (contents moved : Bytes) : Prop where
  inUse : ∀ a ∈ kept, s.InUse a
  not_mem : b ∉ kept
  length : kept.length = contents.length / g.blockSize
  contents : contents = s.gather g.blockSize kept ++ moved

namespace Cut

variable {kept : List BlockNumber} {contents moved : Bytes}

/-- What is moved had filled a block in part. -/
theorem length_moved (hs : d.store.Serves g) (h : Cut g d.store b kept contents moved) :
    moved.length = contents.length % g.blockSize := by
  have hdiv := Nat.div_add_mod' contents.length g.blockSize
  have hlength := congrArg List.length h.contents
  rw [List.length_append, Store.length_gather hs.wellFormed hs.blockSize_le h.inUse, h.length]
    at hlength
  omega

theorem blocksFor_moved (hs : d.store.Serves g) (h : Cut g d.store b kept contents moved)
    (data : Bytes) :
    g.blocksFor (moved ++ data).length =
      Cursor.blocksToAppend g contents.length data.length := by
  rw [List.length_append, h.length_moved hs]
  rfl

/-- The full blocks and the new ones are as many as the whole file takes up. -/
theorem blocksFor_whole (hs : d.store.Serves g) (h : Cut g d.store b kept contents moved)
    (data : Bytes) :
    g.blocksFor (contents.length + data.length) =
      kept.length + g.blocksFor (moved ++ data).length := by
  rw [h.blocksFor_moved hs, h.length, Geometry.blocksFor_add hs.blockSize_pos]
  rfl

theorem of_split {before after : List (String × Layout)} {bs : List BlockNumber}
    (hs : d.store.Serves g) (hz : z.whole.Sound g d.store)
    (h : splitAt? name z.entries = some (before, .file b bs contents, after))
    (hlen : bs.length = g.blocksFor contents.length)
    (hmoved : contents =
      d.store.gather g.blockSize (bs.take (contents.length / g.blockSize)) ++ moved) :
    Cut g d.store b (bs.take (contents.length / g.blockSize)) contents moved where
  inUse := fun a ha =>
    ((stored_of_split hz h).2 a (List.mem_cons_of_mem b (List.mem_of_mem_take ha))).2
  not_mem := fun hmem => (List.nodup_cons.1 (nodup_of_split hz h)).1 (List.mem_of_mem_take hmem)
  length := length_take_full hs.blockSize_pos hlen
  contents := hmoved

end Cut

/-! ## Extending -/

/-- The inode of a file that ends in blocks holding some bytes. -/
structure Extended (g : Geometry) (d d' : Device) (b : BlockNumber) (kept new : List BlockNumber)
    (contents : Bytes) (size : Nat) : Prop where
  changes : d.store.Changes d'.store new b []
  nodup : new.Nodup
  length : new.length = g.blocksFor contents.length
  size_lt : size < 2 ^ 32
  inode : d'.store.metadata? b = some (.file ⟨UInt32.ofNat size, kept ++ new⟩)
  admits : g.Admits (.file ⟨UInt32.ofNat size, kept ++ new⟩)
  bytes : ∃ zeros, d'.store.gather g.blockSize new = contents ++ zeros
  steady : d.Steady d'
  free : d.store.freeBlocks.take (g.blocksFor contents.length) = new

/-- Once the new blocks hold the bytes, writing the inode makes them part of the file. -/
theorem extended_of_occupies {t : Transaction} {d' : Device} {kept new : List BlockNumber}
    {contents c : Bytes} {size : Nat} (hs : d.store.Serves g) (hb : d.store.InUse b)
    (hsize : size < 2 ^ 32) (h : Transaction.Occupies ⟨d, []⟩ t new)
    (hlen : new.length = g.blocksFor contents.length)
    (hbytes : new.map t.device.store.bytes =
      (Bytes.pieces g.blockSize (g.blocksFor contents.length) contents).map
        (Bytes.padTo d.store.blockLen))
    (hadmits : g.Admits (.file ⟨UInt32.ofNat size, kept ++ new⟩))
    (hw : t.device.store.Rewrites d'.store b c)
    (hinode : d'.store.metadata? b = some (.file ⟨UInt32.ofNat size, kept ++ new⟩))
    (hd : t.device.Steady d') : Extended g d d' b kept new contents size where
  changes := h.extends_store.changes hw
  nodup := h.extends_store.nodup
  length := hlen
  size_lt := hsize
  inode := hinode
  admits := hadmits
  bytes := by
    obtain ⟨zeros, hzeros⟩ :=
      Store.gather_of_pieces (Geometry.le_blocksFor_mul hs.blockSize_pos contents.length) hbytes
    refine ⟨zeros, hzeros ▸ Store.gather_congr fun a ha => hw.bytes_of_ne a (h.inUse ha) ?_⟩
    intro heq
    subst heq
    exact h.extends_store.fresh a ha hb
  steady := h.steady.trans hd
  free := by
    have hfirst : d.store.freeBlocks = new ++ t.device.store.freeBlocks := h.free
    rw [hfirst, List.take_left' hlen]

theorem ends_extend (hs : d.store.Serves g) (hb : d.store.InUse b) {dir : BlockNumber}
    {kept : List BlockNumber} {contents : Bytes} {size : Nat} (hsize : size ≤ g.maxFileSize)
    (hfit : g.blocksFor size ≤ kept.length + g.blocksFor contents.length)
    (hmax : kept.length + g.blocksFor contents.length ≤ g.maxDataBlocks) :
    Ends (extend ⟨g, dir⟩ b kept contents size d)
      (fun _ d' => g.blocksFor contents.length ≤ d.store.freeCount ∧
        ∃ new, Extended g d d' b kept new contents size)
      (fun e d' => (e = .diskFull ∧ d.store.freeCount < g.blocksFor contents.length ∨
        d.Interrupts .write e) ∧ d.Reverts d') := by
  have hlt : size < 2 ^ 32 :=
    Nat.lt_of_le_of_lt hsize ((Geometry.validate_eq_ok_iff g).1 hs.valid).2.2.2.2.2
  have hcount : g.blocksFor? contents.length = some (g.blocksFor contents.length) :=
    Geometry.blocksFor?_eq hs.blockSize_pos _
  have hword : (if size < Geometry.inodeSizeLimit then some (UInt32.ofNat size) else none) =
      some (UInt32.ofNat size) := if_pos hlt
  have hstart : d.store.WellFormed := hs.wellFormed
  unfold extend
  simp only [hcount, hword]
  refine Transaction.ends_atomically ?_
  have hpieces : ∀ piece ∈ Bytes.pieces g.blockSize (g.blocksFor contents.length) contents,
      piece.length ≤ d.store.blockLen :=
    fun piece hp => Nat.le_trans (Bytes.length_le_of_mem_pieces hp) hs.blockSize_le
  refine (Transaction.ends_storeEach (t := ⟨d, []⟩) hstart hpieces).bind ?_ ?_
  · intro e t herr
    obtain ⟨hcause, hnew⟩ := herr
    rw [Bytes.length_pieces] at hcause
    exact ⟨hcause, hnew⟩
  intro _ t₁ hres
  obtain ⟨new, h₁, hbytes⟩ := hres
  have hlen : new.length = g.blocksFor contents.length := by
    have hmap := congrArg List.length hbytes
    rwa [List.length_map, List.length_map, Bytes.length_pieces] at hmap
  have hfree : t₁.device.store.freeCount + new.length = d.store.freeCount :=
    h₁.extends_store.freeCount hstart
  have hpending : t₁.pending.reverse = new := by
    rw [h₁.pending, List.append_nil, List.reverse_reverse]
  have hs₁ : t₁.device.store.Serves g :=
    hs.of_blockLen h₁.extends_store.wellFormed h₁.extends_store.blockLen
  have hadmits : g.Admits (.file ⟨UInt32.ofNat size, kept ++ new⟩) := by
    rw [Geometry.Admits, UInt32.toNat_ofNat_of_lt' hlt, List.length_append, hlen]
    exact ⟨hsize, hfit, hmax⟩
  show Ends (Transaction.lift (Device.writeBlock b (.file ⟨UInt32.ofNat size,
    kept ++ t₁.pending.reverse⟩)) t₁) _ _
  rw [hpending]
  refine (Transaction.ends_lift (hs₁.ends_writeBlock (h₁.extends_store.inUse hb) hadmits)).imp
    ?_ ?_
  · intro _ t₂ hres
    obtain ⟨-, ⟨c, hw⟩, hinode, hd₂⟩ := hres
    exact ⟨by omega, new,
      extended_of_occupies hs hb hlt h₁ hlen hbytes hadmits hw hinode hd₂⟩
  · intro e t₂ herr
    obtain ⟨hp, he, hd₂⟩ := herr
    exact ⟨.inr (he.of_plan h₁.steady.plan), new, h₁.untouched hp hd₂⟩

/-! ## The file afterwards -/

section Appended

variable {before after : List (String × Layout)} {bs new : List BlockNumber}
  {contents moved data : Bytes} {tail : Option BlockNumber}

theorem whole_eq_fill {t : Layout} (h : splitAt? name z.entries = some (before, t, after)) :
    z.whole = Layout.fill (⟨z.block, before, name, after⟩ :: z.above) t := by
  show Layout.fill z.above (.directory z.block z.entries) = _
  rw [(eq_append_of_splitAt? h).1]
  rfl

/-- The spot with another layout for one of its entries. -/
def withFile (z : Spot) (name : String) (before after : List (String × Layout)) (t : Layout) :
    Spot :=
  ⟨z.above, z.block, before ++ (name, t) :: after⟩

/-- A file with data behind its contents: it keeps the blocks that are full and takes up free
ones in their order. -/
def grown (g : Geometry) (b : BlockNumber) (bs : List BlockNumber) (contents data : Bytes)
    (free : List BlockNumber) : Layout :=
  .file b (bs.take (contents.length / g.blockSize) ++
    free.take (Cursor.blocksToAppend g contents.length data.length)) (contents ++ data)

/-- The spot with data appended to the first entry of a name. -/
def appended (g : Geometry) (z : Spot) (name : String) (data : Bytes)
    (free : List BlockNumber) : Spot :=
  match splitAt? name z.entries with
  | some (before, .file b bs contents, after) =>
    if data = [] then z
    else withFile z name before after (grown g b bs contents data free)
  | _ => z

theorem stored_appended {d' : Device} {kept : List BlockNumber} (hs : d.store.Serves g)
    (hcut : Cut g d.store b kept contents moved)
    (h : Extended g d d' b kept new (moved ++ data) (contents.length + data.length)) :
    (Layout.file b (kept ++ new) (contents ++ data)).Stored g d'.store := by
  have hto : (UInt32.ofNat (contents.length + data.length)).toNat = contents.length + data.length :=
    UInt32.toNat_ofNat_of_lt' h.size_lt
  refine .file h.inode h.admits ?_ ?_
  · rw [Geometry.references, hto, List.take_of_length_le]
    rw [List.length_append, h.length, hcut.blocksFor_whole hs]
  · obtain ⟨zeros, hzeros⟩ := h.bytes
    have hsame : d'.store.gather g.blockSize kept = d.store.gather g.blockSize kept :=
      Store.gather_congr fun a ha =>
        h.changes.bytes a (hcut.inUse a ha) fun heq => hcut.not_mem (heq ▸ ha)
    rw [hto, Store.gather_append, hsame, hzeros, ← List.append_assoc, ← List.append_assoc,
      ← hcut.contents, ← List.length_append, List.take_left]

theorem kept_appended {d₁ d' : Device} {kept freed : List BlockNumber} {size : Nat}
    (hz : z.whole.Sound g d.store)
    (h : splitAt? name z.entries = some (before, .file b bs contents, after))
    (hsplit : bs = kept ++ tail.toList) (hx : Extended g d d₁ b kept new (moved ++ data) size)
    (hstored : (Layout.file b (kept ++ new) (contents ++ data)).Stored g d₁.store)
    (hfreed : d₁.store.Shrinks d'.store freed) (hsub : freed ⊆ tail.toList) (hd : d.Later d')
    (hall : d'.calls.failedReleases = d.calls.failedReleases → tail.toList ⊆ freed) :
    Kept g d d' z.whole
      (withFile z name before after (.file b (kept ++ new) (contents ++ data))).whole := by
  have huse := (stored_of_split hz h).2
  obtain ⟨hb, hbs⟩ : b ∉ bs ∧ bs.Nodup := List.nodup_cons.1 (nodup_of_split hz h)
  have hparts := List.nodup_append.1 (hsplit ▸ hbs)
  have hfresh : ∀ a ∈ new, a ∉ b :: bs := fun a ha hmem => hx.changes.fresh a ha (huse a hmem).2
  have hin : ∀ a, a ∈ bs ↔ a ∈ kept ∨ a ∈ tail.toList := fun a => by
    rw [hsplit, List.mem_append]
  rw [whole_eq_fill h] at hz ⊢
  refine Kept.of_changes (.file b (kept ++ new) (contents ++ data)) tail.toList hz
    (hx.changes.shrinks hfreed) rfl (hstored.frame fun a _ => hfreed.bytes a) ?_ (fun a => ?_) hsub
    ?_ hd hall
  · refine List.nodup_cons.2 ⟨fun hmem => ?_, List.nodup_append.2 ⟨hparts.1, hx.nodup, ?_⟩⟩
    · rcases List.mem_append.1 hmem with hmem | hmem
      · exact hb ((hin b).2 (.inl hmem))
      · exact hfresh b hmem List.mem_cons_self
    · intro x hxk y hy heq
      subst heq
      exact hfresh x hy (List.mem_cons_of_mem b ((hin x).2 (.inl hxk)))
  · show a ∈ b :: (kept ++ new) ↔ (a ∈ b :: bs ∨ a ∈ new) ∧ a ∉ tail.toList
    rw [List.mem_cons, List.mem_cons, List.mem_append, hin]
    constructor
    · intro h
      rcases h with rfl | ha | ha
      · exact ⟨.inl (.inl rfl), fun ht => hb ((hin a).2 (.inr ht))⟩
      · exact ⟨.inl (.inr (.inl ha)), fun ht => hparts.2.2 a ha a ht rfl⟩
      · exact ⟨.inr ha, fun ht => hfresh a ha (List.mem_cons_of_mem b ((hin a).2 (.inr ht)))⟩
    · intro h
      obtain ⟨(rfl | ha | ha) | ha, hnot⟩ := h
      · exact .inl rfl
      · exact .inr (.inl ha)
      · exact absurd ha hnot
      · exact .inr (.inr ha)
  · exact fun a ha => List.mem_cons_of_mem b ((hin a).2 (.inr ha))

/-- The last block is freed if what it held has moved. -/
theorem ends_releaseTail {d₁ : Device} {kept : List BlockNumber} {size : Nat}
    (hz : z.whole.Sound g d.store)
    (h : splitAt? name z.entries = some (before, .file b bs contents, after))
    (hx : Extended g d d₁ b kept new (moved ++ data) size)
    (hstored : (Layout.file b (kept ++ new) (contents ++ data)).Stored g d₁.store) :
    bs = kept ++ tail.toList → Ends ((match tail with
        | none => return
        | some last => Device.release last : Action Unit) d₁)
      (fun _ d' => Kept g d d' z.whole
        (withFile z name before after (.file b (kept ++ new) (contents ++ data))).whole)
      (fun e d' => tail ≠ none ∧ d.Interrupts .release e ∧ Kept g d d' z.whole
        (withFile z name before after (.file b (kept ++ new) (contents ++ data))).whole) := by
  intro hsplit
  cases tail with
  | none =>
    exact kept_appended hz h hsplit hx hstored (.refl hx.changes.wellFormed) (List.nil_subset _)
      hx.steady.later fun _ => List.Subset.refl _
  | some last =>
    have hlast : last ∈ bs := hsplit ▸ List.mem_append_right _ List.mem_cons_self
    obtain ⟨hin, huse⟩ := (stored_of_split hz h).2 last (List.mem_cons_of_mem b hlast)
    have huse₁ : d₁.store.InUse last :=
      (hx.changes.inUse_iff last).2 ⟨.inl huse, List.not_mem_nil⟩
    refine (Device.ends_release hx.changes.wellFormed huse₁ (Spot.not_root hz hin)).imp ?_ ?_
    · intro _ d' hres
      obtain ⟨hgone, hd'⟩ := hres
      exact kept_appended hz h hsplit hx hstored hgone (List.Subset.refl _)
        (hx.steady.trans hd').later fun _ => List.Subset.refl _
    · intro e d' herr
      obtain ⟨⟨a, k, hek, hk⟩, hd'⟩ := herr
      have hfailed := hd'.failed
      rw [hx.steady.failed] at hfailed
      rw [hx.steady.plan] at hk
      have hlater : d.Later d' :=
        ⟨hd'.plan.trans hx.steady.plan, Nat.le_of_lt hfailed, fun _ => ⟨k, hk⟩⟩
      have hnone : d₁.store.Shrinks d'.store [] := by
        rw [hd'.store]
        exact .refl hx.changes.wellFormed
      refine ⟨Option.some_ne_none last, ⟨a, k, hek, hk⟩,
        kept_appended hz h hsplit hx hstored hnone (List.nil_subset _) hlater fun heq => ?_⟩
      omega

end Appended

/-! ## Appending -/

theorem cursor_withFile (z : Spot) (name : String) (before after : List (String × Layout))
    (t : Layout) :
    (withFile z name before after t).cursor =
      ⟨z.cursor.above, Layout.treesOf before ++ (name, t.tree) :: Layout.treesOf after⟩ := by
  show Cursor.mk _ (Layout.treesOf (before ++ (name, t) :: after)) = _
  rw [Layout.treesOf_append]
  rfl

section Found

variable {before after : List (String × Layout)} {bs : List BlockNumber} {contents data : Bytes}

/-- Once it is known what has to move, the data go behind it into new blocks.  The block that it
has been moved out of is freed after that. -/
theorem ends_replaceTail {kept : List BlockNumber} {moved : Bytes} {tail : Option BlockNumber}
    (hs : d.store.Serves g) (hz : z.whole.Sound g d.store)
    (h : splitAt? name z.entries = some (before, .file b bs contents, after))
    (hcut : Cut g d.store b kept contents moved) (hsplit : bs = kept ++ tail.toList)
    (hsize : contents.length + data.length ≤ g.maxFileSize) :
    let count := Cursor.blocksToAppend g contents.length data.length
    let z' := withFile z name before after
      (.file b (kept ++ d.store.freeBlocks.take count) (contents ++ data))
    Ends ((do
        extend ⟨g, z.block⟩ b kept (moved ++ data) (contents.length + data.length)
        match tail with
        | none => return
        | some last => Device.release last : Action Unit) d)
      (fun _ d' => count ≤ d.store.freeCount ∧ Kept g d d' z.whole z'.whole)
      (fun e d' => Kept g d d' z.whole z.whole ∧
          (e = .diskFull ∧ d.store.freeCount < count ∨ d.Interrupts .write e) ∨
        tail ≠ none ∧ d.Interrupts .release e ∧ count ≤ d.store.freeCount ∧
          Kept g d d' z.whole z'.whole) := by
  intro count z'
  have hcapacity := ((Geometry.validate_eq_ok_iff g).1 hs.valid).2.2.2.2.1
  have hmax : g.blocksFor (contents.length + data.length) ≤ g.maxDataBlocks :=
    (Geometry.blocksFor_le_iff hs.blockSize_pos).2 (Nat.le_trans hsize hcapacity)
  have hneed : g.blocksFor (moved ++ data).length = count := hcut.blocksFor_moved hs data
  have hfull := hcut.blocksFor_whole hs data
  have hb : d.store.InUse b := ((stored_of_split hz h).2 b List.mem_cons_self).2
  refine (ends_extend hs hb hsize (Nat.le_of_eq hfull) (hfull ▸ hmax)).bind ?_ ?_
  · intro e d₁ herr
    obtain ⟨hcause, hback⟩ := herr
    rw [hneed] at hcause
    exact .inl ⟨.of_reverts hz hback, hcause⟩
  intro _ d₁ hres
  obtain ⟨hfree, new, hx⟩ := hres
  have hnew : d.store.freeBlocks.take count = new := hneed ▸ hx.free
  rw [hneed] at hfree
  have hz' : z' = withFile z name before after (.file b (kept ++ new) (contents ++ data)) := by
    rw [← hnew]
  rw [hz']
  refine (ends_releaseTail hz h hx (stored_appended hs hcut hx) hsplit).imp ?_ ?_
  · exact fun _ d' hd' => ⟨hfree, hd'⟩
  · intro e d' herr
    obtain ⟨hsome, he, hd'⟩ := herr
    exact .inr ⟨hsome, he, hfree, hd'⟩

theorem ends_grow (hs : d.store.Serves g) (hz : z.whole.Sound g d.store) (data : Bytes)
    (h : splitAt? name z.entries = some (before, .file b bs contents, after))
    (hlen : bs.length = g.blocksFor contents.length)
    (hgather : contents = (d.store.gather g.blockSize bs).take contents.length)
    (hsize : contents.length + data.length ≤ g.maxFileSize) :
    Ends ((do
        let tail ← tail? g.blockSize contents.length bs
        let kept ← tailContents g.blockSize contents.length tail
        extend ⟨g, z.block⟩ b (bs.take (contents.length / g.blockSize)) (kept ++ data)
          (contents.length + data.length)
        match tail with
        | none => return
        | some last => Device.release last : Action Unit) d)
      (fun _ d' => Cursor.blocksToAppend g contents.length data.length ≤ d.store.freeCount ∧
        Kept g d d' z.whole (withFile z name before after
          (grown g b bs contents data d.store.freeBlocks)).whole)
      (fun e d' => Kept g d d' z.whole z.whole ∧
          (e = .diskFull ∧
            d.store.freeCount < Cursor.blocksToAppend g contents.length data.length ∨
          d.Interrupts .read e ∨ d.Interrupts .write e) ∨
        contents.length % g.blockSize ≠ 0 ∧ d.Interrupts .release e ∧
          Cursor.blocksToAppend g contents.length data.length ≤ d.store.freeCount ∧
          Kept g d d' z.whole (withFile z name before after
            (grown g b bs contents data d.store.freeBlocks)).whole) := by
  have huse : ∀ a ∈ bs, d.store.InUse a := fun a ha =>
    ((stored_of_split hz h).2 a (List.mem_cons_of_mem b ha)).2
  refine (ends_tail? hs.blockSize_pos hlen).bind (fun _ _ hf => hf.elim) ?_
  intro tail _ hres
  obtain ⟨rfl, hsplit, htail⟩ := hres
  refine (ends_tailContents hs huse hgather hsplit htail).bind
    (fun e d' he => .inl ⟨.untouched hs.wellFormed hz he.2, .inr (.inl he.1)⟩) ?_
  intro moved d₁ hres
  obtain ⟨hd₁, hmoved⟩ := hres
  have hkept₁ := Kept.untouched hs.wellFormed hz hd₁
  have hcut := Cut.of_split hs hz h hlen hmoved
  rw [← hd₁.store] at hcut
  have hend := ends_replaceTail (hkept₁.serves hs) hkept₁.sound h hcut hsplit hsize
  rw [hd₁.store] at hend
  refine hend.imp ?_ ?_
  · exact fun _ d' hres => ⟨hres.1, hkept₁.trans hres.2⟩
  · intro e d' herr
    rcases herr with ⟨hd', hcause⟩ | ⟨hsome, he, hfree, hd'⟩
    · refine .inl ⟨hkept₁.trans hd', ?_⟩
      rcases hcause with hcause | he
      · exact .inl hcause
      · exact .inr (.inr (he.of_plan hd₁.plan))
    · exact .inr ⟨mt htail.2 hsome, he.of_plan hd₁.plan, hfree, hkept₁.trans hd'⟩

/-! ## What the tree says -/

theorem cursor_append (h : splitAt? name z.entries = some (before, .file b bs contents, after))
    (free : Nat) (data : Bytes) :
    z.cursor.append g free name data =
      if g.maxFileSize < contents.length + data.length then .error .fileTooLarge
      else if data = [] then .ok z.cursor
      else if free < Cursor.blocksToAppend g contents.length data.length then .error .diskFull
      else .ok ⟨z.cursor.above, Layout.treesOf before ++
        (name, .file (contents ++ data)) :: Layout.treesOf after⟩ := by
  rw [Cursor.append, splitAt?_cursor h]
  rfl

theorem appended_of_split
    (h : splitAt? name z.entries = some (before, .file b bs contents, after)) (data : Bytes)
    (free : List BlockNumber) :
    appended g z name data free =
      if data = [] then z else withFile z name before after (grown g b bs contents data free) := by
  unfold appended
  rw [h]

/-- Until the inode is rewritten the spot stays. -/
theorem stays_append {d' : Device} {e : Error}
    (h : splitAt? name z.entries = some (before, .file b bs contents, after)) (hdata : data ≠ [])
    (hsize : contents.length + data.length ≤ g.maxFileSize)
    (hkept : Kept g d d' z.whole z.whole)
    (hcause : e = .diskFull ∧
        d.store.freeCount < Cursor.blocksToAppend g contents.length data.length ∨
      d.Interrupts .read e ∨ d.Interrupts .write e) :
    z.Stays g (z.cursor.append g d.store.freeCount name data) e d d' := by
  refine ⟨hkept, hcause.imp_left fun hfull => ?_⟩
  obtain ⟨rfl, hfull⟩ := hfull
  rw [cursor_append h, if_neg (Nat.not_lt.2 hsize), if_neg hdata, if_pos hfull]

/-- From then on it has moved, even if the last block cannot be freed. -/
theorem moves_append {d' : Device}
    (h : splitAt? name z.entries = some (before, .file b bs contents, after)) (hdata : data ≠ [])
    (hsize : contents.length + data.length ≤ g.maxFileSize)
    (hfree : Cursor.blocksToAppend g contents.length data.length ≤ d.store.freeCount)
    (hkept : Kept g d d' z.whole (withFile z name before after
      (grown g b bs contents data d.store.freeBlocks)).whole) :
    z.Moves g (appended g z name data d.store.freeBlocks)
      (z.cursor.append g d.store.freeCount name data) d d' := by
  rw [appended_of_split h, if_neg hdata]
  refine ⟨rfl, ?_, hkept⟩
  rw [cursor_append h, if_neg (Nat.not_lt.2 hsize), if_neg hdata, if_neg (Nat.not_lt.2 hfree),
    cursor_withFile]
  rfl

end Found

/-- What an inode can record is not too much for the sizes in memory. -/
theorem tooLarge_iff (hs : d.store.Serves g) (size : Nat) :
    sizeLimit ≤ size ∨ g.maxFileSize < size ↔ g.maxFileSize < size := by
  have hmax := ((Geometry.validate_eq_ok_iff g).1 hs.valid).2.2.2.2.2
  have hlimit : Geometry.inodeSizeLimit ≤ sizeLimit := by decide
  omega

/-- Data are appended as the tree says, and if they are not then nothing is. -/
theorem ends_append (hs : d.store.Serves g) (hz : z.whole.Sound g d.store) (name : String)
    (data : Bytes) :
    Ends (append ⟨g, z.block⟩ name data d)
      (fun _ d' => z.Moves g (appended g z name data d.store.freeBlocks)
        (z.cursor.append g d.store.freeCount name data) d d')
      (fun e d' => z.Stays g (z.cursor.append g d.store.freeCount name data) e d d' ∨
        z.cursor.ReplacesTail g name data ∧ d.Interrupts .release e ∧
          z.Moves g (appended g z name data d.store.freeBlocks)
            (z.cursor.append g d.store.freeCount name data) d d') := by
  unfold append
  refine ends_findFile hs hz name
    (fun e d' hd he => .inl ⟨.untouched hs.wellFormed hz hd, .inr (.inl he)⟩) ?_ ?_ ?_
  · intro d' hd h
    refine .inl ⟨.untouched hs.wellFormed hz hd, .inl ?_⟩
    rw [Cursor.append, h]
  · intro before ts after d' hd h
    refine .inl ⟨.untouched hs.wellFormed hz hd, .inl ?_⟩
    rw [Cursor.append, h]
  intro before b bs contents after i d₁ hd h hi
  have hkept : Kept g d d₁ z.whole z.whole := .untouched hs.wellFormed hz hd
  dsimp only
  rw [hi.size]
  by_cases hbig : g.maxFileSize < contents.length + data.length
  · rw [if_pos ((tooLarge_iff hs _).2 hbig)]
    refine .inl ⟨hkept, .inl ?_⟩
    rw [cursor_append h, if_pos hbig]
  rw [if_neg (mt (tooLarge_iff hs _).1 hbig)]
  by_cases hdata : data = []
  · rw [if_pos hdata, appended_of_split h, if_pos hdata, cursor_append h, if_neg hbig,
      if_pos hdata]
    exact ⟨rfl, rfl, hkept⟩
  rw [if_neg hdata]
  simp only [hi.blocks]
  have hsize := Nat.le_of_not_lt hbig
  have hend := ends_grow (hkept.serves hs) hkept.sound data h hi.length
    (hd.store ▸ hi.contents) hsize
  rw [hd.store] at hend
  refine hend.imp ?_ ?_
  · intro _ d' hres
    obtain ⟨hfree, hd'⟩ := hres
    exact moves_append h hdata hsize hfree (hkept.trans hd')
  · intro e d' herr
    rcases herr with ⟨hd', hcause⟩ | ⟨hpart, he, hfree, hd'⟩
    · refine .inl (stays_append h hdata hsize (hkept.trans hd') (hcause.imp_right fun he => ?_))
      exact he.imp (·.of_plan hd.plan) (·.of_plan hd.plan)
    · exact .inr ⟨⟨hdata, _, _, _, splitAt?_cursor h, hpart⟩, he.of_plan hd.plan,
        moves_append h hdata hsize hfree (hkept.trans hd')⟩

end Place
end BlockFS
