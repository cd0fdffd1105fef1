/-
Free blocks, as the check counts them and as the operations use them up.

A check that goes through has accounted for every block: each is block 0, or part of the tree, or
leaked, or free (`check_accounts`).  Without failures the tree and the free blocks together keep
their number, so an operation takes as many blocks as the tree grows by.  How many that is can be
read off the tree alone (`Cursor.blockCount_create` and its like).  Whether there are enough is
another matter for data that are appended: the new blocks are taken before an old one is given
back (`freeCount_run`).
-/
import BlockFS.Proofs.Refinement

namespace BlockFS

/-- The operations that leave the tree as it is: all that only look, and appending nothing. -/
def Operation.keepsTree : Operation → Bool
  | .enter _ | .list | .stat _ | .read _ _ | .append _ [] => true
  | _ => false

/-! ## Blocks of trees -/

namespace Tree

variable {g : Geometry}

theorem blockCountAll_append (es fs : List (String × Tree)) :
    blockCountAll g (es ++ fs) = blockCountAll g es + blockCountAll g fs := by
  induction es with
  | nil => exact (Nat.zero_add _).symm
  | cons e es ih =>
    rw [List.cons_append, blockCountAll, blockCountAll, ih, Nat.add_assoc]

/-- What surrounds a tree takes up the same blocks around another one. -/
theorem blockCount_fill (vs : List Level) (t t' : Tree) :
    (fill vs t').blockCount g + t.blockCount g = (fill vs t).blockCount g + t'.blockCount g := by
  induction vs generalizing t t' with
  | nil => exact Nat.add_comm ..
  | cons v vs ih =>
    have h := ih (.directory (v.before ++ (v.name, t) :: v.after))
      (.directory (v.before ++ (v.name, t') :: v.after))
    simp only [blockCount, blockCountAll_append, blockCountAll] at h
    simp only [fill]
    omega

theorem fill_directory (vs : List Level) (es : List (String × Tree)) :
    ∃ es', fill vs (.directory es) = .directory es' := by
  induction vs generalizing es with
  | nil => exact ⟨es, rfl⟩
  | cons v vs ih => exact ih _

end Tree

namespace Cursor

variable {g : Geometry} {z z' : Cursor} {name : String}

theorem blockCount_whole (z : Cursor) (es : List (String × Tree)) :
    ({ z with entries := es } : Cursor).whole.blockCount g + Tree.blockCountAll g z.entries =
      z.whole.blockCount g + Tree.blockCountAll g es := by
  have h := Tree.blockCount_fill (g := g) z.above (.directory z.entries) (.directory es)
  simp only [Tree.blockCount] at h
  simp only [whole]
  omega

/-- Going somewhere else changes nothing. -/
theorem whole_of_enter {name : Option String} (h : z.enter name = .ok z') :
    z'.whole = z.whole := by
  cases name with
  | none =>
    cases h
    obtain ⟨es, hes⟩ := Tree.fill_directory z.above z.entries
    show Tree.directory z.whole.entries = z.whole
    unfold whole
    rw [hes]
    rfl
  | some name =>
    rw [enter] at h
    split at h
    · cases h
    · cases h
    next before es after hsplit =>
    cases h
    obtain ⟨hentries, -⟩ := eq_append_of_splitAt? hsplit
    show Tree.fill z.above (.directory (before ++ (name, .directory es) :: after)) = z.whole
    rw [← hentries]
    rfl

theorem blockCount_create {free : Nat} {t : Tree} (h : z.create g free name t = .ok z') :
    z'.whole.blockCount g = z.whole.blockCount g + t.blockCount g := by
  unfold create at h
  split at h
  · cases h
  split at h
  · cases h
  split at h
  · cases h
  split at h
  · cases h
  cases h
  have hwhole := blockCount_whole (g := g) z (z.entries ++ [(name, t)])
  rw [Tree.blockCountAll_append, Tree.blockCountAll, Tree.blockCountAll] at hwhole
  omega

theorem blockCount_removeDirectory (h : z.removeDirectory name = .ok z') :
    z'.whole.blockCount g + 1 = z.whole.blockCount g := by
  unfold removeDirectory at h
  split at h
  · cases h
  · cases h
  · cases h
  next before after hsplit =>
  cases h
  obtain ⟨hentries, -⟩ := eq_append_of_splitAt? hsplit
  have hwhole := blockCount_whole (g := g) z (before ++ after)
  rw [hentries] at hwhole
  simp only [Tree.blockCountAll_append, Tree.blockCountAll, Tree.blockCount] at hwhole
  omega

theorem blockCount_removeFile (h : z.removeFile name = .ok z') :
    ∃ before contents after, splitAt? name z.entries = some (before, .file contents, after) ∧
      z'.whole.blockCount g + (1 + g.blocksFor contents.length) = z.whole.blockCount g := by
  unfold removeFile at h
  split at h
  · cases h
  · cases h
  next before contents after hsplit =>
  cases h
  obtain ⟨hentries, -⟩ := eq_append_of_splitAt? hsplit
  refine ⟨before, contents, after, hsplit, ?_⟩
  have hwhole := blockCount_whole (g := g) z (before ++ after)
  rw [hentries] at hwhole
  simp only [Tree.blockCountAll_append, Tree.blockCountAll, Tree.blockCount] at hwhole
  omega

theorem blockCount_append {free : Nat} {data contents : Bytes} {before after : List (String × Tree)}
    (hsplit : splitAt? name z.entries = some (before, .file contents, after))
    (h : z.append g free name data = .ok z') :
    z'.whole.blockCount g + g.blocksFor contents.length =
      z.whole.blockCount g + g.blocksFor (contents.length + data.length) := by
  simp only [append, hsplit] at h
  split at h
  · cases h
  split at h
  · next hnil =>
    cases h
    rw [hnil]
    rfl
  split at h
  · cases h
  cases h
  obtain ⟨hentries, -⟩ := eq_append_of_splitAt? hsplit
  have hwhole := blockCount_whole (g := g) z (before ++ (name, .file (contents ++ data)) :: after)
  rw [hentries] at hwhole
  simp only [Tree.blockCountAll_append, Tree.blockCountAll, Tree.blockCount,
    List.length_append] at hwhole
  omega

theorem whole_of_keepsTree {room : Nat} {op : Operation} {reply : Reply}
    (hop : op.keepsTree = true) (h : z.step g room op = .ok (reply, z')) : z'.whole = z.whole := by
  cases op with
  | enter name =>
    obtain ⟨c, hc, h⟩ := exists_of_map h
    cases h
    exact whole_of_enter hc
  | list =>
    cases h
    rfl
  | stat name =>
    obtain ⟨r, -, h⟩ := exists_of_map h
    cases h
    rfl
  | read name max =>
    obtain ⟨data, -, h⟩ := exists_of_map h
    cases h
    rfl
  | append name data =>
    cases data with
    | cons x data => cases hop
    | nil =>
      obtain ⟨c, hc, h⟩ := exists_of_map h
      cases h
      unfold append at hc
      split at hc
      · cases hc
      · cases hc
      split at hc
      · cases hc
      rw [if_pos rfl] at hc
      cases hc
      rfl
  | makeDirectory name => cases hop
  | removeDirectory name => cases hop
  | createFile name => cases hop
  | removeFile name => cases hop

end Cursor

/-! ## Names in the directory of a spot -/

namespace Spot

variable {g : Geometry} {s : Store} {z : Spot}

/-- A name leads to a file in the store where it does so in the tree, and the sizes are the
same. -/
theorem fileAt?_eq (hs : s.Serves g) (hz : z.whole.Sound g s) (name : String) :
    (s.fileAt? z.block name).map (fun i => i.fileSize.toNat) =
      match splitAt? name z.cursor.entries with
      | some (_, .file contents, _) => some contents.length
      | _ => none := by
  obtain ⟨hdir, -, hstored⟩ := directory hz
  have htarget : s.target? z.block name = (splitAt? name z.entries).map fun p => p.2.1.block := by
    simp only [Store.target?, hdir, Layout.find?_entriesOf, Option.map_map]
    rfl
  have hsplit : splitAt? name z.cursor.entries = _ := Layout.splitAt?_treesOf name z.entries
  rw [Store.fileAt?, htarget, hsplit]
  cases hname : splitAt? name z.entries with
  | none => rfl
  | some p =>
    obtain ⟨before, t, after⟩ := p
    obtain ⟨hentries, -⟩ := eq_append_of_splitAt? hname
    have hmem : (name, t) ∈ z.entries := hentries ▸ List.mem_append_right _ List.mem_cons_self
    have huse : ∀ a ∈ t.blocks, s.InUse a := fun a ha =>
      inUse hz (List.mem_cons_of_mem _ (Layout.blocks_subset_of_mem hmem ha))
    show ((s.inode? t.block).map fun i => i.fileSize.toNat) = _
    cases t with
    | file b bs contents =>
      obtain ⟨i, hi, -, hsize, -⟩ := (hstored _ hmem).file_spec hs
        fun a ha => huse a (List.mem_cons_of_mem b ha)
      simp only [Store.inode?, Layout.block, hi, Option.map_some, Layout.tree, hsize]
    | directory b es =>
      have hb : s.metadata? b = some (.directory ⟨Layout.entriesOf es⟩) := by
        cases hstored _ hmem with
        | directory hb _ _ => exact hb
      simp only [Store.inode?, Layout.block, hb, Option.map_none, Option.map_some, Layout.tree]

end Spot

namespace Session

variable {u : Session} {z : Spot} {name : String}

/-! ## What the check accounts for -/

/-- Where the check ends well, block 0, the collection of what the tree refers to, the leaked and
the free blocks are all the blocks that there are, each once.  So what the check has counted and
what the store says is free add up. -/
theorem check_accounts {r : CheckReport} (hs : u.device.store.WellFormed)
    (hg : u.place.geometry.validate = .ok ()) (h : u.check.1 = .ok r) :
    let s := u.device.store
    (noBlock :: (s.collection u.place.geometry ++ r.leaked ++ s.freeBlocks)).Perm
        ((List.range s.blockCount).map UInt32.ofNat) ∧
      (∀ b, b ∈ s.freeBlocks ↔ b.toNat < s.blockCount ∧ s.isAllocated b = false) ∧
      u.check.2.device.store = s ∧
      1 + r.directories + r.files + r.dataBlocks + r.leaked.length + s.usage.freeCount =
        s.usage.blockCount := by
  intro s
  have hsize : 0 < u.place.geometry.blockSize := ((Geometry.validate_eq_ok_iff _).1 hg).1
  have hends := Check.ends_run (d := u.device) hsize hs
  rw [check_eq] at h ⊢
  cases hrun : Check.run u.place.geometry u.device with
  | error fault d =>
    rw [hrun] at h
    cases h
  | ok r' d =>
    rw [hrun] at h
    cases h
    obtain ⟨hd, l, hl, rfl⟩ := hends.of_eq_ok hrun
    have hperm := hs.blocks_perm hl.nodup hl.inUse
    have hsum := hl.report_sum
    have hcount := hs.freeCount_add_leaks hl.nodup hl.inUse
    rw [hl.collection_perm.length_eq] at hsum
    refine ⟨?_, fun b => Store.mem_freeBlocks hs, hd.store, ?_⟩
    · refine (List.Perm.cons _ ?_).trans hperm
      exact (hl.collection_perm.append_right _).append_right _
    · show 1 + (l.report s).directories + (l.report s).files + (l.report s).dataBlocks +
        (s.leaks l.blocks).length + s.freeCount = s.blockCount
      change (l.report s).directories + (l.report s).files + (l.report s).dataBlocks = _ at hsum
      change s.freeCount + l.blocks.length + (s.leaks l.blocks).length + 1 = s.blockCount at hcount
      omega

/-- Blocks 1 to 4 are part of the tree, block 7 is leaked, and two are free. -/
theorem check_accounts_leaky :
    let s := leaky.device.store
    s.WellFormed ∧ leaky.place.geometry.validate = .ok () ∧
      leaky.check.1 = .ok ⟨2, 1, 1, [7]⟩ ∧ s.freeBlocks = [5, 6] ∧
      (noBlock :: (s.collection leaky.place.geometry ++ [7] ++ [5, 6])).Perm
        [0, 1, 2, 3, 4, 5, 6, 7] ∧
      leaky.check.2.device.store = s ∧ s.usage = ⟨35, 8, 2⟩ ∧
      1 + 2 + 1 + 1 + [(7 : BlockNumber)].length + s.usage.freeCount = s.usage.blockCount := by
  intro s
  have hs : s.WellFormed := Store.wellFormed_leaky []
  have hg : leaky.place.geometry.validate = .ok () := by decide
  obtain ⟨hperm, -, hsame, hcount⟩ := check_accounts hs hg check_leaky
  have hfree : s.freeBlocks = [5, 6] := by decide +kernel
  rw [hfree] at hperm
  exact ⟨hs, hg, check_leaky, hfree, hperm, hsame, by decide +kernel, hcount⟩

/-! ## What an operation takes and gives back -/

/-- An operation fails for want of space exactly if fewer than `needed` blocks are free, and
otherwise spends `taken` of them. -/
def Spends (u : Session) (op : Operation) (needed taken : Nat) : Prop :=
  ((u.run op).1 = .error .diskFull ↔ u.device.store.usage.freeCount < needed) ∧
    ((u.run op).1 ≠ .error .diskFull → (u.run op).1 = .ok .done ∧
      (u.run op).2.device.store.usage.freeCount + taken = u.device.store.usage.freeCount)

/-- What the tree at the cursor grows by is no longer free. -/
theorem At.freeCount_step (h : u.At z) (hplan : u.device.plan = .never) (op : Operation) :
    match z.cursor.step u.place.geometry (u.room z) op with
    | .ok (reply, c) => (∃ a, (u.run op).1 = .ok a ∧ a.reply = reply) ∧
        (u.run op).2.device.store.freeCount + c.whole.blockCount u.place.geometry =
          u.device.store.freeCount + z.cursor.whole.blockCount u.place.geometry
    | .error e => (u.run op).1 = .error e ∧
        (u.run op).2.device.store.freeCount = u.device.store.freeCount := by
  have hfree : ∀ z', u.Leads z (u.run op).2 z' →
      (u.run op).2.device.store.freeCount + z'.cursor.whole.blockCount u.place.geometry =
        u.device.store.freeCount + z.cursor.whole.blockCount u.place.geometry := by
    -- The tree and the free blocks make up the room, which stays the same without failures.
    intro z' hleads
    have hroom := hleads.spot.room_eq
    rw [hleads.geometry] at hroom
    have hkept := hleads.kept.room_eq h.serves.wellFormed h.sound (hleads.failed_eq hplan)
    exact hroom.trans (hkept.trans h.room_eq.symm)
  rcases h.run_never hplan op with ⟨a, z', hrun, hleads, -, hstep⟩ | ⟨e, hrun, hleads, hstep⟩
  · rw [hstep]
    exact ⟨⟨a, hrun, rfl⟩, hfree z' hleads⟩
  · rw [hstep]
    exact ⟨hrun, Nat.add_right_cancel (hfree z hleads)⟩

theorem eq_done_of_reply {a : Answer} (h : a.reply = .done) : a = .done := by
  cases a with
  | done => rfl
  | _ => cases h

/-- An operation whose step at the cursor is refused for want of space, or makes the tree grow by
`taken` blocks. -/
theorem At.spends (h : u.At z) (hplan : u.device.plan = .never) {op : Operation}
    {needed taken : Nat} {c : Cursor}
    (hstep : z.cursor.step u.place.geometry (u.room z) op =
      if u.device.store.freeCount < needed then .error .diskFull else .ok (.done, c))
    (hcount : c.whole.blockCount u.place.geometry =
      z.cursor.whole.blockCount u.place.geometry + taken) : u.Spends op needed taken := by
  have hrun := h.freeCount_step hplan op
  simp only [hstep] at hrun
  unfold Spends
  show (_ ↔ u.device.store.freeCount < needed) ∧ (_ → _ ∧
    (u.run op).2.device.store.freeCount + taken = u.device.store.freeCount)
  by_cases hfull : u.device.store.freeCount < needed
  · simp only [if_pos hfull] at hrun
    exact ⟨⟨fun _ => hfull, fun _ => hrun.1⟩, fun hne => absurd hrun.1 hne⟩
  · simp only [if_neg hfull] at hrun
    obtain ⟨⟨a, ha, hreply⟩, hfree⟩ := hrun
    obtain rfl := eq_done_of_reply hreply
    rw [ha]
    exact ⟨⟨fun h => (nomatch h), fun h => absurd h hfull⟩, fun _ => ⟨rfl, by omega⟩⟩

theorem At.room_sub (h : u.At z) :
    u.room z - z.cursor.whole.blockCount u.place.geometry = u.device.store.freeCount :=
  Operation.room_sub h.serves h.sound

theorem At.spends_create (h : u.At z) (hplan : u.device.plan = .never) {op : Operation} {t : Tree}
    (hop : z.cursor.step u.place.geometry (u.room z) op =
      (z.cursor.create u.place.geometry (u.room z - z.cursor.whole.blockCount u.place.geometry)
        name t).map fun c => (.done, c))
    (ht : t.blockCount u.place.geometry = 1)
    (hname : name.utf8ByteSize ≤ u.place.geometry.maxNameLength)
    (hnew : splitAt? name z.cursor.entries = none)
    (hentries : z.cursor.entries.length < u.place.geometry.maxDirEntries) : u.Spends op 1 1 := by
  have hcreate : ∀ free, z.cursor.create u.place.geometry free name t =
      if free < 1 then .error .diskFull
      else .ok { z.cursor with entries := z.cursor.entries ++ [(name, t)] } := by
    intro free
    unfold Cursor.create
    rw [if_neg (Nat.not_lt.2 hname), hnew, if_neg (by decide), if_neg (Nat.not_le.2 hentries)]
    simp only [Nat.lt_one_iff]
  refine h.spends hplan (c := { z.cursor with entries := z.cursor.entries ++ [(name, t)] }) ?_ ?_
  · rw [hop, h.room_sub, hcreate]
    split <;> rfl
  · have hone := Cursor.blockCount_create ((hcreate 1).trans (if_neg (by decide)))
    rw [hone, ht]

theorem At.spends_append (h : u.At z) (hplan : u.device.plan = .never) {data contents : Bytes}
    {before after : List (String × Tree)}
    (hsplit : splitAt? name z.cursor.entries = some (before, .file contents, after))
    (hdata : data ≠ []) (hsize : contents.length + data.length ≤ u.place.geometry.maxFileSize) :
    u.Spends (.append name data)
      (u.place.geometry.blocksFor (contents.length % u.place.geometry.blockSize + data.length))
      (u.place.geometry.blocksFor (contents.length + data.length) -
        u.place.geometry.blocksFor contents.length) := by
  let c : Cursor := { z.cursor with entries := before ++ (name, .file (contents ++ data)) :: after }
  have happend : ∀ free, z.cursor.append u.place.geometry free name data =
      if free < Cursor.blocksToAppend u.place.geometry contents.length data.length then
        .error .diskFull
      else .ok c := by
    intro free
    simp only [Cursor.append, hsplit, if_neg (Nat.not_lt.2 hsize), if_neg hdata]
    rfl
  refine h.spends hplan (c := c) ?_ ?_
  · rw [Cursor.step, h.room_sub, happend]
    unfold Cursor.blocksToAppend
    split <;> rfl
  · have hcount := Cursor.blockCount_append hsplit
      ((happend _).trans (if_neg (Nat.lt_irrefl _)))
    have hle := u.place.geometry.blocksFor_mono (Nat.le_add_right contents.length data.length)
    omega

theorem At.freeCount_ok (h : u.At z) (hplan : u.device.plan = .never) {op : Operation} {a : Answer}
    (hrun : (u.run op).1 = .ok a) :
    ∃ reply c, z.cursor.step u.place.geometry (u.room z) op = .ok (reply, c) ∧
      (u.run op).2.device.store.freeCount + c.whole.blockCount u.place.geometry =
        u.device.store.freeCount + z.cursor.whole.blockCount u.place.geometry := by
  have hfree := h.freeCount_step hplan op
  cases hstep : z.cursor.step u.place.geometry (u.room z) op with
  | ok x =>
    rw [hstep] at hfree
    exact ⟨x.1, x.2, rfl, hfree.2⟩
  | error e =>
    rw [hstep] at hfree
    rw [hfree.1] at hrun
    cases hrun

theorem At.freeCount_removeFile (h : u.At z) (hplan : u.device.plan = .never) {a : Answer}
    (hrun : (u.run (.removeFile name)).1 = .ok a) :
    ∃ before contents after, splitAt? name z.cursor.entries = some (before, .file contents, after) ∧
      (u.run (.removeFile name)).2.device.store.freeCount =
        u.device.store.freeCount + (1 + u.place.geometry.blocksFor contents.length) := by
  obtain ⟨reply, c, hstep, hfree⟩ := h.freeCount_ok hplan hrun
  obtain ⟨c', hremove, hc⟩ := Cursor.exists_of_map hstep
  cases hc
  obtain ⟨before, contents, after, hsplit, hcount⟩ :=
    Cursor.blockCount_removeFile (g := u.place.geometry) hremove
  exact ⟨before, contents, after, hsplit, by omega⟩

theorem At.freeCount_removeDirectory (h : u.At z) (hplan : u.device.plan = .never) {a : Answer}
    (hrun : (u.run (.removeDirectory name)).1 = .ok a) :
    (u.run (.removeDirectory name)).2.device.store.freeCount = u.device.store.freeCount + 1 := by
  obtain ⟨reply, c, hstep, hfree⟩ := h.freeCount_ok hplan hrun
  obtain ⟨c', hremove, hc⟩ := Cursor.exists_of_map hstep
  cases hc
  have hcount := Cursor.blockCount_removeDirectory (g := u.place.geometry) hremove
  omega

theorem At.freeCount_error (h : u.At z) (hplan : u.device.plan = .never) {op : Operation} {e : Error}
    (hrun : (u.run op).1 = .error e) :
    (u.run op).2.device.store.freeCount = u.device.store.freeCount := by
  have hfree := h.freeCount_step hplan op
  split at hfree
  · obtain ⟨⟨a, ha, -⟩, -⟩ := hfree
    rw [hrun] at ha
    cases ha
  · exact hfree.2

theorem At.freeCount_of_keepsTree (h : u.At z) (hplan : u.device.plan = .never) {op : Operation}
    (hop : op.keepsTree = true) :
    (u.run op).2.device.store.freeCount = u.device.store.freeCount := by
  have hfree := h.freeCount_step hplan op
  cases hstep : z.cursor.step u.place.geometry (u.room z) op with
  | error e =>
    rw [hstep] at hfree
    exact hfree.2
  | ok x =>
    have hwhole := Cursor.whole_of_keepsTree hop hstep
    rw [hstep] at hfree
    have hcount := hfree.2
    rw [hwhole] at hcount
    exact Nat.add_right_cancel hcount

/-- How many blocks are free after an operation on a filesystem that the check accepts, if no call
to the store fails.  A new entry needs one block and takes one.  Data that are appended need
blocks for all that comes behind the whole blocks of the file, although the one that was partly
filled is given back in the end.  Removing gives back what was taken.  Everything else, errors
included, leaves the number as it is. -/
theorem freeCount_run (h : u.Intact) (hplan : u.device.plan = .never) :
    let g := u.place.geometry
    let s := u.device.store
    let free := s.usage.freeCount
    let free' := fun op => (u.run op).2.device.store.usage.freeCount
    ∃ dir, s.metadata? u.place.dir = some (.directory dir) ∧
      (∀ name, name.utf8ByteSize ≤ g.maxNameLength → dir.contains name = false →
        dir.size < g.maxDirEntries →
          u.Spends (.makeDirectory name) 1 1 ∧ u.Spends (.createFile name) 1 1) ∧
      (∀ name data i, s.fileAt? u.place.dir name = some i → data ≠ [] →
        i.fileSize.toNat + data.length ≤ g.maxFileSize →
          u.Spends (.append name data)
            (g.blocksFor (i.fileSize.toNat % g.blockSize + data.length))
            (g.blocksFor (i.fileSize.toNat + data.length) - g.blocksFor i.fileSize.toNat)) ∧
      (∀ name a, (u.run (.removeFile name)).1 = .ok a →
        ∃ i, s.fileAt? u.place.dir name = some i ∧
          free' (.removeFile name) = free + (1 + g.blocksFor i.fileSize.toNat)) ∧
      (∀ name a, (u.run (.removeDirectory name)).1 = .ok a →
        free' (.removeDirectory name) = free + 1) ∧
      (∀ op, op.keepsTree = true → free' op = free) ∧
      u.check.2.device.store.usage.freeCount = free ∧
      ∀ op e, (u.run op).1 = .error e → free' op = free := by
  intro g s free free'
  obtain ⟨z, hz⟩ := h.exists_spot
  have hfile := Spot.fileAt?_eq hz.serves hz.sound
  rw [← hz.dir] at hfile
  have hdir := (Spot.directory hz.sound).1
  rw [← hz.dir] at hdir
  refine ⟨_, hdir, ?_, ?_, ?_, fun name a => hz.freeCount_removeDirectory hplan,
    fun op => hz.freeCount_of_keepsTree hplan, ?_, fun op e => hz.freeCount_error hplan⟩
  · intro name hname hnew hentries
    have hcontains := Layout.contains_entriesOf name z.entries
    have hnone : splitAt? name z.cursor.entries = none := by
      rw [hnew] at hcontains
      show splitAt? name (Layout.treesOf z.entries) = none
      rw [Layout.splitAt?_treesOf, Option.map_eq_none_iff]
      exact Option.not_isSome_iff_eq_none.1 (by rw [← hcontains]; decide)
    have hlength : z.cursor.entries.length < g.maxDirEntries := by
      show (Layout.treesOf z.entries).length < g.maxDirEntries
      rw [Layout.length_treesOf]
      have hsize : (Layout.entriesOf z.entries).length = z.entries.length := List.length_map ..
      exact hsize ▸ hentries
    have hempty : (Tree.file []).blockCount g = 1 := by
      show 1 + g.blocksFor 0 = 1
      rw [Geometry.blocksFor_zero hz.serves.blockSize_pos]
    exact ⟨hz.spends_create hplan rfl rfl hname hnone hlength,
      hz.spends_create hplan rfl hempty hname hnone hlength⟩
  · intro name data i hi hdata hsize
    have hsplit := hfile name
    rw [hi, Option.map_some] at hsplit
    split at hsplit
    next before contents after hsplit' =>
      have hlength : i.fileSize.toNat = contents.length := Option.some.inj hsplit
      rw [hlength] at hsize ⊢
      exact hz.spends_append hplan hsplit' hdata hsize
    · cases hsplit
  · intro name a hrun
    obtain ⟨before, contents, after, hsplit, hfree⟩ := hz.freeCount_removeFile hplan hrun
    have hi := hfile name
    rw [hsplit] at hi
    obtain ⟨i, hi, hlength⟩ := Option.map_eq_some_iff.1 hi
    exact ⟨i, hi, hlength ▸ hfree⟩
  · show u.check.2.device.store.freeCount = u.device.store.freeCount
    rw [(hz.check_never hplan).2.store]

/-- The two bytes that are appended need two blocks, although the file takes up only one more
afterwards.  In the inner directory there is room for an entry, in the root there is not. -/
theorem freeCount_run_leaky :
    let inner := (leaky.run (.enter (some "d"))).2
    let free := fun u : Session => u.device.store.usage.freeCount
    leaky.Intact ∧ leaky.device.plan = .never ∧ inner.Intact ∧ inner.device.plan = .never ∧
      free leaky = 2 ∧ leaky.Spends (.append "f" [100, 101]) 2 1 ∧
      inner.Spends (.makeDirectory "e") 1 1 ∧ inner.Spends (.createFile "e") 1 1 ∧
      (leaky.run (.removeFile "f")).1 = .ok .done ∧ free (leaky.run (.removeFile "f")).2 = 4 ∧
      (leaky.run (.removeDirectory "d")).1 = .ok .done ∧
      free (leaky.run (.removeDirectory "d")).2 = 3 ∧
      (leaky.run (.makeDirectory "e")).1 = .error .directoryFull ∧
      free (leaky.run (.makeDirectory "e")).2 = 2 ∧
      free (leaky.run .list).2 = 2 ∧ free leaky.check.2 = 2 := by
  intro inner free
  obtain ⟨z, hz⟩ := intact_leaky.exists_spot
  obtain ⟨z', hleads⟩ : ∃ z', leaky.Leads z inner z' := hz.exists_run _
  have hplan : leaky.device.plan = .never := rfl
  have hnever := hleads.plan_never hplan
  obtain ⟨hcount, hempty, hfile, hrm, hrmdir, hfull⟩ :
      free leaky = 2 ∧ inner.device.store.metadata? inner.place.dir = some (.directory ⟨[]⟩) ∧
        leaky.device.store.fileAt? leaky.place.dir "f" = some ⟨3, [4]⟩ ∧
        (leaky.run (.removeFile "f")).1 = .ok .done ∧
        (leaky.run (.removeDirectory "d")).1 = .ok .done ∧
        (leaky.run (.makeDirectory "e")).1 = .error .directoryFull := by decide +kernel
  obtain ⟨-, -, -, happend, hremove, hremoveDirectory, hkeeps, hcheck, herror⟩ :=
    freeCount_run intact_leaky hplan
  obtain ⟨dir, hdir, hcreate, -⟩ := freeCount_run hleads.spot.intact hnever
  obtain rfl : (⟨[]⟩ : Directory) = dir :=
    Block.directory.inj (Option.some.inj (hempty.symm.trans hdir))
  have hgeometry : inner.place.geometry = leaky.place.geometry := hleads.geometry
  rw [hgeometry] at hcreate
  obtain ⟨i, hi, hfreed⟩ := hremove _ _ hrm
  obtain rfl : (⟨3, [4]⟩ : Inode) = i := Option.some.inj (hfile.symm.trans hi)
  obtain ⟨hmake, hnew⟩ := hcreate "e" (by decide) rfl (by decide)
  refine ⟨intact_leaky, hplan, hleads.spot.intact, hnever, hcount, happend _ _ _ hfile (by decide) (by decide),
    hmake, hnew, hrm, ?_, hrmdir, ?_, hfull, ?_, ?_, ?_⟩
  · exact hfreed.trans (congrArg (· + 2) hcount)
  · exact (hremoveDirectory _ _ hrmdir).trans (congrArg (· + 1) hcount)
  · exact (herror _ _ hfull).trans hcount
  · exact (hkeeps .list rfl).trans hcount
  · exact hcheck.trans hcount

end Session
end BlockFS
