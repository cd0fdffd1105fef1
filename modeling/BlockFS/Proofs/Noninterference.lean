/-
Bytes that do not count.

Blocks are freed without being cleared, and what is written to a block need not fill it, so a
store holds more than its filesystem.  None of that shows: at one spot of one layout, with the
same blocks in use, two sessions answer alike and are led to the same spot again, which the
blocks that are handed out are a part of (`Twins.serve`).
-/
import BlockFS.Proofs.Refinement
import BlockFS.Proofs.Stores.Interchange

namespace BlockFS

/-! ## The same blocks in use -/

namespace Store

/-- Two stores of one shape have the same blocks in use. -/
structure SameUse (s t : Store) : Prop where
  blockLen : t.blockLen = s.blockLen
  blockCount : t.blockCount = s.blockCount
  inUse_iff : ∀ b, t.InUse b ↔ s.InUse b

variable {s t : Store}

theorem SameUse.of_bitmap (hlen : t.blockLen = s.blockLen) (h : t.bitmap = s.bitmap) :
    s.SameUse t := by
  refine ⟨hlen, ?_, fun b => ?_⟩
  · unfold Store.blockCount
    rw [h]
  · unfold InUse isAllocated
    rw [h]

namespace SameUse

theorem leaks_eq (h : s.SameUse t) (bs : List BlockNumber) : t.leaks bs = s.leaks bs :=
  leaks_congr h.blockCount fun b => by rw [h.inUse_iff]

theorem freeCount_eq (h : s.SameUse t) (hs : s.WellFormed) (ht : t.WellFormed) :
    t.freeCount = s.freeCount := by
  have hs := hs.freeCount_add_leaks List.nodup_nil fun b hb => absurd hb List.not_mem_nil
  have ht := ht.freeCount_add_leaks List.nodup_nil fun b hb => absurd hb List.not_mem_nil
  rw [h.leaks_eq, h.blockCount] at ht
  omega

theorem freeBlocks_eq (h : s.SameUse t) (hs : s.WellFormed) (ht : t.WellFormed) :
    t.freeBlocks = s.freeBlocks := by
  unfold freeBlocks
  rw [h.blockCount]
  congr 1
  refine List.filter_congr fun k hk => ?_
  have hk := List.mem_range.1 hk
  have hiff := h.inUse_iff (UInt32.ofNat k)
  rw [hs.inUse_ofNat_iff hk, ht.inUse_ofNat_iff (h.blockCount ▸ hk)] at hiff
  by_cases hzero : k = 0
  · rw [hzero, Bitmap.occupied_zero, Bitmap.occupied_zero]
  · congr 1
    rw [Bool.eq_iff_iff]
    exact ⟨fun h => (hiff.1 ⟨hzero, h⟩).2, fun h => (hiff.2 ⟨hzero, h⟩).2⟩

theorem usage_eq (h : s.SameUse t) (hs : s.WellFormed) (ht : t.WellFormed) :
    t.usage = s.usage := by
  unfold usage
  rw [h.blockLen, h.blockCount, h.freeCount_eq hs ht]

/-- The same change of layout leaves the same blocks in use. -/
theorem of_kept {g : Geometry} {d d' e e' : Device} {l l' : Layout}
    (h : d.store.SameUse e.store) (hd : Kept g d d' l l') (he : Kept g e e' l l')
    (hd' : d'.calls.failedReleases = d.calls.failedReleases)
    (he' : e'.calls.failedReleases = e.calls.failedReleases) : d'.store.SameUse e'.store where
  blockLen := he.blockLen.trans (h.blockLen.trans hd.blockLen.symm)
  blockCount := he.blockCount.trans (h.blockCount.trans hd.blockCount.symm)
  inUse_iff := fun b => by rw [he.inUse_iff he', hd.inUse_iff hd', h.inUse_iff]

end SameUse
end Store

/-! ## One layout in two stores -/

namespace Store

variable {s t : Store} {g : Geometry}

/-- The data blocks of a file hold the same bytes below its size. -/
def SameData (s t : Store) (g : Geometry) (i : Inode) : Prop :=
  ∀ n b, (g.references (.file i))[n]? = some b → ∀ k < g.blockSize,
    n * g.blockSize + k < i.fileSize.toNat → (t.bytes b)[k]? = (s.bytes b)[k]?

theorem take_gather_congr {blockSize size : Nat} {bs : List BlockNumber}
    (hs : ∀ b ∈ bs, blockSize ≤ (s.bytes b).length)
    (ht : ∀ b ∈ bs, blockSize ≤ (t.bytes b).length)
    (h : ∀ n b, bs[n]? = some b → ∀ k < blockSize, n * blockSize + k < size →
      (t.bytes b)[k]? = (s.bytes b)[k]?) :
    (t.gather blockSize bs).take size = (s.gather blockSize bs).take size := by
  induction bs generalizing size with
  | nil => rfl
  | cons b bs ih =>
    obtain ⟨hsb, hs⟩ := List.forall_mem_cons.1 hs
    obtain ⟨htb, ht⟩ := List.forall_mem_cons.1 ht
    have hfirst : ((t.bytes b).take blockSize).take size =
        ((s.bytes b).take blockSize).take size := by
      rw [List.take_take, List.take_take]
      refine List.ext_getElem? fun k => ?_
      rw [List.getElem?_take, List.getElem?_take]
      by_cases hk : k < min size blockSize
      · rw [if_pos hk, if_pos hk]
        exact h 0 b rfl k (by omega) (by omega)
      · rw [if_neg hk, if_neg hk]
    have hrest : (t.gather blockSize bs).take (size - blockSize) =
        (s.gather blockSize bs).take (size - blockSize) := by
      refine ih hs ht fun n c hc k hk hlt => h (n + 1) c hc k hk ?_
      rw [Nat.succ_mul]
      omega
    show ((t.bytes b).take blockSize ++ t.gather blockSize bs).take size =
      ((s.bytes b).take blockSize ++ s.gather blockSize bs).take size
    rw [List.take_append, List.take_append, hfirst, List.length_take_of_le hsb,
      List.length_take_of_le htb, hrest]

end Store

namespace Layout

variable {g : Geometry} {s s' : Store}

/-- A store that agrees with another one on the metadata of a layout and on what its files hold
holds the layout as well. -/
theorem Stored.transfer {t : Layout} (h : t.Stored g s) (hs : s.Serves g) (hs' : s'.Serves g)
    (huse : ∀ b ∈ t.blocks, s.InUse b ∧ s'.InUse b)
    (hmetadata : ∀ n ∈ t.nodes, s'.metadata? n.block = s.metadata? n.block)
    (hdata : ∀ n ∈ t.nodes, ∀ i, s.metadata? n.block = some (.file i) → s.SameData s' g i) :
    t.Stored g s' := by
  induction h with
  | @file b i bs contents hb hi hbs hcontents =>
    have hself := self_mem_nodes (.file b bs contents)
    refine .file ((hmetadata _ hself).trans hb) hi hbs ?_
    have hin : ∀ a ∈ bs, g.blockSize ≤ (s.bytes a).length ∧ g.blockSize ≤ (s'.bytes a).length := by
      intro a ha
      obtain ⟨hua, hua'⟩ := huse a (List.mem_cons_of_mem b ha)
      rw [hs.wellFormed.length_bytes hua, hs'.wellFormed.length_bytes hua']
      exact ⟨hs.blockSize_le, hs'.blockSize_le⟩
    have hsame := hdata _ hself i hb
    rw [Store.SameData, ← hbs] at hsame
    rw [hcontents]
    exact (Store.take_gather_congr (fun a ha => (hin a ha).1) (fun a ha => (hin a ha).2)
      hsame).symm
  | @directory b es hb hd hes ih =>
    refine .directory ((hmetadata _ (self_mem_nodes _)).trans hb) hd fun e he => ?_
    have hnodes : ∀ n ∈ e.2.nodes, n ∈ (Layout.directory b es).nodes := fun n hn =>
      List.mem_cons_of_mem _ (mem_nodesOf.2 ⟨e, he, hn⟩)
    exact ih e he (fun a ha => huse a (List.mem_cons_of_mem b (blocks_subset_of_mem he ha)))
      (fun n hn => hmetadata n (hnodes n hn)) fun n hn => hdata n (hnodes n hn)

/-- A part of a layout is determined by the whole and by how the trees around it go. -/
theorem fill_inj {fs fs' : List Frame} {t t' : Layout} (h : fill fs t = fill fs' t')
    (hlevels : fs.map Frame.level = fs'.map Frame.level) : fs = fs' ∧ t = t' := by
  induction fs generalizing fs' t t' with
  | nil =>
    cases fs' with
    | nil => exact ⟨rfl, h⟩
    | cons f' fs' => cases hlevels
  | cons f fs ih =>
    cases fs' with
    | nil => cases hlevels
    | cons f' fs' =>
      obtain ⟨hlevel, hlevels⟩ := List.cons.inj hlevels
      have hfill : fill fs (f.close t) = fill fs' (f'.close t') := h
      obtain ⟨rfl, hclose⟩ := ih hfill hlevels
      obtain ⟨hblock, hentries⟩ := Layout.directory.inj hclose
      have hlength : f.before.length = f'.before.length := by
        have hbefore : treesOf f.before = treesOf f'.before := congrArg Level.before hlevel
        rw [← length_treesOf, hbefore, length_treesOf]
      obtain ⟨hbefore, hrest⟩ := List.append_inj hentries hlength
      obtain ⟨hhead, hafter⟩ := List.cons.inj hrest
      obtain ⟨hname, htree⟩ := Prod.mk.inj hhead
      refine ⟨?_, htree⟩
      cases f
      cases f'
      simp only at hblock hbefore hname hafter
      rw [hblock, hbefore, hname, hafter]

end Layout

theorem Spot.eq_of_whole {z z' : Spot} (hwhole : z'.whole = z.whole)
    (hcursor : z'.cursor = z.cursor) : z' = z := by
  obtain ⟨hlevels, -⟩ := Cursor.mk.inj hcursor
  obtain ⟨habove, hhere⟩ := Layout.fill_inj hwhole hlevels
  obtain ⟨hblock, hentries⟩ := Layout.directory.inj hhere
  cases z
  cases z'
  simp only at habove hblock hentries
  rw [habove, hblock, hentries]

/-! ## Answers -/

/-- What an answer tells besides a reply is the block of an entry. -/
theorem Answer.eq_of_reply {a a' : Answer} (h : a'.reply = a.reply)
    (hblock : ∀ st st', a = .stats st → a' = .stats st' → st'.block = st.block) : a' = a := by
  cases a with
  | done => cases a' <;> cases h; rfl
  | listing names => cases a' <;> cases h; rfl
  | contents data => cases a' <;> cases h; rfl
  | stats st =>
    cases a' with
    | stats st' =>
      obtain ⟨hname, hkind, hsize, hcount⟩ := Reply.stats.inj h
      have hb := hblock st st' rfl rfl
      cases st
      cases st'
      simp only at hname hkind hsize hcount hb
      rw [hname, hb, hkind, hsize, hcount]
    | _ => cases h

/-- The block told about an entry is the one where it is laid out. -/
theorem Operation.ends_stat {g : Geometry} {d : Device} {z : Spot} (hs : d.store.Serves g)
    (hz : z.whole.Sound g d.store) (name : String) :
    Ends ((Operation.stat name).perform ⟨g, z.block⟩ d)
      (fun a _ => ∀ st, a.1 = .stats st →
        (splitAt? name z.entries).map (·.2.1.block) = some st.block)
      (fun _ _ => True) := by
  refine (Place.ends_stat hs hz name).bind (fun _ _ _ => trivial) ?_
  intro st d' hres st' heq
  cases heq
  exact hres.2.2

namespace Session

variable {u v : Session} {z : Spot}

theorem At.block_of_stats (h : u.At z) {op : Operation} {st : Stats}
    (hrun : (u.run op).1 = .ok (.stats st)) : ∃ name, op = .stat name ∧
      (splitAt? name z.entries).map (·.2.1.block) = some st.block := by
  obtain ⟨z', -, -, hstep⟩ := h.run_ok hrun
  obtain ⟨name, rfl⟩ := Cursor.eq_stat_of_step hstep
  refine ⟨name, rfl, ?_⟩
  have hend := Operation.ends_stat h.serves h.sound name
  rw [← h.place_eq] at hend
  rw [run_eq] at hrun
  cases hp : Operation.perform u.place (.stat name) u.device with
  | ok x d =>
    rw [hp] at hrun
    exact hend.of_eq_ok hp st (Except.ok.inj hrun)
  | error e d =>
    rw [hp] at hrun
    cases hrun

/-- Two sessions at one spot give one answer if they give one reply. -/
theorem At.answer_eq (h : u.At z) (h' : v.At z) {op : Operation} {a a' : Answer}
    (hrun : (u.run op).1 = .ok a) (hrun' : (v.run op).1 = .ok a') (hreply : a'.reply = a.reply) :
    a' = a := by
  refine Answer.eq_of_reply hreply fun st st' hst hst' => ?_
  subst hst hst'
  obtain ⟨name, rfl, hblock⟩ := h.block_of_stats hrun
  obtain ⟨name', hname, hblock'⟩ := h'.block_of_stats hrun'
  cases hname
  exact Option.some.inj (hblock'.symm.trans hblock)

theorem At.outcome_eq (h : u.At z) (h' : v.At z) {op : Operation}
    (hreply : (v.run op).1.map Answer.reply = (u.run op).1.map Answer.reply) :
    (v.run op).1 = (u.run op).1 := by
  cases hrun : (u.run op).1 with
  | ok a =>
    rw [hrun] at hreply
    obtain ⟨a', hrun', ha⟩ := Cursor.exists_of_map hreply
    rw [hrun', h.answer_eq h' hrun hrun' ha]
  | error e =>
    cases hrun' : (v.run op).1 with
    | ok a' =>
      rw [hrun, hrun'] at hreply
      cases hreply
    | error e' =>
      rw [hrun, hrun'] at hreply
      cases hreply
      rfl

/-! ## Twins -/

/-- Two sessions work at one spot of one layout, in stores with the same blocks in use, and no
call is made to fail. -/
structure Twins (u v : Session) (z : Spot) : Prop where
  left : u.At z
  right : v.At z
  geometry : v.place.geometry = u.place.geometry
  use : u.device.store.SameUse v.device.store
  plan : u.device.plan = .never
  plan' : v.device.plan = .never

namespace Twins

theorem room_eq (h : u.Twins v z) : v.room z = u.room z := by
  unfold room
  rw [h.use.freeCount_eq h.left.serves.wellFormed h.right.serves.wellFormed]

theorem leads (h : u.Twins v z) {u' v' : Session} {z' : Spot} (hu : u.Leads z u' z')
    (hv : v.Leads z v' z') : u'.Twins v' z' where
  left := hu.spot
  right := hv.spot
  geometry := by rw [hv.geometry, hu.geometry, h.geometry]
  use := h.use.of_kept hu.kept (h.geometry ▸ hv.kept) (hu.failed_eq h.plan) (hv.failed_eq h.plan')
  plan := hu.plan_never h.plan
  plan' := hv.plan_never h.plan'

/-- Twins give one answer to an operation and stay twins. -/
theorem run (h : u.Twins v z) (op : Operation) :
    (v.run op).1 = (u.run op).1 ∧ ∃ z', (u.run op).2.Twins (v.run op).2 z' := by
  have hfree : v.device.store.freeBlocks = u.device.store.freeBlocks :=
    h.use.freeBlocks_eq h.left.serves.wellFormed h.right.serves.wellFormed
  have hu := h.left.run_never h.plan op
  have hv := h.right.run_never h.plan' op
  rw [h.geometry, h.room_eq, hfree] at hv
  rcases hu with ⟨a, z', hrun, hleads, hwhole, hstep⟩ | ⟨e, hrun, hleads, hstep⟩
  · rcases hv with ⟨a', z'', hrun', hleads', hwhole', hstep'⟩ | ⟨e, -, -, hstep'⟩
    · -- The tree says what becomes of the cursor, the free blocks how it is laid out.
      obtain ⟨hreply, hcursor⟩ := Prod.mk.inj (Except.ok.inj (hstep'.symm.trans hstep))
      obtain rfl : z'' = z' := Spot.eq_of_whole (hwhole'.trans hwhole.symm) hcursor
      refine ⟨?_, z'', h.leads hleads hleads'⟩
      rw [hrun, hrun', h.left.answer_eq h.right hrun hrun' hreply]
    · rw [hstep] at hstep'
      cases hstep'
  · rcases hv with ⟨a', z'', -, -, -, hstep'⟩ | ⟨e', hrun', hleads', hstep'⟩
    · rw [hstep] at hstep'
      cases hstep'
    · rw [hstep] at hstep'
      cases hstep'
      rw [hrun, hrun']
      exact ⟨rfl, z, h.leads hleads hleads'⟩

theorem serve (h : u.Twins v z) {r : Request} (hr : r ≠ .remount) :
    (v.serve r).1 = (u.serve r).1 ∧ ∃ z', (u.serve r).2.Twins (v.serve r).2 z' := by
  cases r with
  | perform op =>
    obtain ⟨hrun, hnext⟩ := h.run op
    exact ⟨congrArg Outcome.answer hrun, hnext⟩
  | check =>
    have hreport : z.whole.report v.device.store = z.whole.report u.device.store := by
      unfold Layout.report
      rw [h.use.leaks_eq]
    refine ⟨congrArg Outcome.report ?_, z,
      h.leads (h.left.leads_check h.plan) (h.right.leads_check h.plan')⟩
    rw [(h.left.check_never h.plan).1, (h.right.check_never h.plan').1, hreport]
  | usage =>
    have husage := h.use.usage_eq h.left.serves.wellFormed h.right.serves.wellFormed
    exact ⟨congrArg Outcome.usage husage, z, h⟩
  | remount => exact absurd rfl hr

theorem serveAll_eq (h : u.Twins v z) {rs : List Request} (hrs : .remount ∉ rs) :
    (v.serveAll rs).1 = (u.serveAll rs).1 := by
  induction rs generalizing u v z with
  | nil => rfl
  | cons r rs ih =>
    obtain ⟨hr, hrs⟩ := not_or.1 (mt List.mem_cons.2 hrs)
    obtain ⟨hfirst, z', hnext⟩ := h.serve (Ne.symm hr)
    rw [serveAll_cons, serveAll_cons, hfirst, ih hnext hrs]

end Twins

/-! ## The same tree -/

/-- Two sessions work in one directory, on stores with one bitmap that agree on the metadata of
what can be reached and on the contents of its files. -/
structure SameTree (u v : Session) : Prop where
  place : v.place = u.place
  blockLen : v.device.store.blockLen = u.device.store.blockLen
  bitmap : v.device.store.bitmap = u.device.store.bitmap
  metadata : ∀ b, u.device.store.Reaches b →
    v.device.store.metadata? b = u.device.store.metadata? b
  data : ∀ b i, u.device.store.Reaches b → u.device.store.metadata? b = some (.file i) →
    u.device.store.SameData v.device.store u.place.geometry i

theorem SameTree.twins (h : u.SameTree v) (hu : u.At z)
    (hv : v.device.store.Serves v.place.geometry) (hplan : u.device.plan = .never)
    (hplan' : v.device.plan = .never) : u.Twins v z := by
  have huse := Store.SameUse.of_bitmap h.blockLen h.bitmap
  rw [h.place] at hv
  have hin : ∀ b ∈ z.whole.blocks, u.device.store.InUse b ∧ v.device.store.InUse b :=
    fun b hb => ⟨hu.sound.inUse b hb, (huse.inUse_iff b).2 (hu.sound.inUse b hb)⟩
  have hreaches : ∀ n ∈ z.whole.nodes, u.device.store.Reaches n.block := fun n hn =>
    hu.sound.reaches_iff.2 (List.mem_map_of_mem hn)
  have hstored : z.whole.Stored u.place.geometry v.device.store :=
    hu.sound.stored.transfer hu.serves hv hin (fun n hn => h.metadata _ (hreaches n hn))
      fun n hn i => h.data _ i (hreaches n hn)
  refine ⟨hu, ⟨?_, ?_, ?_⟩, congrArg Place.geometry h.place, huse, hplan, hplan'⟩
  · rw [h.place]
    exact hv
  · rw [h.place]
    exact ⟨hu.sound.root, hstored, hu.sound.nodup, fun b hb => (hin b hb).2⟩
  · rw [h.place]
    exact hu.dir

/-- Nothing that a session is asked tells what is left in free and in leaked blocks, behind
metadata or past the end of a file: two sessions that differ in no more than that answer any
requests alike, with the same block numbers, if no call to the stores fails. -/
theorem serveAll_eq_of_sameTree (hu : u.Intact) (hv : v.Intact) (h : u.SameTree v)
    (hplan : u.device.plan = .never) (hplan' : v.device.plan = .never) {rs : List Request}
    (hrs : .remount ∉ rs) : (v.serveAll rs).1 = (u.serveAll rs).1 := by
  obtain ⟨z, hz⟩ := hu.exists_spot
  exact (h.twins hz (hv.mounts.serves hv.wellFormed) hplan hplan').serveAll_eq hrs

/-- The rest of the blocks does not matter where the root is empty. -/
theorem sameTree_of_empty (hplace : v.place = u.place)
    (hlen : v.device.store.blockLen = u.device.store.blockLen)
    (hbitmap : v.device.store.bitmap = u.device.store.bitmap)
    (hu : (Layout.directory rootBlock []).Sound u.place.geometry u.device.store)
    (hv : (Layout.directory rootBlock []).Sound u.place.geometry v.device.store) :
    u.SameTree v := by
  have hroot : ∀ b, u.device.store.Reaches b → b = rootBlock := fun b hb =>
    List.mem_singleton.1 (hu.reaches_iff.1 hb)
  have hempty : ∀ {s : Store}, (Layout.directory rootBlock []).Sound u.place.geometry s →
      s.metadata? rootBlock = some (.directory .empty) := fun h => by
    cases h.stored with
    | directory hb hd hes => exact hb
  refine ⟨hplace, hlen, hbitmap, fun b hb => ?_, fun b i hb hi => ?_⟩
  · rw [hroot b hb, hempty hu, hempty hv]
  · rw [hroot b hb, hempty hu] at hi
    cases hi

/-- A directory comes into a block that holds other bytes in one of the stores. -/
theorem serveAll_eq_of_sameTree_dirty : ∃ (s t : Store) (d d' : Device),
    Store.inMemory 4096 4 = .ok s ∧ s.write 2 (List.replicate 4096 7) = .ok t ∧
      Place.format {} (Device.ofStore s) = .ok ⟨{}, rootBlock⟩ d ∧
      Place.format {} (Device.ofStore t) = .ok ⟨{}, rootBlock⟩ d' ∧
      let u : Session := ⟨d, ⟨{}, rootBlock⟩⟩
      let v : Session := ⟨d', ⟨{}, rootBlock⟩⟩
      let rs : List Request :=
        [.perform (.makeDirectory "a"), .perform (.stat "a"), .perform (.enter (some "a")),
          .perform .list]
      (v.serveAll rs).1 = (u.serveAll rs).1 := by
  obtain ⟨s, hs⟩ : ∃ s, Store.inMemory 4096 4 = .ok s := ⟨_, rfl⟩
  have hserves : s.Serves {} :=
    Store.serves_of_inMemory hs (by decide) (by decide) (by decide) (by decide)
  have hcount := Store.blockCount_of_inMemory hs
  have hlen := Store.blockLen_of_inMemory hs
  have hpos : s.position 2 = .ok (2 * s.blockLen) :=
    Store.position_eq_ok_iff.2 ⟨by decide, by rw [hcount]; decide, rfl⟩
  obtain ⟨t, ht⟩ : ∃ t, s.write 2 (List.replicate 4096 7) = .ok t := by
    rw [Store.write_eq, if_neg (by rw [List.length_replicate, hlen]; decide), hpos]
    exact ⟨_, rfl⟩
  have hshape := hserves.wellFormed.sameShape_write ht
  have hserves' : t.Serves {} :=
    hserves.of_blockLen (hshape.wellFormed hserves.wellFormed) hshape.blockLen
  obtain ⟨-, -, -, hwritten⟩ := Store.write_eq_ok ht
  obtain ⟨d, hd⟩ := hserves.exists_format
  obtain ⟨d', hd'⟩ := hserves'.exists_format
  obtain ⟨-, -, hsteady, ⟨c, hw⟩, -⟩ := Place.format_eq_ok hd hserves.wellFormed
  obtain ⟨-, -, hsteady', ⟨c', hw'⟩, -⟩ := Place.format_eq_ok hd' hserves'.wellFormed
  have hu := at_of_format hserves.wellFormed hd
  have hv := at_of_format hserves'.wellFormed hd'
  have hbitmap : d'.store.bitmap = d.store.bitmap := by
    rw [hw'.bitmap, hw.bitmap]
    show t.bitmap = s.bitmap
    rw [hwritten]
  have hsame : SameTree ⟨d, ⟨{}, rootBlock⟩⟩ ⟨d', ⟨{}, rootBlock⟩⟩ :=
    sameTree_of_empty rfl (hw'.blockLen.trans (hshape.blockLen.trans hw.blockLen.symm)) hbitmap
      hu.sound hv.sound
  exact ⟨s, t, d, d', hs, ht, hd, hd',
    serveAll_eq_of_sameTree hu.intact hv.intact hsame hsteady.plan hsteady'.plan (by decide)⟩

/-! ## Outside the tree -/

theorem run_list {es : List (String × Layout)} (hs : u.device.store.WellFormed)
    (hplan : u.device.plan = .never) (hb : u.device.store.InUse u.place.dir)
    (hdir : u.device.store.metadata? u.place.dir = some (.directory ⟨Layout.entriesOf es⟩))
    (hes : ∀ e ∈ es, e.2.Stored u.place.geometry u.device.store ∧
      u.device.store.InUse e.2.block) :
    (u.run .list).1 = .ok (.listing (Cursor.list ⟨[], Layout.treesOf es⟩)) := by
  have hend : Ends (Operation.list.perform u.place u.device)
      (fun a _ => a.1 = .listing (Cursor.list ⟨[], Layout.treesOf es⟩))
      (fun e _ => u.device.Interrupts .read e) :=
    (Place.ends_listing hs hb hdir hes).bind (fun _ _ h => h.2) fun _ _ h => h.2 ▸ rfl
  rw [run_eq]
  cases hp : Operation.list.perform u.place u.device with
  | ok x d => exact congrArg Except.ok (hend.of_eq_ok hp)
  | error e d => exact absurd (hend.of_eq_error hp) (not_interrupts_of_never hplan)

/-- A directory in a leaked block, next to a root without entries. -/
theorem exists_leaked {t : Store} (ht : t.Serves {}) {b : BlockNumber} (hb : t.InUse b)
    (hne : rootBlock ≠ b) (hroot : t.metadata? rootBlock = some (.directory .empty))
    (es : List (String × Layout))
    (hadmits : Geometry.Admits {} (.directory ⟨Layout.entriesOf es⟩))
    (hes : ∀ e ∈ es, e.2 = .directory rootBlock []) :
    ∃ d, Device.writeBlock b (.directory ⟨Layout.entriesOf es⟩) (Device.ofStore t) = .ok () d ∧
      d.store.blockLen = t.blockLen ∧ d.store.bitmap = t.bitmap ∧
      (Layout.directory rootBlock []).Sound {} d.store ∧
      (∃ r, (check ⟨Device.ofStore d.store, ⟨{}, b⟩⟩).1 = .ok r) ∧
      (run ⟨Device.ofStore d.store, ⟨{}, b⟩⟩ .list).1 =
        .ok (.listing (Cursor.list ⟨[], Layout.treesOf es⟩)) := by
  have hend := ht.ends_writeBlock (d := Device.ofStore t) hb hadmits
  cases hw : Device.writeBlock b (.directory ⟨Layout.entriesOf es⟩) (Device.ofStore t) with
  | error e d => exact absurd (hend.of_eq_error hw).1 Device.not_interrupts_ofStore
  | ok x d =>
    obtain ⟨⟨contents, hrewrites⟩, hdir, -⟩ := hend.of_eq_ok hw
    have hserves : d.store.Serves {} := ht.of_blockLen hrewrites.wellFormed hrewrites.blockLen
    have hempty : d.store.metadata? rootBlock = some (.directory .empty) :=
      (Store.metadata?_congr (hrewrites.bytes_of_ne _ t.inUse_rootBlock hne)).trans hroot
    have hsound : (Layout.directory rootBlock []).Sound {} d.store :=
      (at_of_root hserves hempty).sound
    refine ⟨d, rfl, hrewrites.blockLen, hrewrites.bitmap, hsound, ⟨_,
      (check_healed_eq_ok_iff (u := ⟨Device.ofStore d.store, ⟨{}, b⟩⟩) hserves).2
        ⟨_, hsound, rfl⟩⟩, ?_⟩
    refine run_list hserves.wellFormed rfl ((hrewrites.inUse_iff b).2 hb) hdir fun e he => ?_
    rw [hes e he]
    exact ⟨hsound.stored, d.store.inUse_rootBlock⟩

/-- A session in a directory that is leaked shows what is left there, although the check finds
nothing wrong. -/
theorem serveAll_ne_of_leaked : ∃ (s t : Store) (d d' : Device),
    Store.inMemory 4096 4 = .ok s ∧ s.allocate = some (2, t) ∧
      Device.writeBlock 2 (.directory .empty) (Device.ofStore t) = .ok () d ∧
      Device.writeBlock 2 (.directory ⟨[⟨"x", rootBlock⟩]⟩) (Device.ofStore t) = .ok () d' ∧
      let u : Session := ⟨Device.ofStore d.store, ⟨{}, 2⟩⟩
      let v : Session := ⟨Device.ofStore d'.store, ⟨{}, 2⟩⟩
      u.SameTree v ∧ (∃ r, u.check.1 = .ok r) ∧ (∃ r, v.check.1 = .ok r) ∧
        (u.serveAll [.perform .list]).1 = [.answer (.ok (.listing ⟨[], []⟩))] ∧
        (v.serveAll [.perform .list]).1 = [.answer (.ok (.listing ⟨["x"], []⟩))] ∧
        (v.serveAll [.perform .list]).1 ≠ (u.serveAll [.perform .list]).1 := by
  obtain ⟨s, hs⟩ : ∃ s, Store.inMemory 4096 4 = .ok s := ⟨_, rfl⟩
  obtain ⟨t, ht⟩ : ∃ t, s.allocate = some (2, t) := by
    have hfirst : (Bitmap.freshFlags 4).findIdx? (! ·) = some 2 := by
      rw [Array.findIdx?_eq_some_iff_getElem]
      decide
    cases hs
    simp only [Store.allocate, Bitmap.allocate, hfirst]
    exact ⟨_, rfl⟩
  have hserves : s.Serves {} :=
    Store.serves_of_inMemory hs (by decide) (by decide) (by decide) (by decide)
  have hextends := hserves.wellFormed.allocate ht
  have hserves' : t.Serves {} := hserves.of_blockLen hextends.wellFormed hextends.blockLen
  have hin : t.InUse 2 := (hextends.inUse_iff 2).2 (.inr List.mem_cons_self)
  have hroot : t.metadata? rootBlock = some (.directory .empty) :=
    (Store.metadata?_congr (hextends.bytes _ s.inUse_rootBlock)).trans
      (Store.root_of_inMemory hs hserves)
  obtain ⟨d, hd, hlen, hbitmap, hsound, hcheck, hlist⟩ :=
    exists_leaked hserves' hin (by decide) hroot [] (Geometry.admits_empty {})
      fun _ he => absurd he List.not_mem_nil
  obtain ⟨d', hd', hlen', hbitmap', hsound', hcheck', hlist'⟩ :=
    exists_leaked hserves' hin (by decide) hroot [("x", .directory rootBlock [])]
      ⟨by decide, by decide, by decide⟩ fun e he => by rw [List.mem_singleton.1 he]
  have hu : (serveAll ⟨Device.ofStore d.store, ⟨{}, 2⟩⟩ [.perform .list]).1 =
      [.answer (.ok (.listing ⟨[], []⟩))] :=
    congrArg (fun r => [Outcome.answer r]) hlist
  have hv : (serveAll ⟨Device.ofStore d'.store, ⟨{}, 2⟩⟩ [.perform .list]).1 =
      [.answer (.ok (.listing ⟨["x"], []⟩))] :=
    congrArg (fun r => [Outcome.answer r]) hlist'
  refine ⟨s, t, d, d', hs, ht, hd, hd', ?_, hcheck, hcheck', hu, hv, ?_⟩
  · exact sameTree_of_empty rfl (hlen'.trans hlen.symm) (hbitmap'.trans hbitmap.symm) hsound hsound'
  · rw [hu, hv]
    intro heq
    cases heq

end Session
end BlockFS
