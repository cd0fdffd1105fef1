/-
Sessions on a filesystem that the check accepts.

A session is intact if the check accepts its filesystem and its directory can be reached.
That is the same as being at a spot of a sound layout (`Intact.exists_spot`, `At.intact`), so
what operations do at spots carries over to runs of any length.
-/
import BlockFS.Proofs.Check.Graph
import BlockFS.Proofs.Operations.Perform
import BlockFS.Proofs.Rollback

namespace BlockFS

/-! ## Directories of a layout -/

namespace Layout

theorem fill_append (fs fs' : List Frame) (t : Layout) :
    fill (fs ++ fs') t = fill fs' (fill fs t) := by
  induction fs generalizing t with
  | nil => rfl
  | cons f fs ih => exact ih (f.close t)

theorem mem_nodes_fill {fs : List Frame} {t n : Layout} (h : n ∈ t.nodes) :
    n ∈ (fill fs t).nodes := by
  induction fs generalizing t with
  | nil => exact h
  | cons f fs ih =>
    refine ih (List.mem_cons_of_mem _ (mem_nodesOf.2 ⟨(f.name, t), ?_, h⟩))
    exact List.mem_append_right _ List.mem_cons_self

mutual

theorem exists_fill {t n : Layout} (h : n ∈ t.nodes) : ∃ fs, fill fs n = t := by
  match t with
  | .file b bs contents => exact ⟨[], List.mem_singleton.1 h⟩
  | .directory b es =>
    rcases List.mem_cons.1 h with rfl | h
    · exact ⟨[], rfl⟩
    · obtain ⟨fs, before, name, t, after, rfl, ht⟩ := exists_fillOf h
      refine ⟨fs ++ [⟨b, before, name, after⟩], ?_⟩
      rw [fill_append, ht]
      rfl

theorem exists_fillOf {es : List (String × Layout)} {n : Layout} (h : n ∈ nodesOf es) :
    ∃ fs before name t after, es = before ++ (name, t) :: after ∧ fill fs n = t := by
  match es with
  | [] => exact absurd h List.not_mem_nil
  | (name, t) :: es =>
    rcases List.mem_append.1 h with h | h
    · obtain ⟨fs, hfs⟩ := exists_fill h
      exact ⟨fs, [], name, t, es, rfl, hfs⟩
    · obtain ⟨fs, before, name', t', after, rfl, hfs⟩ := exists_fillOf h
      exact ⟨fs, (name, t) :: before, name', t', after, rfl, hfs⟩

end

end Layout

/-! ## Intact sessions -/

namespace Session

/-- The same session, with no call made to fail from now on. -/
def healed (u : Session) : Session := ⟨u.device.withPlan .never, u.place⟩

/-- The same session, with no release made to fail. -/
def reliable (u : Session) : Session := ⟨u.device.reliable, u.place⟩

/-- The filesystem can be taken up, the check accepts it, and the session works in a directory
that can be reached. -/
structure Intact (u : Session) : Prop where
  wellFormed : u.device.store.WellFormed
  mounts : u.device.store.Mounts u.place.geometry
  accepted : ∃ r, u.healed.check.1 = .ok r
  reaches : u.device.store.Reaches u.place.dir
  directory : u.device.store.holdsDirectory u.place.dir = true

/-- The session works at a spot of the layout that its store holds. -/
structure At (u : Session) (z : Spot) : Prop where
  serves : u.device.store.Serves u.place.geometry
  sound : z.whole.Sound u.place.geometry u.device.store
  dir : u.place.dir = z.block

variable {u : Session} {z : Spot}

theorem check_healed_eq_ok_iff (hs : u.device.store.Serves u.place.geometry) {r : CheckReport} :
    u.healed.check.1 = .ok r ↔
      ∃ l : Layout, l.Sound u.place.geometry u.device.store ∧ r = l.report u.device.store := by
  rw [← Check.run_eq_ok_iff hs.blockSize_pos hs.wellFormed, check_eq_ok_iff]
  exact Iff.rfl

theorem Intact.exists_spot (h : u.Intact) : ∃ z, u.At z := by
  have hs := h.mounts.serves h.wellFormed
  obtain ⟨r, hr⟩ := h.accepted
  obtain ⟨l, hl, -⟩ := (check_healed_eq_ok_iff hs).1 hr
  obtain ⟨n, hn, hblock⟩ := List.mem_map.1 (hl.reaches_iff.1 h.reaches)
  have hdir := h.directory
  rw [← hblock, (hl.stored.of_mem_nodes hn).holdsDirectory_eq] at hdir
  cases n with
  | file b bs contents => cases hdir
  | directory b es =>
    obtain ⟨fs, rfl⟩ := Layout.exists_fill hn
    exact ⟨⟨fs, b, es⟩, hs, hl, hblock.symm⟩

theorem At.report (h : u.At z) : u.healed.check.1 = .ok (z.whole.report u.device.store) :=
  (check_healed_eq_ok_iff h.serves).2 ⟨z.whole, h.sound, rfl⟩

theorem At.withPlan (h : u.At z) (plan : FaultPlan) : At ⟨u.device.withPlan plan, u.place⟩ z :=
  ⟨h.serves, h.sound, h.dir⟩

theorem At.intact (h : u.At z) : u.Intact where
  wellFormed := h.serves.wellFormed
  mounts := by
    obtain ⟨z', hroot, hwhole, -⟩ := Place.exists_top h.sound
    have hsound : z'.whole.Sound u.place.geometry u.device.store := hwhole ▸ h.sound
    exact h.serves.mounts (hroot ▸ (Spot.directory hsound).1)
  accepted := ⟨_, h.report⟩
  reaches := by
    rw [h.dir, h.sound.reaches_iff]
    exact List.mem_map.2 ⟨z.here, Layout.mem_nodes_fill z.here.self_mem_nodes, rfl⟩
  directory := by
    rw [h.dir]
    exact h.sound.stored.of_fill.holdsDirectory_eq

theorem intact_of_mount {g : Geometry} {d d' : Device} {p : Place} (hs : d.store.WellFormed)
    (h : Place.mount g d = .ok p d') (hcheck : ∃ r, (healed ⟨d', p⟩).check.1 = .ok r) :
    Intact ⟨d', p⟩ := by
  obtain ⟨rfl, hd, hserves, dir, hroot⟩ := Place.mount_eq_ok h hs
  rw [← hd.store] at hserves hroot
  refine ⟨hserves.wellFormed, hserves.mounts hroot, hcheck, .root, ?_⟩
  show d'.store.holdsDirectory rootBlock = true
  unfold Store.holdsDirectory
  rw [hroot]
  rfl

theorem at_of_root {g : Geometry} {d : Device} (hserves : d.store.Serves g)
    (hroot : d.store.metadata? rootBlock = some (.directory .empty)) :
    At ⟨d, ⟨g, rootBlock⟩⟩ ⟨[], rootBlock, []⟩ := by
  have hstored : (Layout.directory rootBlock []).Stored g d.store :=
    .directory hroot g.admits_empty fun e he => absurd he List.not_mem_nil
  have hsound : (Layout.directory rootBlock []).Sound g d.store := by
    refine ⟨rfl, hstored, List.nodup_singleton _, fun b hb => ?_⟩
    rw [List.mem_singleton.1 hb]
    exact d.store.inUse_rootBlock
  exact ⟨hserves, hsound, rfl⟩

/-- A filesystem that has just been made has a root without entries, whatever else is in use
in the store. -/
theorem at_of_format {g : Geometry} {d d' : Device} {p : Place} (hs : d.store.WellFormed)
    (h : Place.format g d = .ok p d') : At ⟨d', p⟩ ⟨[], rootBlock, []⟩ := by
  obtain ⟨rfl, hserves, -, -, hroot⟩ := Place.format_eq_ok h hs
  exact at_of_root hserves hroot

theorem exists_format_of_inMemory {s : Store} {blocks : Nat}
    (hs : Store.inMemory 4096 blocks = .ok s) (hcount : blocks < 2 ^ 32) :
    ∃ d, Place.format {} (Device.ofStore s) = .ok ⟨{}, rootBlock⟩ d ∧ d.plan = .never ∧
      d.store.blockCount = blocks ∧ At ⟨d, ⟨{}, rootBlock⟩⟩ ⟨[], rootBlock, []⟩ := by
  have hserves : s.Serves {} :=
    Store.serves_of_inMemory hs hcount (by decide) (by decide) (by decide)
  obtain ⟨d, hd⟩ := hserves.exists_format
  obtain ⟨-, -, hsteady, ⟨contents, hw⟩, -⟩ := Place.format_eq_ok hd hserves.wellFormed
  exact ⟨d, hd, hsteady.plan, hw.blockCount.trans (Store.blockCount_of_inMemory hs),
    at_of_format hserves.wellFormed hd⟩

theorem intact_leaky : leaky.Intact where
  wellFormed := Store.wellFormed_leaky []
  mounts := by
    have hserves : leaky.device.store.Serves leaky.place.geometry :=
      ⟨Store.wellFormed_leaky [], by decide, by decide, by decide⟩
    have hroot : leaky.device.store.metadata? rootBlock =
        some (.directory ⟨[⟨"d", 2⟩, ⟨"f", 3⟩]⟩) := by decide +kernel
    exact hserves.mounts hroot
  accepted := ⟨_, check_leaky⟩
  reaches := .root
  directory := by decide +kernel

/-! ## One operation and many -/

/-- The blocks that are free or part of the layout. -/
def room (u : Session) (z : Spot) : Nat := u.device.store.freeCount + z.whole.blocks.length

/-- A session at one spot has become a session at another one. -/
structure Leads (u : Session) (z : Spot) (v : Session) (z' : Spot) : Prop where
  spot : v.At z'
  geometry : v.place.geometry = u.place.geometry
  kept : Kept u.place.geometry u.device v.device z.whole z'.whole

theorem Leads.trans {v w : Session} {z' z'' : Spot} (h : u.Leads z v z') (h' : v.Leads z' w z'') :
    u.Leads z w z'' :=
  ⟨h'.spot, h'.geometry.trans h.geometry, h.kept.trans (h.geometry ▸ h'.kept)⟩

theorem At.refl (h : u.At z) : u.Leads z u z :=
  ⟨h, rfl, .untouched h.serves.wellFormed h.sound (.refl u.device)⟩

theorem At.leads (h : u.At z) {z' : Spot} {d : Device}
    (hkept : Kept u.place.geometry u.device d z.whole z'.whole) :
    u.Leads z ⟨d, ⟨u.place.geometry, z'.block⟩⟩ z' :=
  ⟨⟨hkept.serves h.serves, hkept.sound, rfl⟩, rfl, hkept⟩

theorem At.place_eq (h : u.At z) : u.place = ⟨u.place.geometry, z.block⟩ := by
  rw [← h.dir]

theorem run_eq (u : Session) (op : Operation) :
    u.run op =
      match op.perform u.place u.device with
      | .ok (answer, place) device => (.ok answer, ⟨device, place⟩)
      | .error e device => (.error e, ⟨device, u.place⟩) := rfl

theorem At.run_ok (h : u.At z) {op : Operation} {a : Answer} (hrun : (u.run op).1 = .ok a) :
    ∃ z', u.Leads z (u.run op).2 z' ∧
      z'.whole = z.laidOut u.place.geometry u.device.store.freeBlocks op ∧
      z.cursor.step u.place.geometry (u.room z) op = .ok (a.reply, z'.cursor) := by
  have hend := Operation.ends_perform h.serves h.sound op
  rw [← h.place_eq] at hend
  rw [run_eq] at hrun ⊢
  cases hp : op.perform u.place u.device with
  | ok x d =>
    obtain ⟨z', hplace, hwhole, hstep, hkept⟩ := hend.of_eq_ok hp
    obtain ⟨a', p⟩ := x
    obtain rfl : p = _ := hplace
    rw [hp] at hrun
    cases hrun
    exact ⟨z', h.leads hkept, hwhole, hstep⟩
  | error e d =>
    rw [hp] at hrun
    cases hrun

/-- Why an operation fails: nothing has been done, or all but freeing blocks. -/
theorem At.run_error (h : u.At z) {op : Operation} {e : Error} (hrun : (u.run op).1 = .error e) :
    u.Leads z (u.run op).2 z ∧
        (z.cursor.step u.place.geometry (u.room z) op = .error e ∨
          u.device.Interrupts .read e ∨ u.device.Interrupts .write e) ∨
      op.frees = true ∧ u.device.Interrupts .release e ∧ ∃ (reply : Reply) (z' : Spot),
        u.Leads z (u.run op).2 z' ∧
          z.cursor.step u.place.geometry (u.room z) op = .ok (reply, z'.cursor) := by
  have hend := Operation.ends_perform h.serves h.sound op
  rw [← h.place_eq] at hend
  rw [run_eq] at hrun ⊢
  cases hp : op.perform u.place u.device with
  | ok x d =>
    rw [hp] at hrun
    cases hrun
  | error e' d =>
    rw [hp] at hrun
    cases hrun
    have hleads : ∀ z' : Spot, z'.block = z.block →
        Kept u.place.geometry u.device d z.whole z'.whole → u.Leads z ⟨d, u.place⟩ z' := by
      intro z' hblock hkept
      rw [h.place_eq, ← hblock]
      exact h.leads hkept
    rcases hend.of_eq_error hp with ⟨hkept, hcause⟩ | ⟨hfrees, he, reply, z', hblock, hstep, hkept⟩
    · exact .inl ⟨hleads z rfl hkept, hcause⟩
    · exact .inr ⟨hfrees, he, reply, z', hleads z' hblock hkept, hstep⟩

theorem At.exists_run (h : u.At z) (op : Operation) : ∃ z', u.Leads z (u.run op).2 z' := by
  cases hrun : (u.run op).1 with
  | ok a =>
    obtain ⟨z', hleads, -⟩ := h.run_ok hrun
    exact ⟨z', hleads⟩
  | error e =>
    rcases h.run_error hrun with ⟨hleads, -⟩ | ⟨-, -, -, z', hleads, -⟩
    · exact ⟨z, hleads⟩
    · exact ⟨z', hleads⟩

theorem At.exists_runAll (h : u.At z) (ops : List Operation) :
    ∃ z', u.Leads z (u.runAll ops).2 z' := by
  induction ops generalizing u z with
  | nil => exact ⟨z, h.refl⟩
  | cons op ops ih =>
    obtain ⟨z', hleads⟩ := h.exists_run op
    obtain ⟨z'', hrest⟩ := ih hleads.spot
    exact ⟨z'', hleads.trans hrest⟩

/-- A filesystem that has been made or that the check accepts stays one that the check accepts,
and its directory one that can be reached, whatever is done and whichever calls fail on the way.
Leaked blocks stay leaked; unless a release fails they are those of the start. -/
theorem runAll_intact :
    (∀ (g : Geometry) (d d' : Device) (p : Place), d.store.WellFormed →
      (Place.format g d = .ok p d' ∨
        Place.mount g d = .ok p d' ∧ ∃ r, (healed ⟨d', p⟩).check.1 = .ok r) →
      Intact ⟨d', p⟩) ∧
    ∀ u : Session, u.Intact → ∀ before after : List Operation,
      let v := (u.runAll before).2
      let w := (v.runAll after).2
      v.Intact ∧ w.Intact ∧ ∃ r₀ r₁ r₂ : CheckReport,
        u.healed.check.1 = .ok r₀ ∧ v.healed.check.1 = .ok r₁ ∧ w.healed.check.1 = .ok r₂ ∧
          r₁.leaked ⊆ r₂.leaked ∧
          (w.device.calls.failedReleases = u.device.calls.failedReleases →
            r₂.leaked = r₀.leaked) := by
  refine ⟨?_, ?_⟩
  · intro g d d' p hs hmade
    rcases hmade with h | ⟨h, hcheck⟩
    · exact (at_of_format hs h).intact
    · exact intact_of_mount hs h hcheck
  · intro u hu before after v w
    obtain ⟨z, hz⟩ := hu.exists_spot
    obtain ⟨z₁, h₁⟩ := hz.exists_runAll before
    obtain ⟨z₂, h₂⟩ := h₁.spot.exists_runAll after
    refine ⟨h₁.spot.intact, h₂.spot.intact, _, _, _, hz.report, h₁.spot.report, h₂.spot.report,
      h₂.kept.leaks_subset, fun heq => ?_⟩
    exact (h₁.trans h₂).kept.leaks_eq heq

/-- The entry of a new directory is not written and its block not given back. -/
theorem runAll_intact_interrupted : ∃ (s : Store) (d : Device) (u : Session),
    Store.inMemory 4096 4 = .ok s ∧
      Place.format {} (Device.ofStore s) = .ok ⟨{}, rootBlock⟩ d ∧
      u = ⟨d.withPlan (.after none (some 1) (some 0)), ⟨{}, rootBlock⟩⟩ ∧ u.Intact ∧
      (u.runAll [.makeDirectory "a"]).2.Intact ∧
      ((u.runAll [.makeDirectory "a"]).2.runAll [.list]).2.Intact := by
  obtain ⟨s, hs⟩ : ∃ s, Store.inMemory 4096 4 = .ok s := ⟨_, rfl⟩
  have hwf : s.WellFormed := Store.wellFormed_of_inMemory hs (by decide)
  obtain ⟨d, hd, -⟩ := exists_format_of_inMemory hs (by decide)
  obtain ⟨z, hz⟩ := (runAll_intact.1 _ _ _ _ hwf (.inl hd)).exists_spot
  have hu : Intact ⟨d.withPlan (.after none (some 1) (some 0)), ⟨{}, rootBlock⟩⟩ :=
    (hz.withPlan _).intact
  obtain ⟨hv, hw, -⟩ := runAll_intact.2 _ hu [.makeDirectory "a"] [.list]
  exact ⟨s, d, _, hs, hd, rfl, hu, hv, hw⟩

end Session
end BlockFS
