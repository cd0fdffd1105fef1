/-
It makes no difference whether a filesystem is kept in memory or in an image.

Two sessions on stores that mirror each other respond alike, and stay on such stores.  Where
the one in memory is at a spot of a sound layout, block 0 does not come up, so what is said of
it does not matter.  A new store has an empty root before anything is written to it, and any
store has one once it is formatted.
-/
import BlockFS.Proofs.Stores.Agreement

namespace BlockFS

/-! ## Taking a filesystem up -/

theorem Device.Interrupts.ne_store {d : Device} {access : Access} {e : Error}
    (h : d.Interrupts access e) (fault : StoreFault) : e ≠ .io (.store fault) := by
  obtain ⟨b, k, rfl, -⟩ := h
  intro he
  cases he

namespace Place

theorem ends_checkGeometry (g : Geometry) (d : Device) :
    Ends (checkGeometry g d)
      (fun _ d' => g.validate = .ok () ∧ g.fitsMemory = true ∧ g.blockLen ≤ d.store.blockLen ∧
        d' = d)
      (fun e d' => d' = d ∧ ∀ failure, e ≠ .io failure) := by
  cases hc : checkGeometry g d with
  | ok u d' => exact checkGeometry_eq_ok_iff.1 hc
  | error e d' =>
    rw [checkGeometry_eq] at hc
    split at hc
    · cases hc
      exact ⟨rfl, fun _ he => nomatch he⟩
    split at hc
    · split at hc <;> cases hc
      exact ⟨rfl, fun _ he => nomatch he⟩
    · cases hc
      exact ⟨rfl, fun _ he => nomatch he⟩

/-- Nothing is written when a filesystem is taken up, and the store itself does not fail. -/
theorem ends_mount {g : Geometry} {d : Device} (hs : d.store.WellFormed) :
    Ends (mount g d) (fun _ d' => d'.store = d.store)
      (fun e d' => d'.store = d.store ∧ ∀ fault, e ≠ .io (.store fault)) := by
  refine (ends_checkGeometry g d).bind ?_ ?_
  · intro e d' herr
    obtain ⟨rfl, hne⟩ := herr
    exact ⟨rfl, fun fault => hne (.store fault)⟩
  intro _ d' hres
  obtain ⟨-, -, -, rfl⟩ := hres
  refine Ends.bind_iff.2 ((Device.ends_readBytes hs d'.store.inUse_rootBlock).bind ?_ ?_)
  · intro e d'' herr
    exact ⟨herr.2.store, herr.1.ne_store⟩
  intro bs d'' hres
  have hstore := hres.2.store
  cases Block.decode bs with
  | error fault => exact ⟨hstore, fun _ he => nomatch he⟩
  | ok block =>
    cases block with
    | directory dir => exact hstore
    | file i => exact ⟨hstore, fun _ he => nomatch he⟩

theorem format_ne_store {g : Geometry} {d : Device} (hs : d.store.WellFormed) :
    Ends (format g d) (fun _ _ => True) (fun e _ => ∀ fault, e ≠ .io (.store fault)) := by
  refine (ends_checkGeometry g d).bind (fun e _ h fault => h.2 (.store fault)) ?_
  intro _ d' hres
  obtain ⟨hv, hf, hlen, rfl⟩ := hres
  have hserves : d'.store.Serves g := ⟨hs, hv, hf, hlen⟩
  refine (hserves.ends_writeBlock d'.store.inUse_rootBlock g.admits_empty).bind
    (fun e _ h => h.1.ne_store) ?_
  intro _ d'' hres
  obtain ⟨⟨contents, hw⟩, -, -⟩ := hres
  exact (ends_mount hw.wellFormed).imp (fun _ _ _ => trivial) fun _ _ h => h.2

end Place

namespace Session

/-! ## Requests -/

/-- What a mounted filesystem is asked. -/
inductive Request where
  | perform (op : Operation)
  | check
  | usage
  /-- The store is given up, opened again and the filesystem on it taken up. -/
  | remount
  deriving DecidableEq

/-- What a request ends in. -/
inductive Outcome where
  | answer (r : Except Error Answer)
  | report (r : Except CheckFault CheckReport)
  | usage (n : Usage)
  | lost (fault : Store.CallFault)
  | remounted (r : Except Error Unit)

def remount (u : Session) : Outcome × Session :=
  match u.device.store.reopen with
  | .error fault => (.lost fault, u)
  | .ok s =>
    match Place.mount u.place.geometry ⟨s, u.device.plan, u.device.calls⟩ with
    | .ok p d => (.remounted (.ok ()), ⟨d, p⟩)
    | .error e d => (.remounted (.error e), ⟨d, u.place⟩)

def serve (u : Session) : Request → Outcome × Session
  | .perform op => (.answer (u.run op).1, (u.run op).2)
  | .check => (.report u.check.1, u.check.2)
  | .usage => (.usage u.device.store.usage, u)
  | .remount => u.remount

def serveAll (u : Session) : List Request → List Outcome × Session
  | [] => ([], u)
  | r :: rs =>
    let (a, v) := u.serve r
    let (as, w) := v.serveAll rs
    (a :: as, w)

/-- Block 0 of a medium has been come upon. -/
def Outcome.OfReserved (medium : Medium) (a : Outcome) : Prop :=
  a = .answer (.error (.reserved medium)) ∨ a = .report (.error (.reserved medium))

/-- Two outcomes are the same, or each is what is said of block 0 of its medium. -/
def Outcome.SameButReserved (a a' : Outcome) : Prop :=
  a' = a ∨ a.OfReserved .memory ∧ a'.OfReserved .disk

variable {u v : Session} {z : Spot}

theorem serveAll_cons (u : Session) (r : Request) (rs : List Request) :
    u.serveAll (r :: rs) =
      ((u.serve r).1 :: ((u.serve r).2.serveAll rs).1,
        ((u.serve r).2.serveAll rs).2) := rfl

/-! ## On stores that mirror each other -/

/-- Two sessions at the same place, on stores that mirror each other. -/
structure Mirrors (u v : Session) : Prop where
  device : u.device.Mirrors v.device
  place : v.place = u.place

theorem Mirrors.serve (h : u.Mirrors v) (r : Request) :
    (u.serve r).1.SameButReserved (v.serve r).1 ∧ (u.serve r).2.Mirrors (v.serve r).2 := by
  obtain ⟨m, p⟩ := u
  obtain ⟨d, p'⟩ := v
  obtain ⟨hdevice, rfl⟩ := h
  dsimp only at hdevice
  cases r with
  | perform op =>
    have halike := (op.built_perform p').alike
    simp only [Session.serve, run_eq]
    cases hm : op.perform p' m with
    | ok x m' =>
      obtain ⟨d', hd, h'⟩ := halike.of_ok hdevice hm
      rw [hd]
      exact ⟨.inl rfl, h', rfl⟩
    | error e m' =>
      obtain ⟨e', d', hd, he, h'⟩ := halike.of_error hdevice hm
      rw [hd]
      rcases he with rfl | ⟨rfl, rfl⟩
      · exact ⟨.inl rfl, h', rfl⟩
      · exact ⟨.inr ⟨.inl rfl, .inl rfl⟩, h', rfl⟩
  | check =>
    have halike := Check.alike_run p'.geometry
    simp only [Session.serve, check_eq]
    cases hm : Check.run p'.geometry m with
    | ok x m' =>
      obtain ⟨d', hd, h'⟩ := halike.of_ok hdevice hm
      rw [hd]
      exact ⟨.inl rfl, h', rfl⟩
    | error e m' =>
      obtain ⟨e', d', hd, he, h'⟩ := halike.of_error hdevice hm
      rw [hd]
      rcases he with rfl | ⟨rfl, rfl⟩
      · exact ⟨.inl rfl, h', rfl⟩
      · exact ⟨.inr ⟨.inr rfl, .inr rfl⟩, h', rfl⟩
  | usage =>
    have husage : d.store.usage = m.store.usage := by
      unfold Store.usage Store.freeCount
      rw [hdevice.store.blockLen, hdevice.store.blockCount, hdevice.store.bitmap]
    exact ⟨.inl (congrArg Outcome.usage husage), hdevice, rfl⟩
  | remount =>
    have hm := Store.reopen_of_memory hdevice.store.memory
    obtain ⟨t, ht, hsynced⟩ := hdevice.store.onDisk.exists_reopen
    have hreopened : Device.Mirrors ⟨m.store, m.plan, m.calls⟩ ⟨t, d.plan, d.calls⟩ :=
      ⟨hdevice.store.of_synced hsynced, hdevice.plan, hdevice.calls⟩
    have halike := (Place.direct_mount p'.geometry).alike
    simp only [Session.serve, remount, hm, ht]
    cases hrun : Place.mount p'.geometry ⟨m.store, m.plan, m.calls⟩ with
    | ok p m' =>
      obtain ⟨d', hd, h'⟩ := halike.of_ok hreopened hrun
      rw [hd]
      exact ⟨.inl rfl, h', rfl⟩
    | error e m' =>
      obtain ⟨e', d', hd, he, h'⟩ := halike.of_error hreopened hrun
      have hne := (Place.ends_mount hdevice.store.wellFormed).of_eq_error hrun
      obtain rfl : e' = e := he.resolve_right fun h => hne.2 _ h.1
      rw [hd]
      exact ⟨.inl rfl, h', rfl⟩

theorem Mirrors.serveAll (h : u.Mirrors v) (rs : List Request) :
    (u.serveAll rs).2.Mirrors (v.serveAll rs).2 := by
  induction rs generalizing u v with
  | nil => exact h
  | cons r rs ih => exact ih (h.serve r).2

/-- Either store can be given up. -/
theorem Mirrors.exists_unmount (h : u.Mirrors v) :
    (∃ s, u.unmount = .ok s) ∧ ∃ s, v.unmount = .ok s := by
  have hstore := h.device.store
  obtain ⟨t, ht, -⟩ := hstore.onDisk.exists_sync
  unfold Session.unmount Store.unmount
  rw [hstore.memory, hstore.onDisk.medium, ht]
  exact ⟨⟨_, rfl⟩, _, rfl⟩

/-! ## On a sound layout -/

theorem At.serve (h : u.At z) (hmedium : u.device.store.medium = .memory) (r : Request) :
    (∃ z', (u.serve r).2.At z') ∧ ∀ medium, ¬ (u.serve r).1.OfReserved medium := by
  cases r with
  | perform op =>
    obtain ⟨z', hleads⟩ := h.exists_run op
    refine ⟨⟨z', hleads.spot⟩, fun medium hres => ?_⟩
    rcases hres with hres | hres
    · have hrun : (u.run op).1 = .error (.reserved medium) := Outcome.answer.inj hres
      rcases h.run_error hrun with ⟨-, hstep | he | he⟩ | ⟨-, he, -⟩
      · exact Cursor.step_ne_io hstep
      · exact he.ne_store _ rfl
      · exact he.ne_store _ rfl
      · exact he.ne_store _ rfl
    · cases hres
  | check =>
    have hstore := Check.store_of_run u.place.geometry u.device
    have hend := Check.ends_run_of_consistent (d := u.device) h.serves.blockSize_pos
      h.serves.wellFormed h.sound.consistent
    simp only [Session.serve, check_eq]
    cases hrun : Check.run u.place.geometry u.device with
    | ok report d =>
      have hd : d.store = u.device.store := hstore.of_eq_ok hrun
      refine ⟨⟨z, hd ▸ h.serves, hd ▸ h.sound, h.dir⟩, fun medium hres => ?_⟩
      rcases hres with hres | hres <;> cases hres
    | error fault d =>
      have hd : d.store = u.device.store := hstore.of_eq_error hrun
      obtain ⟨e, rfl, he⟩ := hend.of_eq_error hrun
      refine ⟨⟨z, hd ▸ h.serves, hd ▸ h.sound, h.dir⟩, fun medium hres => ?_⟩
      rcases hres with hres | hres
      · cases hres
      · obtain rfl := CheckFault.filesystem.inj (Except.error.inj (Outcome.report.inj hres))
        exact he.ne_store _ rfl
  | usage =>
    refine ⟨⟨z, h⟩, fun medium hres => ?_⟩
    rcases hres with hres | hres <;> cases hres
  | remount =>
    have hreopen : u.device.store.reopen = .ok u.device.store := Store.reopen_of_memory hmedium
    simp only [Session.serve, remount, hreopen]
    cases hrun : Place.mount u.place.geometry u.device with
    | ok p d =>
      obtain ⟨rfl, hd, -⟩ := Place.mount_eq_ok hrun h.serves.wellFormed
      obtain ⟨z', hroot, hwhole, -⟩ := Place.exists_top h.sound
      have hsound : z'.whole.Sound u.place.geometry u.device.store := hwhole ▸ h.sound
      refine ⟨⟨z', hd.store ▸ h.serves, hd.store ▸ hsound, hroot.symm⟩, fun medium hres => ?_⟩
      rcases hres with hres | hres <;> cases hres
    | error e d =>
      obtain ⟨hd, -⟩ := (Place.ends_mount h.serves.wellFormed).of_eq_error hrun
      refine ⟨⟨z, hd ▸ h.serves, hd ▸ h.sound, h.dir⟩, fun medium hres => ?_⟩
      rcases hres with hres | hres <;> cases hres

theorem At.serveAll_eq (h : u.At z) (hv : u.Mirrors v) (rs : List Request) :
    (v.serveAll rs).1 = (u.serveAll rs).1 := by
  induction rs generalizing u v z with
  | nil => rfl
  | cons r rs ih =>
    obtain ⟨⟨z', hz'⟩, hnot⟩ := h.serve hv.device.store.memory r
    obtain ⟨hsame, hnext⟩ := hv.serve r
    have hfirst : (v.serve r).1 = (u.serve r).1 :=
      hsame.resolve_right fun hres => hnot _ hres.1
    rw [serveAll_cons, serveAll_cons, hfirst, ih hz' hnext]

end Session

/-! ## The two media -/

namespace Session

/-- A session that starts on a new store, or on one that it formats, is at the root of a sound
layout. -/
theorem exists_at_of_start {s : Store} {g : Geometry} {plan : FaultPlan} {start : Action Place}
    {p : Place} {d : Device} {blockLen blocks : Nat} {cs : List Store.Call}
    (hs : (s.callAll cs).2.WellFormed) (hnew : Store.inMemory blockLen blocks = .ok s)
    (hstart : start = Place.format g ∨ start = Place.mount g ∧ cs = [])
    (h : start ⟨(s.callAll cs).2, plan, {}⟩ = .ok p d) : ∃ z, At ⟨d, p⟩ z := by
  rcases hstart with rfl | ⟨rfl, rfl⟩
  · exact ⟨_, at_of_format hs h⟩
  · obtain ⟨rfl, hd, hserves, -⟩ := Place.mount_eq_ok h hs
    have hroot := Store.root_of_inMemory hnew hserves
    have hstore : d.store = s := hd.store
    rw [← hstore] at hroot
    exact ⟨_, at_of_root (hstore ▸ hserves) hroot⟩

/-- A store in memory and one in an image, both new, answer every call in the same way, whatever
has been called on them and however often the image has been opened again; only for block 0
the message differs.  So a filesystem on the one answers like a filesystem on the other: in the
same words, if it was made on the store or nothing was written to it before, and up to what is
said of block 0 in any case. -/
theorem answers_eq_of_new {m d : Store} {old : DiskFile} {blockLen blocks : Nat}
    (hlen : blockLen < 2 ^ 32) (hblocks : blocks < 2 ^ 32)
    (hm : Store.inMemory blockLen blocks = .ok m)
    (hd : Store.create old blockLen blocks = .ok d) :
    (∀ (cs : List Store.Call) (c : Store.Call),
      let a := ((m.callAll cs).2.call c).1
      let a' := ((d.callAll cs).2.call c).1
      a' = a ∨ c.onReserved = true ∧ a = .error (.store (.reserved .memory)) ∧
        a' = .error (.store (.reserved .disk))) ∧
    ∀ (cs : List Store.Call) (g : Geometry) (plan : FaultPlan) (start : Action Place),
      start = Place.format g ∨ start = Place.mount g →
      (∃ (e : Error) (m' d' : Device), start ⟨(m.callAll cs).2, plan, {}⟩ = .error e m' ∧
        start ⟨(d.callAll cs).2, plan, {}⟩ = .error e d') ∨
      ∃ (p : Place) (m' d' : Device), start ⟨(m.callAll cs).2, plan, {}⟩ = .ok p m' ∧
        start ⟨(d.callAll cs).2, plan, {}⟩ = .ok p d' ∧
        ∀ rs : List Request,
          let u := (serveAll ⟨m', p⟩ rs).2
          let v := (serveAll ⟨d', p⟩ rs).2
          (∀ r : Request, (u.serve r).1.SameButReserved (v.serve r).1) ∧
          (start = Place.format g ∨ cs = [] →
            (serveAll ⟨d', p⟩ rs).1 = (serveAll ⟨m', p⟩ rs).1) ∧
          (∃ s, u.unmount = .ok s) ∧ ∃ s, v.unmount = .ok s := by
  have hnew := Store.mirrors_of_new hlen hblocks hm hd
  refine ⟨fun cs c => ((hnew.callAll cs).call c).1, ?_⟩
  intro cs g plan start hstart
  have hstores := hnew.callAll cs
  have hdevices : Device.Mirrors ⟨(m.callAll cs).2, plan, {}⟩ ⟨(d.callAll cs).2, plan, {}⟩ :=
    ⟨hstores, rfl, rfl⟩
  have halike : Alike Error.reserved Device.Mirrors start := by
    rcases hstart with rfl | rfl
    · exact (Place.direct_format g).alike
    · exact (Place.direct_mount g).alike
  have hwf := hstores.wellFormed
  have herror : Ends (start ⟨(m.callAll cs).2, plan, {}⟩) (fun _ _ => True)
      (fun e _ => ∀ fault, e ≠ .io (.store fault)) := by
    rcases hstart with rfl | rfl
    · exact Place.format_ne_store hwf
    · exact (Place.ends_mount hwf).imp (fun _ _ _ => trivial) fun _ _ h => h.2
  cases hrun : start ⟨(m.callAll cs).2, plan, {}⟩ with
  | error e m' =>
    obtain ⟨e', d', hd', he, -⟩ := halike.of_error hdevices hrun
    have heq : e' = e := he.resolve_right fun h => herror.of_eq_error hrun _ h.1
    exact .inl ⟨e, m', d', rfl, heq ▸ hd'⟩
  | ok p m' =>
    obtain ⟨d', hd', h'⟩ := halike.of_ok hdevices hrun
    have hsessions : Mirrors ⟨m', p⟩ ⟨d', p⟩ := ⟨h', rfl⟩
    refine .inr ⟨p, m', d', rfl, hd', fun rs => ⟨?_, ?_, (hsessions.serveAll rs).exists_unmount⟩⟩
    · exact fun r => ((hsessions.serveAll rs).serve r).1
    · intro hfresh
      have hspot : start = Place.format g ∨ start = Place.mount g ∧ cs = [] := by
        rcases hfresh with h | h
        · exact .inl h
        · exact hstart.imp_right fun hmount => ⟨hmount, h⟩
      obtain ⟨z, hz⟩ := exists_at_of_start hwf hm hspot hrun
      exact hz.serveAll_eq hsessions rs

/-- Blocks of 64 bytes, with a block written and the image opened again in between. -/
theorem answers_eq_of_new_reopened : ∃ m d : Store, Store.inMemory 64 8 = .ok m ∧
    Store.create .absent 64 8 = .ok d ∧
    let cs : List Store.Call := [.allocate, .write 2 (List.replicate 64 7), .reopen]
    ((d.callAll cs).2.call (.read 2)).1 = ((m.callAll cs).2.call (.read 2)).1 := by
  obtain ⟨m, hm⟩ : ∃ m, Store.inMemory 64 8 = .ok m := ⟨_, rfl⟩
  obtain ⟨d, hd⟩ : ∃ d, Store.create .absent 64 8 = .ok d := ⟨_, rfl⟩
  obtain ⟨hcalls, -⟩ := answers_eq_of_new (by decide) (by decide) hm hd
  refine ⟨m, d, hm, hd, (hcalls _ (.read 2)).resolve_right fun h => ?_⟩
  exact absurd h.1 (by decide)

end Session
end BlockFS
