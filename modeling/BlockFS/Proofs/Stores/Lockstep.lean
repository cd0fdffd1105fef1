/-
Images that only block 0 tells apart cannot be told apart by what a filesystem answers.

No operation reads block 0 or writes to it: a call that tries to ends in the same error on any
image.  So two sessions on such images, none of whose calls is made to fail, give the same
outcomes and stay on such images (`Session.Lockstep.serve`), and so do two shells
(`Session.Lockstep.unlimited`).  How many calls have been made before is of no account.
-/
import BlockFS.Proofs.Shell.Persistence

namespace BlockFS

/-! ## Calls -/

namespace Store.SameBlocks

variable {s t : Store}

theorem write (h : s.SameBlocks t) (b : BlockNumber) (contents : Bytes) :
    (∃ fault, s.write b contents = .error fault ∧ t.write b contents = .error fault) ∨
      ∃ s' t', s.write b contents = .ok s' ∧ t.write b contents = .ok t' ∧ s'.SameBlocks t' := by
  rw [write_eq s, write_eq t, h.position_eq, h.blockLen]
  split
  · exact .inl ⟨_, rfl, rfl⟩
  cases s.position b with
  | error fault => exact .inl ⟨fault, rfl, rfl⟩
  | ok pos =>
    refine .inr ⟨_, _, rfl, rfl, h.medium, rfl, h.bitmap, ?_, ?_⟩
    · show (t.image.write pos contents).size = (s.image.write pos contents).size
      rw [Image.size_write, Image.size_write, h.size]
    · intro i hi
      show (t.image.write pos contents).byteAt i = (s.image.write pos contents).byteAt i
      rw [Image.byteAt_write, Image.byteAt_write, h.byteAt_ge i hi]

theorem of_bitmap (h : s.SameBlocks t) (m : Bitmap) :
    SameBlocks ⟨s.medium, s.blockLen, m, s.image⟩ ⟨t.medium, t.blockLen, m, t.image⟩ :=
  ⟨h.medium, h.blockLen, rfl, h.size, h.byteAt_ge⟩

theorem allocate (h : s.SameBlocks t) :
    (s.allocate = none ∧ t.allocate = none) ∨
      ∃ b s' t', s.allocate = some (b, s') ∧ t.allocate = some (b, t') ∧ s'.SameBlocks t' := by
  rw [allocate_eq s, allocate_eq t, h.bitmap]
  cases s.bitmap.allocate with
  | none => exact .inl ⟨rfl, rfl⟩
  | some p => exact .inr ⟨p.1, _, _, rfl, rfl, h.of_bitmap p.2⟩

theorem release (h : s.SameBlocks t) (b : BlockNumber) :
    (∃ fault, s.release b = .error fault ∧ t.release b = .error fault) ∨
      ∃ s' t', s.release b = .ok s' ∧ t.release b = .ok t' ∧ s'.SameBlocks t' := by
  rw [release_eq s, release_eq t, h.bitmap]
  cases s.bitmap.release b with
  | error fault => exact .inl ⟨_, rfl, rfl⟩
  | ok m => exact .inr ⟨_, _, rfl, rfl, h.of_bitmap m⟩

end Store.SameBlocks

namespace Device

/-- Two devices with such stores, no call to which is made to fail. -/
structure Lockstep (d d' : Device) : Prop where
  store : d.store.SameBlocks d'.store
  plan : d.plan = .never
  plan' : d'.plan = .never

theorem alike_of_stores {α : Type} {act : Action α}
    (h : ∀ (s s' : Store) (calls calls' : Calls), s.SameBlocks s' →
      Ends (act ⟨s, .never, calls⟩)
        (fun a d => ∃ d', act ⟨s', .never, calls'⟩ = .ok a d' ∧ d.Lockstep d')
        (fun e d => ∃ d', act ⟨s', .never, calls'⟩ = .error e d' ∧ d.Lockstep d')) :
    Alike (fun _ => Error.reserved .disk) Lockstep act := by
  intro d d' hd
  obtain ⟨s, plan, calls⟩ := d
  obtain ⟨s', plan', calls'⟩ := d'
  obtain ⟨hstore, rfl, rfl⟩ := hd
  refine (h s s' calls calls' hstore).imp (fun _ _ h => h) fun e d herr => ?_
  obtain ⟨d', hd', hlock⟩ := herr
  exact ⟨e, d', hd', .inl rfl, hlock⟩

theorem callsAlike_lockstep : CallsAlike (fun _ => Error.reserved .disk) Lockstep where
  blockLen := alike_of_stores fun s s' calls calls' hstore =>
    ⟨⟨s', .never, calls'⟩, congrArg (EStateM.Result.ok · _) hstore.blockLen, hstore, rfl, rfl⟩
  readBytes b := alike_of_stores fun s s' calls calls' hstore => by
    simp only [readBytes, FaultPlan.never, Bool.false_eq_true, if_false]
    rw [hstore.read_eq]
    cases s.read b <;> exact ⟨_, rfl, hstore, rfl, rfl⟩
  writeBytes b contents := alike_of_stores fun s s' calls calls' hstore => by
    simp only [writeBytes, FaultPlan.never, Bool.false_eq_true, if_false]
    rcases hstore.write b contents with ⟨fault, hs, hs'⟩ | ⟨t, t', hs, hs', ht⟩
    · rw [hs, hs']
      exact ⟨_, rfl, hstore, rfl, rfl⟩
    · rw [hs, hs']
      exact ⟨_, rfl, ht, rfl, rfl⟩
  allocate := alike_of_stores fun s s' calls calls' hstore => by
    simp only [allocate]
    rcases hstore.allocate with ⟨hs, hs'⟩ | ⟨b, t, t', hs, hs', ht⟩
    · rw [hs, hs']
      exact ⟨_, rfl, hstore, rfl, rfl⟩
    · rw [hs, hs']
      exact ⟨_, rfl, ht, rfl, rfl⟩
  release b := alike_of_stores fun s s' calls calls' hstore => by
    simp only [release, FaultPlan.never, Bool.false_eq_true, if_false]
    rcases hstore.release b with ⟨fault, hs, hs'⟩ | ⟨t, t', hs, hs', ht⟩
    · rw [hs, hs']
      exact ⟨_, rfl, hstore, rfl, rfl⟩
    · rw [hs, hs']
      exact ⟨_, rfl, ht, rfl, rfl⟩

end Device

/-! ## Sessions -/

/-- If block 0 is spoken of in the same way on both sides, the errors are the same. -/
theorem SameUpTo.eq_of_const {ε : Type} {reserved e e' : ε}
    (h : SameUpTo (fun _ => reserved) e e') : e' = e :=
  h.elim id fun h => h.2.trans h.1.symm

namespace Session

variable {u v : Session} {prompt : Option String}

/-- Two sessions at the same place, on such devices. -/
structure Lockstep (u v : Session) : Prop where
  device : u.device.Lockstep v.device
  place : v.place = u.place

namespace Lockstep

theorem serve (h : u.Lockstep v) {r : Request} (hr : r ≠ .remount) :
    (v.serve r).1 = (u.serve r).1 ∧ (u.serve r).2.Lockstep (v.serve r).2 := by
  obtain ⟨d, p⟩ := u
  obtain ⟨d', p'⟩ := v
  obtain ⟨hdevice, rfl⟩ := h
  dsimp only at hdevice
  cases r with
  | perform op =>
    have halike := (op.built_perform p').alike_of Device.callsAlike_lockstep
    simp only [Session.serve, run_eq]
    cases hd : op.perform p' d with
    | ok x d₁ =>
      obtain ⟨d₁', hd', h'⟩ := halike.of_ok hdevice hd
      rw [hd']
      exact ⟨rfl, h', rfl⟩
    | error e d₁ =>
      obtain ⟨e', d₁', hd', he, h'⟩ := halike.of_error hdevice hd
      rw [hd', he.eq_of_const]
      exact ⟨rfl, h', rfl⟩
  | check =>
    have halike := Check.alike_run_of Device.callsAlike_lockstep
      (fun _ _ h => h.store.bitmap) p'.geometry
    simp only [Session.serve, Session.check_eq]
    cases hd : Check.run p'.geometry d with
    | ok x d₁ =>
      obtain ⟨d₁', hd', h'⟩ := halike.of_ok hdevice hd
      rw [hd']
      exact ⟨rfl, h', rfl⟩
    | error e d₁ =>
      obtain ⟨e', d₁', hd', he, h'⟩ := halike.of_error hdevice hd
      rw [hd', he.eq_of_const]
      exact ⟨rfl, h', rfl⟩
  | usage =>
    have husage : d'.store.usage = d.store.usage := by
      unfold Store.usage Store.freeCount
      rw [hdevice.store.blockLen, hdevice.store.blockCount, hdevice.store.bitmap]
    exact ⟨congrArg Outcome.usage husage, hdevice, rfl⟩
  | remount => exact absurd rfl hr

theorem respond (h : u.Lockstep v) (line : Bytes) :
    (v.respond line).1 = (u.respond line).1 ∧ (u.respond line).2.Lockstep (v.respond line).2 := by
  rw [respond_eq, respond_eq]
  cases hr : requestOf line with
  | error response => exact ⟨rfl, h⟩
  | ok r =>
    obtain ⟨houtcome, hnext⟩ := h.serve fun heq => requestOf_ne_remount line (heq ▸ hr)
    exact ⟨congrArg Response.ofOutcome houtcome, hnext⟩

/-- Two such shells write the same. -/
theorem unlimited (h : u.Lockstep v) (prompt : Option String) (lines : List Bytes) :
    v.transcript prompt lines = u.transcript prompt lines ∧
      (u.unlimited prompt lines).session.Lockstep (v.unlimited prompt lines).session := by
  induction lines generalizing u v with
  | nil =>
    rw [(unlimited_nil u prompt).1, (unlimited_nil u prompt).2, (unlimited_nil v prompt).1,
      (unlimited_nil v prompt).2]
    exact ⟨rfl, h⟩
  | cons line lines ih =>
    obtain ⟨hresponse, hnext⟩ := h.respond line
    have hexchange : v.exchange prompt line = u.exchange prompt line := by
      unfold exchange
      rw [hresponse]
    by_cases hleave : LeavesShell line
    · obtain ⟨hu, hu'⟩ := unlimited_of_leaves u prompt hleave lines
      obtain ⟨hv, hv'⟩ := unlimited_of_leaves v prompt hleave lines
      rw [hu, hu', hv, hv']
      exact ⟨hexchange, hnext⟩
    · obtain ⟨hu, hu'⟩ := unlimited_of_not_leaves u prompt hleave lines
      obtain ⟨hv, hv'⟩ := unlimited_of_not_leaves v prompt hleave lines
      obtain ⟨htranscript, hrest⟩ := ih hnext
      rw [hu, hu', hv, hv', hexchange, htranscript]
      exact ⟨rfl, hrest⟩

end Lockstep

end Session
end BlockFS
