/-
Sessions without failures answer like trees.

A session shows a cursor if it works at a spot with that cursor, and it shows in how many
blocks the tree has to find room: those that it takes up and those that are free.  One
operation takes a session that shows a cursor to one that shows what `Cursor.perform` makes
of it (`Shows.run`).  The room stays the same, as no block is leaked.
-/
import BlockFS.Proofs.Sessions

namespace BlockFS
namespace Session

/-- A session stands for a tree that is seen from the directory of the cursor.  The tree may
take up `room` blocks, and those that it does not take up are free. -/
def Shows (u : Session) (room : Nat) (c : Cursor) : Prop :=
  ∃ z : Spot, u.At z ∧ z.cursor = c ∧
    u.device.store.freeCount + c.whole.blockCount u.place.geometry = room

variable {u : Session} {z : Spot} {room : Nat} {c : Cursor}

theorem At.room_eq (h : u.At z) :
    u.device.store.freeCount + z.cursor.whole.blockCount u.place.geometry = u.room z := by
  rw [z.whole_cursor, h.sound.stored.blockCount_tree h.serves h.sound.inUse]
  rfl

theorem At.shows (h : u.At z) : u.Shows (u.room z) z.cursor := ⟨z, h, rfl, h.room_eq⟩

theorem Leads.plan_never {v : Session} {z' : Spot} (h : u.Leads z v z')
    (hplan : u.device.plan = .never) : v.device.plan = .never :=
  h.kept.plan.trans hplan

theorem Leads.failed_eq {v : Session} {z' : Spot} (h : u.Leads z v z')
    (hplan : u.device.plan = .never) :
    v.device.calls.failedReleases = u.device.calls.failedReleases := by
  by_contra hne
  obtain ⟨k, hk⟩ := h.kept.failed hne
  rw [hplan] at hk
  cases hk

theorem Leads.shows {v : Session} {z' : Spot} (h : u.Leads z v z') (hz : u.At z)
    (hplan : u.device.plan = .never) : v.Shows (u.room z) z'.cursor := by
  have hroom : v.room z' = u.room z :=
    h.kept.room_eq hz.serves.wellFormed hz.sound (h.failed_eq hplan)
  rw [← hroom]
  exact h.spot.shows

theorem not_interrupts_of_never {d : Device} (hplan : d.plan = .never) {access : Access}
    {e : Error} : ¬ d.Interrupts access e := by
  intro h
  obtain ⟨b, k, -, hk⟩ := h
  rw [hplan] at hk
  cases hk

theorem At.check_never (h : u.At z) (hplan : u.device.plan = .never) :
    u.check.1 = .ok (z.whole.report u.device.store) ∧ u.device.Untouched u.check.2.device := by
  have hends := Check.ends_run h.serves.blockSize_pos h.serves.wellFormed
  have herror := Check.ends_run_of_consistent (d := u.device) h.serves.blockSize_pos
    h.serves.wellFormed h.sound.consistent
  rw [Session.check_eq]
  cases hrun : Check.run u.place.geometry u.device with
  | ok r d =>
    obtain ⟨hd, l, hl, rfl⟩ := hends.of_eq_ok hrun
    obtain rfl := h.sound.unique hl
    exact ⟨rfl, hd⟩
  | error fault d =>
    obtain ⟨e, -, he⟩ := herror.of_eq_error hrun
    exact absurd he (not_interrupts_of_never hplan)

theorem At.leads_check (h : u.At z) (hplan : u.device.plan = .never) : u.Leads z u.check.2 z := by
  have hd := (h.check_never hplan).2
  have hplace : u.check.2.place = u.place := by
    rw [Session.check_eq]
    cases Check.run u.place.geometry u.device <;> rfl
  refine ⟨⟨?_, ?_, ?_⟩, congrArg Place.geometry hplace, .untouched h.serves.wellFormed h.sound hd⟩
  · rw [hd.store, hplace]
    exact h.serves
  · rw [hd.store, hplace]
    exact h.sound
  · rw [hplace]
    exact h.dir

/-- An operation is carried out as it is at the cursor, or fails as it does there and does
nothing. -/
theorem At.run_never (h : u.At z) (hplan : u.device.plan = .never) (op : Operation) :
    (∃ a z', (u.run op).1 = .ok a ∧ u.Leads z (u.run op).2 z' ∧
      z'.whole = z.laidOut u.place.geometry u.device.store.freeBlocks op ∧
      z.cursor.step u.place.geometry (u.room z) op = .ok (a.reply, z'.cursor)) ∨
    ∃ e, (u.run op).1 = .error e ∧ u.Leads z (u.run op).2 z ∧
      z.cursor.step u.place.geometry (u.room z) op = .error e := by
  cases hrun : (u.run op).1 with
  | ok a =>
    obtain ⟨z', hleads, hwhole, hstep⟩ := h.run_ok hrun
    exact .inl ⟨a, z', rfl, hleads, hwhole, hstep⟩
  | error e =>
    have hne : ∀ access, ¬ u.device.Interrupts access e :=
      fun access => not_interrupts_of_never hplan
    rcases h.run_error hrun with ⟨hleads, hcause⟩ | ⟨-, he, -⟩
    · have hstep := hcause.resolve_right fun h => h.elim (hne .read) (hne .write)
      exact .inr ⟨e, rfl, hleads, hstep⟩
    · exact (hne .release he).elim

/-- An operation answers what it answers at the cursor, and leaves the session where it leaves
the cursor. -/
theorem Shows.run (h : u.Shows room c) (hplan : u.device.plan = .never) (op : Operation) :
    (u.run op).1.map Answer.reply = (c.perform u.place.geometry room op).1 ∧
      (u.run op).2.Shows room (c.perform u.place.geometry room op).2 ∧
      (u.run op).2.device.plan = .never ∧ (u.run op).2.place.geometry = u.place.geometry := by
  obtain ⟨z, hz, rfl, hroom⟩ := h
  rw [hz.room_eq] at hroom
  subst hroom
  unfold Cursor.perform
  rcases hz.run_never hplan op with ⟨a, z', hrun, hleads, -, hstep⟩ | ⟨e, hrun, hleads, hstep⟩
  · rw [hrun, hstep]
    exact ⟨rfl, hleads.shows hz hplan, hleads.plan_never hplan, hleads.geometry⟩
  · rw [hrun, hstep]
    exact ⟨rfl, hleads.shows hz hplan, hleads.plan_never hplan, hleads.geometry⟩

theorem Shows.runAll (h : u.Shows room c) (hplan : u.device.plan = .never)
    (ops : List Operation) :
    (u.runAll ops).1.map (Except.map Answer.reply) =
        (c.performAll u.place.geometry room ops).1 ∧
      (u.runAll ops).2.Shows room (c.performAll u.place.geometry room ops).2 := by
  induction ops generalizing u c with
  | nil => exact ⟨rfl, h⟩
  | cons op ops ih =>
    obtain ⟨hreply, hshows, hplan', hgeometry⟩ := h.run hplan op
    obtain ⟨hreplies, hrest⟩ := ih hshows hplan'
    rw [hgeometry] at hreplies hrest
    refine ⟨?_, hrest⟩
    show ((u.run op).1.map Answer.reply) :: ((u.run op).2.runAll ops).1.map _ = _
    rw [hreply, hreplies]
    rfl

/-- A session that the check accepts answers any requests as a tree does that may take up so many
blocks, and goes on standing for that tree, if no call to the store fails. -/
theorem runAll_eq_performAll (h : u.Intact) (hplan : u.device.plan = .never) :
    ∃ (room : Nat) (c : Cursor), u.Shows room c ∧ ∀ ops : List Operation,
      (u.runAll ops).1.map (Except.map Answer.reply) =
          (c.performAll u.place.geometry room ops).1 ∧
        (u.runAll ops).2.Shows room (c.performAll u.place.geometry room ops).2 := by
  obtain ⟨z, hz⟩ := h.exists_spot
  exact ⟨u.room z, z.cursor, hz.shows, hz.shows.runAll hplan⟩

/-- The first three bytes of the file move into a new block together with the fourth one.  Their old
block is free then, and the next to be taken; after that there is none. -/
theorem runAll_eq_performAll_leaky : leaky.Intact ∧ leaky.device.plan = .never ∧
    let ops : List Operation := [.append "f" [100, 101], .read "f" 8, .enter (some "d"),
      .makeDirectory "e", .list, .createFile "g"]
    ∃ (room : Nat) (c : Cursor), leaky.Shows room c ∧
      (leaky.runAll ops).1.map (Except.map Answer.reply) =
        (c.performAll leaky.place.geometry room ops).1 ∧
      (leaky.runAll ops).2.Shows room (c.performAll leaky.place.geometry room ops).2 ∧
      (c.performAll leaky.place.geometry room ops).1 =
        [.ok .done, .ok (.contents [97, 98, 99, 100, 101]), .ok .done, .ok .done,
          .ok (.listing ⟨["e"], []⟩), .error .diskFull] ∧
      leaky.device.store.references leaky.place.geometry 3 = [4] ∧
      (leaky.runAll ops).2.device.store.references leaky.place.geometry 3 = [5, 6] ∧
      (leaky.runAll ops).2.device.store.target? 2 "e" = some 4 := by
  refine ⟨intact_leaky, rfl, ?_⟩
  intro ops
  obtain ⟨room, c, hshows, hall⟩ := runAll_eq_performAll intact_leaky rfl
  obtain ⟨hreplies, hafter⟩ := hall ops
  obtain ⟨hruns, hbefore, hmoved, htaken⟩ :
      (leaky.runAll ops).1.map (Except.map Answer.reply) =
          [.ok .done, .ok (.contents [97, 98, 99, 100, 101]), .ok .done, .ok .done,
            .ok (.listing ⟨["e"], []⟩), .error .diskFull] ∧
        leaky.device.store.references leaky.place.geometry 3 = [4] ∧
        (leaky.runAll ops).2.device.store.references leaky.place.geometry 3 = [5, 6] ∧
        (leaky.runAll ops).2.device.store.target? 2 "e" = some 4 := by decide +kernel
  exact ⟨room, c, hshows, hreplies, hafter, hreplies.symm.trans hruns, hbefore, hmoved, htaken⟩

/-- Without a free block there is no room for a directory, although nothing else is in its way. -/
theorem run_makeDirectory_diskFull : ∃ (s : Store) (d : Device),
    Store.inMemory 4096 2 = .ok s ∧
      Place.format {} (Device.ofStore s) = .ok ⟨{}, rootBlock⟩ d ∧
      Intact ⟨d, ⟨{}, rootBlock⟩⟩ ∧ d.plan = .never ∧ Shows ⟨d, ⟨{}, rootBlock⟩⟩ 1 ⟨[], []⟩ ∧
      (run ⟨d, ⟨{}, rootBlock⟩⟩ (.makeDirectory "a")).1 = .error .diskFull ∧
      (Cursor.perform {} 2 ⟨[], []⟩ (.makeDirectory "a")).1 = .ok .done := by
  obtain ⟨s, hs⟩ : ∃ s, Store.inMemory 4096 2 = .ok s := ⟨_, rfl⟩
  obtain ⟨d, hd, hplan, hblocks, hat⟩ := exists_format_of_inMemory hs (by decide)
  have hfree : d.store.freeCount = 0 := by
    have hcount : d.store.freeCount + 1 + (d.store.leaks [rootBlock]).length + 1 =
        d.store.blockCount :=
      hat.serves.wellFormed.freeCount_add_leaks hat.sound.nodup hat.sound.inUse
    omega
  have hshows : Shows ⟨d, ⟨{}, rootBlock⟩⟩ 1 ⟨[], []⟩ := by
    refine ⟨_, hat, rfl, ?_⟩
    rw [hfree]
    rfl
  have hreply := (hshows.run hplan (.makeDirectory "a")).1
  have hfull : (Cursor.perform {} 1 ⟨[], []⟩ (.makeDirectory "a")).1 = .error .diskFull := rfl
  rw [hfull] at hreply
  refine ⟨s, d, hs, hd, hat.intact, hplan, hshows, ?_, rfl⟩
  cases hrun : (run ⟨d, ⟨{}, rootBlock⟩⟩ (.makeDirectory "a")).1 with
  | ok a =>
    rw [hrun] at hreply
    cases hreply
  | error e =>
    rw [hrun] at hreply
    cases hreply
    rfl

end Session
end BlockFS
