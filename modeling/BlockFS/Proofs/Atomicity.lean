/-
Operations are carried out in full or not at all, whichever of their calls fail.

Before the one write that commits an operation nothing of the tree has changed, and after it
only blocks are freed.  So an error leaves the tree as it was, except for that of a release:
there the operation has been carried out.  What a rollback runs into is not reported.
-/
import BlockFS.Proofs.ReadBack
import BlockFS.Proofs.Refinement

namespace BlockFS

namespace Session

variable {u : Session} {z : Spot} {room : Nat} {c : Cursor}

theorem At.healed (h : u.At z) : u.healed.At z := h.withPlan .never

theorem At.holds (h : u.At z) : u.device.store.Holds u.place.geometry z.cursor.whole :=
  z.whole_cursor ▸ h.sound.holds h.serves

theorem Leads.holds {v : Session} {z' : Spot} (h : u.Leads z v z') :
    v.device.store.Holds u.place.geometry z'.cursor.whole :=
  h.geometry ▸ h.spot.holds

theorem Shows.holds (h : u.Shows room c) : u.device.store.Holds u.place.geometry c.whole := by
  obtain ⟨z, hz, rfl, -⟩ := h
  exact hz.holds

/-- Without the failing releases, an operation fails in the same way if it does not fail by one
of them. -/
theorem run_reliable {op : Operation} {e : Error} (hrun : (u.run op).1 = .error e)
    (he : ¬ e.IsRelease) : (u.reliable.run op).1 = .error e := by
  have hend := op.unaffected_perform u.place u.device
  rw [run_eq] at hrun ⊢
  cases hp : op.perform u.place u.device with
  | ok x d =>
    rw [hp] at hrun
    cases hrun
  | error e' d =>
    rw [hp] at hrun
    cases hrun
    obtain ⟨d', hd'⟩ := (hend.of_eq_error hp).resolve_left he
    have hp' : op.perform u.reliable.place u.reliable.device = .error e d' := hd'
    rw [hp']

theorem not_isRelease_of_interrupts {d : Device} {access : Access} {e : Error}
    (h : d.Interrupts access e) (hne : access ≠ .release) : ¬ e.IsRelease := by
  obtain ⟨b, k, rfl, -⟩ := h
  intro h
  obtain ⟨b', he⟩ := h
  cases he
  exact hne rfl

/-- Whichever calls fail, the tree that is read back afterwards is the one from before or the
one that the operation makes without failures.  It is the latter after a result or the error
of a release, and the former after any other error, which is that of the operation with all
releases going well. -/
theorem run_atomic (h : u.Intact) (op : Operation) : ∃ before after : Tree,
    u.device.store.Holds u.place.geometry before ∧
      (u.healed.run op).2.device.store.Holds u.place.geometry after ∧
      ((u.run op).2.device.store.Holds u.place.geometry before ∨
        (u.run op).2.device.store.Holds u.place.geometry after) ∧
      match (u.run op).1 with
      | .ok _ => (u.run op).2.device.store.Holds u.place.geometry after
      | .error e =>
        (¬ e.IsRelease → (u.run op).2.device.store.Holds u.place.geometry before ∧
          (u.reliable.run op).1 = .error e) ∧
        (e.IsRelease → op.frees = true ∧
          (u.run op).2.device.store.Holds u.place.geometry after) := by
  obtain ⟨z, hz⟩ := h.exists_spot
  obtain ⟨-, hhealed, -, hgeometry⟩ := hz.healed.shows.run rfl op
  have hafter := hhealed.holds
  rw [hgeometry] at hafter
  refine ⟨z.cursor.whole, _, hz.holds, hafter, ?_⟩
  -- The healed session has the same room, so its operation makes the same tree.
  have hmade : ∀ {reply : Reply} {z' : Spot}, u.Leads z (u.run op).2 z' →
      z.cursor.step u.place.geometry (u.room z) op = .ok (reply, z'.cursor) →
      (u.run op).2.device.store.Holds u.place.geometry
        (z.cursor.perform u.place.geometry (u.room z) op).2.whole := by
    intro reply z' hleads hstep
    rw [Cursor.perform_of_step hstep]
    exact hleads.holds
  cases hrun : (u.run op).1 with
  | ok a =>
    obtain ⟨z', hleads, -, hstep⟩ := hz.run_ok hrun
    exact ⟨.inr (hmade hleads hstep), hmade hleads hstep⟩
  | error e =>
    rcases hz.run_error hrun with
      ⟨hleads, hcause⟩ | ⟨hfrees, ⟨b, k, rfl, -⟩, reply, z', hleads, hstep⟩
    · have hne : ¬ e.IsRelease := by
        rcases hcause with hstep | he | he
        · intro h
          obtain ⟨b, rfl⟩ := h
          exact Cursor.step_ne_io hstep
        · exact not_isRelease_of_interrupts he (by decide)
        · exact not_isRelease_of_interrupts he (by decide)
      exact ⟨.inl hleads.holds, fun _ => ⟨hleads.holds, run_reliable hrun hne⟩,
        fun he => (hne he).elim⟩
    · exact ⟨.inr (hmade hleads hstep), fun hne => (hne ⟨b, rfl⟩).elim,
        fun _ => ⟨hfrees, hmade hleads hstep⟩⟩

theorem run_atomic_interrupted : ∃ (s : Store) (d : Device) (u : Session) (before after : Tree),
    Store.inMemory 4096 4 = .ok s ∧
      Place.format {} (Device.ofStore s) = .ok ⟨{}, rootBlock⟩ d ∧
      u = ⟨d.withPlan (.after none (some 1) (some 0)), ⟨{}, rootBlock⟩⟩ ∧
      u.device.store.Holds {} before ∧
      (u.healed.run (.makeDirectory "a")).2.device.store.Holds {} after ∧
      ((u.run (.makeDirectory "a")).2.device.store.Holds {} before ∨
        (u.run (.makeDirectory "a")).2.device.store.Holds {} after) := by
  obtain ⟨s, hs⟩ : ∃ s, Store.inMemory 4096 4 = .ok s := ⟨_, rfl⟩
  obtain ⟨d, hd, -, -, hat⟩ := exists_format_of_inMemory hs (by decide)
  have hu : Intact ⟨d.withPlan (.after none (some 1) (some 0)), ⟨{}, rootBlock⟩⟩ :=
    (hat.withPlan _).intact
  obtain ⟨before, after, hbefore, hafter, heither, -⟩ := run_atomic hu (.makeDirectory "a")
  exact ⟨s, d, _, before, after, hs, hd, rfl, hbefore, hafter, heither⟩

end Session
end BlockFS
