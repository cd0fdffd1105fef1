/-
Blocks that an operation occupies and gives back.

`Occupies` follows the pending blocks through the steps of an operation: they are exactly
the blocks that have come into use.  Giving them back therefore leads back to where the
operation began, but for blocks that could not be freed, and there are none of these unless
a release has failed (`ends_atomically`).
-/
import BlockFS.Proofs.Calls

namespace BlockFS

/-- The blocks in use are as they were, apart from some that have come into use and are there
only because a release was made to fail. -/
structure Device.Reverts (d d' : Device) : Prop extends d.Later d' where
  store : ∃ stuck, d.store.Extends d'.store stuck ∧
    (d'.calls.failedReleases = d.calls.failedReleases → stuck = [])

namespace Transaction

/-! ## Pending blocks -/

/-- The blocks that have come into use are pending, the latest first.  They were the first
free ones. -/
structure Occupies (t t' : Transaction) (new : List BlockNumber) : Prop where
  pending : t'.pending = new.reverse ++ t.pending
  steady : t.device.Steady t'.device
  extends_store : t.device.store.Extends t'.device.store new
  free : t.device.store.freeBlocks = new ++ t'.device.store.freeBlocks

namespace Occupies

variable {t t' t'' : Transaction} {new more : List BlockNumber}

theorem refl (hs : t.device.store.WellFormed) : Occupies t t [] :=
  ⟨rfl, .refl _, .refl hs, rfl⟩

theorem trans (h : Occupies t t' new) (h' : Occupies t' t'' more) : Occupies t t'' (new ++ more)
    where
  pending := by rw [h'.pending, h.pending, List.reverse_append, List.append_assoc]
  steady := h.steady.trans h'.steady
  extends_store := h.extends_store.trans h'.extends_store
  free := by rw [h.free, h'.free, List.append_assoc]

theorem untouched (h : Occupies t t' new) (hp : t''.pending = t'.pending)
    (hd : t'.device.Untouched t''.device) : Occupies t t'' new where
  pending := hp.trans h.pending
  steady := h.steady.trans hd.toSteady
  extends_store := hd.store ▸ h.extends_store
  free := hd.store ▸ h.free

theorem rewrites (h : Occupies t t' new) (hp : t''.pending = t'.pending)
    (hd : t'.device.Steady t''.device) {b : BlockNumber} {contents : Bytes} (hb : b ∈ new)
    (hw : t'.device.store.Rewrites t''.device.store b contents) : Occupies t t'' new where
  pending := hp.trans h.pending
  steady := h.steady.trans hd
  extends_store := h.extends_store.rewrites hb hw
  free := h.free.trans (by rw [Store.freeBlocks_congr hw.bitmap])

theorem inUse (h : Occupies t t' new) {b : BlockNumber} (hb : b ∈ new) :
    t'.device.store.InUse b :=
  (h.extends_store.inUse_iff b).2 (.inr hb)

end Occupies

/-! ## The steps of a transaction -/

theorem ends_lift {α : Type} {act : Action α} {t : Transaction} {Q : α → Device → Prop}
    {E : Error → Device → Prop} (h : Ends (act t.device) Q E) :
    Ends (lift act t) (fun a t' => t'.pending = t.pending ∧ Q a t'.device)
      (fun e t' => t'.pending = t.pending ∧ E e t'.device) := by
  obtain ⟨d, pending⟩ := t
  simp only [lift]
  cases hact : act d with
  | ok a d' => exact ⟨rfl, h.of_eq_ok hact⟩
  | error e d' => exact ⟨rfl, h.of_eq_error hact⟩

theorem ends_allocate {t : Transaction} (hs : t.device.store.WellFormed) :
    Ends (allocate t) (fun b t' => Occupies t t' [b])
      (fun e t' => e = .diskFull ∧ t.device.store.freeCount = 0 ∧ t' = t) := by
  obtain ⟨⟨store, plan, calls⟩, pending⟩ := t
  simp only [allocate, Device.allocate]
  cases ha : store.allocate with
  | none => exact ⟨rfl, Store.freeCount_of_allocate ha, rfl⟩
  | some p =>
    obtain ⟨b, store'⟩ := p
    exact ⟨rfl, ⟨rfl, rfl⟩, Store.WellFormed.allocate hs ha, Store.freeBlocks_of_allocate ha⟩

/-- Byte strings are stored in new blocks, in their order.  Short of blocks, the disk is
full. -/
theorem ends_storeEach {t : Transaction} {pieces : List Bytes} (hs : t.device.store.WellFormed)
    (hlen : ∀ piece ∈ pieces, piece.length ≤ t.device.store.blockLen) :
    Ends (storeEach pieces t)
      (fun _ t' => ∃ new, Occupies t t' new ∧
        new.map t'.device.store.bytes = pieces.map (Bytes.padTo t.device.store.blockLen))
      (fun e t' => (e = .diskFull ∧ t.device.store.freeCount < pieces.length ∨
        t.device.Interrupts .write e) ∧ ∃ new, Occupies t t' new) := by
  induction pieces generalizing t with
  | nil => exact ⟨[], .refl hs, rfl⟩
  | cons piece pieces ih =>
    obtain ⟨hpiece, hpieces⟩ := List.forall_mem_cons.1 hlen
    refine (ends_allocate hs).bind ?_ ?_
    · intro e t' herr
      obtain ⟨rfl, hfull, rfl⟩ := herr
      exact ⟨.inl ⟨rfl, by rw [hfull]; exact Nat.succ_pos _⟩, [], .refl hs⟩
    intro b t₁ h₁
    have hb : b ∈ [b] := List.mem_cons_self
    have hlen₁ : t₁.device.store.blockLen = t.device.store.blockLen := h₁.extends_store.blockLen
    have hread : Ends (Device.blockLen t₁.device)
        (fun n d => n = t.device.store.blockLen ∧ d = t₁.device) (fun _ _ => False) :=
      ⟨hlen₁, rfl⟩
    refine (ends_lift hread).bind (fun _ _ h => h.2.elim) ?_
    intro n t₂ hres
    obtain ⟨hp₂, rfl, hd₂⟩ := hres
    rw [← hd₂] at hlen₁
    have h₂ : Occupies t t₂ [b] := h₁.untouched hp₂ (hd₂ ▸ .refl _)
    have hpad : (Bytes.padTo t.device.store.blockLen piece).length = t₂.device.store.blockLen :=
      (Bytes.length_padTo hpiece).trans hlen₁.symm
    refine (ends_lift (Device.ends_writeBytes h₂.extends_store.wellFormed (h₂.inUse hb)
      hpad)).bind ?_ ?_
    · intro e t₃ herr
      obtain ⟨hp₃, he, hd₃⟩ := herr
      exact ⟨.inr (he.of_plan h₂.steady.plan), [b], h₂.untouched hp₃ hd₃⟩
    intro _ t₃ hres
    obtain ⟨hp₃, hw, hd₃⟩ := hres
    have h₃ : Occupies t t₃ [b] := h₂.rewrites hp₃ hd₃ hb hw
    have hlen₃ : t₃.device.store.blockLen = t.device.store.blockLen := h₃.extends_store.blockLen
    have hfree := h₃.extends_store.freeCount hs
    refine (ih h₃.extends_store.wellFormed fun p hp => hlen₃ ▸ hpieces p hp).imp ?_ ?_
    · intro _ t' hres
      obtain ⟨new, h', hbytes⟩ := hres
      refine ⟨[b] ++ new, h₃.trans h', ?_⟩
      have hfirst : t'.device.store.bytes b = Bytes.padTo t.device.store.blockLen piece :=
        (h'.extends_store.bytes b (h₃.inUse hb)).trans hw.bytes_self
      rw [List.singleton_append, List.map_cons, List.map_cons, hfirst, hbytes, hlen₃]
    · intro e t' herr
      obtain ⟨hcause, new, h'⟩ := herr
      refine ⟨?_, [b] ++ new, h₃.trans h'⟩
      rcases hcause with ⟨rfl, hfull⟩ | he
      · have hfree : t₃.device.store.freeCount + 1 = t.device.store.freeCount := hfree
        exact .inl ⟨rfl, by rw [List.length_cons]; omega⟩
      · exact .inr (he.of_plan h₃.steady.plan)

/-! ## Rolling back -/

/-- Of the new blocks `new ++ rest`, the first ones are given back, except for those that
could not be freed. -/
theorem rollBack_spec {s : Store} {d : Device} {new rest : List BlockNumber}
    (h : s.Extends d.store (new ++ rest)) :
    d.Later (rollBack new d) ∧
      ∃ stuck, s.Extends (rollBack new d).store (stuck ++ rest) ∧
        ((rollBack new d).calls.failedReleases = d.calls.failedReleases → stuck = []) := by
  induction new generalizing d rest with
  | nil => exact ⟨(Device.Steady.refl d).later, [], h, fun _ => rfl⟩
  | cons b new ih =>
    have hb : d.store.InUse b := (h.inUse_iff b).2 (.inr List.mem_cons_self)
    have hroot : b ≠ rootBlock := by
      intro heq
      subst heq
      exact h.fresh _ List.mem_cons_self s.inUse_rootBlock
    have hend := Device.ends_release h.wellFormed hb hroot
    cases hr : Device.release b d with
    | ok u d₁ =>
      have heq : rollBack (b :: new) d = rollBack new d₁ := by rw [rollBack, hr]
      rw [heq]
      obtain ⟨hgone, hsteady⟩ := hend.of_eq_ok hr
      obtain ⟨hlater, stuck, hstore, hstuck⟩ := ih (hgone.extends_of_cons h)
      rw [hsteady.failed] at hstuck
      exact ⟨hsteady.later.trans hlater, stuck, hstore, hstuck⟩
    | error e d₁ =>
      have heq : rollBack (b :: new) d = rollBack new d₁ := by rw [rollBack, hr]
      rw [heq]
      obtain ⟨⟨-, k, -, hk⟩, hstop⟩ := hend.of_eq_error hr
      have h₁ : s.Extends d₁.store (new ++ b :: rest) := by
        rw [hstop.store]
        exact h.perm List.perm_middle.symm
      obtain ⟨hlater, stuck, hstore, -⟩ := ih h₁
      have hlt := hstop.failed
      have hle := hlater.failed_le
      refine ⟨⟨hlater.plan.trans hstop.plan, by omega, fun _ => ⟨k, hk⟩⟩, b :: stuck,
        hstore.perm List.perm_middle, fun heq => ?_⟩
      omega

/-- What fails gives all blocks back, as far as that is possible, and fails as before. -/
theorem ends_atomically {α : Type} {act : Transactional α} {d : Device} {Q : α → Device → Prop}
    {E : Error → Prop}
    (h : Ends (act ⟨d, []⟩) (fun a t => Q a t.device)
      (fun e t => E e ∧ ∃ new, Occupies ⟨d, []⟩ t new)) :
    Ends (atomically act d) Q (fun e d' => E e ∧ d.Reverts d') := by
  unfold atomically
  cases hact : act ⟨d, []⟩ with
  | ok a t => exact h.of_eq_ok hact
  | error e t =>
    obtain ⟨he, new, hnew⟩ := h.of_eq_error hact
    refine ⟨he, ?_⟩
    have hpending : t.pending.reverse = new := by
      rw [hnew.pending, List.append_nil, List.reverse_reverse]
    have hstore : d.store.Extends t.device.store (new ++ []) := by
      rw [List.append_nil]
      exact hnew.extends_store
    have hsteady : d.Steady t.device := hnew.steady
    obtain ⟨hlater, stuck, hback, hstuck⟩ := rollBack_spec hstore
    rw [hsteady.failed] at hstuck
    rw [List.append_nil] at hback
    rw [hpending]
    exact ⟨hsteady.later.trans hlater, stuck, hback, hstuck⟩

end Transaction
end BlockFS
