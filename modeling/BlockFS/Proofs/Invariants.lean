/-
Invariants of actions.

`Maintains` is about an action that may start in any state with an invariant.  Invariants are
carried through transactions once for all here: what every call on the device keeps, a
transaction keeps too, the rollback included.  So an invariant that every call keeps is one of all
actions that are put together from calls (`Device.Built.maintains`).
-/
import BlockFS.Proofs.Calls
import BlockFS.Proofs.Programs

namespace BlockFS

section

variable {ε σ α β : Type}

/-- From states with `I` an action ends in states with `I`, and its value has `P`. -/
def Maintains (I : σ → Prop) (act : EStateM ε σ α) (P : α → Prop) : Prop :=
  ∀ s, I s → Ends (act s) (fun a t => I t ∧ P a) (fun _ t => I t)

namespace Maintains

variable {I : σ → Prop} {x : EStateM ε σ α} {P : α → Prop}

theorem pure {a : α} (h : P a) : Maintains I (Pure.pure a : EStateM ε σ α) P :=
  fun _ hs => ⟨hs, h⟩

theorem throw (e : ε) : Maintains I (MonadExcept.throw e : EStateM ε σ α) P := fun _ hs => hs

theorem imp {P' : α → Prop} (h : Maintains I x P) (hP : ∀ a, P a → P' a) : Maintains I x P' :=
  fun s hs => (h s hs).imp (fun _ _ ha => ⟨ha.1, hP _ ha.2⟩) fun _ _ he => he

theorem bind {f : α → EStateM ε σ β} {Q : β → Prop} (h : Maintains I x P)
    (hf : ∀ a, P a → Maintains I (f a) Q) : Maintains I (x >>= f) Q :=
  fun s hs => (h s hs).bind (fun _ _ he => he) fun a t ha => hf a ha.2 t ha.1

theorem ite {c : Prop} [Decidable c] {y : EStateM ε σ α} (hx : c → Maintains I x P)
    (hy : ¬ c → Maintains I y P) : Maintains I (if c then x else y) P := by
  split
  · next hc => exact hx hc
  · next hc => exact hy hc

end Maintains

end

/-! ## Calls -/

namespace Device

variable {α : Type} {I : Store → Prop} {b : BlockNumber}

/-- The store of the device has a property. -/
def On (I : Store → Prop) (d : Device) : Prop := I d.store

theorem On.of_eq {d d' : Device} (h : On I d) (heq : d'.store = d.store) : On I d' := by
  unfold On
  rw [heq]
  exact h

theorem maintains_readBytes (b : BlockNumber) : Maintains (On I) (readBytes b) fun _ => True := by
  intro d hd
  exact (call_readBytes b d).imp (fun _ _ h => ⟨hd.of_eq h.2.store, trivial⟩)
    fun _ _ h => hd.of_eq h.2.store

theorem maintains_writeBytes {contents : Bytes}
    (h : ∀ s t, I s → s.write b contents = .ok t → I t) :
    Maintains (On I) (writeBytes b contents) fun _ => True := by
  intro d hd
  exact (call_writeBytes b contents d).imp (fun _ _ hres => ⟨h _ _ hd hres.1, trivial⟩)
    fun _ _ herr => hd.of_eq herr.2.store

theorem maintains_allocate {P : BlockNumber → Prop}
    (h : ∀ s b t, I s → s.allocate = some (b, t) → I t ∧ P b) :
    Maintains (On I) allocate P := by
  intro d hd
  refine (call_allocate d).imp (fun b d' hres => h _ b _ hd hres.1) ?_
  rintro _ _ ⟨-, -, rfl⟩
  exact hd

theorem maintains_release (h : ∀ s t, I s → s.release b = .ok t → I t) :
    Maintains (On I) (release b) fun _ => True := by
  intro d hd
  exact (call_release b d).imp (fun _ _ hres => ⟨h _ _ hd hres.1, trivial⟩)
    fun _ _ herr => hd.of_eq herr.2.store

/-- What reading a block keeps, all that only reads keeps. -/
theorem Reads.maintains_of {I : Device → Prop}
    (hread : ∀ b, Maintains I (Device.readBytes b) fun _ => True) {act : Action α} (h : Reads act) :
    Maintains I act fun _ => True := by
  induction h with
  | pure a => exact .pure trivial
  | throw e => exact .throw e
  | bind _ _ hx hf => exact .bind hx fun a _ => hf a
  | blockLen => exact fun d hd => ⟨hd, trivial⟩
  | readBytes b => exact hread b

theorem Reads.maintains {act : Action α} (h : Reads act) : Maintains (On I) act fun _ => True :=
  h.maintains_of maintains_readBytes

end Device

/-! ## Transactions -/

namespace Transaction

/-- The device of a transaction has an invariant, whatever is pending. -/
def On (I : Device → Prop) (t : Transaction) : Prop := I t.device

variable {α : Type} {I : Device → Prop} {P : α → Prop}

theorem maintains_lift {act : Action α} (h : Maintains I act P) :
    Maintains (On I) (lift act) P := by
  intro t ht
  obtain ⟨d, pending⟩ := t
  have hend := h d ht
  simp only [lift]
  cases hact : act d with
  | ok a d' => exact hend.of_eq_ok hact
  | error e d' => exact hend.of_eq_error hact

theorem maintains_allocate {P : BlockNumber → Prop} (h : Maintains I Device.allocate P) :
    Maintains (On I) allocate P := by
  intro t ht
  obtain ⟨d, pending⟩ := t
  have hend := h d ht
  simp only [allocate]
  cases hact : Device.allocate d with
  | ok b d' => exact hend.of_eq_ok hact
  | error e d' => exact hend.of_eq_error hact

theorem rollBack_of_maintains (hrelease : ∀ b, Maintains I (Device.release b) fun _ => True)
    (bs : List BlockNumber) {d : Device} (h : I d) : I (rollBack bs d) := by
  induction bs generalizing d with
  | nil => exact h
  | cons b bs ih =>
    have hend := hrelease b d h
    rw [rollBack]
    cases hr : Device.release b d with
    | ok a d' => exact ih (hend.of_eq_ok hr).1
    | error e d' => exact ih (hend.of_eq_error hr)

theorem maintains_atomically (hrelease : ∀ b, Maintains I (Device.release b) fun _ => True)
    {act : Transactional α} (h : Maintains (On I) act P) : Maintains I (atomically act) P := by
  intro d hd
  have hend := h ⟨d, []⟩ hd
  unfold atomically
  cases hact : act ⟨d, []⟩ with
  | ok a t => exact hend.of_eq_ok hact
  | error e t => exact rollBack_of_maintains hrelease _ (hend.of_eq_error hact)

end Transaction

/-! ## Whole actions -/

/-- A property of stores that no call takes away. -/
structure Store.Lasting (I : Store → Prop) : Prop where
  write : ∀ s t b contents, I s → s.write b contents = .ok t → I t
  allocate : ∀ s b t, I s → s.allocate = some (b, t) → I t
  release : ∀ s t b, I s → s.release b = .ok t → I t

variable {α : Type} {I : Store → Prop}

theorem Device.Direct.maintains (hI : Store.Lasting I) {act : Action α} (h : Device.Direct act) :
    Maintains (Device.On I) act fun _ => True := by
  induction h with
  | pure a => exact .pure trivial
  | throw e => exact .throw e
  | bind _ _ hx hf => exact .bind hx fun a _ => hf a
  | blockLen => exact fun d hd => ⟨hd, trivial⟩
  | readBytes b => exact Device.maintains_readBytes b
  | writeBytes b contents => exact Device.maintains_writeBytes fun s t => hI.write s t b contents
  | release b => exact Device.maintains_release fun s t => hI.release s t b

theorem Transaction.Built.maintains (hI : Store.Lasting I) {act : Transactional α}
    (h : Transaction.Built act) : Maintains (Transaction.On (Device.On I)) act fun _ => True := by
  induction h with
  | pure a => exact .pure trivial
  | bind _ _ hx hf => exact .bind hx fun a _ => hf a
  | allocate =>
    exact Transaction.maintains_allocate
      (Device.maintains_allocate fun s b t hs ha => ⟨hI.allocate s b t hs ha, trivial⟩)
  | blocks => exact fun t ht => ⟨ht, trivial⟩
  | lift hact => exact Transaction.maintains_lift (hact.maintains hI)

theorem Device.Built.maintains (hI : Store.Lasting I) {act : Action α} (h : Device.Built act) :
    Maintains (Device.On I) act fun _ => True := by
  induction h with
  | direct hact => exact hact.maintains hI
  | atomically hact =>
    exact Transaction.maintains_atomically
      (fun b => Device.maintains_release fun s t => hI.release s t b) (hact.maintains hI)
  | bind _ _ hx hf => exact .bind hx fun a _ => hf a

end BlockFS
