/-
What an operation answers does not depend on whether its rollback goes well.

`Device.reliable` takes the failing releases out of a plan.  An operation that fails under
the plan fails in the same way without them, unless the error is that of a release itself:
what goes wrong while blocks are given back is not passed on.
-/
import BlockFS.Proofs.Outcome
import BlockFS.Proofs.Programs

namespace BlockFS

/-- The error of a release that was made to fail. -/
def Error.IsRelease (e : Error) : Prop := ∃ b, e = .io (.interrupted .release b)

/-- The same device, no release of which is made to fail. -/
def Device.reliable (d : Device) : Device :=
  ⟨d.store, fun access k => if access = .release then false else d.plan access k, d.calls⟩

def Transaction.reliable (t : Transaction) : Transaction := ⟨t.device.reliable, t.pending⟩

/-- From `sure s` on, an action does what it does from `s` on, up to its failure; and it fails
in the same way unless the error is that of a release. -/
def Unaffected {σ α : Type} (sure : σ → σ) (act : EStateM Error σ α) : Prop :=
  ∀ s, Ends (act s) (fun a s' => act (sure s) = .ok a (sure s'))
    (fun e _ => e.IsRelease ∨ ∃ s', act (sure s) = .error e s')

namespace Unaffected

variable {σ α β : Type} {sure : σ → σ}

theorem pure (a : α) : Unaffected sure (Pure.pure a) := fun _ => rfl

theorem throw (e : Error) : Unaffected sure (MonadExcept.throw e : EStateM Error σ α) :=
  fun s => .inr ⟨sure s, rfl⟩

theorem bind {x : EStateM Error σ α} {f : α → EStateM Error σ β} (hx : Unaffected sure x)
    (hf : ∀ a, Unaffected sure (f a)) : Unaffected sure (x >>= f) := by
  intro s
  have hs := hx s
  rw [run_bind, run_bind]
  cases h : x s with
  | ok a s' =>
    rw [hs.of_eq_ok h]
    exact hf a s'
  | error e s' =>
    rcases hs.of_eq_error h with he | ⟨s'', hs''⟩
    · exact .inl he
    · rw [hs'']
      exact .inr ⟨s'', rfl⟩

theorem of_eq {act : EStateM Error σ α} (h : ∀ s, act (sure s) =
    match act s with
    | .ok a s' => .ok a (sure s')
    | .error e s' => .error e (sure s')) : Unaffected sure act := by
  intro s
  have hs := h s
  cases hact : act s with
  | ok a s' =>
    rw [hact] at hs
    exact hs
  | error e s' =>
    rw [hact] at hs
    exact .inr ⟨sure s', hs⟩

end Unaffected

/-! ## The calls to a store -/

namespace Device

theorem unaffected_blockLen : Unaffected reliable blockLen := fun _ => rfl

theorem unaffected_readBytes (b : BlockNumber) : Unaffected reliable (readBytes b) := by
  refine .of_eq ?_
  intro h
  obtain ⟨store, plan, calls⟩ := h
  have hplan : (if Access.read = .release then false else plan .read calls.reads) =
      plan .read calls.reads := if_neg (by decide)
  simp only [readBytes, reliable, hplan]
  by_cases hp : plan .read calls.reads = true
  · simp only [hp, if_true]
  · simp only [hp, Bool.false_eq_true, if_false]
    cases store.read b <;> rfl

theorem unaffected_writeBytes (b : BlockNumber) (contents : Bytes) :
    Unaffected reliable (writeBytes b contents) := by
  refine .of_eq ?_
  intro h
  obtain ⟨store, plan, calls⟩ := h
  have hplan : (if Access.write = .release then false else plan .write calls.writes) =
      plan .write calls.writes := if_neg (by decide)
  simp only [writeBytes, reliable, hplan]
  by_cases hp : plan .write calls.writes = true
  · simp only [hp, if_true]
  · simp only [hp, Bool.false_eq_true, if_false]
    cases store.write b contents <;> rfl

theorem unaffected_allocate : Unaffected reliable allocate := by
  refine .of_eq ?_
  intro h
  obtain ⟨store, plan, calls⟩ := h
  simp only [allocate, reliable]
  cases store.allocate <;> rfl

theorem unaffected_release (b : BlockNumber) : Unaffected reliable (release b) := by
  intro h
  obtain ⟨store, plan, calls⟩ := h
  by_cases hp : plan .release calls.releases = true
  · simp only [release, hp, if_true]
    exact .inl ⟨b, rfl⟩
  · simp only [release, hp, reliable, Bool.false_eq_true, if_true, if_false]
    cases store.release b with
    | ok store => rfl
    | error fault => exact .inr ⟨_, rfl⟩

theorem Direct.unaffected {α : Type} {act : Action α} (h : Direct act) :
    Unaffected reliable act := by
  induction h with
  | pure a => exact .pure a
  | throw e => exact .throw e
  | bind _ _ hx hf => exact .bind hx hf
  | blockLen => exact unaffected_blockLen
  | readBytes b => exact unaffected_readBytes b
  | writeBytes b contents => exact unaffected_writeBytes b contents
  | release b => exact unaffected_release b

end Device

/-! ## Transactions -/

namespace Transaction

theorem unaffected_lift {α : Type} {act : Action α} (h : Unaffected Device.reliable act) :
    Unaffected reliable (lift act) := by
  intro h
  obtain ⟨d, pending⟩ := h
  have hd := h d
  simp only [lift, reliable]
  cases hact : act d with
  | ok a d' =>
    rw [hd.of_eq_ok hact]
    rfl
  | error e d' =>
    rcases hd.of_eq_error hact with he | ⟨d'', hd''⟩
    · exact .inl he
    · rw [hd'']
      exact .inr ⟨_, rfl⟩

theorem unaffected_allocate : Unaffected reliable allocate := by
  intro h
  obtain ⟨d, pending⟩ := h
  have hd := Device.unaffected_allocate d
  simp only [allocate, reliable]
  cases hact : Device.allocate d with
  | ok b d' =>
    rw [hd.of_eq_ok hact]
    rfl
  | error e d' =>
    rcases hd.of_eq_error hact with he | ⟨d'', hd''⟩
    · exact .inl he
    · rw [hd'']
      exact .inr ⟨_, rfl⟩

theorem unaffected_blocks : Unaffected reliable blocks := fun _ => rfl

theorem Built.unaffected {α : Type} {act : Transactional α} (h : Built act) :
    Unaffected reliable act := by
  induction h with
  | pure a => exact .pure a
  | bind _ _ hx hf => exact .bind hx hf
  | allocate => exact unaffected_allocate
  | blocks => exact unaffected_blocks
  | lift hact => exact unaffected_lift hact.unaffected

/-- Whatever happens to the blocks that are given back, the error is the one for which they
are. -/
theorem unaffected_atomically {α : Type} {act : Transactional α} (h : Unaffected reliable act) :
    Unaffected Device.reliable (atomically act) := by
  intro d
  have hd := h ⟨d, []⟩
  have hstart : (⟨d, []⟩ : Transaction).reliable = ⟨d.reliable, []⟩ := rfl
  rw [hstart] at hd
  simp only [atomically]
  cases hact : act ⟨d, []⟩ with
  | ok a t =>
    rw [hd.of_eq_ok hact]
    rfl
  | error e t =>
    rcases hd.of_eq_error hact with he | ⟨t', ht'⟩
    · exact .inl he
    · rw [ht']
      exact .inr ⟨_, rfl⟩

end Transaction

/-! ## The operations -/

theorem Device.Built.unaffected {α : Type} {act : Action α} (h : Device.Built act) :
    Unaffected Device.reliable act := by
  induction h with
  | direct hact => exact hact.unaffected
  | atomically hact => exact Transaction.unaffected_atomically hact.unaffected
  | bind _ _ hx hf => exact .bind hx hf

/-- The error of an operation is the same whether or not releases fail in its rollback. -/
theorem Operation.unaffected_perform (p : Place) (op : Operation) :
    Unaffected Device.reliable (op.perform p) :=
  (op.built_perform p).unaffected

end BlockFS
