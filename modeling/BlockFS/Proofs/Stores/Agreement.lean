/-
A filesystem answers the same on stores that mirror each other.

`Alike` relates two runs of one action: they give the same value, or the same error but for
what is said of block 0.  Operations are made of calls, so it is enough that the calls are
`Alike`, however the devices are related (`Device.Built.alike_of`); the check is gone through
block by block.  A filesystem that was made on a new store refers to block 0 nowhere, so its
answers are the same in full (`answers_eq_of_new`).
-/
import BlockFS.Proofs.Sessions
import BlockFS.Proofs.Stores.Mirrors

namespace BlockFS

/-- What is said of block 0 of a medium. -/
def Error.reserved (medium : Medium) : Error := .io (.store (.reserved medium))

def CheckFault.reserved (medium : Medium) : CheckFault := .filesystem (Error.reserved medium)

/-- Two errors are the same, or each is the one of its medium. -/
def SameUpTo {ε : Type} (reserved : Medium → ε) (e e' : ε) : Prop :=
  e' = e ∨ e = reserved .memory ∧ e' = reserved .disk

/-- From related states on, an action ends in the same way and in related states again. -/
def Alike {ε σ α : Type} (reserved : Medium → ε) (R : σ → σ → Prop) (act : EStateM ε σ α) : Prop :=
  ∀ s t, R s t → Ends (act s) (fun a s' => ∃ t', act t = .ok a t' ∧ R s' t')
    (fun e s' => ∃ e' t', act t = .error e' t' ∧ SameUpTo reserved e e' ∧ R s' t')

namespace Alike

variable {ε σ α β : Type} {reserved : Medium → ε} {R : σ → σ → Prop}

theorem pure (a : α) : Alike reserved R (Pure.pure a) := fun _ t h => ⟨t, rfl, h⟩

theorem throw (e : ε) : Alike reserved R (MonadExcept.throw e : EStateM ε σ α) :=
  fun _ t h => ⟨e, t, rfl, .inl rfl, h⟩

theorem bind {x : EStateM ε σ α} {f : α → EStateM ε σ β} (hx : Alike reserved R x)
    (hf : ∀ a, Alike reserved R (f a)) : Alike reserved R (x >>= f) := by
  intro s t hst
  refine (hx s t hst).bind ?_ ?_
  · intro e s' herr
    obtain ⟨e', t', ht, he, hst'⟩ := herr
    have hrun : (x >>= f) t = .error e' t' := by rw [run_bind, ht]
    exact ⟨e', t', hrun, he, hst'⟩
  · intro a s' hres
    obtain ⟨t', ht, hst'⟩ := hres
    have hrun : (x >>= f) t = f a t' := by rw [run_bind, ht]
    rw [hrun]
    exact hf a s' t' hst'

theorem of_ok {act : EStateM ε σ α} {a : α} {s s' t : σ} (h : Alike reserved R act) (hst : R s t)
    (hs : act s = .ok a s') : ∃ t', act t = .ok a t' ∧ R s' t' :=
  (h s t hst).of_eq_ok hs

theorem of_error {act : EStateM ε σ α} {e : ε} {s s' t : σ} (h : Alike reserved R act)
    (hst : R s t) (hs : act s = .error e s') :
    ∃ e' t', act t = .error e' t' ∧ SameUpTo reserved e e' ∧ R s' t' :=
  (h s t hst).of_eq_error hs

end Alike

/-! ## Actions made of calls -/

/-- The calls to a store end alike on related devices. -/
structure Device.CallsAlike (reserved : Medium → Error) (R : Device → Device → Prop) : Prop where
  blockLen : Alike reserved R Device.blockLen
  readBytes : ∀ b, Alike reserved R (Device.readBytes b)
  writeBytes : ∀ b contents, Alike reserved R (Device.writeBytes b contents)
  allocate : Alike reserved R Device.allocate
  release : ∀ b, Alike reserved R (Device.release b)

section Calls

variable {α : Type} {reserved : Medium → Error} {R : Device → Device → Prop}

theorem Device.Direct.alike_of {act : Action α} (h : Device.Direct act)
    (hR : Device.CallsAlike reserved R) : Alike reserved R act := by
  induction h with
  | pure a => exact .pure a
  | throw e => exact .throw e
  | bind _ _ hx hf => exact .bind hx hf
  | blockLen => exact hR.blockLen
  | readBytes b => exact hR.readBytes b
  | writeBytes b contents => exact hR.writeBytes b contents
  | release b => exact hR.release b

namespace Transaction

/-- The same blocks are pending on related devices. -/
structure Related (R : Device → Device → Prop) (m d : Transaction) : Prop where
  device : R m.device d.device
  pending : d.pending = m.pending

theorem alike_lift {act : Action α} (h : Alike reserved R act) :
    Alike reserved (Related R) (lift act) := by
  intro m d hmd
  obtain ⟨m, pending'⟩ := m
  obtain ⟨d, pending⟩ := d
  obtain ⟨hdevice, rfl⟩ := hmd
  dsimp only at hdevice
  simp only [lift]
  cases hm : act m with
  | ok a m' =>
    obtain ⟨d', hd, h'⟩ := h.of_ok hdevice hm
    rw [hd]
    exact ⟨_, rfl, h', rfl⟩
  | error e m' =>
    obtain ⟨e', d', hd, he, h'⟩ := h.of_error hdevice hm
    rw [hd]
    exact ⟨e', _, rfl, he, h', rfl⟩

theorem alike_allocate (h : Alike reserved R Device.allocate) :
    Alike reserved (Related R) allocate := by
  intro m d hmd
  obtain ⟨m, pending'⟩ := m
  obtain ⟨d, pending⟩ := d
  obtain ⟨hdevice, rfl⟩ := hmd
  dsimp only at hdevice
  simp only [allocate]
  cases hm : Device.allocate m with
  | ok b m' =>
    obtain ⟨d', hd, h'⟩ := h.of_ok hdevice hm
    rw [hd]
    exact ⟨_, rfl, h', rfl⟩
  | error e m' =>
    obtain ⟨e', d', hd, he, h'⟩ := h.of_error hdevice hm
    rw [hd]
    exact ⟨e', _, rfl, he, h', rfl⟩

theorem alike_blocks : Alike reserved (Related R) blocks := by
  intro m d h
  refine ⟨d, ?_, h⟩
  show EStateM.Result.ok d.pending.reverse d = _
  rw [h.pending]

theorem Built.alike_of {act : Transactional α} (h : Built act)
    (hR : Device.CallsAlike reserved R) : Alike reserved (Related R) act := by
  induction h with
  | pure a => exact .pure a
  | bind _ _ hx hf => exact .bind hx hf
  | allocate => exact alike_allocate hR.allocate
  | blocks => exact alike_blocks
  | lift hact => exact alike_lift (hact.alike_of hR)

theorem related_rollBack (hR : ∀ b, Alike reserved R (Device.release b)) {m d : Device}
    (h : R m d) (bs : List BlockNumber) : R (rollBack bs m) (rollBack bs d) := by
  induction bs generalizing m d with
  | nil => exact h
  | cons b bs ih =>
    rw [rollBack, rollBack]
    cases hm : Device.release b m with
    | ok a m' =>
      obtain ⟨d', hd, h'⟩ := (hR b).of_ok h hm
      rw [hd]
      exact ih h'
    | error e m' =>
      obtain ⟨e', d', hd, -, h'⟩ := (hR b).of_error h hm
      rw [hd]
      exact ih h'

theorem alike_atomically {act : Transactional α} (hR : Device.CallsAlike reserved R)
    (h : Alike reserved (Related R) act) : Alike reserved R (atomically act) := by
  intro m d hmd
  have hstart : Related R ⟨m, []⟩ ⟨d, []⟩ := ⟨hmd, rfl⟩
  simp only [atomically]
  cases hm : act ⟨m, []⟩ with
  | ok a m' =>
    obtain ⟨d', hd, h'⟩ := h.of_ok hstart hm
    rw [hd]
    exact ⟨_, rfl, h'.device⟩
  | error e m' =>
    obtain ⟨e', d', hd, he, h'⟩ := h.of_error hstart hm
    rw [hd]
    refine ⟨e', _, rfl, he, ?_⟩
    rw [h'.pending]
    exact related_rollBack hR.release h'.device _

end Transaction

theorem Device.Built.alike_of {act : Action α} (h : Device.Built act)
    (hR : Device.CallsAlike reserved R) : Alike reserved R act := by
  induction h with
  | direct hact => exact hact.alike_of hR
  | atomically hact => exact Transaction.alike_atomically hR (hact.alike_of hR)
  | bind _ _ hx hf => exact .bind hx hf

end Calls

/-! ## Devices that mirror each other -/

namespace Device

/-- The stores mirror each other, and the same calls are made to fail. -/
structure Mirrors (m d : Device) : Prop where
  store : m.store.Mirrors d.store
  plan : d.plan = m.plan
  calls : d.calls = m.calls

theorem alike_blockLen : Alike Error.reserved Mirrors blockLen := by
  intro m d h
  refine ⟨d, ?_, h⟩
  show EStateM.Result.ok d.store.blockLen d = _
  rw [h.store.blockLen]

theorem alike_readBytes (b : BlockNumber) : Alike Error.reserved Mirrors (readBytes b) := by
  intro m d h
  obtain ⟨m, plan', calls'⟩ := m
  obtain ⟨d, plan, calls⟩ := d
  obtain ⟨hstore, rfl, rfl⟩ := h
  dsimp only at hstore
  by_cases hp : plan .read calls.reads = true
  · simp only [readBytes, hp, if_true]
    exact ⟨_, _, rfl, .inl rfl, hstore, rfl, rfl⟩
  simp only [readBytes, hp, Bool.false_eq_true, if_false]
  rcases hstore.read b with heq | ⟨rfl, hm, hd⟩
  · rw [heq]
    cases m.read b with
    | ok contents => exact ⟨_, rfl, hstore, rfl, rfl⟩
    | error fault => exact ⟨_, _, rfl, .inl rfl, hstore, rfl, rfl⟩
  · rw [hm, hd]
    exact ⟨_, _, rfl, .inr ⟨rfl, rfl⟩, hstore, rfl, rfl⟩

theorem alike_writeBytes (b : BlockNumber) (contents : Bytes) :
    Alike Error.reserved Mirrors (writeBytes b contents) := by
  intro m d h
  obtain ⟨m, plan', calls'⟩ := m
  obtain ⟨d, plan, calls⟩ := d
  obtain ⟨hstore, rfl, rfl⟩ := h
  dsimp only at hstore
  by_cases hp : plan .write calls.writes = true
  · simp only [writeBytes, hp, if_true]
    exact ⟨_, _, rfl, .inl rfl, hstore, rfl, rfl⟩
  simp only [writeBytes, hp, Bool.false_eq_true, if_false]
  rcases hstore.write b contents with ⟨m', d', hm, hd, h'⟩ | ⟨fault, fault', hm, hd, hfault⟩
  · rw [hm, hd]
    exact ⟨_, rfl, h', rfl, rfl⟩
  · rw [hm, hd]
    rcases hfault with rfl | ⟨rfl, rfl, rfl⟩
    · exact ⟨_, _, rfl, .inl rfl, hstore, rfl, rfl⟩
    · exact ⟨_, _, rfl, .inr ⟨rfl, rfl⟩, hstore, rfl, rfl⟩

theorem alike_allocate : Alike Error.reserved Mirrors allocate := by
  intro m d h
  obtain ⟨m, plan', calls'⟩ := m
  obtain ⟨d, plan, calls⟩ := d
  obtain ⟨hstore, rfl, rfl⟩ := h
  dsimp only at hstore
  simp only [allocate]
  rcases hstore.allocate with ⟨hm, hd⟩ | ⟨b, m', d', hm, hd, h'⟩
  · rw [hm, hd]
    exact ⟨_, _, rfl, .inl rfl, hstore, rfl, rfl⟩
  · rw [hm, hd]
    exact ⟨_, rfl, h', rfl, rfl⟩

theorem alike_release (b : BlockNumber) : Alike Error.reserved Mirrors (release b) := by
  intro m d h
  obtain ⟨m, plan', calls'⟩ := m
  obtain ⟨d, plan, calls⟩ := d
  obtain ⟨hstore, rfl, rfl⟩ := h
  dsimp only at hstore
  by_cases hp : plan .release calls.releases = true
  · simp only [release, hp, if_true]
    exact ⟨_, _, rfl, .inl rfl, hstore, rfl, rfl⟩
  simp only [release, hp, Bool.false_eq_true, if_false]
  rcases hstore.release b with ⟨fault, hm, hd⟩ | ⟨m', d', hm, hd, h'⟩
  · rw [hm, hd]
    exact ⟨_, _, rfl, .inl rfl, hstore, rfl, rfl⟩
  · rw [hm, hd]
    exact ⟨_, rfl, h', rfl, rfl⟩

theorem callsAlike_mirrors : CallsAlike Error.reserved Mirrors :=
  ⟨alike_blockLen, alike_readBytes, alike_writeBytes, alike_allocate, alike_release⟩

theorem Direct.alike {α : Type} {act : Action α} (h : Direct act) :
    Alike Error.reserved Mirrors act :=
  h.alike_of callsAlike_mirrors

theorem Built.alike {α : Type} {act : Action α} (h : Built act) :
    Alike Error.reserved Mirrors act :=
  h.alike_of callsAlike_mirrors

end Device

/-! ## The check -/

namespace Check

section

variable {α : Type} {reserved : Medium → Error} {R : Device → Device → Prop}

theorem alike_adaptExcept {act : Action α} (h : Alike reserved R act) :
    Alike (fun medium => .filesystem (reserved medium)) R
      (EStateM.adaptExcept CheckFault.filesystem act) := by
  intro m d hmd
  unfold EStateM.adaptExcept
  cases hm : act m with
  | ok a m' =>
    obtain ⟨d', hd, h'⟩ := h.of_ok hmd hm
    rw [hd]
    exact ⟨d', rfl, h'⟩
  | error e m' =>
    obtain ⟨e', d', hd, he, h'⟩ := h.of_error hmd hm
    rw [hd]
    refine ⟨_, d', rfl, ?_, h'⟩
    rcases he with rfl | ⟨rfl, rfl⟩
    · exact .inl rfl
    · exact .inr ⟨rfl, rfl⟩

theorem alike_walk (hR : Device.CallsAlike reserved R) (g : Geometry) (n : Bitmap) (c : Claims)
    (t : Tally) (stack : List BlockNumber) :
    Alike (fun medium => .filesystem (reserved medium)) R (walk g n c t stack) := by
  induction hn : c.left + stack.length using Nat.strongRecOn generalizing c t stack with
  | ind k ih =>
    cases stack with
    | nil =>
      rw [walk]
      exact .pure _
    | cons b rest =>
      rw [walk_cons]
      refine .bind (alike_adaptExcept ((Device.direct_readBlock b).alike_of hR)) fun block => ?_
      cases hv : visit g n c t b block with
      | error fault => exact .throw fault
      | ok v =>
        have hmeasure := left_visit hv
        simp only [List.length_cons] at hn
        exact ih _ (by simp only [List.length_append]; omega) _ _ _ rfl

theorem alike_run_of (hR : Device.CallsAlike reserved R)
    (hbitmap : ∀ m d, R m d → d.store.bitmap = m.store.bitmap) (g : Geometry) :
    Alike (fun medium => .filesystem (reserved medium)) R (run g) := by
  intro m d h
  rw [run_eq, run_eq, hbitmap m d h]
  cases (Claims.none m.store.bitmap.size).claim m.store.bitmap rootBlock with
  | error fault => exact ⟨fault, d, rfl, .inl rfl, h⟩
  | ok c => exact Alike.bind (alike_walk hR g _ c .zero [rootBlock]) (fun r => .pure _) m d h

end

theorem alike_run (g : Geometry) : Alike CheckFault.reserved Device.Mirrors (run g) :=
  alike_run_of Device.callsAlike_mirrors (fun _ _ h => h.store.bitmap) g

end Check
end BlockFS
