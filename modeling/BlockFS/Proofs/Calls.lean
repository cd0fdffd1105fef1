/-
The calls of an operation to a store, any of which may be made to fail.

Each call has one lemma that says all that it can do, whatever the store (`call_readBytes` and its
like).  On blocks in use a call fails only if it is made to, and then leaves the store alone.
-/
import BlockFS.Proofs.Layout
import BlockFS.Proofs.Outcome
import BlockFS.Proofs.RoundTrip

namespace BlockFS
namespace Device

/-- The error of a call that is made to fail. -/
def Interrupts (d : Device) (access : Access) (e : Error) : Prop :=
  ∃ b k, e = .io (.interrupted access b) ∧ d.plan access k = true

/-- No release has failed on the way, and the plan is the same. -/
structure Steady (d d' : Device) : Prop where
  plan : d'.plan = d.plan
  failed : d'.calls.failedReleases = d.calls.failedReleases

/-- Nothing has happened to the store either. -/
structure Untouched (d d' : Device) : Prop extends Steady d d' where
  store : d'.store = d.store

/-- The plan is the same, and no release has failed that was not made to. -/
structure Later (d d' : Device) : Prop where
  plan : d'.plan = d.plan
  failed_le : d.calls.failedReleases ≤ d'.calls.failedReleases
  failed : d'.calls.failedReleases ≠ d.calls.failedReleases → ∃ k, d.plan .release k = true

/-- A release has been made to fail. -/
structure Stopped (d d' : Device) : Prop where
  plan : d'.plan = d.plan
  failed : d.calls.failedReleases < d'.calls.failedReleases
  store : d'.store = d.store

theorem Steady.refl (d : Device) : d.Steady d := ⟨rfl, rfl⟩

theorem Untouched.refl (d : Device) : d.Untouched d := ⟨⟨rfl, rfl⟩, rfl⟩

theorem Steady.trans {d d' d'' : Device} (h : d.Steady d') (h' : d'.Steady d'') : d.Steady d'' :=
  ⟨h'.plan.trans h.plan, h'.failed.trans h.failed⟩

theorem Untouched.trans {d d' d'' : Device} (h : d.Untouched d') (h' : d'.Untouched d'') :
    d.Untouched d'' :=
  ⟨h.toSteady.trans h'.toSteady, h'.store.trans h.store⟩

theorem Steady.later {d d' : Device} (h : d.Steady d') : d.Later d' :=
  ⟨h.plan, Nat.le_of_eq h.failed.symm, fun hne => (hne h.failed).elim⟩

theorem Later.trans {d d' d'' : Device} (h : d.Later d') (h' : d'.Later d'') : d.Later d'' where
  plan := h'.plan.trans h.plan
  failed_le := Nat.le_trans h.failed_le h'.failed_le
  failed := by
    intro hne
    by_cases heq : d'.calls.failedReleases = d.calls.failedReleases
    · exact h.plan ▸ h'.failed (heq ▸ hne)
    · exact h.failed heq

theorem Interrupts.of_plan {d d' : Device} {access : Access} {e : Error}
    (h : d'.Interrupts access e) (hp : d'.plan = d.plan) : d.Interrupts access e := by
  obtain ⟨b, k, he, hk⟩ := h
  exact ⟨b, k, he, hp ▸ hk⟩

theorem not_interrupts_ofStore {s : Store} {access : Access} {e : Error} :
    ¬ (ofStore s).Interrupts access e := by
  intro h
  obtain ⟨b, k, -, hk⟩ := h
  cases hk

/-- A call fails because it is made to, or because the store refuses it, as `r` says. -/
def Refuses {α : Type} (d : Device) (access : Access) (r : Except StoreFault α) (e : Error) : Prop :=
  d.Interrupts access e ∨ ∃ fault, r = .error fault ∧ e = .io (.store fault)

section Refuses

variable {α : Type} {d : Device} {access : Access} {r : Except StoreFault α} {e : Error}

theorem Refuses.interrupts {a : α} (h : d.Refuses access r e) (hr : r = .ok a) :
    d.Interrupts access e := by
  refine h.resolve_right fun hfault => ?_
  obtain ⟨fault, hr', -⟩ := hfault
  rw [hr] at hr'
  cases hr'

theorem Refuses.ne_defect (h : d.Refuses access r e) : e ≠ .defect := by
  rcases h with ⟨b, k, rfl, -⟩ | ⟨fault, -, rfl⟩
  · exact fun h => nomatch h
  · exact fun h => nomatch h

end Refuses

/-! ## What a call can do -/

section Calls

theorem call_readBytes (b : BlockNumber) (d : Device) :
    Ends (readBytes b d) (fun bs d' => d.store.read b = .ok bs ∧ d.Untouched d')
      (fun e d' => d.Refuses .read (d.store.read b) e ∧ d.Untouched d') := by
  obtain ⟨store, plan, calls⟩ := d
  by_cases hp : plan .read calls.reads = true
  · simp only [readBytes, hp, if_true]
    exact ⟨.inl ⟨b, calls.reads, rfl, hp⟩, ⟨rfl, rfl⟩, rfl⟩
  simp only [readBytes, hp, Bool.false_eq_true, if_false]
  cases hread : store.read b with
  | ok contents => exact ⟨rfl, ⟨rfl, rfl⟩, rfl⟩
  | error fault => exact ⟨.inr ⟨fault, rfl, rfl⟩, ⟨rfl, rfl⟩, rfl⟩

theorem call_writeBytes (b : BlockNumber) (contents : Bytes) (d : Device) :
    Ends (writeBytes b contents d)
      (fun _ d' => d.store.write b contents = .ok d'.store ∧ d.Steady d')
      (fun e d' => d.Refuses .write (d.store.write b contents) e ∧ d.Untouched d') := by
  obtain ⟨store, plan, calls⟩ := d
  by_cases hp : plan .write calls.writes = true
  · simp only [writeBytes, hp, if_true]
    exact ⟨.inl ⟨b, calls.writes, rfl, hp⟩, ⟨rfl, rfl⟩, rfl⟩
  simp only [writeBytes, hp, Bool.false_eq_true, if_false]
  cases hwrite : store.write b contents with
  | ok t => exact ⟨rfl, rfl, rfl⟩
  | error fault => exact ⟨.inr ⟨fault, rfl, rfl⟩, ⟨rfl, rfl⟩, rfl⟩

theorem call_allocate (d : Device) :
    Ends (allocate d) (fun b d' => d.store.allocate = some (b, d'.store) ∧ d.Steady d')
      (fun e d' => e = .diskFull ∧ d.store.allocate = none ∧ d' = d) := by
  obtain ⟨store, plan, calls⟩ := d
  simp only [allocate]
  cases ha : store.allocate with
  | none => exact ⟨rfl, rfl, rfl⟩
  | some p => exact ⟨rfl, rfl, rfl⟩

theorem call_release (b : BlockNumber) (d : Device) :
    Ends (release b d) (fun _ d' => d.store.release b = .ok d'.store ∧ d.Steady d')
      (fun e d' => d.Refuses .release (d.store.release b) e ∧ d.Stopped d') := by
  obtain ⟨store, plan, calls⟩ := d
  by_cases hp : plan .release calls.releases = true
  · simp only [release, hp, if_true]
    exact ⟨.inl ⟨b, calls.releases, rfl, hp⟩, rfl, Nat.lt_succ_self _, rfl⟩
  simp only [release, hp, Bool.false_eq_true, if_false]
  cases hrelease : store.release b with
  | ok t => exact ⟨rfl, rfl, rfl⟩
  | error fault => exact ⟨.inr ⟨fault, rfl, rfl⟩, rfl, Nat.lt_succ_self _, rfl⟩

end Calls

/-! ## Reading -/

section Reading

variable {d : Device} {b : BlockNumber}

theorem store_of_readBytes (b : BlockNumber) (d : Device) :
    Ends (readBytes b d) (fun _ d' => d'.store = d.store) (fun _ d' => d'.store = d.store) :=
  (call_readBytes b d).imp (fun _ _ h => h.2.store) fun _ _ h => h.2.store

theorem store_of_readBlock (b : BlockNumber) (d : Device) :
    Ends (readBlock b d) (fun _ d' => d'.store = d.store) (fun _ d' => d'.store = d.store) := by
  refine (store_of_readBytes b d).bind (fun _ _ h => h) ?_
  intro bs d' hd
  cases Block.decode bs with
  | ok block => exact hd
  | error fault => exact hd

theorem ends_readBytes (hs : d.store.WellFormed) (hb : d.store.InUse b) :
    Ends (readBytes b d) (fun bs d' => bs = d.store.bytes b ∧ d.Untouched d')
      (fun e d' => d.Interrupts .read e ∧ d.Untouched d') :=
  (call_readBytes b d).imp (fun _ _ h => ⟨(Store.bytes_of_read h.1).symm, h.2⟩)
    fun _ _ h => ⟨h.1.interrupts (hs.read hb), h.2⟩

/-- A block that holds no metadata is the one other reason why metadata are not read. -/
theorem ends_readBlock (hs : d.store.WellFormed) (hb : d.store.InUse b) :
    Ends (readBlock b d) (fun block d' => d.store.metadata? b = some block ∧ d.Untouched d')
      (fun e d' => (d.Interrupts .read e ∨ d.store.metadata? b = none) ∧ d.Untouched d') := by
  refine (ends_readBytes hs hb).bind (fun e d' h => ⟨.inl h.1, h.2⟩) ?_
  intro bs d' hres
  obtain ⟨rfl, hd⟩ := hres
  unfold Store.metadata?
  cases Block.decode (d.store.bytes b) with
  | ok block => exact ⟨rfl, hd⟩
  | error fault => exact ⟨.inr rfl, hd⟩

theorem ends_readBlock_of (hs : d.store.WellFormed) (hb : d.store.InUse b) {block : Block}
    (hblock : d.store.metadata? b = some block) :
    Ends (readBlock b d) (fun x d' => x = block ∧ d.Untouched d')
      (fun e d' => d.Interrupts .read e ∧ d.Untouched d') := by
  refine (ends_readBlock hs hb).imp ?_ ?_
  · intro x d' hres
    obtain ⟨hx, hd⟩ := hres
    rw [hblock] at hx
    exact ⟨(Option.some.inj hx).symm, hd⟩
  · intro e d' herr
    obtain ⟨he | hnone, hd⟩ := herr
    · exact ⟨he, hd⟩
    · rw [hblock] at hnone
      cases hnone

theorem ends_readDirectory (hs : d.store.WellFormed) (hb : d.store.InUse b) {dir : Directory}
    (hdir : d.store.metadata? b = some (.directory dir)) :
    Ends (readDirectory b d) (fun x d' => x = dir ∧ d.Untouched d')
      (fun e d' => d.Interrupts .read e ∧ d.Untouched d') := by
  refine (ends_readBlock_of hs hb hdir).bind (fun e d' h => h) ?_
  intro block d' hres
  obtain ⟨rfl, hd⟩ := hres
  exact ⟨rfl, hd⟩

theorem ends_readDirectory_file (hs : d.store.WellFormed) (hb : d.store.InUse b) {i : Inode}
    (hi : d.store.metadata? b = some (.file i)) :
    Ends (readDirectory b d) (fun _ _ => False)
      (fun e d' => (e = .notADirectory ∨ d.Interrupts .read e) ∧ d.Untouched d') := by
  refine (ends_readBlock_of hs hb hi).bind (fun e d' h => ⟨.inr h.1, h.2⟩) ?_
  intro block d' hres
  obtain ⟨rfl, hd⟩ := hres
  exact ⟨.inl rfl, hd⟩

theorem ends_readInode (hs : d.store.WellFormed) (hb : d.store.InUse b) {i : Inode}
    (hi : d.store.metadata? b = some (.file i)) :
    Ends (readInode b d) (fun x d' => x = i ∧ d.Untouched d')
      (fun e d' => d.Interrupts .read e ∧ d.Untouched d') := by
  refine (ends_readBlock_of hs hb hi).bind (fun e d' h => h) ?_
  intro block d' hres
  obtain ⟨rfl, hd⟩ := hres
  exact ⟨rfl, hd⟩

theorem ends_readInode_directory (hs : d.store.WellFormed) (hb : d.store.InUse b) {dir : Directory}
    (hdir : d.store.metadata? b = some (.directory dir)) :
    Ends (readInode b d) (fun _ _ => False)
      (fun e d' => (e = .isADirectory ∨ d.Interrupts .read e) ∧ d.Untouched d') := by
  refine (ends_readBlock_of hs hb hdir).bind (fun e d' h => ⟨.inr h.1, h.2⟩) ?_
  intro block d' hres
  obtain ⟨rfl, hd⟩ := hres
  exact ⟨.inl rfl, hd⟩

end Reading

/-! ## Writing -/

section Writing

variable {d : Device} {b : BlockNumber}

theorem ends_writeBytes (hs : d.store.WellFormed) (hb : d.store.InUse b) {contents : Bytes}
    (hlen : contents.length = d.store.blockLen) :
    Ends (writeBytes b contents d)
      (fun _ d' => d.store.Rewrites d'.store b contents ∧ d.Steady d')
      (fun e d' => d.Interrupts .write e ∧ d.Untouched d') := by
  obtain ⟨t, hwrite, -⟩ := hs.write hb hlen
  exact (call_writeBytes b contents d).imp (fun _ _ h => ⟨hs.rewrites h.1, h.2⟩)
    fun _ _ h => ⟨h.1.interrupts hwrite, h.2⟩

theorem writeBlock_eq (b : BlockNumber) (block : Block) (d : Device) :
    writeBlock b block d =
      (match block.encode d.store.blockLen with
      | .ok contents => writeBytes b contents
      | .error fault => throw (.io (.oversize fault)) : Action Unit) d := rfl

theorem ends_writeBlock (hs : d.store.WellFormed) (hb : d.store.InUse b) {block : Block}
    (hcount : block.Countable) (hfit : block.encodedLength ≤ d.store.blockLen) :
    Ends (writeBlock b block d)
      (fun _ d' => (∃ contents, d.store.Rewrites d'.store b contents) ∧
        d'.store.metadata? b = some block ∧ d.Steady d')
      (fun e d' => d.Interrupts .write e ∧ d.Untouched d') := by
  have henc := Block.encode_of_le hfit
  obtain ⟨hlen, hdec⟩ := Block.decode_of_encode hcount henc
  rw [writeBlock_eq, henc]
  refine (ends_writeBytes hs hb hlen).imp ?_ (fun _ _ h => h)
  intro _ d' hres
  obtain ⟨hw, hd⟩ := hres
  refine ⟨⟨_, hw⟩, Store.metadata?_eq_some_iff.2 ?_, hd⟩
  rw [hw.bytes_self]
  exact hdec

end Writing

/-! ## Freeing -/

section Freeing

variable {d : Device}

theorem ends_release {b : BlockNumber} (hs : d.store.WellFormed) (hb : d.store.InUse b)
    (hroot : b ≠ rootBlock) :
    Ends (release b d) (fun _ d' => d.store.Shrinks d'.store [b] ∧ d.Steady d')
      (fun e d' => d.Interrupts .release e ∧ d.Stopped d') := by
  obtain ⟨t, hrelease, -⟩ := hs.release hb hroot
  exact (call_release b d).imp (fun _ _ h => ⟨hs.shrinks h.1, h.2⟩)
    fun _ _ h => ⟨h.1.interrupts hrelease, h.2⟩

/-- Of blocks that are freed in turn, the ones before the first failure are free. -/
theorem ends_releaseEach {bs : List BlockNumber} (hs : d.store.WellFormed)
    (hbs : ∀ b ∈ bs, d.store.InUse b ∧ b ≠ rootBlock) (hnodup : bs.Nodup) :
    Ends (releaseEach bs d) (fun _ d' => d.store.Shrinks d'.store bs ∧ d.Steady d')
      (fun e d' => d.Interrupts .release e ∧ d'.plan = d.plan ∧
        d.calls.failedReleases < d'.calls.failedReleases ∧
        ∃ gone, gone ⊆ bs ∧ d.store.Shrinks d'.store gone) := by
  induction bs generalizing d with
  | nil => exact ⟨.refl hs, .refl d⟩
  | cons b bs ih =>
    obtain ⟨hb, hroot⟩ := hbs b List.mem_cons_self
    obtain ⟨hnot, hnodup⟩ := List.nodup_cons.1 hnodup
    refine (ends_release hs hb hroot).bind ?_ ?_
    · intro e d' herr
      obtain ⟨he, hd⟩ := herr
      refine ⟨he, hd.plan, hd.failed, [], List.nil_subset _, ?_⟩
      rw [hd.store]
      exact .refl hs
    · intro _ d' hres
      obtain ⟨hd, hsteady⟩ := hres
      have hleft : ∀ a ∈ bs, d'.store.InUse a ∧ a ≠ rootBlock := by
        intro a ha
        obtain ⟨huse, hne⟩ := hbs a (List.mem_cons_of_mem b ha)
        refine ⟨(hd.inUse_iff a).2 ⟨huse, fun hmem => hnot ?_⟩, hne⟩
        rwa [← List.mem_singleton.1 hmem]
      refine (ih hd.wellFormed hleft hnodup).imp ?_ ?_
      · intro _ d'' hres
        obtain ⟨h, hsteady'⟩ := hres
        exact ⟨hd.trans h, hsteady.trans hsteady'⟩
      · intro e d'' herr
        obtain ⟨he, hplan, hfailed, gone, hgone, h⟩ := herr
        refine ⟨he.of_plan hsteady.plan, hplan.trans hsteady.plan, hsteady.failed ▸ hfailed,
          b :: gone, ?_, hd.trans h⟩
        exact List.cons_subset_cons b hgone

end Freeing

end Device
end BlockFS
