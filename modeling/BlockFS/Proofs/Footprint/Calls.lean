/-
What actions leave alone, in any store.

Nothing is known here of what the blocks hold.  Entries may lead to blocks that are free or not
there, a file may claim the block of a directory, and two files the same block.  All the same, an
action begins by reading (`Still`); then it brings free blocks into use and rewrites one block at
the end, or else gives back what it has taken (`Commits`); and only after that does it free blocks
that it has read the numbers of (`Frees`).  `Spares` says what such an action leaves alone: blocks
in use keep their bytes but for the one, and stay in use but for those.
-/
import BlockFS.Proofs.Invariants
import BlockFS.Proofs.Kept

namespace BlockFS

/-! ## Stores -/

namespace Store

/-- Blocks in use have kept their bytes but for the one written, and are in use still but for
those freed. -/
structure Confined (s t : Store) (written : Option BlockNumber) (freed : List BlockNumber) :
    Prop where
  wellFormed : t.WellFormed
  bytes : ∀ b, s.InUse b → written ≠ some b → t.bytes b = s.bytes b
  inUse : ∀ b, s.InUse b → b ∉ freed → t.InUse b

variable {s t : Store} {new gone freed : List BlockNumber} {written : Option BlockNumber}
  {b : BlockNumber}

theorem Extends.confined (h : s.Extends t new) : s.Confined t written freed :=
  ⟨h.wellFormed, fun a ha _ => h.bytes a ha, fun _ ha _ => h.inUse ha⟩

theorem Changes.confined (h : s.Changes t new b gone) (hgone : gone ⊆ freed) :
    s.Confined t (some b) freed where
  wellFormed := h.wellFormed
  bytes := fun a ha hne => h.bytes a ha fun heq => hne (congrArg some heq.symm)
  inUse := fun a ha hmem => (h.inUse_iff a).2 ⟨.inl ha, fun hg => hmem (hgone hg)⟩

end Store

namespace Device

variable {α β : Type} {s : Store} {n : Nat} {b : BlockNumber} {d : Device}

/-! ## Reading -/

/-- The store is this one, and so many releases have failed. -/
def Still (s : Store) (n : Nat) (d : Device) : Prop :=
  d.store = s ∧ d.calls.failedReleases = n

theorem still_read (b : BlockNumber) :
    Maintains (Still s n) (readBytes b) fun bs => s.read b = .ok bs := by
  intro d hd
  obtain ⟨rfl, rfl⟩ := hd
  exact (call_readBytes b d).imp (fun _ d' h => ⟨⟨h.2.store, h.2.failed⟩, h.1⟩)
    fun _ d' h => ⟨h.2.store, h.2.failed⟩

/-- What is read is what the store says of the block, whether the block is in use or not. -/
theorem still_readBytes (b : BlockNumber) :
    Maintains (Still s n) (readBytes b) fun bs => s.bytes b = bs :=
  (still_read b).imp fun _ h => Store.bytes_of_read h

theorem Reads.still {act : Action α} (h : Reads act) : Maintains (Still s n) act fun _ => True :=
  h.maintains_of fun b => (still_readBytes b).imp fun _ _ => trivial

theorem still_readBlock (b : BlockNumber) :
    Maintains (Still s n) (readBlock b) fun block => s.metadata? b = some block := by
  refine .bind (still_readBytes b) fun bs hbs => ?_
  cases hblock : Block.decode bs with
  | ok block => exact .pure (Store.metadata?_eq_some_iff.2 (hbs.symm ▸ hblock))
  | error fault => exact .throw _

theorem still_readDirectory (b : BlockNumber) :
    Maintains (Still s n) (readDirectory b) fun dir => s.metadata? b = some (.directory dir) := by
  refine .bind (still_readBlock b) fun block hblock => ?_
  cases block with
  | directory dir => exact .pure hblock
  | file i => exact .throw _

theorem still_readInode (b : BlockNumber) :
    Maintains (Still s n) (readInode b) fun i => s.metadata? b = some (.file i) := by
  refine .bind (still_readBlock b) fun block hblock => ?_
  cases block with
  | directory dir => exact .throw _
  | file i => exact .pure hblock

/-! ## Writing -/

theorem rewrites_of_writeBytes (hs : d.store.WellFormed) (b : BlockNumber) (contents : Bytes) :
    Ends (writeBytes b contents d)
      (fun _ d' => d.store.Rewrites d'.store b contents ∧ d.Steady d')
      (fun _ d' => d.Untouched d') :=
  (call_writeBytes b contents d).imp (fun _ _ h => ⟨hs.rewrites h.1, h.2⟩) fun _ _ h => h.2

theorem rewrites_of_writeBlock (hs : d.store.WellFormed) (b : BlockNumber) (block : Block) :
    Ends (writeBlock b block d)
      (fun _ d' => (∃ contents, d.store.Rewrites d'.store b contents) ∧ d.Steady d')
      (fun _ d' => d.Untouched d') := by
  rw [writeBlock_eq]
  cases block.encode d.store.blockLen with
  | error fault => exact .refl d
  | ok contents =>
    exact (rewrites_of_writeBytes hs b contents).imp (fun _ _ h => ⟨⟨contents, h.1⟩, h.2⟩)
      fun _ _ h => h

/-! ## Freeing -/

/-- An action frees some of the blocks, all of them unless a release fails. -/
def Frees (bs : List BlockNumber) (act : Action Unit) : Prop :=
  ∀ d : Device, d.store.WellFormed → Ends (act d)
    (fun _ d' => d.Steady d' ∧ d.store.Shrinks d'.store bs)
    (fun _ d' => d.calls.failedReleases < d'.calls.failedReleases ∧
      ∃ gone, gone ⊆ bs ∧ d.store.Shrinks d'.store gone)

namespace Frees

variable {bs cs : List BlockNumber} {x y : Action Unit}

theorem pure : Frees [] (Pure.pure ()) := fun d hs => ⟨.refl d, .refl hs⟩

theorem release (b : BlockNumber) : Frees [b] (Device.release b) := by
  intro d hs
  refine (call_release b d).imp (fun _ _ h => ⟨h.2, hs.shrinks h.1⟩) ?_
  exact fun _ d' h => ⟨h.2.failed, [], List.nil_subset _, h.2.store.symm ▸ .refl hs⟩

theorem bind (hx : Frees bs x) (hy : Frees cs y) : Frees (bs ++ cs) (x >>= fun _ => y) := by
  intro d hs
  refine (hx d hs).bind ?_ ?_
  · intro e d' herr
    obtain ⟨hfailed, gone, hgone, hd'⟩ := herr
    exact ⟨hfailed, gone, List.subset_append_of_subset_left cs hgone, hd'⟩
  intro _ d₁ hres
  obtain ⟨hsteady, hd₁⟩ := hres
  refine (hy d₁ hd₁.wellFormed).imp ?_ ?_
  · intro _ d' hres
    exact ⟨hsteady.trans hres.1, hd₁.trans hres.2⟩
  · intro e d' herr
    obtain ⟨hfailed, gone, hgone, hd'⟩ := herr
    refine ⟨hsteady.failed ▸ hfailed, bs ++ gone, ?_, hd₁.trans hd'⟩
    exact List.append_subset.2
      ⟨List.subset_append_left bs cs, List.subset_append_of_subset_right bs hgone⟩

theorem releaseEach (bs : List BlockNumber) : Frees bs (Device.releaseEach bs) := by
  induction bs with
  | nil => exact .pure
  | cons b bs ih => exact (release b).bind ih

end Frees

/-! ## Taking blocks and rewriting one -/

/-- From a store, an action brings blocks into use and rewrites one block, or fails and leaves
the blocks in use as they were.  More may be in use then only if a release has failed. -/
def Commits (s : Store) (n : Nat) (b : BlockNumber) (act : Action Unit) : Prop :=
  ∀ d, Still s n d → Ends (act d)
    (fun _ d' => d'.calls.failedReleases = n ∧ ∃ new, s.Changes d'.store new b [])
    (fun _ d' => ∃ stuck, s.Extends d'.store stuck ∧ (d'.calls.failedReleases = n → stuck = []))

theorem commits_writeBlock (hs : s.WellFormed) (b : BlockNumber) (block : Block) :
    Commits s n b (writeBlock b block) := by
  intro d hd
  obtain ⟨rfl, rfl⟩ := hd
  refine (rewrites_of_writeBlock hs b block).imp ?_ ?_
  · intro _ d' hres
    obtain ⟨⟨contents, hw⟩, hsteady⟩ := hres
    exact ⟨hsteady.failed, [], (Store.Extends.refl hs).changes hw⟩
  · intro e d' hd'
    exact ⟨[], hd'.store.symm ▸ .refl hs, fun _ => rfl⟩

theorem Commits.of_atomically {act : Transactional Unit}
    (h : ∀ d, Still s n d → Ends (act ⟨d, []⟩)
      (fun _ t => t.device.calls.failedReleases = n ∧ ∃ new, s.Changes t.device.store new b [])
      (fun _ t => ∃ new, Transaction.Occupies ⟨d, []⟩ t new)) :
    Commits s n b (Transaction.atomically act) := by
  intro d hd
  have hend := Transaction.ends_atomically (E := fun _ => True)
    (Q := fun _ d' => d'.calls.failedReleases = n ∧ ∃ new, s.Changes d'.store new b [])
    ((h d hd).imp (fun _ _ h => h) fun _ _ h => ⟨trivial, h⟩)
  obtain ⟨rfl, rfl⟩ := hd
  exact hend.imp (fun _ _ h => h) fun _ _ h => h.2.store

theorem Commits.after {x : Action α} {P : α → Prop} {f : α → Action Unit} (hs : s.WellFormed)
    (hx : Maintains (Still s n) x P) (hf : ∀ a, P a → Commits s n b (f a)) :
    Commits s n b (x >>= f) := by
  intro d hd
  refine (hx d hd).bind ?_ fun a d' h => hf a h.2 d' h.1
  intro e d' hd'
  exact ⟨[], hd'.1.symm ▸ .refl hs, fun _ => rfl⟩

/-- The last write in a transaction, to a block that need not be among those taken. -/
theorem commits_of_occupies {t₀ t : Transaction} {new : List BlockNumber}
    (h : Transaction.Occupies t₀ t new) (b : BlockNumber) (block : Block) :
    Ends (Transaction.lift (writeBlock b block) t)
      (fun _ t' => t'.device.calls.failedReleases = t₀.device.calls.failedReleases ∧
        ∃ new, t₀.device.store.Changes t'.device.store new b [])
      (fun _ t' => ∃ new, Transaction.Occupies t₀ t' new) := by
  refine (Transaction.ends_lift (rewrites_of_writeBlock h.extends_store.wellFormed b block)).imp
    ?_ ?_
  · intro _ t' hres
    obtain ⟨-, ⟨contents, hw⟩, hsteady⟩ := hres
    exact ⟨(h.steady.trans hsteady).failed, new, h.extends_store.changes hw⟩
  · intro e t' herr
    exact ⟨new, h.untouched herr.1 herr.2⟩

/-! ## What is left alone -/

/-- From a store, an action leaves the blocks in use alone but for one that it may write and some
that it may free.  If it fails without a release having failed, there are no exceptions. -/
def Spares (s : Store) (n : Nat) (written : Option BlockNumber) (freed : List BlockNumber)
    (act : Action α) : Prop :=
  ∀ d, Still s n d → Ends (act d) (fun _ d' => s.Confined d'.store written freed)
    (fun _ d' => s.Confined d'.store written freed ∧
      (d'.calls.failedReleases = n → s.Extends d'.store []))

namespace Spares

variable {written : Option BlockNumber} {freed : List BlockNumber} {x : Action α} {P : α → Prop}

theorem of_still (hs : s.WellFormed) (h : Maintains (Still s n) x P) :
    Spares s n written freed x := by
  have hrefl : ∀ d', Still s n d' → s.Extends d'.store [] := fun d' hd' => hd'.1.symm ▸ .refl hs
  exact fun d hd => (h d hd).imp (fun _ d' h => (hrefl d' h.1).confined)
    fun _ d' h => ⟨(hrefl d' h).confined, fun _ => hrefl d' h⟩

theorem throw (hs : s.WellFormed) (e : Error) :
    Spares s n written freed (MonadExcept.throw e : Action α) :=
  of_still (P := fun _ => True) hs (.throw e)

theorem after {f : α → Action β} (hs : s.WellFormed) (hx : Maintains (Still s n) x P)
    (hf : ∀ a, P a → Spares s n written freed (f a)) : Spares s n written freed (x >>= f) := by
  intro d hd
  refine (hx d hd).bind ?_ fun a d' h => hf a h.2 d' h.1
  intro e d' hd'
  have hrefl : s.Extends d'.store [] := hd'.1.symm ▸ .refl hs
  exact ⟨hrefl.confined, fun _ => hrefl⟩

theorem ite {c : Prop} [Decidable c] {y : Action α} (hx : c → Spares s n written freed x)
    (hy : ¬ c → Spares s n written freed y) : Spares s n written freed (if c then x else y) := by
  split
  · next hc => exact hx hc
  · next hc => exact hy hc

theorem then_pure (h : Spares s n written freed x) (f : α → β) :
    Spares s n written freed (x >>= fun a => Pure.pure (f a)) :=
  fun d hd => (h d hd).bind (fun _ _ h => h) fun _ _ h => h

end Spares

variable {act next : Action Unit} {bs : List BlockNumber}

theorem Commits.then_frees (h : Commits s n b act) (hnext : Frees bs next) :
    Spares s n (some b) bs (act >>= fun _ => next) := by
  intro d hd
  refine (h d hd).bind ?_ ?_
  · intro e d' herr
    obtain ⟨stuck, hstore, hstuck⟩ := herr
    exact ⟨hstore.confined, fun heq => hstuck heq ▸ hstore⟩
  intro _ d₁ hres
  obtain ⟨hfailed, new, hc⟩ := hres
  refine (hnext d₁ hc.wellFormed).imp ?_ ?_
  · intro _ d' hres
    exact (hc.shrinks hres.2).confined (List.Subset.refl bs)
  · intro e d' herr
    -- The write has been made, but that a release failed shows in the count.
    obtain ⟨hlt, gone, hgone, hd'⟩ := herr
    exact ⟨(hc.shrinks hd').confined hgone, fun heq => absurd heq (by omega)⟩

theorem Commits.spares (h : Commits s n b act) : Spares s n (some b) [] act := by
  have hbind := h.then_frees .pure
  rwa [bind_pure] at hbind

end Device
end BlockFS
