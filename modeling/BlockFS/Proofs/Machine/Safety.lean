/-
Sessions on words of a machine.

Whatever the blocks of a store hold and whichever of them are occupied, a session on it runs as
it does with numbers, from any directory, with any calls made to fail, and without taking a step
that has no value.  What an operation fails with is then one of the other errors of `Error`; a
check may fail as well with what is wrong with the filesystem.
-/
import BlockFS.Proofs.Machine.Check
import BlockFS.Proofs.Sessions

namespace BlockFS
namespace Machine

/-- `Session.run` with the operations of this namespace. -/
def run (u : Session) (op : Operation) : Except Error Answer × Session :=
  let ⟨device, place⟩ := u
  match perform place op device with
  | .ok (answer, place) device => (.ok answer, ⟨device, place⟩)
  | .error e device => (.error e, ⟨device, place⟩)

def runAll (u : Session) : List Operation → List (Except Error Answer) × Session
  | [] => ([], u)
  | op :: ops =>
    let (answer, u) := run u op
    let (answers, u) := runAll u ops
    (answer :: answers, u)

/-- `Session.check` with the check of this namespace. -/
def inspect (u : Session) : Except CheckFault CheckReport × Session :=
  let ⟨device, place⟩ := u
  match check place.geometry device with
  | .ok report device => (.ok report, ⟨device, place⟩)
  | .error fault device => (.error fault, ⟨device, place⟩)

/-- A session with some limits on a store of some shape. -/
structure Within (s : Store) (g : Geometry) (u : Session) : Prop where
  shaped : Shaped s u.device
  geometry : u.place.geometry = g

variable {s : Store} {g : Geometry} {u : Session}

theorem run_eq (h : Holds s g) (hu : Within s g u) (op : Operation) :
    run u op = u.run op ∧ (u.run op).1 ≠ .error .defect ∧ Within s g (u.run op).2 := by
  obtain ⟨device, place⟩ := u
  obtain ⟨hshape, rfl⟩ := hu
  obtain ⟨heq, hend⟩ := follows_perform h op device hshape
  have hrun : run ⟨device, place⟩ op =
      match perform place op device with
      | .ok (a, p) d => (.ok a, ⟨d, p⟩)
      | .error e d => (.error e, ⟨d, place⟩) := rfl
  rw [hrun, Session.run_eq, heq]
  cases hy : op.perform place device with
  | ok r d =>
    obtain ⟨hd, hg⟩ := hend.of_eq_ok hy
    exact ⟨rfl, by simp, hd, hg⟩
  | error e d =>
    obtain ⟨hd, he⟩ := hend.of_eq_error hy
    exact ⟨rfl, fun h => he (Except.error.inj h), hd, rfl⟩

theorem runAll_eq (h : Holds s g) (hu : Within s g u) (ops : List Operation) :
    runAll u ops = u.runAll ops ∧ (∀ r ∈ (u.runAll ops).1, r ≠ .error .defect) ∧
      Within s g (u.runAll ops).2 := by
  induction ops generalizing u with
  | nil => exact ⟨rfl, fun _ hr => absurd hr List.not_mem_nil, hu⟩
  | cons op ops ih =>
    obtain ⟨heq, hanswer, hnext⟩ := run_eq h hu op
    obtain ⟨hrest, hanswers, hend⟩ := ih hnext
    have hcons : runAll u (op :: ops) =
        ((run u op).1 :: (runAll (run u op).2 ops).1, (runAll (run u op).2 ops).2) := rfl
    rw [hcons, heq, hrest]
    exact ⟨rfl, List.forall_mem_cons.2 ⟨hanswer, hanswers⟩, hend⟩

theorem inspect_eq (h : Holds s g) (hu : Within s g u) :
    inspect u = u.check ∧ u.check.1 ≠ .error (.filesystem .defect) := by
  obtain ⟨device, place⟩ := u
  obtain ⟨hshape, rfl⟩ := hu
  obtain ⟨heq, hend⟩ := follows_check h device hshape
  have hinspect : inspect ⟨device, place⟩ =
      match check place.geometry device with
      | .ok report d => (.ok report, ⟨d, place⟩)
      | .error fault d => (.error fault, ⟨d, place⟩) := rfl
  rw [hinspect, Session.check_eq, heq]
  cases hy : Check.run place.geometry device with
  | ok report d => exact ⟨rfl, by simp⟩
  | error fault d =>
    exact ⟨rfl, fun h => (hend.of_eq_error hy).2 (Except.error.inj h)⟩

end Machine

namespace Session

/-- Whatever a store holds, the operations and the check on it compute within the words of a
machine: with every step written out they do the same, and none of them ends in a step that has
no value.  The store is one whose blocks are numbered by words, whose image lies within the
address space, as one in memory or in a file does, and whose root can be taken up with the
limits; the directory, the plan of failures, the operations and what they are given are
arbitrary. -/
theorem runAll_without_defect {s : Store} {g : Geometry} (hs : s.WellFormed)
    (hspace : s.image.size < addressLimit) (hm : s.Mounts g) (plan : FaultPlan) (calls : Calls)
    (dir : BlockNumber) (ops : List Operation) :
    let u : Session := ⟨⟨s, plan, calls⟩, ⟨g, dir⟩⟩
    let v := (u.runAll ops).2
    Machine.runAll u ops = u.runAll ops ∧ (∀ r ∈ (u.runAll ops).1, r ≠ .error .defect) ∧
      Machine.inspect v = v.check ∧ v.check.1 ≠ .error (.filesystem .defect) := by
  intro u v
  have h : Machine.Holds s g := ⟨hm.serves hs, hspace⟩
  have hu : Machine.Within s g u := ⟨.refl s, rfl⟩
  obtain ⟨hruns, hanswers, hend⟩ := Machine.runAll_eq h hu ops
  obtain ⟨hcheck, hfault⟩ := Machine.inspect_eq h hend
  exact ⟨hruns, hanswers, hcheck, hfault⟩

/-- A root whose one entry leads back to it. -/
def loop : Block := .directory ⟨[⟨"a", rootBlock⟩]⟩

/-- A store in memory with such a root can be taken up. -/
theorem exists_loop : ∃ (s : Store) (d : Device), Store.inMemory 4096 4 = .ok s ∧
    Device.writeBlock rootBlock loop (Device.ofStore s) = .ok () d ∧ d.store.Serves {} ∧
      d.store.image.size < addressLimit ∧ d.store.metadata? rootBlock = some loop := by
  obtain ⟨s, hs⟩ : ∃ s, Store.inMemory 4096 4 = .ok s := ⟨_, rfl⟩
  have hserves : s.Serves {} :=
    Store.serves_of_inMemory hs (by decide) (by decide) (by decide) (by decide)
  have hspace : s.image.size < addressLimit := by
    obtain ⟨m, -, rfl⟩ := Store.inMemory_eq_ok hs
    show 4096 * 4 < addressLimit
    decide
  have hadmits : Geometry.Admits {} loop := by
    refine ⟨by decide, ?_, by decide⟩
    intro e he
    rw [List.mem_singleton.1 he]
    decide
  have hshape := Machine.follows_writeBlock ⟨hserves, hspace⟩ rootBlock loop (Device.ofStore s)
    (.refl s)
  have hend := hserves.ends_writeBlock (d := Device.ofStore s) s.inUse_rootBlock hadmits
  cases hw : Device.writeBlock rootBlock loop (Device.ofStore s) with
  | error e d => exact absurd (hend.of_eq_error hw).1 Device.not_interrupts_ofStore
  | ok x d =>
    obtain ⟨⟨contents, hrewrites⟩, hroot, -⟩ := hend.of_eq_ok hw
    obtain ⟨hsame, -⟩ := hshape.2.of_eq_ok hw
    refine ⟨s, d, hs, hw, hserves.of_blockLen hrewrites.wellFormed hrewrites.blockLen, ?_, hroot⟩
    rw [Store.SameShape.size hsame]
    exact hspace

/-- The operations go on in such a root, and down the loop. -/
theorem runAll_without_defect_loop : ∃ (s : Store) (d : Device),
    Store.inMemory 4096 4 = .ok s ∧
      Device.writeBlock rootBlock loop (Device.ofStore s) = .ok () d ∧ d.store.WellFormed ∧
      d.store.image.size < addressLimit ∧ d.store.Mounts {} ∧
      let u : Session := ⟨⟨d.store, .after (some 9) none none, {}⟩, ⟨{}, rootBlock⟩⟩
      let ops : List Operation :=
        [.enter (some "a"), .createFile "b", .append "b" [1, 2, 3], .read "b" 2, .removeFile "a"]
      let v := (u.runAll ops).2
      Machine.runAll u ops = u.runAll ops ∧ (∀ r ∈ (u.runAll ops).1, r ≠ .error .defect) ∧
        Machine.inspect v = v.check ∧ v.check.1 ≠ .error (.filesystem .defect) := by
  obtain ⟨s, d, hs, hw, hserves, hspace, hroot⟩ := exists_loop
  have hm : d.store.Mounts {} := hserves.mounts hroot
  exact ⟨s, d, hs, hw, hserves.wellFormed, hspace, hm,
    runAll_without_defect hserves.wellFormed hspace hm _ _ _ _⟩

theorem ends_check_loop {d : Device} (hs : d.store.WellFormed)
    (hroot : d.store.metadata? rootBlock = some loop) :
    Ends (Check.run {} d) (fun _ _ => False)
      (fun fault _ => fault = .referencedTwice rootBlock ∨
        ∃ e, fault = .filesystem e ∧ d.Interrupts .read e) := by
  obtain ⟨c, hclaim, hadds⟩ := Check.exists_claim_root d.store
  rw [Check.run_eq, hclaim]
  have hsize : c.marks.size = d.store.bitmap.size :=
    hadds.size.trans (Array.size_replicate ..)
  have htwo := d.store.bitmap.two_le_size
  have hone : rootBlock.toNat = 1 := rfl
  have hmark : c.has rootBlock.toNat = true :=
    (hadds.has_iff _).2 (.inr ⟨rootBlock, List.mem_singleton_self _, rfl⟩)
  have hagain : c.claim d.store.bitmap rootBlock = .error (.referencedTwice rootBlock) := by
    have halloc : d.store.bitmap.isAllocated rootBlock = true := d.store.inUse_rootBlock.2
    unfold Check.Claims.claim
    rw [if_neg d.store.inUse_rootBlock.1, if_neg (by omega), if_neg (by simp [halloc]),
      if_pos hmark]
  have hvisit : Check.visit {} d.store.bitmap c .zero rootBlock loop
      = .error (.referencedTwice rootBlock) := by
    show Check.visit {} d.store.bitmap c .zero rootBlock (.directory ⟨[⟨"a", rootBlock⟩]⟩) = _
    rw [Check.visit, if_neg (by decide), Check.claimEntries, if_neg (by decide),
      if_neg (by decide), hagain]
  have hwalk : Ends (Check.walk {} d.store.bitmap c .zero [rootBlock] d) (fun _ _ => False)
      (fun fault _ => fault = .referencedTwice rootBlock ∨
        ∃ e, fault = .filesystem e ∧ d.Interrupts .read e) := by
    rw [Check.walk_cons]
    refine (Check.ends_adaptExcept
      ((Device.ends_readBlock_of hs d.store.inUse_rootBlock hroot).imp (fun _ _ h => h)
        fun e d' he => .inr ⟨e, rfl, he.1⟩)).bind (fun _ _ h => h) ?_
    intro block d' hblock
    obtain ⟨rfl, -⟩ := hblock
    rw [hvisit]
    exact .inl rfl
  exact hwalk.bind (fun _ _ h => h) fun _ _ h => h.elim

/-- A check that meets a block a second time ends neither well nor in an error of the
operations: it has its own word for that. -/
theorem check_loop : ∃ (s : Store) (d : Device), Store.inMemory 4096 4 = .ok s ∧
    Device.writeBlock rootBlock loop (Device.ofStore s) = .ok () d ∧ d.store.WellFormed ∧
      d.store.image.size < addressLimit ∧ d.store.Mounts {} ∧
      let u : Session := ⟨Device.ofStore d.store, ⟨{}, rootBlock⟩⟩
      u.check.1 = .error (.referencedTwice rootBlock) ∧
        ¬ ((∃ report, u.check.1 = .ok report) ∨ ∃ e, u.check.1 = .error (.filesystem e)) := by
  obtain ⟨s, d, hs, hw, hserves, hspace, hroot⟩ := exists_loop
  refine ⟨s, d, hs, hw, hserves.wellFormed, hspace, hserves.mounts hroot, ?_⟩
  intro u
  have hcheck : u.check.1 = .error (.referencedTwice rootBlock) := by
    have hend := ends_check_loop (d := Device.ofStore d.store) hserves.wellFormed hroot
    rw [check_eq]
    cases hr : Check.run {} (Device.ofStore d.store) with
    | ok r d' => exact (hend.of_eq_ok hr).elim
    | error fault d' =>
      rcases hend.of_eq_error hr with rfl | ⟨e, -, he⟩
      · rfl
      · exact absurd he Device.not_interrupts_ofStore
  refine ⟨hcheck, ?_⟩
  rw [hcheck]
  rintro (⟨report, h⟩ | ⟨e, h⟩)
  · cases h
  · cases h

end Session
end BlockFS
