/-
What requests leave alone, in any store that is taken up.

No request writes into a block that holds something, but for the one metadata block that it
rewrites, and none frees a block but its own (`run_confined`).  One that fails leaves every bit of
the bitmap and every block in use as it was, if what it took could be given back (`run_restores`).
To speak of bits and of block 0 takes more than the blocks in use: `SameOutline` is what no call to
a store ever changes.
-/
import BlockFS.Proofs.Bitmap.Calls
import BlockFS.Proofs.Footprint.Operations
import BlockFS.Proofs.Sessions
import BlockFS.Proofs.Stores.Calls

namespace BlockFS

namespace Store

variable {s t u : Store} {b : BlockNumber} {bs : Bytes}

/-! ## Where blocks lie in the image -/

/-- The bytes in the place of a block, those of block 0 among them. -/
def contents (s : Store) (b : BlockNumber) : Bytes := s.image.slice (b.toNat * s.blockLen) s.blockLen

theorem WellFormed.bytes_eq_contents (hs : s.WellFormed) (hb : b ≠ noBlock)
    (hlt : b.toNat < s.blockCount) : s.bytes b = s.contents b :=
  bytes_of_read (hs.read_eq hb hlt)

/-- Two stores of the same shape, with the same bits behind their flags and the same block 0. -/
structure SameOutline (s t : Store) : Prop extends s.SameShape t where
  spare : t.bitmap.spare = s.bitmap.spare
  first : t.contents noBlock = s.contents noBlock

theorem SameOutline.refl (s : Store) : s.SameOutline s := ⟨.refl s, rfl, rfl⟩

theorem SameOutline.trans (h : s.SameOutline t) (h' : t.SameOutline u) : s.SameOutline u :=
  ⟨h.toSameShape.trans h'.toSameShape, h'.spare.trans h.spare, h'.first.trans h.first⟩

theorem WellFormed.sameOutline_write (hs : s.WellFormed) (h : s.write b bs = .ok t) :
    s.SameOutline t := by
  have hshape := hs.sameShape_write h
  obtain ⟨-, hb, -, rfl⟩ := write_eq_ok h
  -- Block 0 ends where block 1 begins.
  have hfirst := first_le s hb
  refine ⟨hshape, rfl, List.map_congr_left fun k hk => ?_⟩
  have hk : k < s.blockLen := List.mem_range.1 hk
  show (s.image.write (b.toNat * s.blockLen) bs).byteAt (0 * s.blockLen + k) =
    s.image.byteAt (0 * s.blockLen + k)
  rw [Image.byteAt_write, if_neg (by omega)]

theorem sameOutline_allocate (h : s.allocate = some (b, t)) : s.SameOutline t := by
  have hshape := sameShape_allocate h
  obtain ⟨m, hm, rfl⟩ := allocate_eq_some h
  exact ⟨hshape, Bitmap.spare_of_allocate hm, rfl⟩

theorem sameOutline_release (h : s.release b = .ok t) : s.SameOutline t := by
  have hshape := sameShape_release h
  obtain ⟨m, hm, rfl⟩ := release_eq_ok h
  exact ⟨hshape, Bitmap.spare_of_release hm, rfl⟩

/-- No call changes the outline of a store. -/
theorem WellFormed.lasting_sameOutline (hs : s.WellFormed) : Lasting (s.SameOutline ·) where
  write := fun _ _ _ _ ht hw => ht.trans ((ht.wellFormed hs).sameOutline_write hw)
  allocate := fun _ _ _ ht ha => ht.trans (sameOutline_allocate ha)
  release := fun _ _ _ ht hr => ht.trans (sameOutline_release hr)

namespace SameOutline

theorem contents_eq (h : s.SameOutline t) (hs : s.WellFormed) (ha : s.isAllocated b = true)
    (hbytes : s.InUse b → t.bytes b = s.bytes b) : t.contents b = s.contents b := by
  -- Block 0 is occupied but never in use, so only the outline speaks of it.
  by_cases hb : b = noBlock
  · exact hb ▸ h.first
  have huse : s.InUse b := ⟨hb, ha⟩
  rw [← hs.bytes_eq_contents hb huse.lt, ← hbytes huse]
  exact ((h.wellFormed hs).bytes_eq_contents hb (h.blockCount ▸ huse.lt)).symm

theorem isAllocated_eq (ha : s.isAllocated b = true) (huse : s.InUse b → t.InUse b) :
    t.isAllocated b = true := by
  by_cases hb : b = noBlock
  · exact hb ▸ t.bitmap.occupied_zero
  · exact (huse ⟨hb, ha⟩).2

theorem bitmap_eq (h : s.SameOutline t) (hs : s.WellFormed)
    (huse : ∀ b, t.InUse b ↔ s.InUse b) : t.bitmap = s.bitmap := by
  refine Bitmap.eq_of_occupied h.blockCount h.spare fun k hk => ?_
  by_cases hzero : k = 0
  · rw [hzero, Bitmap.occupied_zero, Bitmap.occupied_zero]
  have hiff := huse (UInt32.ofNat k)
  rw [hs.inUse_ofNat_iff hk, (h.wellFormed hs).inUse_ofNat_iff (h.blockCount ▸ hk)] at hiff
  rw [Bool.eq_iff_iff]
  simpa [hzero] using hiff

end SameOutline

end Store

/-! ## Requests -/

namespace Session

variable {u : Session} {op : Operation}

theorem sameOutline_run (hs : u.device.store.WellFormed) (op : Operation) :
    u.device.store.SameOutline (u.run op).2.device.store := by
  have hend := (op.built_perform u.place).maintains hs.lasting_sameOutline u.device (.refl _)
  rw [run_eq]
  cases hp : op.perform u.place u.device with
  | ok x d => exact (hend.of_eq_ok hp).1
  | error e d => exact hend.of_eq_error hp

theorem confined_run (hs : u.device.store.Serves u.place.geometry) (op : Operation) :
    u.device.store.Confined (u.run op).2.device.store (op.rewritten u.device.store u.place)
      (op.released u.device.store u.place) := by
  have hend := op.spares_perform hs u.device ⟨rfl, rfl⟩
  rw [run_eq]
  cases hp : op.perform u.place u.device with
  | ok x d => exact hend.of_eq_ok hp
  | error e d => exact (hend.of_eq_error hp).1

/-- A block that was occupied keeps its bytes, unless it is the metadata block that the operation
rewrites, and stays occupied, unless it is one that the operation frees.  The store may be corrupt
and any call may fail. -/
theorem run_confined (hs : u.device.store.WellFormed)
    (hm : u.device.store.Mounts u.place.geometry) (op : Operation) :
    let s := u.device.store
    let t := (u.run op).2.device.store
    (∀ b, s.isAllocated b = true → op.rewritten s u.place ≠ some b → t.contents b = s.contents b) ∧
      (∀ b, s.isAllocated b = true → b ∉ op.released s u.place → t.isAllocated b = true) ∧
      u.check.2.device.store = s := by
  intro s t
  have hoff := sameOutline_run hs op
  have hconfined := confined_run (hm.serves hs) op
  refine ⟨fun b ha hne => ?_, fun b ha hmem => ?_, ?_⟩
  · exact hoff.contents_eq hs ha fun huse => hconfined.bytes b huse hne
  · exact Store.SameOutline.isAllocated_eq ha fun huse => hconfined.inUse b huse hmem
  · have hend := Check.store_of_run u.place.geometry u.device
    rw [check_eq]
    cases hrun : Check.run u.place.geometry u.device with
    | ok r d => exact hend.of_eq_ok hrun
    | error fault d => exact hend.of_eq_error hrun

/-- A session may find itself in a block that is free.  A directory that it makes there takes that
very block, and holds itself in the end. -/
theorem run_confined_freeDirectory : ∃ s, Store.inMemory 22 4 = .ok s ∧ s.WellFormed ∧
    s.Mounts ⟨1, 1, 1, 1, 1⟩ ∧
      let u : Session := ⟨Device.ofStore s, ⟨⟨1, 1, 1, 1, 1⟩, 2⟩⟩
      let t := (u.run (.makeDirectory "a")).2.device.store
      s.isAllocated 2 = false ∧ t.target? 2 "a" = some 2 ∧
        ∀ b, s.isAllocated b = true → t.contents b = s.contents b := by
  obtain ⟨s, hs, hfree, htarget⟩ : ∃ s, Store.inMemory 22 4 = .ok s ∧ s.isAllocated 2 = false ∧
      (run ⟨Device.ofStore s, ⟨⟨1, 1, 1, 1, 1⟩, 2⟩⟩ (.makeDirectory "a")).2.device.store.target? 2 "a"
        = some 2 := ⟨_, rfl, by decide +kernel, by decide +kernel⟩
  have hserves : s.Serves ⟨1, 1, 1, 1, 1⟩ :=
    Store.serves_of_inMemory hs (by decide) (by decide) (by decide) (by decide)
  have hm := Store.mounts_of_inMemory hs hserves
  have hconfined := run_confined (u := ⟨Device.ofStore s, ⟨⟨1, 1, 1, 1, 1⟩, 2⟩⟩)
    hserves.wellFormed hm (.makeDirectory "a")
  refine ⟨s, hs, hserves.wellFormed, hm, hfree, htarget, fun b hb => hconfined.1 b hb ?_⟩
  intro heq
  rw [← Option.some.inj heq] at hb
  exact Bool.false_ne_true (hfree.symm.trans hb)

/-- An operation that fails without a failed release has given back exactly what it took, and
has written nothing that was there before. -/
theorem run_restores {e : Error} (hs : u.device.store.WellFormed)
    (hm : u.device.store.Mounts u.place.geometry) (hrun : (u.run op).1 = .error e)
    (hfailed : (u.run op).2.device.calls.failedReleases = u.device.calls.failedReleases) :
    (u.run op).2.device.store.bitmap = u.device.store.bitmap ∧
      (∀ b, u.device.store.isAllocated b = true →
        (u.run op).2.device.store.contents b = u.device.store.contents b) ∧
      (u.run op).2.place = u.place := by
  have hoff := sameOutline_run hs op
  have hend := op.spares_perform (hm.serves hs) u.device ⟨rfl, rfl⟩
  rw [run_eq] at hrun hfailed hoff ⊢
  cases hp : op.perform u.place u.device with
  | ok x d =>
    rw [hp] at hrun
    cases hrun
  | error e' d =>
    rw [hp] at hfailed hoff
    have hsame : u.device.store.Extends d.store [] := (hend.of_eq_error hp).2 hfailed
    refine ⟨hoff.bitmap_eq hs fun b => ?_, fun b ha => ?_, rfl⟩
    · rw [hsame.inUse_iff]
      simp
    · exact hoff.contents_eq hs ha fun huse => hsame.bytes b huse

/-- The block of a new directory has been taken and written when the entry for it is not. -/
theorem run_restores_interrupted : ∃ s, Store.inMemory 22 4 = .ok s ∧ s.WellFormed ∧
    s.Mounts ⟨1, 1, 1, 1, 1⟩ ∧
      let u : Session := ⟨⟨s, .after none (some 1) none, {}⟩, ⟨⟨1, 1, 1, 1, 1⟩, rootBlock⟩⟩
      let v := (u.run (.makeDirectory "a")).2
      (u.run (.makeDirectory "a")).1 = .error (.io (.interrupted .write rootBlock)) ∧
        v.device.calls = ⟨1, 2, 1, 0⟩ ∧ v.device.store.bitmap = s.bitmap ∧
        (∀ b, s.isAllocated b = true → v.device.store.contents b = s.contents b) ∧
        v.place = u.place := by
  obtain ⟨s, hs, hrun, hcalls⟩ : ∃ s, Store.inMemory 22 4 = .ok s ∧
      (run ⟨⟨s, .after none (some 1) none, {}⟩, ⟨⟨1, 1, 1, 1, 1⟩, rootBlock⟩⟩
        (.makeDirectory "a")).1 = .error (.io (.interrupted .write rootBlock)) ∧
      (run ⟨⟨s, .after none (some 1) none, {}⟩, ⟨⟨1, 1, 1, 1, 1⟩, rootBlock⟩⟩
        (.makeDirectory "a")).2.device.calls = ⟨1, 2, 1, 0⟩ :=
    ⟨_, rfl, by decide +kernel, by decide +kernel⟩
  have hserves : s.Serves ⟨1, 1, 1, 1, 1⟩ :=
    Store.serves_of_inMemory hs (by decide) (by decide) (by decide) (by decide)
  have hm := Store.mounts_of_inMemory hs hserves
  exact ⟨s, hs, hserves.wellFormed, hm, hrun, hcalls,
    run_restores hserves.wellFormed hm hrun (by rw [hcalls])⟩

end Session
end BlockFS
