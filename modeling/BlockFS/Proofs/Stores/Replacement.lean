/-
What making an image does to the file in whose place it is made.

The file is emptied and brought to its new length before it is known whether there are enough
blocks, and whether a header that lists them ends within one of them.  If not, zeros are left of
the file (`create_rejected`).  No file of zeros opens as a disk image, so a filesystem that was in
the file is gone.  The program that makes filesystems fails on a file for no other reason
(`code_runFormat_eq_zero_iff`).
-/
import BlockFS.Program
import BlockFS.Proofs.Bitmap.Calls
import BlockFS.Proofs.Stores.Opening

namespace BlockFS

/-! ## Files of zeros -/

theorem Bytes.toNat_replicate_zero (n : Nat) : toNat (List.replicate n 0) = 0 := by
  induction n with
  | zero => rfl
  | succ n ih =>
    rw [List.replicate_succ, toNat, ih]
    rfl

theorem Image.toBytes_zeros (n : Nat) : (zeros n).toBytes = List.replicate n 0 :=
  slice_zeros n 0 n

namespace Store

variable {img : Image} {s : Store} {blockLen blocks : Nat}

/-- A file that opens as a disk image is not all zeros, as it starts with the magic number. -/
theorem toBytes_zeros_ne_of_openFile (h : openFile (.image img) = .ok s) (n : Nat) :
    (Image.zeros n).toBytes ≠ img.toBytes := by
  intro hsame
  obtain ⟨hsize, hmagic, -⟩ := openImage_eq_ok_iff.1 h
  have hprefix : Header.prefixLength = 12 := rfl
  have hstart : img.slice 0 4 = List.replicate (min 4 n) 0 := by
    rw [Image.slice_eq_take_drop (by omega), ← hsame, Image.toBytes_zeros, List.drop_zero,
      List.take_replicate]
  have hzero : img.magic = 0 := by
    rw [Image.magic, Image.number, hstart, Bytes.toNat_replicate_zero]
  rw [hmagic] at hzero
  cases hzero

theorem openFile_zeros_ne_ok (n : Nat) (s : Store) :
    openFile (.image (Image.zeros n)) ≠ .ok s :=
  fun h => toBytes_zeros_ne_of_openFile h n rfl

/-! ## Making an image in place of a file -/

theorem sync_of_fresh {m : Bitmap} {image : Image} (hm : Bitmap.fresh blocks = .ok m)
    (hlong : blockLen < Header.lengthFor blocks) :
    sync ⟨.disk, blockLen, m, image⟩ = .error ⟨blocks⟩ := by
  have hsize : m.size = blocks := Bitmap.size_of_fresh hm
  have hheader : (header ⟨.disk, blockLen, m, image⟩).toBytes.length = Header.lengthFor blocks :=
    (length_header _).trans (congrArg Header.lengthFor hsize)
  unfold sync
  dsimp only
  rw [if_neg (by omega)]
  exact congrArg (fun n => Except.error (HeaderOverrun.mk n)) hsize

/-- The header is measured before there is a bitmap, so that none is made that block 0 could not
hold.  This saves work and nothing else: for as many blocks as can be counted the outcome is that of
making the bitmap and writing the header then. -/
theorem create_eq (old : DiskFile) (hcount : blocks < Bitmap.sizeLimit) :
    create old blockLen blocks =
      match old with
      | .unreachable => .error (.unreachable, .unreachable)
      | _ =>
        let length := blockLen * blocks
        if sizeLimit ≤ length then .error (.lengthOverflow, .image (Image.zeros 0))
        else if fileLengthLimit ≤ length then .error (.exceedsFile, .image (Image.zeros 0))
        else
          match Bitmap.fresh blocks with
          | .error fault => .error (.bitmap fault, .image (Image.zeros length))
          | .ok bitmap =>
            match sync ⟨.disk, blockLen, bitmap, Image.zeros length⟩ with
            | .ok s => .ok s
            | .error fault => .error (.header fault, .image (Image.zeros length)) := by
  unfold create
  cases hm : Bitmap.fresh blocks with
  | error fault =>
    have hfew : ¬ (Bitmap.minBlocks ≤ blocks ∧ blockLen < Header.lengthFor blocks) := by
      intro hlong
      obtain ⟨m, hm'⟩ := Bitmap.exists_fresh hlong.1 hcount
      cases hm.symm.trans hm'
    cases old <;> simp only [if_neg hfew]
  | ok m =>
    by_cases hlong : Bitmap.minBlocks ≤ blocks ∧ blockLen < Header.lengthFor blocks
    · cases old <;> simp only [if_pos hlong, sync_of_fresh hm hlong.2]
    · cases hs : sync ⟨.disk, blockLen, m, Image.zeros (blockLen * blocks)⟩ with
      | ok s => cases old <;> simp only [if_neg hlong, hs]
      | error fault => cases old <;> simp only [if_neg hlong, hs]

/-- The fault of blocks that are too few, or too short for the header that lists them. -/
def rejection (blocks : Nat) : CreateFault :=
  if blocks < Bitmap.minBlocks then .bitmap .tooFewBlocks else .header ⟨blocks⟩

theorem create_of_limit_le (img : Image) (h : fileLengthLimit ≤ blockLen * blocks) :
    ∃ fault, create (.image img) blockLen blocks = .error (fault, .image (Image.zeros 0)) := by
  unfold create
  dsimp only
  by_cases hsize : sizeLimit ≤ blockLen * blocks
  · rw [if_pos hsize]
    exact ⟨_, rfl⟩
  · rw [if_neg hsize, if_pos h]
    exact ⟨_, rfl⟩

theorem create_of_rejected (img : Image) (hlen : blockLen * blocks < fileLengthLimit)
    (hargs : blocks < Bitmap.minBlocks ∨ blockLen < Header.lengthFor blocks) :
    create (.image img) blockLen blocks =
      .error (rejection blocks, .image (Image.zeros (blockLen * blocks))) := by
  have hlimit : fileLengthLimit ≤ sizeLimit := by decide
  unfold create rejection
  dsimp only
  rw [if_neg (by omega), if_neg (by omega)]
  by_cases hmin : blocks < Bitmap.minBlocks
  · rw [if_neg (by omega), if_pos hmin]
    simp only [Bitmap.fresh, dif_pos hmin]
  · rw [if_pos (by omega), if_neg hmin]

/-- Nothing else than the arguments stands in the way of a new image. -/
theorem exists_create (img : Image) (hlen : blockLen * blocks < fileLengthLimit)
    (hmin : Bitmap.minBlocks ≤ blocks) (hroom : Header.lengthFor blocks ≤ blockLen) :
    ∃ s, create (.image img) blockLen blocks = .ok s := by
  have hlimit : fileLengthLimit ≤ sizeLimit := by decide
  have hcount : blocks < Bitmap.sizeLimit := by
    have hfixed : 20 ≤ blockLen := Nat.le_trans (Nat.le_add_right 20 _) hroom
    have hmul : 20 * blocks ≤ blockLen * blocks := Nat.mul_le_mul_right _ hfixed
    have hbits : fileLengthLimit = 4 * Bitmap.sizeLimit := rfl
    omega
  obtain ⟨m, hm⟩ := Bitmap.exists_fresh hmin hcount
  have hsize : m.size = blocks := Bitmap.size_of_fresh hm
  obtain ⟨s, hs⟩ : ∃ s, sync ⟨.disk, blockLen, m, Image.zeros (blockLen * blocks)⟩ = .ok s := by
    refine ⟨_, if_pos ?_⟩
    rw [length_header]
    exact hsize.symm ▸ hroom
  refine ⟨s, ?_⟩
  rw [create_eq _ hcount]
  dsimp only
  rw [if_neg (by omega), if_neg (by omega)]
  simp only [hm, hs]

/-- A new image opens as the store that it was made for. -/
theorem openFile_of_create {old : DiskFile} (hlen : blockLen < 2 ^ 32) (hblocks : blocks < 2 ^ 32)
    (h : create old blockLen blocks = .ok s) : openFile (.image s.image) = .ok s := by
  obtain ⟨m, -, hdisk, hsynced⟩ := synced_of_create hlen hblocks h
  exact hsynced.openImage_eq hdisk

/-- On arguments that are refused the file becomes zeros, as many as the blocks would have taken
up, or none if no file has that many. -/
theorem exists_create_eq_error (img : Image)
    (hargs : blocks < Bitmap.minBlocks ∨ blockLen < Header.lengthFor blocks) :
    ∃ fault, create (.image img) blockLen blocks = .error (fault, .image (Image.zeros
        (if blockLen * blocks < fileLengthLimit then blockLen * blocks else 0))) ∧
      (blockLen * blocks < fileLengthLimit → fault = rejection blocks) := by
  by_cases hlen : blockLen * blocks < fileLengthLimit
  · rw [if_pos hlen]
    exact ⟨_, create_of_rejected img hlen hargs, fun _ => rfl⟩
  · rw [if_neg hlen]
    obtain ⟨fault, hcreate⟩ := create_of_limit_le img (Nat.le_of_not_lt hlen)
    exact ⟨fault, hcreate, fun h => absurd h hlen⟩

theorem exists_unmount (h : Header.lengthFor s.blockCount ≤ s.blockLen) : ∃ t, s.unmount = .ok t := by
  unfold unmount
  cases s.medium with
  | memory => exact ⟨s, rfl⟩
  | disk => exact ⟨_, if_pos (s.length_header ▸ h)⟩

end Store

/-! ## The program -/

namespace Invocation

variable {path : String} {img : Image} {blocks : Nat}

theorem runFormat_of_error {fault : Store.CreateFault} {left : DiskFile}
    (h : Store.create (.image img) (Geometry.blockLen {}) blocks = .error (fault, left)) :
    runFormat path blocks (.image img) = .failure [] (fault.chain path) left := by
  unfold runFormat
  simp only [h]

/-- Once an image has been made, nothing more can go wrong. -/
theorem exists_runFormat_eq (path : String) {s : Store} (hblocks : blocks < 2 ^ 32)
    (h : Store.create (.image img) (Geometry.blockLen {}) blocks = .ok s) :
    ∃ t : Store, runFormat path blocks (.image img) = .success [] (.image t.image) := by
  obtain ⟨m, -, hnew, hsynced⟩ := Store.synced_of_create (by decide) hblocks h
  have hdisk : s.OnDisk := hsynced.sameShape.onDisk hnew
  have hserves : s.Serves {} :=
    ⟨hdisk.toWellFormed, by decide, by decide, Nat.le_of_eq hsynced.blockLen.symm⟩
  obtain ⟨d, hd⟩ := hserves.exists_format
  obtain ⟨-, -, -, ⟨contents, hw⟩, -⟩ := Place.format_eq_ok hd hdisk.toWellFormed
  have hroom : Header.lengthFor d.store.blockCount ≤ d.store.blockLen := by
    rw [hw.blockCount, hw.blockLen]
    exact hdisk.room
  obtain ⟨t, ht⟩ := Store.exists_unmount hroom
  refine ⟨t, ?_⟩
  unfold runFormat
  simp only [h, hd, Session.unmount, ht]

/-- A filesystem with the usual limits is made in place of a file exactly if it has at least two
blocks and the first one has room for its header. -/
theorem code_runFormat_eq_zero_iff :
    (runFormat path blocks (.image img)).code = 0 ↔
      Bitmap.minBlocks ≤ blocks ∧ Header.lengthFor blocks ≤ Geometry.blockLen {} := by
  constructor
  · intro hcode
    apply Decidable.byContradiction
    intro hfits
    have hargs : blocks < Bitmap.minBlocks ∨ Geometry.blockLen {} < Header.lengthFor blocks := by
      omega
    obtain ⟨fault, hcreate, -⟩ := Store.exists_create_eq_error img hargs
    rw [runFormat_of_error hcreate] at hcode
    cases hcode
  · rintro ⟨hmin, hroom⟩
    have hcount : blocks < 2 ^ 32 := by
      have hlen : 20 + (blocks + 7) / 8 ≤ 4096 := hroom
      omega
    have hlen : Geometry.blockLen {} * blocks < fileLengthLimit := by
      show 4096 * blocks < 2 ^ 63
      omega
    obtain ⟨s, hs⟩ := Store.exists_create img hlen hmin hroom
    obtain ⟨t, ht⟩ := exists_runFormat_eq path hcount hs
    rw [ht]
    rfl

end Invocation

/-! ## What is left of the file -/

namespace Store

/-- With fewer than two blocks, or with blocks too short for the header that lists them, no image
is made, and the file in its place is lost: whatever it held, it is zeros now, as many as the
blocks would have taken up.  Such a file does not open, and a file that did has not kept its
bytes.  The program that makes filesystems reports the fault and leaves the same zeros. -/
theorem create_rejected (img : Image) {blockLen blocks : Nat}
    (hargs : blocks < 2 ∨ blockLen < Header.lengthFor blocks) :
    ∃ fault left, create (.image img) blockLen blocks = .error (fault, .image left) ∧
      (blockLen * blocks < 2 ^ 63 → fault = rejection blocks) ∧
      left.toBytes =
        List.replicate (if blockLen * blocks < 2 ^ 63 then blockLen * blocks else 0) 0 ∧
      (∀ s, openFile (.image left) ≠ .ok s) ∧
      ((∃ s, openFile (.image img) = .ok s) → left.toBytes ≠ img.toBytes) ∧
      ∀ (args : List String) (path : String) (prompt : Option String) (stdin : Bytes),
        blockLen = Geometry.blockLen {} →
        Invocation.ofArguments .disk args = .ok (.format path blocks) →
        Program.run .disk args prompt (.image img) stdin =
          .failure [] (fault.chain path) (.image left) := by
  obtain ⟨fault, hcreate, hfault⟩ := exists_create_eq_error img hargs
  refine ⟨fault, _, hcreate, hfault, Image.toBytes_zeros _, openFile_zeros_ne_ok _, ?_, ?_⟩
  · rintro ⟨s, hs⟩
    exact toBytes_zeros_ne_of_openFile hs _
  · intro args path prompt stdin hlen hinvocation
    subst hlen
    unfold Program.run
    rw [hinvocation]
    exact Invocation.runFormat_of_error hcreate

/-- The image of a filesystem of eight blocks is lost to one that would have 40000. -/
theorem create_rejected_overlong : ∃ s t fault left, create .absent 4096 8 = .ok s ∧
    openFile (.image s.image) = .ok t ∧ 4096 < Header.lengthFor 40000 ∧
    create (.image s.image) 4096 40000 = .error (fault, .image left) ∧
    left.toBytes = List.replicate (4096 * 40000) 0 ∧ left.toBytes ≠ s.image.toBytes ∧
    Program.run .disk ["format", "disk", "--num-blocks", "40000"] none (.image s.image) [] =
      .failure [] (fault.chain "disk") (.image left) := by
  obtain ⟨s, hs⟩ : ∃ s, create .absent 4096 8 = .ok s := ⟨_, rfl⟩
  have hopen := openFile_of_create (by decide) (by decide) hs
  have hlong : 4096 < Header.lengthFor 40000 := by decide
  obtain ⟨fault, left, hcreate, -, hzeros, -, hlost, hrun⟩ :=
    create_rejected s.image (.inr hlong)
  exact ⟨s, s, fault, left, hs, hopen, hlong, hcreate, hzeros, hlost ⟨s, hopen⟩,
    hrun _ "disk" none [] rfl (by rfl)⟩

/-- A file that opens does not keep its bytes when an image of too few blocks, or of more than its
header has room for, is refused in its place. -/
theorem create_rejected_lost : ∃ s t, create .absent 4096 8 = .ok s ∧
    openFile (.image s.image) = .ok t ∧
    (∃ left, create (.image s.image) 64 1 = .error (.bitmap .tooFewBlocks, .image left) ∧
      left.toBytes ≠ s.image.toBytes) ∧
    (∃ left, create (.image s.image) 32 1024 = .error (.header ⟨1024⟩, .image left) ∧
      left.toBytes ≠ s.image.toBytes) ∧
    ∃ left, Program.run .disk ["format", "disk", "--num-blocks", "1"] none (.image s.image) [] =
        .failure [] ["a disk needs at least 2 blocks"] (.image left) ∧
      left.toBytes ≠ s.image.toBytes := by
  obtain ⟨s, hs⟩ : ∃ s, create .absent 4096 8 = .ok s := ⟨_, rfl⟩
  have hopen := openFile_of_create (by decide) (by decide) hs
  have hlost := toBytes_zeros_ne_of_openFile hopen
  exact ⟨s, s, hs, hopen, ⟨_, rfl, hlost _⟩, ⟨_, rfl, hlost _⟩, _, rfl, hlost _⟩

end Store
end BlockFS
