/-
Block lengths that a header has no room for.

A header states the length of the blocks in four bytes, and a greater length is cut to that width
when the header is written.  Nothing is said about it: the image is made all the same, and its
file has the length that was asked for.  What it opens with, if it opens at all, is the length that
was left (`openImage_sync_iff`).
-/
import BlockFS.Proofs.Stores.Opening

namespace BlockFS

/-! ## Numbers in an image -/

namespace Image

variable {img : Image} {h : Header}

theorem StartsWith.number {bs before after : Bytes} {pos w n : Nat} (himg : img.StartsWith bs)
    (hbs : bs = before ++ (Bytes.ofNat w n ++ after)) (hpos : before.length = pos) :
    img.number pos w = n % 256 ^ w := by
  have hslice := himg.slice hbs
  rw [Bytes.length_ofNat, hpos] at hslice
  rw [Image.number, hslice, Bytes.toNat_ofNat]

/-- Of each number in a header the image holds what fits into its field. -/
theorem StartsWith.numbers (himg : img.StartsWith h.toBytes) :
    img.magic = h.magic % 2 ^ 32 ∧ img.blockLen = h.blockLen % 2 ^ 32 ∧
      img.blockCount = h.blockCount % 2 ^ 32 ∧ img.bitmapLength = h.bitmap.length % 2 ^ 64 := by
  obtain ⟨rest, hbytes⟩ : ∃ rest, h.toBytes = Bytes.ofNat 4 h.magic ++
      (Bytes.ofNat 4 h.blockLen ++ (Bytes.ofNat 4 h.blockCount ++ rest)) := by
    rw [h.toBytes_eq, Header.prefixBytes]
    simp only [List.append_assoc]
    exact ⟨_, rfl⟩
  refine ⟨himg.number (hbytes.trans (List.nil_append _).symm) rfl,
    himg.number hbytes (Bytes.length_ofNat ..),
    himg.number (hbytes.trans (List.append_assoc ..).symm) ?_,
    himg.number h.toBytes_eq h.length_prefixBytes⟩
  rw [List.length_append, Bytes.length_ofNat, Bytes.length_ofNat]

end Image

namespace Store

variable {s t u : Store}

/-! ## Writing a header -/

theorem startsWith_of_sync (h : s.sync = .ok t) : t.image.StartsWith s.header.toBytes := by
  obtain ⟨-, rfl⟩ := sync_eq_ok h
  intro i hi
  show ((s.image.write 0 _).clear _ _).byteAt i = _
  rw [Image.byteAt_clear, Image.byteAt_write, if_neg (by omega), if_pos (by omega), Nat.sub_zero]

theorem WellFormed.size_of_sync (hs : s.WellFormed) (h : s.sync = .ok t) :
    t.image.size = s.image.size := by
  obtain ⟨hlen, rfl⟩ := sync_eq_ok h
  have hfirst := hs.blockLen_le
  show ((s.image.write 0 _).clear _ _).size = _
  rw [Image.size_clear, Image.size_write]
  split <;> omega

/-- All of the header is in the image, except that the block length is cut. -/
theorem WellFormed.numbers_of_sync (hs : s.WellFormed) (h : s.sync = .ok t) :
    t.image.magic = Header.magicNumber ∧ t.image.blockLen = s.blockLen % 2 ^ 32 ∧
      t.image.blockCount = s.blockCount ∧ t.image.bitmapLength = (s.blockCount + 7) / 8 ∧
      bitmapBytes t.image = s.bitmap.toBytes := by
  have himg := startsWith_of_sync h
  obtain ⟨hmagic, hlen, hcount, hbitmap⟩ := himg.numbers
  have hblocks := hs.blockCount_lt
  have hlength : s.header.bitmap.length = (s.blockCount + 7) / 8 := s.bitmap.length_toBytes
  rw [hlength, Nat.mod_eq_of_lt (by omega)] at hbitmap
  refine ⟨hmagic, hlen, hcount.trans (Nat.mod_eq_of_lt hblocks), hbitmap, ?_⟩
  have hbytes : s.header.toBytes = (s.header.prefixBytes ++ Bytes.ofNat 8 s.header.bitmap.length) ++
      (s.header.bitmap ++ []) := by
    rw [s.header.toBytes_eq, List.append_nil, List.append_assoc]
  have hslice := himg.slice hbytes
  rw [List.length_append, Header.length_prefixBytes, Bytes.length_ofNat, hlength,
    ← hbitmap] at hslice
  exact hslice

/-- After the header has been written, the image opens with the part of the block length that the
header has room for, provided that the header ends within a block of that length. -/
theorem WellFormed.openImage_sync_iff (hs : s.WellFormed) (h : s.sync = .ok t) :
    openImage t.image = .ok u ↔ Header.lengthFor s.blockCount ≤ s.blockLen % 2 ^ 32 ∧
      u = ⟨.disk, s.blockLen % 2 ^ 32, s.bitmap, t.image⟩ := by
  obtain ⟨hmagic, hlen, hcount, hlength, hbytes⟩ := hs.numbers_of_sync h
  have hroom : Header.lengthFor s.blockCount = 20 + (s.blockCount + 7) / 8 := rfl
  rw [openImage_eq_ok_iff, hmagic, hlen, hcount, hlength, hbytes, hs.size_of_sync h, hroom]
  constructor
  · rintro ⟨-, -, -, -, -, hends, m, hm, rfl⟩
    obtain rfl := Except.ok.inj (s.bitmap.ofBytes_toBytes.symm.trans hm)
    exact ⟨hends, rfl⟩
  · rintro ⟨hends, rfl⟩
    have hprefix : Header.prefixLength = 12 := rfl
    have hle : s.blockLen % 2 ^ 32 ≤ s.blockLen := Nat.mod_le ..
    have hfirst := hs.blockLen_le
    have hfits : s.blockLen % 2 ^ 32 * s.blockCount ≤ s.image.size := by
      refine Nat.le_trans (Nat.mul_le_mul_right _ hle) ?_
      rw [Nat.mul_comm]
      exact hs.covered
    exact ⟨by omega, rfl, by omega, s.bitmap.two_le_size, hfits, hends, s.bitmap,
      s.bitmap.ofBytes_toBytes, rfl⟩

/-! ## Making an image -/

/-- An image is made only if its file can have the length of its blocks. -/
theorem length_lt_of_create {old : DiskFile} {blockLen blocks : Nat}
    (h : create old blockLen blocks = .ok s) : blockLen * blocks < fileLengthLimit := by
  unfold create at h
  split at h
  · cases h
  dsimp only at h
  split at h
  · cases h
  split at h
  · cases h
  next hlt =>
  exact Nat.lt_of_not_le hlt

/-- A new image has as many bytes as its blocks take up.  It opens with the number of blocks that
it was made with and with what four bytes hold of their length, provided that its header ends
within a block of that length.  So it opens as it was made exactly if the length fits. -/
theorem openFile_create {old : DiskFile} {blockLen blocks : Nat} (hblocks : blocks < 2 ^ 32)
    (h : create old blockLen blocks = .ok s) :
    s.image.size = blockLen * blocks ∧ blockLen * blocks < 2 ^ 63 ∧
      s.blockLen = blockLen ∧ s.blockCount = blocks ∧
      (∀ t, openFile (.image s.image) = .ok t ↔ Header.lengthFor blocks ≤ blockLen % 2 ^ 32 ∧
        t = ⟨.disk, blockLen % 2 ^ 32, s.bitmap, s.image⟩) ∧
      ((∃ t, openFile (.image s.image) = .ok t ∧ t.blockLen = blockLen ∧ t.blockCount = blocks) ↔
        blockLen < 2 ^ 32) := by
  obtain ⟨m, hm, hsync⟩ := create_eq_ok h
  have hs : WellFormed ⟨.disk, blockLen, m, Image.zeros (blockLen * blocks)⟩ :=
    wellFormed_of_fresh hm hblocks
  have hcount : m.size = blocks := Bitmap.size_of_fresh hm
  have hsize : s.image.size = blockLen * blocks := hs.size_of_sync hsync
  obtain ⟨hlen, hbitmap⟩ : s.blockLen = blockLen ∧ s.bitmap = m := by
    obtain ⟨-, rfl⟩ := sync_eq_ok hsync
    exact ⟨rfl, rfl⟩
  have hopen : ∀ t, openFile (.image s.image) = .ok t ↔
      Header.lengthFor blocks ≤ blockLen % 2 ^ 32 ∧
        t = ⟨.disk, blockLen % 2 ^ 32, s.bitmap, s.image⟩ := by
    intro t
    rw [hbitmap, ← hcount]
    exact hs.openImage_sync_iff hsync
  have hblockCount : s.blockCount = blocks := by
    rw [blockCount, hbitmap, hcount]
  refine ⟨hsize, length_lt_of_create h, hlen, hblockCount, hopen, ?_⟩
  constructor
  · rintro ⟨t, ht, hsame, -⟩
    obtain ⟨-, rfl⟩ := (hopen t).1 ht
    rw [← hsame]
    exact Nat.mod_lt _ (by decide)
  · intro hfits
    have hmod := Nat.mod_eq_of_lt hfits
    have hroom := (sync_eq_ok hsync).1
    rw [length_header] at hroom
    refine ⟨_, (hopen _).2 ⟨?_, rfl⟩, hmod, hblockCount⟩
    rw [hmod, ← hcount]
    exact hroom

theorem openFile_create_new : ∃ s, create .absent 32 8 = .ok s ∧
    ∃ t, openFile (.image s.image) = .ok t ∧ t.blockLen = 32 ∧ t.blockCount = 8 := by
  obtain ⟨s, hs⟩ : ∃ s, create .absent 32 8 = .ok s := ⟨_, rfl⟩
  exact ⟨s, hs, (openFile_create (by decide) hs).2.2.2.2.2.2 (by decide)⟩

/-- Two blocks a little longer than four bytes can say are made and open as two blocks of 64
bytes; two blocks that are just too long do not open. -/
theorem openFile_create_narrowed :
    (∃ s t, create .absent (2 ^ 32 + 64) 2 = .ok s ∧ openFile (.image s.image) = .ok t ∧
      t.blockLen = 64 ∧ t.blockCount = 2) ∧
    ∃ s, create .absent (2 ^ 32) 2 = .ok s ∧
      openFile (.image s.image) = .error (.badBlockLen 0) := by
  exact ⟨⟨_, _, rfl, rfl, rfl, rfl⟩, _, rfl, rfl⟩

end Store
end BlockFS
