/-
Which files open as disk images, and what is found in those that do.

`Image.Accepted` says in terms of the bytes of a file what opening it asks for.  The header is
read in two steps, the second one over a part of block 0 that the first one settles, so both
are brought back to numbers at fixed positions (`prefixReader_slice`, `reader_headerBytes`).
What is left is the bitmap, of which bit `k` is that of the block numbered `k`
(`Bitmap.flags_of_ofBytes_slice`).
-/
import BlockFS.Proofs.Stores.Reopening

namespace BlockFS

/-! ## The fields of a header -/

namespace Image

/-- The number in the `w` bytes at position `pos`, least significant byte first. -/
def number (img : Image) (pos w : Nat) : Nat := Bytes.toNat (img.slice pos w)

/-- The first of three numbers is the same in all disk images. -/
def magic (img : Image) : Nat := img.number 0 4

def blockLen (img : Image) : Nat := img.number 4 4

def blockCount (img : Image) : Nat := img.number 8 4

/-- How many bytes of bitmap follow. -/
def bitmapLength (img : Image) : Nat := img.number 12 8

/-- Bit `k` of the bitmap, lowest bit of each byte first. -/
def bitmapBit (img : Image) (k : Nat) : Bool :=
  (img.byteAt (20 + k / 8)).toNat.testBit (k % 8)

/-- The bytes of a file that opens as a disk image. -/
structure Accepted (img : Image) : Prop where
  prefix_le : 12 ≤ img.size
  magic : img.magic = 0x4A465331
  blockLen : 12 < img.blockLen
  blockCount : 1 < img.blockCount
  blocks_le : img.blockLen * img.blockCount ≤ img.size
  header_le : 20 + img.bitmapLength ≤ img.blockLen
  bitmap_ge : img.blockCount ≤ 8 * img.bitmapLength
  noBlock : img.bitmapBit 0 = true
  rootBlock : img.bitmapBit 1 = true

theorem slice_add (img : Image) (pos a b : Nat) :
    img.slice pos (a + b) = img.slice pos a ++ img.slice (pos + a) b := by
  unfold slice
  rw [List.range_add, List.map_append, List.map_map]
  congr 1
  apply List.map_congr_left
  intro k _
  simp only [Function.comp_apply, Nat.add_assoc]

theorem ofNat_number (img : Image) (pos w : Nat) :
    Bytes.ofNat w (img.number pos w) = img.slice pos w := by
  have h := Bytes.ofNat_toNat (img.slice pos w)
  rwa [length_slice] at h

theorem number_lt (img : Image) (pos w : Nat) : img.number pos w < 256 ^ w := by
  have h := Bytes.toNat_lt (img.slice pos w)
  rwa [length_slice] at h

theorem getElem?_slice (img : Image) (pos len k : Nat) :
    (img.slice pos len)[k]? = if k < len then some (img.byteAt (pos + k)) else none := by
  unfold slice
  rw [List.getElem?_map]
  split
  · next hk => rw [List.getElem?_range hk]; rfl
  · next hk => rw [List.getElem?_eq_none (by simpa using hk)]; rfl

/-- The bytes read from a position are those of the file. -/
theorem slice_eq_take_drop {img : Image} {pos len : Nat} (h : pos + len ≤ img.size) :
    img.slice pos len = (img.toBytes.drop pos).take len := by
  apply List.ext_getElem?
  intro k
  rw [getElem?_slice, List.getElem?_take, List.getElem?_drop]
  split
  · unfold toBytes
    rw [getElem?_slice, if_pos (by omega), Nat.zero_add]
  · rfl

end Image

/-! ## Reading the header -/

namespace Store

variable {img : Image} {s : Store}

/-- The numbers at the start of an image, with some bitmap. -/
def headerWith (img : Image) (bitmap : Bytes) : Header :=
  ⟨img.magic, img.blockLen, img.blockCount, bitmap⟩

@[simp] theorem bitmap_headerWith (img : Image) (bitmap : Bytes) :
    (headerWith img bitmap).bitmap = bitmap :=
  rfl

theorem prefixBytes_headerWith (img : Image) (bitmap : Bytes) :
    (headerWith img bitmap).prefixBytes = img.slice 0 Header.prefixLength := by
  show Bytes.ofNat 4 (img.number 0 4) ++
    (Bytes.ofNat 4 (img.number 4 4) ++ Bytes.ofNat 4 (img.number 8 4)) = img.slice 0 (4 + (4 + 4))
  rw [Image.slice_add, Image.slice_add]
  simp only [Image.ofNat_number, Nat.zero_add]

theorem writable_headerWith {img : Image} {bitmap : Bytes} (h : bitmap.length < 256 ^ 8) :
    (headerWith img bitmap).Writable :=
  ⟨img.number_lt 0 4, img.number_lt 4 4, img.number_lt 8 4, h⟩

theorem prefixReader_slice (img : Image) :
    Header.prefixReader (img.slice 0 Header.prefixLength) = .ok (headerWith img [], []) := by
  have hw : (headerWith img []).Writable := writable_headerWith (Nat.pos_of_ne_zero (by decide))
  have h := Header.prefixReader_append hw []
  rwa [List.append_nil, prefixBytes_headerWith] at h

/-- The bytes behind the length of the bitmap that are the bitmap. -/
def bitmapBytes (img : Image) : Bytes := img.slice 20 img.bitmapLength

theorem length_bitmapBytes (img : Image) : (bitmapBytes img).length = img.bitmapLength :=
  img.length_slice 20 _

theorem toBytes_headerWith (img : Image) :
    (headerWith img (bitmapBytes img)).toBytes = img.slice 0 (20 + img.bitmapLength) := by
  have hcount : Bytes.ofNat 8 img.bitmapLength = img.slice 12 8 := by
    unfold Image.bitmapLength
    exact img.ofNat_number 12 8
  rw [Header.toBytes_eq, prefixBytes_headerWith, bitmap_headerWith, length_bitmapBytes, hcount,
    Image.slice_add img 0 20, Image.slice_add img 0 12 8, List.append_assoc, Nat.zero_add,
    Nat.zero_add]
  rfl

theorem headerBytes_eq (img : Image) (blockLen : Nat) :
    headerBytes img blockLen = img.slice 0
      (if 20 + img.bitmapLength ≤ blockLen then 20 + img.bitmapLength else min blockLen 20) :=
  rfl

/-- The header is read exactly if it ends within block 0. -/
theorem reader_headerBytes {full : Header} {rest : Bytes} :
    Header.reader (headerBytes img img.blockLen) = .ok (full, rest) ↔
      20 + img.bitmapLength ≤ img.blockLen ∧ full = headerWith img (bitmapBytes img) ∧ rest = [] := by
  by_cases hlen : 20 + img.bitmapLength ≤ img.blockLen
  · have hbytes : headerBytes img img.blockLen = (headerWith img (bitmapBytes img)).toBytes := by
      rw [headerBytes_eq, if_pos hlen, toBytes_headerWith]
    have hw : (headerWith img (bitmapBytes img)).Writable :=
      writable_headerWith (length_bitmapBytes img ▸ img.number_lt 12 8)
    have hread := Header.reader_append hw []
    rw [List.append_nil, ← hbytes] at hread
    rw [hread]
    grind
  · refine ⟨fun h => ?_, fun h => absurd h.1 hlen⟩
    -- Of a header that is too long at most the fixed part is there, and so it would have to
    -- state a bitmap of no bytes.
    obtain ⟨happ, -⟩ := Header.eq_append_of_reader h
    rw [headerBytes_eq, if_neg hlen] at happ
    have hlength := congrArg List.length happ
    rw [Image.length_slice, List.length_append, Header.length_toBytes] at hlength
    have hfixed : Header.fixedLength = 20 := rfl
    have hempty : full.bitmap = [] := List.length_eq_zero_iff.1 (by omega)
    have hrest : rest = [] := List.length_eq_zero_iff.1 (by omega)
    have hmin : min img.blockLen 20 = 12 + 8 := by omega
    rw [hmin, Image.slice_add, hrest, List.append_nil, Header.toBytes_eq, hempty,
      List.append_nil] at happ
    have hzero := (List.append_inj happ (by simp [Header.prefixLength])).2
    have hcount : img.bitmapLength = 0 := by
      unfold Image.bitmapLength Image.number
      rw [Nat.zero_add] at hzero
      rw [hzero]
      rfl
    omega

end Store

/-! ## Reading the bitmap -/

namespace Bitmap

variable {img : Image} {m : Bitmap} {n : Nat}

theorem bit_slice {len k : Nat} (hk : k < 8 * len) :
    Bytes.bit (img.slice 20 len) k = img.bitmapBit k := by
  unfold Bytes.bit
  rw [Image.getElem?_slice, if_pos (by omega)]
  rfl

theorem exists_ofBytes_slice_iff {len : Nat} :
    (∃ m, ofBytes (img.slice 20 len) n = .ok m) ↔
      1 < n ∧ n ≤ 8 * len ∧ img.bitmapBit 0 = true ∧ img.bitmapBit 1 = true := by
  rw [exists_ofBytes_iff, Image.length_slice]
  refine and_congr_right fun hmin => and_congr_right fun hlen => ?_
  have hmin : 2 ≤ n := hmin
  rw [bit_slice (by omega), bit_slice (by omega)]

theorem flags_of_ofBytes_slice {len : Nat} (h : ofBytes (img.slice 20 len) n = .ok m) :
    m.flags.toList = (List.range n).map img.bitmapBit := by
  obtain ⟨-, hlen, -⟩ := exists_ofBytes_slice_iff.1 ⟨m, h⟩
  rw [flags_of_ofBytes h]
  refine List.map_congr_left fun k hk => bit_slice ?_
  have hk := List.mem_range.1 hk
  omega

end Bitmap

/-! ## Opening an image -/

namespace Store

variable {img : Image} {s : Store}

theorem openImage_eq_ok_iff :
    openImage img = .ok s ↔
      Header.prefixLength ≤ img.size ∧ img.magic = Header.magicNumber ∧
        Header.prefixLength < img.blockLen ∧ Bitmap.minBlocks ≤ img.blockCount ∧
        img.blockLen * img.blockCount ≤ img.size ∧ 20 + img.bitmapLength ≤ img.blockLen ∧
        ∃ m, Bitmap.ofBytes (bitmapBytes img) img.blockCount = .ok m ∧
          s = ⟨.disk, img.blockLen, m, img⟩ := by
  have hread : img.read? 0 Header.prefixLength =
      if Header.prefixLength ≤ img.size then some (img.slice 0 Header.prefixLength)
      else none := by
    unfold Image.read?
    rw [Nat.zero_add]
  unfold openImage
  rw [hread]
  constructor
  · intro h
    by_cases hsize : Header.prefixLength ≤ img.size
    case neg =>
      rw [if_neg hsize] at h
      cases h
    case pos =>
    rw [if_pos hsize] at h
    simp only [prefixReader_slice] at h
    split at h
    · cases h
    next hmagic =>
    split at h
    · cases h
    next hlen =>
    split at h
    · cases h
    next hcount =>
    split at h
    · cases h
    next hfits =>
    split at h
    · cases h
    next full rest hfull =>
    obtain ⟨hheader, rfl, -⟩ := reader_headerBytes.1 hfull
    split at h
    · cases h
    next m hm =>
    cases h
    rw [bitmap_headerWith] at hm
    have hmagic : img.magic = Header.magicNumber := Decidable.not_not.1 hmagic
    exact ⟨hsize, hmagic, Nat.lt_of_not_le hlen, Nat.le_of_not_lt hcount,
      Nat.le_of_not_lt hfits, hheader, m, hm, rfl⟩
  · intro h
    obtain ⟨hsize, hmagic, hlen, hcount, hfits, hheader, m, hm, rfl⟩ := h
    have hfull : Header.reader (headerBytes img img.blockLen)
        = .ok (headerWith img (bitmapBytes img), []) := reader_headerBytes.2 ⟨hheader, rfl, rfl⟩
    rw [if_pos hsize]
    simp only [prefixReader_slice, headerWith] at hfull ⊢
    rw [if_neg (Decidable.not_not.2 hmagic), if_neg (Nat.not_le.2 hlen),
      if_neg (Nat.not_lt.2 hcount), if_neg (Nat.not_lt.2 hfits)]
    simp only [hfull, hm]

/-- A file opens as a disk image exactly if its bytes are accepted.  The store then has the
blocks that the header states, occupied as its bitmap says, with the bytes that the file has
in their places. -/
theorem openFile_image (img : Image) :
    ((∃ s, openFile (.image img) = .ok s) ↔ img.Accepted) ∧
      ∀ s, openFile (.image img) = .ok s →
        s.blockLen = img.blockLen ∧ s.blockCount = img.blockCount ∧
        (∀ b : BlockNumber,
          s.isAllocated b = (decide (b.toNat < img.blockCount) && img.bitmapBit b.toNat)) ∧
        s.freeCount = ((List.range img.blockCount).countP fun k => !img.bitmapBit k) ∧
        ∀ b : BlockNumber, 1 ≤ b.toNat → b.toNat < img.blockCount →
          s.read b = .ok ((img.toBytes.drop (b.toNat * img.blockLen)).take img.blockLen) ∧
          (b.toNat + 1) * img.blockLen ≤ img.toBytes.length := by
  have hopen : openFile (.image img) = openImage img := rfl
  rw [hopen]
  constructor
  · constructor
    · intro h
      obtain ⟨s, h⟩ := h
      obtain ⟨hsize, hmagic, hlen, hcount, hfits, hheader, m, hm, -⟩ := openImage_eq_ok_iff.1 h
      obtain ⟨-, hlong, hno, hroot⟩ := Bitmap.exists_ofBytes_slice_iff.1 ⟨m, hm⟩
      exact ⟨hsize, hmagic, hlen, hcount, hfits, hheader, hlong, hno, hroot⟩
    · intro h
      obtain ⟨m, hm⟩ := Bitmap.exists_ofBytes_slice_iff.2
        ⟨h.blockCount, h.bitmap_ge, h.noBlock, h.rootBlock⟩
      exact ⟨_, openImage_eq_ok_iff.2 ⟨h.prefix_le, h.magic, h.blockLen, h.blockCount,
        h.blocks_le, h.header_le, m, hm, rfl⟩⟩
  · intro s h
    have hs := (onDisk_of_openImage h).toWellFormed
    obtain ⟨-, -, -, -, hfits, -, m, hm, rfl⟩ := openImage_eq_ok_iff.1 h
    have hflags := Bitmap.flags_of_ofBytes_slice hm
    have hcount : m.size = img.blockCount := Bitmap.size_of_ofBytes hm
    refine ⟨rfl, hcount, fun b => Bitmap.occupied_of_flags hflags _,
      Bitmap.freeCount_of_flags hflags, ?_⟩
    intro b hpos hlt
    have hne : b ≠ noBlock := by
      rintro rfl
      exact absurd hpos (by decide)
    have hend : (b.toNat + 1) * img.blockLen ≤ img.size := by
      have := Nat.mul_le_mul_right img.blockLen (Nat.succ_le_of_lt hlt)
      rw [Nat.mul_comm img.blockCount] at this
      exact Nat.le_trans this hfits
    refine ⟨?_, by rwa [Image.toBytes, Image.length_slice]⟩
    rw [hs.read_eq hne (hcount.symm ▸ hlt : b.toNat < m.size)]
    exact congrArg Except.ok (Image.slice_eq_take_drop (by rwa [Nat.succ_mul] at hend))

/-- Three blocks of 21 bytes, which leave room for one byte of bitmap.  Its bits behind the
third one are set and do not count. -/
def spareBitsImage : Image :=
  (Image.zeros 63).write 0
    [0x31, 0x53, 0x46, 0x4A, 21, 0, 0, 0, 3, 0, 0, 0, 1, 0, 0, 0, 0, 0, 0, 0, 0xEB]

theorem openFile_image_spareBits : ∃ s, openFile (.image spareBitsImage) = .ok s ∧
    s.blockCount = 3 ∧ s.freeCount = 1 ∧ s.isAllocated 2 = false ∧ s.isAllocated 5 = false ∧
    s.read 2 = .ok (List.replicate 21 0) := by
  have haccepted : spareBitsImage.Accepted := by
    constructor <;> decide +kernel
  obtain ⟨s, hs⟩ := (openFile_image spareBitsImage).1.2 haccepted
  obtain ⟨-, hcount, halloc, hfree, hread⟩ := (openFile_image spareBitsImage).2 s hs
  refine ⟨s, hs, hcount.trans (by decide +kernel), hfree.trans (by decide +kernel),
    (halloc 2).trans (by decide +kernel), (halloc 5).trans (by decide +kernel), ?_⟩
  refine (hread 2 (by decide) (by decide +kernel)).1.trans (congrArg Except.ok ?_)
  decide +kernel

end Store
end BlockFS
