/-
What is kept of a store is in its image.

A store in an image has its bitmap apart from it until the header is written.  `OnDisk` holds
of such a store from the time that the image is made or opened, through all calls, and is
enough for the header to fit.  `Synced` says what writing the header does.  An image with its
header written opens as the very store it was written for (`Synced.openImage_eq`), and so
nothing but block 0 tells the stores before and after apart.
-/
import BlockFS.Proofs.Mount
import BlockFS.Proofs.Stores.Calls
import BlockFS.Proofs.Stores.Headers

namespace BlockFS
namespace Store

variable {s t u : Store}

/-! ## The header of a store -/

/-- A store in an image, with room for its header in block 0. -/
structure OnDisk (s : Store) : Prop extends WellFormed s where
  medium : s.medium = .disk
  blockLen_lt : s.blockLen < 2 ^ 32
  room : Header.lengthFor s.blockCount ≤ s.blockLen

/-- Two stores of one shape, with the same blocks in use.  Nothing but block 0 tells them
apart. -/
structure SameBlocks (s t : Store) : Prop where
  medium : t.medium = s.medium
  blockLen : t.blockLen = s.blockLen
  bitmap : t.bitmap = s.bitmap
  size : t.image.size = s.image.size
  byteAt_ge : ∀ i, s.blockLen ≤ i → t.image.byteAt i = s.image.byteAt i

/-- The store after the header has been written. -/
structure Synced (s t : Store) : Prop extends s.SameBlocks t where
  byteAt_lt : ∀ i < s.blockLen, t.image.byteAt i = s.header.toBytes.getD i 0

theorem length_header (s : Store) : s.header.toBytes.length = Header.lengthFor s.blockCount := by
  rw [Header.length_toBytes]
  show Header.fixedLength + s.bitmap.toBytes.length = _
  rw [Bitmap.length_toBytes]
  rfl

theorem WellFormed.blockLen_le (hs : s.WellFormed) : s.blockLen ≤ s.image.size := by
  have hmin : 1 ≤ s.blockCount := Nat.le_trans (by decide) s.bitmap.two_le_size
  have := Nat.mul_le_mul_right s.blockLen hmin
  have := hs.covered
  omega

theorem OnDisk.writable (hs : s.OnDisk) : s.header.Writable := by
  have hcount := hs.blockCount_lt
  have hmagic : Header.magicNumber < 256 ^ 4 := by decide
  refine ⟨hmagic, hs.blockLen_lt, hcount, ?_⟩
  show s.bitmap.toBytes.length < 256 ^ 8
  rw [Bitmap.length_toBytes]
  unfold blockCount at hcount
  omega

theorem SameShape.onDisk (h : s.SameShape t) (hs : s.OnDisk) : t.OnDisk where
  toWellFormed := h.wellFormed hs.toWellFormed
  medium := h.medium.trans hs.medium
  blockLen_lt := h.blockLen ▸ hs.blockLen_lt
  room := by
    rw [h.blockCount, h.blockLen]
    exact hs.room

/-! ## Writing the header -/

theorem OnDisk.exists_sync (hs : s.OnDisk) : ∃ t, s.sync = .ok t ∧ s.Synced t := by
  have hlen := s.length_header
  have hroom : s.header.toBytes.length ≤ s.blockLen := hlen ▸ hs.room
  have hsize := hs.blockLen_le
  refine ⟨_, if_pos hroom, ⟨rfl, rfl, rfl, ?_, ?_⟩, ?_⟩
  · show ((s.image.write 0 _).clear _ _).size = _
    rw [Image.size_clear, Image.size_write]
    split <;> omega
  · intro i hi
    show ((s.image.write 0 _).clear _ _).byteAt i = _
    rw [Image.byteAt_clear, Image.byteAt_write, if_neg (by omega), if_neg (by omega)]
  · intro i hi
    show ((s.image.write 0 _).clear _ _).byteAt i = _
    rw [Image.byteAt_clear, Image.byteAt_write]
    by_cases hlt : i < s.header.toBytes.length
    · rw [if_neg (by omega), if_pos (by omega), Nat.sub_zero]
    · rw [if_pos (by omega), List.getD_eq_getElem?_getD, List.getElem?_eq_none (by omega)]
      rfl

namespace SameBlocks

theorem blockCount (h : s.SameBlocks t) : t.blockCount = s.blockCount :=
  congrArg Bitmap.size h.bitmap

theorem header (h : s.SameBlocks t) : t.header = s.header := by
  unfold Store.header
  rw [h.blockLen, h.blockCount, h.bitmap]

theorem sameShape (h : s.SameBlocks t) : s.SameShape t :=
  ⟨h.medium, h.blockLen, h.blockCount, h.size⟩

theorem position_eq (h : s.SameBlocks t) (b : BlockNumber) : t.position b = s.position b := by
  unfold position
  rw [h.medium, h.blockCount, h.blockLen]

theorem read_eq (h : s.SameBlocks t) (b : BlockNumber) : t.read b = s.read b := by
  unfold Store.read
  rw [h.position_eq]
  cases hp : s.position b with
  | error fault => rfl
  | ok pos =>
    obtain ⟨hb, -, rfl⟩ := position_eq_ok_iff.1 hp
    have hfirst := s.first_le hb
    have hslice : t.image.slice (b.toNat * s.blockLen) s.blockLen =
        s.image.slice (b.toNat * s.blockLen) s.blockLen := by
      apply List.map_congr_left
      intro k _
      exact h.byteAt_ge _ (by omega)
    simp only [Image.read?, h.blockLen, h.size, hslice]

/-- Once their headers have been written, nothing at all tells the images apart. -/
theorem toBytes_eq (h : s.SameBlocks t) {s' t' : Store} (hs : s.Synced s') (ht : t.Synced t') :
    t'.image.toBytes = s'.image.toBytes := by
  unfold Image.toBytes Image.slice
  rw [ht.size, hs.size, h.size]
  apply List.map_congr_left
  intro k _
  rw [Nat.zero_add]
  by_cases hk : k < s.blockLen
  · rw [hs.byteAt_lt k hk, ht.byteAt_lt k (h.blockLen ▸ hk), h.header]
  · have hk := Nat.le_of_not_lt hk
    rw [hs.byteAt_ge k hk, ht.byteAt_ge k (h.blockLen ▸ hk), h.byteAt_ge k hk]

end SameBlocks

namespace Synced

theorem startsWith (h : s.Synced t) (hs : s.OnDisk) : t.image.StartsWith t.header.toBytes := by
  have hroom : s.header.toBytes.length ≤ s.blockLen := s.length_header ▸ hs.room
  intro i hi
  rw [h.header] at hi ⊢
  exact h.byteAt_lt i (Nat.lt_of_lt_of_le hi hroom)

/-- Writing the header once more changes nothing. -/
theorem toBytes_eq (h : s.Synced t) (h' : t.Synced u) : u.image.toBytes = t.image.toBytes :=
  h.toSameBlocks.toBytes_eq h h'

/-- An image whose header has been written opens as the store that it was written for. -/
theorem openImage_eq (h : s.Synced t) (hs : s.OnDisk) : openImage t.image = .ok t := by
  have ht := h.sameShape.onDisk hs
  have hw := ht.writable
  have hstart := h.startsWith hs
  have hroom : t.header.toBytes.length ≤ t.blockLen := t.length_header ▸ ht.room
  have hlong : Header.prefixLength < t.blockLen := by
    have := ht.room
    unfold Header.lengthFor Header.fixedLength at this
    omega
  have hfirst : t.image.read? 0 Header.prefixLength = some t.header.prefixBytes := by
    have hsize := ht.blockLen_le
    unfold Image.read?
    rw [if_pos (by omega), slice_prefix hstart]
  have hreads : Header.prefixReader t.header.prefixBytes =
      .ok (⟨Header.magicNumber, t.blockLen, t.blockCount, []⟩, []) := by
    have := Header.prefixReader_append hw []
    rwa [List.append_nil] at this
  have hreader : Header.reader (headerBytes t.image t.blockLen) = .ok (t.header, []) := by
    have := Header.reader_append hw []
    rwa [List.append_nil, ← headerBytes_of_startsWith hw hstart hroom] at this
  have hfits : t.blockLen * t.blockCount ≤ t.image.size :=
    Nat.mul_comm t.blockLen t.blockCount ▸ ht.covered
  have hbitmap : Bitmap.ofBytes t.header.bitmap t.blockCount = .ok t.bitmap :=
    t.bitmap.ofBytes_toBytes
  have hcount : ¬ t.blockCount < Bitmap.minBlocks := Nat.not_lt.2 t.bitmap.two_le_size
  unfold openImage
  simp only [hfirst, hreads]
  rw [if_neg (Decidable.not_not.2 rfl), if_neg (Nat.not_le.2 hlong), if_neg hcount,
    if_neg (Nat.not_lt.2 hfits)]
  simp only [hreader, hbitmap, ← ht.medium]

end Synced

/-! ## Making and opening an image -/

/-- A new image is all zeros until its header is written, for which there is room. -/
theorem synced_of_create {old : DiskFile} {blockLen blocks : Nat} (hlen : blockLen < 2 ^ 32)
    (hblocks : blocks < 2 ^ 32) (h : create old blockLen blocks = .ok s) :
    ∃ m, Bitmap.fresh blocks = .ok m ∧
      OnDisk ⟨.disk, blockLen, m, Image.zeros (blockLen * blocks)⟩ ∧
      Synced ⟨.disk, blockLen, m, Image.zeros (blockLen * blocks)⟩ s := by
  obtain ⟨m, hm, hsync⟩ := create_eq_ok h
  obtain ⟨hroom, -⟩ := sync_eq_ok hsync
  rw [length_header] at hroom
  have hdisk : OnDisk ⟨.disk, blockLen, m, Image.zeros (blockLen * blocks)⟩ :=
    ⟨wellFormed_of_fresh hm hblocks, rfl, hlen, hroom⟩
  obtain ⟨t, ht, hsynced⟩ := hdisk.exists_sync
  rw [hsync] at ht
  cases ht
  exact ⟨m, hm, hdisk, hsynced⟩

theorem onDisk_of_create {old : DiskFile} {blockLen blocks : Nat} (hlen : blockLen < 2 ^ 32)
    (hblocks : blocks < 2 ^ 32) (h : create old blockLen blocks = .ok s) : s.OnDisk := by
  obtain ⟨m, -, hdisk, hsynced⟩ := synced_of_create hlen hblocks h
  exact hsynced.sameShape.onDisk hdisk

/-- The header of an image that is opened ends within its block, and its bitmap is no shorter
than the one that is written back. -/
theorem onDisk_of_openImage {image : Image} (h : openImage image = .ok s) : s.OnDisk := by
  obtain ⟨bs, rest, rest', start, full, m, hstart, hfits, hfull, hm, rfl⟩ := openImage_eq_ok h
  obtain ⟨-, -, hlen, hcount⟩ := Header.eq_append_of_prefixReader hstart
  obtain ⟨hbytes, -⟩ := Header.eq_append_of_reader hfull
  have hsize : m.size = start.blockCount := Bitmap.size_of_ofBytes hm
  have hstored := Bitmap.length_of_ofBytes hm
  have hwithin : (headerBytes image start.blockLen).length ≤ start.blockLen := by
    unfold headerBytes
    dsimp only
    rw [Image.length_slice]
    split <;> omega
  rw [hbytes, List.length_append, Header.length_toBytes] at hwithin
  refine ⟨⟨?_, ?_⟩, rfl, hlen, ?_⟩
  · show m.size < 2 ^ 32
    rw [hsize]
    exact hcount
  · show m.size * start.blockLen ≤ image.size
    rw [hsize, Nat.mul_comm]
    exact hfits
  · show Header.lengthFor m.size ≤ start.blockLen
    rw [hsize]
    unfold Header.lengthFor
    omega

/-! ## Calls and reopening -/

theorem OnDisk.unmount_eq (hs : s.OnDisk) : s.unmount = s.sync := by
  unfold unmount
  rw [hs.medium]

/-- Giving a store up and opening its image is no more than writing the header. -/
theorem OnDisk.exists_reopen (hs : s.OnDisk) : ∃ t, s.reopen = .ok t ∧ s.Synced t := by
  obtain ⟨t, ht, hst⟩ := hs.exists_sync
  refine ⟨t, ?_, hst⟩
  unfold reopen
  rw [hs.medium]
  simp only [hs.unmount_eq, ht, openFile, DiskFile.image?, hst.openImage_eq hs]

theorem OnDisk.sameShape_call (hs : s.OnDisk) (c : Call) : s.SameShape (s.call c).2 := by
  unfold call
  cases c with
  | read b =>
    simp only [attempt]
    cases s.read b <;> exact .refl s
  | write b contents =>
    simp only [attempt]
    cases hw : s.write b contents with
    | ok t => exact hs.sameShape_write hw
    | error fault => exact .refl s
  | allocate =>
    simp only [attempt]
    cases ha : s.allocate with
    | some p => exact sameShape_allocate ha
    | none => exact .refl s
  | release b =>
    simp only [attempt]
    cases hr : s.release b with
    | ok t => exact sameShape_release hr
    | error fault => exact .refl s
  | isAllocated b => exact .refl s
  | freeCount => exact .refl s
  | sync =>
    obtain ⟨t, ht, hst⟩ := hs.exists_sync
    simp only [attempt, hs.medium, ht]
    exact hst.sameShape
  | reopen =>
    obtain ⟨t, ht, hst⟩ := hs.exists_reopen
    simp only [attempt, ht]
    exact hst.sameShape

theorem OnDisk.sameShape_callAll (hs : s.OnDisk) (cs : List Call) :
    s.SameShape (s.callAll cs).2 := by
  induction cs generalizing s with
  | nil => exact .refl s
  | cons c cs ih =>
    have hc := hs.sameShape_call c
    exact hc.trans (ih (hc.onDisk hs))

/-- A store in an image that was made or opened can be given up whatever has been called on it.
Its image then opens as a store of the same blocks, with the same bitmap and the same bytes in
each block but block 0; and to open it and give it up again leaves every byte as it is. -/
theorem openFile_unmount {s : Store}
    (hs : (∃ (old : DiskFile) (blockLen blocks : Nat), blockLen < 2 ^ 32 ∧ blocks < 2 ^ 32 ∧
        create old blockLen blocks = .ok s) ∨
      ∃ file : DiskFile, openFile file = .ok s)
    (cs : List Call) :
    let t := (s.callAll cs).2
    ∃ u v w : Store, t.unmount = .ok u ∧ openFile (.image u.image) = .ok v ∧
      (v.blockLen = t.blockLen ∧ t.blockLen = s.blockLen) ∧
      (v.blockCount = t.blockCount ∧ t.blockCount = s.blockCount) ∧
      v.bitmap = t.bitmap ∧
      (∀ b : BlockNumber, b ≠ noBlock → b.toNat < t.blockCount →
        ∃ contents, t.read b = .ok contents ∧ v.read b = .ok contents) ∧
      v.unmount = .ok w ∧ w.image.toBytes = u.image.toBytes := by
  intro t
  have hdisk : s.OnDisk := by
    rcases hs with ⟨old, blockLen, blocks, hlen, hblocks, h⟩ | ⟨file, h⟩
    · exact onDisk_of_create hlen hblocks h
    · unfold openFile at h
      cases hi : file.image? with
      | none => simp only [hi] at h; cases h
      | some image =>
        rw [hi] at h
        exact onDisk_of_openImage h
  have hshape : s.SameShape t := hdisk.sameShape_callAll cs
  have ht : t.OnDisk := hshape.onDisk hdisk
  obtain ⟨u, hu, htu⟩ := ht.exists_sync
  have hud : u.OnDisk := htu.sameShape.onDisk ht
  obtain ⟨w, hw, huw⟩ := hud.exists_sync
  refine ⟨u, u, w, ?_, htu.openImage_eq ht, ⟨htu.blockLen, hshape.blockLen⟩,
    ⟨htu.blockCount, hshape.blockCount⟩, htu.bitmap, ?_, ?_, htu.toBytes_eq huw⟩
  · rw [ht.unmount_eq, hu]
  · intro b hb hlt
    have hread := ht.read_eq hb hlt
    exact ⟨_, hread, (htu.read_eq b).trans hread⟩
  · rw [hud.unmount_eq, hw]

/-- Block 2 has been handed out and written, block 9 does not exist, and the last call comes
after the header was written. -/
theorem openFile_unmount_new : ∃ s t u v : Store, create .absent 32 8 = .ok s ∧
    t = (s.callAll [.allocate, .write 2 (List.replicate 32 7), .release 9, .sync, .allocate]).2 ∧
    t.unmount = .ok u ∧ openFile (.image u.image) = .ok v ∧ v.bitmap = t.bitmap ∧
    ∃ contents, t.read 2 = .ok contents ∧ v.read 2 = .ok contents := by
  obtain ⟨s, hs⟩ : ∃ s, create .absent 32 8 = .ok s := ⟨_, rfl⟩
  obtain ⟨u, v, w, hu, hv, -, ⟨-, hcount⟩, hbitmap, hread, -⟩ :=
    openFile_unmount (.inl ⟨.absent, 32, 8, by decide, by decide, hs⟩)
      [.allocate, .write 2 (List.replicate 32 7), .release 9, .sync, .allocate]
  have hblocks : s.blockCount = 8 := by
    obtain ⟨m, hm, hsync⟩ := create_eq_ok hs
    obtain ⟨-, rfl⟩ := sync_eq_ok hsync
    exact Bitmap.size_of_fresh hm
  refine ⟨s, _, u, v, hs, rfl, hu, hv, hbitmap, hread 2 (by decide) ?_⟩
  rw [hcount, hblocks]
  decide

end Store
end BlockFS
