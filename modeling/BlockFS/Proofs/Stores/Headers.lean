/-
The header of a disk image is read back from the bytes that it is written as.

The header is read in two steps, and each of them looks at a part of the image only.
`Image.StartsWith` says what is in such a part.
-/
import BlockFS.Proofs.Bitmap.Bytes
import BlockFS.Proofs.Canonical
import BlockFS.Store.Disk

namespace BlockFS

/-! ## Headers -/

namespace Header

/-- The part before the length of the bitmap. -/
def prefixBytes (h : Header) : Bytes :=
  Bytes.ofNat 4 h.magic ++ (Bytes.ofNat 4 h.blockLen ++ Bytes.ofNat 4 h.blockCount)

/-- Each number fits into its field. -/
structure Writable (h : Header) : Prop where
  magic : h.magic < 256 ^ 4
  blockLen : h.blockLen < 256 ^ 4
  blockCount : h.blockCount < 256 ^ 4
  bitmap : h.bitmap.length < 256 ^ 8

variable {h : Header} {bs rest : Bytes}

theorem toBytes_eq (h : Header) :
    h.toBytes = h.prefixBytes ++ (Bytes.ofNat 8 h.bitmap.length ++ h.bitmap) := by
  simp only [toBytes, prefixBytes, List.append_assoc]

@[simp] theorem length_prefixBytes (h : Header) : h.prefixBytes.length = prefixLength := by
  simp [prefixBytes, prefixLength]

theorem prefixReader_append (hw : h.Writable) (rest : Bytes) :
    prefixReader (h.prefixBytes ++ rest) =
      .ok (⟨h.magic, h.blockLen, h.blockCount, []⟩, rest) := by
  unfold prefixReader prefixBytes
  simp only [List.append_assoc]
  rw [Codec.bind_of_ok (Codec.nat_append_of_lt hw.magic _),
    Codec.bind_of_ok (Codec.nat_append_of_lt hw.blockLen _),
    Codec.bind_of_ok (Codec.nat_append_of_lt hw.blockCount _)]
  rfl

theorem reader_append (hw : h.Writable) (rest : Bytes) :
    reader (h.toBytes ++ rest) = .ok (h, rest) := by
  unfold reader
  rw [toBytes_eq]
  simp only [List.append_assoc]
  rw [Codec.bind_of_ok (prefixReader_append hw _),
    Codec.bind_of_ok (Codec.nat_append_of_lt hw.bitmap _),
    Codec.bind_of_ok (Codec.bytes_append .endOfInput h.bitmap rest)]
  rfl

theorem eq_append_of_prefixReader (hr : prefixReader bs = .ok (h, rest)) :
    bs = h.prefixBytes ++ rest ∧ h.magic < 256 ^ 4 ∧ h.blockLen < 256 ^ 4 ∧
      h.blockCount < 256 ^ 4 := by
  obtain ⟨magic, bs₁, hmagic, hr⟩ := Codec.exists_of_bind hr
  obtain ⟨blockLen, bs₂, hlen, hr⟩ := Codec.exists_of_bind hr
  obtain ⟨blockCount, bs₃, hcount, hr⟩ := Codec.exists_of_bind hr
  cases hr
  obtain ⟨hbs, hmagic⟩ := Codec.eq_append_of_nat hmagic
  obtain ⟨hbs₁, hlen⟩ := Codec.eq_append_of_nat hlen
  obtain ⟨hbs₂, hcount⟩ := Codec.eq_append_of_nat hcount
  refine ⟨?_, hmagic, hlen, hcount⟩
  rw [hbs, hbs₁, hbs₂, prefixBytes]
  simp only [List.append_assoc]

/-- What is accepted as a header begins with what is written for it. -/
theorem eq_append_of_reader (hr : reader bs = .ok (h, rest)) :
    bs = h.toBytes ++ rest ∧ h.Writable := by
  obtain ⟨start, bs₁, hstart, hr⟩ := Codec.exists_of_bind hr
  obtain ⟨n, bs₂, hn, hr⟩ := Codec.exists_of_bind hr
  obtain ⟨bitmap, bs₃, hbitmap, hr⟩ := Codec.exists_of_bind hr
  cases hr
  obtain ⟨hbs, hmagic, hlen, hcount⟩ := eq_append_of_prefixReader hstart
  obtain ⟨hbs₁, hn⟩ := Codec.eq_append_of_nat hn
  obtain ⟨hbs₂, hlength⟩ := Codec.eq_append_of_bytes hbitmap
  constructor
  · rw [hbs, hbs₁, hbs₂, ← hlength, toBytes_eq]
    simp only [List.append_assoc]
    rfl
  · exact ⟨hmagic, hlen, hcount, hlength ▸ hn⟩

end Header

/-! ## Parts of an image -/

namespace Image

/-- The first bytes of an image. -/
def StartsWith (img : Image) (bs : Bytes) : Prop :=
  ∀ i < bs.length, img.byteAt i = bs.getD i 0

theorem StartsWith.slice {img : Image} {bs before part after : Bytes} (h : img.StartsWith bs)
    (hbs : bs = before ++ (part ++ after)) : img.slice before.length part.length = part := by
  apply List.ext_getElem (length_slice ..)
  intro i h₁ h₂
  have hlt : before.length + i < bs.length := by
    rw [hbs]
    simp only [List.length_append]
    omega
  have hget : bs.getD (before.length + i) 0 = part[i] := by
    rw [hbs, List.getD_eq_getElem?_getD, List.getElem?_append_right (Nat.le_add_right ..),
      Nat.add_sub_cancel_left, List.getElem?_append_left h₂, List.getElem?_eq_getElem h₂]
    rfl
  simp only [Image.slice, List.getElem_map, List.getElem_range]
  rw [h _ hlt, hget]

end Image

namespace Store

section Header

variable {img : Image} {h : Header}

theorem slice_prefix (himg : img.StartsWith h.toBytes) :
    img.slice 0 Header.prefixLength = h.prefixBytes := by
  have hslice := himg.slice (h.toBytes_eq.trans (List.nil_append _).symm)
  rwa [Header.length_prefixBytes] at hslice

/-- From an image that starts with a header that ends within the block, exactly the header
is taken. -/
theorem headerBytes_of_startsWith {blockLen : Nat} (hw : h.Writable)
    (himg : img.StartsWith h.toBytes) (hlen : h.toBytes.length ≤ blockLen) :
    headerBytes img blockLen = h.toBytes := by
  have hcount : img.slice Header.prefixLength 8 = Bytes.ofNat 8 h.bitmap.length := by
    have hslice := himg.slice h.toBytes_eq
    rwa [Header.length_prefixBytes, Bytes.length_ofNat] at hslice
  have hlength : Header.fixedLength + Bytes.toNat (img.slice Header.prefixLength 8)
      = h.toBytes.length := by
    rw [hcount, Bytes.toNat_ofNat, Nat.mod_eq_of_lt hw.bitmap, Header.length_toBytes]
  unfold headerBytes
  dsimp only
  rw [hlength, if_pos hlen]
  exact himg.slice (show _ = [] ++ (_ ++ []) by simp)

end Header

end Store
end BlockFS
