/-
A metadata block is read back from its bytes, whatever follows them.

The readers are taken in the order in which they are built: numbers, texts, values in a
row, entries, blocks.  `decode_toBytes_append` asks only that the counts and the lengths
of the names fit into the eight bytes that state them.
-/
import BlockFS.Block.Layout
import Mathlib.Algebra.Group.Nat.Defs

namespace BlockFS

namespace Bytes

theorem toNat_ofNat (w n : Nat) : toNat (ofNat w n) = n % 256 ^ w := by
  induction w generalizing n with
  | zero => simp [ofNat, toNat, Nat.mod_one]
  | succ w ih =>
    have hpow : 256 ^ (w + 1) = 256 * 256 ^ w := Nat.pow_succ'
    rw [ofNat, toNat, ih, UInt8.toNat_ofNat', hpow, Nat.mod_mul]

theorem toNat_lt (bs : Bytes) : toNat bs < 256 ^ bs.length := by
  induction bs with
  | nil => simp [toNat]
  | cons b bs ih =>
    have hb : b.toNat < 256 := b.toNat_lt
    rw [toNat, List.length_cons, Nat.pow_succ]
    omega

end Bytes

namespace Codec

variable {α β : Type}

theorem bind_of_ok {r : Reader α} {f : α → Reader β} {bs rest : Bytes} {a : α}
    (h : r bs = .ok (a, rest)) : (r >>= f) bs = f a rest := by
  show Except.bind (r bs) (fun p => f p.1 p.2) = f a rest
  rw [h]
  rfl

theorem nat_append (w n : Nat) (rest : Bytes) :
    nat w (Bytes.ofNat w n ++ rest) = .ok (n % 256 ^ w, rest) := by
  have h := bytes_append .endOfInput (Bytes.ofNat w n) rest
  rw [Bytes.length_ofNat] at h
  unfold nat
  rw [bind_of_ok h, Bytes.toNat_ofNat]
  rfl

theorem eq_append_of_nat {w n : Nat} {bs rest : Bytes} (h : nat w bs = .ok (n, rest)) :
    bs = Bytes.ofNat w n ++ rest ∧ n < 256 ^ w := by
  cases hbytes : bytes w .endOfInput bs with
  | error fault =>
    have herr : nat w bs = .error fault := by
      show Except.bind (bytes w .endOfInput bs) _ = _
      rw [hbytes]
      rfl
    rw [herr] at h
    cases h
  | ok p =>
    obtain ⟨a, rest'⟩ := p
    unfold nat at h
    rw [bind_of_ok hbytes] at h
    cases h
    obtain ⟨rfl, rfl⟩ := eq_append_of_bytes hbytes
    exact ⟨by rw [Bytes.ofNat_toNat], Bytes.toNat_lt a⟩

theorem nat_append_of_lt {w n : Nat} (h : n < 256 ^ w) (rest : Bytes) :
    nat w (Bytes.ofNat w n ++ rest) = .ok (n, rest) := by
  rw [nat_append, Nat.mod_eq_of_lt h]

theorem word_append (x : UInt32) (rest : Bytes) : word (ofWord x ++ rest) = .ok (x, rest) := by
  have hx : x.toNat < 256 ^ 4 := x.toNat_lt
  unfold word ofWord
  rw [bind_of_ok (nat_append_of_lt hx rest), UInt32.ofNat_toNat]
  rfl

theorem text_append {s : String} (h : s.utf8ByteSize < 256 ^ 8) (rest : Bytes) :
    text (ofText s ++ rest) = .ok (s, rest) := by
  have hbytes := bytes_append .nameOverrun (Utf8.encode s.toList) rest
  rw [length_encode_toList] at hbytes
  unfold text ofText
  rw [List.append_assoc, bind_of_ok (nat_append_of_lt h _), bind_of_ok hbytes,
    Utf8.decode_eq_ok_iff.2 rfl]
  show Except.ok (String.ofList s.toList, rest) = _
  rw [String.ofList_toList]

theorem many_append {r : Reader α} {enc : α → Bytes} {as : List α}
    (h : ∀ a ∈ as, ∀ rest, r (enc a ++ rest) = .ok (a, rest)) (rest : Bytes) :
    many r as.length (as.flatMap enc ++ rest) = .ok (as, rest) := by
  induction as with
  | nil => rfl
  | cons a as ih =>
    have htail := ih fun b hb => h b (List.mem_cons_of_mem a hb)
    rw [List.flatMap_cons, List.length_cons, many, List.append_assoc,
      bind_of_ok (h a List.mem_cons_self _), bind_of_ok htail]
    rfl

theorem counted_append {r : Reader α} (enc : α → Bytes) {as : List α}
    (hlen : as.length < 256 ^ 8) (h : ∀ a ∈ as, ∀ rest, r (enc a ++ rest) = .ok (a, rest))
    (rest : Bytes) :
    counted r ((Bytes.ofNat 8 as.length ++ as.flatMap enc) ++ rest) = .ok (as, rest) := by
  unfold counted
  rw [List.append_assoc, bind_of_ok (nat_append_of_lt hlen _)]
  exact many_append h rest

end Codec

namespace Block

/-- The counts and the lengths of names in a block fit into eight bytes each. -/
def Countable : Block → Prop
  | directory d => d.size < 2 ^ 64 ∧ ∀ e ∈ d.entries, e.name.utf8ByteSize < 2 ^ 64
  | file i => i.dataBlocks.length < 2 ^ 64

theorem entryReader_append {e : Entry} (h : e.name.utf8ByteSize < 2 ^ 64) (rest : Bytes) :
    entryReader (ofEntry e ++ rest) = .ok (e, rest) := by
  unfold entryReader ofEntry
  rw [List.append_assoc, Codec.bind_of_ok (Codec.text_append h _),
    Codec.bind_of_ok (Codec.word_append e.target rest)]
  rfl

theorem decode_toBytes_append {b : Block} (h : b.Countable) (rest : Bytes) :
    decode (b.toBytes ++ rest) = .ok b := by
  cases b with
  | directory d =>
    have hread : directoryReader ((Bytes.ofNat 8 d.size ++ d.entries.flatMap ofEntry) ++ rest)
        = .ok (d, rest) := by
      have hentries := Codec.counted_append (r := entryReader) ofEntry h.1
        (fun e he rest => entryReader_append (h.2 e he) rest) rest
      unfold directoryReader
      rw [Directory.size, Codec.bind_of_ok hentries]
      rfl
    simp only [toBytes, List.cons_append, decode, hread]
  | file i =>
    have hblocks := Codec.counted_append (r := Codec.word) Codec.ofWord h
      (fun x _ rest => Codec.word_append x rest) rest
    have hread : inodeReader (Codec.ofWord i.fileSize ++ ((Bytes.ofNat 8 i.dataBlocks.length ++
        i.dataBlocks.flatMap Codec.ofWord) ++ rest)) = .ok (i, rest) := by
      unfold inodeReader
      rw [Codec.bind_of_ok (Codec.word_append i.fileSize _), Codec.bind_of_ok hblocks]
      rfl
    rw [← List.append_assoc] at hread
    simp only [toBytes, List.cons_append, decode, hread]

/-- A block that fits is read back from the contents it is stored as. -/
theorem decode_of_encode {b : Block} (h : b.Countable) {blockLen : Nat} {contents : Bytes}
    (hb : b.encode blockLen = .ok contents) :
    contents.length = blockLen ∧ decode contents = .ok b := by
  simp only [encode] at hb
  split at hb
  · next hlen =>
    cases hb
    exact ⟨Bytes.length_padTo hlen, decode_toBytes_append h _⟩
  · cases hb

end Block
end BlockFS
