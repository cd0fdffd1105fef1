/-
Exactly the bytes of a block, with anything behind them, decode to it.

`RoundTrip` says that what is written is read back.  Here is the converse, in the same
order: whatever a reader accepts begins with the bytes that are written for its result.
Together they leave a block one spelling (`Block.decode_ok_iff`).  A reader never returns
a count or the length of a name that does not fit into the eight bytes that state it, so
`Countable` is no more than what decoding gives.
-/
import BlockFS.Proofs.RoundTrip

namespace BlockFS

namespace Codec

variable {α β : Type}

theorem exists_of_bind {r : Reader α} {f : α → Reader β} {bs rest : Bytes} {b : β}
    (h : (r >>= f) bs = .ok (b, rest)) :
    ∃ a mid, r bs = .ok (a, mid) ∧ f a mid = .ok (b, rest) := by
  cases hr : r bs with
  | error fault =>
    have herr : (r >>= f) bs = .error fault := by
      show Except.bind (r bs) _ = _
      rw [hr]
      rfl
    rw [herr] at h
    cases h
  | ok p =>
    obtain ⟨a, mid⟩ := p
    rw [bind_of_ok hr] at h
    exact ⟨a, mid, rfl, h⟩

theorem eq_append_of_word {x : UInt32} {bs rest : Bytes} (h : word bs = .ok (x, rest)) :
    bs = ofWord x ++ rest := by
  obtain ⟨n, mid, hn, hx⟩ := exists_of_bind h
  cases hx
  obtain ⟨hbs, hlt⟩ := eq_append_of_nat hn
  have hword : (UInt32.ofNat n).toNat = n := UInt32.toNat_ofNat_of_lt' hlt
  rw [hbs, ofWord, hword]

/-- What is accepted as a text is well-formed, and as long as it says. -/
theorem eq_append_of_text {s : String} {bs rest : Bytes} (h : text bs = .ok (s, rest)) :
    bs = ofText s ++ rest ∧ s.utf8ByteSize < 256 ^ 8 := by
  obtain ⟨n, mid, hn, h⟩ := exists_of_bind h
  obtain ⟨name, mid', hname, h⟩ := exists_of_bind h
  obtain ⟨hbs, hlt⟩ := eq_append_of_nat hn
  obtain ⟨hmid, hlen⟩ := eq_append_of_bytes hname
  cases hcs : Utf8.decode name with
  | error m =>
    rw [hcs] at h
    cases h
  | ok cs =>
    rw [hcs] at h
    cases h
    have hchars : (String.ofList cs).toList = cs := String.toList_ofList
    have henc : name = Utf8.encode (String.ofList cs).toList := by
      rw [hchars]
      exact Utf8.decode_eq_ok_iff.1 hcs
    have hsize : (String.ofList cs).utf8ByteSize = n := by
      rw [← length_encode_toList, ← henc, hlen]
    constructor
    · rw [hbs, hmid, ofText, hsize, ← henc, List.append_assoc]
    · omega

section Many

variable {r : Reader α} {enc : α → Bytes} {P : α → Prop}

theorem eq_append_of_many (hr : ∀ bs rest a, r bs = .ok (a, rest) → bs = enc a ++ rest ∧ P a)
    {n : Nat} {as : List α} {bs rest : Bytes} (h : many r n bs = .ok (as, rest)) :
    bs = as.flatMap enc ++ rest ∧ as.length = n ∧ ∀ a ∈ as, P a := by
  induction n generalizing bs as with
  | zero =>
    cases h
    simp
  | succ n ih =>
    obtain ⟨a, mid, ha, h⟩ := exists_of_bind h
    obtain ⟨as', mid', has, h⟩ := exists_of_bind h
    cases h
    obtain ⟨hbs, hP⟩ := hr _ _ _ ha
    obtain ⟨hmid, hlen, hall⟩ := ih has
    refine ⟨?_, ?_, ?_⟩
    · rw [hbs, hmid, List.flatMap_cons, List.append_assoc]
    · rw [List.length_cons, hlen]
    · exact List.forall_mem_cons.2 ⟨hP, hall⟩

theorem eq_append_of_counted
    (hr : ∀ bs rest a, r bs = .ok (a, rest) → bs = enc a ++ rest ∧ P a)
    {as : List α} {bs rest : Bytes} (h : counted r bs = .ok (as, rest)) :
    bs = (Bytes.ofNat 8 as.length ++ as.flatMap enc) ++ rest ∧ as.length < 256 ^ 8 ∧
      ∀ a ∈ as, P a := by
  obtain ⟨n, mid, hn, h⟩ := exists_of_bind h
  obtain ⟨hbs, hlt⟩ := eq_append_of_nat hn
  obtain ⟨hmid, rfl, hall⟩ := eq_append_of_many hr h
  refine ⟨?_, hlt, hall⟩
  rw [hbs, hmid, List.append_assoc]

end Many

end Codec

namespace Block

theorem eq_append_of_entryReader {e : Entry} {bs rest : Bytes}
    (h : entryReader bs = .ok (e, rest)) :
    bs = ofEntry e ++ rest ∧ e.name.utf8ByteSize < 2 ^ 64 := by
  obtain ⟨name, mid, hname, h⟩ := Codec.exists_of_bind h
  obtain ⟨target, mid', htarget, h⟩ := Codec.exists_of_bind h
  cases h
  obtain ⟨hbs, hlt⟩ := Codec.eq_append_of_text hname
  have hmid := Codec.eq_append_of_word htarget
  refine ⟨?_, hlt⟩
  rw [hbs, hmid, ofEntry, List.append_assoc]

theorem eq_append_of_directoryReader {d : Directory} {bs rest : Bytes}
    (h : directoryReader bs = .ok (d, rest)) :
    0 :: bs = (directory d).toBytes ++ rest ∧ (directory d).Countable := by
  obtain ⟨es, mid, hes, h⟩ := Codec.exists_of_bind h
  cases h
  obtain ⟨hbs, hlen, hnames⟩ := Codec.eq_append_of_counted
    (fun bs rest e => eq_append_of_entryReader) hes
  refine ⟨?_, hlen, hnames⟩
  rw [hbs]
  rfl

theorem eq_append_of_inodeReader {i : Inode} {bs rest : Bytes}
    (h : inodeReader bs = .ok (i, rest)) :
    1 :: bs = (file i).toBytes ++ rest ∧ (file i).Countable := by
  obtain ⟨size, mid, hsize, h⟩ := Codec.exists_of_bind h
  obtain ⟨blocks, mid', hblocks, h⟩ := Codec.exists_of_bind h
  cases h
  have hbs := Codec.eq_append_of_word hsize
  obtain ⟨hmid, hlen, -⟩ := Codec.eq_append_of_counted (P := fun _ => True)
    (fun bs rest x hx => ⟨Codec.eq_append_of_word hx, trivial⟩) hblocks
  refine ⟨?_, hlen⟩
  rw [hbs, hmid, ← List.append_assoc]
  rfl

theorem eq_append_of_decode {b : Block} {bs : Bytes} (h : decode bs = .ok b) :
    b.Countable ∧ ∃ rest, bs = b.toBytes ++ rest := by
  unfold decode at h
  split at h
  · cases h
  · split at h
    · next d rest hd =>
      cases h
      obtain ⟨hbs, hcount⟩ := eq_append_of_directoryReader hd
      exact ⟨hcount, rest, hbs⟩
    · cases h
  · split at h
    · next i rest hi =>
      cases h
      obtain ⟨hbs, hcount⟩ := eq_append_of_inodeReader hi
      exact ⟨hcount, rest, hbs⟩
    · cases h
  · cases h

theorem exists_encode_iff {b : Block} {blockLen : Nat} :
    (∃ contents, b.encode blockLen = .ok contents) ↔ b.encodedLength ≤ blockLen := by
  constructor
  · intro h
    obtain ⟨contents, h⟩ := h
    unfold encode at h
    dsimp only at h
    split at h
    · next hlen =>
      rw [length_toBytes] at hlen
      exact hlen
    · cases h
  · intro h
    exact ⟨_, encode_of_le h⟩

/-- A block that bytes decode to is written again as those bytes, but for zeros in the place
of what followed it. -/
theorem encode_of_append {b : Block} {bs rest : Bytes} (h : bs = b.toBytes ++ rest) :
    b.encode bs.length =
      .ok (bs.take b.encodedLength ++ List.replicate (bs.length - b.encodedLength) 0) := by
  have hlen := length_toBytes b
  have hle : b.encodedLength ≤ bs.length := by
    rw [h, List.length_append]
    omega
  have htake : bs.take b.encodedLength = b.toBytes := by
    rw [h, ← hlen, List.take_left]
  rw [encode_of_le hle, Bytes.padTo, htake, hlen]

/-- Exactly the bytes of a block, with anything behind them, decode to it.  So a block is
written if it fits, and read back as it was; and what is read is written as it was, up to
zeros behind it. -/
theorem decode_ok_iff :
    (∀ (bs : Bytes) (b : Block),
      decode bs = .ok b ↔ b.Countable ∧ ∃ rest, bs = b.toBytes ++ rest) ∧
    (∀ (b : Block) (blockLen : Nat), b.toBytes.length = b.encodedLength ∧
      ((∃ contents, b.encode blockLen = .ok contents) ↔ b.encodedLength ≤ blockLen)) ∧
    (∀ (b : Block) (blockLen : Nat) (contents : Bytes), b.Countable →
      b.encode blockLen = .ok contents → contents.length = blockLen ∧ decode contents = .ok b) ∧
    (∀ (bs : Bytes) (b : Block), decode bs = .ok b →
      b.encode bs.length =
        .ok (bs.take b.encodedLength ++ List.replicate (bs.length - b.encodedLength) 0)) := by
  refine ⟨?_, ?_, ?_, ?_⟩
  · intro bs b
    constructor
    · exact eq_append_of_decode
    · intro h
      obtain ⟨hcount, rest, rfl⟩ := h
      exact decode_toBytes_append hcount rest
  · intro b blockLen
    exact ⟨length_toBytes b, exists_encode_iff⟩
  · intro b blockLen contents hcount hb
    exact decode_of_encode hcount hb
  · intro bs b h
    obtain ⟨-, rest, hbs⟩ := eq_append_of_decode h
    exact encode_of_append hbs

/-- A directory with one entry, whose name takes two bytes, and two bytes behind it. -/
theorem decode_ok_iff_entry : ∃ b : Block, b = .directory ⟨[⟨"é", 5⟩]⟩ ∧ b.Countable ∧
    decode (b.toBytes ++ [7, 9]) = .ok b ∧
    b.encode (b.toBytes ++ [7, 9]).length = .ok (b.toBytes ++ [0, 0]) ∧
    decode (b.toBytes ++ [0, 0]) = .ok b := by
  have hcount : (Block.directory ⟨[⟨"é", 5⟩]⟩).Countable := by
    constructor
    · decide
    · intro e he
      rw [List.mem_singleton.1 he]
      decide
  have hdec := (decode_ok_iff.1 _ _).2 ⟨hcount, [7, 9], rfl⟩
  have henc := decode_ok_iff.2.2.2 _ _ hdec
  have hback := (decode_ok_iff.2.2.1 _ _ _ hcount henc).2
  exact ⟨_, rfl, hcount, hdec, henc, hback⟩

end Block
end BlockFS
