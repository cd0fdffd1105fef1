/-
The bytes of a bitmap, bit by bit.

A bitmap is written eight flags to a byte, with its spare bits in the last one, so nothing of
it is lost (`ofBytes_toBytes`).  Of the bytes that a bitmap is read from, bit `k` is the flag of
block `k` (`flags_of_ofBytes`), and it takes no more than enough bits and the two reserved
blocks for there to be a bitmap (`exists_ofBytes_iff`).
-/
import BlockFS.Bitmap

namespace BlockFS

/-! ## Bits -/

namespace Bytes

/-- Bit `k` of a byte string, the lowest bit of each byte first.  There are no bits set behind
its end. -/
def bit (bs : Bytes) (k : Nat) : Bool :=
  (bs[k / 8]?.getD 0).toNat.testBit (k % 8)

theorem bitsOfByte_byteOfBits : ∀ a b c d e f g h : Bool,
    bitsOfByte (byteOfBits [a, b, c, d, e, f, g, h]) = [a, b, c, d, e, f, g, h] := by
  decide +kernel

/-- Bits that fill whole bytes are all there is in the bytes. -/
theorem bits_ofBits {l : List Bool} (hl : l.length % 8 = 0) : bits (ofBits l) = l := by
  induction l using ofBits.induct with
  | case1 a b c d e f g h rest ih =>
    have hrest : rest.length % 8 = 0 := by
      simp only [List.length_cons] at hl
      omega
    show bitsOfByte (byteOfBits [a, b, c, d, e, f, g, h]) ++ bits (ofBits rest) = _
    rw [bitsOfByte_byteOfBits, ih hrest]
    rfl
  | case2 => rfl
  | case3 l hlong hnil =>
    -- The length is that of seven bits or fewer, and not zero.
    exfalso
    match l with
    | [] => exact hnil rfl
    | [_] | [_, _] | [_, _, _] | [_, _, _, _] | [_, _, _, _, _] | [_, _, _, _, _, _]
    | [_, _, _, _, _, _, _] => simp at hl
    | a :: b :: c :: d :: e :: f :: g :: h :: rest => exact hlong a b c d e f g h rest rfl

theorem getElem?_bits (bs : Bytes) (k : Nat) :
    (bits bs)[k]? = if k < 8 * bs.length then some (bit bs k) else none := by
  induction bs generalizing k with
  | nil => rfl
  | cons b bs ih =>
    show (bitsOfByte b ++ bits bs)[k]? = _
    by_cases hk : k < 8
    · rw [List.getElem?_append_left (by simpa using hk), if_pos (by rw [List.length_cons]; omega)]
      simp [bitsOfByte, bit, List.getElem?_range hk, Nat.div_eq_of_lt hk, Nat.mod_eq_of_lt hk]
    · have hdiv : k / 8 = (k - 8) / 8 + 1 := by omega
      have hmod : (k - 8) % 8 = k % 8 := by omega
      have hlt : k - 8 < 8 * bs.length ↔ k < 8 * (b :: bs).length := by
        rw [List.length_cons]
        omega
      have hbit : bit (b :: bs) k = bit bs (k - 8) := by
        unfold bit
        rw [hdiv, hmod, List.getElem?_cons_succ]
      rw [List.getElem?_append_right (by simpa using hk), length_bitsOfByte, ih, hbit]
      simp only [hlt]

theorem bit_of_getElem? {bs : Bytes} {k : Nat} {x : Bool} (h : (bits bs)[k]? = some x) :
    bit bs k = x := by
  rw [getElem?_bits] at h
  split at h
  · exact Option.some.inj h
  · cases h

theorem bit_take {bs : Bytes} {len k : Nat} (hk : k < 8 * len) : bit (bs.take len) k = bit bs k := by
  unfold bit
  rw [List.getElem?_take, if_pos (by omega)]

/-- The first bits, taken from as many bytes as it needs. -/
theorem take_bits {bs : Bytes} {n : Nat} (h : n ≤ 8 * bs.length) :
    (bits (bs.take ((n + 7) / 8))).take n = (List.range n).map (bit bs) := by
  apply List.ext_getElem?
  intro k
  rw [List.getElem?_take, List.getElem?_map]
  split
  · next hk =>
    have hin : k < 8 * (bs.take ((n + 7) / 8)).length := by
      rw [List.length_take]
      omega
    rw [getElem?_bits, if_pos hin, bit_take (by omega), List.getElem?_range hk]
    rfl
  · next hk =>
    rw [List.getElem?_eq_none (by simpa using hk)]
    rfl

end Bytes

/-! ## Writing -/

namespace Bitmap

theorem length_bits (m : Bitmap) : (m.flags.toList ++ m.spare).length = 8 * ((m.size + 7) / 8) := by
  have hspare := m.spare_length
  rw [List.length_append, Array.length_toList]
  unfold size
  omega

theorem bits_toBytes (m : Bitmap) : Bytes.bits m.toBytes = m.flags.toList ++ m.spare := by
  apply Bytes.bits_ofBits
  rw [length_bits]
  omega

theorem length_toBytes (m : Bitmap) : m.toBytes.length = (m.size + 7) / 8 := by
  have hbits := Bytes.length_bits m.toBytes
  rw [bits_toBytes, length_bits] at hbits
  omega

theorem bit_toBytes {m : Bitmap} {k : Nat} (hk : k < m.size) :
    Bytes.bit m.toBytes k = m.occupied k := by
  have hlt : k < m.flags.size := hk
  refine Bytes.bit_of_getElem? ?_
  rw [bits_toBytes, List.getElem?_append_left (by simpa using hlt)]
  simp [occupied, hlt]

/-! ## Reading -/

section Reading

variable {bs : Bytes} {n : Nat} {m : Bitmap}

theorem ofBytes_toBytes (m : Bitmap) : ofBytes m.toBytes m.size = .ok m := by
  have hlen := m.length_toBytes
  have hmin := m.two_le_size
  have htake : m.toBytes.take ((m.size + 7) / 8) = m.toBytes := by
    rw [← hlen, List.take_length]
  have hflags : ((m.flags.toList ++ m.spare).take m.size).toArray = m.flags := by
    rw [size, ← Array.length_toList, List.take_left]
  have hspare : (m.flags.toList ++ m.spare).drop m.size = m.spare := by
    rw [size, ← Array.length_toList, List.drop_left]
  unfold ofBytes
  simp only [htake, bits_toBytes, hflags, hspare]
  have hlong : ¬ 8 * m.toBytes.length < m.size := by omega
  show (if m.size < 2 then _ else _) = _
  rw [if_neg (Nat.not_lt.2 hmin), dif_neg hlong, dif_pos ⟨m.noBlock_set, m.rootBlock_set⟩]

/-- Bytes that are read as a bitmap: there are enough of them, and they are its flags and its
spare bits. -/
theorem ofBytes_eq_ok (h : ofBytes bs n = .ok m) :
    minBlocks ≤ n ∧ n ≤ 8 * bs.length ∧ m.flags.toList = (List.range n).map (Bytes.bit bs) ∧
      m.spare = (Bytes.bits (bs.take ((n + 7) / 8))).drop n := by
  unfold ofBytes at h
  dsimp only at h
  split at h
  · cases h
  next hmin =>
  split at h
  · cases h
  next hlen =>
  split at h
  · cases h
    exact ⟨Nat.le_of_not_lt hmin, Nat.le_of_not_lt hlen, Bytes.take_bits (Nat.le_of_not_lt hlen),
      rfl⟩
  · cases h

theorem flags_of_ofBytes (h : ofBytes bs n = .ok m) :
    m.flags.toList = (List.range n).map (Bytes.bit bs) :=
  (ofBytes_eq_ok h).2.2.1

theorem size_of_ofBytes (h : ofBytes bs n = .ok m) : m.size = n := by
  rw [size, ← Array.length_toList, flags_of_ofBytes h, List.length_map, List.length_range]

theorem length_of_ofBytes (h : ofBytes bs n = .ok m) : (n + 7) / 8 ≤ bs.length := by
  obtain ⟨-, hlen, -⟩ := ofBytes_eq_ok h
  omega

theorem exists_ofBytes_iff :
    (∃ m, ofBytes bs n = .ok m) ↔
      minBlocks ≤ n ∧ n ≤ 8 * bs.length ∧ Bytes.bit bs 0 = true ∧ Bytes.bit bs 1 = true := by
  have hflag : ∀ k < n, ((List.range n).map (Bytes.bit bs)).toArray[k]? = some (Bytes.bit bs k) := by
    intro k hk
    rw [List.getElem?_toArray, List.getElem?_map, List.getElem?_range hk]
    rfl
  constructor
  · intro h
    obtain ⟨m, h⟩ := h
    obtain ⟨hmin, hlen, hflags, -⟩ := ofBytes_eq_ok h
    have hmin' : 1 < n := hmin
    have hset : ∀ k < n, m.flags[k]? = some true → Bytes.bit bs k = true := by
      intro k hk hm
      rw [← Array.getElem?_toList, hflags, ← List.getElem?_toArray, hflag k hk] at hm
      exact Option.some.inj hm
    exact ⟨hmin, hlen, hset 0 (by omega) m.noBlock_set, hset 1 hmin' m.rootBlock_set⟩
  · intro h
    obtain ⟨hmin, hlen, hno, hroot⟩ := h
    have hmin' : 1 < n := hmin
    have hset : ((Bytes.bits (bs.take ((n + 7) / 8))).take n).toArray[0]? = some true ∧
        ((Bytes.bits (bs.take ((n + 7) / 8))).take n).toArray[1]? = some true := by
      rw [Bytes.take_bits hlen, hflag 0 (by omega), hflag 1 hmin', hno, hroot]
      exact ⟨rfl, rfl⟩
    unfold ofBytes
    dsimp only
    rw [if_neg (Nat.not_lt.2 hmin), dif_neg (Nat.not_lt.2 hlen), dif_pos hset]
    exact ⟨_, rfl⟩

theorem occupied_of_flags {f : Nat → Bool} (h : m.flags.toList = (List.range n).map f) (k : Nat) :
    m.occupied k = (decide (k < n) && f k) := by
  unfold occupied
  rw [← Array.getElem?_toList, h, List.getElem?_map]
  by_cases hk : k < n
  · simp [hk]
  · rw [List.getElem?_eq_none (by simpa using hk)]
    simp [hk]

theorem freeCount_of_flags {f : Nat → Bool} (h : m.flags.toList = (List.range n).map f) :
    m.freeCount = (List.range n).countP fun k => !f k := by
  unfold freeCount
  rw [← Array.count_toList, h, List.count_eq_countP, List.countP_map]
  apply List.countP_congr
  intro k _
  simp

theorem occupied_of_ofBytes (h : ofBytes bs n = .ok m) (k : Nat) :
    m.occupied k = (decide (k < n) && Bytes.bit bs k) :=
  occupied_of_flags (flags_of_ofBytes h) k

/-- A bitmap that has been read is written as the bytes that it was read from, no further than
it needs them. -/
theorem toBytes_of_ofBytes (h : ofBytes bs n = .ok m) : m.toBytes = bs.take ((n + 7) / 8) := by
  obtain ⟨-, hlen, hflags, hspare⟩ := ofBytes_eq_ok h
  unfold toBytes
  rw [hflags, hspare, ← Bytes.take_bits hlen, List.take_append_drop, Bytes.ofBits_bits]

end Reading

end Bitmap
end BlockFS
