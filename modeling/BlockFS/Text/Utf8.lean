/-
UTF-8 text as byte strings.

`decode_eq_ok_iff` says that exactly the encodings of character lists decode, each to
the list it encodes.  A byte string that is no encoding is refused at its first
malformed character, together with the length of the part of that character that
was still well formed.
-/
import BlockFS.Bytes

namespace BlockFS
namespace Utf8

/-- The bytes of a character list. -/
def encode (cs : List Char) : Bytes :=
  cs.flatMap String.utf8EncodeChar

@[simp] theorem encode_nil : encode [] = [] := rfl

@[simp] theorem encode_cons (c : Char) (cs : List Char) :
    encode (c :: cs) = String.utf8EncodeChar c ++ encode cs := rfl

@[simp] theorem encode_append (cs ds : List Char) :
    encode (cs ++ ds) = encode cs ++ encode ds := by
  simp [encode]

/-- The character whose encoding `bs` starts with. -/
def char? (bs : Bytes) : Option Char :=
  (bs.take 4).toByteArray.utf8DecodeChar? 0

theorem char?_nil : char? [] = none := by
  decide

theorem char?_encode_append (c : Char) (rest : Bytes) :
    char? (String.utf8EncodeChar c ++ rest) = some c := by
  have hlen : (String.utf8EncodeChar c).length ≤ 4 := by
    simpa using c.utf8Size_le_four
  rw [char?, List.take_append, List.take_of_length_le hlen, List.toByteArray_append]
  exact ByteArray.utf8DecodeChar?_utf8EncodeChar_append

theorem eq_append_of_char? {bs : Bytes} {c : Char} (h : char? bs = some c) :
    bs = String.utf8EncodeChar c ++ bs.drop c.utf8Size := by
  obtain ⟨rest, hrest⟩ := ByteArray.exists_of_utf8DecodeChar?_eq_some h
  have htake : bs.take 4 = String.utf8EncodeChar c ++ rest.data.toList := by
    have := congrArg (fun b : ByteArray => b.data.toList) hrest
    simpa using this
  have hbs : bs = String.utf8EncodeChar c ++ (rest.data.toList ++ bs.drop 4) := by
    rw [← List.append_assoc, ← htake, List.take_append_drop]
  have hdrop : bs.drop c.utf8Size = rest.data.toList ++ bs.drop 4 := by
    conv => lhs; rw [hbs]
    rw [List.drop_append, List.drop_of_length_le (by simp)]
    simp
  rw [hdrop]
  exact hbs

theorem length_drop_lt_of_char? {bs : Bytes} {c : Char} (h : char? bs = some c) :
    (bs.drop c.utf8Size).length < bs.length := by
  have hpos := c.utf8Size_pos
  have := congrArg List.length (eq_append_of_char? h)
  simp only [List.length_append, String.length_utf8EncodeChar, List.length_drop] at this ⊢
  omega

/-- The ranges that the bytes after a first byte must lie in, one range for each. -/
def continuation (first : UInt8) : List (UInt8 × UInt8) :=
  if 0xC2 ≤ first ∧ first ≤ 0xDF then [(0x80, 0xBF)]
  else if first = 0xE0 then [(0xA0, 0xBF), (0x80, 0xBF)]
  else if first = 0xED then [(0x80, 0x9F), (0x80, 0xBF)]
  else if 0xE1 ≤ first ∧ first ≤ 0xEF then [(0x80, 0xBF), (0x80, 0xBF)]
  else if first = 0xF0 then [(0x90, 0xBF), (0x80, 0xBF), (0x80, 0xBF)]
  else if 0xF1 ≤ first ∧ first ≤ 0xF3 then [(0x80, 0xBF), (0x80, 0xBF), (0x80, 0xBF)]
  else if first = 0xF4 then [(0x80, 0x8F), (0x80, 0xBF), (0x80, 0xBF)]
  else []

/-- How many leading bytes lie in the ranges given for them. -/
def countWithin : List (UInt8 × UInt8) → Bytes → Nat
  | (low, high) :: ranges, b :: bs =>
    if low ≤ b ∧ b ≤ high then countWithin ranges bs + 1 else 0
  | _, _ => 0

/-- The length of the longest prefix of `bs` that a longer character may start with. -/
def viable : Bytes → Nat
  | [] => 0
  | b :: bs =>
    match continuation b with
    | [] => 0
    | ranges => countWithin ranges bs + 1

/-- Where a byte string stops being text, and what is wrong there. -/
structure Malformed where
  /-- The position of the first byte of the malformed character. -/
  offset : Nat
  /-- The length of the rejected part, or `none` if the text ends inside the character. -/
  rejected : Option Nat
  deriving DecidableEq

def Malformed.message (m : Malformed) : String :=
  match m.rejected with
  | some k => s!"invalid utf-8 sequence of {k} bytes from index {m.offset}"
  | none => s!"incomplete utf-8 byte sequence from index {m.offset}"

/-- What is wrong with `bs`, which starts with no character, at `offset`. -/
def malformedAt (offset : Nat) (bs : Bytes) : Malformed :=
  if viable bs = bs.length then ⟨offset, none⟩ else ⟨offset, some (max 1 (viable bs))⟩

/-- Continues the decoding of a text of which `done`, latest first, and `offset` bytes
have been read. -/
def decodeFrom (offset : Nat) (done : List Char) (bs : Bytes) : Except Malformed (List Char) :=
  match _h : char? bs with
  | some c => decodeFrom (offset + c.utf8Size) (c :: done) (bs.drop c.utf8Size)
  | none => if bs = [] then .ok done.reverse else .error (malformedAt offset bs)
termination_by bs.length
decreasing_by exact length_drop_lt_of_char? ‹_›

/-- The characters of `bs`, or its first malformed character. -/
def decode (bs : Bytes) : Except Malformed (List Char) :=
  decodeFrom 0 [] bs

theorem decodeFrom_encode (offset : Nat) (done cs : List Char) :
    decodeFrom offset done (encode cs) = .ok (done.reverse ++ cs) := by
  induction cs generalizing offset done with
  | nil =>
    rw [decodeFrom]
    split
    · next d hd => simp [char?_nil] at hd
    · simp
  | cons c cs ih =>
    rw [decodeFrom, encode_cons]
    split
    · next d hd =>
      rw [char?_encode_append] at hd
      obtain rfl := Option.some.inj hd
      rw [List.drop_append, List.drop_of_length_le (by simp)]
      simp [ih]
    · next hd => simp [char?_encode_append] at hd

theorem eq_encode_of_decodeFrom {offset : Nat} {done cs : List Char} {bs : Bytes}
    (h : decodeFrom offset done bs = .ok cs) : ∃ ds, cs = done.reverse ++ ds ∧ bs = encode ds := by
  fun_induction decodeFrom offset done bs with
  | case1 offset done bs c hc ih =>
    obtain ⟨ds, rfl, hds⟩ := ih h
    refine ⟨c :: ds, by simp, ?_⟩
    rw [encode_cons, ← hds]
    exact eq_append_of_char? hc
  | case2 => exact ⟨[], by simpa using h.symm, by simp⟩
  | case3 => simp at h

/-- A byte string decodes exactly if it is an encoding, and then to what it encodes. -/
theorem decode_eq_ok_iff {bs : Bytes} {cs : List Char} : decode bs = .ok cs ↔ bs = encode cs := by
  constructor
  · intro h
    obtain ⟨ds, rfl, hds⟩ := eq_encode_of_decodeFrom h
    simpa using hds
  · intro heq
    subst heq
    exact decodeFrom_encode 0 [] cs

/-- Continues `decodeLossy` after the characters `done`, latest first. -/
def decodeLossyFrom (done : List Char) (bs : Bytes) : List Char :=
  match _h : char? bs with
  | some c => decodeLossyFrom (c :: done) (bs.drop c.utf8Size)
  | none =>
    if bs = [] then done.reverse
    else decodeLossyFrom ('\uFFFD' :: done) (bs.drop (max 1 (viable bs)))
termination_by bs.length
decreasing_by
  · exact length_drop_lt_of_char? ‹_›
  · have := List.length_pos_iff.2 ‹bs ≠ []›
    simp only [List.length_drop]
    omega

/-- The characters of `bs`, with U+FFFD in the place of each malformed one. -/
def decodeLossy (bs : Bytes) : List Char :=
  decodeLossyFrom [] bs

theorem decodeLossyFrom_encode (done cs : List Char) :
    decodeLossyFrom done (encode cs) = done.reverse ++ cs := by
  induction cs generalizing done with
  | nil =>
    rw [decodeLossyFrom]
    split
    · next d hd => simp [char?_nil] at hd
    · simp
  | cons c cs ih =>
    rw [decodeLossyFrom, encode_cons]
    split
    · next d hd =>
      rw [char?_encode_append] at hd
      obtain rfl := Option.some.inj hd
      rw [List.drop_append, List.drop_of_length_le (by simp)]
      simp [ih]
    · next hd => simp [char?_encode_append] at hd

theorem decodeLossy_encode (cs : List Char) : decodeLossy (encode cs) = cs :=
  decodeLossyFrom_encode [] cs

end Utf8
end BlockFS
