/-
Reading values off the front of a byte string.

A reader reads back what its encoder writes and leaves the rest (`bytes_append`), and
whatever it accepts starts with what it returns (`eq_append_of_bytes`).
-/
import BlockFS.Text.Utf8

namespace BlockFS
namespace Codec

/-- Why bytes are not the encoding of a value. -/
inductive Fault where
  | endOfInput
  /-- A name is said to be longer than all that follows. -/
  | nameOverrun
  | badText (m : Utf8.Malformed)
  | unknownTag (tag : Nat)
  deriving DecidableEq

def Fault.message : Fault → String
  | endOfInput => "io error: unexpected end of file"
  | nameOverrun => "io error: "
  | badText m => "string is not valid utf8: " ++ m.message
  | unknownTag tag => s!"invalid value: {tag}, expected 0 or 1"

/-- A reader takes its value off the front of a byte string and returns the rest. -/
abbrev Reader (α : Type) := StateT Bytes (Except Fault) α

/-- The next `n` bytes, or `fault` if there are fewer. -/
def bytes (n : Nat) (fault : Fault) : Reader Bytes := fun bs =>
  if (bs.take n).length = n then .ok (bs.take n, bs.drop n) else .error fault

def nat (w : Nat) : Reader Nat := do
  return Bytes.toNat (← bytes w .endOfInput)

/-- A number of four bytes. -/
def word : Reader UInt32 := do
  return UInt32.ofNat (← nat 4)

/-- A text behind its length in eight bytes. -/
def text : Reader String := do
  let bs ← bytes (← nat 8) .nameOverrun
  match Utf8.decode bs with
  | .ok cs => return String.ofList cs
  | .error m => throw (.badText m)

/-- `n` values in a row. -/
def many (r : Reader α) : Nat → Reader (List α)
  | 0 => return []
  | n + 1 => do
    let a ← r
    let as ← many r n
    return a :: as

/-- Values behind their number in eight bytes. -/
def counted (r : Reader α) : Reader (List α) := do
  many r (← nat 8)

def ofWord (x : UInt32) : Bytes := Bytes.ofNat 4 x.toNat

def ofText (s : String) : Bytes :=
  Bytes.ofNat 8 s.utf8ByteSize ++ Utf8.encode s.toList

@[simp] theorem length_ofWord (x : UInt32) : (ofWord x).length = 4 := by
  simp [ofWord]

theorem length_encode_toList (s : String) : (Utf8.encode s.toList).length = s.utf8ByteSize := by
  have h : s.toList.utf8Encode = s.toByteArray := String.utf8Encode_toList
  rw [List.utf8Encode] at h
  have := congrArg ByteArray.size h
  simpa [Utf8.encode] using this

@[simp] theorem length_ofText (s : String) : (ofText s).length = 8 + s.utf8ByteSize := by
  simp [ofText, length_encode_toList]

theorem bytes_append (fault : Fault) (a rest : Bytes) :
    bytes a.length fault (a ++ rest) = .ok (a, rest) := by
  simp [bytes]

theorem eq_append_of_bytes {n : Nat} {fault : Fault} {bs a rest : Bytes}
    (h : bytes n fault bs = .ok (a, rest)) : bs = a ++ rest ∧ a.length = n := by
  unfold bytes at h
  split at h
  · next hlen =>
    cases h
    exact ⟨(List.take_append_drop n bs).symm, hlen⟩
  · cases h

end Codec
end BlockFS
