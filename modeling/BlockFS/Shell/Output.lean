/-
What a shell writes, on an output that may stop taking bytes.
-/
import BlockFS.Text.Utf8

namespace BlockFS

/-- What has been written, and how many more bytes the output takes if there is a limit. -/
structure Output where
  written : Bytes
  room : Option Nat
  deriving DecidableEq

namespace Output

/-- An output that has not been written to. -/
def fresh (room : Option Nat) : Output := ⟨[], room⟩

/-- Writes as much of a text as the output takes, and says whether it took all. -/
def write (o : Output) (text : String) : Output × Bool :=
  let bs := Utf8.encode text.toList
  match o.room with
  | none => (⟨o.written ++ bs, none⟩, true)
  | some room =>
    if bs.length ≤ room then (⟨o.written ++ bs, some (room - bs.length)⟩, true)
    else (⟨o.written ++ bs.take room, some 0⟩, false)

/-- Writes texts in turn, up to the first that is not taken whole. -/
def writeAll (o : Output) : List String → Output × Bool
  | [] => (o, true)
  | text :: texts =>
    match o.write text with
    | (o, true) => o.writeAll texts
    | (o, false) => (o, false)

theorem write_of_room_none {o : Output} (h : o.room = none) (text : String) :
    o.write text = (⟨o.written ++ Utf8.encode text.toList, none⟩, true) := by
  simp [write, h]

end Output
end BlockFS
