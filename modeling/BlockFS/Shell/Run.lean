/-
Running the shell over a whole input.
-/
import BlockFS.Shell.Output
import BlockFS.Shell.Respond

namespace BlockFS

/-- The byte at the end of a line. -/
def newline : UInt8 := 10

/-- The lines of an input.  Each but the last ends in a newline, and none is empty. -/
def inputLines (bs : Bytes) : List Bytes :=
  bs.foldr (fun b lines =>
    if b = newline then [b] :: lines
    else
      match lines with
      | [] => [[b]]
      | line :: lines => (b :: line) :: lines) []

theorem flatten_inputLines (bs : Bytes) : (inputLines bs).flatten = bs := by
  induction bs with
  | nil => rfl
  | cons b bs ih =>
    have hstep : inputLines (b :: bs) = if b = newline then [b] :: inputLines bs
        else match inputLines bs with
          | [] => [[b]]
          | line :: lines => (b :: line) :: lines := rfl
    rw [hstep]
    split
    · simp [ih]
    · split
      · next h => rw [h] at ih; simpa using ih
      · next h => rw [h] at ih; simpa using ih

/-- What is left of a shell. -/
structure ShellEnd where
  session : Session
  output : Output
  /-- Whether the output took all that was written. -/
  complete : Bool

namespace Session

/-- Lets the shell read lines up to the last one or to one that leaves it, with a prompt
before each.  It ends early when the output stops taking bytes. -/
def runShell (prompt : Option String) (s : Session) (o : Output) : List Bytes → ShellEnd
  | [] =>
    let (o, taken) := o.writeAll prompt.toList
    ⟨s, o, taken⟩
  | line :: lines =>
    match o.writeAll prompt.toList with
    | (o, false) => ⟨s, o, false⟩
    | (o, true) =>
      let (response, s) := s.respond line
      match o.writeAll response.texts with
      | (o, false) => ⟨s, o, false⟩
      | (o, true) => if response.leave then ⟨s, o, true⟩ else runShell prompt s o lines

def shell (s : Session) (input : Bytes) (prompt : Option String) (room : Option Nat) : ShellEnd :=
  runShell prompt s (.fresh room) (inputLines input)

end Session

/-- Why a shell does not end well. -/
inductive ShellFault where
  | outputClosed
  | filesystem (e : Error)
  deriving DecidableEq

/-- The texts of a fault, each followed by its cause. -/
def ShellFault.chain : ShellFault → List String
  | outputClosed => ["output closed"]
  | filesystem e => e.chain

namespace ShellEnd

/-- Whether the shell itself ended well. -/
def outcome (e : ShellEnd) : Except ShellFault Unit :=
  if e.complete then .ok () else .error .outputClosed

/-- Gives up the store, however the shell ended.  The fault of the shell is reported
rather than one of the store. -/
def unmount (e : ShellEnd) : Except ShellFault Unit × Store :=
  match e.session.unmount with
  | .ok store => (e.outcome, store)
  | .error fault =>
    match e.outcome with
    | .ok () => (.error (.filesystem fault), e.session.device.store)
    | .error earlier => (.error earlier, e.session.device.store)

end ShellEnd
end BlockFS
