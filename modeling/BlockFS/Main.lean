/-
The programs as they are started: the files, the input and the output around
`Program.run`.

The name of the executable tells the checker from the disk program.  The shell answers
each line as it comes in, so that it can be used by hand.
-/
import BlockFS.Program

namespace BlockFS
namespace Main

/-- The file at a path. -/
def readFile (path : String) : IO DiskFile := do
  match ← EIO.toBaseIO (IO.FS.readBinFile path) with
  | .ok bytes => return .image (Image.ofByteArray bytes)
  | .error (.noFileOrDirectory ..) => return .absent
  | .error e => throw e

/-- Empties the file at a path, or makes one. -/
def emptyFile (path : String) : IO DiskFile := do
  match ← EIO.toBaseIO (IO.FS.writeBinFile path .empty) with
  | .ok () => return .image (Image.zeros 0)
  | .error (.noFileOrDirectory ..) => return .unreachable
  | .error e => throw e

def writeFile (path : String) (image : Image) : IO Unit :=
  IO.FS.writeBinFile path image.toByteArray

/-- Reads up to the end of a line or of the input. -/
partial def readLine (stdin : IO.FS.Stream) (done : List UInt8) : IO Bytes := do
  let bytes ← stdin.read 1
  match bytes.toList with
  | [] => return done.reverse
  | b :: _ => if b = newline then return (b :: done).reverse else readLine stdin (b :: done)

/-- Lets the shell answer lines, and says whether the output took all that was written. -/
partial def answerLines (stdin stdout : IO.FS.Stream) (prompt : Option String) (s : Session) :
    IO (Session × Bool) := do
  let put (texts : List String) : BaseIO Bool := do
    let write : IO Unit := do
      texts.forM stdout.putStr
      stdout.flush
    match ← EIO.toBaseIO write with
    | .ok () => return true
    | .error _ => return false
  unless ← put prompt.toList do return (s, false)
  let line ← readLine stdin []
  if line = [] then return (s, true)
  let (response, s) := s.respond line
  unless ← put response.texts do return (s, false)
  if response.leave then return (s, true) else answerLines stdin stdout prompt s

/-- Prints how a run ended, and keeps what it made of the file. -/
def finish (path : String) (e : RunEnd) : IO UInt32 := do
  let stdout ← IO.getStdout
  stdout.write e.stdout.toByteArray
  stdout.flush
  IO.eprint e.stderr
  if let .image image := e.file then writeFile path image
  return UInt32.ofNat e.code

def runShell (path : String) : IO UInt32 := do
  let file ← readFile path
  match Invocation.openSession path Invocation.shellContext file with
  | .error chain => do
    IO.eprint (RunEnd.report chain)
    return 1
  | .ok session =>
    let stdin ← IO.getStdin
    let prompt := if ← stdin.isTty then some shellPrompt else none
    let (session, complete) ← answerLines stdin (← IO.getStdout) prompt session
    let (outcome, store) := (⟨session, .fresh none, complete⟩ : ShellEnd).unmount
    writeFile path store.image
    match outcome with
    | .ok () => return 0
    | .error fault => do
      IO.eprint (RunEnd.report fault.chain)
      return 1

/-- Runs a program. -/
def run (program : Program) (args : List String) : IO UInt32 := do
  match Invocation.ofArguments program args with
  | .error m => finish "" (.misuse m .absent)
  | .ok (.shell path) => runShell path
  | .ok (.check path) =>
    let e := Invocation.runCheck path (← readFile path)
    finish path { e with file := .absent }
  | .ok (.format path blocks) =>
    finish path (Invocation.runFormat path blocks (← emptyFile path))

end Main
end BlockFS

def main (args : List String) : IO UInt32 := do
  let name := (← IO.appPath).fileName.getD ""
  BlockFS.Main.run (if name = "fsck" then .checker else .disk) args
