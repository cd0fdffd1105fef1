/-
What the programs do to a disk image file.

A run is a function from the contents of the file and of the input to what is printed,
the exit code and the new contents of the file.
-/
import BlockFS.CommandLine
import BlockFS.Shell.Run

namespace BlockFS

/-- What the shell prints before each line that is typed in. -/
def shellPrompt : String := "jfs> "

structure RunEnd where
  code : Nat
  stdout : Bytes
  stderr : String
  /-- What is left at the path of the image. -/
  file : DiskFile

namespace RunEnd

/-- The report of a failure: its text, and below it the causes, numbered if there are
several. -/
def report : List String → String
  | [] => "Error: \n"
  | [text] => s!"Error: {text}\n"
  | [text, cause] => s!"Error: {text}\n\nCaused by:\n    {cause}\n"
  | text :: causes =>
    let lines := causes.zipIdx.map fun (cause, i) => s!"    {i}: {cause}\n"
    s!"Error: {text}\n\nCaused by:\n" ++ String.join lines

def success (stdout : Bytes) (file : DiskFile) : RunEnd := ⟨0, stdout, "", file⟩

def failure (stdout : Bytes) (chain : List String) (file : DiskFile) : RunEnd :=
  ⟨1, stdout, report chain, file⟩

/-- A command line that is none is answered with a notice.  Help is not a failure. -/
def misuse (m : Misuse) (file : DiskFile) : RunEnd :=
  if m = .help then ⟨0, Utf8.encode m.notice.toList, "", file⟩ else ⟨2, [], m.notice, file⟩

end RunEnd

namespace Invocation

/-- Makes an image with an empty root directory in place of the file. -/
def runFormat (path : String) (blocks : Nat) (file : DiskFile) : RunEnd :=
  let g : Geometry := {}
  match Store.create file g.blockLen blocks with
  | .error (fault, file) => .failure [] (fault.chain path) file
  | .ok store =>
    match Place.format g (Device.ofStore store) with
    | .error e d => .failure [] ("unable to format disk file" :: e.chain) (.image d.store.image)
    | .ok place d =>
      match (⟨d, place⟩ : Session).unmount with
      | .error e => .failure [] e.chain (.image d.store.image)
      | .ok store => .success [] (.image store.image)

/-- Takes up the filesystem in a file. -/
def openSession (path : String) (mountContext : List String) (file : DiskFile) :
    Except (List String) Session :=
  match Store.openFile file with
  | .error fault => .error (fault.chain path)
  | .ok store =>
    match Place.mount {} (Device.ofStore store) with
    | .error e _ => .error (mountContext ++ e.chain)
    | .ok place device => .ok ⟨device, place⟩

/-- The text in front of the reason why the shell cannot take up a filesystem. -/
def shellContext : List String := ["unable to mount disk file"]

def runShell (path : String) (prompt : Option String) (file : DiskFile) (stdin : Bytes) :
    RunEnd :=
  match openSession path shellContext file with
  | .error chain => .failure [] chain file
  | .ok session =>
    let shellEnd := session.shell stdin prompt none
    match shellEnd.unmount with
    | (.ok (), store) => .success shellEnd.output.written (.image store.image)
    | (.error fault, store) =>
      .failure shellEnd.output.written fault.chain (.image store.image)

/-- The text that reports leaked blocks. -/
def leakedText (leaked : List BlockNumber) : String :=
  s!"{leaked.length} leaked blocks: [" ++ ", ".intercalate (leaked.map toString) ++ "]"

/-- Checks an image.  Leaked blocks count as a failure. -/
def runCheck (path : String) (file : DiskFile) : RunEnd :=
  match openSession path [] file with
  | .error chain => .failure [] chain file
  | .ok session =>
    match session.check with
    | (.error fault, _) => .failure [] fault.chain file
    | (.ok report, _) =>
      let stdout := Utf8.encode (Response.lineOfReport report ++ "\n").toList
      if report.leaked = [] then .success stdout file
      else .failure stdout [leakedText report.leaked] file

def run (i : Invocation) (prompt : Option String) (file : DiskFile) (stdin : Bytes) : RunEnd :=
  match i with
  | .format path blocks => runFormat path blocks file
  | .shell path => runShell path prompt file stdin
  | .check path => runCheck path file

end Invocation

/-- Runs a program on the image file that its arguments name. -/
def Program.run (program : Program) (args : List String) (prompt : Option String)
    (file : DiskFile) (stdin : Bytes) : RunEnd :=
  match Invocation.ofArguments program args with
  | .error m => .misuse m file
  | .ok invocation => invocation.run prompt file stdin

end BlockFS
