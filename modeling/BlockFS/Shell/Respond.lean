/-
What the shell does with a line: a change of the session and the texts to write.
-/
import BlockFS.Session
import BlockFS.Shell.Command

namespace BlockFS

/-- What the shell makes of a line. -/
structure Response where
  /-- The texts to write, in order. -/
  texts : List String
  /-- Whether the shell is to be left. -/
  leave : Bool
  deriving DecidableEq

namespace Response

/-- A response that consists of lines. -/
def ofLines (lines : List String) : Response := ⟨lines.map (· ++ "\n"), false⟩

/-- The lines that show an answer. -/
def linesOf : Answer → List String
  | .done => []
  | .listing names => names.directories.map (· ++ "/") ++ names.files
  | .stats s =>
    let kind := if s.isDirectory then "directory" else "file"
    [s!"name: {s.name}", s!"block: {s.block}", s!"type: {kind}", s!"size: {s.fileSize}",
      s!"data blocks: {s.blockCount}"]
  | .contents data => [String.ofList (Utf8.decodeLossy data)]

/-- The line that shows how full a store is. -/
def lineOfUsage (u : Usage) : String :=
  s!"{u.freeCount} of {u.blockCount} blocks free ({u.blockLen} bytes per block)"

/-- The line that shows what the check has counted. -/
def lineOfReport (r : CheckReport) : String :=
  s!"{r.directories} directories, {r.files} files, {r.dataBlocks} data blocks"

/-- The lines that show what the check has found. -/
def linesOfReport (r : CheckReport) : List String :=
  lineOfReport r :: r.leaked.map fun b => s!"leaked block: {b}"

def ofAnswer : Except Error Answer → Response
  | .ok answer => ofLines (linesOf answer)
  | .error e => ofLines ["error: " ++ e.message]

def ofCheck : Except CheckFault CheckReport → Response
  | .ok report => ofLines (linesOfReport report)
  | .error fault => ofLines ["error: " ++ joinChain fault.chain]

end Response

namespace Command

/-- What a command asks of a filesystem. -/
inductive Meaning where
  | operation (op : Operation)
  | usage
  | check
  | leave

def meaning : Command → Meaning
  | ls => .operation .list
  | cd name => .operation (.enter name)
  | mkdir name => .operation (.makeDirectory name)
  | rmdir name => .operation (.removeDirectory name)
  | touch name => .operation (.createFile name)
  | rm name => .operation (.removeFile name)
  | stat name => .operation (.stat name)
  | write name text => .operation (.append name (Utf8.encode (" ".intercalate text).toList))
  | cat name maxBytes => .operation (.read name (maxBytes.getD (numberLimit - 1)))
  | df => .usage
  | fsck => .check
  | exit => .leave

end Command

namespace Session

def execute (s : Session) (c : Command) : Response × Session :=
  match c.meaning with
  | .operation op =>
    let (answer, s) := s.run op
    (.ofAnswer answer, s)
  | .usage => (.ofLines [Response.lineOfUsage s.device.store.usage], s)
  | .check =>
    let (outcome, s) := s.check
    (.ofCheck outcome, s)
  | .leave => (⟨[], true⟩, s)

/-- Carries out what a line of input says. -/
def respond (s : Session) (line : Bytes) : Response × Session :=
  match Utf8.decode line with
  | .error fault => (.ofLines ["error: invalid input: " ++ fault.message], s)
  | .ok cs =>
    match Command.ofLine cs with
    | none => (⟨[], false⟩, s)
    | some (.error misuse) => (⟨[misuse.notice], false⟩, s)
    | some (.ok c) => s.execute c

end Session
end BlockFS
