/-
A session: a mounted filesystem and the directory being worked in.

Every operation is a request with an answer.  The directory changes only with a request
to enter another one, and the limits never do.
-/
import BlockFS.Filesystem.Check
import BlockFS.Filesystem.Directories
import BlockFS.Filesystem.Files

namespace BlockFS

/-- A request to a mounted filesystem. -/
inductive Operation where
  /-- Without a name, the root is entered. -/
  | enter (name : Option String)
  | list
  | stat (name : String)
  | makeDirectory (name : String)
  | removeDirectory (name : String)
  | createFile (name : String)
  | removeFile (name : String)
  | append (name : String) (data : Bytes)
  | read (name : String) (max : Nat)
  deriving DecidableEq

/-- What a request is answered with. -/
inductive Answer where
  | done
  | listing (names : Listing)
  | stats (stats : Stats)
  | contents (data : Bytes)
  deriving DecidableEq

/-- How full a store is. -/
structure Usage where
  blockLen : Nat
  blockCount : Nat
  freeCount : Nat
  deriving DecidableEq

def Store.usage (s : Store) : Usage := ⟨s.blockLen, s.blockCount, s.freeCount⟩

structure Session where
  device : Device
  place : Place

namespace Operation

/-- What an operation does, together with the place to work at afterwards. -/
def perform (p : Place) : Operation → Action (Answer × Place)
  | enter name => return (.done, ← p.enter name)
  | list => return (.listing (← p.list), p)
  | stat name => return (.stats (← p.stat name), p)
  | makeDirectory name => do p.makeDirectory name; return (.done, p)
  | removeDirectory name => do p.removeDirectory name; return (.done, p)
  | createFile name => do p.createFile name; return (.done, p)
  | removeFile name => do p.removeFile name; return (.done, p)
  | append name data => do p.append name data; return (.done, p)
  | read name max => return (.contents (← p.read name max), p)

end Operation

namespace Session

def run (s : Session) (op : Operation) : Except Error Answer × Session :=
  let ⟨device, place⟩ := s
  match op.perform place device with
  | .ok (answer, place) device => (.ok answer, ⟨device, place⟩)
  | .error e device => (.error e, ⟨device, place⟩)

def runAll (s : Session) : List Operation → List (Except Error Answer) × Session
  | [] => ([], s)
  | op :: ops =>
    let (answer, s) := s.run op
    let (answers, s) := s.runAll ops
    (answer :: answers, s)

/-- Checks the whole filesystem, whatever directory is being worked in. -/
def check (s : Session) : Except CheckFault CheckReport × Session :=
  let ⟨device, place⟩ := s
  match Check.run place.geometry device with
  | .ok report device => (.ok report, ⟨device, place⟩)
  | .error fault device => (.error fault, ⟨device, place⟩)

/-- Gives the store up. -/
def unmount (s : Session) : Except Error Store :=
  match s.device.store.unmount with
  | .ok store => .ok store
  | .error fault => .error (.io (.header fault))

end Session
end BlockFS
