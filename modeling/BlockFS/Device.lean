/-
A store whose calls may be made to fail, and the actions on it.

An action answers with a value or an error and goes on from the device that it leaves
behind either way.
-/
import BlockFS.Error

namespace BlockFS

/-- The calls to a store so far. -/
structure Calls where
  reads : Nat := 0
  writes : Nat := 0
  releases : Nat := 0
  /-- The releases among them that failed, for whatever reason. -/
  failedReleases : Nat := 0
  deriving DecidableEq

/-- A plan says of each call, by its kind and its number among the calls of that kind, whether
it fails before it reaches the store. -/
abbrev FaultPlan := Access → Nat → Bool

namespace FaultPlan

def never : FaultPlan := fun _ _ => false

/-- Of each kind so many calls reach the store, and no further ones.  Without a number
all of them do. -/
def after (reads writes releases : Option Nat) : FaultPlan := fun access k =>
  let budget := match access with
    | .read => reads
    | .write => writes
    | .release => releases
  match budget with
  | some n => n ≤ k
  | none => false

end FaultPlan

/-- A store, the plan of failures and the calls made since the plan was laid. -/
structure Device where
  store : Store
  plan : FaultPlan
  calls : Calls

/-- What is done with a device. -/
abbrev Action := EStateM Error Device

namespace Device

/-- A store none of whose calls is made to fail. -/
def ofStore (s : Store) : Device := ⟨s, FaultPlan.never, {}⟩

def withPlan (d : Device) (plan : FaultPlan) : Device := ⟨d.store, plan, {}⟩

def blockLen : Action Nat := fun d => .ok d.store.blockLen d

def readBytes (b : BlockNumber) : Action Bytes := fun d =>
  let ⟨store, plan, calls⟩ := d
  let d : Device := ⟨store, plan, { calls with reads := calls.reads + 1 }⟩
  if plan .read calls.reads then .error (.io (.interrupted .read b)) d
  else
    match store.read b with
    | .ok contents => .ok contents d
    | .error fault => .error (.io (.store fault)) d

def writeBytes (b : BlockNumber) (contents : Bytes) : Action Unit := fun d =>
  let ⟨store, plan, calls⟩ := d
  let made := { calls with writes := calls.writes + 1 }
  if plan .write calls.writes then
    .error (.io (.interrupted .write b)) ⟨store, plan, made⟩
  else
    match store.write b contents with
    | .ok store => .ok () ⟨store, plan, made⟩
    | .error fault => .error (.io (.store fault)) ⟨store, plan, made⟩

def allocate : Action BlockNumber := fun d =>
  let ⟨store, plan, calls⟩ := d
  match store.allocate with
  | some (b, store) => .ok b ⟨store, plan, calls⟩
  | none => .error .diskFull ⟨store, plan, calls⟩

def release (b : BlockNumber) : Action Unit := fun d =>
  let ⟨store, plan, calls⟩ := d
  let made := { calls with releases := calls.releases + 1 }
  let failed := { made with failedReleases := calls.failedReleases + 1 }
  if plan .release calls.releases then
    .error (.io (.interrupted .release b)) ⟨store, plan, failed⟩
  else
    match store.release b with
    | .ok store => .ok () ⟨store, plan, made⟩
    | .error fault => .error (.io (.store fault)) ⟨store, plan, failed⟩

/-- Frees blocks in turn, up to the first that is not freed. -/
def releaseEach : List BlockNumber → Action Unit
  | [] => return
  | b :: bs => do
    release b
    releaseEach bs

def readBlock (b : BlockNumber) : Action Block := do
  match Block.decode (← readBytes b) with
  | .ok block => return block
  | .error fault => throw (.io (.malformed b fault))

def writeBlock (b : BlockNumber) (block : Block) : Action Unit := do
  match block.encode (← blockLen) with
  | .ok contents => writeBytes b contents
  | .error fault => throw (.io (.oversize fault))

def readDirectory (b : BlockNumber) : Action Directory := do
  match ← readBlock b with
  | .directory d => return d
  | .file _ => throw .notADirectory

def readInode (b : BlockNumber) : Action Inode := do
  match ← readBlock b with
  | .directory _ => throw .isADirectory
  | .file i => return i

end Device
end BlockFS
