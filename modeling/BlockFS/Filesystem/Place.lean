/-
Where operations on a mounted filesystem work, and what they share.

Names are single words that are looked up in one directory.  A file's blocks are
trusted only after their number has been compared with the size of the file.
-/
import BlockFS.Transaction

namespace BlockFS

/-- The limits and the directory that operations work with. -/
structure Place where
  geometry : Geometry
  dir : BlockNumber
  deriving DecidableEq

/-- The blocks of the file whose inode is in `block`.  It has to have as many as its size
needs. -/
def Geometry.fileBlocks (g : Geometry) (block : BlockNumber) (i : Inode) :
    Except Error (List BlockNumber) :=
  match i.populated? g.blockSize, i.blockCount? g.blockSize with
  | some held, some needed =>
    if held.length = needed then .ok held
    else .error (.io (.missingBlocks block held.length i.fileSize))
  | _, _ => .error .defect

namespace Place

/-- Takes a value for granted. -/
def expect (a : Option α) : Action α :=
  match a with
  | some a => return a
  | none => throw .defect

def lookup (d : Directory) (name : String) : Action Entry :=
  match d.find? name with
  | some e => return e
  | none => throw .notFound

/-- Checks that the limits are usable and that the blocks are long enough for them. -/
def checkGeometry (g : Geometry) : Action Unit := do
  match g.validate with
  | .error fault => throw (.invalidGeometry fault)
  | .ok () =>
    let needed ← expect g.blockLen?
    if (← Device.blockLen) < needed then throw (.invalidGeometry .blocksTooSmall)

/-- Takes up the filesystem on a device, with the root as the directory to work in. -/
def mount (g : Geometry) : Action Place := do
  checkGeometry g
  match ← Device.readBlock rootBlock with
  | .directory _ => return ⟨g, rootBlock⟩
  | .file _ => throw (.io .rootNotDirectory)

/-- Makes a filesystem without entries on a device and takes it up. -/
def format (g : Geometry) : Action Place := do
  checkGeometry g
  Device.writeBlock rootBlock (.directory .empty)
  mount g

/-- Adds an entry called `name` for a new block that holds `contents`. -/
def createEntry (p : Place) (name : String) (contents : Block) : Action Unit := do
  if p.geometry.maxNameLength < name.utf8ByteSize then throw .nameTooLong
  let d ← Device.readDirectory p.dir
  if d.contains name then throw .alreadyExists
  if p.geometry.maxDirEntries ≤ d.size then throw .directoryFull
  Transaction.atomically do
    let b ← Transaction.allocate
    Transaction.lift (Device.writeBlock b contents)
    Transaction.lift (Device.writeBlock p.dir (.directory (d.push ⟨name, b⟩)))

end Place
end BlockFS
