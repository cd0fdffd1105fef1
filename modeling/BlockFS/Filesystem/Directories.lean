/-
Operations on directories.
-/
import BlockFS.Filesystem.Place

namespace BlockFS

/-- The names in a directory by kind, each kind in the order of the entries. -/
structure Listing where
  directories : List String
  files : List String
  deriving DecidableEq

/-- What is known about an entry. -/
structure Stats where
  name : String
  block : BlockNumber
  isDirectory : Bool
  /-- The size of a file in bytes, and zero for a directory. -/
  fileSize : Nat
  /-- The number of data blocks of a file, and zero for a directory. -/
  blockCount : Nat
  deriving DecidableEq

namespace Place

/-- The place with the subdirectory `name`, or with the root, as its directory. -/
def enter (p : Place) (name : Option String) : Action Place := do
  match name with
  | none => return { p with dir := rootBlock }
  | some name =>
    let d ← Device.readDirectory p.dir
    let e ← lookup d name
    let _ ← Device.readDirectory e.target
    return { p with dir := e.target }

/-- The name of an entry, and whether it names a directory. -/
def kindOf (e : Entry) : Action (String × Bool) := do
  let block ← Device.readBlock e.target
  return (e.name, block.isDirectory)

def list (p : Place) : Action Listing := do
  let d ← Device.readDirectory p.dir
  let kinds ← d.entries.mapM kindOf
  return {
    directories := (kinds.filter (·.2)).map (·.1)
    files := (kinds.filter (! ·.2)).map (·.1) }

def stat (p : Place) (name : String) : Action Stats := do
  let d ← Device.readDirectory p.dir
  let e ← lookup d name
  match ← Device.readBlock e.target with
  | .directory _ => return ⟨name, e.target, true, 0, 0⟩
  | .file i =>
    let blocks ← expect (i.blockCount? p.geometry.blockSize)
    return ⟨name, e.target, false, i.fileSize.toNat, blocks⟩

def makeDirectory (p : Place) (name : String) : Action Unit :=
  p.createEntry name (.directory .empty)

/-- Removes an empty subdirectory.  The entry goes before the block is freed, so that no
entry names a free block. -/
def removeDirectory (p : Place) (name : String) : Action Unit := do
  let d ← Device.readDirectory p.dir
  let e ← lookup d name
  let sub ← Device.readDirectory e.target
  if sub.size ≠ 0 then throw .notEmpty
  Device.writeBlock p.dir (.directory (d.erase name))
  Device.release e.target

end Place
end BlockFS
