/-
The ways in which an operation on a filesystem fails, and their texts.

A failure of the store comes with the causes that led to it.  `Error.chain` lists the
texts from the outermost to the innermost, and `Error.message` is the first of them.
-/
import BlockFS.Geometry
import BlockFS.Store.Disk

namespace BlockFS

/-- The calls to a store that may be made to fail. -/
inductive Access where
  | read
  | write
  | release
  deriving DecidableEq

def Access.name : Access → String
  | read => "read"
  | write => "write"
  | release => "release"

/-- Texts from the outermost to the innermost, on one line. -/
def joinChain (texts : List String) : String := ": ".intercalate texts

/-- Why the store let an operation down. -/
inductive Failure where
  | store (fault : StoreFault)
  /-- The call never reached the store. -/
  | interrupted (access : Access) (block : BlockNumber)
  | oversize (fault : Block.Oversize)
  | malformed (block : BlockNumber) (fault : Block.Malformed)
  | rootNotDirectory
  /-- The header of a disk image was not written. -/
  | header (fault : Store.HeaderOverrun)
  /-- A file has fewer blocks than its size needs. -/
  | missingBlocks (inode : BlockNumber) (held : Nat) (size : UInt32)
  deriving DecidableEq

def Failure.chain : Failure → List String
  | store fault => fault.chain
  | interrupted access block => [s!"injected {access.name} failure for block {block}"]
  | oversize fault => [fault.message]
  | malformed block fault => s!"decoding block {block}" :: fault.chain
  | rootNotDirectory => ["root block does not hold a directory"]
  | header fault => [fault.message]
  | missingBlocks inode held size =>
    [s!"inode in block {inode} holds {held} data blocks for {size} bytes"]

/-- Why an operation on a filesystem fails. -/
inductive Error where
  | alreadyExists
  | notFound
  | notADirectory
  | isADirectory
  | notEmpty
  | nameTooLong
  | directoryFull
  | fileTooLarge
  | diskFull
  | io (failure : Failure)
  | invalidGeometry (fault : Geometry.Fault)
  /-- A step that the operation takes for granted was not possible. -/
  | defect
  deriving DecidableEq

namespace Error

def message : Error → String
  | alreadyExists => "an entry with that name already exists"
  | notFound => "no such file or directory"
  | notADirectory => "not a directory"
  | isADirectory => "is a directory"
  | notEmpty => "directory is not empty"
  | nameTooLong => "name is too long"
  | directoryFull => "directory has no room for more entries"
  | fileTooLarge => "file would exceed the maximum file size"
  | diskFull => "no free blocks left on the disk"
  | io failure => "block store failure: " ++ joinChain failure.chain
  | invalidGeometry fault => "invalid geometry: " ++ fault.message
  | defect => "internal error"

/-- The texts of the error and of its causes. -/
def chain (e : Error) : List String :=
  match e with
  | io failure => e.message :: failure.chain
  | _ => [e.message]

end Error
end BlockFS
