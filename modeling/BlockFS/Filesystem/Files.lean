/-
Operations on files.

Appending never writes into a block that is in use.  The data go into new blocks,
together with what a partly filled last block held, and the inode is rewritten after
that; only then is the old last block freed.
-/
import BlockFS.Filesystem.Place

namespace BlockFS
namespace Place

def createFile (p : Place) (name : String) : Action Unit :=
  p.createEntry name (.file .empty)

/-- Removes a file and frees its blocks.  The entry goes first, so that no entry names a
free block. -/
def removeFile (p : Place) (name : String) : Action Unit := do
  let d ← Device.readDirectory p.dir
  let e ← lookup d name
  let i ← Device.readInode e.target
  let blocks ← expect (i.populated? p.geometry.blockSize)
  Device.writeBlock p.dir (.directory (d.erase name))
  Device.releaseEach blocks
  Device.release e.target

/-- The partly filled last block of a file, if it has one. -/
def tail? (blockSize : Nat) (size : Nat) (blocks : List BlockNumber) :
    Action (Option BlockNumber) := do
  if size % blockSize = 0 then return none
  else
    let last ← expect blocks[size / blockSize]?
    return some last

/-- The contents of the partly filled last block up to the end of the file. -/
def tailContents (blockSize : Nat) (size : Nat) (tail : Option BlockNumber) : Action Bytes := do
  match tail with
  | none => return []
  | some last =>
    let contents ← Device.readBytes last
    expect (Bytes.first? (size % blockSize) contents)

/-- Makes a file hold, behind the whole blocks `kept`, the bytes `contents`, which go
into new blocks, and `size` bytes in all. -/
def extend (p : Place) (block : BlockNumber) (kept : List BlockNumber) (contents : Bytes)
    (size : Nat) : Action Unit := do
  let count ← expect (p.geometry.blocksFor? contents.length)
  Transaction.atomically do
    Transaction.storeEach (Bytes.pieces p.geometry.blockSize count contents)
    let new ← Transaction.blocks
    Transaction.lift do
      let size ← expect (if size < Geometry.inodeSizeLimit then some (UInt32.ofNat size) else none)
      Device.writeBlock block (.file ⟨size, kept ++ new⟩)

def append (p : Place) (name : String) (data : Bytes) : Action Unit := do
  let d ← Device.readDirectory p.dir
  let e ← lookup d name
  let i ← Device.readInode e.target
  let oldSize := i.fileSize.toNat
  let newSize := oldSize + data.length
  if sizeLimit ≤ newSize ∨ p.geometry.maxFileSize < newSize then throw .fileTooLarge
  if data = [] then return
  let blocks ← ofExcept (p.geometry.fileBlocks e.target i)
  let blockSize := p.geometry.blockSize
  let tail ← tail? blockSize oldSize blocks
  let kept ← tailContents blockSize oldSize tail
  p.extend e.target (blocks.take (oldSize / blockSize)) (kept ++ data) newSize
  match tail with
  | none => return
  | some last => Device.release last

/-- The first `remaining` bytes of the blocks of a file. -/
def readEach (blockSize : Nat) : (remaining : Nat) → List BlockNumber → Action Bytes
  | _, [] => return []
  | remaining, b :: bs => do
    let contents ← Device.readBytes b
    let piece ← expect (Bytes.first? (min remaining blockSize) contents)
    let rest ← readEach blockSize (remaining - piece.length) bs
    return piece ++ rest

/-- The first `max` bytes of a file, or all of them if there are fewer. -/
def read (p : Place) (name : String) (max : Nat) : Action Bytes := do
  let d ← Device.readDirectory p.dir
  let e ← lookup d name
  let i ← Device.readInode e.target
  let length := min i.fileSize.toNat max
  let blocks ← ofExcept (p.geometry.fileBlocks e.target i)
  let count ← expect (p.geometry.blocksFor? length)
  readEach p.geometry.blockSize length (blocks.take count)

end Place
end BlockFS
