/-
The size limits that a filesystem is mounted with.
-/
import BlockFS.Block.Layout

namespace BlockFS

structure Geometry where
  /-- The number of bytes of a file that a data block holds. -/
  blockSize : Nat := 4096
  /-- The greatest length of a name in bytes. -/
  maxNameLength : Nat := 64
  /-- The greatest number of entries in a directory. -/
  maxDirEntries : Nat := 48
  /-- The greatest number of data blocks of a file. -/
  maxDataBlocks : Nat := 512
  /-- The greatest size of a file in bytes. -/
  maxFileSize : Nat := 512 * 4096
  deriving DecidableEq

def defaultBlockCount : Nat := 4096

namespace Geometry

/-- Why limits are not usable. -/
inductive Fault where
  | noBlockSize
  | noEntries
  | noDataBlocks
  | fileExceedsBlocks
  | fileExceedsInode
  /-- The blocks of the store cannot hold what the limits allow. -/
  | blocksTooSmall
  deriving DecidableEq

def Fault.message : Fault → String
  | noBlockSize => "block size must be non-zero"
  | noEntries => "directories must hold at least one entry"
  | noDataBlocks => "inodes must reference at least one data block"
  | fileExceedsBlocks => "maximum file size exceeds the data block capacity of an inode"
  | fileExceedsInode => "maximum file size does not fit in an inode"
  | blocksTooSmall => "store blocks are too small for this geometry"

/-- The sizes that fit the 32-bit word of an inode lie below. -/
def inodeSizeLimit : Nat := 1 <<< 32

/-- Checks that the limits are usable together. -/
def validate (g : Geometry) : Except Fault Unit :=
  let capacity := g.maxDataBlocks * g.blockSize
  if g.blockSize = 0 then .error .noBlockSize
  else if g.maxDirEntries = 0 then .error .noEntries
  else if g.maxDataBlocks = 0 then .error .noDataBlocks
  else if sizeLimit ≤ capacity ∨ capacity < g.maxFileSize then .error .fileExceedsBlocks
  else if inodeSizeLimit ≤ g.maxFileSize then .error .fileExceedsInode
  else .ok ()

/-- The limits are accepted exactly if they agree with each other and with the words
that record them. -/
theorem validate_eq_ok_iff (g : Geometry) :
    g.validate = .ok () ↔
      0 < g.blockSize ∧ 0 < g.maxDirEntries ∧ 0 < g.maxDataBlocks ∧
        g.maxDataBlocks * g.blockSize < sizeLimit ∧
        g.maxFileSize ≤ g.maxDataBlocks * g.blockSize ∧ g.maxFileSize < inodeSizeLimit := by
  unfold validate
  grind

/-- The length of a directory with as many entries and as long names as allowed. -/
def maxDirectoryLength (g : Geometry) : Nat :=
  1 + 8 + g.maxDirEntries * Block.entryLength g.maxNameLength

/-- The length of an inode with as many data blocks as allowed. -/
def maxInodeLength (g : Geometry) : Nat :=
  1 + 4 + 8 + 4 * g.maxDataBlocks

/-- The length of a block that can hold all that the limits allow. -/
def blockLen (g : Geometry) : Nat :=
  max g.blockSize (max g.maxDirectoryLength g.maxInodeLength)

/-- What an entry takes up in memory besides its name. -/
def entrySpace : Nat := 32

/-- What the number of a block takes up in memory. -/
def numberSpace : Nat := 4

/-- Whether the longest name, the entries of the fullest directory and the block numbers
of the longest file find room in memory, each by themselves. -/
def fitsMemory (g : Geometry) : Bool :=
  g.maxNameLength < addressLimit && g.maxDirEntries * entrySpace < addressLimit &&
    g.maxDataBlocks * numberSpace < addressLimit

/-- The length that the blocks of a store need to have, or `none` where what they are to
hold finds no room in memory. -/
def blockLen? (g : Geometry) : Option Nat :=
  if g.fitsMemory then some g.blockLen else none

/-- The number of data blocks of a file of `size` bytes. -/
def blocksFor? (g : Geometry) (size : Nat) : Option Nat :=
  BlockFS.blocksFor? g.blockSize size

end Geometry
end BlockFS
