/-
The bytes of a metadata block.

The first byte tells a directory from a file.  A directory goes on with the number of
its entries and, for each, the name and the target; a file with its size, the number
of its data blocks and those blocks.  What follows in the block is zero and is ignored
when the block is read.
-/
import BlockFS.Block
import BlockFS.Codec

namespace BlockFS
namespace Block

def ofEntry (e : Entry) : Bytes :=
  Codec.ofText e.name ++ Codec.ofWord e.target

/-- The bytes of the block before padding. -/
def toBytes : Block → Bytes
  | directory d => 0 :: (Bytes.ofNat 8 d.size ++ d.entries.flatMap ofEntry)
  | file i =>
    1 :: (Codec.ofWord i.fileSize ++
      (Bytes.ofNat 8 i.dataBlocks.length ++ i.dataBlocks.flatMap Codec.ofWord))

/-- The number of bytes that an entry whose name has `nameLength` bytes occupies. -/
def entryLength (nameLength : Nat) : Nat := 8 + nameLength + 4

theorem length_ofEntry (e : Entry) : (ofEntry e).length = entryLength e.name.utf8ByteSize := by
  simp [ofEntry, entryLength]

/-- The number of bytes that the block occupies before padding. -/
def encodedLength : Block → Nat
  | directory d => 1 + 8 + d.entries.foldr (fun e n => entryLength e.name.utf8ByteSize + n) 0
  | file i => 1 + 4 + 8 + 4 * i.dataBlocks.length

theorem length_toBytes (b : Block) : b.toBytes.length = b.encodedLength := by
  cases b with
  | directory d =>
    have h : (d.entries.flatMap ofEntry).length
        = d.entries.foldr (fun e n => entryLength e.name.utf8ByteSize + n) 0 := by
      induction d.entries with
      | nil => rfl
      | cons e es ih => rw [List.flatMap_cons, List.length_append, length_ofEntry, ih, List.foldr_cons]
    simp only [toBytes, encodedLength, List.length_cons, List.length_append, Bytes.length_ofNat, h]
    omega
  | file i =>
    have h : (i.dataBlocks.flatMap Codec.ofWord).length = 4 * i.dataBlocks.length := by
      rw [List.length_flatMap]
      simp [List.map_const', Nat.mul_comm]
    simp only [toBytes, encodedLength, List.length_cons, List.length_append, Bytes.length_ofNat,
      Codec.length_ofWord, h]
    omega

/-- The block needs more bytes than a block has. -/
structure Oversize where
  isDirectory : Bool
  needed : Nat
  available : Nat
  deriving DecidableEq

def Oversize.message (o : Oversize) : String :=
  let kind := if o.isDirectory then "Directory" else "File"
  s!"{kind} block needs {o.needed} bytes but blocks are {o.available} bytes long"

def isDirectory : Block → Bool
  | directory _ => true
  | file _ => false

/-- The contents of a block of `blockLen` bytes that holds `b`. -/
def encode (blockLen : Nat) (b : Block) : Except Oversize Bytes :=
  let bs := b.toBytes
  if bs.length ≤ blockLen then .ok (Bytes.padTo blockLen bs)
  else .error ⟨b.isDirectory, bs.length, blockLen⟩

theorem encode_of_le {blockLen : Nat} {b : Block} (h : b.encodedLength ≤ blockLen) :
    b.encode blockLen = .ok (Bytes.padTo blockLen b.toBytes) := by
  rw [← length_toBytes] at h
  simp [encode, h]

/-- The part of a block that does not decode. -/
inductive Part where
  | tag
  | directory
  | inode
  deriving DecidableEq

def Part.message : Part → String
  | tag => "parsing block tag"
  | directory => "parsing directory node"
  | inode => "parsing inode"

/-- Why bytes are no metadata block. -/
structure Malformed where
  part : Part
  cause : Codec.Fault
  deriving DecidableEq

/-- The texts of the fault, each followed by its cause. -/
def Malformed.chain (m : Malformed) : List String :=
  [m.part.message, m.cause.message]

def entryReader : Codec.Reader Entry := do
  let name ← Codec.text
  let target ← Codec.word
  return ⟨name, target⟩

def directoryReader : Codec.Reader Directory := do
  return ⟨← Codec.counted entryReader⟩

def inodeReader : Codec.Reader Inode := do
  let fileSize ← Codec.word
  let dataBlocks ← Codec.counted Codec.word
  return ⟨fileSize, dataBlocks⟩

/-- The metadata block that `bs` starts with. -/
def decode (bs : Bytes) : Except Malformed Block :=
  match bs with
  | [] => .error ⟨.tag, .endOfInput⟩
  | 0 :: rest =>
    match directoryReader rest with
    | .ok (d, _) => .ok (directory d)
    | .error cause => .error ⟨.directory, cause⟩
  | 1 :: rest =>
    match inodeReader rest with
    | .ok (i, _) => .ok (file i)
    | .error cause => .error ⟨.inode, cause⟩
  | tag :: _ => .error ⟨.tag, .unknownTag tag.toNat⟩

end Block
end BlockFS
