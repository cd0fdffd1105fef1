/-
Stores in disk image files.

The bitmap of an open image is kept apart from the file; `sync` writes it back into
block 0.  `create` makes an image and `openImage` takes one up again.
-/
import BlockFS.Store
import BlockFS.Store.Header

namespace BlockFS

/-- What is found at the path of a disk image. -/
inductive DiskFile where
  | image (contents : Image)
  /-- Nothing, in a directory that is there. -/
  | absent
  /-- Nothing, as the directory is not there either. -/
  | unreachable

def DiskFile.image? : DiskFile → Option Image
  | image contents => some contents
  | absent => none
  | unreachable => none

namespace Store

def header (s : Store) : Header :=
  ⟨Header.magicNumber, s.blockLen, s.blockCount, s.bitmap.toBytes⟩

/-- The header is too long for block 0. -/
structure HeaderOverrun where
  blocks : Nat
  deriving DecidableEq

def HeaderOverrun.message (o : HeaderOverrun) : String :=
  s!"allocation bitmap for {o.blocks} blocks does not fit in one block"

/-- Writes the header into block 0, with zeros behind it. -/
def sync (s : Store) : Except HeaderOverrun Store :=
  let bs := s.header.toBytes
  if bs.length ≤ s.blockLen then
    let ⟨medium, blockLen, bitmap, image⟩ := s
    .ok ⟨medium, blockLen, bitmap, (image.write 0 bs).clear bs.length (blockLen - bs.length)⟩
  else .error ⟨s.blockCount⟩

/-- Gives a store up.  An image is left with an up to date header. -/
def unmount (s : Store) : Except HeaderOverrun Store :=
  match s.medium with
  | .memory => .ok s
  | .disk => s.sync

/-- Why a disk image is not created. -/
inductive CreateFault where
  | unreachable
  /-- The length of the file is out of reach. -/
  | lengthOverflow
  | exceedsFile
  | bitmap (fault : Bitmap.SizeFault)
  | header (fault : HeaderOverrun)
  deriving DecidableEq

/-- The report on a file or directory that is not there. -/
def missingText : String := "No such file or directory (os error 2)"

/-- The texts of a fault with the file at `path`, each followed by its cause. -/
def CreateFault.chain (path : String) : CreateFault → List String
  | unreachable => [s!"unable to create disk file {path}", missingText]
  | lengthOverflow => ["sizing disk file", "length out of range"]
  | exceedsFile => ["sizing disk file", "number too large to fit in target type"]
  | bitmap fault => [fault.message]
  | header fault => [fault.message]

/-- Makes a store of zeros at a path.  A file that stands there is emptied and brought to
its new length first, and that is what is left if the rest fails.  The header is measured
before the bitmap is made, as the bitmap of a great number of blocks takes long to make. -/
def create (old : DiskFile) (blockLen blocks : Nat) : Except (CreateFault × DiskFile) Store :=
  match old with
  | .unreachable => .error (.unreachable, .unreachable)
  | _ =>
    let length := blockLen * blocks
    if sizeLimit ≤ length then .error (.lengthOverflow, .image (Image.zeros 0))
    else if fileLengthLimit ≤ length then .error (.exceedsFile, .image (Image.zeros 0))
    else
      let image := Image.zeros length
      if Bitmap.minBlocks ≤ blocks ∧ blockLen < Header.lengthFor blocks then
        .error (.header ⟨blocks⟩, .image image)
      else
        match Bitmap.fresh blocks with
        | .error fault => .error (.bitmap fault, .image image)
        | .ok bitmap =>
          match sync ⟨.disk, blockLen, bitmap, image⟩ with
          | .ok s => .ok s
          | .error fault => .error (.header fault, .image image)

/-- Why a file is not opened as a disk image. -/
inductive OpenFault where
  | missing
  | truncatedHeader
  | badMagic
  | badBlockLen (blockLen : Nat)
  | tooFewBlocks (blocks : Nat)
  | tooShort (length expected : Nat)
  | badHeader (cause : Codec.Fault)
  | badBitmap (cause : Bitmap.LoadFault)
  deriving DecidableEq

/-- The texts of a fault in the file at `path`, each followed by its cause. -/
def OpenFault.chain (path : String) : OpenFault → List String
  | missing =>
    [s!"unable to open disk file {path}", missingText]
  | truncatedHeader => ["reading disk header", "failed to fill whole buffer"]
  | badMagic => [s!"{path} is not a jfs disk image"]
  | badBlockLen blockLen => [s!"invalid block length: {blockLen}"]
  | tooFewBlocks blocks => [s!"disk header lists {blocks} blocks"]
  | tooShort length expected => [s!"disk file is {length} bytes long, expected {expected}"]
  | badHeader cause => ["parsing disk header", cause.message]
  | badBitmap cause => [cause.message]

/-- The part of block 0 that the header takes up, by the length that it states for the
bitmap.  Of a header that would not end within the block, the part before the bitmap. -/
def headerBytes (image : Image) (blockLen : Nat) : Bytes :=
  let length := Header.fixedLength + Bytes.toNat (image.slice Header.prefixLength 8)
  image.slice 0 (if length ≤ blockLen then length else min blockLen Header.fixedLength)

def openImage (image : Image) : Except OpenFault Store :=
  match image.read? 0 Header.prefixLength with
  | none => .error .truncatedHeader
  | some start =>
    match Header.prefixReader start with
    | .error cause => .error (.badHeader cause)
    | .ok (h, _) =>
      if h.magic ≠ Header.magicNumber then .error .badMagic
      else if h.blockLen ≤ Header.prefixLength then .error (.badBlockLen h.blockLen)
      else if h.blockCount < Bitmap.minBlocks then .error (.tooFewBlocks h.blockCount)
      else if image.size < h.blockLen * h.blockCount then
        .error (.tooShort image.size (h.blockLen * h.blockCount))
      else
        match Header.reader (headerBytes image h.blockLen) with
        | .error cause => .error (.badHeader cause)
        | .ok (full, _) =>
          match Bitmap.ofBytes full.bitmap h.blockCount with
          | .error cause => .error (.badBitmap cause)
          | .ok bitmap => .ok ⟨.disk, h.blockLen, bitmap, image⟩

def openFile (file : DiskFile) : Except OpenFault Store :=
  match file.image? with
  | none => .error .missing
  | some image => openImage image

end Store
end BlockFS
