/-
Block 0 of a disk image: the length and the number of the blocks and the bitmap, behind
a magic number.
-/
import BlockFS.Codec

namespace BlockFS

/-- What block 0 of a disk image says. -/
structure Header where
  magic : Nat
  blockLen : Nat
  blockCount : Nat
  bitmap : Bytes
  deriving DecidableEq

namespace Header

/-- The number that disk images start with. -/
def magicNumber : Nat := 0x4A465331

/-- The length of the part before the bitmap's length. -/
def prefixLength : Nat := 12

/-- The length of the part before the bitmap. -/
def fixedLength : Nat := prefixLength + 8

/-- The bytes of a header.  Each number is cut to the width of its field. -/
def toBytes (h : Header) : Bytes :=
  Bytes.ofNat 4 h.magic ++ Bytes.ofNat 4 h.blockLen ++ Bytes.ofNat 4 h.blockCount ++
    Bytes.ofNat 8 h.bitmap.length ++ h.bitmap

/-- The length of a header with a bitmap for `blocks` blocks. -/
def lengthFor (blocks : Nat) : Nat := fixedLength + (blocks + 7) / 8

theorem length_toBytes (h : Header) : h.toBytes.length = fixedLength + h.bitmap.length := by
  simp [toBytes, fixedLength, prefixLength]
  omega

/-- Reads the part before the bitmap. -/
def prefixReader : Codec.Reader Header := do
  let magic ← Codec.nat 4
  let blockLen ← Codec.nat 4
  let blockCount ← Codec.nat 4
  return ⟨magic, blockLen, blockCount, []⟩

def reader : Codec.Reader Header := do
  let h ← prefixReader
  let bitmap ← Codec.bytes (← Codec.nat 8) .endOfInput
  return { h with bitmap := bitmap }

end Header
end BlockFS
