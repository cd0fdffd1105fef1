/-
The two kinds of metadata block.

A directory lists its entries in the order in which they were added; an inode holds
the size of a file and the blocks of its contents.  Block 0 stands for "no block",
and block 1 is the root directory.
-/

namespace BlockFS

/-- Blocks are numbered by 32-bit words. -/
abbrev BlockNumber := UInt32

/-- The number in place of a block that is not there. -/
def noBlock : BlockNumber := 0

def rootBlock : BlockNumber := 1

/-- The number of blocks of `blockSize` bytes that `size` bytes fill or begin to fill.
A block size of zero has no answer. -/
def blocksFor? (blockSize size : Nat) : Option Nat :=
  if blockSize = 0 then none else some ((size + (blockSize - 1)) / blockSize)

theorem blocksFor?_of_pos {blockSize : Nat} (h : 0 < blockSize) (size : Nat) :
    blocksFor? blockSize size = some ((size + (blockSize - 1)) / blockSize) :=
  if_neg (Nat.ne_of_gt h)

/-- A name in a directory.  The target block says whether it names a directory or a
file. -/
structure Entry where
  name : String
  target : BlockNumber
  deriving DecidableEq

/-- The entries of a directory, oldest first. -/
structure Directory where
  entries : List Entry
  deriving DecidableEq

namespace Directory

def empty : Directory := ⟨[]⟩

def size (d : Directory) : Nat := d.entries.length

/-- The position of the first entry called `name`. -/
def indexOf? (d : Directory) (name : String) : Option Nat :=
  d.entries.findIdx? (·.name == name)

def find? (d : Directory) (name : String) : Option Entry :=
  d.entries.find? (·.name == name)

def contains (d : Directory) (name : String) : Bool :=
  (d.find? name).isSome

def push (d : Directory) (e : Entry) : Directory :=
  ⟨d.entries ++ [e]⟩

/-- Drops the first entry called `name`; the entries behind it move up. -/
def erase (d : Directory) (name : String) : Directory :=
  ⟨d.entries.eraseP (·.name == name)⟩

/-- Takes the entry at `index` out, if there is one. -/
def removeAt? (d : Directory) (index : Nat) : Option (Entry × Directory) :=
  d.entries[index]?.map fun e => (e, ⟨d.entries.eraseIdx index⟩)

@[simp] theorem size_empty : empty.size = 0 := rfl

@[simp] theorem size_push (d : Directory) (e : Entry) : (d.push e).size = d.size + 1 := by
  simp [push, size]

theorem find?_empty (name : String) : empty.find? name = none := rfl

theorem find?_push (d : Directory) (e : Entry) (name : String) :
    (d.push e).find? name = (d.find? name).or (if e.name = name then some e else none) := by
  simp only [push, find?, List.find?_append, List.find?_cons, List.find?_nil]
  by_cases h : e.name = name
  · simp [h]
  · simp [h, beq_false_of_ne h]

theorem contains_eq_true_iff (d : Directory) (name : String) :
    d.contains name = true ↔ ∃ e ∈ d.entries, e.name = name := by
  simp [contains, find?]

theorem mem_of_find? {d : Directory} {name : String} {e : Entry} (h : d.find? name = some e) :
    e ∈ d.entries ∧ e.name = name := by
  refine ⟨List.mem_of_find?_eq_some h, ?_⟩
  simpa using List.find?_some h

/-- Erasing a name that is there takes exactly one entry away. -/
theorem size_erase {d : Directory} {name : String} {e : Entry} (h : d.find? name = some e) :
    (d.erase name).size + 1 = d.size := by
  obtain ⟨hmem, hname⟩ := mem_of_find? h
  have hpos : 0 < d.entries.length := List.length_pos_of_mem hmem
  have hlen : (d.erase name).entries.length = d.entries.length - 1 :=
    List.length_eraseP_of_mem hmem (by simpa using hname)
  simp only [size, hlen]
  omega

theorem removeAt?_eq_none_iff (d : Directory) (index : Nat) :
    d.removeAt? index = none ↔ d.size ≤ index := by
  simp [removeAt?, size]

end Directory

/-- What is stored about a file besides its contents. -/
structure Inode where
  /-- The size of the file in bytes. -/
  fileSize : UInt32
  /-- The blocks that hold the contents, in order. -/
  dataBlocks : List BlockNumber
  deriving DecidableEq

namespace Inode

def empty : Inode := ⟨0, []⟩

def blockCount? (i : Inode) (blockSize : Nat) : Option Nat :=
  blocksFor? blockSize i.fileSize.toNat

/-- The blocks in use: as many as the contents need, and none behind an empty slot. -/
def populated? (i : Inode) (blockSize : Nat) : Option (List BlockNumber) :=
  (i.blockCount? blockSize).map fun n => (i.dataBlocks.take n).takeWhile (· != noBlock)

theorem length_le_of_populated? {i : Inode} {blockSize n : Nat} {bs : List BlockNumber}
    (hn : i.blockCount? blockSize = some n) (hbs : i.populated? blockSize = some bs) :
    bs.length ≤ n := by
  simp only [populated?, hn, Option.map_some, Option.some.injEq] at hbs
  subst hbs
  exact Nat.le_trans (List.takeWhile_sublist _).length_le (List.length_take_le _ _)

end Inode

/-- A metadata block. -/
inductive Block where
  | directory (d : Directory)
  | file (i : Inode)
  deriving DecidableEq

end BlockFS
