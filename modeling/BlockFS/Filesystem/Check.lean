/-
The consistency check of a filesystem.

The check walks the tree from the root and claims each block at the place where it is
referenced.  A block can be claimed once, so the walk ends: every step takes one block
off the stack, and puts on it no more than it claims.
-/
import BlockFS.Filesystem.Place

namespace BlockFS

/-- Why a filesystem is not consistent. -/
inductive CheckFault where
  | filesystem (e : Error)
  | noBlockReferenced
  | invalidNumber (block : BlockNumber)
  | referencedFree (block : BlockNumber)
  | referencedTwice (block : BlockNumber)
  | tooManyEntries (block : BlockNumber) (entries : Nat)
  | nameTooLong (name : String)
  | duplicateName (name : String)
  | fileTooLarge
  | tooManyBlocks (block : BlockNumber) (blocks : Nat)
  deriving DecidableEq

/-- The texts of a fault, each followed by its cause. -/
def CheckFault.chain : CheckFault → List String
  | filesystem e => e.chain
  | noBlockReferenced => [s!"reference to block {noBlock}"]
  | invalidNumber block => [s!"invalid block number: {block}"]
  | referencedFree block => [s!"block {block} is referenced but free"]
  | referencedTwice block => [s!"block {block} is referenced more than once"]
  | tooManyEntries block entries => [s!"directory in block {block} has {entries} entries"]
  | nameTooLong name => [s!"entry name is too long: {name}"]
  | duplicateName name => [s!"directory contains duplicate entry: {name}"]
  | fileTooLarge => ["size in inode is greater than the maximum valid file size"]
  | tooManyBlocks block blocks => [s!"inode in block {block} lists {blocks} data blocks"]

/-- What the check finds in a consistent filesystem. -/
structure CheckReport where
  /-- The directories, the root among them. -/
  directories : Nat
  files : Nat
  dataBlocks : Nat
  /-- The blocks that are occupied without being referenced, in ascending order. -/
  leaked : List BlockNumber
  deriving DecidableEq

namespace Check

/-- Which blocks have been claimed. -/
structure Claims where
  marks : Array Bool

namespace Claims

def none (n : Nat) : Claims := ⟨Array.replicate n false⟩

def has (c : Claims) (k : Nat) : Bool := c.marks[k]? == some true

def left (c : Claims) : Nat := c.marks.count false

/-- Claims a block, which has to be occupied and may not have been claimed before. -/
def claim (m : Bitmap) (c : Claims) (b : BlockNumber) : Except CheckFault Claims :=
  if b = noBlock then .error .noBlockReferenced
  else if c.marks.size ≤ b.toNat then .error (.invalidNumber b)
  else if !m.isAllocated b then .error (.referencedFree b)
  else if c.has b.toNat then .error (.referencedTwice b)
  else .ok ⟨c.marks.setIfInBounds b.toNat true⟩

def claimAll (m : Bitmap) (c : Claims) : List BlockNumber → Except CheckFault Claims
  | [] => .ok c
  | b :: bs =>
    match c.claim m b with
    | .error fault => .error fault
    | .ok c => claimAll m c bs

/-- A claim uses up one block. -/
theorem left_claim {m : Bitmap} {c d : Claims} {b : BlockNumber} (h : c.claim m b = .ok d) :
    d.left + 1 = c.left := by
  unfold claim at h
  split at h
  · cases h
  split at h
  · cases h
  next hsize =>
  split at h
  · cases h
  split at h
  · cases h
  next hfree =>
  cases h
  have hlt : b.toNat < c.marks.size := by omega
  have hmark : c.marks[b.toNat] = false := by
    simpa [has, Array.getElem?_eq_getElem hlt] using hfree
  have hpos : 0 < c.marks.count false := Array.count_pos_iff.2 (hmark ▸ Array.getElem_mem hlt)
  simp only [left, Array.setIfInBounds, hlt, dite_true, Array.count_set, hmark]
  simp
  omega

theorem left_claimAll {m : Bitmap} {c d : Claims} {bs : List BlockNumber}
    (h : c.claimAll m bs = .ok d) : d.left + bs.length = c.left := by
  induction bs generalizing c with
  | nil => cases h; rfl
  | cons b bs ih =>
    rw [claimAll] at h
    split at h
    · cases h
    · next e he =>
      have := left_claim he
      have := ih h
      simp only [List.length_cons]
      omega

end Claims

/-- How many of each kind have been found. -/
structure Tally where
  directories : Nat
  files : Nat
  dataBlocks : Nat
  deriving DecidableEq

namespace Tally

def zero : Tally := ⟨0, 0, 0⟩

def countDirectory (t : Tally) : Tally := { t with directories := t.directories + 1 }

def countFile (t : Tally) (dataBlocks : Nat) : Tally :=
  { t with files := t.files + 1, dataBlocks := t.dataBlocks + dataBlocks }

end Tally

/-- Claims the targets of entries whose names are short enough, differ from each other
and are not among `seen`. -/
def claimEntries (g : Geometry) (m : Bitmap) (seen : List String) (c : Claims) :
    List Entry → Except CheckFault Claims
  | [] => .ok c
  | e :: es =>
    if g.maxNameLength < e.name.utf8ByteSize then .error (.nameTooLong e.name)
    else if e.name ∈ seen then .error (.duplicateName e.name)
    else
      match c.claim m e.target with
      | .error fault => .error fault
      | .ok c => claimEntries g m (e.name :: seen) c es

theorem left_claimEntries {g : Geometry} {m : Bitmap} {seen : List String} {c d : Claims}
    {es : List Entry} (h : claimEntries g m seen c es = .ok d) : d.left + es.length = c.left := by
  induction es generalizing seen c with
  | nil => cases h; rfl
  | cons e es ih =>
    rw [claimEntries] at h
    split at h
    · cases h
    split at h
    · cases h
    split at h
    · cases h
    · next he =>
      have := Claims.left_claim he
      have := ih h
      simp only [List.length_cons]
      omega

/-- What the check knows after it has looked at a block. -/
structure Visit where
  claims : Claims
  tally : Tally
  /-- The blocks to look at because of this one, the first to be looked at in front. -/
  children : List BlockNumber

/-- Looks at the metadata in block `b`. -/
def visit (g : Geometry) (m : Bitmap) (c : Claims) (t : Tally) (b : BlockNumber) :
    Block → Except CheckFault Visit
  | .directory d =>
    if g.maxDirEntries < d.size then .error (.tooManyEntries b d.size)
    else
      match claimEntries g m [] c d.entries with
      | .error fault => .error fault
      | .ok c => .ok ⟨c, t.countDirectory, (d.entries.map Entry.target).reverse⟩
  | .file i =>
    if g.maxFileSize < i.fileSize.toNat then .error .fileTooLarge
    else if g.maxDataBlocks < i.dataBlocks.length then
      .error (.tooManyBlocks b i.dataBlocks.length)
    else
      match g.fileBlocks b i with
      | .error e => .error (.filesystem e)
      | .ok blocks =>
        match c.claimAll m blocks with
        | .error fault => .error fault
        | .ok c => .ok ⟨c, t.countFile blocks.length, []⟩

/-- A visit hands on no more blocks than it claims. -/
theorem left_visit {g : Geometry} {m : Bitmap} {c : Claims} {t : Tally} {b : BlockNumber}
    {block : Block} {v : Visit} (h : visit g m c t b block = .ok v) :
    v.claims.left + v.children.length ≤ c.left := by
  cases block with
  | directory d =>
    rw [visit] at h
    split at h
    · cases h
    split at h
    · cases h
    · next hc =>
      cases h
      have := left_claimEntries hc
      simp only [List.length_reverse, List.length_map]
      omega
  | file i =>
    rw [visit] at h
    split at h
    · cases h
    split at h
    · cases h
    split at h
    · cases h
    split at h
    · cases h
    · next hc =>
      cases h
      have := Claims.left_claimAll hc
      simp only [List.length_nil]
      omega

/-- Looks at the blocks on the stack and at all that they lead to. -/
def walk (g : Geometry) (m : Bitmap) (c : Claims) (t : Tally) (stack : List BlockNumber) :
    EStateM CheckFault Device (Claims × Tally) :=
  match stack with
  | [] => return (c, t)
  | b :: rest => do
    let block ← EStateM.adaptExcept .filesystem (Device.readBlock b)
    match _h : visit g m c t b block with
    | .error fault => throw fault
    | .ok v => walk g m v.claims v.tally (v.children ++ rest)
termination_by c.left + stack.length
decreasing_by
  have := left_visit ‹_›
  simp only [List.length_append, List.length_cons]
  omega

def leaked (m : Bitmap) (c : Claims) : List BlockNumber :=
  ((List.range m.size).filter fun k =>
    rootBlock.toNat < k && m.occupied k && !c.has k).map UInt32.ofNat

/-- Checks the whole filesystem on a device. -/
def run (g : Geometry) : EStateM CheckFault Device CheckReport := do
  let m := (← get).store.bitmap
  match (Claims.none m.size).claim m rootBlock with
  | .error fault => throw fault
  | .ok c =>
    let (c, t) ← walk g m c .zero [rootBlock]
    return ⟨t.directories, t.files, t.dataBlocks, leaked m c⟩

end Check
end BlockFS
