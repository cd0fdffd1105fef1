/-
The operations of a filesystem on words of a machine.

Each operation is written out with every sum, difference, quotient, index, slice and cast that
it computes with, and each of these ends in `Error.defect` where it has no value.  The theorem
this file exists for is `follows_perform`: on a store that serves the limits, whatever its
blocks hold, the operations do what `Operation.perform` does, and none of them ends in a
defect.

What an inode says about a file is trusted only as far as `Geometry.fileBlocks` has compared it
with the blocks listed; the bounds on the slices come from there and from the length of the
blocks.
-/
import BlockFS.Proofs.Machine.Calls
import BlockFS.Session

namespace BlockFS
namespace Machine

open Place (expect lookup)

section

variable {s : Store} {p : Place}

theorem follows_expect {α : Type} {a? : Option α} {a : α} (s : Store) (h : a? = some a) :
    Follows (Shaped s) Error.defect (expect a?) (expect a?) (· = a) := by
  rw [h]
  exact .pure rfl

theorem follows_lookup (s : Store) (d : Directory) (name : String) :
    Follows (Shaped s) Error.defect (lookup d name) (lookup d name)
      (fun e => d.find? name = some e) := by
  unfold lookup
  cases d.find? name with
  | some e => exact .pure rfl
  | none => exact .throw (by simp)

/-! ## Directories -/

def createEntry (p : Place) (name : String) (contents : Block) : Action Unit := do
  if p.geometry.maxNameLength < name.utf8ByteSize then throw .nameTooLong
  let d ← readDirectory p.dir
  if d.contains name then throw .alreadyExists
  if p.geometry.maxDirEntries ≤ d.size then throw .directoryFull
  atomically do
    let b ← occupy
    Transaction.lift (writeBlock b contents)
    Transaction.lift (writeBlock p.dir (.directory (d.push ⟨name, b⟩)))

theorem follows_createEntry (h : Holds s p.geometry) (name : String) (contents : Block) :
    Follows (Shaped s) Error.defect (createEntry p name contents) (p.createEntry name contents)
      (fun _ => True) := by
  refine .ite (fun _ => .throw (by simp)) fun _ => (follows_readDirectory h _).bind fun d _ => ?_
  refine .ite (fun _ => .throw (by simp)) fun _ => .ite (fun _ => .throw (by simp)) fun _ => ?_
  refine follows_atomically ((follows_occupy h).bind fun b _ => ?_)
  apply (follows_lift (follows_writeBlock h b contents)).bind
  intro _ _
  exact follows_lift (follows_writeBlock h p.dir _)

def enter (p : Place) (name : Option String) : Action Place := do
  match name with
  | none => return { p with dir := rootBlock }
  | some name =>
    let d ← readDirectory p.dir
    let e ← lookup d name
    let _ ← readDirectory e.target
    return { p with dir := e.target }

theorem follows_enter (h : Holds s p.geometry) (name : Option String) :
    Follows (Shaped s) Error.defect (enter p name) (p.enter name)
      (·.geometry = p.geometry) := by
  cases name with
  | none => exact .pure rfl
  | some name =>
    apply (follows_readDirectory h _).bind
    intro d _
    apply (follows_lookup s d name).bind
    intro e _
    exact (follows_readDirectory h _).bind fun _ _ => .pure rfl

def kindOf (e : Entry) : Action (String × Bool) := do
  let block ← readBlock e.target
  return (e.name, block.isDirectory)

def list (p : Place) : Action Listing := do
  let d ← readDirectory p.dir
  let kinds ← d.entries.mapM kindOf
  return {
    directories := (kinds.filter (·.2)).map (·.1)
    files := (kinds.filter (! ·.2)).map (·.1) }

theorem follows_list (h : Holds s p.geometry) :
    Follows (Shaped s) Error.defect (list p) p.list (fun _ => True) := by
  have hkinds : ∀ es : List Entry,
      Follows (Shaped s) Error.defect (es.mapM kindOf) (es.mapM Place.kindOf) (fun _ => True) := by
    intro es
    induction es with
    | nil => exact .pure trivial
    | cons e es ih =>
      rw [List.mapM_cons, List.mapM_cons]
      refine .bind (P := fun _ => True) ?_ fun kind _ => ih.bind fun kinds _ => .pure trivial
      exact (follows_readBlock h _).bind fun block _ => .pure trivial
  exact (follows_readDirectory h _).bind fun d _ => (hkinds d.entries).bind fun _ _ => .pure trivial

/-- Takes an entry out at the position at which its name was found. -/
def remove (d : Directory) (name : String) : Action Directory := do
  let index ← expect (d.indexOf? name)
  let (_, rest) ← expect (d.removeAt? index)
  return rest

/-- The position of a name that is there is one at which an entry can be taken out, and taking
it out drops that name. -/
theorem remove_eq {d : Directory} {name : String} {e : Entry} (hfind : d.find? name = some e)
    (dev : Device) : remove d name dev = .ok (d.erase name) dev := by
  obtain ⟨hmem, hname⟩ := Directory.mem_of_find? hfind
  cases hi : d.indexOf? name with
  | none =>
    have hnot := List.findIdx?_eq_none_iff.1 hi e hmem
    simp [hname] at hnot
  | some i =>
    obtain ⟨hlt, -⟩ := List.findIdx?_eq_some_iff_getElem.1 hi
    have herase : d.erase name = ⟨d.entries.eraseIdx i⟩ := by
      unfold Directory.erase
      rw [List.eraseP_eq_eraseIdx]
      have hi : d.entries.findIdx? (·.name == name) = some i := hi
      rw [hi]
    have htake : d.removeAt? i = some (d.entries[i], d.erase name) := by
      rw [herase, Directory.removeAt?, List.getElem?_eq_getElem hlt]
      rfl
    unfold remove
    rw [hi]
    show (expect (d.removeAt? i) >>= fun r => pure r.2 : Action Directory) dev = _
    rw [htake]
    rfl

def removeDirectory (p : Place) (name : String) : Action Unit := do
  let d ← readDirectory p.dir
  let e ← lookup d name
  let sub ← readDirectory e.target
  if sub.size ≠ 0 then throw .notEmpty
  let rest ← remove d name
  writeBlock p.dir (.directory rest)
  release e.target

theorem follows_removeDirectory (h : Holds s p.geometry) (name : String) :
    Follows (Shaped s) Error.defect (removeDirectory p name) (p.removeDirectory name)
      (fun _ => True) := by
  apply (follows_readDirectory h _).bind
  intro d _
  apply (follows_lookup s d name).bind
  intro e he
  apply (follows_readDirectory h _).bind
  intro sub _
  refine .ite (fun _ => .throw (by simp)) fun _ => ?_
  refine .step (fun dev _ => remove_eq he dev) ?_
  exact (follows_writeBlock h _ _).bind fun _ _ => follows_release s _

/-! ## Files -/

/-- The number of blocks that the contents of a file need. -/
def blockCount? (i : Inode) (blockSize : Nat) : Option Nat :=
  blocksFor? blockSize i.fileSize.toNat

def populated? (i : Inode) (blockSize : Nat) : Option (List BlockNumber) :=
  (blockCount? i blockSize).map fun n => (i.dataBlocks.take n).takeWhile (· != noBlock)

def fileBlocks (g : Geometry) (block : BlockNumber) (i : Inode) :
    Except Error (List BlockNumber) :=
  match populated? i g.blockSize, blockCount? i g.blockSize with
  | some held, some needed =>
    if held.length = needed then .ok held
    else .error (.io (.missingBlocks block held.length i.fileSize))
  | _, _ => .error .defect

theorem blockCount?_eq (i : Inode) (blockSize : Nat) :
    blockCount? i blockSize = i.blockCount? blockSize := by
  have hlt := i.fileSize.toNat_lt
  have hlimits := limits_eq
  exact blocksFor?_eq (by omega) blockSize

theorem populated?_eq (i : Inode) (blockSize : Nat) :
    populated? i blockSize = i.populated? blockSize := by
  unfold populated? Inode.populated?
  rw [blockCount?_eq]

theorem fileBlocks_eq (g : Geometry) (b : BlockNumber) (i : Inode) :
    fileBlocks g b i = g.fileBlocks b i := by
  unfold fileBlocks Geometry.fileBlocks
  rewrite [blockCount?_eq, populated?_eq]
  rfl

/-- The blocks of a file are trusted if they are as many as its size needs. -/
theorem exists_fileBlocks {g : Geometry} (hg : 0 < g.blockSize) (b : BlockNumber) (i : Inode) :
    ∃ held : List BlockNumber, g.fileBlocks b i =
      if held.length = g.blocksFor i.fileSize.toNat then .ok held
      else .error (.io (.missingBlocks b held.length i.fileSize)) := by
  have hcount : i.blockCount? g.blockSize = some (g.blocksFor i.fileSize.toNat) :=
    g.blocksFor?_eq hg _
  unfold Geometry.fileBlocks Inode.populated?
  rw [hcount]
  exact ⟨_, rfl⟩

theorem follows_fileBlocks {g : Geometry} (h : Holds s g) (b : BlockNumber) (i : Inode) :
    Follows (Shaped s) Error.defect (ofExcept (fileBlocks g b i)) (ofExcept (g.fileBlocks b i))
      (fun bs : List BlockNumber => bs.length = g.blocksFor i.fileSize.toNat) := by
  obtain ⟨held, hblocks⟩ := exists_fileBlocks h.blockSize_pos b i
  rw [fileBlocks_eq, hblocks]
  by_cases hlen : held.length = g.blocksFor i.fileSize.toNat
  · rw [if_pos hlen]
    exact .pure hlen
  · rw [if_neg hlen]
    exact .throw (by simp)

def stat (p : Place) (name : String) : Action Stats := do
  let d ← readDirectory p.dir
  let e ← lookup d name
  match ← readBlock e.target with
  | .directory _ => return ⟨name, e.target, true, 0, 0⟩
  | .file i =>
    let blocks ← expect (blockCount? i p.geometry.blockSize)
    return ⟨name, e.target, false, i.fileSize.toNat, blocks⟩

theorem follows_stat (h : Holds s p.geometry) (name : String) :
    Follows (Shaped s) Error.defect (stat p name) (p.stat name) (fun _ => True) := by
  apply (follows_readDirectory h _).bind
  intro d _
  apply (follows_lookup s d name).bind
  intro e _
  apply (follows_readBlock h _).bind
  intro block _
  cases block with
  | directory d => exact .pure trivial
  | file i =>
    have hcount : i.blockCount? p.geometry.blockSize = some _ :=
      p.geometry.blocksFor?_eq h.blockSize_pos _
    simp only [blockCount?_eq]
    exact (follows_expect s hcount).bind fun _ _ => .pure trivial

def removeFile (p : Place) (name : String) : Action Unit := do
  let d ← readDirectory p.dir
  let e ← lookup d name
  let i ← readInode e.target
  let blocks ← expect (populated? i p.geometry.blockSize)
  let rest ← remove d name
  writeBlock p.dir (.directory rest)
  releaseEach blocks
  release e.target

theorem follows_removeFile (h : Holds s p.geometry) (name : String) :
    Follows (Shaped s) Error.defect (removeFile p name) (p.removeFile name) (fun _ => True) := by
  apply (follows_readDirectory h _).bind
  intro d _
  apply (follows_lookup s d name).bind
  intro e he
  apply (follows_readInode h _).bind
  intro i _
  have hcount : i.blockCount? p.geometry.blockSize = some _ :=
    p.geometry.blocksFor?_eq h.blockSize_pos _
  have hheld : i.populated? p.geometry.blockSize = some _ := congrArg (Option.map _) hcount
  rw [populated?_eq]
  apply (follows_expect s hheld).bind
  intro blocks _
  refine .step (fun dev _ => remove_eq he dev) ?_
  apply (follows_writeBlock h _ _).bind
  intro _ _
  exact (follows_releaseEach s blocks).bind fun _ _ => follows_release s _

/-- The partly filled last block of a file of whose bytes it holds `tailLength`. -/
def tail? (tailLength firstSlot : Nat) (blocks : List BlockNumber) :
    Action (Option BlockNumber) := do
  if tailLength = 0 then return none
  else
    let last ← expect blocks[firstSlot]?
    return some last

/-- A file that ends inside a block has a block at the position of its end. -/
theorem follows_tail? {g : Geometry} (h : Holds s g) {size : Nat} {blocks : List BlockNumber}
    (hlen : blocks.length = g.blocksFor size) :
    Follows (Shaped s) Error.defect (tail? (size % g.blockSize) (size / g.blockSize) blocks)
      (Place.tail? g.blockSize size blocks) (fun _ => True) := by
  refine .ite (fun _ => .pure trivial) fun hpart => ?_
  have hpos := h.blockSize_pos
  have hslot : size / g.blockSize < blocks.length := by
    have hdiv := Nat.div_add_mod size g.blockSize
    have hcover := Geometry.le_blocksFor_mul hpos size
    rw [hlen]
    apply Nat.lt_of_mul_lt_mul_left (a := g.blockSize)
    rw [Nat.mul_comm g.blockSize (g.blocksFor size)]
    omega
  exact (follows_expect s (List.getElem?_eq_getElem hslot)).bind fun _ _ => .pure trivial

def tailContents (tailLength : Nat) (tail : Option BlockNumber) : Action Bytes := do
  match tail with
  | none => return []
  | some last =>
    let contents ← readBytes last
    expect (Bytes.first? tailLength contents)

theorem follows_tailContents {g : Geometry} (h : Holds s g) (size : Nat)
    (tail : Option BlockNumber) :
    Follows (Shaped s) Error.defect (tailContents (size % g.blockSize) tail)
      (Place.tailContents g.blockSize size tail)
      (fun kept => kept.length ≤ size % g.blockSize) := by
  cases tail with
  | none => exact .pure (Nat.zero_le _)
  | some last =>
    apply (follows_readBytes h last).bind
    intro contents hlen
    have hmod := Nat.mod_lt size h.blockSize_pos
    have hroom := h.blockSize_le
    have hfirst : Bytes.first? (size % g.blockSize) contents = some _ := if_pos (by omega)
    refine (follows_expect s hfirst).imp fun kept hkept => ?_
    rw [hkept]
    exact List.length_take_le ..

def extend (p : Place) (block : BlockNumber) (kept : List BlockNumber) (contents : Bytes)
    (size : Nat) : Action Unit := do
  let count ← expect (blocksFor? p.geometry.blockSize contents.length)
  atomically do
    storeEach (Bytes.pieces p.geometry.blockSize count contents)
    let new ← Transaction.blocks
    Transaction.lift do
      let size ← expect (word? size)
      writeBlock block (.file ⟨size, kept ++ new⟩)

theorem follows_extend (h : Holds s p.geometry) (block : BlockNumber) (kept : List BlockNumber)
    {contents : Bytes} (hcontents : contents.length < sizeLimit) {size : Nat}
    (hsize : size < Geometry.inodeSizeLimit) :
    Follows (Shaped s) Error.defect (extend p block kept contents size)
      (p.extend block kept contents size) (fun _ => True) := by
  unfold extend Place.extend Geometry.blocksFor?
  have hword : word? size = some (UInt32.ofNat size) := word?_of_lt hsize
  have hcount := p.geometry.blocksFor?_eq h.blockSize_pos contents.length
  rw [blocksFor?_eq hcontents, hword, if_pos hsize]
  apply (follows_expect s hcount).bind
  intro count _
  apply follows_atomically
  apply (follows_storeEach h _).bind
  intro _ _
  refine .bind (P := fun _ => True) (.of_ends fun _ ht => ⟨ht, trivial⟩) fun new _ => ?_
  exact follows_lift ((follows_expect s rfl).bind fun _ _ => follows_writeBlock h block _)

def append (p : Place) (name : String) (data : Bytes) : Action Unit := do
  let d ← readDirectory p.dir
  let e ← lookup d name
  let i ← readInode e.target
  match sum? i.fileSize.toNat data.length with
  | none => throw .fileTooLarge
  | some newSize =>
    if p.geometry.maxFileSize < newSize then throw .fileTooLarge
    if data = [] then return
    let blocks ← ofExcept (fileBlocks p.geometry e.target i)
    let tailLength ← expect (remainder? i.fileSize.toNat p.geometry.blockSize)
    let firstSlot ← expect (quotient? i.fileSize.toNat p.geometry.blockSize)
    let total ← expect (sum? tailLength data.length)
    let _ ← expect (capacity? total)
    let tail ← tail? tailLength firstSlot blocks
    let kept ← tailContents tailLength tail
    extend p e.target (blocks.take firstSlot) (kept ++ data) newSize
    match tail with
    | none => return
    | some last => release last

theorem follows_append (h : Holds s p.geometry) (name : String) (data : Bytes) :
    Follows (Shaped s) Error.defect (append p name data) (p.append name data)
      (fun _ => True) := by
  apply (follows_readDirectory h _).bind
  intro d _
  apply (follows_lookup s d name).bind
  intro e _
  apply (follows_readInode h _).bind
  intro i _
  have hinode : i.fileSize.toNat < 2 ^ 32 := i.fileSize.toNat_lt
  have hlimits := limits_eq
  obtain ⟨-, -, -, -, -, hmax⟩ := (Geometry.validate_eq_ok_iff p.geometry).1 h.valid
  -- A sum that is no word is reported like one above the limit.
  by_cases hover : sizeLimit ≤ i.fileSize.toNat + data.length
  · rw [if_pos (Or.inl hover), sum?, if_neg (by omega)]
    exact .throw (by simp)
  rw [sum?_of_lt (by omega)]
  by_cases hlarge : p.geometry.maxFileSize < i.fileSize.toNat + data.length
  · rw [if_pos (Or.inr hlarge)]
    simp only [if_pos hlarge]
    exact .throw (by simp)
  rw [if_neg (by omega)]
  simp only [if_neg hlarge]
  refine .ite (fun _ => .pure trivial) fun _ => ?_
  apply (follows_fileBlocks h e.target i).bind
  intro blocks hblocks
  -- From here on both lengths are below the limit for a file, so no sum of them overflows.
  have htail : i.fileSize.toNat % p.geometry.blockSize ≤ i.fileSize.toNat := Nat.mod_le ..
  have htotal : i.fileSize.toNat % p.geometry.blockSize + data.length < addressLimit := by omega
  rw [remainder?_of_pos h.blockSize_pos, quotient?_of_pos h.blockSize_pos]
  refine .step (fun _ _ => rfl) (.step (fun _ _ => rfl) ?_)
  rw [sum?_of_lt (by omega)]
  refine .step (fun _ _ => rfl) ?_
  rw [capacity?_of_lt htotal]
  refine .step (fun _ _ => rfl) ?_
  apply (follows_tail? h hblocks).bind
  intro tail _
  apply (follows_tailContents h _ tail).bind
  intro kept hkept
  have hcontents : (kept ++ data).length < sizeLimit := by
    rw [List.length_append]
    omega
  apply (follows_extend h _ _ hcontents (by omega)).bind
  intro _ _
  cases tail with
  | none => exact .pure trivial
  | some last => exact follows_release s last

/-- The bytes from number `done` up to `length` of the blocks of a file. -/
def readEach (blockSize length : Nat) : (done : Nat) → List BlockNumber → Action Bytes
  | _, [] => return []
  | done, b :: bs => do
    let contents ← readBytes b
    let remaining ← expect (difference? length done)
    let piece ← expect (Bytes.first? (min remaining blockSize) contents)
    let done ← expect (sum? done piece.length)
    let rest ← readEach blockSize length done bs
    return piece ++ rest

theorem follows_readEach {g : Geometry} (h : Holds s g) {length done : Nat}
    (hdone : done ≤ length) (hlength : length < sizeLimit) (bs : List BlockNumber) :
    Follows (Shaped s) Error.defect (readEach g.blockSize length done bs)
      (Place.readEach g.blockSize (length - done) bs) (fun _ => True) := by
  induction bs generalizing done with
  | nil => exact .pure trivial
  | cons b bs ih =>
    apply (follows_readBytes h b).bind
    intro contents hcontents
    rw [difference?_of_le hdone]
    refine .step (fun _ _ => rfl) ?_
    have hroom := h.blockSize_le
    have hfirst : Bytes.first? (min (length - done) g.blockSize) contents = some _ :=
      if_pos (by omega)
    apply (follows_expect s hfirst).bind
    intro piece hpiece
    have hle : piece.length ≤ length - done := by
      rw [hpiece, List.length_take]
      omega
    rw [sum?_of_lt (by omega), Nat.sub_sub]
    refine .step (fun _ _ => rfl) ?_
    exact (ih (by omega)).bind fun rest _ => .pure trivial

def read (p : Place) (name : String) (max : Nat) : Action Bytes := do
  let d ← readDirectory p.dir
  let e ← lookup d name
  let i ← readInode e.target
  let length ← expect (capacity? (min i.fileSize.toNat max))
  let blocks ← ofExcept (fileBlocks p.geometry e.target i)
  let count ← expect (blocksFor? p.geometry.blockSize length)
  readEach p.geometry.blockSize length 0 (blocks.take count)

theorem follows_read (h : Holds s p.geometry) (name : String) (max : Nat) :
    Follows (Shaped s) Error.defect (read p name max) (p.read name max) (fun _ => True) := by
  apply (follows_readDirectory h _).bind
  intro d _
  apply (follows_lookup s d name).bind
  intro e _
  apply (follows_readInode h _).bind
  intro i _
  have hinode : i.fileSize.toNat < 2 ^ 32 := i.fileSize.toNat_lt
  have hlimits := limits_eq
  have hlength : min i.fileSize.toNat max < addressLimit := by omega
  rw [capacity?_of_lt hlength]
  refine .step (fun _ _ => rfl) ?_
  apply (follows_fileBlocks h e.target i).bind
  intro blocks _
  rw [blocksFor?_eq (by omega)]
  have hcount := p.geometry.blocksFor?_eq h.blockSize_pos (min i.fileSize.toNat max)
  apply (follows_expect s hcount).bind
  intro count _
  exact follows_readEach h (Nat.zero_le _) (by omega) _

/-- What an operation does, as `Operation.perform` says it. -/
def perform (p : Place) : Operation → Action (Answer × Place)
  | .enter name => return (.done, ← enter p name)
  | .list => return (.listing (← list p), p)
  | .stat name => return (.stats (← stat p name), p)
  | .makeDirectory name => do createEntry p name (.directory .empty); return (.done, p)
  | .removeDirectory name => do removeDirectory p name; return (.done, p)
  | .createFile name => do createEntry p name (.file .empty); return (.done, p)
  | .removeFile name => do removeFile p name; return (.done, p)
  | .append name data => do append p name data; return (.done, p)
  | .read name max => return (.contents (← read p name max), p)

/-- On a store that serves the limits every operation does what it does with numbers, without a
step that has no value. -/
theorem follows_perform (h : Holds s p.geometry) (op : Operation) :
    Follows (Shaped s) Error.defect (perform p op) (op.perform p)
      (fun r => r.2.geometry = p.geometry) := by
  cases op with
  | enter name => exact (follows_enter h name).bind fun _ hp => .pure hp
  | list => exact (follows_list h).bind fun _ _ => .pure rfl
  | stat name => exact (follows_stat h name).bind fun _ _ => .pure rfl
  | makeDirectory name => exact (follows_createEntry h name _).bind fun _ _ => .pure rfl
  | removeDirectory name => exact (follows_removeDirectory h name).bind fun _ _ => .pure rfl
  | createFile name => exact (follows_createEntry h name _).bind fun _ _ => .pure rfl
  | removeFile name => exact (follows_removeFile h name).bind fun _ _ => .pure rfl
  | append name data => exact (follows_append h name data).bind fun _ _ => .pure rfl
  | read name max => exact (follows_read h name max).bind fun _ _ => .pure rfl

end

end Machine
end BlockFS
