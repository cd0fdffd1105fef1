/-
The root of a filesystem stays a directory, whatever else is wrong with it.

An operation writes blocks in three places: it fills blocks that it has just occupied, which the
root never is; it writes a directory where it works; and it writes the inode of a file where it
has read an inode before.  None of these puts anything but a directory into the root.  Nothing
is asked of the rest of the filesystem: entries may lead anywhere, and blocks may be shared.
-/
import BlockFS.Proofs.Calls
import BlockFS.Proofs.Canonical
import BlockFS.Proofs.Invariants
import BlockFS.Proofs.Layout
import BlockFS.Proofs.Programs
import BlockFS.Proofs.Stores.Reopening

namespace BlockFS

/-! ## Stores with a root -/

/-- A block that is short enough to be written has nothing in it that could not be counted. -/
theorem Block.countable_of_encodedLength_lt {b : Block} (h : b.encodedLength < 2 ^ 64) :
    b.Countable := by
  cases b with
  | directory d =>
    have hsum : ∀ es : List Entry,
        es.length ≤ es.foldr (fun e n => entryLength e.name.utf8ByteSize + n) 0 ∧
        ∀ e ∈ es, e.name.utf8ByteSize ≤
          es.foldr (fun e n => entryLength e.name.utf8ByteSize + n) 0 := by
      intro es
      induction es with
      | nil => exact ⟨Nat.le_refl 0, fun e he => absurd he List.not_mem_nil⟩
      | cons e es ih =>
        simp only [List.length_cons, List.foldr_cons, entryLength, List.forall_mem_cons]
        refine ⟨by simp only [entryLength] at ih; omega, by omega, fun e he => ?_⟩
        have hle := ih.2 e he
        simp only [entryLength] at hle
        omega
    obtain ⟨hcount, hnames⟩ := hsum d.entries
    simp only [encodedLength] at h
    refine ⟨Nat.lt_of_le_of_lt hcount (by omega), fun e he => ?_⟩
    exact Nat.lt_of_le_of_lt (hnames e he) (by omega)
  | file i =>
    simp only [encodedLength] at h
    show i.dataBlocks.length < 2 ^ 64
    omega

namespace Store

variable {s t : Store} {b : BlockNumber} {contents : Bytes}

/-- A store in an image, with blocks long enough for some limits, whose root is a directory. -/
structure Rooted (s : Store) (g : Geometry) : Prop extends s.OnDisk where
  serves : s.Serves g
  root : ∃ dir, s.metadata? rootBlock = some (.directory dir)

namespace Rooted

variable {g : Geometry}

theorem of_bytes (h : s.Rooted g) (hshape : s.SameShape t)
    (hbytes : t.bytes rootBlock = s.bytes rootBlock) : t.Rooted g :=
  ⟨hshape.onDisk h.toOnDisk, h.serves.of_blockLen (hshape.wellFormed h.toWellFormed) hshape.blockLen,
    metadata?_congr hbytes ▸ h.root⟩

theorem write (h : s.Rooted g) (hw : s.write b contents = .ok t)
    (hroot : b = rootBlock → ∃ dir, Block.decode contents = .ok (.directory dir)) :
    t.Rooted g := by
  have hshape := h.sameShape_write hw
  by_cases hb : b = rootBlock
  · obtain ⟨dir, hdir⟩ := hroot hb
    subst hb
    refine ⟨hshape.onDisk h.toOnDisk,
      h.serves.of_blockLen (hshape.wellFormed h.toWellFormed) hshape.blockLen, dir,
      metadata?_eq_some_iff.2 ?_⟩
    rw [bytes_of_read (read_of_write hw)]
    exact hdir
  · have hold := h.toWellFormed.read s.inUse_rootBlock
    exact h.of_bytes hshape (bytes_of_read (read_of_write_of_ne hw (Ne.symm hb) hold))

theorem allocate (h : s.Rooted g) (ha : s.allocate = some (b, t)) :
    t.Rooted g ∧ b ≠ rootBlock := by
  have hext := h.toWellFormed.allocate ha
  refine ⟨h.of_bytes (sameShape_allocate ha) (hext.bytes _ s.inUse_rootBlock), fun hb => ?_⟩
  exact hext.fresh b (List.mem_singleton_self b) (hb ▸ s.inUse_rootBlock)

theorem release (h : s.Rooted g) (hr : s.release b = .ok t) : t.Rooted g := by
  have hshape := sameShape_release hr
  obtain ⟨m, hm, rfl⟩ := release_eq_ok hr
  obtain ⟨-, -, hsize, -⟩ := Bitmap.release_eq_ok hm
  refine h.of_bytes hshape ?_
  unfold bytes Store.read position blockCount
  rw [hsize]

end Rooted

end Store

/-! ## Calls -/

namespace Device

/-- The store of the device has a root. -/
def Rooted (g : Geometry) (d : Device) : Prop := d.store.Rooted g

variable {α : Type} {g : Geometry} {b : BlockNumber}

theorem Reads.rooted {act : Action α} (h : Reads act) :
    Maintains (Rooted g) act fun _ => True :=
  h.maintains (I := (Store.Rooted · g))

theorem rooted_writeBytes {contents : Bytes}
    (hroot : b = rootBlock → ∃ dir, Block.decode contents = .ok (.directory dir)) :
    Maintains (Rooted g) (writeBytes b contents) fun _ => True :=
  maintains_writeBytes (I := (Store.Rooted · g)) fun _ _ hs hw => hs.write hw hroot

theorem rooted_allocate : Maintains (Rooted g) allocate (· ≠ rootBlock) :=
  maintains_allocate (I := (Store.Rooted · g)) fun _ _ _ hs ha => hs.allocate ha

theorem rooted_release (b : BlockNumber) : Maintains (Rooted g) (release b) fun _ => True :=
  maintains_release (I := (Store.Rooted · g)) fun _ _ hs hr => hs.release hr

theorem maintains_releaseEach (bs : List BlockNumber) :
    Maintains (Rooted g) (releaseEach bs) fun _ => True := by
  induction bs with
  | nil => exact .pure trivial
  | cons b bs ih => exact .bind (rooted_release b) fun _ _ => ih

/-- A metadata block may be written anywhere but into the root, and a directory there too. -/
theorem maintains_writeBlock {block : Block} (hroot : b = rootBlock → ∃ dir, block = .directory dir) :
    Maintains (Rooted g) (writeBlock b block) fun _ => True := by
  intro d hd
  rw [writeBlock_eq]
  cases henc : block.encode d.store.blockLen with
  | error fault => exact hd
  | ok contents =>
    refine rooted_writeBytes (fun hb => ?_) d hd
    obtain ⟨dir, rfl⟩ := hroot hb
    have hlen := Block.exists_encode_iff.1 ⟨contents, henc⟩
    have hshort : d.store.blockLen < 2 ^ 32 := Store.OnDisk.blockLen_lt (Store.Rooted.toOnDisk hd)
    have hcount := Block.countable_of_encodedLength_lt
      (Nat.lt_of_le_of_lt hlen (Nat.lt_trans hshort (by decide)))
    exact ⟨dir, (Block.decode_of_encode hcount henc).2⟩

/-- Where an inode is read, the root is not. -/
theorem maintains_readInode (b : BlockNumber) :
    Maintains (Rooted g) (readInode b) fun _ => b ≠ rootBlock := by
  by_cases hb : b = rootBlock
  case neg => exact (reads_readInode b).rooted.imp fun _ _ => hb
  case pos =>
  subst hb
  intro d hd
  obtain ⟨dir, hdir⟩ := Store.Rooted.root hd
  have hs : d.store.WellFormed := (Store.Rooted.toOnDisk hd).toWellFormed
  refine (ends_readBlock hs d.store.inUse_rootBlock).bind ?_ ?_
  · intro e d' herr
    show d'.store.Rooted g
    rw [herr.2.store]
    exact hd
  · intro block d' hres
    obtain ⟨hblock, hd'⟩ := hres
    rw [hdir] at hblock
    cases hblock
    show d'.store.Rooted g
    rw [hd'.store]
    exact hd

end Device

namespace Transaction

variable {g : Geometry}

theorem maintains_storeEach (pieces : List Bytes) :
    Maintains (On (Device.Rooted g)) (storeEach pieces) fun _ => True := by
  induction pieces with
  | nil => exact .pure trivial
  | cons piece pieces ih =>
    refine .bind (maintains_allocate Device.rooted_allocate) fun b hb => ?_
    refine .bind (maintains_lift Device.Reads.blockLen.rooted) fun n _ => ?_
    exact .bind (maintains_lift (Device.rooted_writeBytes fun h => absurd h hb)) fun _ _ => ih

end Transaction

/-! ## Operations -/

namespace Place

open Device (Rooted maintains_writeBlock maintains_releaseEach maintains_readInode
  reads_readDirectory rooted_release rooted_allocate)

variable {g : Geometry}

theorem maintains_createEntry (p : Place) (name : String) (contents : Block) :
    Maintains (Rooted g) (p.createEntry name contents) fun _ => True := by
  unfold createEntry
  refine .ite (fun _ => .throw _) fun _ => .bind (reads_readDirectory _).rooted fun dir _ => ?_
  refine .ite (fun _ => .throw _) fun _ => .ite (fun _ => .throw _) fun _ => ?_
  refine Transaction.maintains_atomically rooted_release ?_
  refine .bind (Transaction.maintains_allocate rooted_allocate) fun b hb => ?_
  refine .bind (Transaction.maintains_lift (maintains_writeBlock fun h => absurd h hb)) fun _ _ => ?_
  exact Transaction.maintains_lift (maintains_writeBlock fun _ => ⟨_, rfl⟩)

theorem maintains_removeDirectory (p : Place) (name : String) :
    Maintains (Rooted g) (p.removeDirectory name) fun _ => True := by
  unfold removeDirectory
  refine .bind (reads_readDirectory _).rooted fun dir _ => ?_
  refine .bind (reads_lookup dir name).rooted fun e _ => ?_
  refine .bind (reads_readDirectory _).rooted fun sub _ => ?_
  refine .ite (fun _ => .throw _) fun _ => ?_
  exact .bind (maintains_writeBlock fun _ => ⟨_, rfl⟩) fun _ _ => rooted_release _

theorem maintains_removeFile (p : Place) (name : String) :
    Maintains (Rooted g) (p.removeFile name) fun _ => True := by
  unfold removeFile
  refine .bind (reads_readDirectory _).rooted fun dir _ => ?_
  refine .bind (reads_lookup dir name).rooted fun e _ => ?_
  refine .bind (maintains_readInode _) fun i _ => ?_
  refine .bind (reads_expect _).rooted fun blocks _ => ?_
  refine .bind (maintains_writeBlock fun _ => ⟨_, rfl⟩) fun _ _ => ?_
  exact .bind (maintains_releaseEach blocks) fun _ _ => rooted_release _

theorem maintains_extend (p : Place) {block : BlockNumber} (hblock : block ≠ rootBlock)
    (kept : List BlockNumber) (contents : Bytes) (size : Nat) :
    Maintains (Rooted g) (p.extend block kept contents size) fun _ => True := by
  unfold extend
  refine .bind (reads_expect _).rooted fun count _ => ?_
  refine Transaction.maintains_atomically rooted_release ?_
  refine .bind (Transaction.maintains_storeEach _) fun _ _ => ?_
  refine .bind (P := fun _ => True) (fun t ht => ⟨ht, trivial⟩) fun new _ => ?_
  refine Transaction.maintains_lift ?_
  refine .bind (reads_expect _).rooted fun size _ => ?_
  exact maintains_writeBlock fun h => absurd h hblock

theorem maintains_append (p : Place) (name : String) (data : Bytes) :
    Maintains (Rooted g) (p.append name data) fun _ => True := by
  unfold append
  refine .bind (reads_readDirectory _).rooted fun dir _ => ?_
  refine .bind (reads_lookup dir name).rooted fun e _ => ?_
  refine .bind (maintains_readInode _) fun i hroot => ?_
  refine .ite (fun _ => .throw _) fun _ => .ite (fun _ => .pure trivial) fun _ => ?_
  refine .bind (Device.Reads.ofExcept _).rooted fun blocks _ => ?_
  refine .bind (reads_tail? _ _ _).rooted fun tail _ => ?_
  refine .bind (reads_tailContents _ _ _).rooted fun kept _ => ?_
  refine .bind (p.maintains_extend hroot _ _ _) fun _ _ => ?_
  cases tail with
  | none => exact .pure trivial
  | some last => exact rooted_release last

/-- Entering another directory does not change the limits. -/
theorem maintains_enter (p : Place) (name : Option String) :
    Maintains (Rooted g) (p.enter name) fun p' => p'.geometry = p.geometry := by
  cases name with
  | none => exact .pure rfl
  | some name =>
    refine .bind (reads_readDirectory _).rooted fun dir _ => ?_
    refine .bind (reads_lookup dir name).rooted fun e _ => ?_
    exact .bind (reads_readDirectory _).rooted fun _ _ => .pure rfl

end Place

/-- Whatever an operation does, the root stays a directory, and the limits are the same. -/
theorem Operation.maintains_perform {g : Geometry} (p : Place) (op : Operation) :
    Maintains (Device.Rooted g) (op.perform p) fun x => x.2.geometry = p.geometry := by
  cases op with
  | enter name => exact .bind (p.maintains_enter name) fun _ h => .pure h
  | list => exact .bind p.reads_list.rooted fun _ _ => .pure rfl
  | stat name => exact .bind (p.reads_stat name).rooted fun _ _ => .pure rfl
  | makeDirectory name => exact .bind (p.maintains_createEntry name _) fun _ _ => .pure rfl
  | removeDirectory name => exact .bind (p.maintains_removeDirectory name) fun _ _ => .pure rfl
  | createFile name => exact .bind (p.maintains_createEntry name _) fun _ _ => .pure rfl
  | removeFile name => exact .bind (p.maintains_removeFile name) fun _ _ => .pure rfl
  | append name data => exact .bind (p.maintains_append name data) fun _ _ => .pure rfl
  | read name max => exact .bind (p.reads_read name max).rooted fun _ _ => .pure rfl

end BlockFS
