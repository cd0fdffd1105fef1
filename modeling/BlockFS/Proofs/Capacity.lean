/-
How long blocks have to be for what the limits allow.

The longest directory has as many entries as there may be, under names as long as they may be;
the longest inode has as many slots.  Nothing shorter than these two holds everything
(`blockLen_isLeast`), and nothing that a session builds is longer.
-/
import BlockFS.Proofs.Canonical
import BlockFS.Proofs.Sessions
import Mathlib.Order.Bounds.Basic

namespace BlockFS

namespace Geometry

variable {g : Geometry} {n : Nat}

/-- Blocks of so many bytes hold a data block and all metadata within the limits.  Names may stand
in a directory twice, and the size that an inode states may be any. -/
structure Suffices (g : Geometry) (blockLen : Nat) : Prop where
  data : g.blockSize ≤ blockLen
  directory : ∀ d : Directory, d.size ≤ g.maxDirEntries →
    (∀ e ∈ d.entries, e.name.utf8ByteSize ≤ g.maxNameLength) →
    ∃ contents, (Block.directory d).encode blockLen = .ok contents
  inode : ∀ i : Inode, i.dataBlocks.length ≤ g.maxDataBlocks →
    ∃ contents, (Block.file i).encode blockLen = .ok contents

/-! ## The longest metadata -/

def longestName (g : Geometry) : String := String.ofList (List.replicate g.maxNameLength 'x')

def longestDirectory (g : Geometry) : Directory :=
  ⟨List.replicate g.maxDirEntries ⟨g.longestName, noBlock⟩⟩

def longestInode (g : Geometry) : Inode := ⟨0, List.replicate g.maxDataBlocks noBlock⟩

theorem utf8ByteSize_longestName (g : Geometry) : g.longestName.utf8ByteSize = g.maxNameLength := by
  unfold longestName
  induction g.maxNameLength with
  | zero => rfl
  | succ n ih =>
    have hcons : String.ofList (List.replicate (n + 1) 'x') =
        "x" ++ String.ofList (List.replicate n 'x') := by
      rw [List.replicate_succ, String.ofList_cons]
      rfl
    rw [hcons, String.utf8ByteSize_append, ih, Nat.add_comm]
    rfl

theorem encodedLength_longestDirectory (g : Geometry) :
    (Block.directory g.longestDirectory).encodedLength = g.maxDirectoryLength := by
  have hsum : ∀ n, (List.replicate n (⟨g.longestName, noBlock⟩ : Entry)).foldr
      (fun e n => Block.entryLength e.name.utf8ByteSize + n) 0 =
        n * Block.entryLength g.maxNameLength := by
    intro n
    induction n with
    | zero => rw [Nat.zero_mul]; rfl
    | succ n ih =>
      rw [List.replicate_succ, List.foldr_cons, ih, utf8ByteSize_longestName, Nat.succ_mul,
        Nat.add_comm]
  show 1 + 8 + _ = _
  rw [longestDirectory, hsum]
  rfl

theorem encodedLength_longestInode (g : Geometry) :
    (Block.file g.longestInode).encodedLength = g.maxInodeLength := by
  show 1 + 4 + 8 + 4 * (List.replicate g.maxDataBlocks noBlock).length = _
  rw [List.length_replicate]
  rfl

/-- Blocks that hold the longest metadata hold all of them. -/
theorem suffices_iff : g.Suffices n ↔ g.blockLen ≤ n := by
  constructor
  · intro h
    have hdirectory := Block.exists_encode_iff.1 (h.directory g.longestDirectory
      (by simp [longestDirectory, Directory.size]) fun e he => by
        rw [List.eq_of_mem_replicate he, utf8ByteSize_longestName])
    have hinode := Block.exists_encode_iff.1 (h.inode g.longestInode (by simp [longestInode]))
    rw [encodedLength_longestDirectory] at hdirectory
    rw [encodedLength_longestInode] at hinode
    exact Nat.max_le.2 ⟨h.data, Nat.max_le.2 ⟨hdirectory, hinode⟩⟩
  · intro h
    obtain ⟨hdata, hmetadata⟩ := Nat.max_le.1 h
    obtain ⟨hdirectory, hinode⟩ := Nat.max_le.1 hmetadata
    refine ⟨hdata, fun d hsize hnames => ?_, fun i hslots => ?_⟩
    · refine Block.exists_encode_iff.2 (Nat.le_trans ?_ hdirectory)
      exact Nat.add_le_add_left (Nat.le_trans (sum_entryLength_le hnames)
        (Nat.mul_le_mul_right _ hsize)) _
    · refine Block.exists_encode_iff.2 (Nat.le_trans ?_ hinode)
      exact Nat.add_le_add_left (Nat.mul_le_mul_left 4 hslots) _

end Geometry

/-! ## What sessions build -/

namespace Session

variable {u : Session} {z : Spot}

/-- No operation fails because what it writes is too long for a block. -/
theorem At.run_ne_oversize (h : u.At z) {op : Operation} {e : Error}
    (hrun : (u.run op).1 = .error e) (fault : Block.Oversize) : e ≠ .io (.oversize fault) := by
  have hinterrupts : ∀ {access : Access}, u.device.Interrupts access e →
      e ≠ .io (.oversize fault) := by
    intro access he heq
    obtain ⟨b, k, rfl, -⟩ := he
    cases heq
  rcases h.run_error hrun with ⟨-, hstep | he | he⟩ | ⟨-, he, -⟩
  · intro heq
    subst heq
    exact Cursor.step_ne_io hstep
  · exact hinterrupts he
  · exact hinterrupts he
  · exact hinterrupts he

theorem At.runAll_ne_oversize (h : u.At z) {ops : List Operation} {e : Error}
    (he : .error e ∈ (u.runAll ops).1) (fault : Block.Oversize) : e ≠ .io (.oversize fault) := by
  induction ops generalizing u z with
  | nil => exact absurd he List.not_mem_nil
  | cons op ops ih =>
    rcases List.mem_cons.1 he with he | he
    · exact h.run_ne_oversize he.symm fault
    · obtain ⟨z', hleads⟩ := h.exists_run op
      exact ih hleads.spot he

theorem At.encodedLength_le (h : u.At z) {b : BlockNumber} {block : Block}
    (hb : u.device.store.Reaches b) (hblock : u.device.store.metadata? b = some block) :
    block.encodedLength ≤ u.place.geometry.blockLen :=
  Geometry.encodedLength_le_of_admits (h.sound.consistent.admits b block hb hblock)

end Session

namespace Geometry

variable {g : Geometry}

/-- The size of a file fits the word that records it, and its blocks fit the inode. -/
theorem exists_blocksFor?_of_le (hv : g.validate = .ok ()) {size : Nat}
    (hsize : size ≤ g.maxFileSize) :
    ∃ count, g.blocksFor? size = some count ∧ count ≤ g.maxDataBlocks ∧
      (UInt32.ofNat size).toNat = size ∧
      ∀ blocks, (Inode.mk (UInt32.ofNat size) blocks).blockCount? g.blockSize = some count := by
  obtain ⟨hpos, -, -, -, hcapacity, hlimit⟩ := (validate_eq_ok_iff g).1 hv
  have hword : (UInt32.ofNat size).toNat = size :=
    UInt32.toNat_ofNat_of_lt' (Nat.lt_of_le_of_lt hsize hlimit)
  refine ⟨g.blocksFor size, blocksFor?_eq hpos size,
    (blocksFor_le_iff hpos).2 (Nat.le_trans hsize hcapacity), hword, fun blocks => ?_⟩
  show BlockFS.blocksFor? g.blockSize (UInt32.ofNat size).toNat = _
  rw [hword]
  exact blocksFor?_eq hpos size

/-- The length asked of blocks is the least one that holds all directories and inodes within the
limits.  A size within the limits is recorded without loss and calls for no more blocks than an
inode has slots.  So nothing that a session builds, whichever calls fail, is too long for its
block. -/
theorem blockLen_isLeast (hv : g.validate = .ok ()) (hm : g.fitsMemory = true) :
    ∃ blockLen, g.blockLen? = some blockLen ∧ IsLeast {n | g.Suffices n} blockLen ∧
      (∀ size ≤ g.maxFileSize, ∃ count, g.blocksFor? size = some count ∧
        count ≤ g.maxDataBlocks ∧ (UInt32.ofNat size).toNat = size ∧
        ∀ blocks, (Inode.mk (UInt32.ofNat size) blocks).blockCount? g.blockSize = some count) ∧
      ∀ u : Session, u.Intact → u.place.geometry = g → ∀ ops : List Operation,
        (∀ e, .error e ∈ (u.runAll ops).1 → ∀ fault, e ≠ .io (.oversize fault)) ∧
        ∀ b block, (u.runAll ops).2.device.store.Reaches b →
          (u.runAll ops).2.device.store.metadata? b = some block →
            block.encodedLength ≤ blockLen := by
  refine ⟨g.blockLen, if_pos hm, ⟨suffices_iff.2 (Nat.le_refl _), fun n hn => suffices_iff.1 hn⟩,
    fun size hsize => exists_blocksFor?_of_le hv hsize, ?_⟩
  intro u hu hplace ops
  obtain ⟨z, hz⟩ := hu.exists_spot
  obtain ⟨z', hleads⟩ := hz.exists_runAll ops
  refine ⟨fun e he fault => hz.runAll_ne_oversize he fault, fun b block hb hblock => ?_⟩
  rw [← hplace, ← hleads.geometry]
  exact hleads.spot.encodedLength_le hb hblock

/-- Three entries under names of eight bytes take the most room here. -/
theorem blockLen_isLeast_directory : ∃ (s : Store) (u : Session),
    Store.inMemory 69 4 = .ok s ∧ u.device.store.blockLen = s.blockLen ∧ u.Intact ∧
      u.place.geometry = ⟨4, 8, 3, 4, 16⟩ ∧ validate ⟨4, 8, 3, 4, 16⟩ = .ok () ∧
      fitsMemory ⟨4, 8, 3, 4, 16⟩ = true ∧ IsLeast {n | Suffices ⟨4, 8, 3, 4, 16⟩ n} 69 ∧
      ∀ fault, .error (.io (.oversize fault)) ∉ (u.runAll [.makeDirectory "abcdefgh"]).1 := by
  have hv : validate ⟨4, 8, 3, 4, 16⟩ = .ok () := by decide
  have hm : fitsMemory ⟨4, 8, 3, 4, 16⟩ = true := by decide
  obtain ⟨s, hs⟩ : ∃ s, Store.inMemory 69 4 = .ok s := ⟨_, rfl⟩
  have hserves : s.Serves ⟨4, 8, 3, 4, 16⟩ :=
    Store.serves_of_inMemory hs (by decide) hv hm (by decide)
  obtain ⟨d, hd⟩ := hserves.exists_format
  have hu := (Session.at_of_format hserves.wellFormed hd).intact
  obtain ⟨-, -, -, ⟨contents, hw⟩, -⟩ := Place.format_eq_ok hd hserves.wellFormed
  obtain ⟨blockLen, hlen, hleast, -, hsessions⟩ := blockLen_isLeast hv hm
  obtain rfl : 69 = blockLen := Option.some.inj hlen
  exact ⟨s, _, hs, hw.blockLen, hu, rfl, hv, hm, hleast,
    fun fault he => (hsessions _ hu rfl _).1 _ he fault rfl⟩

end Geometry
end BlockFS
