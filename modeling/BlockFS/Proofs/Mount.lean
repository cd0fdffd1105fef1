/-
What it takes to mount a filesystem.

Every way of making a store gives a well-formed one.  A store serves some limits if all that
they allow fits into its blocks.  That is what mounting checks, together with the root being
a directory.
-/
import BlockFS.Proofs.Calls
import Mathlib.Data.List.TakeWhile

namespace BlockFS

/-! ## Stores -/

namespace Store

theorem wellFormed_of_fresh {m : Bitmap} {medium : Medium} {blockLen blocks : Nat}
    (hm : Bitmap.fresh blocks = .ok m) (hcount : blocks < 2 ^ 32) :
    WellFormed ⟨medium, blockLen, m, Image.zeros (blockLen * blocks)⟩ := by
  have hsize : m.size = blocks := Bitmap.size_of_fresh hm
  refine ⟨hsize ▸ hcount, ?_⟩
  show m.size * blockLen ≤ blockLen * blocks
  rw [hsize, Nat.mul_comm]

theorem inMemory_eq_ok {s : Store} {blockLen blocks : Nat} (h : inMemory blockLen blocks = .ok s) :
    ∃ m, Bitmap.fresh blocks = .ok m ∧
      s = ⟨.memory, blockLen, m, Image.zeros (blockLen * blocks)⟩ := by
  unfold inMemory at h
  split at h
  · cases h
  split at h
  · cases h
  split at h
  · cases h
  next m hm =>
  cases h
  exact ⟨m, hm, rfl⟩

theorem blockLen_of_inMemory {s : Store} {blockLen blocks : Nat}
    (h : inMemory blockLen blocks = .ok s) : s.blockLen = blockLen := by
  obtain ⟨m, -, rfl⟩ := inMemory_eq_ok h
  rfl

theorem blockCount_of_inMemory {s : Store} {blockLen blocks : Nat}
    (h : inMemory blockLen blocks = .ok s) : s.blockCount = blocks := by
  obtain ⟨m, hm, rfl⟩ := inMemory_eq_ok h
  exact Bitmap.size_of_fresh hm

theorem wellFormed_of_inMemory {s : Store} {blockLen blocks : Nat}
    (h : inMemory blockLen blocks = .ok s) (hcount : blocks < 2 ^ 32) : s.WellFormed := by
  obtain ⟨m, hm, rfl⟩ := inMemory_eq_ok h
  exact wellFormed_of_fresh hm hcount

theorem sync_eq_ok {s t : Store} (h : s.sync = .ok t) :
    s.header.toBytes.length ≤ s.blockLen ∧
      t = ⟨s.medium, s.blockLen, s.bitmap, (s.image.write 0 s.header.toBytes).clear
        s.header.toBytes.length (s.blockLen - s.header.toBytes.length)⟩ := by
  unfold Store.sync at h
  dsimp only at h
  split at h
  · next hlen =>
    cases h
    exact ⟨hlen, rfl⟩
  · cases h

/-- A new image is all zeros but for its header. -/
theorem create_eq_ok {old : DiskFile} {s : Store} {blockLen blocks : Nat}
    (h : create old blockLen blocks = .ok s) :
    ∃ m, Bitmap.fresh blocks = .ok m ∧
      sync ⟨.disk, blockLen, m, Image.zeros (blockLen * blocks)⟩ = .ok s := by
  unfold create at h
  split at h
  · cases h
  dsimp only at h
  split at h
  · cases h
  split at h
  · cases h
  split at h
  · cases h
  split at h
  · cases h
  next m hm =>
  split at h
  · next hsync =>
    cases h
    exact ⟨m, hm, hsync⟩
  · cases h

/-- An image that is opened states its blocks at its start and its bitmap behind that. -/
theorem openImage_eq_ok {image : Image} {s : Store} (h : openImage image = .ok s) :
    ∃ (bs rest rest' : Bytes) (start full : Header) (m : Bitmap),
      Header.prefixReader bs = .ok (start, rest) ∧
        start.blockLen * start.blockCount ≤ image.size ∧
        Header.reader (headerBytes image start.blockLen) = .ok (full, rest') ∧
        Bitmap.ofBytes full.bitmap start.blockCount = .ok m ∧
        s = ⟨.disk, start.blockLen, m, image⟩ := by
  unfold openImage at h
  split at h
  · cases h
  split at h
  · cases h
  next hstart =>
  split at h
  · cases h
  split at h
  · cases h
  split at h
  · cases h
  split at h
  · cases h
  next hfits =>
  split at h
  · cases h
  next hfull =>
  split at h
  · cases h
  next m hm =>
  cases h
  exact ⟨_, _, _, _, _, m, hstart, Nat.le_of_not_lt hfits, hfull, hm, rfl⟩

end Store

/-! ## Limits -/

/-- The limits are usable, and the blocks of a store are long enough for them. -/
structure Store.Serves (s : Store) (g : Geometry) : Prop where
  wellFormed : s.WellFormed
  valid : g.validate = .ok ()
  fits : g.fitsMemory = true
  room : g.blockLen ≤ s.blockLen

/-- A store is taken up with some limits. -/
def Store.Mounts (s : Store) (g : Geometry) : Prop :=
  ∃ d, Place.mount g (Device.ofStore s) = .ok ⟨g, rootBlock⟩ d

namespace Geometry

theorem blocksFor?_eq {g : Geometry} (h : 0 < g.blockSize) (size : Nat) :
    BlockFS.blocksFor? g.blockSize size = some (g.blocksFor size) :=
  blocksFor?_of_pos h size

theorem blocksFor_mono (g : Geometry) {m n : Nat} (h : m ≤ n) : g.blocksFor m ≤ g.blocksFor n :=
  Nat.div_le_div_right (by omega)

theorem le_blocksFor_mul {g : Geometry} (h : 0 < g.blockSize) (size : Nat) :
    size ≤ g.blocksFor size * g.blockSize := by
  have hdiv := Nat.div_add_mod (size + (g.blockSize - 1)) g.blockSize
  have hmod := Nat.mod_lt (size + (g.blockSize - 1)) h
  have hcomm : g.blockSize * ((size + (g.blockSize - 1)) / g.blockSize)
      = (size + (g.blockSize - 1)) / g.blockSize * g.blockSize := Nat.mul_comm ..
  unfold blocksFor
  omega

theorem blocksFor_le_iff {g : Geometry} (h : 0 < g.blockSize) {size n : Nat} :
    g.blocksFor size ≤ n ↔ size ≤ n * g.blockSize := by
  constructor
  · intro hn
    exact Nat.le_trans (le_blocksFor_mul h size) (Nat.mul_le_mul_right _ hn)
  · intro hsize
    unfold blocksFor
    rw [Nat.div_le_iff_le_mul_add_pred h, Nat.mul_comm]
    omega

/-- The entries of a directory that keeps to the limits take up no more than as many of the
longest ones. -/
theorem sum_entryLength_le {es : List Entry} {limit : Nat}
    (h : ∀ e ∈ es, e.name.utf8ByteSize ≤ limit) :
    es.foldr (fun e n => Block.entryLength e.name.utf8ByteSize + n) 0
      ≤ es.length * Block.entryLength limit := by
  induction es with
  | nil => exact Nat.zero_le _
  | cons e es ih =>
    have hhead : Block.entryLength e.name.utf8ByteSize ≤ Block.entryLength limit := by
      have := h e List.mem_cons_self
      unfold Block.entryLength
      omega
    have htail := ih fun x hx => h x (List.mem_cons_of_mem e hx)
    rw [List.foldr_cons, List.length_cons, Nat.succ_mul]
    omega

theorem encodedLength_le_of_admits {g : Geometry} {block : Block} (h : g.Admits block) :
    block.encodedLength ≤ g.blockLen := by
  unfold blockLen
  cases block with
  | directory d =>
    obtain ⟨hsize, hnames, -⟩ := h
    have hsum := sum_entryLength_le hnames
    have hmul : d.entries.length * Block.entryLength g.maxNameLength
        ≤ g.maxDirEntries * Block.entryLength g.maxNameLength := Nat.mul_le_mul_right _ hsize
    simp only [Block.encodedLength, maxDirectoryLength]
    omega
  | file i =>
    obtain ⟨-, -, hslots⟩ := h
    simp only [Block.encodedLength, maxInodeLength]
    omega

theorem admits_empty (g : Geometry) : g.Admits (.directory .empty) :=
  ⟨Nat.zero_le _, fun _ he => absurd he List.not_mem_nil, List.nodup_nil⟩

theorem fitsMemory_iff (g : Geometry) :
    g.fitsMemory = true ↔ g.maxNameLength < 2 ^ 63 ∧ g.maxDirEntries * 32 < 2 ^ 63 ∧
      g.maxDataBlocks * 4 < 2 ^ 63 := by
  simp only [fitsMemory, Bool.and_eq_true, decide_eq_true_eq, and_assoc]
  exact Iff.rfl

theorem countable_of_admits {g : Geometry} (hg : g.fitsMemory = true) {block : Block}
    (h : g.Admits block) : block.Countable := by
  obtain ⟨hname, hdir, hdata⟩ := (fitsMemory_iff g).1 hg
  cases block with
  | directory d =>
    obtain ⟨hsize, hnames, -⟩ := h
    refine ⟨by omega, fun e he => ?_⟩
    have := hnames e he
    omega
  | file i =>
    obtain ⟨-, -, hslots⟩ := h
    show i.dataBlocks.length < 2 ^ 64
    omega

/-- The blocks of a file are those that its inode refers to, unless there are too few of
them or one of them is missing. -/
theorem fileBlocks_eq_ok_iff {g : Geometry} (hg : 0 < g.blockSize) {b : BlockNumber} {i : Inode}
    {bs : List BlockNumber} :
    g.fileBlocks b i = .ok bs ↔
      bs = g.references (.file i) ∧ g.blocksFor i.fileSize.toNat ≤ i.dataBlocks.length ∧
        noBlock ∉ g.references (.file i) := by
  have hcount : i.blockCount? g.blockSize = some (g.blocksFor i.fileSize.toNat) :=
    blocksFor?_eq hg _
  have hheld : i.populated? g.blockSize
      = some ((g.references (.file i)).takeWhile (· != noBlock)) := by
    unfold Inode.populated?
    rw [hcount]
    rfl
  have hlen : (g.references (.file i)).length
      = min (g.blocksFor i.fileSize.toNat) i.dataBlocks.length := List.length_take
  have hsub := (List.takeWhile_prefix (l := g.references (.file i)) (· != noBlock))
  have hle := hsub.length_le
  simp only [fileBlocks, hheld, hcount]
  constructor
  · intro h
    split at h
    · next heq =>
      cases h
      have hall := hsub.eq_of_length (by omega)
      refine ⟨hall, by omega, fun hmem => ?_⟩
      rw [← hall] at hmem
      have := List.mem_takeWhile_imp hmem
      simp at this
    · cases h
  · intro h
    obtain ⟨rfl, hslots, hmem⟩ := h
    have hall : (g.references (.file i)).takeWhile (· != noBlock) = g.references (.file i) := by
      refine List.takeWhile_eq_self_iff.2 fun b hb => ?_
      rw [bne_iff_ne]
      intro heq
      subst heq
      exact hmem hb
    rw [hall, if_pos (by omega)]

end Geometry

namespace Store.Serves

variable {s t : Store} {g : Geometry}

theorem blockSize_pos (h : s.Serves g) : 0 < g.blockSize :=
  ((Geometry.validate_eq_ok_iff g).1 h.valid).1

theorem blockSize_le (h : s.Serves g) : g.blockSize ≤ s.blockLen :=
  Nat.le_trans (Nat.le_max_left _ _) h.room

theorem of_blockLen (h : s.Serves g) (ht : t.WellFormed) (hlen : t.blockLen = s.blockLen) :
    t.Serves g :=
  ⟨ht, h.valid, h.fits, hlen ▸ h.room⟩

theorem ends_writeBlock {d : Device} (h : d.store.Serves g) {b : BlockNumber}
    (hb : d.store.InUse b) {block : Block} (hblock : g.Admits block) :
    Ends (Device.writeBlock b block d)
      (fun _ d' => (∃ contents, d.store.Rewrites d'.store b contents) ∧
        d'.store.metadata? b = some block ∧ d.Steady d')
      (fun e d' => d.Interrupts .write e ∧ d.Untouched d') :=
  Device.ends_writeBlock h.wellFormed hb (Geometry.countable_of_admits h.fits hblock)
    (Nat.le_trans (Geometry.encodedLength_le_of_admits hblock) h.room)

end Store.Serves

theorem Store.serves_of_inMemory {s : Store} {g : Geometry} {blockLen blocks : Nat}
    (h : Store.inMemory blockLen blocks = .ok s) (hcount : blocks < 2 ^ 32)
    (hv : g.validate = .ok ()) (hf : g.fitsMemory = true) (hlen : g.blockLen ≤ blockLen) :
    s.Serves g :=
  ⟨Store.wellFormed_of_inMemory h hcount, hv, hf, Store.blockLen_of_inMemory h ▸ hlen⟩

/-! ## Mounting and formatting -/

namespace Place

theorem checkGeometry_eq (g : Geometry) (d : Device) :
    checkGeometry g d =
      match g.validate with
      | .error fault => .error (.invalidGeometry fault) d
      | .ok () =>
        if g.fitsMemory = true then
          if d.store.blockLen < g.blockLen then .error (.invalidGeometry .blocksTooSmall) d
          else .ok () d
        else .error .defect d := by
  unfold checkGeometry
  cases g.validate with
  | error fault => rfl
  | ok _ =>
    show ((expect g.blockLen? >>= fun needed => Device.blockLen >>= fun blockLen =>
      if blockLen < needed then throw (.invalidGeometry .blocksTooSmall)
      else pure ()) : Action Unit) d = _
    unfold Geometry.blockLen?
    split
    · show (if d.store.blockLen < g.blockLen then _ else _ : Action Unit) d = _
      split <;> rfl
    · rfl

theorem checkGeometry_eq_ok_iff {g : Geometry} {d d' : Device} :
    checkGeometry g d = .ok () d' ↔
      g.validate = .ok () ∧ g.fitsMemory = true ∧ g.blockLen ≤ d.store.blockLen ∧ d' = d := by
  rw [checkGeometry_eq]
  constructor
  · intro h
    split at h
    · cases h
    · next hv =>
      split at h
      · next hf =>
        split at h
        · cases h
        · next hlen =>
          cases h
          exact ⟨hv, hf, Nat.le_of_not_lt hlen, rfl⟩
      · cases h
  · intro h
    obtain ⟨hv, hf, hlen, rfl⟩ := h
    rw [hv]
    simp only [hf, if_true, if_neg (Nat.not_lt.2 hlen)]

theorem mount_eq_ok {g : Geometry} {d d' : Device} {p : Place} (h : mount g d = .ok p d')
    (hs : d.store.WellFormed) :
    p = ⟨g, rootBlock⟩ ∧ d.Untouched d' ∧ d.store.Serves g ∧
      ∃ dir, d.store.metadata? rootBlock = some (.directory dir) := by
  have hend : Ends (mount g d)
      (fun p d' => p = ⟨g, rootBlock⟩ ∧ d.Untouched d' ∧ d.store.Serves g ∧
        ∃ dir, d.store.metadata? rootBlock = some (.directory dir)) (fun _ _ => True) := by
    unfold mount
    refine Ends.bind_iff.2 ?_
    cases hc : checkGeometry g d with
    | error e d₁ => trivial
    | ok u d₁ =>
      obtain ⟨hv, hf, hlen, rfl⟩ := checkGeometry_eq_ok_iff.1 hc
      refine (Device.ends_readBlock hs d₁.store.inUse_rootBlock).bind (fun _ _ _ => trivial) ?_
      intro block d₂ hres
      obtain ⟨hblock, hd⟩ := hres
      cases block with
      | directory dir => exact ⟨rfl, hd, ⟨hs, hv, hf, hlen⟩, dir, hblock⟩
      | file i => trivial
  exact hend.of_eq_ok h

/-- Formatting leaves a filesystem that can be taken up, whose root has no entries.  Nothing
but the root is written. -/
theorem format_eq_ok {g : Geometry} {d d' : Device} {p : Place} (h : format g d = .ok p d')
    (hs : d.store.WellFormed) :
    p = ⟨g, rootBlock⟩ ∧ d'.store.Serves g ∧ d.Steady d' ∧
      (∃ contents, d.store.Rewrites d'.store rootBlock contents) ∧
      d'.store.metadata? rootBlock = some (.directory .empty) := by
  have hend : Ends (format g d)
      (fun p d' => p = ⟨g, rootBlock⟩ ∧ d'.store.Serves g ∧ d.Steady d' ∧
        (∃ contents, d.store.Rewrites d'.store rootBlock contents) ∧
        d'.store.metadata? rootBlock = some (.directory .empty)) (fun _ _ => True) := by
    unfold format
    refine Ends.bind_iff.2 ?_
    cases hc : checkGeometry g d with
    | error e d₁ => trivial
    | ok u d₁ =>
      obtain ⟨hv, hf, hlen, rfl⟩ := checkGeometry_eq_ok_iff.1 hc
      have hserves : d₁.store.Serves g := ⟨hs, hv, hf, hlen⟩
      refine (hserves.ends_writeBlock d₁.store.inUse_rootBlock g.admits_empty).bind
        (fun _ _ _ => trivial) ?_
      intro _ d₂ hres
      obtain ⟨hw, hroot, hd₂⟩ := hres
      cases hm : mount g d₂ with
      | error e d₃ => trivial
      | ok p d₃ =>
        obtain ⟨hp, hd₃, hserves', -⟩ := mount_eq_ok hm (hw.elim fun _ h => h.wellFormed)
        rw [← hd₃.store] at hserves' hw hroot
        exact ⟨hp, hserves', hd₂.trans hd₃.toSteady, hw, hroot⟩
  exact hend.of_eq_ok h

end Place

namespace Store

theorem Mounts.serves {s : Store} {g : Geometry} (h : s.Mounts g) (hs : s.WellFormed) :
    s.Serves g := by
  obtain ⟨d, hd⟩ := h
  exact (Place.mount_eq_ok hd hs).2.2.1

/-- A store that serves some limits is taken up if its root is a directory. -/
theorem Serves.ends_mount {d : Device} {g : Geometry} (h : d.store.Serves g) {dir : Directory}
    (hdir : d.store.metadata? rootBlock = some (.directory dir)) :
    Ends (Place.mount g d) (fun p _ => p = ⟨g, rootBlock⟩) (fun e _ => d.Interrupts .read e) := by
  unfold Place.mount
  have hc : Place.checkGeometry g d = .ok () d :=
    Place.checkGeometry_eq_ok_iff.2 ⟨h.valid, h.fits, h.room, rfl⟩
  refine Ends.bind_iff.2 ?_
  rw [hc]
  refine (Device.ends_readBlock_of h.wellFormed d.store.inUse_rootBlock hdir).bind
    (fun e _ he => he.1) ?_
  intro block d' hres
  obtain ⟨rfl, -⟩ := hres
  rfl

theorem Serves.mounts {s : Store} {g : Geometry} (h : s.Serves g) {dir : Directory}
    (hdir : s.metadata? rootBlock = some (.directory dir)) : s.Mounts g := by
  have hend := ends_mount (d := Device.ofStore s) h hdir
  cases hm : Place.mount g (Device.ofStore s) with
  | error e d => exact absurd (hend.of_eq_error hm) Device.not_interrupts_ofStore
  | ok p d =>
    obtain rfl := hend.of_eq_ok hm
    exact ⟨d, hm⟩

/-- Such a store can be given a new filesystem, whatever it holds. -/
theorem Serves.exists_format {s : Store} {g : Geometry} (h : s.Serves g) :
    ∃ d, Place.format g (Device.ofStore s) = .ok ⟨g, rootBlock⟩ d := by
  have hend : Ends (Place.format g (Device.ofStore s)) (fun p _ => p = ⟨g, rootBlock⟩)
      (fun e _ => ∃ access, (Device.ofStore s).Interrupts access e) := by
    unfold Place.format
    have hc : Place.checkGeometry g (Device.ofStore s) = .ok () (Device.ofStore s) :=
      Place.checkGeometry_eq_ok_iff.2 ⟨h.valid, h.fits, h.room, rfl⟩
    refine Ends.bind_iff.2 ?_
    rw [hc]
    refine (ends_writeBlock (d := Device.ofStore s) h s.inUse_rootBlock g.admits_empty).bind
      (fun e _ he => ⟨.write, he.1⟩) ?_
    intro _ d hres
    obtain ⟨⟨contents, hw⟩, hroot, hd⟩ := hres
    exact (ends_mount (h.of_blockLen hw.wellFormed hw.blockLen) hroot).imp (fun _ _ hp => hp)
      fun e _ he => ⟨.read, he.of_plan hd.plan⟩
  cases hf : Place.format g (Device.ofStore s) with
  | error e d =>
    obtain ⟨access, he⟩ := hend.of_eq_error hf
    exact absurd he Device.not_interrupts_ofStore
  | ok p d =>
    obtain rfl := hend.of_eq_ok hf
    exact ⟨d, rfl⟩

/-- In a new store each block reads as a directory without entries. -/
theorem root_of_inMemory {s : Store} {g : Geometry} {blockLen blocks : Nat}
    (h : Store.inMemory blockLen blocks = .ok s) (hserves : s.Serves g) :
    s.metadata? rootBlock = some (.directory .empty) := by
  obtain ⟨m, -, rfl⟩ := Store.inMemory_eq_ok h
  have hlen : 9 ≤ blockLen := by
    have hroom : g.blockLen ≤ blockLen := hserves.room
    unfold Geometry.blockLen Geometry.maxDirectoryLength at hroom
    omega
  have hbytes : List.replicate blockLen 0 =
      (Block.directory .empty).toBytes ++ List.replicate (blockLen - 9) 0 := by
    have hempty : (Block.directory .empty).toBytes = List.replicate 9 0 := by decide
    rw [hempty, List.replicate_append_replicate, Nat.add_sub_cancel' hlen]
  have hcount : (Block.directory .empty).Countable := by
    refine ⟨by decide, fun e he => absurd he List.not_mem_nil⟩
  have hin := Store.inUse_rootBlock ⟨.memory, blockLen, m, Image.zeros (blockLen * blocks)⟩
  rw [Store.metadata?_eq_some_iff,
    Store.bytes_of_read (hserves.wellFormed.read_eq hin.1 hin.lt), Image.slice_zeros, hbytes]
  exact Block.decode_toBytes_append hcount _

theorem mounts_of_inMemory {s : Store} {g : Geometry} {blockLen blocks : Nat}
    (h : Store.inMemory blockLen blocks = .ok s) (hserves : s.Serves g) : s.Mounts g :=
  hserves.mounts (root_of_inMemory h hserves)

end Store
end BlockFS
