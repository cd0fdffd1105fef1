/-
What a file is read as, in any store.

The store may be corrupt, and the inode of a file may say anything.  What an action gives tells
what is in the store (`Maintains`); the other way round, what is in the store tells what an action
comes to where no call is made to fail (`ComesTo`).  A file that has fewer blocks than its size
calls for is not read at all.  Any other one is read as the bytes that its blocks begin with, up to
a block that cannot be read (`still_readFile`, `comesTo_read`), so that how much of it is asked for
decides where the bytes end, and nothing else.
-/
import BlockFS.Proofs.Footprint.Operations
import BlockFS.Proofs.Refinement

namespace BlockFS

variable {α β : Type} {s : Store} {b : BlockNumber}

/-! ## What an action comes to -/

namespace Device

variable {x : Action α} {f : α → Action β} {a : α} {e : Error}

/-- On every device with this store and without failing calls, an action ends in this way and
changes nothing. -/
def ComesTo (s : Store) (act : Action α) (r : Except Error α) : Prop :=
  ∀ d : Device, d.store = s → d.plan = .never →
    Ends (act d) (fun a d' => r = .ok a ∧ d.Untouched d')
      (fun e d' => r = .error e ∧ d.Untouched d')

namespace ComesTo

theorem pure (a : α) : ComesTo s (Pure.pure a) (.ok a) := fun d _ _ => ⟨rfl, .refl d⟩

theorem bind {r : Except Error β} (h : ComesTo s x (.ok a)) (hf : ComesTo s (f a) r) :
    ComesTo s (x >>= f) r := by
  intro d hs hplan
  refine (h d hs hplan).bind (fun _ _ he => nomatch he.1) ?_
  rintro _ d' ⟨⟨⟩, hd⟩
  exact (hf d' (hd.store.trans hs) (hd.plan.trans hplan)).imp
    (fun _ _ hb => ⟨hb.1, hd.trans hb.2⟩) fun _ _ he => ⟨he.1, hd.trans he.2⟩

theorem bind_error (h : ComesTo s x (.error e)) : ComesTo s (x >>= f) (.error e) := by
  intro d hs hplan
  refine (h d hs hplan).bind (fun _ _ he => ⟨?_, he.2⟩) fun _ _ ha => nomatch ha.1
  cases he.1
  rfl

end ComesTo

theorem comesTo_ofExcept (r : Except Error α) :
    ComesTo s (MonadExcept.ofExcept r : Action α) r := by
  cases r with
  | ok a => exact .pure a
  | error e => exact fun d _ _ => ⟨rfl, .refl d⟩

theorem comesTo_readBytes {contents : Bytes} (h : s.read b = .ok contents) :
    ComesTo s (readBytes b) (.ok contents) := by
  rintro d rfl hplan
  refine (call_readBytes b d).imp ?_ ?_
  · rintro bs d' ⟨hread, hd⟩
    rw [h] at hread
    cases hread
    exact ⟨rfl, hd⟩
  · rintro e d' ⟨he, -⟩
    exact (Session.not_interrupts_of_never hplan (he.interrupts h)).elim

end Device

/-- Metadata are in blocks that can be read. -/
theorem Store.read_of_metadata? {block : Block} (h : s.metadata? b = some block) :
    s.read b = .ok (s.bytes b) := by
  unfold metadata? bytes at h
  unfold bytes
  cases hread : s.read b with
  | ok contents => rfl
  | error fault =>
    rw [hread] at h
    cases h

namespace Device

theorem comesTo_readBlock {block : Block} (h : s.metadata? b = some block) :
    ComesTo s (readBlock b) (.ok block) := by
  refine (comesTo_readBytes (Store.read_of_metadata? h)).bind ?_
  rw [Store.metadata?_eq_some_iff.1 h]
  exact .pure block

theorem comesTo_readDirectory {dir : Directory} (h : s.metadata? b = some (.directory dir)) :
    ComesTo s (readDirectory b) (.ok dir) :=
  (comesTo_readBlock h).bind (.pure dir)

theorem comesTo_readInode {i : Inode} (h : s.metadata? b = some (.file i)) :
    ComesTo s (readInode b) (.ok i) :=
  (comesTo_readBlock h).bind (.pure i)

end Device

/-! ## The blocks of a file -/

/-- A file has a block for every part of its size. -/
def Geometry.Covers (g : Geometry) (i : Inode) : Prop :=
  g.blocksFor i.fileSize.toNat ≤ i.dataBlocks.length ∧
    noBlock ∉ i.dataBlocks.take (g.blocksFor i.fileSize.toNat)

namespace Geometry

variable {g : Geometry} {i : Inode}

theorem Covers.fileBlocks (hg : 0 < g.blockSize) (h : g.Covers i) (b : BlockNumber) :
    g.fileBlocks b i = .ok (g.references (.file i)) :=
  (fileBlocks_eq_ok_iff hg).2 ⟨rfl, h⟩

theorem Covers.le_length (h : g.Covers i) {count : Nat} (hcount : count ≤ i.fileSize.toNat) :
    g.blocksFor count ≤ (g.references (.file i)).length := by
  have hmono := g.blocksFor_mono hcount
  have hslots := h.1
  rw [references, List.length_take]
  omega

theorem exists_missingBlocks (hg : 0 < g.blockSize) (h : ¬ g.Covers i) (b : BlockNumber) :
    ∃ held, held < g.blocksFor i.fileSize.toNat ∧
      g.fileBlocks b i = .error (.io (.missingBlocks b held i.fileSize)) := by
  have hcount : i.blockCount? g.blockSize = some (g.blocksFor i.fileSize.toNat) :=
    blocksFor?_eq hg _
  obtain ⟨bs, hbs⟩ : ∃ bs, i.populated? g.blockSize = some bs := by
    unfold Inode.populated?
    rw [hcount]
    exact ⟨_, rfl⟩
  have hle := Inode.length_le_of_populated? hcount hbs
  have hne : bs.length ≠ g.blocksFor i.fileSize.toNat := by
    intro heq
    have hfile : g.fileBlocks b i = .ok bs := by
      simp only [fileBlocks, hbs, hcount, if_pos heq]
    exact h ((fileBlocks_eq_ok_iff hg).1 hfile).2
  exact ⟨bs.length, Nat.lt_of_le_of_ne hle hne, by
    simp only [fileBlocks, hbs, hcount, if_neg hne]⟩

end Geometry

/-! ## Finding a file -/

/-- What is called `name` in the directory in block `dir` is a file with this inode. -/
def Store.Finds (s : Store) (dir : BlockNumber) (name : String) (e : Entry) (i : Inode) : Prop :=
  ∃ d, s.metadata? dir = some (.directory d) ∧ d.find? name = some e ∧
    s.metadata? e.target = some (.file i)

theorem Store.Finds.inode {dir : BlockNumber} {name : String} {e : Entry} {i : Inode}
    (h : s.Finds dir name e i) : s.metadata? e.target = some (.file i) := by
  obtain ⟨-, -, -, hi⟩ := h
  exact hi

theorem Store.fileAt?_eq_some_iff {dir : BlockNumber} {name : String} {i : Inode} :
    s.fileAt? dir name = some i ↔ ∃ e, s.Finds dir name e i := by
  constructor
  · intro h
    obtain ⟨b, htarget, hinode⟩ := Option.bind_eq_some_iff.1 h
    unfold target? at htarget
    split at htarget
    · next d hdir =>
      obtain ⟨e, he, rfl⟩ := Option.map_eq_some_iff.1 htarget
      unfold inode? at hinode
      split at hinode
      · next hi =>
        cases hinode
        exact ⟨e, d, hdir, he, hi⟩
      · cases hinode
    · cases htarget
  · rintro ⟨e, d, hdir, he, hi⟩
    exact fileAt?_eq_some (target?_eq_some hdir he) hi

open Device (ComesTo Still comesTo_ofExcept comesTo_readBytes comesTo_readBlock
  comesTo_readDirectory comesTo_readInode still_read still_readDirectory still_readInode)

namespace Place

variable {p : Place} {name : String} {e : Entry} {i : Inode}

theorem comesTo_lookup {d : Directory} (h : d.find? name = some e) :
    ComesTo s (lookup d name) (.ok e) := by
  unfold lookup
  rw [h]
  exact .pure e

theorem comesTo_find {cont : Entry → Action α} {r : Except Error α}
    (h : s.Finds p.dir name e i) (hcont : ComesTo s (cont e) r) :
    ComesTo s (Device.readDirectory p.dir >>= fun d => lookup d name >>= cont) r := by
  obtain ⟨d, hdir, he, -⟩ := h
  exact (comesTo_readDirectory hdir).bind ((comesTo_lookup he).bind hcont)

theorem comesTo_stat (hg : 0 < p.geometry.blockSize) (h : s.Finds p.dir name e i) :
    ComesTo s (p.stat name) (.ok ⟨name, e.target, false, i.fileSize.toNat,
      p.geometry.blocksFor i.fileSize.toNat⟩) := by
  have hcount : i.blockCount? p.geometry.blockSize = some (p.geometry.blocksFor i.fileSize.toNat) :=
    Geometry.blocksFor?_eq hg _
  unfold stat
  refine comesTo_find h ((comesTo_readBlock h.inode).bind ?_)
  simp only [hcount]
  exact .pure _

/-! ## Reading -/

/-- Block after block, the bytes are those that the blocks begin with. -/
theorem comesTo_readEach {n : Nat} {bs : List BlockNumber} (hn : n ≤ s.blockLen)
    (h : s.Readable bs) (remaining : Nat) :
    ComesTo s (readEach n remaining bs) (.ok ((s.gather n bs).take remaining)) := by
  induction bs generalizing remaining with
  | nil =>
    show ComesTo s (pure []) (.ok (List.take remaining []))
    rw [List.take_nil]
    exact .pure []
  | cons b bs ih =>
    obtain ⟨⟨contents, hread⟩, hbs⟩ := List.forall_mem_cons.1 h
    have hlen := Store.length_of_read hread
    refine (comesTo_readBytes hread).bind ?_
    rw [expect_first? (by omega), pure_bind]
    have hpiece : (contents.take (min remaining n)).length = min remaining n := by
      rw [List.length_take]
      omega
    rw [hpiece]
    refine (ih hbs _).bind ?_
    have htake : contents.take (min remaining n) ++
        (s.gather n bs).take (remaining - min remaining n) =
          (s.gather n (b :: bs)).take remaining := by
      show _ = ((s.bytes b).take n ++ s.gather n bs).take remaining
      rw [Store.bytes_of_read hread, List.take_append, List.take_take, List.length_take]
      congr 2
      omega
    rw [← htake]
    exact .pure _

theorem still_readEach {n k : Nat} {bs : List BlockNumber} (remaining : Nat) :
    Maintains (Still s k) (readEach n remaining bs) fun _ => s.Readable bs := by
  induction bs generalizing remaining with
  | nil => exact .pure fun b hb => absurd hb List.not_mem_nil
  | cons b bs ih =>
    refine .bind (still_read b) fun contents hread => .bind (maintains_expect _) fun piece _ => ?_
    refine .bind (ih _) fun rest hrest => .pure ?_
    exact List.forall_mem_cons.2 ⟨⟨contents, hread⟩, hrest⟩

/-- The blocks that the first `max` bytes of a file are in. -/
def readBlocks (p : Place) (i : Inode) (max : Nat) : List BlockNumber :=
  (p.geometry.references (.file i)).take (p.geometry.blocksFor (min i.fileSize.toNat max))

theorem still_readFile {k : Nat} (hg : 0 < p.geometry.blockSize) (name : String) (max : Nat) :
    Maintains (Still s k) (p.read name max) fun _ => ∃ e i, s.Finds p.dir name e i ∧
      p.geometry.Covers i ∧ s.Readable (p.readBlocks i max) := by
  unfold read
  refine .bind (still_readDirectory _) fun d hdir => .bind (maintains_lookup d name) fun e he => ?_
  refine .bind (still_readInode _) fun i hi => .bind (maintains_ofExcept _) fun bs hbs => ?_
  refine .bind (maintains_expect _) fun count hcount => (still_readEach _).imp fun _ hread => ?_
  obtain ⟨rfl, hcovers⟩ := (Geometry.fileBlocks_eq_ok_iff hg).1 hbs
  have heq : count = p.geometry.blocksFor (min i.fileSize.toNat max) := by
    rw [Geometry.blocksFor?, Geometry.blocksFor?_eq hg] at hcount
    exact (Option.some.inj hcount).symm
  rw [heq] at hread
  exact ⟨e, i, ⟨d, hdir, he, hi⟩, hcovers, hread⟩

theorem comesTo_read (hg : 0 < p.geometry.blockSize) (hn : p.geometry.blockSize ≤ s.blockLen)
    (hf : s.Finds p.dir name e i) (hc : p.geometry.Covers i) {max : Nat}
    (hr : s.Readable (p.readBlocks i max)) :
    ComesTo s (p.read name max)
      (.ok ((s.gather p.geometry.blockSize (p.geometry.references (.file i))).take
        (min i.fileSize.toNat max))) := by
  have hcount := hc.le_length (Nat.min_le_left i.fileSize.toNat max)
  unfold read
  refine comesTo_find hf ((comesTo_readInode hf.inode).bind ?_)
  rw [hc.fileBlocks hg]
  refine (comesTo_ofExcept _).bind ?_
  rw [Geometry.blocksFor?, Geometry.blocksFor?_eq hg]
  rw [← (hr.take_gather hg hn hcount).1]
  exact comesTo_readEach hn hr _

theorem comesTo_read_error (hf : s.Finds p.dir name e i) {err : Error}
    (h : p.geometry.fileBlocks e.target i = .error err) (max : Nat) :
    ComesTo s (p.read name max) (.error err) := by
  unfold read
  refine comesTo_find hf ((comesTo_readInode hf.inode).bind ?_)
  rw [h]
  exact (comesTo_ofExcept _).bind_error

end Place

/-! ## Requests -/

theorem Store.Mounts.blockSize {g : Geometry} (h : s.Mounts g) :
    0 < g.blockSize ∧ g.blockSize ≤ s.blockLen := by
  obtain ⟨d, hd⟩ := h
  unfold Place.mount at hd
  rw [run_bind] at hd
  cases hc : Place.checkGeometry g (Device.ofStore s) with
  | error e d' =>
    rw [hc] at hd
    cases hd
  | ok _ d' =>
    obtain ⟨hv, -, hlen, -⟩ := Place.checkGeometry_eq_ok_iff.1 hc
    exact ⟨((Geometry.validate_eq_ok_iff g).1 hv).1, Nat.le_trans (Nat.le_max_left _ _) hlen⟩

namespace Session

variable {u : Session} {name : String} {max : Nat}

theorem run_of_comesTo (hplan : u.device.plan = .never) (op : Operation)
    {r : Except Error (Answer × Place)} (h : ComesTo u.device.store (op.perform u.place) r) :
    (u.run op).1 = r.map Prod.fst := by
  have hend := h u.device rfl hplan
  rw [run_eq]
  cases hp : op.perform u.place u.device with
  | ok x d => rw [(hend.of_eq_ok hp).1]; rfl
  | error e d => rw [(hend.of_eq_error hp).1]; rfl

theorem run_read_of_comesTo (hplan : u.device.plan = .never) {r : Except Error Bytes}
    (h : ComesTo u.device.store (u.place.read name max) r) :
    (u.run (.read name max)).1 = r.map .contents := by
  cases r with
  | ok data =>
    exact run_of_comesTo hplan (.read name max) (h.bind (.pure (Answer.contents data, u.place)))
  | error e => exact run_of_comesTo hplan (.read name max) h.bind_error

theorem exists_of_run_read (hg : 0 < u.place.geometry.blockSize) {a : Answer}
    (h : (u.run (.read name max)).1 = .ok a) :
    ∃ e i, u.device.store.Finds u.place.dir name e i ∧ u.place.geometry.Covers i ∧
      u.device.store.Readable (u.place.readBlocks i max) := by
  have hstill : Maintains (Still u.device.store u.device.calls.failedReleases)
      (Operation.perform u.place (.read name max)) fun _ => ∃ e i,
        u.device.store.Finds u.place.dir name e i ∧ u.place.geometry.Covers i ∧
          u.device.store.Readable (u.place.readBlocks i max) :=
    (Place.still_readFile hg name max).bind fun _ hfile => .pure hfile
  have hend := hstill u.device ⟨rfl, rfl⟩
  rw [run_eq] at h
  cases hp : Operation.perform u.place (.read name max) u.device with
  | ok x d => exact (hend.of_eq_ok hp).2
  | error e d =>
    rw [hp] at h
    cases h

/-- Whatever the store, what is read of a file is the start of one byte string, however much is
asked for, and as long as its size allows.  A file that has too few blocks for its size is not
read at all. -/
theorem read_prefixes (hplan : u.device.plan = .never)
    (hm : u.device.store.Mounts u.place.geometry) (name : String) :
    (∀ m data, (u.run (.read name m)).1 = .ok (.contents data) →
      ∃ b i, u.device.store.fileAt? u.place.dir name = some i ∧ u.place.geometry.Covers i ∧
        (u.run (.stat name)).1 = .ok (.stats ⟨name, b, false, i.fileSize.toNat,
          u.place.geometry.blocksFor i.fileSize.toNat⟩) ∧
        data.length = min i.fileSize.toNat m ∧
        ∀ k ≤ m, (u.run (.read name k)).1 = .ok (.contents (data.take k))) ∧
    ∀ i, u.device.store.fileAt? u.place.dir name = some i → ¬ u.place.geometry.Covers i →
      ∃ b held, held < u.place.geometry.blocksFor i.fileSize.toNat ∧
        ∀ m, (u.run (.read name m)).1 = .error (.io (.missingBlocks b held i.fileSize)) := by
  obtain ⟨hg, hn⟩ := hm.blockSize
  refine ⟨fun m data hrun => ?_, fun i hi hc => ?_⟩
  · obtain ⟨e, i, hf, hc, hr⟩ := exists_of_run_read hg hrun
    -- Fewer bytes are in the first of the same blocks.
    have hfewer : ∀ k ≤ m, u.device.store.Readable (u.place.readBlocks i k) := by
      intro k hk
      refine hr.take (u.place.geometry.blocksFor_mono ?_)
      omega
    have hread : ∀ k ≤ m, (u.run (.read name k)).1 = .ok (.contents _) := fun k hk =>
      run_read_of_comesTo hplan (Place.comesTo_read hg hn hf hc (hfewer k hk))
    have hlen := (hr.take_gather hg hn (hc.le_length (Nat.min_le_left _ _))).2
    rw [hread m (Nat.le_refl m)] at hrun
    cases hrun
    have hstat := run_of_comesTo hplan (.stat name)
      ((Place.comesTo_stat hg hf).bind (.pure (Answer.stats _, u.place)))
    refine ⟨e.target, i, Store.fileAt?_eq_some_iff.2 ⟨e, hf⟩, hc, hstat, hlen, fun k hk => ?_⟩
    rw [hread k hk, List.take_take]
    congr 3
    omega
  · obtain ⟨e, hf⟩ := Store.fileAt?_eq_some_iff.1 hi
    obtain ⟨held, hlt, hblocks⟩ := Geometry.exists_missingBlocks hg hc e.target
    exact ⟨e.target, held, hlt, fun m =>
      run_read_of_comesTo hplan (Place.comesTo_read_error hf hblocks m)⟩

/-- Both files of the root claim block 4 for their six bytes.  The first one claims it twice and has
a slot to spare, the second one has an empty slot. -/
def tangled (s : Store) : Session :=
  let blocks := [
    Block.directory ⟨[⟨"f", 2⟩, ⟨"h", 3⟩]⟩, .file ⟨6, [4, 4, 9]⟩, .file ⟨6, [4, 0]⟩]
  let contents := blocks.flatMap fun block => Bytes.padTo 35 block.toBytes
  ⟨Device.ofStore { s with image := s.image.write 35 (contents ++ [97, 98, 99, 100]) },
    ⟨⟨4, 1, 2, 3, 8⟩, rootBlock⟩⟩

theorem read_prefixes_tangled : ∃ s, Store.inMemory 35 5 = .ok s ∧
    (tangled s).device.store.Mounts ⟨4, 1, 2, 3, 8⟩ ∧
      ((tangled s).run (.read "f" 5)).1 = .ok (.contents [97, 98, 99, 100, 97]) ∧
      (∀ k ≤ 5, ((tangled s).run (.read "f" k)).1 =
        .ok (.contents ([97, 98, 99, 100, 97].take k))) ∧
      ∃ b held, held < Geometry.blocksFor ⟨4, 1, 2, 3, 8⟩ 6 ∧
        ∀ m, ((tangled s).run (.read "h" m)).1 = .error (.io (.missingBlocks b held 6)) := by
  obtain ⟨s, hs, hcount, hcovered, hroom, hroot, hrun, hfile⟩ :
      ∃ s, Store.inMemory 35 5 = .ok s ∧ (tangled s).device.store.blockCount = 5 ∧
        (tangled s).device.store.blockCount * (tangled s).device.store.blockLen ≤
          (tangled s).device.store.image.size ∧
        Geometry.blockLen ⟨4, 1, 2, 3, 8⟩ ≤ (tangled s).device.store.blockLen ∧
        (tangled s).device.store.metadata? rootBlock =
          some (.directory ⟨[⟨"f", 2⟩, ⟨"h", 3⟩]⟩) ∧
        ((tangled s).run (.read "f" 5)).1 = .ok (.contents [97, 98, 99, 100, 97]) ∧
        (tangled s).device.store.fileAt? rootBlock "h" = some ⟨6, [4, 0]⟩ :=
    ⟨_, rfl, by decide +kernel⟩
  have hserves : (tangled s).device.store.Serves ⟨4, 1, 2, 3, 8⟩ :=
    ⟨⟨by rw [hcount]; decide, hcovered⟩, by decide, by decide, hroom⟩
  have hm := hserves.mounts hroot
  obtain ⟨-, -, -, -, -, -, hprefix⟩ := (read_prefixes (u := tangled s) rfl hm "f").1 5 _ hrun
  have hempty : ¬ Geometry.Covers ⟨4, 1, 2, 3, 8⟩ ⟨6, [4, 0]⟩ := fun hc => hc.2 (by decide)
  obtain ⟨b, held, hlt, hmissing⟩ :=
    (read_prefixes (u := tangled s) rfl hm "h").2 _ hfile hempty
  exact ⟨s, hs, hm, hrun, hprefix, b, held, hlt, hmissing⟩

end Session
end BlockFS
