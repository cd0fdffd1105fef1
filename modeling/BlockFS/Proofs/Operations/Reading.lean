/-
Operations that only read: entering a directory, listing it, looking an entry up and reading
a file.

Each answers what the tree says, or fails as the tree says, unless a read was made to fail.
The store is not touched either way.
-/
import BlockFS.Proofs.Spots

namespace BlockFS
namespace Place

section

variable {g : Geometry} {d : Device} {z : Spot} {name : String}
  {es before after : List (String × Layout)} {t : Layout}

theorem ends_readHere (hs : d.store.Serves g) (hz : z.whole.Sound g d.store) :
    Ends (Device.readDirectory z.block d)
      (fun dir d' => dir = ⟨Layout.entriesOf z.entries⟩ ∧ d.Untouched d')
      (fun e d' => d.Interrupts .read e ∧ d.Untouched d') :=
  Device.ends_readDirectory hs.wellFormed (Spot.inUse_block hz) (Spot.directory hz).1

theorem stored_of_split (hz : z.whole.Sound g d.store)
    (h : splitAt? name z.entries = some (before, t, after)) :
    t.Stored g d.store ∧ ∀ b ∈ t.blocks, b ∈ Layout.blocksOf z.entries ∧ d.store.InUse b := by
  obtain ⟨hentries, -⟩ := eq_append_of_splitAt? h
  have hmem : (name, t) ∈ z.entries := by
    rw [hentries]
    exact List.mem_append_right _ List.mem_cons_self
  refine ⟨(Spot.directory hz).2.2 _ hmem, fun b hb => ?_⟩
  have hin : b ∈ Layout.blocksOf z.entries := Layout.blocks_subset_of_mem hmem hb
  exact ⟨hin, Spot.inUse hz (List.mem_cons_of_mem _ hin)⟩

theorem nodup_of_split (hz : z.whole.Sound g d.store)
    (h : splitAt? name z.entries = some (before, t, after)) : t.blocks.Nodup := by
  have hall := (List.nodup_cons.1 (Spot.nodup hz)).2
  rw [(eq_append_of_splitAt? h).1, Layout.blocksOf_append] at hall
  exact (List.nodup_append.1 (List.nodup_append.1 hall).2.1).1

theorem splitAt?_cursor (h : splitAt? name z.entries = some (before, t, after)) :
    splitAt? name z.cursor.entries = some (Layout.treesOf before, t.tree, Layout.treesOf after) := by
  show splitAt? name (Layout.treesOf z.entries) = _
  rw [Layout.splitAt?_treesOf, h]
  rfl

theorem splitAt?_cursor_none (h : splitAt? name z.entries = none) :
    splitAt? name z.cursor.entries = none := by
  show splitAt? name (Layout.treesOf z.entries) = _
  rw [Layout.splitAt?_treesOf, h]
  rfl

/-! ## Looking up -/

/-- The inode of a file with its blocks, which hold its contents. -/
structure Describes (g : Geometry) (s : Store) (i : Inode) (b : BlockNumber)
    (bs : List BlockNumber) (contents : Bytes) : Prop where
  size : i.fileSize.toNat = contents.length
  blocks : g.fileBlocks b i = .ok bs
  length : bs.length = g.blocksFor contents.length
  inUse : ∀ a ∈ bs, s.InUse a
  contents : contents = (s.gather g.blockSize bs).take contents.length

section Lookup

variable {α : Type} {Q : α → Device → Prop} {E : Error → Device → Prop}

/-- Every operation that is given a name starts by looking it up. -/
theorem ends_find {cont : Directory → Entry → Action α} (hs : d.store.Serves g)
    (hz : z.whole.Sound g d.store) (name : String)
    (hread : ∀ e d', d.Untouched d' → d.Interrupts .read e → E e d')
    (hnone : ∀ d', d.Untouched d' → splitAt? name z.cursor.entries = none → E .notFound d')
    (hsome : ∀ before t after d', d.Untouched d' →
      splitAt? name z.entries = some (before, t, after) →
      Ends (cont ⟨Layout.entriesOf z.entries⟩ ⟨name, t.block⟩ d') Q E) :
    Ends ((Device.readDirectory z.block >>= fun dir => lookup dir name >>= cont dir) d) Q E := by
  refine (ends_readHere hs hz).bind (fun e d' he => hread e d' he.2 he.1) ?_
  intro _ d₁ hres
  obtain ⟨rfl, hd₁⟩ := hres
  cases h : splitAt? name z.entries with
  | none =>
    rw [lookup_of_none h]
    exact hnone d₁ hd₁ (splitAt?_cursor_none h)
  | some p =>
    obtain ⟨before, t, after⟩ := p
    rw [lookup_of_some h, pure_bind]
    exact hsome before t after d₁ hd₁ h

theorem ends_findFile {cont : Directory → Entry → Inode → Action α} (hs : d.store.Serves g)
    (hz : z.whole.Sound g d.store) (name : String)
    (hread : ∀ e d', d.Untouched d' → d.Interrupts .read e → E e d')
    (hnone : ∀ d', d.Untouched d' → splitAt? name z.cursor.entries = none → E .notFound d')
    (hdirectory : ∀ before ts after d', d.Untouched d' →
      splitAt? name z.cursor.entries = some (before, .directory ts, after) → E .isADirectory d')
    (hfile : ∀ before b bs contents after i d', d.Untouched d' →
      splitAt? name z.entries = some (before, .file b bs contents, after) →
      Describes g d.store i b bs contents →
      Ends (cont ⟨Layout.entriesOf z.entries⟩ ⟨name, b⟩ i d') Q E) :
    Ends ((Device.readDirectory z.block >>= fun dir => lookup dir name >>= fun e =>
      Device.readInode e.target >>= cont dir e) d) Q E := by
  refine ends_find hs hz name hread hnone ?_
  intro before t after d₁ hd₁ h
  obtain ⟨ht, huse⟩ := stored_of_split hz h
  have htarget := (huse t.block t.block_mem_blocks).2
  have hwf : d₁.store.WellFormed := hd₁.store ▸ hs.wellFormed
  rw [← hd₁.store] at htarget
  cases ht with
  | @directory b es hb hadmits hes =>
    rw [← hd₁.store] at hb
    refine (Device.ends_readInode_directory hwf htarget hb).bind ?_ (fun _ _ hf => hf.elim)
    intro e d₂ herr
    obtain ⟨rfl | he, hd₂⟩ := herr
    · exact hdirectory _ _ _ d₂ (hd₁.trans hd₂) (splitAt?_cursor h)
    · exact hread e d₂ (hd₁.trans hd₂) (he.of_plan hd₁.plan)
  | @file b i bs contents hb hi hbs hcontents =>
    have hin : ∀ a ∈ bs, d.store.InUse a := fun a ha => (huse a (List.mem_cons_of_mem b ha)).2
    obtain ⟨j, hj, hadmits, hsize, rfl, hlen, hgather⟩ :=
      Layout.Stored.file_spec hs (.file hb hi hbs hcontents) hin
    have hfile' : g.fileBlocks b j = .ok (g.references (.file j)) :=
      Geometry.fileBlocks_of_inUse hs hadmits hin
    rw [← hd₁.store] at hj
    refine (Device.ends_readInode hwf htarget hj).bind
      (fun e d₂ he => hread e d₂ (hd₁.trans he.2) (he.1.of_plan hd₁.plan)) ?_
    intro _ d₂ hres
    obtain ⟨rfl, hd₂⟩ := hres
    exact hfile _ _ _ _ _ _ d₂ (hd₁.trans hd₂) h ⟨hsize, hfile', hlen, hin, hgather⟩

theorem ends_findDirectory {cont : Directory → Entry → Directory → Action α}
    (hs : d.store.Serves g) (hz : z.whole.Sound g d.store) (name : String)
    (hread : ∀ e d', d.Untouched d' → d.Interrupts .read e → E e d')
    (hnone : ∀ d', d.Untouched d' → splitAt? name z.cursor.entries = none → E .notFound d')
    (hfile : ∀ before contents after d', d.Untouched d' →
      splitAt? name z.cursor.entries = some (before, .file contents, after) →
      E .notADirectory d')
    (hdirectory : ∀ before b es after d', d.Untouched d' →
      splitAt? name z.entries = some (before, .directory b es, after) →
      Ends (cont ⟨Layout.entriesOf z.entries⟩ ⟨name, b⟩ ⟨Layout.entriesOf es⟩ d') Q E) :
    Ends ((Device.readDirectory z.block >>= fun dir => lookup dir name >>= fun e =>
      Device.readDirectory e.target >>= cont dir e) d) Q E := by
  refine ends_find hs hz name hread hnone ?_
  intro before t after d₁ hd₁ h
  obtain ⟨ht, huse⟩ := stored_of_split hz h
  have htarget := (huse t.block t.block_mem_blocks).2
  have hwf : d₁.store.WellFormed := hd₁.store ▸ hs.wellFormed
  rw [← hd₁.store] at htarget
  cases ht with
  | @file b i bs contents hb hi hbs hcontents =>
    rw [← hd₁.store] at hb
    refine (Device.ends_readDirectory_file hwf htarget hb).bind ?_ (fun _ _ hf => hf.elim)
    intro e d₂ herr
    obtain ⟨rfl | he, hd₂⟩ := herr
    · exact hfile _ _ _ d₂ (hd₁.trans hd₂) (splitAt?_cursor h)
    · exact hread e d₂ (hd₁.trans hd₂) (he.of_plan hd₁.plan)
  | @directory b es hb hadmits hes =>
    rw [← hd₁.store] at hb
    refine (Device.ends_readDirectory hwf htarget hb).bind
      (fun e d₂ he => hread e d₂ (hd₁.trans he.2) (he.1.of_plan hd₁.plan)) ?_
    intro _ d₂ hres
    obtain ⟨rfl, hd₂⟩ := hres
    exact hdirectory _ _ _ _ d₂ (hd₁.trans hd₂) h

end Lookup

/-! ## Entering -/

theorem exists_top (hz : z.whole.Sound g d.store) :
    ∃ z' : Spot, z'.block = rootBlock ∧ z'.whole = z.whole ∧ z'.cursor = z.cursor.top := by
  have hdir : ∀ (fs : List Layout.Frame) (b : BlockNumber) (es : List (String × Layout)),
      ∃ b' es', Layout.fill fs (.directory b es) = .directory b' es' := by
    intro fs
    induction fs with
    | nil => exact fun b es => ⟨b, es, rfl⟩
    | cons f fs ih => exact fun b es => ih f.block _
  obtain ⟨b, es, heq⟩ := hdir z.above z.block z.entries
  have hwhole : z.whole = .directory b es := heq
  refine ⟨⟨[], b, es⟩, ?_, hwhole.symm, ?_⟩
  · rw [← hz.root, hwhole]
    rfl
  · show Cursor.mk [] (Layout.treesOf es) = ⟨[], z.cursor.whole.entries⟩
    rw [z.whole_cursor, hwhole]
    rfl

theorem whole_enter {b : BlockNumber}
    (h : splitAt? name z.entries = some (before, .directory b es, after)) :
    (⟨⟨z.block, before, name, after⟩ :: z.above, b, es⟩ : Spot).whole = z.whole := by
  show Layout.fill z.above (.directory z.block (before ++ (name, .directory b es) :: after)) = _
  rw [← (eq_append_of_splitAt? h).1]
  rfl

theorem ends_enter (hs : d.store.Serves g) (hz : z.whole.Sound g d.store) (name : Option String) :
    Ends (enter ⟨g, z.block⟩ name d)
      (fun p d' => d.Untouched d' ∧
        ∃ z' : Spot, p = ⟨g, z'.block⟩ ∧ z'.whole = z.whole ∧ z.cursor.enter name = .ok z'.cursor)
      (fun e d' => d.Untouched d' ∧ (z.cursor.enter name = .error e ∨ d.Interrupts .read e)) := by
  cases name with
  | none =>
    obtain ⟨z', hblock, hwhole, hcursor⟩ := exists_top hz
    refine ⟨.refl d, z', ?_, hwhole, ?_⟩
    · rw [hblock]
    · rw [hcursor]
      rfl
  | some name =>
    unfold enter
    refine ends_findDirectory hs hz name (fun e d' hd he => ⟨hd, .inr he⟩) ?_ ?_ ?_
    · intro d' hd h
      refine ⟨hd, .inl ?_⟩
      rw [Cursor.enter, h]
    · intro before contents after d' hd h
      refine ⟨hd, .inl ?_⟩
      rw [Cursor.enter, h]
    · intro before b es after d' hd h
      refine ⟨hd, ⟨⟨z.block, before, name, after⟩ :: z.above, b, es⟩, rfl, whole_enter h, ?_⟩
      rw [Cursor.enter, splitAt?_cursor h]
      rfl

/-! ## Listing -/

theorem isDirectory_of_metadata (ht : t.Stored g d.store) {block : Block}
    (hblock : d.store.metadata? t.block = some block) :
    block.isDirectory = t.tree.isDirectory := by
  cases ht with
  | file hb hi hbs hcontents =>
    rw [Layout.block, hb] at hblock
    cases hblock
    rfl
  | directory hb hd hes =>
    rw [Layout.block, hb] at hblock
    cases hblock
    rfl

theorem ends_kinds (hs : d.store.WellFormed)
    (hes : ∀ e ∈ es, e.2.Stored g d.store ∧ d.store.InUse e.2.block) :
    Ends ((Layout.entriesOf es).mapM kindOf d)
      (fun kinds d' => kinds = es.map (fun e => (e.1, e.2.tree.isDirectory)) ∧ d.Untouched d')
      (fun e d' => d.Interrupts .read e ∧ d.Untouched d') := by
  induction es generalizing d with
  | nil => exact ⟨rfl, .refl d⟩
  | cons e es ih =>
    obtain ⟨⟨ht, huse⟩, hes⟩ := List.forall_mem_cons.1 hes
    rw [Layout.entriesOf_cons, List.mapM_cons]
    have hkind : Ends (kindOf ⟨e.1, e.2.block⟩ d)
        (fun k d' => k = (e.1, e.2.tree.isDirectory) ∧ d.Untouched d')
        (fun e d' => d.Interrupts .read e ∧ d.Untouched d') := by
      obtain ⟨block, hblock, -⟩ := ht.metadata
      refine (Device.ends_readBlock_of hs huse hblock).bind (fun _ _ h => h) ?_
      intro _ d₁ hres
      obtain ⟨rfl, hd₁⟩ := hres
      exact ⟨by rw [isDirectory_of_metadata ht hblock], hd₁⟩
    refine hkind.bind (fun _ _ h => h) ?_
    intro _ d₁ hres
    obtain ⟨rfl, hd₁⟩ := hres
    rw [← hd₁.store] at hs hes
    refine (ih hs hes).bind (fun e d' h => ⟨h.1.of_plan hd₁.plan, hd₁.trans h.2⟩) ?_
    intro _ d₂ hres
    obtain ⟨rfl, hd₂⟩ := hres
    exact ⟨rfl, hd₁.trans hd₂⟩

/-- A directory is listed wherever it is. -/
theorem ends_listing {b : BlockNumber} (hs : d.store.WellFormed) (hb : d.store.InUse b)
    (hdir : d.store.metadata? b = some (.directory ⟨Layout.entriesOf es⟩))
    (hes : ∀ e ∈ es, e.2.Stored g d.store ∧ d.store.InUse e.2.block) :
    Ends (list ⟨g, b⟩ d)
      (fun names d' => d.Untouched d' ∧ names = Cursor.list ⟨[], Layout.treesOf es⟩)
      (fun e d' => d.Untouched d' ∧ d.Interrupts .read e) := by
  refine (Device.ends_readDirectory hs hb hdir).bind (fun _ _ h => h.symm) ?_
  intro _ d₁ hres
  obtain ⟨rfl, hd₁⟩ := hres
  rw [← hd₁.store] at hs hes
  refine (ends_kinds hs hes).bind (fun e d' h => ⟨hd₁.trans h.2, h.1.of_plan hd₁.plan⟩) ?_
  intro _ d₂ hres
  obtain ⟨rfl, hd₂⟩ := hres
  refine ⟨hd₁.trans hd₂, ?_⟩
  simp only [Cursor.list, Layout.treesOf_eq_map, List.filter_map, List.map_map]
  rfl

theorem ends_list (hs : d.store.Serves g) (hz : z.whole.Sound g d.store) :
    Ends (list ⟨g, z.block⟩ d) (fun names d' => d.Untouched d' ∧ names = z.cursor.list)
      (fun e d' => d.Untouched d' ∧ d.Interrupts .read e) := by
  refine ends_listing hs.wellFormed (Spot.inUse_block hz) (Spot.directory hz).1 fun e he => ?_
  have hin := Layout.blocks_subset_of_mem he e.2.block_mem_blocks
  exact ⟨(Spot.directory hz).2.2 e he, Spot.inUse hz (List.mem_cons_of_mem _ hin)⟩

/-! ## Attributes -/

theorem ends_stat (hs : d.store.Serves g) (hz : z.whole.Sound g d.store) (name : String) :
    Ends (stat ⟨g, z.block⟩ name d)
      (fun st d' => d.Untouched d' ∧ z.cursor.stat g name = .ok (Answer.stats st).reply ∧
        (splitAt? name z.entries).map (·.2.1.block) = some st.block)
      (fun e d' => d.Untouched d' ∧ (z.cursor.stat g name = .error e ∨ d.Interrupts .read e)) := by
  unfold stat
  refine ends_find hs hz name (fun e d' hd he => ⟨hd, .inr he⟩) ?_ ?_
  · intro d' hd h
    refine ⟨hd, .inl ?_⟩
    rw [Cursor.stat, h]
  intro before t after d₁ hd₁ h
  obtain ⟨ht, huse⟩ := stored_of_split hz h
  have hsplit := splitAt?_cursor h
  have htarget := (huse t.block t.block_mem_blocks).2
  have hwf : d₁.store.WellFormed := hd₁.store ▸ hs.wellFormed
  rw [← hd₁.store] at htarget
  cases ht with
  | @directory b es hb hd hes =>
    rw [← hd₁.store] at hb
    refine (Device.ends_readBlock_of hwf htarget hb).bind
      (fun e d₂ he => ⟨hd₁.trans he.2, .inr (he.1.of_plan hd₁.plan)⟩) ?_
    intro _ d₂ hres
    obtain ⟨rfl, hd₂⟩ := hres
    refine ⟨hd₁.trans hd₂, ?_, by rw [h]; rfl⟩
    rw [Cursor.stat, hsplit]
    rfl
  | @file b i bs contents hb hi hbs hcontents =>
    obtain ⟨j, hj, -, hsize, -⟩ := Layout.Stored.file_spec hs (.file hb hi hbs hcontents)
      fun a ha => (huse a (List.mem_cons_of_mem b ha)).2
    have hcount : j.blockCount? g.blockSize = some (g.blocksFor contents.length) := by
      rw [← hsize]
      exact Geometry.blocksFor?_eq hs.blockSize_pos _
    rw [← hd₁.store] at hj
    refine (Device.ends_readBlock_of hwf htarget hj).bind
      (fun e d₂ he => ⟨hd₁.trans he.2, .inr (he.1.of_plan hd₁.plan)⟩) ?_
    intro _ d₂ hres
    obtain ⟨rfl, hd₂⟩ := hres
    simp only [hcount]
    refine ⟨hd₁.trans hd₂, ?_, by rw [h]; rfl⟩
    rw [Cursor.stat, hsplit, hsize]
    rfl

/-! ## Reading files -/

theorem take_gather (hs : d.store.Serves g) {bs : List BlockNumber} {contents : Bytes} {count : Nat}
    (hbs : ∀ b ∈ bs, d.store.InUse b) (hlen : bs.length = g.blocksFor contents.length)
    (hcontents : contents = (d.store.gather g.blockSize bs).take contents.length)
    (hcount : count ≤ contents.length) :
    (d.store.gather g.blockSize (bs.take (g.blocksFor count))).take count = contents.take count := by
  have hmono := Geometry.blocksFor_mono g hcount
  have hread : d.store.Readable (bs.take (g.blocksFor count)) :=
    hs.wellFormed.readable fun b hb => hbs b (List.mem_of_mem_take hb)
  have htake : contents.take count = (d.store.gather g.blockSize bs).take count := by
    conv_lhs => rw [hcontents]
    rw [List.take_take, Nat.min_eq_left hcount]
  rw [htake]
  exact (hread.take_gather hs.blockSize_pos hs.blockSize_le (by omega)).1

theorem ends_read (hs : d.store.Serves g) (hz : z.whole.Sound g d.store) (name : String)
    (max : Nat) :
    Ends (read ⟨g, z.block⟩ name max d)
      (fun data d' => d.Untouched d' ∧ z.cursor.read name max = .ok data)
      (fun e d' => d.Untouched d' ∧ (z.cursor.read name max = .error e ∨ d.Interrupts .read e)) := by
  unfold read
  refine ends_findFile hs hz name (fun e d' hd he => ⟨hd, .inr he⟩) ?_ ?_ ?_
  · intro d' hd h
    refine ⟨hd, .inl ?_⟩
    rw [Cursor.read, h]
  · intro before ts after d' hd h
    refine ⟨hd, .inl ?_⟩
    rw [Cursor.read, h]
  · intro before b bs contents after i d₁ hd₁ h hi
    have hcount : g.blocksFor? (min i.fileSize.toNat max) =
        some (g.blocksFor (min i.fileSize.toNat max)) :=
      Geometry.blocksFor?_eq hs.blockSize_pos _
    have hdata := take_gather hs hi.inUse hi.length hi.contents (Nat.min_le_left _ max)
    show Ends ((ofExcept (g.fileBlocks b i) >>= fun blocks =>
      expect (g.blocksFor? (min i.fileSize.toNat max)) >>= fun count =>
        readEach g.blockSize (min i.fileSize.toNat max) (blocks.take count)) d₁) _ _
    rw [hi.blocks, hcount, hi.size]
    show Ends (readEach g.blockSize (min contents.length max)
      (bs.take (g.blocksFor (min contents.length max))) d₁) _ _
    rw [← hd₁.store] at hs
    refine (ends_readEach hs.wellFormed hs.blockSize_le
      fun a ha => hd₁.store ▸ hi.inUse a (List.mem_of_mem_take ha)).imp ?_ ?_
    · intro _ d₂ hres
      obtain ⟨rfl, hd₂⟩ := hres
      refine ⟨hd₁.trans hd₂, ?_⟩
      rw [hd₁.store, hdata, Cursor.read, splitAt?_cursor h]
      rfl
    · exact fun e d₂ he => ⟨hd₁.trans he.2, .inr (he.1.of_plan hd₁.plan)⟩

end

end Place
end BlockFS
