/-
The bytes of a file in its blocks.

A file holds as many bytes as its inode says, the first `blockSize` of each of its blocks
one after the other (`file_spec`).  Reading takes them from the front.  Appending moves what
a partly filled last block holds into new blocks, together with the data; `ends_tail?` takes
the blocks apart for that, and `gather_of_pieces` is what the new ones hold.
-/
import BlockFS.Proofs.Mount

namespace BlockFS

/-! ## Pieces -/

namespace Bytes

theorem length_le_of_mem_pieces {size count : Nat} {bs piece : Bytes}
    (h : piece ∈ pieces size count bs) : piece.length ≤ size := by
  induction count generalizing bs with
  | zero => exact absurd h List.not_mem_nil
  | succ count ih =>
    rcases List.mem_cons.1 h with rfl | h
    · exact List.length_take_le ..
    · exact ih h

/-- The pieces of a byte string, each padded and cut to the same size again, make up the byte
string and zeros behind it. -/
theorem exists_flatMap_pieces {size len count : Nat} {bs : Bytes}
    (h : bs.length ≤ count * size) :
    ∃ zeros, (pieces size count bs).flatMap (fun piece => (padTo len piece).take size)
      = bs ++ zeros := by
  induction count generalizing bs with
  | zero =>
    have hnil : bs = [] := List.eq_nil_of_length_eq_zero (by omega)
    exact ⟨[], by rw [hnil]; rfl⟩
  | succ count ih =>
    rw [pieces, List.flatMap_cons]
    rw [Nat.succ_mul] at h
    by_cases hlast : bs.length ≤ size
    · rw [List.take_of_length_le hlast, padTo, List.take_append, List.take_of_length_le hlast,
        List.append_assoc]
      exact ⟨_, rfl⟩
    · have hdrop : (bs.drop size).length ≤ count * size := by
        rw [List.length_drop]
        omega
      obtain ⟨zeros, hzeros⟩ := ih hdrop
      have hfull : (bs.take size).length = size := by
        rw [List.length_take]
        omega
      refine ⟨zeros, ?_⟩
      rw [hzeros, padTo, List.take_left' hfull, ← List.append_assoc, List.take_append_drop]

end Bytes

/-! ## Counting blocks -/

namespace Geometry

variable {g : Geometry}

theorem blocksFor_mul_add (h : 0 < g.blockSize) (q size : Nat) :
    g.blocksFor (q * g.blockSize + size) = q + g.blocksFor size := by
  unfold blocksFor
  rw [Nat.add_assoc, Nat.add_comm, Nat.add_mul_div_right _ _ h, Nat.add_comm]

/-- What comes behind the full blocks is counted by itself. -/
theorem blocksFor_add (h : 0 < g.blockSize) (size count : Nat) :
    g.blocksFor (size + count) =
      size / g.blockSize + g.blocksFor (size % g.blockSize + count) := by
  rw [← blocksFor_mul_add h, ← Nat.add_assoc, Nat.div_add_mod']

theorem blocksFor_zero (h : 0 < g.blockSize) : g.blocksFor 0 = 0 := by
  unfold blocksFor
  exact Nat.div_eq_of_lt (by omega)

theorem blocksFor_of_lt {size : Nat} (hpos : 0 < size) (h : size < g.blockSize) :
    g.blocksFor size = 1 := by
  unfold blocksFor
  rw [Nat.div_eq_iff (by omega)]
  omega

end Geometry

/-! ## Gathering bytes -/

namespace Store

variable {s : Store} {n : Nat} {bs cs : List BlockNumber}

theorem gather_append : s.gather n (bs ++ cs) = s.gather n bs ++ s.gather n cs :=
  List.flatMap_append

/-- Every one of some blocks can be read. -/
def Readable (s : Store) (bs : List BlockNumber) : Prop :=
  ∀ b ∈ bs, ∃ contents, s.read b = .ok contents

theorem WellFormed.readable (hs : s.WellFormed) (hbs : ∀ b ∈ bs, s.InUse b) : s.Readable bs :=
  fun b hb => ⟨s.bytes b, hs.read (hbs b hb)⟩

theorem Readable.take {m k : Nat} (h : s.Readable (bs.take m)) (hk : k ≤ m) :
    s.Readable (bs.take k) :=
  fun b hb => h b ((List.take_prefix_take_left hk).subset hb)

theorem Readable.length_gather (h : s.Readable bs) (hn : n ≤ s.blockLen) :
    (s.gather n bs).length = bs.length * n := by
  induction bs with
  | nil => exact (Nat.zero_mul n).symm
  | cons b bs ih =>
    obtain ⟨⟨contents, hread⟩, hbs⟩ := List.forall_mem_cons.1 h
    have hlen : (s.bytes b).length = s.blockLen := by
      rw [bytes_of_read hread, length_of_read hread]
    show ((s.bytes b).take n ++ s.gather n bs).length = _
    rw [List.length_append, ih hbs, List.length_take, List.length_cons, Nat.succ_mul]
    omega

theorem length_gather (hs : s.WellFormed) (hn : n ≤ s.blockLen) (hbs : ∀ b ∈ bs, s.InUse b) :
    (s.gather n bs).length = bs.length * n :=
  (hs.readable hbs).length_gather hn

/-- The first bytes are in the first blocks, whatever the others are. -/
theorem Readable.take_gather {g : Geometry} {count : Nat}
    (h : s.Readable (bs.take (g.blocksFor count))) (hg : 0 < g.blockSize)
    (hn : g.blockSize ≤ s.blockLen) (hcount : g.blocksFor count ≤ bs.length) :
    (s.gather g.blockSize (bs.take (g.blocksFor count))).take count =
        (s.gather g.blockSize bs).take count ∧
      ((s.gather g.blockSize bs).take count).length = count := by
  have hsplit : s.gather g.blockSize bs =
      s.gather g.blockSize (bs.take (g.blocksFor count)) ++
        s.gather g.blockSize (bs.drop (g.blocksFor count)) := by
    rw [← gather_append, List.take_append_drop]
  have hlength := h.length_gather hn
  rw [List.length_take, Nat.min_eq_left hcount] at hlength
  have hle := Geometry.le_blocksFor_mul hg count
  rw [hsplit, List.take_append_of_le_length (by omega), List.length_take]
  exact ⟨rfl, by omega⟩

/-- Blocks that hold the padded pieces of a byte string begin with it. -/
theorem gather_of_pieces {len count : Nat} {data : Bytes}
    (hcount : data.length ≤ count * n)
    (hbs : bs.map s.bytes = (Bytes.pieces n count data).map (Bytes.padTo len)) :
    ∃ zeros, s.gather n bs = data ++ zeros := by
  obtain ⟨zeros, hzeros⟩ := Bytes.exists_flatMap_pieces hcount
  refine ⟨zeros, ?_⟩
  have hgather : s.gather n bs = (bs.map s.bytes).flatMap (List.take n) := by
    rw [List.flatMap_map]
    rfl
  rw [hgather, hbs, List.flatMap_map]
  exact hzeros

end Store

/-! ## Stored files -/

section Files

variable {g : Geometry} {s : Store} {b : BlockNumber} {bs : List BlockNumber} {contents : Bytes}

theorem Layout.Stored.file_spec (hs : s.Serves g) (h : (Layout.file b bs contents).Stored g s)
    (hbs : ∀ a ∈ bs, s.InUse a) :
    ∃ i, s.metadata? b = some (.file i) ∧ g.Admits (.file i) ∧
      i.fileSize.toNat = contents.length ∧ bs = g.references (.file i) ∧
      bs.length = g.blocksFor contents.length ∧
      contents = (s.gather g.blockSize bs).take contents.length := by
  cases h with
  | @file _ i _ _ hb hi hrefs hcontents =>
    have hlen : bs.length = g.blocksFor i.fileSize.toNat := by
      rw [hrefs, Geometry.references, List.length_take]
      exact Nat.min_eq_left hi.2.1
    have hgather := Store.length_gather hs.wellFormed hs.blockSize_le hbs
    have hle := Geometry.le_blocksFor_mul hs.blockSize_pos i.fileSize.toNat
    have hsize : contents.length = i.fileSize.toNat := by
      rw [hcontents, List.length_take, hgather, hlen]
      exact Nat.min_eq_left hle
    rw [hsize]
    exact ⟨i, hb, hi, rfl, hrefs, hlen, hcontents⟩

theorem Geometry.fileBlocks_of_inUse {i : Inode} (hs : s.Serves g) (hi : g.Admits (.file i))
    (hbs : ∀ a ∈ g.references (.file i), s.InUse a) :
    g.fileBlocks b i = .ok (g.references (.file i)) :=
  (Geometry.fileBlocks_eq_ok_iff hs.blockSize_pos).2 ⟨rfl, hi.2.1, fun hmem => (hbs _ hmem).1 rfl⟩

theorem Geometry.populated?_of_fileBlocks {i : Inode} (h : g.fileBlocks b i = .ok bs) :
    i.populated? g.blockSize = some bs := by
  unfold fileBlocks at h
  split at h
  · next hheld _ =>
    split at h
    · cases h
      exact hheld
    · cases h
  · cases h

mutual

theorem Layout.Stored.blockCount_tree {t : Layout} (hs : s.Serves g) (h : t.Stored g s)
    (huse : ∀ a ∈ t.blocks, s.InUse a) : t.tree.blockCount g = t.blocks.length := by
  match t, h with
  | .file b bs contents, h =>
    obtain ⟨i, -, -, -, -, hlen, -⟩ :=
      h.file_spec hs fun a ha => huse a (List.mem_cons_of_mem b ha)
    show 1 + g.blocksFor contents.length = bs.length + 1
    omega
  | .directory b es, .directory hb hd hes =>
    have hrest := Layout.Stored.blockCount_treesOf hs hes
      fun a ha => huse a (List.mem_cons_of_mem b ha)
    show 1 + Tree.blockCountAll g (treesOf es) = (blocksOf es).length + 1
    omega

theorem Layout.Stored.blockCount_treesOf {es : List (String × Layout)} (hs : s.Serves g)
    (h : ∀ e ∈ es, e.2.Stored g s) (huse : ∀ a ∈ Layout.blocksOf es, s.InUse a) :
    Tree.blockCountAll g (Layout.treesOf es) = (Layout.blocksOf es).length := by
  match es with
  | [] => rfl
  | (name, t) :: es =>
    have hhead : t.tree.blockCount g = t.blocks.length :=
      Layout.Stored.blockCount_tree hs (h (name, t) List.mem_cons_self)
        fun a ha => huse a (List.mem_append_left _ ha)
    have hrest := Layout.Stored.blockCount_treesOf hs
      (fun e he => h e (List.mem_cons_of_mem _ he)) fun a ha => huse a (List.mem_append_right _ ha)
    show t.tree.blockCount g + Tree.blockCountAll g (Layout.treesOf es) =
      (t.blocks ++ Layout.blocksOf es).length
    rw [List.length_append]
    omega

end

end Files

/-! ## Reading files -/

namespace Place

theorem expect_first? {n : Nat} {bs : Bytes} (h : n ≤ bs.length) :
    expect (Bytes.first? n bs) = pure (bs.take n) := by
  rw [Bytes.first?, if_pos h]
  rfl

/-- Block after block, the bytes are those that the blocks begin with. -/
theorem ends_readEach {d : Device} {n remaining : Nat} {bs : List BlockNumber}
    (hs : d.store.WellFormed) (hn : n ≤ d.store.blockLen) (hbs : ∀ b ∈ bs, d.store.InUse b) :
    Ends (readEach n remaining bs d)
      (fun data d' => data = (d.store.gather n bs).take remaining ∧ d.Untouched d')
      (fun e d' => d.Interrupts .read e ∧ d.Untouched d') := by
  induction bs generalizing d remaining with
  | nil => exact ⟨List.take_nil.symm, .refl d⟩
  | cons b bs ih =>
    obtain ⟨hb, hbs⟩ := List.forall_mem_cons.1 hbs
    have hlen : n ≤ (d.store.bytes b).length := hs.length_bytes hb ▸ hn
    refine (Device.ends_readBytes hs hb).bind (fun _ _ h => h) ?_
    intro _ d₁ hres
    obtain ⟨rfl, hd₁⟩ := hres
    rw [expect_first? (by omega), pure_bind]
    have hpiece : ((d.store.bytes b).take (min remaining n)).length = min remaining n := by
      rw [List.length_take]
      omega
    rw [hpiece]
    rw [← hd₁.store] at hs hn hbs
    refine (ih hs hn hbs).bind (fun e d' h => ⟨h.1.of_plan hd₁.plan, hd₁.trans h.2⟩) ?_
    intro _ d' hres
    obtain ⟨rfl, hd'⟩ := hres
    refine ⟨?_, hd₁.trans hd'⟩
    show (d.store.bytes b).take (min remaining n) ++ _ =
      ((d.store.bytes b).take n ++ d.store.gather n bs).take remaining
    rw [List.take_append, List.take_take, List.length_take, hd₁.store]
    congr 2
    omega

section Tail

variable {g : Geometry} {d : Device} {size : Nat} {bs : List BlockNumber} {contents : Bytes}

/-- A file has as many full blocks as its size says. -/
theorem length_take_full (hg : 0 < g.blockSize) (hlen : bs.length = g.blocksFor size) :
    (bs.take (size / g.blockSize)).length = size / g.blockSize := by
  have hsplit : g.blocksFor size = size / g.blockSize + g.blocksFor (size % g.blockSize) :=
    Geometry.blocksFor_add hg size 0
  rw [List.length_take, hlen, hsplit]
  omega

theorem ends_tail? (hg : 0 < g.blockSize) (hlen : bs.length = g.blocksFor size) :
    Ends (tail? g.blockSize size bs d)
      (fun tail d' => d' = d ∧ bs = bs.take (size / g.blockSize) ++ tail.toList ∧
        (tail = none ↔ size % g.blockSize = 0))
      (fun _ _ => False) := by
  have hlt := Nat.mod_lt size hg
  have hsplit : bs.length = size / g.blockSize + g.blocksFor (size % g.blockSize) :=
    hlen.trans (Geometry.blocksFor_add hg size 0)
  unfold tail?
  by_cases hr : size % g.blockSize = 0
  · rw [if_pos hr]
    rw [hr, Geometry.blocksFor_zero hg] at hsplit
    refine ⟨rfl, ?_, by simp [hr]⟩
    rw [List.take_of_length_le (by omega)]
    exact (List.append_nil bs).symm
  · rw [if_neg hr]
    rw [Geometry.blocksFor_of_lt (by omega) hlt] at hsplit
    have hlast : size / g.blockSize < bs.length := by omega
    rw [List.getElem?_eq_getElem hlast]
    refine ⟨rfl, ?_, by simp [hr]⟩
    have hdrop : bs.drop (size / g.blockSize) = [bs[size / g.blockSize]] := by
      rw [List.drop_eq_getElem_cons hlast, List.drop_eq_nil_of_le (by omega)]
    show bs = bs.take (size / g.blockSize) ++ [bs[size / g.blockSize]]
    rw [← hdrop, List.take_append_drop]

/-- What is moved out of the partly filled block is what follows the whole blocks. -/
theorem ends_tailContents (hs : d.store.Serves g) (hbs : ∀ b ∈ bs, d.store.InUse b)
    (hcontents : contents = (d.store.gather g.blockSize bs).take contents.length)
    {tail : Option BlockNumber}
    (hsplit : bs = bs.take (contents.length / g.blockSize) ++ tail.toList)
    (htail : tail = none ↔ contents.length % g.blockSize = 0) :
    Ends (tailContents g.blockSize contents.length tail d)
      (fun kept d' => d.Untouched d' ∧ contents =
        d.store.gather g.blockSize (bs.take (contents.length / g.blockSize)) ++ kept)
      (fun e d' => d.Interrupts .read e ∧ d.Untouched d') := by
  have hdiv := Nat.div_add_mod contents.length g.blockSize
  have hlt := Nat.mod_lt contents.length hs.blockSize_pos
  rw [Nat.mul_comm] at hdiv
  generalize hwhole : bs.take (contents.length / g.blockSize) = whole at hsplit ⊢
  have huse : ∀ b ∈ whole, d.store.InUse b := by
    subst hwhole
    exact fun b hb => hbs b (List.mem_of_mem_take hb)
  have hcount : whole.length = min (contents.length / g.blockSize) bs.length := by
    rw [← hwhole, List.length_take]
  have hgather := Store.length_gather hs.wellFormed hs.blockSize_le huse
  cases tail with
  | none =>
    refine ⟨.refl d, ?_⟩
    rw [Option.toList_none, List.append_nil] at hsplit
    have hle : whole.length * g.blockSize ≤ contents.length / g.blockSize * g.blockSize :=
      Nat.mul_le_mul_right _ (by omega)
    rw [hsplit, List.take_of_length_le (by omega)] at hcontents
    rw [List.append_nil]
    exact hcontents
  | some last =>
    have hlast : d.store.InUse last := by
      refine hbs last ?_
      rw [hsplit]
      exact List.mem_append_right _ List.mem_cons_self
    have hlength : bs.length = whole.length + 1 := by
      rw [hsplit, List.length_append]
      rfl
    have hfull : whole.length = contents.length / g.blockSize := by omega
    have hbytes := hs.wellFormed.length_bytes hlast
    have hsize := hs.blockSize_le
    refine (Device.ends_readBytes hs.wellFormed hlast).bind (fun _ _ h => h) ?_
    intro _ d' hres
    obtain ⟨rfl, hd'⟩ := hres
    rw [expect_first? (by omega)]
    refine ⟨hd', ?_⟩
    have hone : d.store.gather g.blockSize [last] = (d.store.bytes last).take g.blockSize :=
      List.append_nil _
    rw [hsplit, Option.toList_some, Store.gather_append, hone, List.take_append,
      List.take_of_length_le (by rw [hgather, hfull]; omega), hgather, hfull, List.take_take]
      at hcontents
    have hmin : min (contents.length - contents.length / g.blockSize * g.blockSize) g.blockSize
        = contents.length % g.blockSize := by omega
    rw [hmin] at hcontents
    exact hcontents

end Tail
end Place
end BlockFS
