/-
What the check accepts, told without a walk.

The blocks of metadata that can be reached from the root through entries of directories are
a set, and what they refer to is a collection.  `Consistent` is a condition on the two
alone.  A sound layout is consistent because its nodes are what can be reached
(`Sound.reaches_iff`); in a consistent store a walk finds nothing wrong, in whatever
order it goes (`ends_walk_of_consistent`).
-/
import BlockFS.Proofs.Check.Walk
import Mathlib.Data.List.Nodup

namespace BlockFS

/-! ## Reachable blocks -/

namespace Store

/-- A block is the root, or the target of an entry in a block that is reached. -/
inductive Reaches (s : Store) : BlockNumber → Prop
  | root : Reaches s rootBlock
  | entry {b : BlockNumber} {dir : Directory} {e : Entry} (hb : Reaches s b)
      (hdir : s.metadata? b = some (.directory dir)) (he : e ∈ dir.entries) : Reaches s e.target

/-- What the metadata in a block refer to; without metadata it is nothing. -/
def references (s : Store) (g : Geometry) (b : BlockNumber) : List BlockNumber :=
  match s.metadata? b with
  | some block => g.references block
  | none => []

open Classical in
noncomputable def reachable (s : Store) : List BlockNumber :=
  ((List.range (2 ^ 32)).map UInt32.ofNat).filter (s.Reaches ·)

/-- The root, and all that the reachable blocks refer to, as often as they do. -/
noncomputable def collection (s : Store) (g : Geometry) : List BlockNumber :=
  rootBlock :: s.reachable.flatMap (s.references g)

def holdsDirectory (s : Store) (b : BlockNumber) : Bool := (s.metadata? b).any (·.isDirectory)

def holdsFile (s : Store) (b : BlockNumber) : Bool := (s.metadata? b).any (! ·.isDirectory)

/-- Reachable blocks hold metadata that keep to the limits, and nothing is referred to that
is not in use, or twice. -/
structure Consistent (s : Store) (g : Geometry) : Prop where
  decodes : ∀ b, s.Reaches b → ∃ block, s.metadata? b = some block
  admits : ∀ b block, s.Reaches b → s.metadata? b = some block → g.Admits block
  nodup : (s.collection g).Nodup
  occupied : ∀ b ∈ s.collection g,
    b ≠ noBlock ∧ b.toNat < s.blockCount ∧ s.isAllocated b = true

variable {s : Store} {g : Geometry}

theorem mem_reachable {b : BlockNumber} : b ∈ s.reachable ↔ s.Reaches b := by
  simp only [reachable, List.mem_filter, decide_eq_true_eq]
  refine ⟨fun h => h.2, fun h => ⟨List.mem_map.2 ⟨b.toNat, ?_, UInt32.ofNat_toNat⟩, h⟩⟩
  exact List.mem_range.2 b.toNat_lt

theorem nodup_reachable (s : Store) : s.reachable.Nodup := by
  refine List.Nodup.filter _ ((List.nodup_range).map_on fun j hj k hk h => ?_)
  have hj : (UInt32.ofNat j).toNat = j := UInt32.toNat_ofNat_of_lt' (List.mem_range.1 hj)
  have hk : (UInt32.ofNat k).toNat = k := UInt32.toNat_ofNat_of_lt' (List.mem_range.1 hk)
  rw [← hj, ← hk, h]

theorem references_eq {b : BlockNumber} {block : Block} (h : s.metadata? b = some block) :
    s.references g b = g.references block := by
  unfold references
  rw [h]

namespace Consistent

variable {a b x : BlockNumber}

theorem mem_collection (hb : s.Reaches b) (hx : x ∈ s.references g b) : x ∈ s.collection g :=
  List.mem_cons_of_mem _ (List.mem_flatMap.2 ⟨b, mem_reachable.2 hb, hx⟩)

theorem inUse (h : s.Consistent g) (hx : x ∈ s.collection g) : s.InUse x :=
  ⟨(h.occupied x hx).1, (h.occupied x hx).2.2⟩

theorem root_not_mem (h : s.Consistent g) (hb : s.Reaches b) :
    rootBlock ∉ s.references g b := fun hmem =>
  (List.nodup_cons.1 h.nodup).1 (List.mem_flatMap.2 ⟨b, mem_reachable.2 hb, hmem⟩)

theorem nodup_references (h : s.Consistent g) (hb : s.Reaches b) : (s.references g b).Nodup :=
  (List.nodup_flatMap.1 (List.nodup_cons.1 h.nodup).2).1 b (mem_reachable.2 hb)

theorem disjoint (h : s.Consistent g) (ha : s.Reaches a) (hb : s.Reaches b) (hne : a ≠ b)
    (hx : x ∈ s.references g a) : x ∉ s.references g b := by
  have hpairs := (List.nodup_flatMap.1 (List.nodup_cons.1 h.nodup).2).2
  have : Std.Symm (Function.onFun List.Disjoint (s.references g)) := ⟨fun _ _ hd _ hx hy =>
    hd hy hx⟩
  have hdisj : List.Disjoint (s.references g a) (s.references g b) :=
    hpairs.forall (mem_reachable.2 ha) (mem_reachable.2 hb) hne
  exact fun hx' => hdisj hx hx'

end Consistent
end Store

/-! ## The nodes of a layout -/

namespace Layout

/-- The blocks that the topmost node refers to. -/
def references : Layout → List BlockNumber
  | file _ bs _ => bs
  | directory _ es => es.map fun e => e.2.block

theorem self_mem_nodes (t : Layout) : t ∈ t.nodes := by
  cases t with
  | file b bs contents => exact List.mem_cons_self
  | directory b es => exact List.mem_cons_self

theorem mem_nodesOf {es : List (String × Layout)} {n : Layout} :
    n ∈ nodesOf es ↔ ∃ e ∈ es, n ∈ e.2.nodes := by
  rw [nodesOf_eq_flatMap, List.mem_flatMap]
  constructor
  · intro h
    obtain ⟨t, ht, hn⟩ := h
    obtain ⟨e, he, rfl⟩ := List.mem_map.1 ht
    exact ⟨e, he, hn⟩
  · intro h
    obtain ⟨e, he, hn⟩ := h
    exact ⟨e.2, List.mem_map_of_mem he, hn⟩

mutual

theorem map_block_nodes_sublist (t : Layout) : (t.nodes.map block).Sublist t.blocks := by
  cases t with
  | file b bs contents => exact (List.nil_sublist bs).cons_cons b
  | directory b es => exact (map_block_nodesOf_sublist es).cons_cons b

theorem map_block_nodesOf_sublist (es : List (String × Layout)) :
    ((nodesOf es).map block).Sublist (blocksOf es) := by
  cases es with
  | nil => exact List.Sublist.refl _
  | cons e es =>
    show ((e.2.nodes ++ nodesOf es).map block).Sublist (e.2.blocks ++ blocksOf es)
    rw [List.map_append]
    exact (map_block_nodes_sublist e.2).append (map_block_nodesOf_sublist es)

end

mutual

/-- All blocks but the topmost one are referred to by a node. -/
theorem otherBlocks_perm (t : Layout) : t.otherBlocks.Perm (t.nodes.flatMap references) := by
  cases t with
  | file b bs contents =>
    rw [nodes, List.flatMap_singleton]
    exact List.Perm.refl _
  | directory b es => exact blocksOf_perm es

theorem blocksOf_perm (es : List (String × Layout)) :
    (blocksOf es).Perm ((es.map fun e => e.2.block) ++ (nodesOf es).flatMap references) := by
  cases es with
  | nil => exact List.Perm.refl _
  | cons e es =>
    show (e.2.blocks ++ blocksOf es).Perm
      (e.2.block :: ((es.map fun e => e.2.block) ++ (e.2.nodes ++ nodesOf es).flatMap references))
    rw [blocks_eq_cons, List.flatMap_append]
    refine List.Perm.cons _ (((otherBlocks_perm e.2).append (blocksOf_perm es)).trans ?_)
    exact List.perm_append_comm_assoc ..

end

mutual

theorem length_blocks (t : Layout) :
    t.blocks.length = t.nodes.length + (t.nodes.map (·.dataBlocks.length)).sum := by
  cases t with
  | file b bs contents =>
    show bs.length + 1 = 1 + (bs.length + 0)
    omega
  | directory b es =>
    show (blocksOf es).length + 1 =
      ((nodesOf es).length + 1) + (0 + ((nodesOf es).map (·.dataBlocks.length)).sum)
    rw [length_blocksOf es]
    omega

theorem length_blocksOf (es : List (String × Layout)) :
    (blocksOf es).length = (nodesOf es).length + ((nodesOf es).map (·.dataBlocks.length)).sum := by
  cases es with
  | nil => rfl
  | cons e es =>
    show (e.2.blocks ++ blocksOf es).length = (e.2.nodes ++ nodesOf es).length +
      ((e.2.nodes ++ nodesOf es).map (·.dataBlocks.length)).sum
    rw [List.length_append, List.length_append, List.map_append, List.sum_append,
      length_blocks e.2, length_blocksOf es]
    omega

end

variable {g : Geometry} {s : Store}

theorem Stored.of_mem_nodes {t n : Layout} (h : t.Stored g s) (hn : n ∈ t.nodes) :
    n.Stored g s := by
  induction h with
  | file hb hi hbs hcontents =>
    rw [List.mem_singleton.1 hn]
    exact .file hb hi hbs hcontents
  | directory hb hd hes ih =>
    rcases List.mem_cons.1 hn with rfl | hn
    · exact .directory hb hd hes
    · obtain ⟨e, he, hn⟩ := mem_nodesOf.1 hn
      exact ih e he hn

theorem Stored.references_eq {t : Layout} (h : t.Stored g s) :
    s.references g t.block = t.references := by
  cases h with
  | file hb hi hbs hcontents => exact (Store.references_eq hb).trans hbs.symm
  | directory hb hd hes =>
    rw [block, Store.references_eq hb, Geometry.references, map_target_entriesOf]
    rfl

theorem Stored.holdsDirectory_eq {t : Layout} (h : t.Stored g s) :
    s.holdsDirectory t.block = t.isDirectory := by
  cases h with
  | file hb hi hbs hcontents => rw [Store.holdsDirectory, block, hb]; rfl
  | directory hb hd hes => rw [Store.holdsDirectory, block, hb]; rfl

theorem Stored.holdsFile_eq {t : Layout} (h : t.Stored g s) :
    s.holdsFile t.block = ! t.isDirectory := by
  cases h with
  | file hb hi hbs hcontents => rw [Store.holdsFile, block, hb]; rfl
  | directory hb hd hes => rw [Store.holdsFile, block, hb]; rfl

theorem Stored.exists_node {t n : Layout} (h : t.Stored g s) (hn : n ∈ t.nodes) {dir : Directory}
    {e : Entry} (hdir : s.metadata? n.block = some (.directory dir)) (he : e ∈ dir.entries) :
    ∃ m ∈ t.nodes, m.block = e.target := by
  induction h with
  | file hb hi hbs hcontents =>
    rw [List.mem_singleton.1 hn, block, hb] at hdir
    cases hdir
  | @directory b es hb hd hes ih =>
    rcases List.mem_cons.1 hn with rfl | hn
    · rw [block, hb] at hdir
      cases hdir
      obtain ⟨x, hx, rfl⟩ := List.mem_map.1 he
      exact ⟨x.2, List.mem_cons_of_mem _ (mem_nodesOf.2 ⟨x, hx, self_mem_nodes x.2⟩), rfl⟩
    · obtain ⟨x, hx, hn⟩ := mem_nodesOf.1 hn
      obtain ⟨m, hm, hblock⟩ := ih x hx hn
      exact ⟨m, List.mem_cons_of_mem _ (mem_nodesOf.2 ⟨x, hx, hm⟩), hblock⟩

theorem Stored.reaches_node {t n : Layout} (h : t.Stored g s) (ht : s.Reaches t.block)
    (hn : n ∈ t.nodes) : s.Reaches n.block := by
  induction h with
  | file hb hi hbs hcontents =>
    rw [List.mem_singleton.1 hn]
    exact ht
  | @directory b es hb hd hes ih =>
    rcases List.mem_cons.1 hn with rfl | hn
    · exact ht
    · obtain ⟨x, hx, hn⟩ := mem_nodesOf.1 hn
      have hentry : (⟨x.1, x.2.block⟩ : Entry) ∈ entriesOf es := List.mem_map_of_mem hx
      exact ih x hx (ht.entry hb hentry) hn

namespace Sound

variable {l : Layout}

theorem reaches_iff (h : l.Sound g s) {b : BlockNumber} :
    s.Reaches b ↔ b ∈ l.nodes.map block := by
  constructor
  · intro hb
    induction hb with
    | root => exact List.mem_map.2 ⟨l, self_mem_nodes l, h.root⟩
    | entry hb hdir he ih =>
      obtain ⟨n, hn, rfl⟩ := List.mem_map.1 ih
      obtain ⟨m, hm, hblock⟩ := h.stored.exists_node hn hdir he
      exact List.mem_map.2 ⟨m, hm, hblock⟩
  · intro hb
    obtain ⟨n, hn, rfl⟩ := List.mem_map.1 hb
    exact h.stored.reaches_node (h.root ▸ .root) hn

theorem reachable_perm (h : l.Sound g s) : s.reachable.Perm (l.nodes.map block) := by
  refine (List.perm_ext_iff_of_nodup s.nodup_reachable ?_).2 fun b => ?_
  · exact h.nodup.sublist (map_block_nodes_sublist l)
  · rw [Store.mem_reachable, h.reaches_iff]

theorem collection_perm (h : l.Sound g s) : (s.collection g).Perm l.blocks := by
  rw [Store.collection, blocks_eq_cons, h.root]
  refine List.Perm.cons _ ((h.reachable_perm.flatMap_right _).trans ?_)
  rw [List.flatMap_map, List.flatMap_congr fun n hn => (h.stored.of_mem_nodes hn).references_eq]
  exact (otherBlocks_perm l).symm

theorem consistent (h : l.Sound g s) : s.Consistent g where
  decodes := by
    intro b hb
    obtain ⟨n, hn, rfl⟩ := List.mem_map.1 (h.reaches_iff.1 hb)
    obtain ⟨block, hblock, -⟩ := (h.stored.of_mem_nodes hn).metadata
    exact ⟨block, hblock⟩
  admits := by
    intro b block hb hblock
    obtain ⟨n, hn, rfl⟩ := List.mem_map.1 (h.reaches_iff.1 hb)
    obtain ⟨block', hblock', hadmits⟩ := (h.stored.of_mem_nodes hn).metadata
    rw [hblock] at hblock'
    cases hblock'
    exact hadmits
  nodup := h.collection_perm.nodup_iff.2 h.nodup
  occupied := by
    intro b hb
    have huse := h.inUse b (h.collection_perm.mem_iff.1 hb)
    exact ⟨huse.1, huse.lt, huse.2⟩

/-! ## Counting -/

theorem report_directories (h : l.Sound g s) :
    (l.report s).directories = s.reachable.countP s.holdsDirectory := by
  rw [h.reachable_perm.countP_eq, List.countP_map]
  exact List.countP_congr fun n hn => by
    rw [Function.comp, (h.stored.of_mem_nodes hn).holdsDirectory_eq]

theorem report_files (h : l.Sound g s) :
    (l.report s).files = s.reachable.countP s.holdsFile := by
  rw [h.reachable_perm.countP_eq, List.countP_map]
  exact List.countP_congr fun n hn => by
    rw [Function.comp, (h.stored.of_mem_nodes hn).holdsFile_eq]

theorem report_dataBlocks (h : l.Sound g s) :
    (l.report s).dataBlocks =
      ((s.reachable.filter s.holdsFile).flatMap (s.references g)).length := by
  have hperm := (h.reachable_perm.filter s.holdsFile).flatMap_right (s.references g)
  rw [hperm.length_eq, List.filter_map, List.flatMap_map, List.length_flatMap]
  show (l.nodes.map (·.dataBlocks.length)).sum = _
  have hnodes : ∀ n ∈ l.nodes, n.Stored g s := fun n hn => h.stored.of_mem_nodes hn
  generalize l.nodes = ns at hnodes
  induction ns with
  | nil => rfl
  | cons n ns ih =>
    obtain ⟨hn, hns⟩ := List.forall_mem_cons.1 hnodes
    rw [List.map_cons, List.sum_cons, ih hns, List.filter_cons, Function.comp, hn.holdsFile_eq]
    cases n with
    | file b bs contents =>
      have hfile : (! (file b bs contents).isDirectory) = true := rfl
      rw [if_pos hfile, List.map_cons, List.sum_cons, hn.references_eq]
      rfl
    | directory b es => exact Nat.zero_add _

theorem report_sum (h : l.Sound g s) :
    (l.report s).directories + (l.report s).files + (l.report s).dataBlocks =
      (s.collection g).length := by
  have hcount : l.nodes.countP (·.isDirectory) + l.nodes.countP (! ·.isDirectory)
      = l.nodes.length := by
    rw [List.length_eq_countP_add_countP isDirectory]
    simp only [Bool.not_eq_true, Bool.decide_eq_false]
  rw [h.collection_perm.length_eq]
  show l.nodes.countP (·.isDirectory) + l.nodes.countP (! ·.isDirectory) +
    (l.nodes.map (·.dataBlocks.length)).sum = _
  rw [hcount]
  exact l.length_blocks.symm

end Sound
end Layout

/-! ## A walk over a consistent store -/

namespace Check

/-- Where a walk has got to: the blocks that it has looked at and those on its stack differ
from each other, and what is claimed is the root and what the former refer to. -/
structure Underway (g : Geometry) (s : Store) (c : Claims) (seen stack : List BlockNumber) :
    Prop where
  nodup : (seen ++ stack).Nodup
  reaches : ∀ b ∈ seen ++ stack, s.Reaches b
  adds : Claims.Adds (.none s.bitmap.size) c (rootBlock :: seen.flatMap (s.references g))
  claimed : ∀ b ∈ seen ++ stack, b ∈ rootBlock :: seen.flatMap (s.references g)

section Walk

variable {g : Geometry} {s : Store} {d : Device} {c : Claims} {t : Tally}
  {seen rest : List BlockNumber} {b : BlockNumber}

namespace Underway

theorem reaches_head (hw : Underway g s c seen (b :: rest)) : s.Reaches b :=
  hw.reaches b (List.mem_append_right _ List.mem_cons_self)

theorem claimable (hc : s.Consistent g) (hw : Underway g s c seen (b :: rest)) :
    Claims.Claimable s c (s.references g b) := by
  have hb := hw.reaches_head
  refine ⟨hc.nodup_references hb, fun x hx => ⟨?_, ?_⟩⟩
  · exact hc.inUse (Store.Consistent.mem_collection hb hx)
  · refine (hw.adds.has_eq_false_iff x).2 ⟨Claims.has_none .., fun hmem => ?_⟩
    rcases List.mem_cons.1 hmem with rfl | hmem
    · exact hc.root_not_mem hb hx
    · obtain ⟨a, ha, hxa⟩ := List.mem_flatMap.1 hmem
      have hne : a ≠ b := by
        intro heq
        subst heq
        exact (List.nodup_append.1 hw.nodup).2.2 a ha a List.mem_cons_self rfl
      exact hc.disjoint (hw.reaches a (List.mem_append_left _ ha)) hb hne hxa hx

/-- The children of a block have not been on the stack, for they were not claimed. -/
theorem visit (hg : 0 < g.blockSize) (hw : Underway g s c seen (b :: rest)) {block : Block}
    (hblock : s.metadata? b = some block) {v : Visit}
    (hv : Check.visit g s.bitmap c t b block = .ok v) :
    Underway g s v.claims (seen ++ [b]) (v.children ++ rest) := by
  obtain ⟨-, hclaims, hkind⟩ := (visit_eq_ok_iff hg).1 hv
  obtain ⟨⟨hnodup, hfree⟩, hadds⟩ := Claims.claimable_of_claimAll hclaims
  have hrefs : s.references g b = g.references block := Store.references_eq hblock
  have hchildren : v.children.Nodup ∧ ∀ x ∈ v.children, x ∈ s.references g b ∧ s.Reaches x := by
    cases block with
    | directory dir =>
      rw [hkind.2, hrefs]
      refine ⟨List.nodup_reverse.2 hnodup, fun x hx => ⟨List.mem_reverse.1 hx, ?_⟩⟩
      obtain ⟨e, he, rfl⟩ := List.mem_map.1 (List.mem_reverse.1 hx)
      exact hw.reaches_head.entry hblock he
    | file i =>
      rw [hkind.2]
      exact ⟨List.nodup_nil, fun x hx => absurd hx List.not_mem_nil⟩
  have hnew : ∀ x ∈ v.children, x ∉ seen ++ b :: rest := by
    intro x hx hmem
    have hfree := (hfree x (hrefs ▸ (hchildren.2 x hx).1)).2
    exact ((hw.adds.has_eq_false_iff x).1 hfree).2 (hw.claimed x hmem)
  have hperm : (seen ++ [b] ++ (v.children ++ rest)).Perm (v.children ++ (seen ++ b :: rest)) := by
    rw [List.append_cons seen b rest]
    exact List.perm_append_comm_assoc ..
  have hseen : (seen ++ [b]).flatMap (s.references g)
      = seen.flatMap (s.references g) ++ g.references block := by
    rw [List.flatMap_append, List.flatMap_singleton, hrefs]
  refine ⟨hperm.nodup_iff.2 ?_, fun x hx => ?_, ?_, fun x hx => ?_⟩
  · refine List.nodup_append.2 ⟨hchildren.1, hw.nodup, ?_⟩
    intro x hx y hy heq
    subst heq
    exact hnew x hx hy
  · rcases List.mem_append.1 (hperm.mem_iff.1 hx) with hx | hx
    · exact (hchildren.2 x hx).2
    · exact hw.reaches x hx
  · rw [hseen]
    exact hw.adds.trans hadds
  · rw [hseen, ← List.cons_append]
    rcases List.mem_append.1 (hperm.mem_iff.1 hx) with hx | hx
    · exact List.mem_append_right _ (hrefs ▸ (hchildren.2 x hx).1)
    · exact List.mem_append_left _ (hw.claimed x hx)

end Underway

/-- A walk over a consistent store is stopped only by a failing read. -/
theorem ends_walk_of_consistent (hg : 0 < g.blockSize) (hs : s.WellFormed) (hc : s.Consistent g)
    (hd : d.store = s) {stack : List BlockNumber} (hw : Underway g s c seen stack) :
    Ends (walk g s.bitmap c t stack d) (fun _ _ => True)
      (fun fault _ => ∃ e, fault = .filesystem e ∧ d.Interrupts .read e) := by
  induction hn : c.left + stack.length using Nat.strongRecOn generalizing c t seen stack d with
  | ind n ih =>
    cases stack with
    | nil =>
      rw [walk]
      trivial
    | cons b rest =>
      have hb := hw.reaches_head
      have huse : s.InUse b := by
        refine hc.inUse ?_
        rcases List.mem_cons.1 (hw.claimed b (List.mem_append_right _ List.mem_cons_self)) with
          rfl | hmem
        · exact List.mem_cons_self
        · obtain ⟨a, ha, hx⟩ := List.mem_flatMap.1 hmem
          exact Store.Consistent.mem_collection (hw.reaches a (List.mem_append_left _ ha)) hx
      obtain ⟨block, hblock⟩ := hc.decodes b hb
      rw [walk_cons]
      refine (ends_read hs hd huse).bind ?_ ?_
      · intro fault d₁ hres
        rcases hres with hnone | he
        · rw [hblock] at hnone
          cases hnone
        · exact he
      · intro x d₁ hres
        obtain ⟨hx, hd₁⟩ := hres
        obtain rfl : block = x := Option.some.inj (hblock.symm.trans hx)
        have hsize : c.marks.size = s.blockCount := hw.adds.size.trans (Array.size_replicate ..)
        have hclaimable := hw.claimable hc
        rw [Store.references_eq hblock] at hclaimable
        obtain ⟨v, hv⟩ := exists_visit (t := t) hg hsize (hc.admits b block hb hblock) hclaimable
        have hmeasure := left_visit hv
        simp only [List.length_cons] at hn
        rw [hv]
        refine (ih _ (by simp only [List.length_append]; omega) (hd₁.store.trans hd)
          (hw.visit hg hblock hv) rfl).imp (fun _ _ h => h) ?_
        intro fault d' hres
        obtain ⟨e, hfault, he⟩ := hres
        exact ⟨e, hfault, he.of_plan hd₁.plan⟩

end Walk

theorem ends_run_of_consistent {g : Geometry} {d : Device} (hg : 0 < g.blockSize)
    (hs : d.store.WellFormed) (hc : d.store.Consistent g) :
    Ends (run g d) (fun _ _ => True)
      (fun fault _ => ∃ e, fault = .filesystem e ∧ d.Interrupts .read e) := by
  obtain ⟨c, hclaim, hadds⟩ := exists_claim_root d.store
  rw [run_eq, hclaim]
  have hw : Underway g d.store c [] [rootBlock] := by
    refine ⟨List.nodup_singleton _, fun b hb => ?_, hadds, fun b hb => hb⟩
    rw [List.mem_singleton.1 hb]
    exact .root
  exact (ends_walk_of_consistent hg hs hc rfl hw).bind (fun _ _ h => h) (fun _ _ _ => trivial)

/-- The check of a store accepts exactly the sound layouts. -/
theorem run_eq_ok_iff {g : Geometry} {s : Store} (hg : 0 < g.blockSize) (hs : s.WellFormed)
    {r : CheckReport} :
    (∃ d, run g (Device.ofStore s) = .ok r d) ↔ ∃ l : Layout, l.Sound g s ∧ r = l.report s := by
  have hend := ends_run (d := Device.ofStore s) hg hs
  constructor
  · intro h
    obtain ⟨d, hrun⟩ := h
    exact (hend.of_eq_ok hrun).2
  · intro h
    obtain ⟨l, hl, rfl⟩ := h
    cases hrun : run g (Device.ofStore s) with
    | error fault d =>
      obtain ⟨e, -, he⟩ := (ends_run_of_consistent (d := Device.ofStore s) hg hs
        hl.consistent).of_eq_error hrun
      exact absurd he Device.not_interrupts_ofStore
    | ok r d =>
      obtain ⟨-, l', hl', rfl⟩ := hend.of_eq_ok hrun
      obtain rfl : l' = l := hl.unique hl'
      exact ⟨d, rfl⟩

/-- On any bytes and any bitmap, the check accepts exactly what is consistent, and counts what
there is. -/
theorem run_ok_iff_consistent {g : Geometry} {s : Store} (hs : s.WellFormed)
    (hg : g.validate = .ok ()) :
    ((∃ r d, run g (Device.ofStore s) = .ok r d) ↔ s.Consistent g) ∧
      ∀ r d, run g (Device.ofStore s) = .ok r d →
        d.store = s ∧
        r.directories = s.reachable.countP s.holdsDirectory ∧
        r.files = s.reachable.countP s.holdsFile ∧
        r.dataBlocks = ((s.reachable.filter s.holdsFile).flatMap (s.references g)).length ∧
        r.directories + r.files + r.dataBlocks = (s.collection g).length ∧
        r.leaked.Pairwise (· < ·) ∧
        ∀ b, b ∈ r.leaked ↔ b ≠ noBlock ∧ s.isAllocated b = true ∧ b ∉ s.collection g := by
  have hsize : 0 < g.blockSize := ((Geometry.validate_eq_ok_iff g).1 hg).1
  have hend := ends_run (d := Device.ofStore s) hsize hs
  refine ⟨⟨?_, fun hc => ?_⟩, ?_⟩
  · intro h
    obtain ⟨r, d, hrun⟩ := h
    obtain ⟨-, l, hl, -⟩ := hend.of_eq_ok hrun
    exact hl.consistent
  · cases hrun : run g (Device.ofStore s) with
    | ok r d => exact ⟨r, d, rfl⟩
    | error fault d =>
      obtain ⟨e, -, he⟩ := (ends_run_of_consistent (d := Device.ofStore s) hsize hs hc).of_eq_error
        hrun
      exact absurd he Device.not_interrupts_ofStore
  · intro r d hrun
    obtain ⟨hd, l, hl, rfl⟩ := hend.of_eq_ok hrun
    have hl : l.Sound g s := hl
    refine ⟨hd.store, hl.report_directories, hl.report_files, hl.report_dataBlocks,
      hl.report_sum, Store.pairwise_leaks hs, fun b => ?_⟩
    show b ∈ s.leaks l.blocks ↔ _
    rw [Store.mem_leaks, hl.collection_perm.mem_iff, Store.InUse, and_assoc]

end Check

/-- A store of eight blocks.  The root refers to a directory with the entries `es`, in block 2, and
to a file of three bytes, in block 3 with its bytes in block 4.  Block 7 is in use although nothing
refers to it. -/
def Store.leaky (es : List Entry) : Store :=
  let blocks := [Block.directory ⟨[⟨"d", 2⟩, ⟨"f", 3⟩]⟩, .directory ⟨es⟩, .file ⟨3, [4]⟩]
  let bytes := blocks.flatMap fun block => Bytes.padTo 35 block.toBytes
  ⟨.memory, 35, ⟨#[true, true, true, true, true, false, false, true], [], rfl, rfl, rfl⟩,
    .ofByteArray ⟨⟨Bytes.padTo 280 (Bytes.padTo 35 [] ++ bytes ++ [97, 98, 99])⟩⟩⟩

theorem Store.wellFormed_leaky (es : List Entry) : (leaky es).WellFormed := by
  refine ⟨(by decide : 8 < 2 ^ 32), ?_⟩
  show 280 ≤ (Bytes.padTo 280 _).length
  rw [Bytes.padTo, List.length_append, List.length_replicate]
  omega

/-- Four bytes make a block of a file here, so that the one in the store fills its block in part. -/
def Session.leaky : Session := ⟨Device.ofStore (.leaky []), ⟨⟨4, 1, 2, 2, 8⟩, rootBlock⟩⟩

theorem Session.check_leaky : leaky.check.1 = .ok ⟨2, 1, 1, [7]⟩ := by decide +kernel

namespace Check

/-- A block that nothing refers to is leaked; a file that two directories refer to is refused. -/
theorem run_ok_iff_consistent_leaky :
    let g : Geometry := ⟨4, 1, 2, 2, 8⟩
    let s := Store.leaky []
    let s' := Store.leaky [⟨"g", 3⟩]
    g.validate = .ok () ∧ s.WellFormed ∧ s'.WellFormed ∧
      (∃ d, run g (Device.ofStore s) = .ok ⟨2, 1, 1, [7]⟩ d) ∧ s.Consistent g ∧
      s.reachable.countP s.holdsDirectory = 2 ∧ s.reachable.countP s.holdsFile = 1 ∧
      ((s.reachable.filter s.holdsFile).flatMap (s.references g)).length = 1 ∧
      (s.collection g).length = 4 ∧
      (∀ b, b ∈ [7] ↔ b ≠ noBlock ∧ s.isAllocated b = true ∧ b ∉ s.collection g) ∧
      (∃ d, run g (Device.ofStore s') = .error (.referencedTwice 3) d) ∧ ¬ s'.Consistent g := by
  intro g s s'
  have hg : g.validate = .ok () := by decide
  have hs : s.WellFormed := Store.wellFormed_leaky []
  have hs' : s'.WellFormed := Store.wellFormed_leaky [⟨"g", 3⟩]
  obtain ⟨d, hrun⟩ := Session.check_eq_ok_iff.1 Session.check_leaky
  have hrefused : (Session.check ⟨Device.ofStore s', ⟨g, rootBlock⟩⟩).1 =
      .error (.referencedTwice 3) := by decide +kernel
  obtain ⟨d', hrun'⟩ := Session.check_eq_error_iff.1 hrefused
  obtain ⟨hiff, hcounts⟩ := run_ok_iff_consistent hs hg
  obtain ⟨-, hdirectories, hfiles, hblocks, hsum, -, hleaked⟩ := hcounts _ d hrun
  refine ⟨hg, hs, hs', ⟨d, hrun⟩, hiff.1 ⟨_, d, hrun⟩, hdirectories.symm, hfiles.symm,
    hblocks.symm, hsum.symm, hleaked, ⟨d', hrun'⟩, fun hc => ?_⟩
  obtain ⟨r, d'', hok⟩ := (run_ok_iff_consistent hs' hg).1.2 hc
  cases hrun'.symm.trans hok

end Check
end BlockFS
