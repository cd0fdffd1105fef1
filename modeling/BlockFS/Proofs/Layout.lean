/-
Trees together with the blocks that they are kept in.

A layout is a tree whose nodes name their blocks.  `Stored` says that a store holds a
layout, `Sound` that moreover the layout starts at the root and has every block for itself.
Whether a layout is stored depends on the bytes of its own blocks only (`Stored.frame`), and
a store holds one layout at most (`Sound.unique`).
-/
import BlockFS.Proofs.Occupancy
import BlockFS.Proofs.Tree

namespace BlockFS

/-! ## What a metadata block refers to -/

namespace Geometry

/-- The blocks that a metadata block refers to: the targets of its entries, or the data
blocks that the size of the file calls for. -/
def references (g : Geometry) : Block → List BlockNumber
  | .directory d => d.entries.map Entry.target
  | .file i => i.dataBlocks.take (g.blocksFor i.fileSize.toNat)

/-- A metadata block keeps to the limits. -/
def Admits (g : Geometry) : Block → Prop
  | .directory d =>
    d.size ≤ g.maxDirEntries ∧ (∀ e ∈ d.entries, e.name.utf8ByteSize ≤ g.maxNameLength) ∧
      (d.entries.map Entry.name).Nodup
  | .file i =>
    i.fileSize.toNat ≤ g.maxFileSize ∧
      g.blocksFor i.fileSize.toNat ≤ i.dataBlocks.length ∧ i.dataBlocks.length ≤ g.maxDataBlocks

end Geometry

namespace Store

def metadata? (s : Store) (b : BlockNumber) : Option Block := (Block.decode (s.bytes b)).toOption

theorem metadata?_eq_some_iff {s : Store} {b : BlockNumber} {block : Block} :
    s.metadata? b = some block ↔ Block.decode (s.bytes b) = .ok block := by
  unfold metadata?
  cases Block.decode (s.bytes b) <;> simp [Except.toOption]

theorem metadata?_congr {s t : Store} {b : BlockNumber} (h : t.bytes b = s.bytes b) :
    t.metadata? b = s.metadata? b := by
  unfold metadata?
  rw [h]

/-- The block of what is called `name` in the directory in block `dir`. -/
def target? (s : Store) (dir : BlockNumber) (name : String) : Option BlockNumber :=
  match s.metadata? dir with
  | some (.directory d) => (d.find? name).map Entry.target
  | _ => none

def inode? (s : Store) (b : BlockNumber) : Option Inode :=
  match s.metadata? b with
  | some (.file i) => some i
  | _ => none

/-- The inode of the file called `name` in the directory in block `dir`. -/
def fileAt? (s : Store) (dir : BlockNumber) (name : String) : Option Inode :=
  (s.target? dir name).bind s.inode?

/-- The first `blockSize` bytes of each of some blocks. -/
def gather (s : Store) (blockSize : Nat) (bs : List BlockNumber) : Bytes :=
  bs.flatMap fun b => (s.bytes b).take blockSize

theorem gather_congr {s t : Store} {blockSize : Nat} {bs : List BlockNumber}
    (h : ∀ b ∈ bs, t.bytes b = s.bytes b) : t.gather blockSize bs = s.gather blockSize bs := by
  unfold gather
  rw [List.flatMap_congr fun b hb => by rw [h b hb]]

end Store

/-! ## Layouts -/

/-- A tree whose nodes name their blocks: the one that holds the metadata of a file or
directory, and those that hold the contents of a file. -/
inductive Layout where
  | file (block : BlockNumber) (blocks : List BlockNumber) (contents : Bytes)
  | directory (block : BlockNumber) (entries : List (String × Layout))

namespace Layout

def block : Layout → BlockNumber
  | file b _ _ => b
  | directory b _ => b

mutual

def blocks : Layout → List BlockNumber
  | file b bs _ => b :: bs
  | directory b es => b :: blocksOf es

def blocksOf : List (String × Layout) → List BlockNumber
  | [] => []
  | (_, t) :: es => t.blocks ++ blocksOf es

end

mutual

def tree : Layout → Tree
  | file _ _ contents => .file contents
  | directory _ es => .directory (treesOf es)

def treesOf : List (String × Layout) → List (String × Tree)
  | [] => []
  | (name, t) :: es => (name, t.tree) :: treesOf es

end

theorem blocksOf_eq_flatMap (es : List (String × Layout)) :
    blocksOf es = es.flatMap fun e => e.2.blocks := by
  induction es with
  | nil => rfl
  | cons e es ih => rw [List.flatMap_cons, ← ih]; rfl

theorem treesOf_eq_map (es : List (String × Layout)) :
    treesOf es = es.map fun e => (e.1, e.2.tree) := by
  induction es with
  | nil => rfl
  | cons e es ih => rw [List.map_cons, ← ih]; rfl

@[simp] theorem blocksOf_append (es fs : List (String × Layout)) :
    blocksOf (es ++ fs) = blocksOf es ++ blocksOf fs := by
  simp only [blocksOf_eq_flatMap, List.flatMap_append]

@[simp] theorem treesOf_append (es fs : List (String × Layout)) :
    treesOf (es ++ fs) = treesOf es ++ treesOf fs := by
  simp only [treesOf_eq_map, List.map_append]

def otherBlocks (t : Layout) : List BlockNumber := t.blocks.tail

theorem blocks_eq_cons (t : Layout) : t.blocks = t.block :: t.otherBlocks := by
  cases t with
  | file b bs contents => rfl
  | directory b es => rfl

theorem block_mem_blocks (t : Layout) : t.block ∈ t.blocks := by
  rw [blocks_eq_cons]
  exact List.mem_cons_self

theorem blocks_subset_of_mem {es : List (String × Layout)} {e : String × Layout} (he : e ∈ es) :
    e.2.blocks ⊆ blocksOf es := by
  rw [blocksOf_eq_flatMap]
  exact fun b hb => List.mem_flatMap.2 ⟨e, he, hb⟩

/-- The entries of a directory as its block records them. -/
def entriesOf (es : List (String × Layout)) : List Entry := es.map fun e => ⟨e.1, e.2.block⟩

theorem map_name_entriesOf (es : List (String × Layout)) :
    (entriesOf es).map Entry.name = es.map (·.1) := by
  rw [entriesOf, List.map_map]
  rfl

theorem map_target_entriesOf (es : List (String × Layout)) :
    (entriesOf es).map Entry.target = es.map fun e => e.2.block := by
  rw [entriesOf, List.map_map]
  rfl

/-! ## Layouts below directories -/

/-- A directory with one entry left open. -/
structure Frame where
  block : BlockNumber
  before : List (String × Layout)
  name : String
  after : List (String × Layout)

namespace Frame

def close (f : Frame) (t : Layout) : Layout :=
  .directory f.block (f.before ++ (f.name, t) :: f.after)

def blocks (f : Frame) : List BlockNumber := f.block :: (blocksOf f.before ++ blocksOf f.after)

def level (f : Frame) : Level := ⟨treesOf f.before, f.name, treesOf f.after⟩

theorem blocks_close (f : Frame) (t : Layout) : (f.close t).blocks.Perm (f.blocks ++ t.blocks) := by
  show (f.block :: blocksOf (f.before ++ (f.name, t) :: f.after)).Perm _
  rw [blocksOf_append]
  show (f.block :: (blocksOf f.before ++ (t.blocks ++ blocksOf f.after))).Perm
    (f.block :: ((blocksOf f.before ++ blocksOf f.after) ++ t.blocks))
  refine List.Perm.cons _ ?_
  rw [List.append_assoc]
  exact List.Perm.append_left _ List.perm_append_comm

end Frame

/-- A layout below directories, the nearest first. -/
def fill : List Frame → Layout → Layout
  | [], t => t
  | f :: fs, t => fill fs (f.close t)

theorem blocks_fill (fs : List Frame) (t : Layout) :
    (fill fs t).blocks.Perm (fs.flatMap Frame.blocks ++ t.blocks) := by
  induction fs generalizing t with
  | nil => exact List.Perm.refl _
  | cons f fs ih =>
    refine (ih (f.close t)).trans ?_
    refine (List.Perm.append_left _ (f.blocks_close t)).trans ?_
    rw [List.flatMap_cons, ← List.append_assoc]
    exact List.Perm.append_right _ List.perm_append_comm

theorem mem_blocks_fill {fs : List Frame} {t : Layout} {b : BlockNumber} :
    b ∈ (fill fs t).blocks ↔ b ∈ fs.flatMap Frame.blocks ∨ b ∈ t.blocks := by
  rw [(blocks_fill fs t).mem_iff, List.mem_append]

theorem tree_fill (fs : List Frame) (t : Layout) :
    (fill fs t).tree = Tree.fill (fs.map Frame.level) t.tree := by
  induction fs generalizing t with
  | nil => rfl
  | cons f fs ih =>
    rw [fill, ih, List.map_cons, Tree.fill]
    congr 1
    show Tree.directory (treesOf (f.before ++ (f.name, t) :: f.after)) = _
    rw [treesOf_append]
    rfl

theorem block_fill_congr (fs : List Frame) {t t' : Layout} (h : t'.block = t.block) :
    (fill fs t').block = (fill fs t).block := by
  induction fs generalizing t t' with
  | nil => exact h
  | cons f fs ih => exact ih rfl

theorem block_fill_mem (fs : List Frame) (t : Layout) :
    (fill fs t).block ∈ fs.flatMap Frame.blocks ∨ (fill fs t).block = t.block := by
  induction fs generalizing t with
  | nil => exact .inr rfl
  | cons f fs ih =>
    rw [List.flatMap_cons]
    rcases ih (f.close t) with h | h
    · exact .inl (List.mem_append_right _ h)
    · refine .inl (List.mem_append_left _ ?_)
      rw [fill, h]
      exact List.mem_cons_self

end Layout

/-! ## Layouts in a store -/

/-- A store holds a layout. -/
inductive Layout.Stored (g : Geometry) (s : Store) : Layout → Prop
  | file {b : BlockNumber} {i : Inode} {bs : List BlockNumber} {contents : Bytes}
      (hb : s.metadata? b = some (.file i)) (hi : g.Admits (.file i))
      (hbs : bs = g.references (.file i))
      (hcontents : contents = (s.gather g.blockSize bs).take i.fileSize.toNat) :
      Layout.Stored g s (.file b bs contents)
  | directory {b : BlockNumber} {es : List (String × Layout)}
      (hb : s.metadata? b = some (.directory ⟨entriesOf es⟩))
      (hd : g.Admits (.directory ⟨entriesOf es⟩)) (hes : ∀ e ∈ es, Layout.Stored g s e.2) :
      Layout.Stored g s (.directory b es)

namespace Layout

variable {g : Geometry} {s s' : Store}

theorem Stored.metadata {t : Layout} (h : t.Stored g s) :
    ∃ block, s.metadata? t.block = some block ∧ g.Admits block := by
  cases h with
  | file hb hi hbs hcontents => exact ⟨_, hb, hi⟩
  | directory hb hd hes => exact ⟨_, hb, hd⟩

theorem Stored.frame {t : Layout} (h : t.Stored g s)
    (hsame : ∀ b ∈ t.blocks, s'.bytes b = s.bytes b) : t.Stored g s' := by
  induction h with
  | @file b i bs contents hb hi hbs hcontents =>
    refine .file (i := i) ?_ hi hbs ?_
    · rw [Store.metadata?_congr (hsame b List.mem_cons_self), hb]
    · rw [hcontents, Store.gather_congr fun a ha => hsame a (List.mem_cons_of_mem b ha)]
  | @directory b es hb hd hes ih =>
    refine .directory ?_ hd fun e he => ih e he fun a ha => ?_
    · rw [Store.metadata?_congr (hsame b List.mem_cons_self), hb]
    · exact hsame a (List.mem_cons_of_mem b (blocks_subset_of_mem he ha))

theorem Stored.unique {t u : Layout} (ht : t.Stored g s) (hu : u.Stored g s)
    (hblock : u.block = t.block) : u = t := by
  induction ht generalizing u with
  | @file b i bs contents hb hi hbs hcontents =>
    cases hu with
    | @file c j cs contents' hc hj hcs hcontents' =>
      obtain rfl : c = b := hblock
      rw [hb] at hc
      cases hc
      rw [hcontents, hcontents', hcs, hbs]
    | @directory c fs hc hd hfs =>
      obtain rfl : c = b := hblock
      rw [hb] at hc
      cases hc
  | @directory b es hb hd hes ih =>
    cases hu with
    | @file c j cs contents' hc hj hcs hcontents' =>
      obtain rfl : c = b := hblock
      rw [hb] at hc
      cases hc
    | @directory c fs hc hd' hfs =>
      obtain rfl : c = b := hblock
      rw [hb] at hc
      have hentries : entriesOf es = entriesOf fs := by
        injection hc with h
        injection h with h
        injection h
      congr 1
      -- The entries agree in names and blocks, and below each block by induction.
      clear hc hd' hb hd
      induction es generalizing fs with
      | nil => cases fs with
        | nil => rfl
        | cons f fs => cases hentries
      | cons e es ih' =>
        cases fs with
        | nil => cases hentries
        | cons f fs =>
          rw [entriesOf, entriesOf, List.map_cons, List.map_cons] at hentries
          obtain ⟨hhead, htail⟩ := List.cons.inj hentries
          have hname : e.1 = f.1 := congrArg Entry.name hhead
          have htree : f.2 = e.2 := ih e List.mem_cons_self (hfs f List.mem_cons_self)
            (congrArg Entry.target hhead).symm
          have htail' := ih' (fun x hx => hes x (List.mem_cons_of_mem e hx))
            (fun x hx => ih x (List.mem_cons_of_mem e hx))
            (fun x hx => hfs x (List.mem_cons_of_mem f hx)) htail
          rw [htail', show f = e from Prod.ext hname.symm htree]

theorem Stored.of_fill {fs : List Frame} {t : Layout} (h : (fill fs t).Stored g s) :
    t.Stored g s := by
  induction fs generalizing t with
  | nil => exact h
  | cons f fs ih =>
    cases ih (t := f.close t) h with
    | directory hb hd hes => exact hes _ (List.mem_append_right _ List.mem_cons_self)

/-- A part of a stored layout may be exchanged for another one in the same block. -/
theorem Stored.replace {fs : List Frame} {t t' : Layout} (h : (fill fs t).Stored g s)
    (hsame : ∀ b ∈ fs.flatMap Frame.blocks, s'.bytes b = s.bytes b) (hblock : t'.block = t.block)
    (ht' : t'.Stored g s') : (fill fs t').Stored g s' := by
  induction fs generalizing t t' with
  | nil => exact ht'
  | cons f fs ih =>
    rw [List.flatMap_cons] at hsame
    have hfill : (fill fs (f.close t)).Stored g s := h
    have hclose : (f.close t).Stored g s := hfill.of_fill
    refine ih (t := f.close t) h (fun b hb => hsame b (List.mem_append_right _ hb)) rfl ?_
    have hentries : entriesOf (f.before ++ (f.name, t') :: f.after) =
        entriesOf (f.before ++ (f.name, t) :: f.after) := by
      simp only [entriesOf, List.map_append, List.map_cons, hblock]
    cases hclose with
    | directory hb hd hes =>
      refine .directory ?_ (by rw [hentries]; exact hd) fun e he => ?_
      · have hbytes := hsame f.block (List.mem_append_left _ List.mem_cons_self)
        rw [hentries, Store.metadata?_congr hbytes, hb]
      · have hside : ∀ e ∈ f.before ++ f.after, e.2.Stored g s' := by
          intro e he
          refine (hes e ?_).frame fun b hb => ?_
          · rcases List.mem_append.1 he with he | he
            · exact List.mem_append_left _ he
            · exact List.mem_append_right _ (List.mem_cons_of_mem _ he)
          · have hmem := blocks_subset_of_mem he hb
            rw [blocksOf_append] at hmem
            exact hsame b (List.mem_append_left _ (List.mem_cons_of_mem f.block hmem))
        rcases List.mem_append.1 he with he | he
        · exact hside e (List.mem_append_left _ he)
        · rcases List.mem_cons.1 he with rfl | he
          · exact ht'
          · exact hside e (List.mem_append_right _ he)

/-! ## Sound layouts -/

/-- A store holds a layout from the root on, in blocks that are in use and belong to one
node each. -/
structure Sound (g : Geometry) (s : Store) (t : Layout) : Prop where
  root : t.block = rootBlock
  stored : t.Stored g s
  nodup : t.blocks.Nodup
  inUse : ∀ b ∈ t.blocks, s.InUse b

theorem Sound.unique {t u : Layout} (ht : t.Sound g s) (hu : u.Sound g s) : u = t :=
  ht.stored.unique hu.stored (hu.root.trans ht.root.symm)

theorem Sound.frame {t : Layout} (h : t.Sound g s)
    (hsame : ∀ b ∈ t.blocks, s'.bytes b = s.bytes b) (huse : ∀ b ∈ t.blocks, s'.InUse b) :
    t.Sound g s' :=
  ⟨h.root, h.stored.frame hsame, h.nodup, huse⟩

/-- A part of a sound layout may be exchanged for another one in the same block that takes
no block from the rest. -/
theorem Sound.replace {fs : List Frame} {t t' : Layout} (h : (fill fs t).Sound g s)
    (hblock : t'.block = t.block) (ht' : t'.Stored g s') (hnodup : t'.blocks.Nodup)
    (hrest : ∀ b ∈ t'.blocks, b ∉ fs.flatMap Frame.blocks)
    (hsame : ∀ b ∈ fs.flatMap Frame.blocks, s'.bytes b = s.bytes b)
    (huse : ∀ b ∈ fs.flatMap Frame.blocks, s'.InUse b) (huse' : ∀ b ∈ t'.blocks, s'.InUse b) :
    (fill fs t').Sound g s' where
  root := (block_fill_congr fs hblock).trans h.root
  stored := h.stored.replace hsame hblock ht'
  nodup := by
    have hold := (blocks_fill fs t).nodup_iff.1 h.nodup
    refine (blocks_fill fs t').nodup_iff.2 (List.nodup_append.2 ⟨(List.nodup_append.1 hold).1,
      hnodup, ?_⟩)
    intro a ha b hb heq
    subst heq
    exact hrest a hb ha
  inUse := fun b hb => (mem_blocks_fill.1 hb).elim (huse b) (huse' b)

end Layout

/-! ## A layout seen from one of its directories -/

/-- A directory of a layout, with the directories above it. -/
structure Spot where
  above : List Layout.Frame
  block : BlockNumber
  entries : List (String × Layout)

namespace Spot

def here (z : Spot) : Layout := .directory z.block z.entries

def whole (z : Spot) : Layout := Layout.fill z.above z.here

def cursor (z : Spot) : Cursor := ⟨z.above.map Layout.Frame.level, Layout.treesOf z.entries⟩

theorem whole_cursor (z : Spot) : z.cursor.whole = z.whole.tree := by
  rw [whole, Layout.tree_fill]
  rfl

end Spot
end BlockFS
