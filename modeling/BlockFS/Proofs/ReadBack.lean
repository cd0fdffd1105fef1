/-
Reading a whole filesystem back.

`Place.readTree` reads the tree below a block, contents included, by the actions that the
operations are made of.  A store with a sound layout gives the tree that is laid out and no
other one (`Sound.holds`).  The depth need not exceed the number of blocks, as every
directory on the way down has a block of its own.
-/
import BlockFS.Proofs.Contents

namespace BlockFS

def Place.readEntry (read : BlockNumber → Action Tree) (e : Entry) : Action (String × Tree) := do
  let t ← read e.target
  return (e.name, t)

/-- The tree below a block, if it is no deeper than `depth` levels. -/
def Place.readTree (g : Geometry) : (depth : Nat) → BlockNumber → Action Tree
  | 0, _ => throw .defect
  | depth + 1, b => do
    match ← Device.readBlock b with
    | .directory dir =>
      let entries ← dir.entries.mapM (readEntry (readTree g depth))
      return .directory entries
    | .file i =>
      let blocks ← ofExcept (g.fileBlocks b i)
      let contents ← readEach g.blockSize i.fileSize.toNat blocks
      return .file contents

/-- A tree and no other one is read back from a store none of whose calls fails. -/
def Store.Holds (s : Store) (g : Geometry) (t : Tree) : Prop :=
  ∀ t', (∃ depth d, Place.readTree g depth rootBlock (Device.ofStore s) = .ok t' d) ↔ t' = t

namespace Place

variable {g : Geometry} {s : Store} {d : Device} {depth : Nat}

def ReadsBack (g : Geometry) (depth : Nat) (t : Layout) (d : Device) : Prop :=
  Ends (readTree g depth t.block d) (fun tree d' => tree = t.tree ∧ d.Untouched d')
    (fun e _ => d.Interrupts .read e ∨ depth < t.blocks.length)

theorem ends_readEntries {es : List (String × Layout)}
    (hes : ∀ e ∈ es, ∀ d : Device, d.store = s → ReadsBack g depth e.2 d) (hd : d.store = s) :
    Ends ((Layout.entriesOf es).mapM (readEntry (readTree g depth)) d)
      (fun entries d' => entries = Layout.treesOf es ∧ d.Untouched d')
      (fun e _ => d.Interrupts .read e ∨ depth < (Layout.blocksOf es).length) := by
  induction es generalizing d with
  | nil => exact ⟨rfl, .refl d⟩
  | cons e es ih =>
    obtain ⟨he, hes⟩ := List.forall_mem_cons.1 hes
    have hlen : (Layout.blocksOf (e :: es)).length =
        e.2.blocks.length + (Layout.blocksOf es).length := List.length_append
    rw [Layout.entriesOf, List.map_cons, List.mapM_cons]
    have hfirst : Ends (readEntry (readTree g depth) ⟨e.1, e.2.block⟩ d)
        (fun p d' => p = (e.1, e.2.tree) ∧ d.Untouched d')
        (fun e' _ => d.Interrupts .read e' ∨ depth < e.2.blocks.length) := by
      refine (he d hd).bind (fun _ _ h => h) ?_
      intro _ d' hres
      obtain ⟨rfl, hd'⟩ := hres
      exact ⟨rfl, hd'⟩
    refine hfirst.bind (fun e' _ h => h.imp_right fun h => by omega) ?_
    intro _ d₁ hres
    obtain ⟨rfl, hd₁⟩ := hres
    refine (ih hes (hd₁.store.trans hd)).bind ?_ ?_
    · exact fun e' _ h => h.imp (fun h => h.of_plan hd₁.plan) fun h => by omega
    · intro _ d₂ hres
      obtain ⟨rfl, hd₂⟩ := hres
      exact ⟨rfl, hd₁.trans hd₂⟩

theorem readsBack {t : Layout} (hs : s.Serves g) (ht : t.Stored g s)
    (huse : ∀ b ∈ t.blocks, s.InUse b) (hd : d.store = s) : ReadsBack g depth t d := by
  induction ht generalizing depth d with
  | @file b i bs contents hb hi hbs hcontents =>
    cases depth with
    | zero => exact .inr (Nat.zero_lt_succ _)
    | succ depth =>
      have hin : ∀ a ∈ g.references (.file i), s.InUse a :=
        fun a ha => huse a (List.mem_cons_of_mem b (hbs ▸ ha))
      have hfile : g.fileBlocks b i = .ok (g.references (.file i)) :=
        Geometry.fileBlocks_of_inUse hs hi hin
      have hroom := hs.blockSize_le
      have hwf := hs.wellFormed
      have hself := huse b List.mem_cons_self
      rw [← hd] at hwf hself hb hin hroom
      refine (Device.ends_readBlock_of hwf hself hb).bind (fun e _ h => .inl h.1) ?_
      intro _ d₁ hres
      obtain ⟨rfl, hd₁⟩ := hres
      show Ends ((MonadExcept.ofExcept (g.fileBlocks b i) >>= fun blocks =>
        readEach g.blockSize i.fileSize.toNat blocks >>= fun contents =>
          pure (Tree.file contents)) d₁) _ _
      rw [hfile]
      rw [← hd₁.store] at hwf hin hroom
      refine Ends.bind (x := readEach g.blockSize i.fileSize.toNat (g.references (.file i)))
        (ends_readEach hwf hroom hin) (fun e _ h => .inl (h.1.of_plan hd₁.plan)) ?_
      intro _ d₂ hres
      obtain ⟨rfl, hd₂⟩ := hres
      refine ⟨?_, hd₁.trans hd₂⟩
      rw [Layout.tree, hcontents, hbs, hd₁.store, hd]
  | @directory b es hb hdir hes ih =>
    cases depth with
    | zero => exact .inr (Nat.zero_lt_succ _)
    | succ depth =>
      have hwf := hs.wellFormed
      have hself := huse b List.mem_cons_self
      rw [← hd] at hwf hself hb
      refine (Device.ends_readBlock_of hwf hself hb).bind (fun e _ h => .inl h.1) ?_
      intro _ d₁ hres
      obtain ⟨rfl, hd₁⟩ := hres
      have hall : ∀ e ∈ es, ∀ d : Device, d.store = s → ReadsBack g depth e.2 d :=
        fun e he d hd => ih e he
          (fun a ha => huse a (List.mem_cons_of_mem b (Layout.blocks_subset_of_mem he ha))) hd
      refine (ends_readEntries hall (hd₁.store.trans hd)).bind ?_ ?_
      · exact fun e _ h => h.imp (fun h => h.of_plan hd₁.plan) Nat.succ_lt_succ
      · intro _ d₂ hres
        obtain ⟨rfl, hd₂⟩ := hres
        exact ⟨rfl, hd₁.trans hd₂⟩

end Place

theorem Layout.Sound.holds {g : Geometry} {s : Store} {l : Layout} (hl : l.Sound g s)
    (hs : s.Serves g) : s.Holds g l.tree := by
  have hreads : ∀ depth, Place.ReadsBack g depth l (Device.ofStore s) := fun depth =>
    Place.readsBack hs hl.stored hl.inUse rfl
  intro t
  rw [← hl.root]
  constructor
  · intro h
    obtain ⟨depth, d, hread⟩ := h
    exact ((hreads depth).of_eq_ok hread).1
  · intro heq
    subst heq
    have hend := hreads l.blocks.length
    cases hread : Place.readTree g l.blocks.length l.block (Device.ofStore s) with
    | ok t d =>
      obtain ⟨rfl, -⟩ := Ends.of_eq_ok hend hread
      exact ⟨_, d, hread⟩
    | error e d =>
      rcases Ends.of_eq_error hend hread with he | hlt
      · exact absurd he Device.not_interrupts_ofStore
      · exact absurd hlt (Nat.lt_irrefl _)

end BlockFS
