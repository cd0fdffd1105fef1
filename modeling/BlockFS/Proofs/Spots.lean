/-
The directory that an operation works in, as part of a sound layout.

What an operation looks up in the block of the directory agrees with what the tree has
under the name.  `Moves` and `Stays` are the two ways in which an operation can leave the
spot: with the tree that the operation is to make, or with the one that was there.
-/
import BlockFS.Proofs.Contents
import BlockFS.Proofs.Kept

namespace BlockFS

/-! ## Names in a directory -/

namespace Layout

variable {name : String} {es before after : List (String × Layout)} {t : Layout}

theorem entriesOf_cons (e : String × Layout) (es : List (String × Layout)) :
    entriesOf (e :: es) = ⟨e.1, e.2.block⟩ :: entriesOf es := rfl

theorem entriesOf_append (es fs : List (String × Layout)) :
    entriesOf (es ++ fs) = entriesOf es ++ entriesOf fs := List.map_append

theorem find?_entriesOf (name : String) (es : List (String × Layout)) :
    (⟨entriesOf es⟩ : Directory).find? name = (splitAt? name es).map fun p => ⟨name, p.2.1.block⟩ := by
  induction es with
  | nil => rfl
  | cons e es ih =>
    rw [Directory.find?, entriesOf_cons, splitAt?]
    by_cases he : e.1 = name
    · rw [if_pos he, List.find?_cons_of_pos (by simpa using he), ← he]
      rfl
    · rw [if_neg he, List.find?_cons_of_neg (by simpa using he)]
      refine Eq.trans ih ?_
      cases splitAt? name es <;> rfl

theorem contains_entriesOf (name : String) (es : List (String × Layout)) :
    (⟨entriesOf es⟩ : Directory).contains name = (splitAt? name es).isSome := by
  rw [Directory.contains, find?_entriesOf, Option.isSome_map]

theorem erase_entriesOf (h : splitAt? name es = some (before, t, after)) :
    (⟨entriesOf es⟩ : Directory).erase name = ⟨entriesOf (before ++ after)⟩ := by
  obtain ⟨rfl, hbefore⟩ := eq_append_of_splitAt? h
  have hnone : ∀ e ∈ entriesOf before, ¬ (e.name == name) = true := by
    intro e he
    obtain ⟨x, hx, rfl⟩ := List.mem_map.1 he
    simpa using hbefore x hx
  rw [Directory.erase, entriesOf_append, entriesOf_append, entriesOf_cons,
    List.eraseP_append_right _ hnone, List.eraseP_cons_of_pos (by simp)]

theorem splitAt?_treesOf (name : String) (es : List (String × Layout)) :
    splitAt? name (treesOf es) =
      (splitAt? name es).map fun p => (treesOf p.1, p.2.1.tree, treesOf p.2.2) := by
  rw [treesOf_eq_map, splitAt?_map]
  simp only [treesOf_eq_map]

theorem length_treesOf (es : List (String × Layout)) : (treesOf es).length = es.length := by
  rw [treesOf_eq_map, List.length_map]

end Layout

namespace Place

variable {name : String} {es before after : List (String × Layout)} {t : Layout}

theorem lookup_of_none (h : splitAt? name es = none) :
    lookup ⟨Layout.entriesOf es⟩ name = throw .notFound := by
  unfold lookup
  rw [Layout.find?_entriesOf, h]
  rfl

theorem lookup_of_some (h : splitAt? name es = some (before, t, after)) :
    lookup ⟨Layout.entriesOf es⟩ name = pure ⟨name, t.block⟩ := by
  unfold lookup
  rw [Layout.find?_entriesOf, h]
  rfl

end Place

/-! ## Spots of a sound layout -/

namespace Spot

variable {g : Geometry} {s : Store} {z : Spot}

theorem block_mem_whole {b : BlockNumber} (hb : b ∈ z.here.blocks) : b ∈ z.whole.blocks :=
  Layout.mem_blocks_fill.2 (.inr hb)

theorem inUse (h : z.whole.Sound g s) {b : BlockNumber} (hb : b ∈ z.here.blocks) : s.InUse b :=
  h.inUse b (block_mem_whole hb)

theorem inUse_block (h : z.whole.Sound g s) : s.InUse z.block := inUse h List.mem_cons_self

theorem nodup (h : z.whole.Sound g s) : z.here.blocks.Nodup :=
  (List.nodup_append.1 ((Layout.blocks_fill z.above z.here).nodup_iff.1 h.nodup)).2.1

theorem directory (h : z.whole.Sound g s) :
    s.metadata? z.block = some (.directory ⟨Layout.entriesOf z.entries⟩) ∧
      g.Admits (.directory ⟨Layout.entriesOf z.entries⟩) ∧ ∀ e ∈ z.entries, e.2.Stored g s := by
  cases (h.stored.of_fill : z.here.Stored g s) with
  | directory hb hd hes => exact ⟨hb, hd, hes⟩

theorem not_root (h : z.whole.Sound g s) {b : BlockNumber}
    (hb : b ∈ Layout.blocksOf z.entries) : b ≠ rootBlock := by
  intro heq
  subst heq
  have hparts := List.nodup_append.1 ((Layout.blocks_fill z.above z.here).nodup_iff.1 h.nodup)
  have hroot : rootBlock ∈ z.above.flatMap Layout.Frame.blocks ∨ rootBlock = z.block := by
    rw [← h.root]
    exact Layout.block_fill_mem z.above z.here
  rcases hroot with hroot | hroot
  · exact hparts.2.2 _ hroot _ (List.mem_cons_of_mem z.block hb) rfl
  · exact (List.nodup_cons.1 hparts.2.1).1 (hroot ▸ hb)

theorem stored_of_changes {s' : Store} {new : List BlockNumber} (h : z.whole.Sound g s)
    (hc : s.Changes s' new z.block []) : ∀ e ∈ z.entries, e.2.Stored g s' := by
  intro e he
  refine ((directory h).2.2 e he).frame fun b hb => ?_
  have hin := Layout.blocks_subset_of_mem he hb
  refine hc.bytes b (inUse h (List.mem_cons_of_mem _ hin)) ?_
  intro heq
  subst heq
  exact (List.nodup_cons.1 (nodup h)).1 hin

/-! ## How an operation leaves a spot -/

/-- The tree has become what `r` says and is laid out as at `z'`, in the block where it was. -/
structure Moves (g : Geometry) (z z' : Spot) (r : Except Error Cursor) (d d' : Device) : Prop where
  block : z'.block = z.block
  result : r = .ok z'.cursor
  kept : Kept g d d' z.whole z'.whole

/-- Everything is as it was, because of `r` or because a call was made to fail. -/
def Stays (g : Geometry) (z : Spot) (r : Except Error Cursor) (e : Error) (d d' : Device) : Prop :=
  Kept g d d' z.whole z.whole ∧
    (r = .error e ∨ d.Interrupts .read e ∨ d.Interrupts .write e)

end Spot
end BlockFS
