/-
Every operation, at a spot of a sound layout.

The lemmas on single operations are put in one form.  A result is what `Cursor.step` says.
An error is what `Cursor.step` says or comes from a read or a write that was made to fail,
and then the layout is kept; or it comes from a release that was made to fail, and then the
operation had been carried out.
-/
import BlockFS.Proofs.Operations.Append
import BlockFS.Proofs.Operations.Entries

namespace BlockFS

def Operation.frees : Operation → Bool
  | removeDirectory _ => true
  | removeFile _ => true
  | append _ _ => true
  | _ => false

namespace Spot

/-- How everything is laid out once an operation has been carried out, given the free blocks
in their order. -/
def laidOut (g : Geometry) (z : Spot) (free : List BlockNumber) : Operation → Layout
  | .makeDirectory name => (Place.added z name (fun b => .directory b []) free).whole
  | .createFile name => (Place.added z name (fun b => .file b [] []) free).whole
  | .removeDirectory name | .removeFile name => (Place.removed z name).whole
  | .append name data => (Place.appended g z name data free).whole
  | .enter _ | .list | .stat _ | .read _ _ => z.whole

/-- The answer and the spot afterwards are as `r` says, in the layout `l`. -/
def Succeeds (g : Geometry) (z : Spot) (l : Layout) (r : Except Error (Reply × Cursor))
    (d : Device) (a : Answer × Place) (d' : Device) : Prop :=
  ∃ z' : Spot, a.2 = ⟨g, z'.block⟩ ∧ z'.whole = l ∧ r = .ok (a.1.reply, z'.cursor) ∧
    Kept g d d' z.whole z'.whole

/-- Nothing has been done, as `r` says or because a read or a write was made to fail; or what
`r` says has been done but for freeing blocks. -/
def Fails (g : Geometry) (z : Spot) (r : Except Error (Reply × Cursor)) (frees : Bool)
    (d : Device) (e : Error) (d' : Device) : Prop :=
  Kept g d d' z.whole z.whole ∧ (r = .error e ∨ d.Interrupts .read e ∨ d.Interrupts .write e) ∨
    frees = true ∧ d.Interrupts .release e ∧ ∃ (reply : Reply) (z' : Spot),
      z'.block = z.block ∧ r = .ok (reply, z'.cursor) ∧ Kept g d d' z.whole z'.whole

end Spot

namespace Operation

variable {g : Geometry} {d : Device} {z : Spot}

theorem ends_done {act : Action Unit} {z' : Spot} {r : Except Error Cursor} {frees : Bool}
    (h : Ends (act d) (fun _ d' => z.Moves g z' r d d')
      (fun e d' => z.Stays g r e d d' ∨
        frees = true ∧ d.Interrupts .release e ∧ z.Moves g z' r d d')) :
    Ends ((act >>= fun _ => pure (.done, ⟨g, z.block⟩)) d)
      (z.Succeeds g z'.whole (r.map fun z' => (.done, z')) d)
      (z.Fails g (r.map fun z' => (.done, z')) frees d) := by
  refine h.bind ?_ ?_
  · intro e d' herr
    rcases herr with ⟨hkept, hcause⟩ | ⟨hfrees, he, hblock, rfl, hkept⟩
    · refine .inl ⟨hkept, hcause.imp_left ?_⟩
      intro heq
      subst heq
      rfl
    · exact .inr ⟨hfrees, he, .done, z', hblock, rfl, hkept⟩
  · intro _ d' hres
    obtain ⟨hblock, rfl, hkept⟩ := hres
    exact ⟨z', by rw [hblock], rfl, rfl, hkept⟩

theorem ends_answer {α : Type} {act : Action α} (answer : α → Answer) {r : Except Error Reply}
    (hs : d.store.WellFormed) (hz : z.whole.Sound g d.store)
    (h : Ends (act d) (fun a d' => d.Untouched d' ∧ r = .ok (answer a).reply)
      (fun e d' => d.Untouched d' ∧ (r = .error e ∨ d.Interrupts .read e))) :
    Ends ((act >>= fun a => pure (answer a, ⟨g, z.block⟩)) d)
      (z.Succeeds g z.whole (r.map fun reply => (reply, z.cursor)) d)
      (z.Fails g (r.map fun reply => (reply, z.cursor)) false d) := by
  refine h.bind ?_ ?_
  · intro e d' herr
    obtain ⟨hd, hcause⟩ := herr
    refine .inl ⟨.untouched hs hz hd, ?_⟩
    rcases hcause with rfl | he
    · exact .inl rfl
    · exact .inr (.inl he)
  · intro a d' hres
    obtain ⟨hd, rfl⟩ := hres
    exact ⟨z, rfl, rfl, rfl, .untouched hs hz hd⟩

theorem room_sub (hs : d.store.Serves g) (hz : z.whole.Sound g d.store) :
    d.store.freeCount + z.whole.blocks.length - z.cursor.whole.blockCount g =
      d.store.freeCount := by
  rw [z.whole_cursor, hz.stored.blockCount_tree hs hz.inUse]
  omega

theorem ends_perform (hs : d.store.Serves g) (hz : z.whole.Sound g d.store) (op : Operation) :
    Ends (op.perform ⟨g, z.block⟩ d)
      (z.Succeeds g (z.laidOut g d.store.freeBlocks op)
        (z.cursor.step g (d.store.freeCount + z.whole.blocks.length) op) d)
      (z.Fails g (z.cursor.step g (d.store.freeCount + z.whole.blocks.length) op) op.frees d) := by
  have hroom := room_sub hs hz
  cases op with
  | enter name =>
    refine (Place.ends_enter hs hz name).bind ?_ ?_
    · intro e d' herr
      obtain ⟨hd, hcause⟩ := herr
      refine .inl ⟨.untouched hs.wellFormed hz hd, ?_⟩
      rcases hcause with hr | he
      · left
        rw [Cursor.step, hr]
        rfl
      · exact .inr (.inl he)
    · intro p d' hres
      obtain ⟨hd, z', rfl, hwhole, hr⟩ := hres
      refine ⟨z', rfl, hwhole, ?_, ?_⟩
      · rw [Cursor.step, hr]
        rfl
      · rw [hwhole]
        exact .untouched hs.wellFormed hz hd
  | list =>
    exact ends_answer .listing (r := .ok (.listing z.cursor.list)) hs.wellFormed hz
      ((Place.ends_list hs hz).imp (fun names d' h => ⟨h.1, h.2 ▸ rfl⟩)
        (fun e d' h => ⟨h.1, .inr h.2⟩))
  | stat name =>
    exact ends_answer .stats hs.wellFormed hz
      ((Place.ends_stat hs hz name).imp (fun _ _ h => ⟨h.1, h.2.1⟩) fun _ _ h => h)
  | read name max =>
    have hstep : z.cursor.step g (d.store.freeCount + z.whole.blocks.length) (.read name max) =
        ((z.cursor.read name max).map Reply.contents).map fun reply => (reply, z.cursor) := by
      rw [Cursor.step]
      cases z.cursor.read name max <;> rfl
    rw [hstep]
    refine ends_answer .contents hs.wellFormed hz
      ((Place.ends_read hs hz name max).imp ?_ ?_)
    · intro data d' hres
      obtain ⟨hd, hr⟩ := hres
      exact ⟨hd, by rw [hr]; rfl⟩
    · intro e d' herr
      obtain ⟨hd, hcause⟩ := herr
      refine ⟨hd, hcause.imp_left fun hr => ?_⟩
      rw [hr]
      rfl
  | makeDirectory name =>
    rw [Cursor.step, hroom]
    exact ends_done ((Place.ends_createEntry hs hz (Place.leaf_directory g) name).imp
      (fun _ _ h => h) fun _ _ h => .inl h)
  | createFile name =>
    rw [Cursor.step, hroom]
    exact ends_done ((Place.ends_createEntry hs hz (Place.leaf_file hs) name).imp
      (fun _ _ h => h) fun _ _ h => .inl h)
  | removeDirectory name =>
    exact ends_done ((Place.ends_removeDirectory hs hz name).imp (fun _ _ h => h)
      fun _ _ h => h.imp_right fun h => ⟨rfl, h⟩)
  | removeFile name =>
    exact ends_done ((Place.ends_removeFile hs hz name).imp (fun _ _ h => h)
      fun _ _ h => h.imp_right fun h => ⟨rfl, h⟩)
  | append name data =>
    rw [Cursor.step, hroom]
    exact ends_done ((Place.ends_append hs hz name data).imp (fun _ _ h => h)
      fun _ _ h => h.imp_right fun h => ⟨rfl, h.2⟩)

end Operation
end BlockFS
