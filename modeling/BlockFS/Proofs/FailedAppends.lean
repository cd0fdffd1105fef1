/-
What an append that fails has done to the file.

Either nothing, and then it may be made again, or everything.  The latter is so if it fails to
free the block whose contents it has moved: the inode has been rewritten by then.  Whoever makes
such an append again appends the data twice.
-/
import BlockFS.Proofs.Atomicity
import BlockFS.Proofs.Noninterference

namespace BlockFS
namespace Session

variable {u v : Session} {z : Spot} {name : String} {data : Bytes}

/-! ## What is seen of a file -/

/-- A file is seen to have its inode in this block and these contents. -/
structure ShowsFile (u : Session) (name : String) (b : BlockNumber) (contents : Bytes) : Prop where
  stat : (u.run (.stat name)).1 = .ok (.stats
    ⟨name, b, false, contents.length, u.place.geometry.blocksFor contents.length⟩)
  read : ∀ max, (u.run (.read name max)).1 = .ok (.contents (contents.take max))

/-- What does not depend on the room is answered alike at one spot. -/
theorem At.run_healed_eq (h : u.At z) (h' : v.At z)
    (hgeometry : v.place.geometry = u.place.geometry) {op : Operation}
    (hop : ∀ room room', (z.cursor.perform u.place.geometry room op).1 =
      (z.cursor.perform u.place.geometry room' op).1) :
    (v.healed.run op).1 = (u.healed.run op).1 := by
  refine h.healed.outcome_eq h'.healed ?_
  have hreply := (h'.healed.shows.run rfl op).1
  rw [show v.healed.place.geometry = u.place.geometry from hgeometry] at hreply
  rw [hreply, (h.healed.shows.run rfl op).1]
  exact hop _ _

theorem At.showsFile (h : u.At z) {before after : List (String × Layout)} {b : BlockNumber}
    {bs : List BlockNumber} {contents : Bytes}
    (hsplit : splitAt? name z.entries = some (before, .file b bs contents, after)) :
    u.healed.ShowsFile name b contents := by
  have hcursor := Place.splitAt?_cursor hsplit
  refine ⟨?_, fun max => ?_⟩
  · have hreply := (h.healed.shows.run rfl (.stat name)).1
    simp only [Cursor.perform, Cursor.step, Cursor.stat, hcursor, Layout.tree, Except.map] at hreply
    obtain ⟨a, hrun, ha⟩ := Cursor.exists_of_map hreply
    rw [hrun]
    refine congrArg Except.ok (Answer.eq_of_reply ha fun st st' hst hst' => ?_)
    subst hst'
    obtain ⟨name', hname, hblock⟩ := h.healed.block_of_stats hrun
    cases hname
    cases hst
    rw [hsplit] at hblock
    exact (Option.some.inj hblock).symm
  · have hreply := (h.healed.shows.run rfl (.read name max)).1
    simp only [Cursor.perform, Cursor.step, Cursor.read, hcursor, Layout.tree, Except.map] at hreply
    obtain ⟨a, hrun, ha⟩ := Cursor.exists_of_map hreply
    rw [Nat.min_comm, ← List.take_eq_take_min] at ha
    rw [hrun]
    refine congrArg Except.ok (Answer.eq_of_reply ha fun st st' hst _ => ?_)
    cases hst

theorem ShowsFile.unique {b b' : BlockNumber} {contents contents' : Bytes}
    (h : u.ShowsFile name b contents) (h' : u.ShowsFile name b' contents') :
    b' = b ∧ contents' = contents := by
  have hstat := h'.stat.symm.trans h.stat
  have hread := (h'.read contents.length).symm.trans (h.read contents.length)
  simp only [Except.ok.injEq, Answer.stats.injEq, Stats.mk.injEq, Answer.contents.injEq,
    true_and] at hstat hread
  refine ⟨hstat.1, ?_⟩
  rwa [List.take_length, ← hstat.2.1, List.take_length] at hread

/-! ## What has become of an append -/

theorem exists_file_of_cursor {before after : List (String × Tree)} {contents : Bytes}
    (h : splitAt? name z.cursor.entries = some (before, .file contents, after)) :
    ∃ before' b bs after', splitAt? name z.entries = some (before', .file b bs contents, after') := by
  change splitAt? name (Layout.treesOf z.entries) = _ at h
  rw [Layout.splitAt?_treesOf] at h
  obtain ⟨⟨before', t, after'⟩, hsplit, heq⟩ := Option.map_eq_some_iff.1 h
  cases t with
  | file b bs contents' =>
    cases heq
    exact ⟨before', b, bs, after', hsplit⟩
  | directory b es => cases heq

theorem exists_splitAt?_appended {before after : List (String × Layout)} {b : BlockNumber}
    {bs : List BlockNumber} {contents : Bytes}
    (h : splitAt? name z.entries = some (before, .file b bs contents, after)) (g : Geometry)
    (data : Bytes) (free : List BlockNumber) :
    ∃ bs', splitAt? name (Place.appended g z name data free).entries =
      some (before, .file b bs' (contents ++ data), after) := by
  rw [Place.appended, h]
  by_cases hdata : data = []
  · subst hdata
    exact ⟨bs, by simp only [if_pos, h, List.append_nil]⟩
  · simp only [if_neg hdata]
    exact ⟨_, splitAt?_append (eq_append_of_splitAt? h).2 _ _⟩

/-- At the spot where the data have been appended, that is what is seen. -/
theorem At.exists_showsFile (h : u.At z) {free : List BlockNumber}
    {before after : List (String × Tree)} {contents : Bytes}
    (hsplit : splitAt? name z.cursor.entries = some (before, .file contents, after))
    (hv : v.At (Place.appended u.place.geometry z name data free)) :
    ∃ b, u.healed.ShowsFile name b contents ∧ v.healed.ShowsFile name b (contents ++ data) := by
  obtain ⟨before', b, bs, after', hfile⟩ := exists_file_of_cursor hsplit
  obtain ⟨bs', hfile'⟩ := exists_splitAt?_appended hfile u.place.geometry data free
  exact ⟨b, h.showsFile hfile, hv.showsFile hfile'⟩

/-- An append has been carried out if it does not fail, and also if it fails to free a block.  Any
other that fails has done nothing. -/
theorem At.run_append (h : u.At z) (name : String) (data : Bytes) :
    let v := (u.run (.append name data)).2
    let z' := Place.appended u.place.geometry z name data u.device.store.freeBlocks
    match (u.run (.append name data)).1 with
    | .ok _ =>
      z.cursor.append u.place.geometry u.device.store.freeCount name data = .ok z'.cursor ∧
        u.Leads z v z'
    | .error e => ¬ e.IsRelease ∧ u.Leads z v z ∨
      e.IsRelease ∧ z.cursor.ReplacesTail u.place.geometry name data ∧ u.Leads z v z' := by
  have happend := Place.ends_append h.serves h.sound name data
  rw [← h.place_eq] at happend
  -- All that the operation does besides is to answer.
  have hend := happend.bind (f := fun _ => (pure (.done, u.place) : Action (Answer × Place)))
    (Q := fun a d => a.2 = u.place ∧ z.Moves u.place.geometry _ _ u.device d)
    (fun _ _ herr => herr) fun _ _ hres => ⟨rfl, hres⟩
  have hleads : ∀ {z' : Spot} {d : Device}, z'.block = z.block →
      Kept u.place.geometry u.device d z.whole z'.whole → u.Leads z ⟨d, u.place⟩ z' := by
    intro z' d hblock hkept
    rw [h.place_eq, ← hblock]
    exact h.leads hkept
  rw [run_eq]
  cases hp : Operation.perform u.place (.append name data) u.device with
  | ok x d =>
    obtain ⟨a, p⟩ := x
    obtain ⟨hplace, hmoves⟩ := hend.of_eq_ok hp
    obtain rfl : p = u.place := hplace
    exact ⟨hmoves.result, hleads hmoves.block hmoves.kept⟩
  | error e d =>
    rcases hend.of_eq_error hp with ⟨hkept, hcause⟩ | ⟨htail, he, hmoves⟩
    · refine .inl ⟨?_, hleads rfl hkept⟩
      rcases hcause with hr | he | he
      · intro he
        obtain ⟨b, rfl⟩ := he
        exact Cursor.append_ne_io hr
      · exact not_isRelease_of_interrupts he (by decide)
      · exact not_isRelease_of_interrupts he (by decide)
    · obtain ⟨b, k, rfl, -⟩ := he
      exact .inr ⟨⟨b, rfl⟩, htail, hleads hmoves.block hmoves.kept⟩

/-- After an append all data are there.  After one that fails, other than to free a block, the file
looks as before.  If it fails to free a block, the last block of the file had been filled in part,
and all data are there. -/
theorem showsFile_run_append (h : u.Intact) (name : String) (data : Bytes) :
    let v := (u.run (.append name data)).2
    match (u.run (.append name data)).1 with
    | .ok _ => ∃ b contents,
      u.healed.ShowsFile name b contents ∧ v.healed.ShowsFile name b (contents ++ data)
    | .error e =>
      (¬ e.IsRelease → (v.healed.run (.stat name)).1 = (u.healed.run (.stat name)).1 ∧
        ∀ max, (v.healed.run (.read name max)).1 = (u.healed.run (.read name max)).1) ∧
      (e.IsRelease → data ≠ [] ∧ ∃ b contents,
        contents.length % u.place.geometry.blockSize ≠ 0 ∧
          u.healed.ShowsFile name b contents ∧ v.healed.ShowsFile name b (contents ++ data)) := by
  intro v
  obtain ⟨z, hz⟩ := h.exists_spot
  have hend := hz.run_append name data
  cases hrun : (u.run (.append name data)).1 with
  | ok a =>
    rw [hrun] at hend
    obtain ⟨happend, hleads⟩ := hend
    obtain ⟨before, contents, after, hsplit⟩ := Cursor.exists_file_of_append happend
    obtain ⟨b, hbefore, hafter⟩ := hz.exists_showsFile hsplit hleads.spot
    exact ⟨b, contents, hbefore, hafter⟩
  | error e =>
    rw [hrun] at hend
    rcases hend with ⟨hne, hleads⟩ | ⟨he, ⟨hdata, htail⟩, hleads⟩
    · have hsame : ∀ {op : Operation}, (∀ room room', (z.cursor.perform u.place.geometry room op).1 =
          (z.cursor.perform u.place.geometry room' op).1) →
          (v.healed.run op).1 = (u.healed.run op).1 :=
        hz.run_healed_eq hleads.spot hleads.geometry
      exact ⟨fun _ => ⟨hsame fun _ _ => rfl, fun _ => hsame fun _ _ => rfl⟩,
        fun he => (hne he).elim⟩
    · refine ⟨fun hne => (hne he).elim, fun _ => ⟨hdata, ?_⟩⟩
      obtain ⟨before, contents, after, hsplit, hpart⟩ := htail
      obtain ⟨b, hbefore, hafter⟩ := hz.exists_showsFile hsplit hleads.spot
      exact ⟨b, contents, hpart, hbefore, hafter⟩

/-- Two bytes make a block here, and no block can be freed.  The only file has one byte. -/
def halfFilled (s : Store) : Session :=
  let u : Session := ⟨Device.ofStore s, ⟨⟨2, 1, 1, 1, 2⟩, rootBlock⟩⟩
  let v := (u.runAll [.createFile "f", .append "f" [97]]).2
  ⟨v.device.withPlan (.after none none (some 0)), v.place⟩

theorem intact_halfFilled {s : Store} (h : Store.inMemory 22 5 = .ok s) :
    (halfFilled s).Intact := by
  have hserves : s.Serves ⟨2, 1, 1, 1, 2⟩ :=
    Store.serves_of_inMemory h (by decide) (by decide) (by decide) (by decide)
  have hroot := at_of_root (d := Device.ofStore s) hserves (Store.root_of_inMemory h hserves)
  obtain ⟨z, hleads⟩ := hroot.exists_runAll [.createFile "f", .append "f" [97]]
  exact (hleads.spot.withPlan _).intact

/-- The second byte goes into a new block together with the first, whose block stays in use. -/
theorem showsFile_run_append_release : ∃ s, Store.inMemory 22 5 = .ok s ∧ (halfFilled s).Intact ∧
    ((halfFilled s).run (.append "f" [98])).1 = .error (.io (.interrupted .release 3)) ∧
      ∃ b contents, (halfFilled s).healed.ShowsFile "f" b contents ∧
        ((halfFilled s).run (.append "f" [98])).2.healed.ShowsFile "f" b (contents ++ [98]) := by
  obtain ⟨s, hs, hrun⟩ : ∃ s, Store.inMemory 22 5 = .ok s ∧
      ((halfFilled s).run (.append "f" [98])).1 = .error (.io (.interrupted .release 3)) :=
    ⟨_, rfl, by decide +kernel⟩
  have hshows := showsFile_run_append (intact_halfFilled hs) "f" [98]
  rw [hrun] at hshows
  obtain ⟨-, b, contents, -, hbefore, hafter⟩ := hshows.2 ⟨3, rfl⟩
  exact ⟨s, hs, intact_halfFilled hs, hrun, b, contents, hbefore, hafter⟩

/-- An append fails, and the file is longer than before. -/
theorem run_append_error_longer : ∃ s, Store.inMemory 22 5 = .ok s ∧ (halfFilled s).Intact ∧
    ((halfFilled s).run (.append "f" [98])).1 = .error (.io (.interrupted .release 3)) ∧
      ((halfFilled s).healed.run (.stat "f")).1 = .ok (.stats ⟨"f", 2, false, 1, 1⟩) ∧
      (((halfFilled s).run (.append "f" [98])).2.healed.run (.stat "f")).1 =
        .ok (.stats ⟨"f", 2, false, 2, 1⟩) ∧
      ((halfFilled s).healed.run (.read "f" 2)).1 = .ok (.contents [97]) ∧
      (((halfFilled s).run (.append "f" [98])).2.healed.run (.read "f" 2)).1 =
        .ok (.contents [97, 98]) := by
  obtain ⟨s, hs, hruns⟩ : ∃ s, Store.inMemory 22 5 = .ok s ∧
      ((halfFilled s).run (.append "f" [98])).1 = .error (.io (.interrupted .release 3)) ∧
      ((halfFilled s).healed.run (.stat "f")).1 = .ok (.stats ⟨"f", 2, false, 1, 1⟩) ∧
      (((halfFilled s).run (.append "f" [98])).2.healed.run (.stat "f")).1 =
        .ok (.stats ⟨"f", 2, false, 2, 1⟩) ∧
      ((halfFilled s).healed.run (.read "f" 2)).1 = .ok (.contents [97]) ∧
      (((halfFilled s).run (.append "f" [98])).2.healed.run (.read "f" 2)).1 =
        .ok (.contents [97, 98]) := ⟨_, rfl, by decide +kernel⟩
  exact ⟨s, hs, intact_halfFilled hs, hruns⟩

/-! ## Making it again -/

/-- An append that has failed to free a block and is made again, with no call failing any more,
appends its data a second time. -/
theorem run_append_again (h : u.Intact) {e : Error} {a : Answer}
    (hrun : (u.run (.append name data)).1 = .error e) (he : e.IsRelease)
    (hagain : ((u.run (.append name data)).2.healed.run (.append name data)).1 = .ok a) :
    ∃ b contents, u.healed.ShowsFile name b contents ∧
      ((u.run (.append name data)).2.healed.run (.append name data)).2.healed.ShowsFile name b
        (contents ++ data ++ data) := by
  obtain ⟨z, hz⟩ := h.exists_spot
  have hfirst := hz.run_append name data
  rw [hrun] at hfirst
  obtain ⟨-, ⟨-, before, contents, after, hsplit, -⟩, hleads⟩ :=
    hfirst.resolve_left fun hne => hne.1 he
  have hsecond := hleads.spot.healed.run_append name data
  rw [hagain] at hsecond
  obtain ⟨before', contents', after', hsplit'⟩ := Cursor.exists_file_of_append hsecond.1
  obtain ⟨b, hbefore, hbetween⟩ := hz.exists_showsFile hsplit hleads.spot
  obtain ⟨b', hbetween', hafter⟩ :=
    hleads.spot.healed.exists_showsFile hsplit' hsecond.2.spot
  -- The file that the second append finds is the one that the first has left.
  obtain ⟨rfl, rfl⟩ := hbetween.unique hbetween'
  exact ⟨b', contents, hbefore, hafter⟩

end Session
end BlockFS
