/-
What a shell writes into files is text, and comes out as it was written.

A tree is legible if its files hold UTF-8 and its names are words.  All that a line can bring into
a tree are words of the line and texts made of them, so what is asked for on lines keeps a legible
tree legible (`Cursor.legible_perform`), whatever else stands on them.  A text is the same after it
has been decoded and encoded, so a file is printed as it is (`Session.Legible.cat`).
-/
import BlockFS.Proofs.FreeSpace
import BlockFS.Proofs.Shell.Lines

namespace BlockFS

/-! ## Legible trees -/

/-- Bytes that are UTF-8. -/
def IsText (bs : Bytes) : Prop := ∃ cs, Utf8.decode bs = .ok cs

theorem isText_encode (cs : List Char) : IsText (Utf8.encode cs) :=
  ⟨cs, Utf8.decode_eq_ok_iff.2 rfl⟩

theorem IsText.append {as bs : Bytes} (ha : IsText as) (hb : IsText bs) : IsText (as ++ bs) := by
  obtain ⟨cs, hcs⟩ := ha
  obtain ⟨ds, hds⟩ := hb
  rw [Utf8.decode_eq_ok_iff.1 hcs, Utf8.decode_eq_ok_iff.1 hds, ← Utf8.encode_append]
  exact isText_encode (cs ++ ds)

theorem IsText.encode_decodeLossy {bs : Bytes} (h : IsText bs) :
    Utf8.encode (Utf8.decodeLossy bs) = bs := by
  obtain ⟨cs, hcs⟩ := h
  rw [Utf8.decode_eq_ok_iff.1 hcs, Utf8.decodeLossy_encode]

/-- All files hold text, and all names are words. -/
inductive Tree.Legible : Tree → Prop where
  | file {contents : Bytes} (h : IsText contents) : Legible (.file contents)
  | directory {es : List (String × Tree)} (hnames : ∀ e ∈ es, IsWord e.1.toList)
    (htrees : ∀ e ∈ es, Legible e.2) : Legible (.directory es)

namespace Tree

variable {t : Tree} {es : List (String × Tree)} {vs : List Level}

theorem legible_directory :
    (directory es).Legible ↔ ∀ e ∈ es, IsWord e.1.toList ∧ e.2.Legible := by
  constructor
  · intro h
    cases h with
    | directory hnames htrees => exact fun e he => ⟨hnames e he, htrees e he⟩
  · exact fun h => .directory (fun e he => (h e he).1) fun e he => (h e he).2

theorem Legible.isText {contents : Bytes} (h : (Tree.file contents).Legible) :
    IsText contents := by
  cases h with
  | file h => exact h

/-- What stands at a place in a legible tree is legible, and anything legible may stand there. -/
theorem Legible.of_fill (h : (fill vs t).Legible) :
    t.Legible ∧ ∀ t' : Tree, t'.Legible → (fill vs t').Legible := by
  induction vs generalizing t with
  | nil => exact ⟨h, fun t' ht' => ht'⟩
  | cons v vs ih =>
    -- The nearest level is what stands at the place below the others.
    obtain ⟨hdir, hfill⟩ := ih h
    rw [legible_directory, List.forall_mem_append, List.forall_mem_cons] at hdir
    obtain ⟨hbefore, ⟨hname, ht⟩, hafter⟩ := hdir
    refine ⟨ht, fun t' ht' => hfill _ ?_⟩
    rw [legible_directory, List.forall_mem_append, List.forall_mem_cons]
    exact ⟨hbefore, ⟨hname, ht'⟩, hafter⟩

end Tree

/-! ## Operations on legible trees -/

/-- What an operation brings into a tree is legible. -/
def Operation.Legible : Operation → Prop
  | .makeDirectory name | .createFile name => IsWord name.toList
  | .append _ data => IsText data
  | _ => True

namespace Cursor

variable {g : Geometry} {room free : Nat} {z z' : Cursor} {name : String} {t : Tree} {data : Bytes}

theorem legible_entries (h : z.whole.Legible) : ∀ e ∈ z.entries, IsWord e.1.toList ∧ e.2.Legible :=
  Tree.legible_directory.1 (Tree.Legible.of_fill h).1

theorem legible_of_entries (h : z.whole.Legible) {es : List (String × Tree)}
    (hes : ∀ e ∈ es, IsWord e.1.toList ∧ e.2.Legible) :
    ({ z with entries := es } : Cursor).whole.Legible :=
  (Tree.Legible.of_fill h).2 _ (Tree.legible_directory.2 hes)

theorem legible_create (h : z.whole.Legible) (hname : IsWord name.toList) (ht : t.Legible)
    (hcreate : z.create g free name t = .ok z') : z'.whole.Legible := by
  unfold create at hcreate
  split at hcreate
  · cases hcreate
  split at hcreate
  · cases hcreate
  split at hcreate
  · cases hcreate
  split at hcreate
  · cases hcreate
  cases hcreate
  refine legible_of_entries h ?_
  rw [List.forall_mem_append, List.forall_mem_singleton]
  exact ⟨legible_entries h, hname, ht⟩

/-- What is found in the directory, and the entries around it. -/
theorem legible_splitAt? {before after : List (String × Tree)} (h : z.whole.Legible)
    (hsplit : splitAt? name z.entries = some (before, t, after)) :
    (∀ e ∈ before, IsWord e.1.toList ∧ e.2.Legible) ∧ (IsWord name.toList ∧ t.Legible) ∧
      ∀ e ∈ after, IsWord e.1.toList ∧ e.2.Legible := by
  have hentries := legible_entries h
  rwa [(eq_append_of_splitAt? hsplit).1, List.forall_mem_append, List.forall_mem_cons] at hentries

theorem legible_removeDirectory (h : z.whole.Legible)
    (hremove : z.removeDirectory name = .ok z') : z'.whole.Legible := by
  unfold removeDirectory at hremove
  split at hremove
  · cases hremove
  · cases hremove
  · cases hremove
  next before after hsplit =>
  cases hremove
  obtain ⟨hbefore, -, hafter⟩ := legible_splitAt? h hsplit
  exact legible_of_entries h (List.forall_mem_append.2 ⟨hbefore, hafter⟩)

theorem legible_removeFile (h : z.whole.Legible) (hremove : z.removeFile name = .ok z') :
    z'.whole.Legible := by
  unfold removeFile at hremove
  split at hremove
  · cases hremove
  · cases hremove
  next before contents after hsplit =>
  cases hremove
  obtain ⟨hbefore, -, hafter⟩ := legible_splitAt? h hsplit
  exact legible_of_entries h (List.forall_mem_append.2 ⟨hbefore, hafter⟩)

/-- Data that are appended stand at the end of the file then. -/
theorem exists_of_append (happend : z.append g free name data = .ok z') :
    ∃ before contents after, splitAt? name z.entries = some (before, .file contents, after) ∧
      z' = { z with entries := before ++ (name, .file (contents ++ data)) :: after } := by
  unfold append at happend
  split at happend
  · cases happend
  · cases happend
  next before contents after hsplit =>
  refine ⟨before, contents, after, hsplit, ?_⟩
  split at happend
  · cases happend
  split at happend
  · next hnil =>
    cases happend
    rw [hnil, List.append_nil, ← (eq_append_of_splitAt? hsplit).1]
  split at happend
  · cases happend
  · exact (Except.ok.inj happend).symm

theorem mem_entries_of_append {contents : Bytes} {before after : List (String × Tree)}
    (hsplit : splitAt? name z.entries = some (before, .file contents, after))
    (happend : z.append g free name data = .ok z') :
    (name, .file (contents ++ data)) ∈ z'.entries := by
  obtain ⟨before', contents', after', hsplit', rfl⟩ := exists_of_append happend
  rw [hsplit] at hsplit'
  cases hsplit'
  exact List.mem_append_right _ List.mem_cons_self

theorem legible_append (h : z.whole.Legible) (hdata : IsText data)
    (happend : z.append g free name data = .ok z') : z'.whole.Legible := by
  obtain ⟨before, contents, after, hsplit, rfl⟩ := exists_of_append happend
  obtain ⟨hbefore, ⟨hname, hcontents⟩, hafter⟩ := legible_splitAt? h hsplit
  refine legible_of_entries h ?_
  rw [List.forall_mem_append, List.forall_mem_cons]
  exact ⟨hbefore, ⟨hname, .file (hcontents.isText.append hdata)⟩, hafter⟩

theorem legible_step {op : Operation} {reply : Reply} (h : z.whole.Legible) (hop : op.Legible)
    (hstep : z.step g room op = .ok (reply, z')) : z'.whole.Legible := by
  cases op with
  | list =>
    cases hstep
    exact h
  | enter name =>
    obtain ⟨c, hc, hstep⟩ := exists_of_map hstep
    cases hstep
    exact whole_of_enter hc ▸ h
  | stat name =>
    obtain ⟨r, -, hstep⟩ := exists_of_map hstep
    cases hstep
    exact h
  | read name max =>
    obtain ⟨data, -, hstep⟩ := exists_of_map hstep
    cases hstep
    exact h
  | makeDirectory name =>
    obtain ⟨c, hc, hstep⟩ := exists_of_map hstep
    cases hstep
    exact legible_create h hop (Tree.legible_directory.2 fun e he => absurd he List.not_mem_nil) hc
  | createFile name =>
    obtain ⟨c, hc, hstep⟩ := exists_of_map hstep
    cases hstep
    exact legible_create h hop (.file (isText_encode [])) hc
  | removeDirectory name =>
    obtain ⟨c, hc, hstep⟩ := exists_of_map hstep
    cases hstep
    exact legible_removeDirectory h hc
  | removeFile name =>
    obtain ⟨c, hc, hstep⟩ := exists_of_map hstep
    cases hstep
    exact legible_removeFile h hc
  | append name data =>
    obtain ⟨c, hc, hstep⟩ := exists_of_map hstep
    cases hstep
    exact legible_append h hop hc

theorem legible_perform {op : Operation} (h : z.whole.Legible) (hop : op.Legible) :
    (z.perform g room op).2.whole.Legible := by
  cases hstep : z.step g room op with
  | error e =>
    unfold perform
    rw [hstep]
    exact h
  | ok x =>
    rw [perform_of_step hstep]
    exact legible_step h hop hstep

end Cursor

/-! ## Lines -/

theorem Command.legible_of_request {c : Command} {op : Operation}
    (hc : ∀ w ∈ c.arguments, IsWord w) (h : c.request = .ok (.perform op)) : op.Legible := by
  cases c with
  | mkdir name | touch name =>
    cases h
    exact hc _ (List.mem_singleton_self _)
  | write name text =>
    cases h
    exact isText_encode _
  | df | fsck | exit => cases h
  | _ =>
    cases h
    exact trivial

namespace Response

theorem bytesOf_ofLines (lines : List String) :
    Output.bytesOf (ofLines lines).texts =
      lines.flatMap fun line => Utf8.encode line.toList ++ [newline] := by
  simp only [Output.bytesOf, ofLines, List.flatMap_map, String.toList_append, Utf8.encode_append]
  rfl

/-- No error is kept silent about. -/
theorem exists_ok_of_silent {a : Except Error Answer}
    (h : Output.bytesOf (ofAnswer a).texts = []) : ∃ answer, a = .ok answer := by
  cases a with
  | ok answer => exact ⟨answer, rfl⟩
  | error e =>
    change Output.bytesOf (ofLines ["error: " ++ e.message]).texts = [] at h
    rw [bytesOf_ofLines, List.flatMap_singleton] at h
    exact absurd (List.append_eq_nil_iff.1 h).2 (List.cons_ne_nil _ _)

end Response

namespace Session

variable {u : Session} {room : Nat} {c : Cursor} {f : String} {contents : Bytes}

theorem legible_of_requestOf {line : Bytes} {op : Operation}
    (h : requestOf line = .ok (.perform op)) : op.Legible := by
  obtain ⟨cs, c, hline, hc⟩ := exists_command_of_requestOf h
  exact Command.legible_of_request (Command.isWord_arguments_of_ofLine hline) hc

/-! ## Files of a session -/

theorem Shows.nodup_names (h : u.Shows room c) : (c.entries.map Prod.fst).Nodup := by
  obtain ⟨z, hz, rfl, -⟩ := h
  obtain ⟨-, -, hnames⟩ := (Spot.directory hz.sound).2.1
  rw [Layout.map_name_entriesOf] at hnames
  show ((Layout.treesOf z.entries).map Prod.fst).Nodup
  rw [Layout.treesOf_eq_map, List.map_map]
  exact hnames

/-- What is in the directory can be read off the store. -/
theorem Shows.entries_eq (h : u.Shows room c) {room' : Nat} {c' : Cursor}
    (h' : u.Shows room' c') : c'.entries = c.entries := by
  obtain ⟨z, hz, rfl, -⟩ := h
  obtain ⟨z', hz', rfl, -⟩ := h'
  have hhere : z'.here = z.here :=
    hz.sound.stored.of_fill.unique hz'.sound.stored.of_fill (hz'.dir.symm.trans hz.dir)
  exact congrArg (fun l => l.tree.entries) hhere

theorem Shows.splitAt?_of_mem (h : u.Shows room c) {t : Tree} (hf : (f, t) ∈ c.entries) :
    ∃ before after, splitAt? f c.entries = some (before, t, after) := by
  obtain ⟨before, after, hentries⟩ := List.append_of_mem hf
  have hnodup := h.nodup_names
  rw [hentries, List.map_append, List.map_cons] at hnodup
  have hbefore : ∀ e ∈ before, e.1 ≠ f := fun e he =>
    (List.nodup_append.1 hnodup).2.2 e.1 (List.mem_map_of_mem he) f List.mem_cons_self
  exact ⟨before, after, hentries ▸ splitAt?_append hbefore t after⟩

theorem Shows.length_lt (h : u.Shows room c) (hf : (f, .file contents) ∈ c.entries) :
    contents.length < 2 ^ 32 := by
  obtain ⟨before, after, hsplit⟩ := h.splitAt?_of_mem hf
  obtain ⟨z, hz, rfl, -⟩ := h
  have hsize := Spot.fileAt?_eq hz.serves hz.sound f
  rw [hsplit] at hsize
  obtain ⟨i, -, hlength⟩ := Option.map_eq_some_iff.1 hsize
  exact hlength ▸ i.fileSize.toNat_lt

theorem eq_contents_of_reply {a : Answer} {data : Bytes} (h : a.reply = .contents data) :
    a = .contents data := by
  cases a with
  | contents data' =>
    cases h
    rfl
  | _ => cases h

/-- No file is longer than what `cat` reads when it is not told how much. -/
theorem Shows.read_whole (h : u.Shows room c) (hplan : u.device.plan = .never)
    (hf : (f, .file contents) ∈ c.entries) :
    (u.run (.read f (Command.numberLimit - 1))).1 = .ok (.contents contents) := by
  obtain ⟨before, after, hsplit⟩ := h.splitAt?_of_mem hf
  have hlength : contents.length ≤ Command.numberLimit - 1 := by
    have hlt := h.length_lt hf
    have hlimit : 2 ^ 32 ≤ Command.numberLimit - 1 := by decide
    omega
  have hstep : c.step u.place.geometry room (.read f (Command.numberLimit - 1)) =
      .ok (.contents contents, c) := by
    simp only [Cursor.step, Cursor.read, hsplit, Nat.min_eq_left hlength, List.take_length]
    rfl
  have hreply := (h.run hplan (.read f (Command.numberLimit - 1))).1
  unfold Cursor.perform at hreply
  rw [hstep] at hreply
  obtain ⟨a, ha, hcontents⟩ := Cursor.exists_of_map hreply
  rw [ha, eq_contents_of_reply hcontents]

/-- The session stands for a legible tree, and no call is made to fail. -/
structure Legible (u : Session) (room : Nat) (c : Cursor) : Prop where
  shows : u.Shows room c
  plan : u.device.plan = .never
  legible : c.whole.Legible

namespace Legible

theorem perform (h : u.Legible room c) {op : Operation} (hop : op.Legible) :
    (u.run op).2.Legible room (c.perform u.place.geometry room op).2 ∧
      (u.run op).2.place.geometry = u.place.geometry := by
  obtain ⟨-, hshows, hplan, hgeometry⟩ := h.shows.run h.plan op
  exact ⟨⟨hshows, hplan, Cursor.legible_perform h.legible hop⟩, hgeometry⟩

theorem check (h : u.Legible room c) :
    u.check.2.Legible room c ∧ u.check.2.place.geometry = u.place.geometry := by
  obtain ⟨z, hz, rfl, hroom⟩ := h.shows
  rw [hz.room_eq] at hroom
  subst hroom
  have hleads := hz.leads_check h.plan
  exact ⟨⟨hleads.shows hz h.plan, hleads.plan_never h.plan, h.legible⟩, hleads.geometry⟩

theorem serve (h : u.Legible room c) {line : Bytes} {r : Request} (hr : requestOf line = .ok r) :
    ∃ c', (u.serve r).2.Legible room c' ∧ (u.serve r).2.place.geometry = u.place.geometry := by
  cases r with
  | perform op => exact ⟨_, h.perform (legible_of_requestOf hr)⟩
  | check => exact ⟨c, h.check⟩
  | usage => exact ⟨c, h, rfl⟩
  | remount => exact absurd hr (requestOf_ne_remount line)

theorem shell (h : u.Legible room c) (input : Bytes) :
    let v := (u.shell input none none).session
    ∃ c', v.Legible room c' ∧ v.place.geometry = u.place.geometry := by
  refine unlimited_induction_of_lines (P := fun v => ∃ c', v.Legible room c' ∧
    v.place.geometry = u.place.geometry) ?_ ⟨c, h, rfl⟩ none (inputLines input)
  intro v line r hv hr
  obtain ⟨c', hv, hgeometry⟩ := hv
  obtain ⟨c'', hv', hgeometry'⟩ := hv.serve hr
  exact ⟨c'', hv', hgeometry'.trans hgeometry⟩

/-- The name of a file of the directory may stand on a line, unless it looks like a flag. -/
theorem isName (h : u.Legible room c) (hf : (f, .file contents) ∈ c.entries)
    (hdash : f.toList.head? ≠ some '-') : Command.IsName f :=
  ⟨(Cursor.legible_entries h.legible _ hf).1, hdash⟩

theorem cat (h : u.Legible room c) (hf : (f, .file contents) ∈ c.entries)
    (hdash : f.toList.head? ≠ some '-') :
    (u.shell (lineOf ["cat", f]) none none).output.written = contents ++ [newline] := by
  have hcommand : (Command.cat f none).Sayable := ⟨h.isName hf hdash, fun n hn => nomatch hn⟩
  have htext : IsText contents := (Cursor.legible_entries h.legible _ hf).2.isText
  have hmeaning : (Command.cat f none).meaning =
      .operation (.read f (Command.numberLimit - 1)) := rfl
  rw [(shell_operation hcommand hmeaning rfl u).2, h.shows.read_whole h.plan hf]
  show Output.bytesOf (Response.ofLines [String.ofList (Utf8.decodeLossy contents)]).texts = _
  rw [Response.bytesOf_ofLines, List.flatMap_singleton, String.toList_ofList,
    htext.encode_decodeLossy]

/-- A text that is written without a complaint stands at the end of the file. -/
theorem write (h : u.Legible room c) (hf : (f, .file contents) ∈ c.entries) {ws : List String}
    (hcommand : (Command.write f ws).Sayable)
    (hsilent : (u.shell (lineOf ("write" :: f :: ws)) none none).output.written = []) :
    ∃ c', (u.shell (lineOf ("write" :: f :: ws)) none none).session.Legible room c' ∧
      (f, .file (contents ++ Utf8.encode (" ".intercalate ws).toList)) ∈ c'.entries := by
  have hline : ("write" :: f :: ws).map String.toList = (Command.write f ws).toWords := rfl
  have hlegible : (Operation.append f (Utf8.encode (" ".intercalate ws).toList)).Legible :=
    isText_encode _
  obtain ⟨hsession, hwritten⟩ := shell_operation hcommand rfl hline u
  rw [hwritten] at hsilent
  rw [hsession]
  refine ⟨_, (h.perform hlegible).1, ?_⟩
  obtain ⟨answer, hrun⟩ := Response.exists_ok_of_silent hsilent
  have hreply := (h.shows.run h.plan (.append f (Utf8.encode (" ".intercalate ws).toList))).1
  rw [hrun] at hreply
  unfold Cursor.perform at hreply ⊢
  cases hstep : c.step u.place.geometry room
      (.append f (Utf8.encode (" ".intercalate ws).toList)) with
  | error e =>
    rw [hstep] at hreply
    cases hreply
  | ok x =>
    obtain ⟨c', happend, rfl⟩ := Cursor.exists_of_map hstep
    obtain ⟨before, after, hsplit⟩ := h.shows.splitAt?_of_mem hf
    exact Cursor.mem_entries_of_append hsplit happend

end Legible

/-- All that a shell has written into files since the filesystem was made is text, and it can be
read again as it was written. -/
theorem shell_legible {g : Geometry} {d d' : Device} {p : Place} (hs : d.store.WellFormed)
    (hplan : d.plan = .never) (hformat : Place.format g d = .ok p d') (input : Bytes) :
    let v := (shell ⟨d', p⟩ input none none).session
    ∃ (room : Nat) (c : Cursor), v.Shows room c ∧ v.device.store.Holds g c.whole ∧
      c.whole.Legible ∧ ∀ f contents, (f, .file contents) ∈ c.entries →
        f.toList.head? ≠ some '-' →
        (v.shell (lineOf ["cat", f]) none none).output.written = contents ++ [newline] ∧
        ∀ ws : List String, (∀ w ∈ ws, IsWord w.toList) →
          (∀ w ∈ ws.head?, w.toList.head? ≠ some '-') →
          let e := v.shell (lineOf ("write" :: f :: ws)) none none
          e.output.written = [] →
            (e.session.shell (lineOf ["cat", f]) none none).output.written =
              contents ++ Utf8.encode (" ".intercalate ws).toList ++ [newline] := by
  intro v
  have hat := at_of_format hs hformat
  obtain ⟨rfl, -, hsteady, -, -⟩ := Place.format_eq_ok hformat hs
  have hstart : Legible ⟨d', ⟨g, rootBlock⟩⟩ _ ⟨[], []⟩ :=
    ⟨hat.shows, hsteady.plan.trans hplan,
      Tree.legible_directory.2 fun e he => absurd he List.not_mem_nil⟩
  obtain ⟨c, hv, hgeometry⟩ := hstart.shell input
  have hholds : v.device.store.Holds g c.whole := by
    have hholds := hv.shows.holds
    rwa [hgeometry] at hholds
  refine ⟨_, c, hv.shows, hholds, hv.legible, fun f contents hf hdash => ?_⟩
  refine ⟨hv.cat hf hdash, ?_⟩
  intro ws hws hdash' e hsilent
  obtain ⟨c', hv', hf'⟩ := hv.write hf ⟨hv.isName hf hdash, hws, hdash'⟩ hsilent
  exact hv'.cat hf' hdash

/-- A letter of two bytes stands on both sides of the end of a block. -/
theorem shell_legible_across_blocks : ∃ (s : Store) (d : Device),
    Store.inMemory 35 5 = .ok s ∧ s.WellFormed ∧
      Place.format ⟨4, 1, 2, 3, 8⟩ (Device.ofStore s) = .ok ⟨⟨4, 1, 2, 3, 8⟩, rootBlock⟩ d ∧
      let v := (shell ⟨d, ⟨⟨4, 1, 2, 3, 8⟩, rootBlock⟩⟩ (lineOf ["touch", "f"]) none none).session
      let e := v.shell (lineOf ["write", "f", "abc\u00e9", "-h"]) none none
      e.output.written = [] ∧
        (e.session.shell (lineOf ["cat", "f"]) none none).output.written =
          Utf8.encode "abc\u00e9 -h\n".toList := by
  obtain ⟨s, hs, hfree⟩ : ∃ s, Store.inMemory 35 5 = .ok s ∧ s.freeCount = 3 :=
    ⟨_, rfl, by decide +kernel⟩
  have hserves : s.Serves ⟨4, 1, 2, 3, 8⟩ :=
    Store.serves_of_inMemory hs (by decide) (by decide) (by decide) (by decide)
  obtain ⟨d, hd⟩ := hserves.exists_format
  obtain ⟨-, -, hsteady, ⟨contents, hw⟩, -⟩ := Place.format_eq_ok hd hserves.wellFormed
  have hplan : d.plan = .never := hsteady.plan
  have hfree : d.store.freeCount = 3 := (congrArg Bitmap.freeCount hw.bitmap).trans hfree
  have hstart : Shows ⟨d, ⟨⟨4, 1, 2, 3, 8⟩, rootBlock⟩⟩ 4 ⟨[], []⟩ :=
    ⟨_, at_of_format hserves.wellFormed hd, rfl, by rw [hfree]; rfl⟩
  refine ⟨s, d, hs, hserves.wellFormed, hd, ?_⟩
  intro v e
  have htouch : ["touch", "f"].map String.toList = (Command.touch "f").toWords := rfl
  have hwrite : ["write", "f", "abc\u00e9", "-h"].map String.toList =
      (Command.write "f" ["abc\u00e9", "-h"]).toWords := rfl
  obtain ⟨hv, hplan, hgeometry⟩ : v.Shows 4 ⟨[], [("f", .file [])]⟩ ∧ v.device.plan = .never ∧
      v.place.geometry = ⟨4, 1, 2, 3, 8⟩ := by
    have hsession : v = _ := (shell_operation (by decide) rfl htouch _).1
    rw [hsession]
    exact (hstart.run hplan (.createFile "f")).2
  have hsilent : e.output.written = [] := by
    obtain ⟨data, hdata⟩ : ∃ data,
        data = Utf8.encode (" ".intercalate ["abc\u00e9", "-h"]).toList := ⟨_, rfl⟩
    have hdone : (Cursor.perform ⟨4, 1, 2, 3, 8⟩ 4 ⟨[], [("f", .file [])]⟩
        (.append "f" data)).1 = .ok .done := by
      rw [hdata]
      decide
    have hreply := (hv.run hplan (.append "f" data)).1
    rw [hgeometry, hdone] at hreply
    obtain ⟨a, ha, hdone⟩ := Cursor.exists_of_map hreply
    obtain rfl := eq_done_of_reply hdone
    have hwritten : e.output.written = _ := (shell_operation (by decide) rfl hwrite v).2
    rw [hwritten, ← hdata, ha]
    rfl
  obtain ⟨room, c, hc, -, -, hall⟩ :=
    shell_legible hserves.wellFormed rfl hd (lineOf ["touch", "f"])
  have hentries : c.entries = [("f", .file [])] := hv.entries_eq hc
  have hcat := (hall "f" [] (hentries ▸ List.mem_singleton_self _) (by decide)).2
    ["abc\u00e9", "-h"] (by decide) (by decide) hsilent
  exact ⟨hsilent, hcat.trans (by decide)⟩

end Session
end BlockFS
