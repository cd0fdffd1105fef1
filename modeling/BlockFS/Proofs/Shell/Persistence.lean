/-
What a shell has done to a disk image is there when the image is opened again.

A line is answered with a text alone, or it asks something of the filesystem (`respond_eq`), so
what requests keep is kept by the shell.  On an image whose filesystem the check accepts that
is a sound layout with the same leaked blocks (`Live.serve`).  The layout does not reach into
block 0, where the header goes when the store is given up, and so the image that is left opens
with the layout that the last request left (`Live.exists_reopened`).
-/
import BlockFS.Proofs.Atomicity
import BlockFS.Proofs.Shell.Runs
import BlockFS.Proofs.Stores.Interchange

namespace BlockFS

/-! ## What lines ask for -/

namespace Response

/-- The response to what a request ends in. -/
def ofOutcome : Session.Outcome → Response
  | .answer a => ofAnswer a
  | .report r => ofCheck r
  | .usage n => ofLines [lineOfUsage n]
  | .lost _ => ⟨[], false⟩
  | .remounted _ => ⟨[], false⟩

end Response

namespace Command

/-- What a command asks of the filesystem, or else the response to it. -/
def request (c : Command) : Except Response Session.Request :=
  match c.meaning with
  | .operation op => .ok (.perform op)
  | .usage => .ok .usage
  | .check => .ok .check
  | .leave => .error ⟨[], true⟩

end Command

namespace Session

/-- What a line asks of the filesystem, or else the response to it. -/
def requestOf (line : Bytes) : Except Response Request :=
  match Utf8.decode line with
  | .error fault => .error (.ofLines ["error: invalid input: " ++ fault.message])
  | .ok cs =>
    match Command.ofLine cs with
    | none => .error ⟨[], false⟩
    | some (.error misuse) => .error ⟨[misuse.notice], false⟩
    | some (.ok c) => c.request

variable {u v : Session} {z : Spot}

theorem execute_eq (u : Session) (c : Command) :
    u.execute c =
      match c.request with
      | .error response => (response, u)
      | .ok r => (.ofOutcome (u.serve r).1, (u.serve r).2) := by
  unfold execute Command.request
  cases c.meaning <;> rfl

theorem respond_eq (u : Session) (line : Bytes) :
    u.respond line =
      match requestOf line with
      | .error response => (response, u)
      | .ok r => (.ofOutcome (u.serve r).1, (u.serve r).2) := by
  unfold respond requestOf
  cases Utf8.decode line with
  | error fault => rfl
  | ok cs =>
    cases hline : Command.ofLine cs with
    | none => simp only [hline]
    | some c =>
      cases c with
      | error misuse => simp only [hline]
      | ok c => simp only [hline, execute_eq]

theorem exists_command_of_requestOf {line : Bytes} {r : Request} (h : requestOf line = .ok r) :
    ∃ cs c, Command.ofLine cs = some (.ok c) ∧ c.request = .ok r := by
  unfold requestOf at h
  split at h
  · cases h
  · next cs _ =>
    split at h
    · cases h
    · cases h
    · next c hc => exact ⟨cs, c, hc, h⟩

theorem requestOf_ne_remount (line : Bytes) : requestOf line ≠ .ok .remount := by
  intro h
  obtain ⟨cs, c, -, hc⟩ := exists_command_of_requestOf h
  unfold Command.request at hc
  split at hc <;> cases hc

/-- What is kept by all requests that lines make is kept by a shell. -/
theorem unlimited_induction_of_lines {P : Session → Prop}
    (hserve : ∀ u line r, P u → requestOf line = .ok r → P (u.serve r).2) (hu : P u)
    (prompt : Option String) (lines : List Bytes) : P (u.unlimited prompt lines).session := by
  have hrespond : ∀ u line, P u → P (u.respond line).2 := by
    intro u line hu
    rw [respond_eq]
    cases hr : requestOf line with
    | error response => exact hu
    | ok r => exact hserve u line r hu hr
  induction lines generalizing u with
  | nil =>
    rw [(unlimited_nil u prompt).1]
    exact hu
  | cons line lines ih =>
    by_cases hleave : LeavesShell line
    · rw [(unlimited_of_leaves _ _ hleave lines).1]
      exact hrespond u line hu
    · rw [(unlimited_of_not_leaves _ _ hleave lines).1]
      exact ih (hrespond u line hu)

theorem unlimited_induction {P : Session → Prop}
    (hserve : ∀ u r, P u → r ≠ .remount → P (u.serve r).2) (hu : P u) (prompt : Option String)
    (lines : List Bytes) : P (u.unlimited prompt lines).session :=
  unlimited_induction_of_lines
    (fun u line r hu hr => hserve u r hu fun h => requestOf_ne_remount line (h ▸ hr)) hu
    prompt lines

end Session

/-! ## Stores in images -/

theorem Store.OnDisk.exists_mirrors {s : Store} (h : s.OnDisk) : ∃ m : Store, m.Mirrors s :=
  ⟨⟨.memory, s.blockLen, s.bitmap, s.image⟩, rfl, ⟨h.blockCount_lt, h.covered⟩, h, rfl, rfl,
    fun _ _ _ => rfl⟩

/-- Writing the header leaves a sound layout alone. -/
theorem Store.Synced.sound {s t : Store} {g : Geometry} {l : Layout} (h : s.Synced t)
    (hl : l.Sound g s) : l.Sound g t := by
  refine hl.frame (fun b hb => ?_) (fun b hb => ?_)
  · unfold Store.bytes
    rw [h.read_eq b]
  · unfold Store.InUse Store.isAllocated
    rw [h.bitmap]
    exact hl.inUse b hb

theorem Store.Synced.report {s t : Store} (h : s.Synced t) (l : Layout) :
    l.report t = l.report s := by
  have hleaks : t.leaks l.blocks = s.leaks l.blocks := by
    refine Store.leaks_congr h.blockCount fun b => ?_
    unfold Store.InUse Store.isAllocated
    rw [h.bitmap]
  unfold Layout.report
  rw [hleaks]

namespace Session

variable {u v : Session} {z : Spot}

theorem onDisk_serve (h : u.device.store.OnDisk) (r : Request) :
    (u.serve r).2.device.store.OnDisk := by
  obtain ⟨m, hm⟩ := h.exists_mirrors
  have hu : Mirrors ⟨⟨m, u.device.plan, u.device.calls⟩, u.place⟩ u := ⟨⟨hm, rfl, rfl⟩, rfl⟩
  exact (hu.serve r).2.device.store.onDisk

/-! ## Sessions on an image -/

/-- The session works on an image at a spot of its layout, and no call is made to fail. -/
structure Live (u : Session) (z : Spot) : Prop extends u.At z where
  onDisk : u.device.store.OnDisk
  plan : u.device.plan = .never

/-- A check that ends well has found the layout that a session at the root works on. -/
theorem exists_spot_of_check {r : CheckReport} (hs : u.device.store.Serves u.place.geometry)
    (hdir : u.place.dir = rootBlock)
    (hroot : ∃ dir, u.device.store.metadata? rootBlock = some (.directory dir))
    (h : u.check.1 = .ok r) :
    ∃ z, u.At z ∧ r = z.whole.report u.device.store := by
  obtain ⟨dir, hroot⟩ := hroot
  have hends := Check.ends_run (d := u.device) hs.blockSize_pos hs.wellFormed
  obtain ⟨d, hrun⟩ := Session.check_eq_ok_iff.1 h
  obtain ⟨-, l, hl, hreport⟩ := hends.of_eq_ok hrun
  have hkind := hl.stored.holdsDirectory_eq
  rw [hl.root, Store.holdsDirectory, hroot] at hkind
  cases l with
  | file b bs contents => cases hkind
  | directory b es => exact ⟨⟨[], b, es⟩, ⟨hs, hl, hdir.trans hl.root.symm⟩, hreport⟩

namespace Live

theorem serve (h : u.Live z) {r : Request} (hr : r ≠ .remount) :
    ∃ z', u.Leads z (u.serve r).2 z' ∧ (u.serve r).2.Live z' := by
  have hdisk := onDisk_serve h.onDisk r
  have hleads : ∃ z', u.Leads z (u.serve r).2 z' := by
    cases r with
    | perform op => exact h.exists_run op
    | check => exact ⟨z, h.toAt.leads_check h.plan⟩
    | usage => exact ⟨z, h.toAt.refl⟩
    | remount => exact absurd rfl hr
  obtain ⟨z', hz'⟩ := hleads
  exact ⟨z', hz', hz'.spot, hdisk, hz'.plan_never h.plan⟩

theorem unlimited (h : u.Live z) (prompt : Option String) (lines : List Bytes) :
    ∃ z', u.Leads z (u.unlimited prompt lines).session z' ∧
      (u.unlimited prompt lines).session.Live z' := by
  refine unlimited_induction (P := fun v => ∃ z', u.Leads z v z' ∧ v.Live z') ?_
    ⟨z, h.toAt.refl, h⟩ prompt lines
  intro v r hv hr
  obtain ⟨z', hleads, hlive⟩ := hv
  obtain ⟨z'', hleads', hlive'⟩ := hlive.serve hr
  exact ⟨z'', hleads.trans hleads', hlive'⟩

/-- The image that a session leaves opens with the layout that the session had come to. -/
theorem exists_reopened (h : u.Live z) : ∃ (t : Store) (d : Device), u.unmount = .ok t ∧
    Store.openFile (.image t.image) = .ok t ∧
    Place.mount u.place.geometry (Device.ofStore t) = .ok ⟨u.place.geometry, rootBlock⟩ d ∧
    (check ⟨d, ⟨u.place.geometry, rootBlock⟩⟩).1 = .ok (z.whole.report u.device.store) ∧
    t.Holds u.place.geometry z.cursor.whole := by
  obtain ⟨t, ht, hsynced⟩ := h.onDisk.exists_sync
  have hunmount : u.unmount = .ok t := by
    unfold Session.unmount
    rw [h.onDisk.unmount_eq, ht]
  have hserves : t.Serves u.place.geometry :=
    h.serves.of_blockLen (hsynced.sameShape.onDisk h.onDisk).toWellFormed hsynced.blockLen
  have hsound := hsynced.sound h.sound
  have hat : At ⟨Device.ofStore t, u.place⟩ z := ⟨hserves, hsound, h.dir⟩
  obtain ⟨d, hd⟩ := hat.intact.mounts
  obtain ⟨-, huntouched, -⟩ := Place.mount_eq_ok hd hserves.wellFormed
  have hstore : d.store = t := huntouched.store
  obtain ⟨z', hroot, hwhole, -⟩ := Place.exists_top (d := Device.ofStore t) hsound
  have hat' : At ⟨d, ⟨u.place.geometry, rootBlock⟩⟩ z' :=
    ⟨hstore ▸ hserves, hwhole ▸ hstore ▸ hsound, hroot.symm⟩
  refine ⟨t, d, hunmount, hsynced.openImage_eq h.onDisk, hd, ?_, hat.holds⟩
  rw [(hat'.check_never huntouched.plan).1, hwhole]
  show Except.ok (z.whole.report d.store) = _
  rw [hstore, hsynced.report]

end Live

theorem Leads.leaks_eq {z' : Spot} (h : u.Leads z v z') (hplan : u.device.plan = .never) :
    v.device.store.leaks z'.whole.blocks = u.device.store.leaks z.whole.blocks :=
  h.kept.leaks_eq (h.failed_eq hplan)

/-- A new image is one of a filesystem without entries. -/
theorem exists_mount_of_create {m s : Store} {g : Geometry} {old : DiskFile}
    {blockLen blocks : Nat} (hlen : blockLen < 2 ^ 32) (hblocks : blocks < 2 ^ 32)
    (hm : Store.inMemory blockLen blocks = .ok m) (hs : Store.create old blockLen blocks = .ok s)
    (hv : g.validate = .ok ()) (hf : g.fitsMemory = true) (hg : g.blockLen ≤ blockLen) :
    Store.openFile (.image s.image) = .ok s ∧ ∃ d,
      Place.mount g (Device.ofStore s) = .ok ⟨g, rootBlock⟩ d ∧
      Live ⟨d, ⟨g, rootBlock⟩⟩ ⟨[], rootBlock, []⟩ := by
  obtain ⟨n, hn, hdisk, hsynced⟩ := Store.synced_of_create hlen hblocks hs
  have honDisk := hsynced.sameShape.onDisk hdisk
  have hmirrors := Store.mirrors_of_new hlen hblocks hm hs
  have hserves : s.Serves g := ⟨honDisk.toWellFormed, hv, hf, hsynced.blockLen ▸ hg⟩
  have hread : s.read rootBlock = m.read rootBlock :=
    (hmirrors.read rootBlock).resolve_right fun h => absurd h.1 (by decide)
  have hbytes : s.bytes rootBlock = m.bytes rootBlock := by
    unfold Store.bytes
    rw [hread]
  have hroot : s.metadata? rootBlock = some (.directory .empty) := by
    rw [Store.metadata?_congr hbytes]
    exact Store.root_of_inMemory hm (Store.serves_of_inMemory hm hblocks hv hf hg)
  obtain ⟨d, hd⟩ := hserves.mounts hroot
  obtain ⟨-, huntouched, -⟩ := Place.mount_eq_ok hd hserves.wellFormed
  have hstore : d.store = s := huntouched.store
  rw [← hstore] at hserves hroot honDisk
  exact ⟨hsynced.openImage_eq hdisk, d, hd, at_of_root hserves hroot, honDisk, huntouched.plan⟩

/-- However a shell on a disk image ends, giving its store up leaves an image with all that the
shell has done until then.  The output takes as much as there is room for of what a shell
writes whose output takes everything, and stops the shell at the first line that is not
written whole, with what that line asks for already done. -/
theorem shell_unmount_reopens {img : Image} {s : Store} {g : Geometry} {p : Place} {d : Device}
    {r : CheckReport} (hopen : Store.openFile (.image img) = .ok s)
    (hmount : Place.mount g (Device.ofStore s) = .ok p d) (hcheck : (check ⟨d, p⟩).1 = .ok r)
    (input : Bytes) (prompt : Option String) (room : Option Nat) :
    let start : Session := ⟨d, p⟩
    let e := start.shell input prompt room
    let full := start.shell input prompt none
    e.output.written = Output.cut room full.output.written ∧
      (e.outcome = .ok () ↔ Output.Takes room full.output.written.length) ∧
      ∃ n, start.GetsThrough prompt room (inputLines input) n ∧
        ∃ (t w : Store) (p' : Place) (d' : Device) (r' : CheckReport) (tree : Tree),
          e.unmount = (e.outcome, t) ∧ Store.openFile (.image t.image) = .ok w ∧
          Place.mount g (Device.ofStore w) = .ok p' d' ∧
          (check ⟨d', p'⟩).1 = .ok r' ∧ r'.leaked = r.leaked ∧
          (start.unlimited prompt ((inputLines input).take n)).session.device.store.Holds g tree ∧
          w.Holds g tree := by
  intro start e full
  have hdisk : s.OnDisk := Store.onDisk_of_openImage hopen
  obtain ⟨rfl, hd, hserves, dir, hroot⟩ := Place.mount_eq_ok hmount hdisk.toWellFormed
  have hstore : d.store = s := hd.store
  obtain ⟨z, hat, rfl⟩ := exists_spot_of_check (u := start) (hstore ▸ hserves) rfl
    ⟨dir, hstore ▸ hroot⟩ hcheck
  have hlive : start.Live z := ⟨hat, hstore ▸ hdisk, hd.plan⟩
  obtain ⟨n, hn, hrun⟩ := exists_getsThrough prompt start (.fresh room) (inputLines input)
  obtain ⟨z', hleads, hlive'⟩ := hlive.unlimited prompt ((inputLines input).take n)
  obtain ⟨t, d', hunmount, hopened, hmounted, hchecked, hholds⟩ := hlive'.exists_reopened
  have hsession : e.session = (start.unlimited prompt ((inputLines input).take n)).session := by
    show (runShell ..).session = _
    rw [hrun]
  have hwritten : e.output.written = Output.cut room full.output.written := by
    show (runShell ..).output.written = _
    rw [hrun]
    exact List.nil_append _
  have hcomplete : e.complete = decide (Output.Takes room full.output.written.length) := by
    show (runShell ..).complete = _
    rw [hrun]
    rfl
  have hgeometry : (start.unlimited prompt ((inputLines input).take n)).session.place.geometry = g :=
    hleads.geometry
  rw [hgeometry] at hmounted hchecked hholds
  refine ⟨hwritten, ?_, n, hn, t, t, _, d', _, _, ?_, hopened, hmounted, hchecked, ?_, ?_, hholds⟩
  · unfold ShellEnd.outcome
    rw [hcomplete]
    by_cases htakes : Output.Takes room full.output.written.length <;> simp [htakes]
  · unfold ShellEnd.unmount
    rw [hsession, hunmount]
  · exact hleads.leaks_eq hd.plan
  · exact hgeometry ▸ hlive'.toAt.holds

/-- The output of the second line is cut short. -/
theorem shell_unmount_reopens_new : ∃ (s : Store) (d : Device) (n : Nat) (t w : Store),
    Store.create .absent 4096 8 = .ok s ∧
      Place.mount {} (Device.ofStore s) = .ok ⟨{}, rootBlock⟩ d ∧
      let e := shell ⟨d, ⟨{}, rootBlock⟩⟩ (Utf8.encode "mkdir a\nls\nrmdir a\n".toList) (some "> ")
        (some 5)
      GetsThrough ⟨d, ⟨{}, rootBlock⟩⟩ (some "> ") (some 5)
        (inputLines (Utf8.encode "mkdir a\nls\nrmdir a\n".toList)) n ∧
      e.unmount = (e.outcome, t) ∧ Store.openFile (.image t.image) = .ok w := by
  obtain ⟨m, hm⟩ : ∃ m, Store.inMemory 4096 8 = .ok m := ⟨_, rfl⟩
  obtain ⟨s, hs⟩ : ∃ s, Store.create .absent 4096 8 = .ok s := ⟨_, rfl⟩
  obtain ⟨hopen, d, hd, hlive⟩ := exists_mount_of_create (g := {}) (by decide) (by decide) hm hs
    (by decide) (by decide) (by decide)
  obtain ⟨-, -, n, hn, t, w, -, -, -, -, hunmount, hopened, -⟩ :=
    shell_unmount_reopens hopen hd (hlive.toAt.check_never hlive.plan).1
      (Utf8.encode "mkdir a\nls\nrmdir a\n".toList) (some "> ") (some 5)
  exact ⟨s, d, n, t, w, hs, hd, hn, hunmount, hopened⟩

end Session
end BlockFS
