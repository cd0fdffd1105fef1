/-
A shell may be left and taken up again at any line.

What a shell has besides the image is the bitmap, which the header keeps, and the directory that
it works in.  So to give the store up, open the image again and go on comes to the same as to go
on from the root, and `cd` on a line of its own goes there.  That the image can be taken up again
does not depend on whether the check accepts its filesystem: the root stays a directory
(`Operation.maintains_perform`).
-/
import BlockFS.Proofs.Roots
import BlockFS.Proofs.Stores.Lockstep

namespace BlockFS

/-! ## Inputs in parts -/

theorem inputLines_cons (b : UInt8) (bs : Bytes) :
    inputLines (b :: bs) =
      if b = newline then [b] :: inputLines bs
      else
        match inputLines bs with
        | [] => [[b]]
        | line :: lines => (b :: line) :: lines := rfl

theorem inputLines_ne_nil {bs : Bytes} (h : bs ≠ []) : inputLines bs ≠ [] := by
  intro hnil
  have hflat := flatten_inputLines bs
  rw [hnil] at hflat
  exact h hflat.symm

/-- Behind a newline a new line begins. -/
theorem inputLines_append {as : Bytes} (h : as = [] ∨ ∃ as', as = as' ++ [newline]) (bs : Bytes) :
    inputLines (as ++ bs) = inputLines as ++ inputLines bs := by
  induction as with
  | nil => rfl
  | cons a as ih =>
    have hrest : as = [] ∧ a = newline ∨ ∃ as', as = as' ++ [newline] := by
      obtain ⟨as', has'⟩ := h.resolve_left (List.cons_ne_nil a as)
      cases as' with
      | nil =>
        cases has'
        exact .inl ⟨rfl, rfl⟩
      | cons a' as' =>
        cases has'
        exact .inr ⟨as', rfl⟩
    have happ := ih (hrest.imp_left And.left)
    rw [List.cons_append, inputLines_cons, inputLines_cons a as, happ]
    by_cases ha : a = newline
    · rw [if_pos ha, if_pos ha, List.cons_append]
    · obtain ⟨as', rfl⟩ := hrest.resolve_left fun h => ha h.2
      rw [if_neg ha, if_neg ha]
      cases hlines : inputLines (as' ++ [newline]) with
      | nil => exact absurd hlines (inputLines_ne_nil (by simp))
      | cons line lines => rfl

namespace Session

variable {u : Session} {g : Geometry}

/-- The lines behind others that do not leave the shell are carried out from where those have
led. -/
theorem unlimited_append (u : Session) {lines : List Bytes}
    (h : ∀ line ∈ lines, ¬ LeavesShell line) (rest : List Bytes) :
    (u.unlimited none (lines ++ rest)).session =
        ((u.unlimited none lines).session.unlimited none rest).session ∧
      u.transcript none (lines ++ rest) =
        u.transcript none lines ++ (u.unlimited none lines).session.transcript none rest := by
  induction lines generalizing u with
  | nil =>
    rw [List.nil_append, (unlimited_nil u none).1, (unlimited_nil u none).2]
    exact ⟨rfl, rfl⟩
  | cons line lines ih =>
    obtain ⟨hline, hlines⟩ := List.forall_mem_cons.1 h
    obtain ⟨hsession, htranscript⟩ := ih (u.respond line).2 hlines
    obtain ⟨hu, hu'⟩ := unlimited_of_not_leaves u none hline lines
    obtain ⟨hv, hv'⟩ := unlimited_of_not_leaves u none hline (lines ++ rest)
    rw [List.cons_append, hv, hv', hu, hu', hsession, htranscript, List.append_assoc]
    exact ⟨rfl, rfl⟩

/-! ## Going to the root -/

/-- The line that goes to the root. -/
def rootLine : Bytes := Utf8.encode "cd\n".toList

theorem requestOf_rootLine : requestOf rootLine = .ok (.perform (.enter none)) := by
  have hdecode : Utf8.decode rootLine = .ok "cd\n".toList := Utf8.decode_eq_ok_iff.2 rfl
  unfold requestOf
  rw [hdecode]
  rfl

theorem respond_rootLine (u : Session) :
    u.respond rootLine = (⟨[], false⟩, ⟨u.device, ⟨u.place.geometry, rootBlock⟩⟩) := by
  rw [respond_eq, requestOf_rootLine]
  rfl

theorem unlimited_rootLine (u : Session) (rest : List Bytes) :
    (u.unlimited none (rootLine :: rest)).session =
        (unlimited ⟨u.device, ⟨u.place.geometry, rootBlock⟩⟩ none rest).session ∧
      u.transcript none (rootLine :: rest) =
        transcript ⟨u.device, ⟨u.place.geometry, rootBlock⟩⟩ none rest := by
  have hstays : ¬ LeavesShell rootLine := by
    rw [← leave_respond u, respond_rootLine]
    exact Bool.false_ne_true
  obtain ⟨hsession, htranscript⟩ := unlimited_of_not_leaves u none hstays rest
  rw [hsession, htranscript, exchange, respond_rootLine]
  exact ⟨rfl, rfl⟩

/-! ## Giving up and taking up -/

theorem rooted_serve (h : u.device.store.Rooted g) {r : Request} (hr : r ≠ .remount) :
    (u.serve r).2.device.store.Rooted g ∧ (u.serve r).2.place.geometry = u.place.geometry := by
  cases r with
  | perform op =>
    have hend := op.maintains_perform (g := g) u.place u.device h
    simp only [Session.serve, run_eq]
    cases hrun : op.perform u.place u.device with
    | ok x d => exact hend.of_eq_ok hrun
    | error e d => exact ⟨hend.of_eq_error hrun, rfl⟩
  | check =>
    have hstore := Check.store_of_run u.place.geometry u.device
    simp only [Session.serve, check_eq]
    cases hrun : Check.run u.place.geometry u.device with
    | ok r d =>
      have hd : d.store = u.device.store := hstore.of_eq_ok hrun
      exact ⟨hd ▸ h, rfl⟩
    | error fault d =>
      have hd : d.store = u.device.store := hstore.of_eq_error hrun
      exact ⟨hd ▸ h, rfl⟩
  | usage => exact ⟨h, rfl⟩
  | remount => exact absurd rfl hr

theorem Lockstep.refl (hplan : u.device.plan = .never) : u.Lockstep u :=
  ⟨⟨⟨rfl, rfl, rfl, rfl, fun _ _ => rfl⟩, hplan, hplan⟩, rfl⟩

theorem rooted_unlimited (h : u.device.store.Rooted g) (hplan : u.device.plan = .never)
    (prompt : Option String) (lines : List Bytes) :
    let v := (u.unlimited prompt lines).session
    v.device.store.Rooted g ∧ v.place.geometry = u.place.geometry ∧ v.device.plan = .never := by
  refine unlimited_induction (P := fun v => v.device.store.Rooted g ∧
    v.place.geometry = u.place.geometry ∧ v.device.plan = .never) ?_ ⟨h, rfl, hplan⟩ prompt lines
  intro v r hv hr
  obtain ⟨hroot, hgeometry, hplan⟩ := hv
  obtain ⟨hroot', hgeometry'⟩ := rooted_serve hroot hr
  exact ⟨hroot', hgeometry'.trans hgeometry, ((Lockstep.refl hplan).serve hr).2.device.plan⟩

/-- A filesystem with a root is taken up from the image that is left of it, and nothing but
block 0 is different then. -/
theorem exists_remount (h : u.device.store.Rooted g) (hplan : u.device.plan = .never) :
    ∃ (t : Store) (d : Device), u.unmount = .ok t ∧ u.device.store.Synced t ∧
      Store.openFile (.image t.image) = .ok t ∧
      Place.mount g (Device.ofStore t) = .ok ⟨g, rootBlock⟩ d ∧ d.store.Rooted g ∧
      u.device.Lockstep d := by
  obtain ⟨t, ht, hsynced⟩ := h.exists_sync
  have hunmount : u.unmount = .ok t := by
    unfold Session.unmount
    rw [h.unmount_eq, ht]
  have hbytes : t.bytes rootBlock = u.device.store.bytes rootBlock := by
    unfold Store.bytes
    rw [hsynced.read_eq]
  have hroot : t.Rooted g := h.of_bytes hsynced.sameShape hbytes
  obtain ⟨dir, hdir⟩ := hroot.root
  obtain ⟨d, hd⟩ := hroot.serves.mounts hdir
  obtain ⟨-, huntouched, -⟩ := Place.mount_eq_ok hd hroot.toWellFormed
  have hstore : d.store = t := huntouched.store
  refine ⟨t, d, hunmount, hsynced, hsynced.openImage_eq h.toOnDisk, hd, hstore ▸ hroot, ?_⟩
  exact ⟨hstore ▸ hsynced.toSameBlocks, hplan, huntouched.plan⟩

theorem shell_eq (u : Session) (input : Bytes) (prompt : Option String) :
    u.shell input prompt none = ⟨(u.unlimited prompt (inputLines input)).session,
      ⟨u.transcript prompt (inputLines input), none⟩, true⟩ := by
  unfold shell Output.fresh
  rw [runShell_none, List.nil_append]

theorem unmount_shell {input : Bytes} {prompt : Option String} {t : Store}
    (h : (u.unlimited prompt (inputLines input)).session.unmount = .ok t) :
    (u.shell input prompt none).unmount = (.ok (), t) := by
  unfold ShellEnd.unmount
  rw [shell_eq]
  simp only [h]
  rfl

theorem inputLines_rootLine {as : Bytes} (h : as = [] ∨ ∃ as', as = as' ++ [newline])
    (bs : Bytes) :
    inputLines (as ++ (rootLine ++ bs)) = inputLines as ++ (rootLine :: inputLines bs) := by
  have hroot : inputLines rootLine = [rootLine] := by decide
  rw [inputLines_append h, inputLines_append (.inr ⟨[99, 100], by decide⟩), hroot,
    List.singleton_append]

theorem exists_split (hroot : u.device.store.Rooted g) (hplan : u.device.plan = .never)
    (hg : u.place.geometry = g) {as : Bytes} (hend : as = [] ∨ ∃ as', as = as' ++ [newline])
    (hstay : ∀ line ∈ inputLines as, ¬ LeavesShell line) (bs : Bytes) :
    ∃ (t : Store) (d : Device), (u.shell as none none).unmount = (.ok (), t) ∧
      Store.openFile (.image t.image) = .ok t ∧
      Place.mount g (Device.ofStore t) = .ok ⟨g, rootBlock⟩ d ∧
      let second := shell ⟨d, ⟨g, rootBlock⟩⟩ bs none none
      let whole := u.shell (as ++ (rootLine ++ bs)) none none
      ∃ x y : Store, second.unmount = (.ok (), x) ∧ whole.unmount = (.ok (), y) ∧
        x.image.toBytes = y.image.toBytes ∧
        (u.shell as none none).output.written ++ second.output.written = whole.output.written := by
  have hrooted := rooted_unlimited hroot hplan none (inputLines as)
  obtain ⟨v, hv⟩ : ∃ v, v = (u.unlimited none (inputLines as)).session := ⟨_, rfl⟩
  obtain ⟨hroot', hgeometry, hplan'⟩ := hrooted
  rw [← hv] at hroot' hgeometry hplan'
  obtain ⟨t, d, hunmount, -, hopen, hmount, hroot₂, hlock⟩ := exists_remount hroot' hplan'
  refine ⟨t, d, unmount_shell (hv ▸ hunmount), hopen, hmount, ?_⟩
  intro second whole
  -- From here on the shell that was left and the one that went to the root are in lockstep.
  have hresumed : Lockstep ⟨v.device, ⟨g, rootBlock⟩⟩ ⟨d, ⟨g, rootBlock⟩⟩ := ⟨hlock, rfl⟩
  obtain ⟨hwritten, hsessions⟩ := hresumed.unlimited none (inputLines bs)
  obtain ⟨hsession, htranscript⟩ := unlimited_append u hstay (rootLine :: inputLines bs)
  rw [← inputLines_rootLine hend, ← hv, (unlimited_rootLine v _).1, hgeometry, hg] at hsession
  rw [← inputLines_rootLine hend, ← hv, (unlimited_rootLine v _).2, hgeometry, hg, ← hwritten]
    at htranscript
  have hwhole := rooted_unlimited (u := ⟨v.device, ⟨g, rootBlock⟩⟩) hroot' hplan' none
    (inputLines bs)
  have hsecond := rooted_unlimited (u := ⟨d, ⟨g, rootBlock⟩⟩) hroot₂ hlock.plan' none
    (inputLines bs)
  obtain ⟨x, -, hx, hsynced, -⟩ := exists_remount hsecond.1 hsecond.2.2
  obtain ⟨y, -, hy, hsynced', -⟩ := exists_remount hwhole.1 hwhole.2.2
  rw [← hsession] at hy
  refine ⟨x, y, unmount_shell hx, unmount_shell hy,
    hsessions.device.store.toBytes_eq hsynced' hsynced, ?_⟩
  show _ ++ (shell _ bs none none).output.written = (u.shell _ none none).output.written
  rw [shell_eq, shell_eq, shell_eq]
  exact htranscript.symm

/-- To leave the shell between two lines and to take the filesystem up again from the image comes
to the same as to go to the root there, whatever state the filesystem is in.  The outputs are
the two parts of one, and the images agree in every byte. -/
theorem shell_split {img : Image} {s : Store} {p : Place} {d : Device}
    (hopen : Store.openFile (.image img) = .ok s)
    (hmount : Place.mount g (Device.ofStore s) = .ok p d) (as bs : Bytes)
    (hend : as = [] ∨ ∃ as', as = as' ++ [newline])
    (hstay : ∀ line ∈ inputLines as, ¬ LeavesShell line) :
    let first := shell ⟨d, p⟩ as none none
    let whole := shell ⟨d, p⟩ (as ++ (Utf8.encode "cd\n".toList ++ bs)) none none
    ∃ (t w : Store) (p' : Place) (d' : Device), first.unmount = (.ok (), t) ∧
      Store.openFile (.image t.image) = .ok w ∧
      Place.mount g (Device.ofStore w) = .ok p' d' ∧
      let second := shell ⟨d', p'⟩ bs none none
      ∃ x y : Store, second.unmount = (.ok (), x) ∧ whole.unmount = (.ok (), y) ∧
        x.image.toBytes = y.image.toBytes ∧
        first.output.written ++ second.output.written = whole.output.written := by
  have hdisk : s.OnDisk := Store.onDisk_of_openImage hopen
  obtain ⟨rfl, hd, hserves, hdir⟩ := Place.mount_eq_ok hmount hdisk.toWellFormed
  have hstore : d.store = s := hd.store
  have hroot : d.store.Rooted g := hstore ▸ ⟨hdisk, hserves, hdir⟩
  obtain ⟨t, d', hsplit⟩ := exists_split (u := ⟨d, ⟨g, rootBlock⟩⟩) hroot hd.plan rfl hend hstay bs
  exact ⟨t, t, ⟨g, rootBlock⟩, d', hsplit⟩

/-- A directory is made and entered, and a file is made in the root then. -/
theorem shell_split_new : ∃ (s : Store) (d : Device) (t w : Store) (p' : Place) (d' : Device),
    Store.create .absent 4096 8 = .ok s ∧
      Place.mount {} (Device.ofStore s) = .ok ⟨{}, rootBlock⟩ d ∧
      (shell ⟨d, ⟨{}, rootBlock⟩⟩ (Utf8.encode "mkdir a\ncd a\n".toList) none none).unmount =
        (.ok (), t) ∧
      Store.openFile (.image t.image) = .ok w ∧
      Place.mount {} (Device.ofStore w) = .ok p' d' ∧
      ∃ x : Store,
        (shell ⟨d', p'⟩ (Utf8.encode "touch b\n".toList) none none).unmount = (.ok (), x) := by
  obtain ⟨m, hm⟩ : ∃ m, Store.inMemory 4096 8 = .ok m := ⟨_, rfl⟩
  obtain ⟨s, hs⟩ : ∃ s, Store.create .absent 4096 8 = .ok s := ⟨_, rfl⟩
  obtain ⟨hopen, d, hd, -⟩ := exists_mount_of_create (g := {}) (by decide) (by decide) hm hs
    (by decide) (by decide) (by decide)
  have hlines : inputLines (Utf8.encode "mkdir a\ncd a\n".toList) =
      [Utf8.encode "mkdir a\n".toList, Utf8.encode "cd a\n".toList] := by decide
  have hstay : ∀ line ∈ inputLines (Utf8.encode "mkdir a\ncd a\n".toList),
      ¬ LeavesShell line := by
    rw [hlines, List.forall_mem_cons, List.forall_mem_singleton, leavesShell_encode,
      leavesShell_encode]
    exact ⟨by decide, by decide⟩
  obtain ⟨t, w, p', d', hfirst, hopen', hmount', x, -, hsecond, -⟩ :=
    shell_split hopen hd (Utf8.encode "mkdir a\ncd a\n".toList) (Utf8.encode "touch b\n".toList)
      (.inr ⟨Utf8.encode "mkdir a\ncd a".toList, by decide⟩) hstay
  exact ⟨s, d, t, w, p', d', hs, hd, hfirst, hopen', hmount', x, hsecond⟩

end Session
end BlockFS
