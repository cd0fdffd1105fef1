/-
How far a shell gets, and what it has written by then.

A shell on an output that takes any number of bytes runs until its input ends or a line leaves
it.  What it writes is its transcript, and it depends on nothing that was written before
(`runShell_none`).  On an output that stops taking bytes the shell carries out the same lines
up to the first text that is not taken whole, and the bytes taken are a prefix of the
transcript, whatever text and wherever in it the output stops (`exists_getsThrough`).
-/
import BlockFS.Shell.Run

namespace BlockFS

/-! ## Outputs -/

namespace Output

/-- The bytes of texts in a row. -/
def bytesOf (texts : List String) : Bytes := texts.flatMap fun text => Utf8.encode text.toList

/-- An output with room for no more than `room` bytes takes `n` bytes. -/
def Takes (room : Option Nat) (n : Nat) : Prop := ∀ limit ∈ room, n ≤ limit

instance (room : Option Nat) (n : Nat) : Decidable (Takes room n) :=
  inferInstanceAs (Decidable (∀ limit ∈ room, n ≤ limit))

/-- What an output takes of some bytes. -/
def cut (room : Option Nat) (bs : Bytes) : Bytes :=
  match room with
  | none => bs
  | some limit => bs.take limit

/-- The room that is left after `n` bytes. -/
def less (room : Option Nat) (n : Nat) : Option Nat := room.map (· - n)

variable {room : Option Nat} {m n : Nat} {as bs : Bytes}

theorem takes_none (n : Nat) : Takes none n := fun _ h => nomatch h

theorem takes_some {limit : Nat} : Takes (some limit) n ↔ n ≤ limit := by
  simp [Takes]

theorem takes_add : Takes room (m + n) ↔ Takes room m ∧ Takes (less room m) n := by
  cases room with
  | none => exact ⟨fun _ => ⟨takes_none m, takes_none n⟩, fun _ => takes_none _⟩
  | some limit =>
    show Takes (some limit) (m + n) ↔ Takes (some limit) m ∧ Takes (some (limit - m)) n
    simp only [takes_some]
    omega

theorem Takes.mono (h : Takes room n) (hle : m ≤ n) : Takes room m :=
  fun limit hlimit => Nat.le_trans hle (h limit hlimit)

theorem less_less (room : Option Nat) (m n : Nat) : less (less room m) n = less room (m + n) := by
  cases room with
  | none => rfl
  | some limit => exact congrArg some (Nat.sub_sub limit m n)

theorem cut_of_takes (h : Takes room bs.length) : cut room bs = bs := by
  cases room with
  | none => rfl
  | some limit => exact List.take_of_length_le (takes_some.1 h)

theorem cut_append_of_takes (h : Takes room as.length) (bs : Bytes) :
    cut room (as ++ bs) = as ++ cut (less room as.length) bs := by
  cases room with
  | none => rfl
  | some limit =>
    show (as ++ bs).take limit = as ++ bs.take (limit - as.length)
    rw [List.take_append, List.take_of_length_le (takes_some.1 h)]

theorem cut_append_of_not_takes (h : ¬ Takes room as.length) (bs : Bytes) :
    cut room (as ++ bs) = cut room as ∧ less room as.length = less room (as ++ bs).length := by
  cases room with
  | none => exact absurd (takes_none _) h
  | some limit =>
    rw [takes_some] at h
    constructor
    · exact List.take_append_of_le_length (by omega)
    · show some (limit - _) = some (limit - _)
      rw [List.length_append]
      congr 1
      omega

theorem write_eq (o : Output) (text : String) :
    o.write text = (⟨o.written ++ cut o.room (Utf8.encode text.toList),
      less o.room (Utf8.encode text.toList).length⟩,
      decide (Takes o.room (Utf8.encode text.toList).length)) := by
  obtain ⟨written, room⟩ := o
  cases room with
  | none => simp [write, cut, less, takes_none]
  | some limit =>
    simp only [write, cut, less, Option.map_some, takes_some]
    split
    · next h => simp [List.take_of_length_le h, h]
    · next h =>
      have hzero : limit - (Utf8.encode text.toList).length = 0 := by omega
      simp [h, hzero]

/-- Texts are taken together like one text, up to the room there is. -/
theorem writeAll_eq (o : Output) (texts : List String) :
    o.writeAll texts = (⟨o.written ++ cut o.room (bytesOf texts),
      less o.room (bytesOf texts).length⟩, decide (Takes o.room (bytesOf texts).length)) := by
  induction texts generalizing o with
  | nil =>
    obtain ⟨written, room⟩ := o
    have htakes : Takes room 0 := fun _ _ => Nat.zero_le _
    cases room <;> simp [writeAll, bytesOf, cut, less, htakes]
  | cons text texts ih =>
    have hbytes : bytesOf (text :: texts) = Utf8.encode text.toList ++ bytesOf texts := rfl
    rw [writeAll, write_eq, hbytes]
    by_cases h : Takes o.room (Utf8.encode text.toList).length
    · simp only [h, decide_true, ih, cut_of_takes h, cut_append_of_takes h, less_less,
        List.length_append, takes_add, true_and, List.append_assoc]
    · obtain ⟨hcut, hless⟩ := cut_append_of_not_takes h (bytesOf texts)
      have hall : ¬ Takes o.room (Utf8.encode text.toList ++ bytesOf texts).length :=
        fun h' => h (h'.mono (by simp))
      simp only [h, decide_false, hcut, hless, hall]

end Output

/-! ## Lines that leave the shell -/

/-- A line that is parsed as the command to leave the shell. -/
def LeavesShell (line : Bytes) : Prop :=
  ∃ cs, Utf8.decode line = .ok cs ∧ Command.ofLine cs = some (.ok .exit)

theorem leavesShell_encode (cs : List Char) :
    LeavesShell (Utf8.encode cs) ↔ Command.ofLine cs = some (.ok .exit) := by
  have hdecode : Utf8.decode (Utf8.encode cs) = .ok cs := Utf8.decode_eq_ok_iff.2 rfl
  unfold LeavesShell
  rw [hdecode]
  constructor
  · rintro ⟨_, ⟨⟩, hexit⟩
    exact hexit
  · exact fun h => ⟨cs, rfl, h⟩

namespace Session

theorem leave_execute (u : Session) (c : Command) :
    (u.execute c).1.leave = true ↔ c = .exit := by
  have hanswer : ∀ a, (Response.ofAnswer a).leave = false := by
    intro a
    cases a <;> rfl
  have hcheck : ∀ r, (Response.ofCheck r).leave = false := by
    intro r
    cases r <;> rfl
  cases c <;> simp [execute, Command.meaning, hanswer, hcheck, Response.ofLines]

theorem leave_respond (u : Session) (line : Bytes) :
    (u.respond line).1.leave = true ↔ LeavesShell line := by
  unfold respond LeavesShell
  cases Utf8.decode line with
  | error fault => simp [Response.ofLines]
  | ok cs =>
    cases hline : Command.ofLine cs with
    | none => simp [hline]
    | some c =>
      cases c with
      | error misuse => simp [hline]
      | ok c => simp [hline, leave_execute]

/-! ## Unlimited outputs -/

/-- The end of a shell on an output that takes any number of bytes. -/
def unlimited (u : Session) (prompt : Option String) (lines : List Bytes) : ShellEnd :=
  runShell prompt u (.fresh none) lines

/-- What a shell writes on such an output. -/
def transcript (u : Session) (prompt : Option String) (lines : List Bytes) : Bytes :=
  (u.unlimited prompt lines).output.written

variable {u : Session} {prompt : Option String} {room : Option Nat} {line : Bytes}
  {lines : List Bytes}

/-- What is written in front of the output of a line. -/
def promptBytes (prompt : Option String) : Bytes := Output.bytesOf prompt.toList

/-- The prompt and what is written for one line. -/
def exchange (u : Session) (prompt : Option String) (line : Bytes) : Bytes :=
  promptBytes prompt ++ Output.bytesOf (u.respond line).1.texts

theorem runShell_nil (prompt : Option String) (u : Session) (o : Output) :
    runShell prompt u o [] =
      ⟨u, ⟨o.written ++ Output.cut o.room (promptBytes prompt),
        Output.less o.room (promptBytes prompt).length⟩,
        decide (Output.Takes o.room (promptBytes prompt).length)⟩ := by
  rw [runShell, Output.writeAll_eq]
  rfl

/-- If the output takes all that is written for the first line, what is left is to run the
shell over the others. -/
theorem runShell_cons_of_takes {o : Output}
    (h : Output.Takes o.room (u.exchange prompt line).length) (lines : List Bytes) :
    runShell prompt u o (line :: lines) =
      if (u.respond line).1.leave then
        ⟨(u.respond line).2, ⟨o.written ++ u.exchange prompt line,
          Output.less o.room (u.exchange prompt line).length⟩, true⟩
      else runShell prompt (u.respond line).2 ⟨o.written ++ u.exchange prompt line,
        Output.less o.room (u.exchange prompt line).length⟩ lines := by
  unfold exchange promptBytes at h ⊢
  rw [List.length_append, Output.takes_add] at h
  obtain ⟨hprompt, htexts⟩ := h
  rw [runShell]
  simp only [Output.writeAll_eq, hprompt, htexts, decide_true, Output.cut_of_takes,
    Output.less_less, List.append_assoc, List.length_append]

/-- An output that does not take all of it gets a part. -/
theorem runShell_cons_of_not_takes {o : Output}
    (h : ¬ Output.Takes o.room (u.exchange prompt line).length) (lines : List Bytes) :
    runShell prompt u o (line :: lines) =
      ⟨if Output.Takes o.room (promptBytes prompt).length then (u.respond line).2 else u,
        ⟨o.written ++ Output.cut o.room (u.exchange prompt line),
          Output.less o.room (u.exchange prompt line).length⟩, false⟩ := by
  rw [runShell]
  unfold exchange promptBytes at h ⊢
  by_cases hprompt : Output.Takes o.room (Output.bytesOf prompt.toList).length
  · have htexts : ¬ Output.Takes (Output.less o.room (Output.bytesOf prompt.toList).length)
        (Output.bytesOf (u.respond line).1.texts).length := by
      intro htexts
      rw [List.length_append] at h
      exact h (Output.takes_add.2 ⟨hprompt, htexts⟩)
    simp only [Output.writeAll_eq, hprompt, htexts, decide_true, decide_false, if_true,
      Output.cut_of_takes, Output.cut_append_of_takes, Output.less_less, List.append_assoc,
      List.length_append]
  · obtain ⟨hcut, hless⟩ := Output.cut_append_of_not_takes hprompt
      (Output.bytesOf (u.respond line).1.texts)
    simp only [Output.writeAll_eq, hprompt, decide_false, if_false, hcut, hless]

/-- What has been written before makes no difference to an unlimited output. -/
theorem runShell_none (prompt : Option String) (u : Session) (written : Bytes)
    (lines : List Bytes) :
    runShell prompt u ⟨written, none⟩ lines =
      ⟨(u.unlimited prompt lines).session, ⟨written ++ u.transcript prompt lines, none⟩, true⟩ := by
  unfold transcript unlimited Output.fresh
  induction lines generalizing u written with
  | nil => simp [runShell_nil, Output.cut, Output.less, Output.takes_none]
  | cons line lines ih =>
    have htakes : ∀ n, Output.Takes none n := Output.takes_none
    rw [runShell_cons_of_takes (htakes _), runShell_cons_of_takes (htakes _)]
    split
    · simp [Output.less]
    · show runShell _ _ ⟨_, none⟩ _ = ⟨(runShell _ _ ⟨_, none⟩ _).session,
        ⟨_ ++ (runShell _ _ ⟨_, none⟩ _).output.written, _⟩, _⟩
      rw [ih, ih (u.respond line).2 ([] ++ u.exchange prompt line)]
      simp

theorem unlimited_nil (u : Session) (prompt : Option String) :
    (u.unlimited prompt []).session = u ∧ u.transcript prompt [] = promptBytes prompt := by
  unfold transcript unlimited Output.fresh
  rw [runShell_nil]
  exact ⟨rfl, rfl⟩

theorem unlimited_of_leaves (u : Session) (prompt : Option String) (h : LeavesShell line)
    (lines : List Bytes) :
    (u.unlimited prompt (line :: lines)).session = (u.respond line).2 ∧
      u.transcript prompt (line :: lines) = u.exchange prompt line := by
  unfold transcript unlimited Output.fresh
  rw [runShell_cons_of_takes (Output.takes_none _), if_pos ((leave_respond u line).2 h)]
  exact ⟨rfl, rfl⟩

theorem unlimited_of_not_leaves (u : Session) (prompt : Option String) (h : ¬ LeavesShell line)
    (lines : List Bytes) :
    (u.unlimited prompt (line :: lines)).session =
        ((u.respond line).2.unlimited prompt lines).session ∧
      u.transcript prompt (line :: lines) =
        u.exchange prompt line ++ (u.respond line).2.transcript prompt lines := by
  have hrun : u.unlimited prompt (line :: lines) =
      runShell prompt (u.respond line).2 ⟨u.exchange prompt line, none⟩ lines := by
    unfold unlimited Output.fresh
    rw [runShell_cons_of_takes (Output.takes_none _),
      if_neg fun hleave => h ((leave_respond u line).1 hleave)]
    rfl
  unfold transcript
  rw [hrun, runShell_none]
  exact ⟨rfl, rfl⟩

theorem unlimited_singleton (u : Session) (prompt : Option String) (line : Bytes) :
    (u.unlimited prompt [line]).session = (u.respond line).2 := by
  by_cases hleave : LeavesShell line
  · exact (unlimited_of_leaves u prompt hleave []).1
  · rw [(unlimited_of_not_leaves u prompt hleave []).1, (unlimited_nil _ prompt).1]

/-- A transcript begins with what is written for the first line. -/
theorem exists_transcript_cons (u : Session) (prompt : Option String) (line : Bytes)
    (lines : List Bytes) :
    ∃ rest, u.transcript prompt (line :: lines) = u.exchange prompt line ++ rest := by
  by_cases hleave : LeavesShell line
  · exact ⟨[], ((unlimited_of_leaves u prompt hleave lines).2).trans (List.append_nil _).symm⟩
  · exact ⟨_, (unlimited_of_not_leaves u prompt hleave lines).2⟩

theorem takes_exchange_of_transcript
    (h : Output.Takes room (u.transcript prompt (line :: lines)).length) :
    Output.Takes room (u.exchange prompt line).length := by
  obtain ⟨rest, hrest⟩ := exists_transcript_cons u prompt line lines
  refine h.mono ?_
  rw [hrest, List.length_append]
  exact Nat.le_add_right _ _

theorem takes_prompt_of_exchange (h : Output.Takes room (u.exchange prompt line).length) :
    Output.Takes room (promptBytes prompt).length := by
  refine h.mono ?_
  rw [exchange, List.length_append]
  exact Nat.le_add_right _ _

/-! ## Limited outputs -/

/-- How many lines a shell carries out on an output that takes no more than `room` bytes.  Before
the last of them none has left the shell, and all that had been written was taken, the prompt
before that line included.  With it the input ends, or it leaves the shell, or not all is taken
that is written up to the next line. -/
structure GetsThrough (u : Session) (prompt : Option String) (room : Option Nat)
    (lines : List Bytes) (n : Nat) : Prop where
  le : n ≤ lines.length
  stays : ∀ j < n, ∀ line ∈ lines.take j, ¬ LeavesShell line
  takes : ∀ j < n, Output.Takes room (u.transcript prompt (lines.take j)).length
  stops : n = lines.length ∨ (∃ line ∈ lines.take n, LeavesShell line) ∨
    ¬ Output.Takes room (u.transcript prompt (lines.take n)).length

theorem getsThrough_zero (h : ¬ Output.Takes room (promptBytes prompt).length) :
    u.GetsThrough prompt room lines 0 := by
  refine ⟨Nat.zero_le _, fun j hj => absurd hj (Nat.not_lt_zero j),
    fun j hj => absurd hj (Nat.not_lt_zero j), .inr (.inr ?_)⟩
  rwa [List.take_zero, (unlimited_nil u prompt).2]

theorem getsThrough_one (hprompt : Output.Takes room (promptBytes prompt).length)
    (h : LeavesShell line ∨ ¬ Output.Takes room (u.exchange prompt line).length) :
    u.GetsThrough prompt room (line :: lines) 1 := by
  have hfirst : (line :: lines).take 1 = [line] := rfl
  refine ⟨Nat.succ_le_succ (Nat.zero_le _), ?_, ?_, ?_⟩
  · intro j hj l hl
    rw [Nat.lt_one_iff.1 hj] at hl
    exact absurd hl List.not_mem_nil
  · intro j hj
    rw [Nat.lt_one_iff.1 hj, List.take_zero, (unlimited_nil u prompt).2]
    exact hprompt
  · rw [hfirst]
    by_cases hleave : LeavesShell line
    · exact .inr (.inl ⟨line, List.mem_singleton_self line, hleave⟩)
    · exact .inr (.inr fun htakes => h.elim hleave fun hnot =>
        hnot (takes_exchange_of_transcript htakes))

theorem GetsThrough.cons {n : Nat} (hleave : ¬ LeavesShell line)
    (htakes : Output.Takes room (u.exchange prompt line).length)
    (h : (u.respond line).2.GetsThrough prompt
      (Output.less room (u.exchange prompt line).length) lines n) :
    u.GetsThrough prompt room (line :: lines) (n + 1) := by
  have hlength : ∀ j, (u.transcript prompt ((line :: lines).take (j + 1))).length =
      (u.exchange prompt line).length +
        ((u.respond line).2.transcript prompt (lines.take j)).length := by
    intro j
    rw [List.take_succ_cons, (unlimited_of_not_leaves _ _ hleave _).2, List.length_append]
  refine ⟨Nat.succ_le_succ h.le, ?_, ?_, ?_⟩
  · intro j hj l hl
    cases j with
    | zero => exact absurd hl List.not_mem_nil
    | succ j =>
      rcases List.mem_cons.1 hl with rfl | hl
      · exact hleave
      · exact h.stays j (Nat.lt_of_succ_lt_succ hj) l hl
  · intro j hj
    cases j with
    | zero =>
      rw [List.take_zero, (unlimited_nil u prompt).2]
      exact takes_prompt_of_exchange htakes
    | succ j =>
      rw [hlength, Output.takes_add]
      exact ⟨htakes, h.takes j (Nat.lt_of_succ_lt_succ hj)⟩
  · rcases h.stops with hend | ⟨l, hl, hleaves⟩ | hnot
    · exact .inl (congrArg (· + 1) hend)
    · exact .inr (.inl ⟨l, List.mem_cons_of_mem line hl, hleaves⟩)
    · refine .inr (.inr ?_)
      rw [hlength, Output.takes_add]
      exact fun h' => hnot h'.2

/-- On a limited output the shell ends where it would after some of its lines, with as much
written as there is room for. -/
theorem exists_getsThrough (prompt : Option String) (u : Session) (o : Output)
    (lines : List Bytes) :
    ∃ n, u.GetsThrough prompt o.room lines n ∧
      runShell prompt u o lines =
        ⟨(u.unlimited prompt (lines.take n)).session,
          ⟨o.written ++ Output.cut o.room (u.transcript prompt lines),
            Output.less o.room (u.transcript prompt lines).length⟩,
          decide (Output.Takes o.room (u.transcript prompt lines).length)⟩ := by
  induction lines generalizing u o with
  | nil =>
    obtain ⟨hsession, hwritten⟩ := unlimited_nil u prompt
    refine ⟨0, ⟨Nat.le_refl 0, fun j hj => absurd hj (Nat.not_lt_zero j),
      fun j hj => absurd hj (Nat.not_lt_zero j), .inl rfl⟩, ?_⟩
    rw [runShell_nil, List.take_zero, hsession, hwritten]
  | cons line lines ih =>
    by_cases htakes : Output.Takes o.room (u.exchange prompt line).length
    · rw [runShell_cons_of_takes htakes]
      by_cases hleave : LeavesShell line
      · rw [if_pos ((leave_respond u line).2 hleave)]
        refine ⟨1, getsThrough_one (takes_prompt_of_exchange htakes) (.inl hleave), ?_⟩
        have hfirst : (line :: lines).take 1 = [line] := rfl
        rw [hfirst, (unlimited_of_leaves _ _ hleave []).1, (unlimited_of_leaves _ _ hleave lines).2,
          Output.cut_of_takes htakes, decide_eq_true htakes]
      · rw [if_neg fun h => hleave ((leave_respond u line).1 h)]
        obtain ⟨n, hn, hrun⟩ := ih (u.respond line).2 ⟨o.written ++ u.exchange prompt line,
          Output.less o.room (u.exchange prompt line).length⟩
        refine ⟨n + 1, hn.cons hleave htakes, ?_⟩
        rw [hrun, List.take_succ_cons, (unlimited_of_not_leaves _ _ hleave _).1,
          (unlimited_of_not_leaves _ _ hleave _).2, Output.cut_append_of_takes htakes]
        simp only [Output.less_less, List.length_append, Output.takes_add, htakes, true_and,
          List.append_assoc]
    · rw [runShell_cons_of_not_takes htakes]
      obtain ⟨rest, hrest⟩ := exists_transcript_cons u prompt line lines
      obtain ⟨hcut, hless⟩ := Output.cut_append_of_not_takes htakes rest
      rw [decide_eq_false fun h => htakes (takes_exchange_of_transcript h), hrest, hcut, hless]
      by_cases hprompt : Output.Takes o.room (promptBytes prompt).length
      · refine ⟨1, getsThrough_one hprompt (.inr htakes), ?_⟩
        have hfirst : (line :: lines).take 1 = [line] := rfl
        rw [if_pos hprompt, hfirst, unlimited_singleton]
      · refine ⟨0, getsThrough_zero hprompt, ?_⟩
        rw [if_neg hprompt, List.take_zero, (unlimited_nil u prompt).1]

end Session
end BlockFS
