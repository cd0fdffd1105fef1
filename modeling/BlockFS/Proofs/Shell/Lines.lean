/-
Lines of words, one at a time.

`lineOf` joins words by single blanks and ends the line.  No word has a newline in it, so the shell
reads back one line (`inputLines_lineOf`) and in it the words that were joined (`words_lineOf`).
If they are those of a command, what the shell writes and does for the line is what it does for
the command (`Session.shell_lineOf`).
-/
import BlockFS.Proofs.Shell.Commands
import BlockFS.Proofs.Shell.Splitting

namespace BlockFS

variable {c : Char} {cs : List Char} {bs : Bytes} {ws : List String}

/-! ## Newlines -/

theorem newline_ne_ofNat {n : Nat} (h : n % 256 ≠ 10) : newline ≠ UInt8.ofNat n := by
  intro heq
  exact h (congrArg UInt8.toNat heq).symm

/-- All bytes of a longer character are above those of the short ones. -/
theorem newline_not_mem_utf8EncodeChar (h : c ≠ '\n') : newline ∉ String.utf8EncodeChar c := by
  have hval : c.val.toNat ≠ 10 := fun hval => h (Char.ext (UInt32.toNat_inj.1 hval))
  simp only [String.utf8EncodeChar]
  split
  · simp only [List.mem_singleton]
    exact newline_ne_ofNat (by omega)
  split
  · simp only [List.mem_cons, List.not_mem_nil, or_false, not_or]
    exact ⟨newline_ne_ofNat (by omega), newline_ne_ofNat (by omega)⟩
  split
  · simp only [List.mem_cons, List.not_mem_nil, or_false, not_or]
    exact ⟨newline_ne_ofNat (by omega), newline_ne_ofNat (by omega), newline_ne_ofNat (by omega)⟩
  · simp only [List.mem_cons, List.not_mem_nil, or_false, not_or]
    exact ⟨newline_ne_ofNat (by omega), newline_ne_ofNat (by omega), newline_ne_ofNat (by omega),
      newline_ne_ofNat (by omega)⟩

theorem newline_not_mem_encode (h : '\n' ∉ cs) : newline ∉ Utf8.encode cs := by
  intro hmem
  obtain ⟨c, hc, hbyte⟩ := List.mem_flatMap.1 hmem
  exact newline_not_mem_utf8EncodeChar (fun heq => h (heq ▸ hc)) hbyte

theorem inputLines_line (h : newline ∉ bs) : inputLines (bs ++ [newline]) = [bs ++ [newline]] := by
  induction bs with
  | nil => rfl
  | cons b bs ih =>
    have hb : b ≠ newline := (List.ne_of_not_mem_cons h).symm
    rw [List.cons_append, inputLines_cons, if_neg hb, ih (List.not_mem_of_not_mem_cons h)]

/-! ## Words on a line -/

/-- The line of some words, with a blank between any two of them. -/
def lineOf (ws : List String) : Bytes := Utf8.encode (" ".intercalate ws ++ "\n").toList

theorem words_intercalate {ws : List (List Char)} (h : ∀ w ∈ ws, IsWord w) :
    words ([' '].intercalate ws ++ ['\n']) = ws := by
  induction ws with
  | nil => rfl
  | cons w ws ih =>
    obtain ⟨hw, hws⟩ := List.forall_mem_cons.1 h
    cases ws with
    | nil =>
      rw [List.intercalate_singleton, words_append_of_atBlank hw (by simp [AtBlank]; rfl)]
      rfl
    | cons v ws =>
      rw [List.intercalate_cons_cons, List.append_assoc, List.append_assoc,
        words_append_of_atBlank hw (by simp [AtBlank]; rfl), List.singleton_append,
        words_blank rfl, ih hws]

theorem newline_not_mem_word {w : List Char} (h : IsWord w) : '\n' ∉ w := by
  intro hmem
  cases h.2 _ hmem

theorem newline_not_mem_intercalate {ws : List (List Char)} (h : ∀ w ∈ ws, IsWord w) :
    '\n' ∉ [' '].intercalate ws := by
  induction ws with
  | nil => exact List.not_mem_nil
  | cons w ws ih =>
    obtain ⟨hw, hws⟩ := List.forall_mem_cons.1 h
    cases ws with
    | nil =>
      rw [List.intercalate_singleton]
      exact newline_not_mem_word hw
    | cons v ws =>
      rw [List.intercalate_cons_cons, List.mem_append, List.mem_append]
      rintro ((hmem | hmem) | hmem)
      · exact newline_not_mem_word hw hmem
      · cases List.mem_singleton.1 hmem
      · exact ih hws hmem

theorem toList_lineOf (ws : List String) : (" ".intercalate ws ++ "\n").toList =
    [' '].intercalate (ws.map String.toList) ++ ['\n'] := by
  rw [String.toList_append, String.toList_intercalate]
  rfl

theorem words_lineOf (h : ∀ w ∈ ws, IsWord w.toList) :
    words (" ".intercalate ws ++ "\n").toList = ws.map String.toList := by
  rw [toList_lineOf]
  exact words_intercalate (List.forall_mem_map.2 h)

theorem inputLines_lineOf (h : ∀ w ∈ ws, IsWord w.toList) :
    inputLines (lineOf ws) = [lineOf ws] := by
  have hnewline := newline_not_mem_encode (newline_not_mem_intercalate (List.forall_mem_map.2 h))
  rw [lineOf, toList_lineOf, Utf8.encode_append]
  exact inputLines_line hnewline

namespace Session

variable {u : Session} {c : Command}

theorem transcript_singleton (u : Session) (line : Bytes) :
    u.transcript none [line] = Output.bytesOf (u.respond line).1.texts := by
  by_cases hleave : LeavesShell line
  · rw [(unlimited_of_leaves u none hleave []).2]
    rfl
  · rw [(unlimited_of_not_leaves u none hleave []).2, (unlimited_nil _ none).2]
    exact List.append_nil _

/-- A line with the words of a command is carried out like the command. -/
theorem shell_lineOf (hc : c.Sayable) (hws : ws.map String.toList = c.toWords) (u : Session) :
    (u.shell (lineOf ws) none none).session = (u.execute c).2 ∧
      (u.shell (lineOf ws) none none).output.written = Output.bytesOf (u.execute c).1.texts := by
  have hwords : ∀ w ∈ ws, IsWord w.toList := by
    have h := Command.isWord_toWords hc
    rw [← hws] at h
    exact List.forall_mem_map.1 h
  have hrespond : u.respond (lineOf ws) = u.execute c := by
    have hdecode : Utf8.decode (lineOf ws) = .ok (" ".intercalate ws ++ "\n").toList :=
      Utf8.decode_eq_ok_iff.2 rfl
    have hline := Command.ofLine_of_words hc ((words_lineOf hwords).trans hws)
    simp only [respond, hdecode, hline]
  rw [shell, inputLines_lineOf hwords]
  show (u.unlimited none _).session = _ ∧ u.transcript none _ = _
  rw [unlimited_singleton, transcript_singleton, hrespond]
  exact ⟨rfl, rfl⟩

theorem shell_operation {op : Operation} (hc : c.Sayable) (hop : c.meaning = .operation op)
    (hws : ws.map String.toList = c.toWords) (u : Session) :
    (u.shell (lineOf ws) none none).session = (u.run op).2 ∧
      (u.shell (lineOf ws) none none).output.written =
        Output.bytesOf (Response.ofAnswer (u.run op).1).texts := by
  obtain ⟨hsession, hwritten⟩ := shell_lineOf hc hws u
  have hexecute : u.execute c = (.ofAnswer (u.run op).1, (u.run op).2) := by
    simp only [execute, hop]
  rw [hsession, hwritten, hexecute]
  exact ⟨rfl, rfl⟩

end Session
end BlockFS
