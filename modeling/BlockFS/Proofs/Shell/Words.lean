/-
The words of a text, and the texts that some words make up.

White space may stand around words and has to stand between any two of them; which, and how much,
does not matter.  `Spaced` says this of a text, and `words_eq_iff` that the words of a text are
the only ones it says it for.
-/
import BlockFS.Text.Words
import Mathlib.Data.List.DropRight

namespace BlockFS

variable {cs gap w : List Char} {ws : List (List Char)}

def AllBlank (cs : List Char) : Prop := ∀ c ∈ cs, isBlank c = true

/-- Characters with no white space among them. -/
def IsWord (w : List Char) : Prop := w ≠ [] ∧ ∀ c ∈ w, isBlank c = false

instance (w : List Char) : Decidable (IsWord w) :=
  decidable_of_iff (w ≠ [] ∧ w.all (! isBlank ·) = true) (by simp [IsWord])

/-- White space comes next, or nothing. -/
def AtBlank (cs : List Char) : Prop := ∀ c ∈ cs.head?, isBlank c = true

/-- A text of words in this order, with white space around them. -/
inductive Spaced : List (List Char) → List Char → Prop where
  | blank {gap : List Char} (h : AllBlank gap) : Spaced [] gap
  | word {gap w cs : List Char} {ws : List (List Char)} (hgap : AllBlank gap) (hcs : AtBlank cs)
    (h : Spaced ws cs) : Spaced (w :: ws) (gap ++ (w ++ cs))

/-! ## From words to texts -/

theorem words_append_of_allBlank (h : AllBlank gap) (cs : List Char) :
    words (gap ++ cs) = words cs := by
  induction gap with
  | nil => rfl
  | cons c gap ih =>
    obtain ⟨hc, hgap⟩ := List.forall_mem_cons.1 h
    rw [List.cons_append, words_blank hc, ih hgap]

theorem words_of_allBlank (h : AllBlank cs) : words cs = [] := by
  have hcs := words_append_of_allBlank h []
  rwa [List.append_nil] at hcs

theorem words_append_of_atBlank (hw : IsWord w) (hcs : AtBlank cs) :
    words (w ++ cs) = w :: words cs := by
  cases cs with
  | nil =>
    rw [List.append_nil]
    exact words_of_forall hw.1 hw.2
  | cons c cs =>
    have hc : isBlank c = true := hcs c rfl
    rw [words_append_blank hw.1 hw.2 hc, words_blank hc]

theorem Spaced.words_eq (h : Spaced ws cs) (hws : ∀ w ∈ ws, IsWord w) : words cs = ws := by
  induction h with
  | blank h => exact words_of_allBlank h
  | word hgap hcs h ih =>
    obtain ⟨hw, hws⟩ := List.forall_mem_cons.1 hws
    rw [words_append_of_allBlank hgap, words_append_of_atBlank hw hcs, ih hws]

/-! ## From texts to words -/

theorem atBlank_dropWhile (cs : List Char) : AtBlank (cs.dropWhile fun c => ! isBlank c) := by
  intro c hc
  have hstop := List.head?_dropWhile_not (fun c => ! isBlank c) cs
  rw [hc] at hstop
  simpa using hstop

/-- White space, or a word with white space in front of it. -/
theorem allBlank_or_word (cs : List Char) : AllBlank cs ∨
    ∃ gap w rest, AllBlank gap ∧ IsWord w ∧ AtBlank rest ∧ cs = gap ++ (w ++ rest) := by
  have hgap : AllBlank (cs.takeWhile isBlank) := fun c hc => List.mem_takeWhile_imp hc
  have hcs := List.takeWhile_append_dropWhile (p := isBlank) (l := cs)
  cases hbody : cs.dropWhile isBlank with
  | nil =>
    rw [hbody, List.append_nil] at hcs
    exact .inl (hcs ▸ hgap)
  | cons c body =>
    have hc := List.head?_dropWhile_not isBlank cs
    rw [hbody] at hc
    have hc : isBlank c = false := by simpa using hc
    have hword : IsWord ((c :: body).takeWhile fun c => ! isBlank c) := by
      refine ⟨by simp [hc], fun d hd => ?_⟩
      simpa using List.mem_takeWhile_imp hd
    refine .inr ⟨_, _, _, hgap, hword, atBlank_dropWhile (c :: body), ?_⟩
    rw [List.takeWhile_append_dropWhile, ← hbody, hcs]

theorem spaced_words (cs : List Char) : Spaced (words cs) cs ∧ ∀ w ∈ words cs, IsWord w := by
  rcases allBlank_or_word cs with h | ⟨gap, w, rest, hgap, hw, hrest, rfl⟩
  · rw [words_of_allBlank h]
    exact ⟨.blank h, fun w hw => absurd hw List.not_mem_nil⟩
  · have hlt : 0 < w.length := List.length_pos_iff.2 hw.1
    obtain ⟨hspaced, hwords⟩ := spaced_words rest
    rw [words_append_of_allBlank hgap, words_append_of_atBlank hw hrest]
    exact ⟨.word hgap hrest hspaced, List.forall_mem_cons.2 ⟨hw, hwords⟩⟩
termination_by cs.length
decreasing_by
  subst_vars
  simp only [List.length_append]
  omega

/-- The words of a text are the only words that it is a text of. -/
theorem words_eq_iff : words cs = ws ↔ Spaced ws cs ∧ ∀ w ∈ ws, IsWord w := by
  constructor
  · rintro rfl
    exact spaced_words cs
  · rintro ⟨hspaced, hws⟩
    exact hspaced.words_eq hws

/-! ## Trimming -/

/-- A text without the white space at its ends. -/
def trim (cs : List Char) : List Char := (cs.dropWhile isBlank).rdropWhile isBlank

theorem head?_rdropWhile {c : Char} (hc : isBlank c = false) (cs : List Char) :
    ((c :: cs).rdropWhile isBlank).head? = some c := by
  obtain ⟨rest, hrest⟩ := List.rdropWhile_prefix isBlank (c :: cs)
  cases hkept : (c :: cs).rdropWhile isBlank with
  | nil =>
    have hblank := List.rdropWhile_eq_nil_iff.1 hkept c List.mem_cons_self
    rw [hc] at hblank
    cases hblank
  | cons d kept =>
    rw [hkept] at hrest
    cases hrest
    rfl

/-- A text that has been trimmed begins where its first word does. -/
theorem head?_trim (cs : List Char) : (trim cs).head? = (words cs).head?.bind List.head? := by
  unfold trim
  rcases allBlank_or_word cs with h | ⟨gap, w, rest, hgap, hw, hrest, rfl⟩
  · have hnil : cs.dropWhile isBlank = [] := List.dropWhile_eq_nil_iff.2 h
    rw [words_of_allBlank h, hnil]
    rfl
  · rw [words_append_of_allBlank hgap, words_append_of_atBlank hw hrest,
      List.dropWhile_append_of_pos hgap]
    cases w with
    | nil => exact absurd rfl hw.1
    | cons c w =>
      have hc : isBlank c = false := hw.2 c List.mem_cons_self
      rw [List.cons_append, List.dropWhile_cons_of_neg (by simp [hc]), head?_rdropWhile hc]
      rfl

end BlockFS
