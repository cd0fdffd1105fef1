/-
Words, the parts of a text between white space.

`words_blank` and `words_append_blank` determine the words of every text.
-/

namespace BlockFS

/-- The characters with the Unicode property White_Space. -/
def isBlank (c : Char) : Bool :=
  let n := c.toNat
  (0x09 ≤ n && n ≤ 0x0D) || n == 0x20 || n == 0x85 || n == 0xA0 || n == 0x1680 ||
    (0x2000 ≤ n && n ≤ 0x200A) || n == 0x2028 || n == 0x2029 || n == 0x202F || n == 0x205F ||
    n == 0x3000

theorem isBlank_of_isWhitespace {c : Char} (h : c.isWhitespace = true) : isBlank c = true := by
  simp only [Char.isWhitespace, Bool.or_eq_true, decide_eq_true_eq] at h
  rcases h with ((rfl | rfl) | rfl) | rfl <;> rfl

namespace Words

/-- Puts the word being read in front of the others, unless it is empty. -/
def flush : List Char × List (List Char) → List (List Char)
  | ([], ws) => ws
  | (w, ws) => w :: ws

/-- Reads one more character at the front. -/
def step (c : Char) (s : List Char × List (List Char)) : List Char × List (List Char) :=
  if isBlank c then ([], flush s) else (c :: s.1, s.2)

end Words

def words (cs : List Char) : List (List Char) :=
  Words.flush (cs.foldr Words.step ([], []))

@[simp] theorem words_nil : words [] = [] := rfl

theorem words_blank {c : Char} (h : isBlank c = true) (cs : List Char) :
    words (c :: cs) = words cs := by
  simp [words, Words.step, h, Words.flush]

theorem foldr_step_append {w : List Char} (h : ∀ c ∈ w, isBlank c = false)
    (s : List Char × List (List Char)) :
    w.foldr Words.step s = (w ++ s.1, s.2) := by
  induction w with
  | nil => rfl
  | cons c w ih =>
    rw [List.foldr_cons, ih fun d hd => h d (List.mem_cons_of_mem c hd)]
    simp [Words.step, h c List.mem_cons_self]

/-- A word ends where the text does. -/
theorem words_of_forall {w : List Char} (hw : w ≠ []) (h : ∀ c ∈ w, isBlank c = false) :
    words w = [w] := by
  rw [words, foldr_step_append h, List.append_nil]
  cases w with
  | nil => exact absurd rfl hw
  | cons c w => rfl

/-- A word ends before white space. -/
theorem words_append_blank {w : List Char} (hw : w ≠ []) (h : ∀ c ∈ w, isBlank c = false)
    {b : Char} (hb : isBlank b = true) (cs : List Char) :
    words (w ++ b :: cs) = w :: words cs := by
  rw [words, List.foldr_append, List.foldr_cons, foldr_step_append h]
  simp only [Words.step, hb, if_true, List.append_nil]
  cases w with
  | nil => exact absurd rfl hw
  | cons c w => rfl

end BlockFS
