/-
A command is read back from every line that it can be written on.

`Command.toWords` are the words of a command.  Names that begin with a dash would be taken for
flags, and so would a text that begins with one; `Sayable` leaves these out, but nothing about the
words of a text behind its first one (`ofLine_of_spaced`).  A command that is read need not be
`Sayable`, as dashes may stand behind the end of the flags, but its arguments are words
(`isWord_arguments_of_ofLine`).
-/
import BlockFS.Proofs.Shell.Words
import BlockFS.Shell.Command

namespace BlockFS

/-! ## Reading plain words -/

theorem Word.shape_of_head? {w : Word} (h : w.head? ≠ some '-') : w.shape = .plain := by
  cases w with
  | nil => rfl
  | cons c w => exact shape_of_head fun hc => h (congrArg some hc)

theorem Arguments.read_plain {limit : Nat} {ws : List Word} (hlen : ws.length ≤ limit)
    (h : ∀ w ∈ ws, w.head? ≠ some '-') : Arguments.read limit ws = ⟨ws, none⟩ := by
  induction ws generalizing limit with
  | nil => unfold read; rfl
  | cons w ws ih =>
    obtain ⟨hw, hws⟩ := List.forall_mem_cons.1 h
    obtain ⟨limit, rfl⟩ : ∃ n, limit = n + 1 := Nat.exists_eq_add_one.2 (by
      rw [List.length_cons] at hlen
      omega)
    simp only [read, Word.shape_of_head? hw, ih (Nat.le_of_succ_le_succ hlen) hws]
    rfl

/-- Of a text only the first word is looked at. -/
theorem Arguments.readText_plain {w : Word} {ts : List Word} (hw : w.head? ≠ some '-')
    (ht : ∀ t ∈ ts.head?, t.head? ≠ some '-') : readText (w :: ts) = ⟨w :: ts, none⟩ := by
  cases ts with
  | nil => simp only [readText, Word.shape_of_head? hw]
  | cons t ts =>
    simp only [readText, Word.textShape, Word.shape_of_head? hw, Word.shape_of_head? (ht t rfl)]

theorem Arguments.readPlain_subset (limit : Nat) (ws : List Word) :
    (readPlain limit ws).words ⊆ ws := by
  induction ws generalizing limit with
  | nil => cases limit <;> exact List.nil_subset _
  | cons w ws ih =>
    cases limit with
    | zero => exact List.nil_subset _
    | succ limit => exact List.cons_subset_cons w (ih limit)

theorem Arguments.read_subset (limit : Nat) (ws : List Word) : (read limit ws).words ⊆ ws := by
  induction ws generalizing limit with
  | nil => unfold read; exact List.nil_subset _
  | cons w ws ih =>
    unfold read
    split
    · exact List.subset_cons_of_subset w (readPlain_subset _ ws)
    · exact List.nil_subset _
    · exact List.nil_subset _
    · exact List.cons_subset_cons w (ih _)

theorem Arguments.readText_subset (ws : List Word) : (readText ws).words ⊆ ws := by
  unfold readText
  split
  · exact List.nil_subset _
  · next w ws =>
    split
    · exact List.subset_cons_self w ws
    · exact List.nil_subset _
    · split
      · exact List.Subset.refl _
      · next t ts =>
        split
        · exact List.cons_subset_cons w (List.subset_cons_self t ts)
        · exact List.cons_subset_cons w (List.nil_subset _)
        · exact List.Subset.refl _

namespace Command

/-! ## Numbers -/

theorem digit?_eq {c : Char} (h : c.isDigit = true) : digit? c = some (c.toNat - '0'.toNat) := by
  have hrange : '0' ≤ c ∧ c ≤ '9' := by
    rw [Char.isDigit_iff_toNat] at h
    exact h
  rw [digit?, if_pos hrange]

theorem digits?_eq {cs : Word} (h : ∀ c ∈ cs, c.isDigit = true) (n : Nat) :
    digits? n cs = some (Nat.ofDigitChars 10 cs n) := by
  induction cs generalizing n with
  | nil => rfl
  | cons c cs ih =>
    obtain ⟨hc, hcs⟩ := List.forall_mem_cons.1 h
    rw [digits?, digit?_eq hc, Nat.ofDigitChars_cons]
    exact ih hcs _

theorem isDigit_of_mem_toString {n : Nat} {c : Char} (h : c ∈ (toString n).toList) :
    c.isDigit = true := by
  rw [Nat.toString_eq_repr, Nat.toList_repr] at h
  exact Nat.isDigit_of_mem_toDigits (by decide) (by decide) h

theorem number?_of_digits {limit n : Nat} {w : Word} (hne : w ≠ [])
    (hsign : w.head? ≠ some '+') (hdigits : digits? 0 w = some n) (h : n < limit) :
    number? limit w = some n := by
  rw [number?, if_neg hne, hdigits, Option.bind_some, if_pos h]
  rintro w rfl
  exact hsign rfl

/-- A number is read back from how it is printed. -/
theorem number?_toString {limit n : Nat} (h : n < limit) :
    number? limit (toString n).toList = some n := by
  refine number?_of_digits ?_ ?_ ?_ h
  · rw [Nat.toString_eq_repr, Nat.toList_repr]
    exact Nat.toDigits_ne_nil
  · intro hplus
    cases isDigit_of_mem_toString (List.mem_of_mem_head? hplus)
  · rw [digits?_eq fun c => isDigit_of_mem_toString, Nat.toString_eq_repr, Nat.toList_repr,
      Nat.ofDigitChars_ten_toDigits]

theorem isBlank_of_isDigit {c : Char} (h : c.isDigit = true) : isBlank c = false := by
  have h : 48 ≤ c.toNat ∧ c.toNat ≤ 57 := Char.isDigit_iff_toNat.1 h
  simp only [isBlank, Bool.or_eq_false_iff, Bool.and_eq_false_iff, decide_eq_false_iff_not,
    beq_eq_false_iff_ne]
  omega

theorem isWord_toString (n : Nat) : IsWord (toString n).toList := by
  refine ⟨?_, fun c hc => isBlank_of_isDigit (isDigit_of_mem_toString hc)⟩
  rw [Nat.toString_eq_repr, Nat.toList_repr]
  exact Nat.toDigits_ne_nil

/-! ## Commands and their words -/

/-- A name that is not taken for a flag. -/
def IsName (s : String) : Prop := IsWord s.toList ∧ s.toList.head? ≠ some '-'

instance (s : String) : Decidable (IsName s) :=
  inferInstanceAs (Decidable (IsWord s.toList ∧ s.toList.head? ≠ some '-'))

/-- The word that a command begins with. -/
def keyword : Command → String
  | ls => "ls"
  | cd _ => "cd"
  | mkdir _ => "mkdir"
  | rmdir _ => "rmdir"
  | touch _ => "touch"
  | rm _ => "rm"
  | stat _ => "stat"
  | write _ _ => "write"
  | cat _ _ => "cat"
  | df => "df"
  | fsck => "fsck"
  | exit => "exit"

/-- The words behind the first one. -/
def arguments : Command → List Word
  | ls | df | fsck | exit => []
  | cd name => (name.map String.toList).toList
  | mkdir name | rmdir name | touch name | rm name | stat name => [name.toList]
  | write name text => name.toList :: text.map String.toList
  | cat name maxBytes => name.toList :: (maxBytes.map fun n => (toString n).toList).toList

/-- The words that a command is written with. -/
def toWords (c : Command) : List Word := c.keyword.toList :: c.arguments

/-- There is a line for a command: its names are names, and of a text the first word is not taken
for a flag. -/
def Sayable : Command → Prop
  | ls | df | fsck | exit => True
  | cd name => ∀ n ∈ name, IsName n
  | mkdir name | rmdir name | touch name | rm name | stat name => IsName name
  | write name text => IsName name ∧ (∀ t ∈ text, IsWord t.toList) ∧
    ∀ t ∈ text.head?, t.toList.head? ≠ some '-'
  | cat name maxBytes => IsName name ∧ ∀ n ∈ maxBytes, n < numberLimit

instance (c : Command) : Decidable c.Sayable :=
  match c with
  | ls | df | fsck | exit => inferInstanceAs (Decidable True)
  | cd name => inferInstanceAs (Decidable (∀ n ∈ name, IsName n))
  | mkdir name | rmdir name | touch name | rm name | stat name =>
    inferInstanceAs (Decidable (IsName name))
  | write name text =>
    inferInstanceAs (Decidable (IsName name ∧ (∀ t ∈ text, IsWord t.toList) ∧
      ∀ t ∈ text.head?, t.toList.head? ≠ some '-'))
  | cat name maxBytes =>
    inferInstanceAs (Decidable (IsName name ∧ ∀ n ∈ maxBytes, n < numberLimit))

variable {c : Command} {cs : List Char}

theorem isWord_keyword (c : Command) : IsWord c.keyword.toList := by
  cases c <;> rw [keyword] <;> decide

theorem isWord_arguments_cd {name : Option String} :
    (∀ w ∈ (cd name).arguments, IsWord w) ↔ ∀ n ∈ name, IsWord n.toList := by
  cases name <;> simp [arguments]

theorem isWord_arguments_write {name : String} {text : List String} :
    (∀ w ∈ (write name text).arguments, IsWord w) ↔
      IsWord name.toList ∧ ∀ t ∈ text, IsWord t.toList := by
  simp [arguments]

theorem isWord_arguments_cat {name : String} {maxBytes : Option Nat} :
    (∀ w ∈ (cat name maxBytes).arguments, IsWord w) ↔ IsWord name.toList := by
  cases maxBytes with
  | none => simp [arguments]
  | some n =>
    rw [arguments, Option.map_some, Option.toList_some, List.forall_mem_cons,
      List.forall_mem_singleton]
    exact and_iff_left (isWord_toString n)

theorem isWord_arguments (h : c.Sayable) : ∀ w ∈ c.arguments, IsWord w := by
  cases c with
  | ls | df | fsck | exit => exact fun w hw => absurd hw List.not_mem_nil
  | mkdir name | rmdir name | touch name | rm name | stat name =>
    exact List.forall_mem_singleton.2 h.1
  | cd name => exact isWord_arguments_cd.2 fun n hn => (h n hn).1
  | write name text => exact isWord_arguments_write.2 ⟨h.1.1, h.2.1⟩
  | cat name maxBytes => exact isWord_arguments_cat.2 h.1.1

theorem isWord_toWords (h : c.Sayable) : ∀ w ∈ c.toWords, IsWord w :=
  List.forall_mem_cons.2 ⟨isWord_keyword c, isWord_arguments h⟩

theorem named_eq {name : String} (h : IsName name) (c : String → Command) :
    named c [name.toList] = .ok (c name) := by
  rw [named, Arguments.read_plain (Nat.le_refl 1) (List.forall_mem_singleton.2 h.2)]
  simp only [String.ofList_toList]

theorem parseCd_eq {name : Option String} (h : ∀ n ∈ name, IsName n) :
    parseCd (name.map String.toList).toList = .ok (.cd name) := by
  cases name with
  | none => rfl
  | some name =>
    rw [Option.map_some, Option.toList_some, parseCd,
      Arguments.read_plain (Nat.le_refl 1) (List.forall_mem_singleton.2 (h name rfl).2)]
    simp only [List.head?_cons, Option.map_some, String.ofList_toList]

theorem parseWrite_eq {name : String} {text : List String} (hname : IsName name)
    (htext : ∀ t ∈ text.head?, t.toList.head? ≠ some '-') :
    parseWrite (name.toList :: text.map String.toList) = .ok (.write name text) := by
  rw [parseWrite, Arguments.readText_plain hname.2 (by simpa using htext)]
  have hofList : String.ofList ∘ String.toList = id := funext fun s => String.ofList_toList
  simp only [String.ofList_toList, List.map_map, hofList, List.map_id]

theorem parseCat_eq {name : String} {maxBytes : Option Nat} (hname : IsName name)
    (h : ∀ n ∈ maxBytes, n < numberLimit) :
    parseCat (name.toList :: (maxBytes.map fun n => (toString n).toList).toList) =
      .ok (.cat name maxBytes) := by
  cases maxBytes with
  | none =>
    rw [Option.map_none, Option.toList_none, parseCat,
      Arguments.read_plain (Nat.le_succ 1) (List.forall_mem_singleton.2 hname.2)]
    simp only [String.ofList_toList]
  | some n =>
    have hdigit : (toString n).toList.head? ≠ some '-' := by
      intro hdash
      cases isDigit_of_mem_toString (List.mem_of_mem_head? hdash)
    rw [Option.map_some, Option.toList_some, parseCat,
      Arguments.read_plain (Nat.le_refl 2)
        (List.forall_mem_cons.2 ⟨hname.2, List.forall_mem_singleton.2 hdigit⟩)]
    simp only [number?_toString (h n rfl), String.ofList_toList]

theorem ofWords_of_parser? {name : String} {parse : List Word → Except Misuse Command}
    (h : parser? name = some parse) (ws : List Word) : ofWords name.toList ws = parse ws := by
  rw [ofWords, String.ofList_toList, h]

theorem ofWords_toWords (h : c.Sayable) : ofWords c.keyword.toList c.arguments = .ok c := by
  cases c with
  | ls => rfl
  | df => rfl
  | fsck => rfl
  | exit => rfl
  | cd name => exact (ofWords_of_parser? rfl _).trans (parseCd_eq h)
  | mkdir name => exact (ofWords_of_parser? rfl _).trans (named_eq h .mkdir)
  | rmdir name => exact (ofWords_of_parser? rfl _).trans (named_eq h .rmdir)
  | touch name => exact (ofWords_of_parser? rfl _).trans (named_eq h .touch)
  | rm name => exact (ofWords_of_parser? rfl _).trans (named_eq h .rm)
  | stat name => exact (ofWords_of_parser? rfl _).trans (named_eq h .stat)
  | write name text => exact (ofWords_of_parser? rfl _).trans (parseWrite_eq h.1 h.2.2)
  | cat name maxBytes => exact (ofWords_of_parser? rfl _).trans (parseCat_eq h.1 h.2)

theorem ofLine_of_words (h : c.Sayable) (hcs : words cs = c.toWords) :
    ofLine cs = some (.ok c) := by
  have hcomment : c.keyword.toList.head? ≠ some '#' := by cases c <;> rw [keyword] <;> decide
  rw [ofLine, hcs, toWords]
  simp only [if_neg hcomment, ofWords_toWords h]

theorem ofLine_eq_none_iff :
    ofLine cs = none ↔ words cs = [] ∨ (words cs).head?.bind List.head? = some '#' := by
  rw [ofLine]
  cases words cs with
  | nil => simp
  | cons w ws => by_cases h : w.head? = some '#' <;> simp [h]

/-- Between the words of a command, and around them, any white space is as good as any other.  The
lines without a command are the blank ones and the comments. -/
theorem ofLine_of_spaced (cs : List Char) :
    (∀ c : Command, c.Sayable → Spaced c.toWords cs → ofLine cs = some (.ok c)) ∧
      (ofLine cs = none ↔ trim cs = [] ∨ (trim cs).head? = some '#') := by
  refine ⟨fun c hc hcs => ofLine_of_words hc (hcs.words_eq (isWord_toWords hc)), ?_⟩
  have hblank : trim cs = [] ↔ words cs = [] := by
    rw [← List.head?_eq_none_iff, head?_trim]
    cases hwords : words cs with
    | nil => simp
    | cons w ws =>
      have hw : IsWord w := (spaced_words cs).2 w (hwords ▸ List.mem_cons_self)
      simp [hw.1]
  rw [ofLine_eq_none_iff, hblank, head?_trim]

/-- Flags are text behind the first word of a text. -/
theorem ofLine_of_spaced_write :
    (write "f" ["x", "--", "--help"]).Sayable ∧
      Spaced (write "f" ["x", "--", "--help"]).toWords
        "\twrite  f x\u2003-- --help \n".toList ∧
      ofLine "\twrite  f x\u2003-- --help \n".toList =
        some (.ok (write "f" ["x", "--", "--help"])) := by
  have hsayable : (write "f" ["x", "--", "--help"]).Sayable := by decide
  have hspaced : Spaced (write "f" ["x", "--", "--help"]).toWords
      "\twrite  f x\u2003-- --help \n".toList :=
    (words_eq_iff.1 (by decide)).1
  exact ⟨hsayable, hspaced, (ofLine_of_spaced _).1 _ hsayable hspaced⟩

/-! ## The words of what is read -/

theorem eq_of_plain {c' : Command} {ws : List Word} (h : plain c ws = .ok c') : c' = c := by
  unfold plain at h
  split at h
  · cases h
  · exact (Except.ok.inj h).symm

theorem exists_of_named {f : String → Command} {ws : List Word} (h : named f ws = .ok c) :
    ∃ w ∈ ws, c = f (String.ofList w) := by
  have hsub := Arguments.read_subset 1 ws
  unfold named at h
  split at h
  · cases h
  · next w rest hread =>
    rw [hread] at hsub
    exact ⟨w, hsub List.mem_cons_self, (Except.ok.inj h).symm⟩
  · cases h

theorem exists_of_parseCd {ws : List Word} (h : parseCd ws = .ok c) :
    ∃ w : Option Word, (∀ v ∈ w, v ∈ ws) ∧ c = .cd (w.map String.ofList) := by
  have hsub := Arguments.read_subset 1 ws
  unfold parseCd at h
  split at h
  · cases h
  · next names hread =>
    rw [hread] at hsub
    exact ⟨names.head?, fun v hv => hsub (List.mem_of_mem_head? hv), (Except.ok.inj h).symm⟩

theorem exists_of_parseCat {ws : List Word} (h : parseCat ws = .ok c) :
    ∃ w ∈ ws, ∃ n, c = .cat (String.ofList w) n := by
  have hsub := Arguments.read_subset 2 ws
  unfold parseCat at h
  split at h
  · next w bytes rest stop hread =>
    rw [hread] at hsub
    split at h
    · cases h
    · cases h
    · cases h
    · next n _ => exact ⟨w, hsub List.mem_cons_self, some n, (Except.ok.inj h).symm⟩
  · cases h
  · next w hread =>
    rw [hread] at hsub
    exact ⟨w, hsub List.mem_cons_self, none, (Except.ok.inj h).symm⟩
  · cases h

theorem exists_of_parseWrite {ws : List Word} (h : parseWrite ws = .ok c) :
    ∃ w text, w ∈ ws ∧ text ⊆ ws ∧ c = .write (String.ofList w) (text.map String.ofList) := by
  have hsub := Arguments.readText_subset ws
  unfold parseWrite at h
  split at h
  · cases h
  · next w text hread =>
    rw [hread] at hsub
    obtain ⟨hw, htext⟩ := List.cons_subset.1 hsub
    exact ⟨w, text, hw, htext, (Except.ok.inj h).symm⟩
  · cases h

theorem isWord_arguments_of_plain {c' : Command} {ws : List Word} (hc : c.arguments = [])
    (h : plain c ws = .ok c') : ∀ w ∈ c'.arguments, IsWord w := by
  rw [eq_of_plain h, hc]
  exact fun w hw => absurd hw List.not_mem_nil

theorem isWord_arguments_of_named {f : String → Command} {ws : List Word}
    (hf : ∀ name, (f name).arguments = [name.toList]) (hws : ∀ w ∈ ws, IsWord w)
    (h : named f ws = .ok c) : ∀ w ∈ c.arguments, IsWord w := by
  obtain ⟨v, hv, rfl⟩ := exists_of_named h
  rw [hf, String.toList_ofList, List.forall_mem_singleton]
  exact hws v hv

theorem isWord_arguments_of_parser? {name : String} {parse : List Word → Except Misuse Command}
    {ws : List Word} (hparse : parser? name = some parse) (hws : ∀ w ∈ ws, IsWord w)
    (h : parse ws = .ok c) : ∀ w ∈ c.arguments, IsWord w := by
  have hofList : ∀ w ∈ ws, IsWord (String.ofList w).toList := fun w hw => by
    rw [String.toList_ofList]
    exact hws w hw
  unfold parser? at hparse
  -- One case for each command, in the order in which `parser?` has them.
  split at hparse <;> cases hparse
  · exact isWord_arguments_of_plain rfl h
  · obtain ⟨v, hv, rfl⟩ := exists_of_parseCd h
    refine isWord_arguments_cd.2 fun n hn => ?_
    obtain ⟨w, hw, rfl⟩ := Option.map_eq_some_iff.1 hn
    exact hofList w (hv w hw)
  · exact isWord_arguments_of_named (fun _ => rfl) hws h
  · exact isWord_arguments_of_named (fun _ => rfl) hws h
  · exact isWord_arguments_of_named (fun _ => rfl) hws h
  · exact isWord_arguments_of_named (fun _ => rfl) hws h
  · exact isWord_arguments_of_named (fun _ => rfl) hws h
  · obtain ⟨v, text, hv, htext, rfl⟩ := exists_of_parseWrite h
    refine isWord_arguments_write.2 ⟨hofList v hv, fun t ht => ?_⟩
    obtain ⟨w, hw, rfl⟩ := List.mem_map.1 ht
    exact hofList w (htext hw)
  · obtain ⟨v, hv, n, rfl⟩ := exists_of_parseCat h
    exact isWord_arguments_cat.2 (hofList v hv)
  · exact isWord_arguments_of_plain rfl h
  · exact isWord_arguments_of_plain rfl h
  · exact isWord_arguments_of_plain rfl h

/-- The arguments of a command that has been read are words. -/
theorem isWord_arguments_of_ofLine (h : ofLine cs = some (.ok c)) :
    ∀ w ∈ c.arguments, IsWord w := by
  have hwords := (spaced_words cs).2
  unfold ofLine at h
  split at h
  · cases h
  · next w ws hcs =>
    rw [hcs] at hwords
    split at h
    · cases h
    · have h : ofWords w ws = .ok c := Option.some.inj h
      unfold ofWords at h
      split at h
      · next parse hparse =>
        exact isWord_arguments_of_parser? hparse (List.forall_mem_cons.1 hwords).2 h
      · split at h
        · cases h
        · split at h <;> cases h

end Command
end BlockFS
