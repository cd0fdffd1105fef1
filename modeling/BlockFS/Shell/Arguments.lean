/-
Telling flags from other words on a command line.

A word that begins with `-` and goes on is a flag, and the only flags are `-h` and
`--help`.  The word `--` ends the flags: what follows are plain words.
-/

namespace BlockFS

/-- Why a command line is not a command. -/
inductive Misuse where
  /-- No such command. -/
  | invalidSubcommand
  | missingArgument
  /-- A word or a flag too many. -/
  | unknownArgument
  /-- A flag that takes no value was given one. -/
  | unneededValue
  /-- A word does not stand for a value of its kind. -/
  | badValue
  /-- Help was asked for. -/
  | help
  /-- There is nothing but the end of the flags. -/
  | helpForNothing
  deriving DecidableEq

/-- The name that a misuse is reported under. -/
def Misuse.name : Misuse → String
  | invalidSubcommand => "InvalidSubcommand"
  | missingArgument => "MissingRequiredArgument"
  | unknownArgument => "UnknownArgument"
  | unneededValue => "TooManyValues"
  | badValue => "ValueValidation"
  | help => "DisplayHelp"
  | helpForNothing => "DisplayHelpOnMissingArgumentOrSubcommand"

/-- The line that stands for the report of a misuse. -/
def Misuse.notice (m : Misuse) : String := "<usage:" ++ m.name ++ ">\n"

abbrev Word := List Char

namespace Word

/-- What a word is where flags are looked for. -/
inductive Shape where
  | plain
  /-- The word that ends the flags. -/
  | separator
  /-- A flag, and what comes of it. -/
  | flag (misuse : Misuse)
  deriving DecidableEq

/-- The text of the long help flag behind its dashes. -/
def helpName : Word := ['h', 'e', 'l', 'p']

def shape : Word → Shape
  | ['-', '-'] => .separator
  | '-' :: '-' :: name =>
    if name = helpName then .flag .help
    else if (helpName ++ ['=']).isPrefixOf name then .flag .unneededValue
    else .flag .unknownArgument
  | '-' :: c :: _ => if c = 'h' then .flag .help else .flag .unknownArgument
  | _ => .plain

/-- What the first word of a free text is.  A flag that asks for nothing known is text;
letters behind a single dash are known only if all of them are. -/
def textShape (w : Word) : Shape :=
  match w.shape with
  | .flag .unknownArgument => .plain
  | .flag .help => if w = '-' :: '-' :: helpName ∨ w.tail.all (· == 'h') then .flag .help else .plain
  | shape => shape

/-- A word that does not begin with a dash is plain. -/
theorem shape_of_head {c : Char} {w : Word} (h : c ≠ '-') : shape (c :: w) = .plain := by
  unfold shape
  split <;> simp_all

end Word

/-- The plain words of a command line, and what stopped their reading. -/
structure Arguments where
  words : List Word
  stop : Option Misuse
  deriving DecidableEq

namespace Arguments

def cons (w : Word) (a : Arguments) : Arguments := ⟨w :: a.words, a.stop⟩

/-- Reads plain words behind the end of the flags, no more than `limit`. -/
def readPlain : (limit : Nat) → List Word → Arguments
  | _, [] => ⟨[], none⟩
  | 0, _ :: _ => ⟨[], some .unknownArgument⟩
  | limit + 1, w :: ws => (readPlain limit ws).cons w

/-- Reads plain words, no more than `limit`. -/
def read : (limit : Nat) → List Word → Arguments
  | _, [] => ⟨[], none⟩
  | limit, w :: ws =>
    match w.shape, limit with
    | .separator, limit => readPlain limit ws
    | .flag misuse, _ => ⟨[], some misuse⟩
    | .plain, 0 => ⟨[], some .unknownArgument⟩
    | .plain, limit + 1 => (read limit ws).cons w

/-- Reads one plain word and a free text behind it.  From its second word on, everything
is text. -/
def readText : List Word → Arguments
  | [] => ⟨[], none⟩
  | w :: ws =>
    match w.shape with
    | .separator => ⟨ws, none⟩
    | .flag misuse => ⟨[], some misuse⟩
    | .plain =>
      match ws with
      | [] => ⟨[w], none⟩
      | t :: ts =>
        match t.textShape with
        | .separator => ⟨w :: ts, none⟩
        | .flag misuse => ⟨[w], some misuse⟩
        | .plain => ⟨w :: t :: ts, none⟩

end Arguments
end BlockFS
