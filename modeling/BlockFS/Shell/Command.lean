/-
The commands of the shell and the lines that they are written on.
-/
import BlockFS.Shell.Arguments
import BlockFS.Text.Words

namespace BlockFS

inductive Command where
  | ls
  | cd (name : Option String)
  | mkdir (name : String)
  | rmdir (name : String)
  | touch (name : String)
  | rm (name : String)
  | stat (name : String)
  | write (name : String) (text : List String)
  | cat (name : String) (maxBytes : Option Nat)
  | df
  | fsck
  | exit
  deriving DecidableEq

namespace Command

/-- The numbers that `cat` takes lie below. -/
def numberLimit : Nat := 1 <<< 64

def digit? (c : Char) : Option Nat :=
  if '0' ≤ c ∧ c ≤ '9' then some (c.toNat - '0'.toNat) else none

/-- The number that digits behind those of `n` stand for. -/
def digits? (n : Nat) : Word → Option Nat
  | [] => some n
  | c :: cs =>
    match digit? c with
    | some d => digits? (10 * n + d) cs
    | none => none

/-- The decimal number that a word stands for, if it is below `limit`.  It may begin with
a plus sign. -/
def number? (limit : Nat) (w : Word) : Option Nat :=
  let digits := match w with
    | '+' :: w => w
    | w => w
  if digits = [] then none
  else (digits? 0 digits).bind fun n => if n < limit then some n else none

def plain (c : Command) (ws : List Word) : Except Misuse Command :=
  match (Arguments.read 0 ws).stop with
  | some misuse => .error misuse
  | none => .ok c

def named (c : String → Command) (ws : List Word) : Except Misuse Command :=
  match Arguments.read 1 ws with
  | ⟨_, some misuse⟩ => .error misuse
  | ⟨name :: _, none⟩ => .ok (c (String.ofList name))
  | ⟨[], none⟩ => .error .missingArgument

def parseCd (ws : List Word) : Except Misuse Command :=
  match Arguments.read 1 ws with
  | ⟨_, some misuse⟩ => .error misuse
  | ⟨names, none⟩ => .ok (.cd (names.head?.map String.ofList))

/-- The command to print a file.  A bad number is reported before help, but not before
other misuses. -/
def parseCat (ws : List Word) : Except Misuse Command :=
  match Arguments.read 2 ws with
  | ⟨name :: bytes :: _, stop⟩ =>
    match number? numberLimit bytes, stop with
    | none, none => .error .badValue
    | none, some .help => .error .badValue
    | _, some misuse => .error misuse
    | some n, none => .ok (.cat (String.ofList name) (some n))
  | ⟨_, some misuse⟩ => .error misuse
  | ⟨[name], none⟩ => .ok (.cat (String.ofList name) none)
  | ⟨[], none⟩ => .error .missingArgument

def parseWrite (ws : List Word) : Except Misuse Command :=
  match Arguments.readText ws with
  | ⟨_, some misuse⟩ => .error misuse
  | ⟨name :: text, none⟩ => .ok (.write (String.ofList name) (text.map String.ofList))
  | ⟨[], none⟩ => .error .missingArgument

/-- The commands by their names. -/
def parser? (name : String) : Option (List Word → Except Misuse Command) :=
  match name with
  | "ls" => some (plain .ls)
  | "cd" => some parseCd
  | "mkdir" => some (named .mkdir)
  | "rmdir" => some (named .rmdir)
  | "touch" => some (named .touch)
  | "rm" => some (named .rm)
  | "stat" => some (named .stat)
  | "write" => some parseWrite
  | "cat" => some parseCat
  | "df" => some (plain .df)
  | "fsck" => some (plain .fsck)
  | "exit" => some (plain .exit)
  | _ => none

/-- Whether help can be had on a word. -/
def isKnown (w : Word) : Bool :=
  String.ofList w = "help" || (parser? (String.ofList w)).isSome

/-- What becomes of a request for help on the words `ws`. -/
def helpOn : List Word → Misuse
  | [] => .help
  | [w] => if isKnown w then .help else .invalidSubcommand
  | _ => .invalidSubcommand

/-- What becomes of words behind the end of the flags, where a command is missing. -/
def afterSeparator : List Word → Misuse
  | [] => .helpForNothing
  | w :: _ => if isKnown w then .unknownArgument else .invalidSubcommand

/-- The command that words stand for, of which the first is `w`. -/
def ofWords (w : Word) (ws : List Word) : Except Misuse Command :=
  match parser? (String.ofList w) with
  | some parse => parse ws
  | none =>
    if String.ofList w = "help" then .error (helpOn ws)
    else
      match w.shape with
      | .separator => .error (afterSeparator ws)
      | .flag misuse => .error misuse
      | .plain => .error .invalidSubcommand

/-- The command on a line.  Blank lines have none, and neither have lines that begin
with `#`. -/
def ofLine (line : List Char) : Option (Except Misuse Command) :=
  match words line with
  | [] => none
  | w :: ws => if w.head? = some '#' then none else some (ofWords w ws)

end Command
end BlockFS
