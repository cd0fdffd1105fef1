/-
The command lines of the two programs: one makes disk images and runs the shell on
them, the other one checks them.
-/
import BlockFS.Geometry
import BlockFS.Shell.Command

namespace BlockFS

inductive Program where
  /-- Makes disk images and runs the shell on them. -/
  | disk
  /-- Checks disk images. -/
  | checker
  deriving DecidableEq

inductive Invocation where
  | format (path : String) (blocks : Nat)
  | shell (path : String)
  | check (path : String)
  deriving DecidableEq

namespace Invocation

/-- The numbers of blocks that can be asked for lie below. -/
def blockLimit : Nat := 1 <<< 32

/-- The number of blocks that a word stands for.  A minus sign is accepted in front of
zero. -/
def blocks? : Word → Option Nat
  | '-' :: digits => if digits ≠ [] ∧ digits.all (· == '0') then some 0 else none
  | w => Command.number? blockLimit w

/-- The flag that sets the number of blocks. -/
def blocksFlag : Word := "--num-blocks".toList

/-- What follows the flag and an equals sign in one word. -/
def attached? (w : Word) : Option Word :=
  if (blocksFlag ++ ['=']).isPrefixOf w then some (w.drop (blocksFlag.length + 1)) else none

/-- A part of the words behind `format`. -/
inductive Item where
  | path (w : Word)
  | blocks (value : Word)
  | stop (misuse : Misuse)
  deriving DecidableEq

/-- The parts of the words behind `format`. -/
def items : List Word → List Item
  | [] => []
  | w :: ws =>
    match attached? w with
    | some value => .blocks value :: items ws
    | none =>
      if w = blocksFlag then
        match ws with
        | [] => [.stop .badValue]
        | value :: ws =>
          if value.shape = .plain then .blocks value :: items ws else [.stop .badValue]
      else
        match w.shape with
        | .plain => .path w :: items ws
        | .separator => ws.map .path
        | .flag misuse => [.stop misuse]

/-- What the parts ask for, of which those before have set `path` and `blocks`.  Nothing
can be set twice, and a path has at least one character. -/
def ofItems : (path : Option Word) → (blocks : Option Nat) → List Item → Except Misuse Invocation
  | none, _, [] => .error .missingArgument
  | some path, blocks, [] => .ok (.format (String.ofList path) (blocks.getD defaultBlockCount))
  | none, _, .path [] :: _ => .error .badValue
  | none, blocks, .path w :: rest => ofItems (some w) blocks rest
  | some _, _, .path _ :: _ => .error .unknownArgument
  | path, none, .blocks value :: rest =>
    match blocks? value with
    | some n => ofItems path (some n) rest
    | none => .error .badValue
  | _, some _, .blocks _ :: _ => .error .unknownArgument
  | _, _, .stop misuse :: _ => .error misuse

/-- Reads the path of an image, which is not empty, and nothing else. -/
def pathOnly (c : String → Invocation) (ws : List Word) : Except Misuse Invocation :=
  match Arguments.read 1 ws with
  | ⟨[] :: _, _⟩ => .error .badValue
  | ⟨_, some misuse⟩ => .error misuse
  | ⟨path :: _, none⟩ => .ok (c (String.ofList path))
  | ⟨[], none⟩ => .error .missingArgument

/-- Reads the command line of the disk program. -/
def ofDiskWords : List Word → Except Misuse Invocation
  | [] => .error .helpForNothing
  | w :: ws =>
    let known := ["format", "shell", "help"]
    match String.ofList w with
    | "format" => ofItems none none (items ws)
    | "shell" => pathOnly .shell ws
    | "help" =>
      match ws with
      | [] => .error .help
      | [topic] => if String.ofList topic ∈ known then .error .help else .error .invalidSubcommand
      | _ => .error .invalidSubcommand
    | _ =>
      match w.shape with
      | .flag misuse => .error misuse
      | .plain => .error .invalidSubcommand
      | .separator =>
        match ws with
        | [] => .error .helpForNothing
        | w :: _ =>
          if String.ofList w ∈ known then .error .unknownArgument else .error .invalidSubcommand

/-- Reads the command line of a program. -/
def ofArguments (program : Program) (args : List String) : Except Misuse Invocation :=
  let ws := args.map String.toList
  match program with
  | .disk => ofDiskWords ws
  | .checker => pathOnly .check ws

end Invocation
end BlockFS
