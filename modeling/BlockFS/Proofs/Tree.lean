/-
Directory trees, and what the operations do to them.

A tree has no blocks: a file is a byte string, a directory a list of names and what they
lead to, in the order in which they were added.  A cursor is a tree seen from one of its
directories.  `Cursor.perform` is what an operation answers there and which tree it leaves.
All that it has to know of the blocks is how many of them a tree may take up.
-/
import BlockFS.Session

namespace BlockFS

/-- What a name in a directory leads to. -/
inductive Tree where
  | file (contents : Bytes)
  | directory (entries : List (String × Tree))

def Geometry.blocksFor (g : Geometry) (size : Nat) : Nat :=
  (size + (g.blockSize - 1)) / g.blockSize

section Split

variable {α β : Type}

/-- A list of names before and after the first one called `name`, and what that stands for. -/
def splitAt? (name : String) :
    List (String × α) → Option (List (String × α) × α × List (String × α))
  | [] => none
  | e :: es =>
    if e.1 = name then some ([], e.2, es)
    else
      match splitAt? name es with
      | none => none
      | some (before, a, after) => some (e :: before, a, after)

theorem splitAt?_eq_none_iff {name : String} {es : List (String × α)} :
    splitAt? name es = none ↔ ∀ e ∈ es, e.1 ≠ name := by
  induction es with
  | nil => simp [splitAt?]
  | cons e es ih =>
    rw [splitAt?, List.forall_mem_cons]
    by_cases he : e.1 = name
    · simp [he]
    · rw [if_neg he, ← ih]
      cases splitAt? name es <;> simp [he]

theorem eq_append_of_splitAt? {name : String} {es before after : List (String × α)} {a : α}
    (h : splitAt? name es = some (before, a, after)) :
    es = before ++ (name, a) :: after ∧ ∀ e ∈ before, e.1 ≠ name := by
  induction es generalizing before with
  | nil => cases h
  | cons e es ih =>
    rw [splitAt?] at h
    split at h
    · next he =>
      cases h
      exact ⟨by rw [← he]; rfl, by simp⟩
    · next he =>
      split at h
      · cases h
      · next heq =>
        cases h
        obtain ⟨rfl, hne⟩ := ih heq
        exact ⟨rfl, List.forall_mem_cons.2 ⟨he, hne⟩⟩

theorem splitAt?_append {name : String} {before : List (String × α)}
    (h : ∀ e ∈ before, e.1 ≠ name) (a : α) (after : List (String × α)) :
    splitAt? name (before ++ (name, a) :: after) = some (before, a, after) := by
  induction before with
  | nil => exact if_pos rfl
  | cons e es ih =>
    obtain ⟨he, hes⟩ := List.forall_mem_cons.1 h
    rw [List.cons_append, splitAt?, if_neg he, ih hes]

theorem splitAt?_map (f : α → β) (name : String) (es : List (String × α)) :
    splitAt? name (es.map fun e => (e.1, f e.2)) =
      (splitAt? name es).map fun p =>
        (p.1.map fun e => (e.1, f e.2), f p.2.1, p.2.2.map fun e => (e.1, f e.2)) := by
  induction es with
  | nil => rfl
  | cons e es ih =>
    rw [List.map_cons, splitAt?, splitAt?, ih]
    by_cases he : e.1 = name
    · rw [if_pos he, if_pos he]
      rfl
    · rw [if_neg he, if_neg he]
      cases splitAt? name es <;> rfl

end Split

namespace Tree

def isDirectory : Tree → Bool
  | file _ => false
  | directory _ => true

/-- The entries of a directory; a file has none. -/
def entries : Tree → List (String × Tree)
  | file _ => []
  | directory es => es

mutual

/-- The number of blocks that a tree takes up: one for each directory, and for each file
one besides those of its contents. -/
def blockCount (g : Geometry) : Tree → Nat
  | file contents => 1 + g.blocksFor contents.length
  | directory es => 1 + blockCountAll g es

def blockCountAll (g : Geometry) : List (String × Tree) → Nat
  | [] => 0
  | (_, t) :: es => t.blockCount g + blockCountAll g es

end

end Tree

/-- What surrounds the entry through which a directory is entered, and its name. -/
structure Level where
  before : List (String × Tree)
  name : String
  after : List (String × Tree)

def Tree.fill : List Level → Tree → Tree
  | [], t => t
  | v :: vs, t => fill vs (.directory (v.before ++ (v.name, t) :: v.after))

/-- A tree seen from one of its directories. -/
structure Cursor where
  /-- The levels above the directory, the nearest first. -/
  above : List Level
  /-- The entries of the directory. -/
  entries : List (String × Tree)

/-- What is told about an entry without naming its block. -/
inductive Reply where
  | done
  | listing (names : Listing)
  | stats (name : String) (isDirectory : Bool) (fileSize blockCount : Nat)
  | contents (data : Bytes)
  deriving DecidableEq

def Answer.reply : Answer → Reply
  | done => .done
  | listing names => .listing names
  | stats st => .stats st.name st.isDirectory st.fileSize st.blockCount
  | contents data => .contents data

namespace Cursor

def whole (z : Cursor) : Tree := Tree.fill z.above (.directory z.entries)

def top (z : Cursor) : Cursor := ⟨[], z.whole.entries⟩

def enter (z : Cursor) : Option String → Except Error Cursor
  | none => .ok z.top
  | some name =>
    match splitAt? name z.entries with
    | none => .error .notFound
    | some (_, .file _, _) => .error .notADirectory
    | some (before, .directory es, after) => .ok ⟨⟨before, name, after⟩ :: z.above, es⟩

def list (z : Cursor) : Listing where
  directories := (z.entries.filter (·.2.isDirectory)).map (·.1)
  files := (z.entries.filter (! ·.2.isDirectory)).map (·.1)

def stat (g : Geometry) (z : Cursor) (name : String) : Except Error Reply :=
  match splitAt? name z.entries with
  | none => .error .notFound
  | some (_, .directory _, _) => .ok (.stats name true 0 0)
  | some (_, .file contents, _) =>
    .ok (.stats name false contents.length (g.blocksFor contents.length))

/-- Adds an entry at the end, if `free` blocks leave room for one. -/
def create (g : Geometry) (free : Nat) (z : Cursor) (name : String) (t : Tree) :
    Except Error Cursor :=
  if g.maxNameLength < name.utf8ByteSize then .error .nameTooLong
  else if (splitAt? name z.entries).isSome then .error .alreadyExists
  else if g.maxDirEntries ≤ z.entries.length then .error .directoryFull
  else if free = 0 then .error .diskFull
  else .ok { z with entries := z.entries ++ [(name, t)] }

def removeDirectory (z : Cursor) (name : String) : Except Error Cursor :=
  match splitAt? name z.entries with
  | none => .error .notFound
  | some (_, .file _, _) => .error .notADirectory
  | some (_, .directory (_ :: _), _) => .error .notEmpty
  | some (before, .directory [], after) => .ok { z with entries := before ++ after }

def removeFile (z : Cursor) (name : String) : Except Error Cursor :=
  match splitAt? name z.entries with
  | none => .error .notFound
  | some (_, .directory _, _) => .error .isADirectory
  | some (before, .file _, after) => .ok { z with entries := before ++ after }

/-- The blocks that it takes to append `count` bytes to a file of `size` bytes.  What a
partly filled last block holds moves into the first of them. -/
def blocksToAppend (g : Geometry) (size count : Nat) : Nat :=
  g.blocksFor (size % g.blockSize + count)

def append (g : Geometry) (free : Nat) (z : Cursor) (name : String) (data : Bytes) :
    Except Error Cursor :=
  match splitAt? name z.entries with
  | none => .error .notFound
  | some (_, .directory _, _) => .error .isADirectory
  | some (before, .file contents, after) =>
    if g.maxFileSize < contents.length + data.length then .error .fileTooLarge
    else if data = [] then .ok z
    else if free < blocksToAppend g contents.length data.length then .error .diskFull
    else .ok { z with entries := before ++ (name, .file (contents ++ data)) :: after }

/-- Appending has to free a block: there is something to append, and the last block of the file
is filled in part. -/
def ReplacesTail (g : Geometry) (z : Cursor) (name : String) (data : Bytes) : Prop :=
  data ≠ [] ∧ ∃ before contents after,
    splitAt? name z.entries = some (before, .file contents, after) ∧
      contents.length % g.blockSize ≠ 0

def read (z : Cursor) (name : String) (max : Nat) : Except Error Bytes :=
  match splitAt? name z.entries with
  | none => .error .notFound
  | some (_, .directory _, _) => .error .isADirectory
  | some (_, .file contents, _) => .ok (contents.take (min contents.length max))

/-- What an operation answers and the cursor that it leaves, where a tree may take up
`room` blocks. -/
def step (g : Geometry) (room : Nat) (z : Cursor) : Operation → Except Error (Reply × Cursor)
  | .enter name => (z.enter name).map fun z' => (.done, z')
  | .list => .ok (.listing z.list, z)
  | .stat name => (z.stat g name).map fun r => (r, z)
  | .makeDirectory name =>
    (z.create g (room - z.whole.blockCount g) name (.directory [])).map fun z' => (.done, z')
  | .removeDirectory name => (z.removeDirectory name).map fun z' => (.done, z')
  | .createFile name =>
    (z.create g (room - z.whole.blockCount g) name (.file [])).map fun z' => (.done, z')
  | .removeFile name => (z.removeFile name).map fun z' => (.done, z')
  | .append name data =>
    (z.append g (room - z.whole.blockCount g) name data).map fun z' => (.done, z')
  | .read name max => (z.read name max).map fun data => (.contents data, z)

/-- An operation that fails leaves everything as it is. -/
def perform (g : Geometry) (room : Nat) (z : Cursor) (op : Operation) :
    Except Error Reply × Cursor :=
  match z.step g room op with
  | .ok (reply, z') => (.ok reply, z')
  | .error e => (.error e, z)

def performAll (g : Geometry) (room : Nat) (z : Cursor) :
    List Operation → List (Except Error Reply) × Cursor
  | [] => ([], z)
  | op :: ops =>
    let (reply, z) := z.perform g room op
    let (replies, z) := z.performAll g room ops
    (reply :: replies, z)

/-! ## Errors -/

variable {g : Geometry} {room : Nat} {z : Cursor} {failure : Failure}

theorem map_ne_error {α β : Type} {x : Except Error α} {f : α → β} {e : Error}
    (h : x ≠ .error e) : x.map f ≠ .error e := by
  cases x with
  | ok a => exact fun h' => nomatch h'
  | error e' => exact fun h' => h (congrArg Except.error (Except.error.inj h'))

theorem exists_of_map {α β : Type} {x : Except Error α} {f : α → β} {b : β}
    (h : x.map f = .ok b) : ∃ a, x = .ok a ∧ f a = b := by
  cases x with
  | error e => cases h
  | ok a => exact ⟨a, rfl, Except.ok.inj h⟩

theorem create_ne_io {free : Nat} {name : String} {t : Tree} :
    z.create g free name t ≠ .error (.io failure) := by
  unfold create
  grind

theorem exists_file_of_append {z' : Cursor} {free : Nat} {name : String} {data : Bytes}
    (h : z.append g free name data = .ok z') :
    ∃ before contents after, splitAt? name z.entries = some (before, .file contents, after) := by
  unfold append at h
  grind

theorem append_ne_io {free : Nat} {name : String} {data : Bytes} :
    z.append g free name data ≠ .error (.io failure) := by
  unfold append
  grind

/-- A tree has no store that could fail. -/
theorem step_ne_io {op : Operation} : z.step g room op ≠ .error (.io failure) := by
  cases op with
  | enter name =>
    refine map_ne_error ?_
    unfold enter
    grind
  | list => exact fun h => nomatch h
  | stat name =>
    refine map_ne_error ?_
    unfold stat
    grind
  | makeDirectory name => exact map_ne_error create_ne_io
  | removeDirectory name =>
    refine map_ne_error ?_
    unfold removeDirectory
    grind
  | createFile name => exact map_ne_error create_ne_io
  | removeFile name =>
    refine map_ne_error ?_
    unfold removeFile
    grind
  | append name data => exact map_ne_error append_ne_io
  | read name max =>
    refine map_ne_error ?_
    unfold read
    grind

/-- Only `stat` tells attributes. -/
theorem eq_stat_of_step {z' : Cursor} {op : Operation} {name : String} {isDirectory : Bool}
    {fileSize blockCount : Nat}
    (h : z.step g room op = .ok (.stats name isDirectory fileSize blockCount, z')) :
    ∃ name, op = .stat name := by
  cases op with
  | stat name => exact ⟨name, rfl⟩
  | list => cases h
  | _ =>
    obtain ⟨_, -, h⟩ := exists_of_map h
    cases h

theorem perform_of_step {z' : Cursor} {op : Operation} {reply : Reply}
    (h : z.step g room op = .ok (reply, z')) : (z.perform g room op).2 = z' := by
  unfold perform
  rw [h]

end Cursor
end BlockFS
