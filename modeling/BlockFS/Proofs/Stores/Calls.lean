/-
The calls to a store, one after another.

A call that fails leaves the store as it is (`Store.call`).  Among the calls is what is done to
keep a store: its header is written, or it is given up and its image opened again.  A store in
memory has nothing to keep, so these two leave it alone.
-/
import BlockFS.Proofs.Occupancy
import BlockFS.Store.Disk

namespace BlockFS
namespace Store

inductive Call where
  | read (b : BlockNumber)
  | write (b : BlockNumber) (contents : Bytes)
  | allocate
  | release (b : BlockNumber)
  | isAllocated (b : BlockNumber)
  | freeCount
  /-- The header is written. -/
  | sync
  /-- The store is given up and what is left of it opened. -/
  | reopen
  deriving DecidableEq

/-- What a call is answered with. -/
inductive Value where
  | done
  | contents (bs : Bytes)
  | block (b : Option BlockNumber)
  | flag (occupied : Bool)
  | count (n : Nat)
  deriving DecidableEq

inductive CallFault where
  | store (fault : StoreFault)
  | header (fault : HeaderOverrun)
  | opening (fault : OpenFault)
  deriving DecidableEq

def reopen (s : Store) : Except CallFault Store :=
  match s.medium with
  | .memory => .ok s
  | .disk =>
    match s.unmount with
    | .error fault => .error (.header fault)
    | .ok t =>
      match openFile (.image t.image) with
      | .error fault => .error (.opening fault)
      | .ok u => .ok u

def attempt (s : Store) : Call → Except CallFault (Value × Store)
  | .read b =>
    match s.read b with
    | .ok contents => .ok (.contents contents, s)
    | .error fault => .error (.store fault)
  | .write b contents =>
    match s.write b contents with
    | .ok t => .ok (.done, t)
    | .error fault => .error (.store fault)
  | .allocate =>
    match s.allocate with
    | some (b, t) => .ok (.block (some b), t)
    | none => .ok (.block none, s)
  | .release b =>
    match s.release b with
    | .ok t => .ok (.done, t)
    | .error fault => .error (.store fault)
  | .isAllocated b => .ok (.flag (s.isAllocated b), s)
  | .freeCount => .ok (.count s.freeCount, s)
  | .sync =>
    match s.medium with
    | .memory => .ok (.done, s)
    | .disk =>
      match s.sync with
      | .ok t => .ok (.done, t)
      | .error fault => .error (.header fault)
  | .reopen =>
    match s.reopen with
    | .ok t => .ok (.done, t)
    | .error fault => .error fault

def call (s : Store) (c : Call) : Except CallFault Value × Store :=
  match s.attempt c with
  | .ok (v, t) => (.ok v, t)
  | .error fault => (.error fault, s)

/-- The answers to calls, and the store after them. -/
def callAll (s : Store) : List Call → List (Except CallFault Value) × Store
  | [] => ([], s)
  | c :: cs =>
    let (r, t) := s.call c
    let (rs, u) := t.callAll cs
    (r :: rs, u)

theorem reopen_of_memory {s : Store} (h : s.medium = .memory) : s.reopen = .ok s := by
  unfold reopen
  rw [h]

/-! ## What calls do -/

variable {s t : Store} {b : BlockNumber} {contents : Bytes}

theorem first_le (s : Store) (hb : b ≠ noBlock) : s.blockLen ≤ b.toNat * s.blockLen := by
  have hne : b.toNat ≠ 0 := fun h => hb (UInt32.toNat_inj.1 h)
  exact Nat.le_mul_of_pos_left _ (Nat.pos_of_ne_zero hne)

theorem allocate_eq (s : Store) :
    s.allocate = s.bitmap.allocate.map fun p => (p.1, ⟨s.medium, s.blockLen, p.2, s.image⟩) := by
  unfold Store.allocate
  cases hm : s.bitmap.allocate with
  | none => simp only [hm, Option.map_none]
  | some p => simp only [hm, Option.map_some]

/-- A store of as many blocks of the same length.  What they hold and which of them are
occupied may be different. -/
structure SameShape (s t : Store) : Prop where
  medium : t.medium = s.medium
  blockLen : t.blockLen = s.blockLen
  blockCount : t.blockCount = s.blockCount
  size : t.image.size = s.image.size

namespace SameShape

theorem refl (s : Store) : s.SameShape s := ⟨rfl, rfl, rfl, rfl⟩

theorem trans {u : Store} (h : s.SameShape t) (h' : t.SameShape u) : s.SameShape u :=
  ⟨h'.medium.trans h.medium, h'.blockLen.trans h.blockLen, h'.blockCount.trans h.blockCount,
    h'.size.trans h.size⟩

theorem wellFormed (h : s.SameShape t) (hs : s.WellFormed) : t.WellFormed where
  blockCount_lt := h.blockCount ▸ hs.blockCount_lt
  covered := by
    rw [h.blockCount, h.blockLen, h.size]
    exact hs.covered

end SameShape

theorem WellFormed.sameShape_write (hs : s.WellFormed) (h : s.write b contents = .ok t) :
    s.SameShape t := by
  obtain ⟨hlen, -, hb, rfl⟩ := write_eq_ok h
  have hend := hs.block_le hb
  refine ⟨rfl, rfl, rfl, ?_⟩
  show (s.image.write _ contents).size = s.image.size
  rw [Image.size_write]
  split <;> omega

theorem sameShape_allocate (h : s.allocate = some (b, t)) : s.SameShape t := by
  obtain ⟨m, hm, rfl⟩ := allocate_eq_some h
  obtain ⟨-, -, -, -, -, hsize, -⟩ := Bitmap.allocate_eq_some hm
  exact ⟨rfl, rfl, hsize, rfl⟩

theorem sameShape_release (h : s.release b = .ok t) : s.SameShape t := by
  obtain ⟨m, hm, rfl⟩ := release_eq_ok h
  obtain ⟨-, -, hsize, -⟩ := Bitmap.release_eq_ok hm
  exact ⟨rfl, rfl, hsize, rfl⟩

end Store
end BlockFS
