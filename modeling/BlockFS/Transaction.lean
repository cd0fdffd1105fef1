/-
Operations that occupy blocks and give them back if they fail.

The blocks that such an operation has occupied are pending until it succeeds.  Where it
fails, `atomically` frees them in the order in which they were occupied and passes the
failure on; whether a block could be freed makes no difference to that.
-/
import BlockFS.Device

namespace BlockFS

/-- A device and the blocks pending on it, the latest first. -/
structure Transaction where
  device : Device
  pending : List BlockNumber

/-- An operation that occupies blocks. -/
abbrev Transactional := EStateM Error Transaction

namespace Transaction

/-- An action that occupies no block. -/
def lift (act : Action α) : Transactional α := fun t =>
  let ⟨device, pending⟩ := t
  match act device with
  | .ok a device => .ok a ⟨device, pending⟩
  | .error e device => .error e ⟨device, pending⟩

def allocate : Transactional BlockNumber := fun t =>
  let ⟨device, pending⟩ := t
  match Device.allocate device with
  | .ok b device => .ok b ⟨device, b :: pending⟩
  | .error e device => .error e ⟨device, pending⟩

/-- The pending blocks in the order in which they were occupied. -/
def blocks : Transactional (List BlockNumber) := fun t =>
  .ok t.pending.reverse t

/-- Frees as many of the blocks as can be freed. -/
def rollBack : List BlockNumber → Device → Device
  | [], d => d
  | b :: bs, d =>
    match Device.release b d with
    | .ok _ d => rollBack bs d
    | .error _ d => rollBack bs d

/-- Runs an operation that leaves no block occupied if it fails. -/
def atomically (act : Transactional α) : Action α := fun d =>
  match act ⟨d, []⟩ with
  | .ok a t => .ok a t.device
  | .error e t => .error e (rollBack t.pending.reverse t.device)

/-- Puts each of the byte strings into a block of its own, padded with zeros. -/
def storeEach : List Bytes → Transactional Unit
  | [] => return
  | contents :: rest => do
    let b ← allocate
    let blockLen ← lift Device.blockLen
    lift (Device.writeBytes b (Bytes.padTo blockLen contents))
    storeEach rest

end Transaction
end BlockFS
