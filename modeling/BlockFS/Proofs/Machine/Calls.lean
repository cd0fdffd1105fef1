/-
Calls to a store on words of a machine.

A call comes here with the steps by which the store finds what it is asked for: where a block
begins and ends, at which place of the bitmap its flag is, and the number of a block handed
out.  `Follows` holds between these calls and those of `Device` as long as the store has the
shape of one that is well-formed and lies within the address space.
-/
import BlockFS.Proofs.Machine.Arithmetic
import BlockFS.Proofs.Stores.Calls
import BlockFS.Proofs.Mount

namespace BlockFS
namespace Machine

open Place (expect)

/-- Where block `b` begins, if all of it lies within the image. -/
def start? (s : Store) (b : BlockNumber) : Option Nat := do
  let start ← product? b.toNat s.blockLen
  let stop ← sum? start s.blockLen
  if stop ≤ s.image.size then some start else none

/-- Finds the bytes of a block that the store has. -/
def locate (b : BlockNumber) : Action Unit := do
  let s := (← get).store
  if b ≠ noBlock ∧ b.toNat < s.blockCount then
    let _ ← expect (start? s b)

def readBytes (b : BlockNumber) : Action Bytes := do
  locate b
  Device.readBytes b

def writeBytes (b : BlockNumber) (contents : Bytes) : Action Unit := do
  locate b
  Device.writeBytes b contents

/-- Finds the flag of the least free block, and the word that numbers it. -/
def findFree : Action Unit := do
  let m := (← get).store.bitmap
  match m.flags.findIdx? (! ·) with
  | none => return
  | some i =>
    let _ ← expect m.flags[i]?
    let _ ← expect (word? i)

def allocate : Action BlockNumber := do
  findFree
  Device.allocate

/-- Finds the flag of a block that the store has. -/
def findFlag (b : BlockNumber) : Action Unit := do
  let m := (← get).store.bitmap
  if b.toNat < m.size then
    let _ ← expect m.flags[b.toNat]?

def release (b : BlockNumber) : Action Unit := do
  findFlag b
  Device.release b

def releaseEach : List BlockNumber → Action Unit
  | [] => return
  | b :: bs => do
    release b
    releaseEach bs

/-- What follows the tag of a block. -/
def payload? (contents : Bytes) : Option Bytes :=
  if 1 ≤ contents.length then some (contents.drop 1) else none

def readBlock (b : BlockNumber) : Action Block := do
  let contents ← readBytes b
  let _ ← expect (payload? contents)
  match Block.decode contents with
  | .ok block => return block
  | .error fault => throw (.io (.malformed b fault))

def writeBlock (b : BlockNumber) (block : Block) : Action Unit := do
  match block.encode (← Device.blockLen) with
  | .ok contents => writeBytes b contents
  | .error fault => throw (.io (.oversize fault))

def readDirectory (b : BlockNumber) : Action Directory := do
  match ← readBlock b with
  | .directory d => return d
  | .file _ => throw .notADirectory

def readInode (b : BlockNumber) : Action Inode := do
  match ← readBlock b with
  | .directory _ => throw .isADirectory
  | .file i => return i

/-! ## Transactions -/

def rollBack : List BlockNumber → Device → Device
  | [], d => d
  | b :: bs, d =>
    match release b d with
    | .ok _ d => rollBack bs d
    | .error _ d => rollBack bs d

def atomically (act : Transactional α) : Action α := fun d =>
  match act ⟨d, []⟩ with
  | .ok a t => .ok a t.device
  | .error e t => .error e (rollBack t.pending.reverse t.device)

/-- An occupied block is pending, as it is in `Transaction.allocate`. -/
def occupy : Transactional BlockNumber := fun t =>
  let ⟨device, pending⟩ := t
  match allocate device with
  | .ok b device => .ok b ⟨device, b :: pending⟩
  | .error e device => .error e ⟨device, pending⟩

def storeEach : List Bytes → Transactional Unit
  | [] => return
  | contents :: rest => do
    let b ← occupy
    let blockLen ← Transaction.lift Device.blockLen
    Transaction.lift (writeBytes b (Bytes.padTo blockLen contents))
    storeEach rest

/-! ## What the calls find -/

/-- The blocks of a store find room in the address space, and serve some limits. -/
structure Holds (s : Store) (g : Geometry) : Prop extends s.Serves g where
  addressable : s.image.size < addressLimit

/-- A device with a store of some shape. -/
def Shaped (s : Store) (d : Device) : Prop := s.SameShape d.store

theorem Shaped.of_eq {s : Store} {d d' : Device} (h : Shaped s d) (heq : d'.store = d.store) :
    Shaped s d' := by
  unfold Shaped
  rw [heq]
  exact h

/-- A transaction on such a device. -/
def Underway (s : Store) (t : Transaction) : Prop := Shaped s t.device

section

variable {s : Store} {g : Geometry}

theorem start?_eq (h : Holds s g) {t : Store} (ht : s.SameShape t) {b : BlockNumber}
    (hb : b.toNat < t.blockCount) : start? t b = some (b.toNat * t.blockLen) := by
  have hend := (ht.wellFormed h.wellFormed).block_le hb
  have hsize : t.image.size < addressLimit := ht.size ▸ h.addressable
  have hlimits := limits_eq
  unfold start?
  rw [product?_of_lt (by omega)]
  show (sum? (b.toNat * t.blockLen) t.blockLen).bind _ = _
  rw [sum?_of_lt (by omega)]
  exact if_pos hend

theorem locate_eq (h : Holds s g) (b : BlockNumber) {d : Device} (hd : Shaped s d) :
    locate b d = .ok () d := by
  show (if b ≠ noBlock ∧ b.toNat < d.store.blockCount then expect (start? d.store b) >>= fun _ => pure ()
    else pure () : Action Unit) d = _
  by_cases hb : b ≠ noBlock ∧ b.toNat < d.store.blockCount
  · rw [if_pos hb, start?_eq h hd hb.2]
    rfl
  · rw [if_neg hb]
    rfl

theorem findFree_eq (h : Holds s g) {d : Device} (hd : Shaped s d) : findFree d = .ok () d := by
  have hcount : d.store.blockCount < 2 ^ 32 := (hd.wellFormed h.wellFormed).blockCount_lt
  show (match d.store.bitmap.flags.findIdx? (! ·) with
    | none => pure ()
    | some i => expect d.store.bitmap.flags[i]? >>= fun _ => expect (word? i) >>= fun _ => pure ()
    : Action Unit) d = _
  cases hi : d.store.bitmap.flags.findIdx? (! ·) with
  | none => rfl
  | some i =>
    obtain ⟨hlt, -, -⟩ := Array.findIdx?_eq_some_iff_getElem.1 hi
    have hword : i < 2 ^ 32 := Nat.lt_trans hlt hcount
    simp only [Array.getElem?_eq_getElem hlt, word?_of_lt hword]
    rfl

theorem findFlag_eq (b : BlockNumber) (d : Device) : findFlag b d = .ok () d := by
  show (if b.toNat < d.store.bitmap.size then
    expect d.store.bitmap.flags[b.toNat]? >>= fun _ => pure () else pure () : Action Unit) d = _
  by_cases hb : b.toNat < d.store.bitmap.size
  · have hlt : b.toNat < d.store.bitmap.flags.size := hb
    rw [if_pos hb, Array.getElem?_eq_getElem hlt]
    rfl
  · rw [if_neg hb]
    rfl

/-! ## The calls themselves -/

theorem follows_blockLen (s : Store) :
    Follows (Shaped s) Error.defect Device.blockLen Device.blockLen (· = s.blockLen) :=
  .of_ends fun _ hd => ⟨hd, hd.blockLen⟩

theorem follows_readBytes (h : Holds s g) (b : BlockNumber) :
    Follows (Shaped s) Error.defect (readBytes b) (Device.readBytes b)
      (·.length = s.blockLen) := by
  refine .step (fun d hd => locate_eq h b hd) (.of_ends fun d hd => ?_)
  refine (Device.call_readBytes b d).imp ?_ fun _ d' herr =>
    ⟨hd.of_eq herr.2.store, herr.1.ne_defect⟩
  exact fun bs d' hres =>
    ⟨hd.of_eq hres.2.store, (Store.length_of_read hres.1).trans hd.blockLen⟩

theorem follows_writeBytes (h : Holds s g) (b : BlockNumber) (contents : Bytes) :
    Follows (Shaped s) Error.defect (writeBytes b contents) (Device.writeBytes b contents)
      (fun _ => True) := by
  refine .step (fun d hd => locate_eq h b hd) (.of_ends fun d hd => ?_)
  refine (Device.call_writeBytes b contents d).imp ?_ fun _ d' herr =>
    ⟨hd.of_eq herr.2.store, herr.1.ne_defect⟩
  exact fun _ d' hres =>
    ⟨hd.trans ((hd.wellFormed h.wellFormed).sameShape_write hres.1), trivial⟩

theorem follows_allocate (h : Holds s g) :
    Follows (Shaped s) Error.defect allocate Device.allocate (fun _ => True) := by
  refine .step (fun d hd => findFree_eq h hd) (.of_ends fun d hd => ?_)
  refine (Device.call_allocate d).imp (fun b d' hres =>
    ⟨hd.trans (Store.sameShape_allocate hres.1), trivial⟩) ?_
  rintro _ _ ⟨rfl, -, rfl⟩
  exact ⟨hd, by simp⟩

theorem follows_release (s : Store) (b : BlockNumber) :
    Follows (Shaped s) Error.defect (release b) (Device.release b) (fun _ => True) := by
  refine .step (fun d _ => findFlag_eq b d) (.of_ends fun d hd => ?_)
  refine (Device.call_release b d).imp (fun _ d' hres =>
    ⟨hd.trans (Store.sameShape_release hres.1), trivial⟩) ?_
  exact fun _ d' herr => ⟨hd.of_eq herr.2.store, herr.1.ne_defect⟩

theorem follows_releaseEach (s : Store) (bs : List BlockNumber) :
    Follows (Shaped s) Error.defect (releaseEach bs) (Device.releaseEach bs)
      (fun _ => True) := by
  induction bs with
  | nil => exact .pure trivial
  | cons b bs ih => exact (follows_release s b).bind fun _ _ => ih

theorem follows_readBlock (h : Holds s g) (b : BlockNumber) :
    Follows (Shaped s) Error.defect (readBlock b) (Device.readBlock b) (fun _ => True) := by
  apply (follows_readBytes h b).bind
  intro contents hlen
  have hpos : 1 ≤ contents.length := by
    have := h.blockSize_pos
    have := h.blockSize_le
    omega
  have hpayload : payload? contents = some (contents.drop 1) := if_pos hpos
  rw [hpayload]
  cases Block.decode contents with
  | ok block => exact .pure trivial
  | error fault => exact .throw (by simp)

theorem follows_writeBlock (h : Holds s g) (b : BlockNumber) (block : Block) :
    Follows (Shaped s) Error.defect (writeBlock b block) (Device.writeBlock b block)
      (fun _ => True) := by
  apply (follows_blockLen s).bind
  intro blockLen _
  cases block.encode blockLen with
  | ok contents => exact follows_writeBytes h b contents
  | error fault => exact .throw (by simp)

theorem follows_readDirectory (h : Holds s g) (b : BlockNumber) :
    Follows (Shaped s) Error.defect (readDirectory b) (Device.readDirectory b)
      (fun _ => True) := by
  apply (follows_readBlock h b).bind
  intro block _
  cases block with
  | directory d => exact .pure trivial
  | file i => exact .throw (by simp)

theorem follows_readInode (h : Holds s g) (b : BlockNumber) :
    Follows (Shaped s) Error.defect (readInode b) (Device.readInode b) (fun _ => True) := by
  apply (follows_readBlock h b).bind
  intro block _
  cases block with
  | directory d => exact .throw (by simp)
  | file i => exact .pure trivial

theorem follows_lift {x y : Action α} {P : α → Prop}
    (h : Follows (Shaped s) Error.defect x y P) :
    Follows (Underway s) Error.defect (Transaction.lift x)
      (Transaction.lift y) P := by
  intro t ht
  obtain ⟨device, pending⟩ := t
  obtain ⟨heq, hend⟩ := h device ht
  simp only [Transaction.lift, heq]
  cases hy : y device with
  | ok a d => exact ⟨trivial, hend.of_eq_ok hy⟩
  | error e d => exact ⟨trivial, hend.of_eq_error hy⟩

theorem follows_occupy (h : Holds s g) :
    Follows (Underway s) Error.defect occupy Transaction.allocate
      (fun _ => True) := by
  intro t ht
  obtain ⟨device, pending⟩ := t
  obtain ⟨heq, hend⟩ := follows_allocate h device ht
  simp only [occupy, Transaction.allocate]
  rewrite [heq]
  cases hy : Device.allocate device with
  | ok a d => exact ⟨rfl, hend.of_eq_ok hy⟩
  | error e d => exact ⟨rfl, hend.of_eq_error hy⟩

theorem follows_storeEach (h : Holds s g) (pieces : List Bytes) :
    Follows (Underway s) Error.defect (storeEach pieces)
      (Transaction.storeEach pieces) (fun _ => True) := by
  induction pieces with
  | nil => exact .pure trivial
  | cons piece pieces ih =>
    apply (follows_occupy h).bind
    intro b _
    apply (follows_lift (follows_blockLen s)).bind
    intro blockLen _
    exact (follows_lift (follows_writeBytes h b _)).bind fun _ _ => ih

theorem rollBack_eq (bs : List BlockNumber) {d : Device} (hd : Shaped s d) :
    rollBack bs d = Transaction.rollBack bs d ∧ Shaped s (Transaction.rollBack bs d) := by
  induction bs generalizing d with
  | nil => exact ⟨rfl, hd⟩
  | cons b bs ih =>
    obtain ⟨heq, hend⟩ := follows_release s b d hd
    simp only [rollBack, Transaction.rollBack, heq]
    cases hy : Device.release b d with
    | ok u d' => exact ih (hend.of_eq_ok hy).1
    | error e d' => exact ih (hend.of_eq_error hy).1

theorem follows_atomically {x y : Transactional α} {P : α → Prop}
    (h : Follows (Underway s) Error.defect x y P) :
    Follows (Shaped s) Error.defect (atomically x) (Transaction.atomically y) P := by
  intro d hd
  obtain ⟨heq, hend⟩ := h ⟨d, []⟩ hd
  simp only [atomically, Transaction.atomically, heq]
  cases hy : y ⟨d, []⟩ with
  | ok a t => exact ⟨rfl, hend.of_eq_ok hy⟩
  | error e t =>
    obtain ⟨ht, he⟩ := hend.of_eq_error hy
    obtain ⟨hback, hshape⟩ := rollBack_eq t.pending.reverse ht
    simp only [hback]
    exact ⟨trivial, hshape, he⟩

end

end Machine
end BlockFS
