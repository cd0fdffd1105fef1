/-
Operations are put together from a few calls to a store.

A property that holds of the calls and is passed on from the parts to the whole holds of every
operation.  `Reads`, `Direct`, `Transaction.Built` and `Device.Built` are the ways to put them
together: calls that only read, calls one after another, calls that may also occupy blocks, and
all of these, where what is occupied is given back on failure.  Which call comes next may depend
on what the ones before gave, but on nothing else of the device.  `Operation.built_perform` goes
through the operations once and for all.
-/
import BlockFS.Session

namespace BlockFS

variable {α β : Type}

/-! ## Putting actions together -/

namespace Device

/-- An action that changes nothing. -/
inductive Reads : {α : Type} → Action α → Prop where
  | pure {α : Type} (a : α) : Reads (Pure.pure a)
  | throw {α : Type} (e : Error) : Reads (MonadExcept.throw e : Action α)
  | bind {α β : Type} {x : Action α} {f : α → Action β} :
    Reads x → (∀ a, Reads (f a)) → Reads (x >>= f)
  | blockLen : Reads Device.blockLen
  | readBytes (b : BlockNumber) : Reads (Device.readBytes b)

/-- An action that occupies no block. -/
inductive Direct : {α : Type} → Action α → Prop where
  | pure {α : Type} (a : α) : Direct (Pure.pure a)
  | throw {α : Type} (e : Error) : Direct (MonadExcept.throw e : Action α)
  | bind {α β : Type} {x : Action α} {f : α → Action β} :
    Direct x → (∀ a, Direct (f a)) → Direct (x >>= f)
  | blockLen : Direct Device.blockLen
  | readBytes (b : BlockNumber) : Direct (Device.readBytes b)
  | writeBytes (b : BlockNumber) (contents : Bytes) : Direct (Device.writeBytes b contents)
  | release (b : BlockNumber) : Direct (Device.release b)

end Device

/-- An operation within a transaction. -/
inductive Transaction.Built : {α : Type} → Transactional α → Prop where
  | pure {α : Type} (a : α) : Built (Pure.pure a)
  | bind {α β : Type} {x : Transactional α} {f : α → Transactional β} :
    Built x → (∀ a, Built (f a)) → Built (x >>= f)
  | allocate : Built Transaction.allocate
  | blocks : Built Transaction.blocks
  | lift {α : Type} {act : Action α} : Device.Direct act → Built (Transaction.lift act)

/-- An action with transactions in it, one after another. -/
inductive Device.Built : {α : Type} → Action α → Prop where
  | direct {α : Type} {act : Action α} : Device.Direct act → Built act
  | atomically {α : Type} {act : Transactional α} :
    Transaction.Built act → Built (Transaction.atomically act)
  | bind {α β : Type} {x : Action α} {f : α → Action β} :
    Built x → (∀ a, Built (f a)) → Built (x >>= f)

/-! ## Actions on a device -/

namespace Device

theorem Reads.direct {act : Action α} (h : Reads act) : Direct act := by
  induction h with
  | pure a => exact .pure a
  | throw e => exact .throw e
  | bind _ _ hx hf => exact .bind hx hf
  | blockLen => exact .blockLen
  | readBytes b => exact .readBytes b

namespace Reads

theorem ofExcept (a : Except Error α) : Reads (MonadExcept.ofExcept a : Action α) := by
  cases a with
  | ok a => exact pure a
  | error e => exact throw e

theorem ite {c : Prop} [Decidable c] {x y : Action α} (hx : Reads x) (hy : Reads y) :
    Reads (if c then x else y) := by
  split
  · exact hx
  · exact hy

end Reads

theorem Direct.ite {c : Prop} [Decidable c] {x y : Action α} (hx : Direct x) (hy : Direct y) :
    Direct (if c then x else y) := by
  split
  · exact hx
  · exact hy

theorem Built.ite {c : Prop} [Decidable c] {x y : Action α} (hx : Built x) (hy : Built y) :
    Built (if c then x else y) := by
  split
  · exact hx
  · exact hy

theorem direct_releaseEach (bs : List BlockNumber) : Direct (releaseEach bs) := by
  induction bs with
  | nil => exact .pure ()
  | cons b bs ih => exact .bind (.release b) fun _ => ih

theorem reads_readBlock (b : BlockNumber) : Reads (readBlock b) := by
  refine .bind (.readBytes b) fun bs => ?_
  cases Block.decode bs with
  | ok block => exact .pure block
  | error fault => exact .throw _

theorem direct_readBlock (b : BlockNumber) : Direct (readBlock b) := (reads_readBlock b).direct

theorem direct_writeBlock (b : BlockNumber) (block : Block) : Direct (writeBlock b block) := by
  refine .bind .blockLen fun n => ?_
  cases block.encode n with
  | ok contents => exact .writeBytes b contents
  | error fault => exact .throw _

theorem reads_readDirectory (b : BlockNumber) : Reads (readDirectory b) := by
  refine .bind (reads_readBlock b) fun block => ?_
  cases block with
  | directory dir => exact .pure dir
  | file i => exact .throw _

theorem reads_readInode (b : BlockNumber) : Reads (readInode b) := by
  refine .bind (reads_readBlock b) fun block => ?_
  cases block with
  | directory dir => exact .throw _
  | file i => exact .pure i

end Device

theorem Transaction.built_storeEach (pieces : List Bytes) :
    Transaction.Built (Transaction.storeEach pieces) := by
  induction pieces with
  | nil => exact .pure ()
  | cons piece pieces ih =>
    exact .bind .allocate fun b => .bind (.lift .blockLen) fun n =>
      .bind (.lift (.writeBytes b _)) fun _ => ih

/-! ## The operations -/

namespace Place

open Device (Reads Direct Built reads_readDirectory reads_readInode reads_readBlock
  direct_writeBlock direct_releaseEach)

theorem reads_expect (a : Option α) : Reads (expect a) := by
  cases a with
  | some a => exact .pure a
  | none => exact .throw _

theorem reads_lookup (dir : Directory) (name : String) : Reads (lookup dir name) := by
  unfold lookup
  cases dir.find? name with
  | some e => exact .pure e
  | none => exact .throw _

theorem reads_checkGeometry (g : Geometry) : Reads (checkGeometry g) := by
  unfold checkGeometry
  cases g.validate with
  | error fault => exact .throw _
  | ok _ =>
    refine .bind (reads_expect _) fun needed => .bind .blockLen fun blockLen => ?_
    exact .ite (.throw _) (.pure ())

theorem reads_mount (g : Geometry) : Reads (mount g) := by
  refine .bind (reads_checkGeometry g) fun _ => .bind (reads_readBlock _) fun block => ?_
  cases block with
  | directory dir => exact .pure _
  | file i => exact .throw _

theorem direct_mount (g : Geometry) : Direct (mount g) := (reads_mount g).direct

theorem direct_format (g : Geometry) : Direct (format g) :=
  .bind (reads_checkGeometry g).direct fun _ => .bind (direct_writeBlock _ _) fun _ =>
    direct_mount g

theorem built_createEntry (p : Place) (name : String) (contents : Block) :
    Built (p.createEntry name contents) := by
  unfold createEntry
  refine .ite (.direct (.throw _)) (.bind (.direct (reads_readDirectory _).direct) fun dir => ?_)
  refine .ite (.direct (.throw _)) (.ite (.direct (.throw _)) (.atomically ?_))
  refine .bind .allocate fun b => ?_
  exact .bind (.lift (direct_writeBlock b contents)) fun _ => .lift (direct_writeBlock _ _)

theorem direct_removeDirectory (p : Place) (name : String) :
    Direct (p.removeDirectory name) := by
  unfold removeDirectory
  refine .bind (reads_readDirectory _).direct fun dir => ?_
  refine .bind (reads_lookup dir name).direct fun e => ?_
  refine .bind (reads_readDirectory _).direct fun sub => .ite (.throw _) ?_
  exact .bind (direct_writeBlock _ _) fun _ => .release _

theorem direct_removeFile (p : Place) (name : String) : Direct (p.removeFile name) := by
  unfold removeFile
  refine .bind (reads_readDirectory _).direct fun dir => ?_
  refine .bind (reads_lookup dir name).direct fun e => ?_
  refine .bind (reads_readInode _).direct fun i => .bind (reads_expect _).direct fun blocks => ?_
  refine .bind (direct_writeBlock _ _) fun _ => ?_
  exact .bind (direct_releaseEach blocks) fun _ => .release _

theorem reads_tail? (blockSize size : Nat) (blocks : List BlockNumber) :
    Reads (tail? blockSize size blocks) := by
  unfold tail?
  exact .ite (.pure none) (.bind (reads_expect _) fun last => .pure (some last))

theorem reads_tailContents (blockSize size : Nat) (tail : Option BlockNumber) :
    Reads (tailContents blockSize size tail) := by
  cases tail with
  | none => exact .pure []
  | some last => exact .bind (.readBytes last) fun _ => reads_expect _

theorem built_extend (p : Place) (block : BlockNumber) (kept : List BlockNumber)
    (contents : Bytes) (size : Nat) : Built (p.extend block kept contents size) := by
  unfold extend
  refine .bind (.direct (reads_expect _).direct) fun count => .atomically ?_
  refine .bind (Transaction.built_storeEach _) fun _ => .bind .blocks fun new => .lift ?_
  exact .bind (reads_expect _).direct fun size => direct_writeBlock _ _

theorem built_append (p : Place) (name : String) (data : Bytes) :
    Built (p.append name data) := by
  unfold append
  refine .bind (.direct (reads_readDirectory _).direct) fun dir => ?_
  refine .bind (.direct (reads_lookup dir name).direct) fun e => ?_
  refine .bind (.direct (reads_readInode _).direct) fun i => ?_
  refine .ite (.direct (.throw _)) (.ite (.direct (.pure ())) ?_)
  refine .bind (.direct (Reads.ofExcept _).direct) fun blocks => ?_
  refine .bind (.direct (reads_tail? _ _ _).direct) fun tail => ?_
  refine .bind (.direct (reads_tailContents _ _ _).direct) fun kept => ?_
  refine .bind (built_extend _ _ _ _ _) fun _ => ?_
  cases tail with
  | none => exact .direct (.pure ())
  | some last => exact .direct (.release last)

theorem reads_enter (p : Place) (name : Option String) : Reads (p.enter name) := by
  cases name with
  | none => exact .pure _
  | some name =>
    refine .bind (reads_readDirectory _) fun dir => .bind (reads_lookup dir name) fun e => ?_
    exact .bind (reads_readDirectory _) fun _ => .pure _

theorem reads_kinds (es : List Entry) : Reads (es.mapM kindOf) := by
  induction es with
  | nil => exact .pure []
  | cons e es ih =>
    rw [List.mapM_cons]
    refine .bind (.bind (reads_readBlock _) fun block => .pure _) fun kind => ?_
    exact .bind ih fun kinds => .pure _

theorem reads_list (p : Place) : Reads p.list := by
  unfold list
  refine .bind (reads_readDirectory _) fun dir => ?_
  exact .bind (reads_kinds dir.entries) fun kinds => .pure _

theorem reads_stat (p : Place) (name : String) : Reads (p.stat name) := by
  unfold stat
  refine .bind (reads_readDirectory _) fun dir => .bind (reads_lookup dir name) fun e => ?_
  refine .bind (reads_readBlock _) fun block => ?_
  cases block with
  | directory dir => exact .pure _
  | file i => exact .bind (reads_expect _) fun blocks => .pure _

theorem reads_readEach (blockSize remaining : Nat) (bs : List BlockNumber) :
    Reads (readEach blockSize remaining bs) := by
  induction bs generalizing remaining with
  | nil => exact .pure []
  | cons b bs ih =>
    refine .bind (.readBytes b) fun contents => .bind (reads_expect _) fun piece => ?_
    exact .bind (ih _) fun rest => .pure _

theorem reads_read (p : Place) (name : String) (max : Nat) : Reads (p.read name max) := by
  unfold read
  refine .bind (reads_readDirectory _) fun dir => .bind (reads_lookup dir name) fun e => ?_
  refine .bind (reads_readInode _) fun i => .bind (.ofExcept _) fun blocks => ?_
  exact .bind (reads_expect _) fun count => reads_readEach _ _ _

end Place

/-- Every operation is put together from calls and transactions. -/
theorem Operation.built_perform (p : Place) (op : Operation) : Device.Built (op.perform p) := by
  cases op with
  | enter name => exact .direct (.bind (p.reads_enter name).direct fun _ => .pure _)
  | list => exact .direct (.bind p.reads_list.direct fun _ => .pure _)
  | stat name => exact .direct (.bind (p.reads_stat name).direct fun _ => .pure _)
  | makeDirectory name => exact .bind (p.built_createEntry name _) fun _ => .direct (.pure _)
  | removeDirectory name =>
    exact .direct (.bind (p.direct_removeDirectory name) fun _ => .pure _)
  | createFile name => exact .bind (p.built_createEntry name _) fun _ => .direct (.pure _)
  | removeFile name => exact .direct (.bind (p.direct_removeFile name) fun _ => .pure _)
  | append name data => exact .bind (p.built_append name data) fun _ => .direct (.pure _)
  | read name max => exact .direct (.bind (p.reads_read name max).direct fun _ => .pure _)

end BlockFS
