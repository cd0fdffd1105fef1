/-
The footprint of every operation, in any store.

`Operation.rewritten` is the one block in use that an operation may write, and
`Operation.released` are those that it may free.  Both are read off the store as it is before the
operation, corrupt or not.
-/
import BlockFS.Proofs.Contents
import BlockFS.Proofs.Footprint.Calls

namespace BlockFS

/-! ## What operations write and free -/

/-- The last data block of a file, if the file fills only a part of it. -/
def Inode.tail? (i : Inode) (blockSize : Nat) : Option BlockNumber :=
  if i.fileSize.toNat % blockSize = 0 then none
  else (i.populated? blockSize).bind (·[i.fileSize.toNat / blockSize]?)

namespace Operation

/-- The metadata block that an operation rewrites. -/
def rewritten (s : Store) (p : Place) : Operation → Option BlockNumber
  | .makeDirectory _ | .removeDirectory _ | .createFile _ | .removeFile _ => some p.dir
  | .append name _ => s.target? p.dir name
  | .enter _ | .list | .stat _ | .read _ _ => none

/-- The blocks that an operation frees: those of what is removed, and the partly filled one that
appending copies. -/
def released (s : Store) (p : Place) : Operation → List BlockNumber
  | .removeDirectory name => (s.target? p.dir name).toList
  | .removeFile name =>
    ((s.fileAt? p.dir name).bind (·.populated? p.geometry.blockSize)).getD [] ++
      (s.target? p.dir name).toList
  | .append name _ => ((s.fileAt? p.dir name).bind (·.tail? p.geometry.blockSize)).toList
  | .enter _ | .list | .stat _ | .makeDirectory _ | .createFile _ | .read _ _ => []

end Operation

namespace Store

variable {s : Store} {b : BlockNumber} {dir : Directory} {name : String} {e : Entry} {i : Inode}

theorem target?_eq_some (hdir : s.metadata? b = some (.directory dir))
    (he : dir.find? name = some e) : s.target? b name = some e.target := by
  simp only [target?, hdir, he, Option.map_some]

theorem fileAt?_eq_some (htarget : s.target? b name = some e.target)
    (hi : s.metadata? e.target = some (.file i)) : s.fileAt? b name = some i := by
  simp only [fileAt?, htarget, Option.bind_some, inode?, hi]

end Store

namespace Place

open Device (Still Commits Spares Frees still_readDirectory still_readInode)

variable {s : Store} {n : Nat} {p : Place}

theorem maintains_expect {α : Type} {I : Device → Prop} (a : Option α) :
    Maintains I (expect a) fun x => a = some x := by
  cases a with
  | some a => exact .pure rfl
  | none => exact .throw _

theorem maintains_ofExcept {α : Type} {I : Device → Prop} (a : Except Error α) :
    Maintains I (MonadExcept.ofExcept a : Action α) fun x => a = .ok x := by
  cases a with
  | ok a => exact .pure rfl
  | error e => exact .throw e

theorem maintains_lookup {I : Device → Prop} (dir : Directory) (name : String) :
    Maintains I (lookup dir name) fun e => dir.find? name = some e := by
  unfold lookup
  cases dir.find? name with
  | some e => exact .pure rfl
  | none => exact .throw _

/-! ## Adding entries and taking them out -/

theorem spares_createEntry (hs : s.WellFormed) (p : Place) (name : String) (contents : Block) :
    Spares s n (some p.dir) [] (p.createEntry name contents) := by
  unfold createEntry
  refine .ite (fun _ => .throw hs _) fun _ => ?_
  refine .after hs (still_readDirectory _) fun dir _ => ?_
  refine .ite (fun _ => .throw hs _) fun _ => .ite (fun _ => .throw hs _) fun _ => ?_
  refine Commits.spares (.of_atomically fun d hd => ?_)
  obtain ⟨rfl, rfl⟩ := hd
  refine (Transaction.ends_allocate hs).bind ?_ ?_
  · rintro e t ⟨-, -, rfl⟩
    exact ⟨[], .refl hs⟩
  intro b t₁ h₁
  refine (Transaction.ends_lift
    (Device.rewrites_of_writeBlock h₁.extends_store.wellFormed b contents)).bind ?_ ?_
  · intro e t₂ herr
    exact ⟨[b], h₁.untouched herr.1 herr.2⟩
  intro _ t₂ hres
  obtain ⟨hp, ⟨bytes, hw⟩, hsteady⟩ := hres
  exact Device.commits_of_occupies (h₁.rewrites hp hsteady List.mem_cons_self hw) p.dir _

theorem spares_removeDirectory (hs : s.WellFormed) (p : Place) (name : String) :
    Spares s n (some p.dir) (s.target? p.dir name).toList (p.removeDirectory name) := by
  unfold removeDirectory
  refine .after hs (still_readDirectory _) fun dir hdir => ?_
  refine .after hs (maintains_lookup dir name) fun e he => ?_
  rw [Store.target?_eq_some hdir he]
  refine .after hs (still_readDirectory _) fun sub _ => .ite (fun _ => .throw hs _) fun _ => ?_
  exact (Device.commits_writeBlock hs _ _).then_frees (.release _)

theorem spares_removeFile (hs : s.WellFormed) (p : Place) (name : String) :
    Spares s n (some p.dir) (Operation.released s p (.removeFile name)) (p.removeFile name) := by
  unfold removeFile
  refine .after hs (still_readDirectory _) fun dir hdir => ?_
  refine .after hs (maintains_lookup dir name) fun e he => ?_
  refine .after hs (still_readInode _) fun i hi => ?_
  refine .after hs (maintains_expect _) fun blocks hblocks => ?_
  have htarget := Store.target?_eq_some hdir he
  have hreleased : Operation.released s p (.removeFile name) = blocks ++ [e.target] := by
    simp only [Operation.released, htarget, Store.fileAt?_eq_some htarget hi, Option.bind_some,
      hblocks, Option.getD_some, Option.toList_some]
  rw [hreleased]
  exact (Device.commits_writeBlock hs _ _).then_frees ((Frees.releaseEach blocks).bind (.release _))

/-! ## Appending -/

/-- The new blocks of a file are taken before its inode is rewritten, and the inode need not be in
a block that is in use. -/
theorem commits_extend (hs : s.Serves p.geometry) (block : BlockNumber) (kept : List BlockNumber)
    (contents : Bytes) (size : Nat) : Commits s n block (p.extend block kept contents size) := by
  unfold extend
  refine .after hs.wellFormed (maintains_expect _) fun count _ => .of_atomically fun d hd => ?_
  obtain ⟨rfl, rfl⟩ := hd
  have hpieces : ∀ piece ∈ Bytes.pieces p.geometry.blockSize count contents,
      piece.length ≤ d.store.blockLen := fun piece hpiece =>
    Nat.le_trans (Bytes.length_le_of_mem_pieces hpiece) hs.blockSize_le
  refine (Transaction.ends_storeEach (t := ⟨d, []⟩) hs.wellFormed hpieces).bind
    (fun e t h => h.2) ?_
  rintro _ t₁ ⟨new, h₁, -⟩
  cases hsize : (if size < Geometry.inodeSizeLimit then some (UInt32.ofNat size) else none) with
  | none => exact ⟨new, h₁⟩
  | some size => exact Device.commits_of_occupies h₁ block _

theorem maintains_tail? {I : Device → Prop} (blockSize size : Nat) (blocks : List BlockNumber) :
    Maintains I (tail? blockSize size blocks) fun tail =>
      tail = if size % blockSize = 0 then none else blocks[size / blockSize]? := by
  unfold tail?
  by_cases hr : size % blockSize = 0
  · simp only [if_pos hr]
    exact .pure rfl
  · simp only [if_neg hr]
    exact .bind (maintains_expect _) fun last hlast => .pure hlast.symm

theorem spares_append (hs : s.Serves p.geometry) (name : String) (data : Bytes) :
    Spares s n (s.target? p.dir name) (Operation.released s p (.append name data))
      (p.append name data) := by
  have hwf := hs.wellFormed
  unfold append
  refine .after hwf (still_readDirectory _) fun dir hdir => ?_
  refine .after hwf (maintains_lookup dir name) fun e he => ?_
  refine .after hwf (still_readInode _) fun i hi => ?_
  have htarget := Store.target?_eq_some hdir he
  refine .ite (fun _ => .throw hwf _) fun _ => ?_
  refine .ite (fun _ => .of_still hwf (Device.Reads.pure ()).still) fun _ => ?_
  refine .after hwf (maintains_ofExcept _) fun blocks hblocks => ?_
  refine .after hwf (maintains_tail? _ _ _) fun tail htail => ?_
  refine .after hwf (reads_tailContents _ _ _).still fun kept _ => ?_
  have hreleased : Operation.released s p (.append name data) = tail.toList := by
    have hheld := Geometry.populated?_of_fileBlocks hblocks
    simp only [Operation.released, Store.fileAt?_eq_some htarget hi, Option.bind_some,
      Inode.tail?, hheld, htail]
  rw [htarget, hreleased]
  refine (commits_extend hs _ _ _ _).then_frees ?_
  cases tail with
  | none => exact .pure
  | some last => exact .release last

end Place

/-- Whatever an operation runs into, it spares all blocks in use but those that it is to write or
to free. -/
theorem Operation.spares_perform {s : Store} {n : Nat} {p : Place} (hs : s.Serves p.geometry)
    (op : Operation) :
    Device.Spares s n (op.rewritten s p) (op.released s p) (op.perform p) := by
  have hwf := hs.wellFormed
  cases op with
  | enter name => exact .then_pure (.of_still hwf (p.reads_enter name).still) _
  | list => exact .then_pure (.of_still hwf p.reads_list.still) _
  | stat name => exact .then_pure (.of_still hwf (p.reads_stat name).still) _
  | makeDirectory name => exact .then_pure (p.spares_createEntry hwf name _) _
  | removeDirectory name => exact .then_pure (p.spares_removeDirectory hwf name) _
  | createFile name => exact .then_pure (p.spares_createEntry hwf name _) _
  | removeFile name => exact .then_pure (p.spares_removeFile hwf name) _
  | append name data => exact .then_pure (Place.spares_append hs name data) _
  | read name max => exact .then_pure (.of_still hwf (p.reads_read name max).still) _

end BlockFS
