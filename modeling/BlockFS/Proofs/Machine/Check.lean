/-
The consistency check on words of a machine.

The check counts what it finds, looks up marks by the numbers of blocks and goes through those
numbers as 32-bit words.  `follows_check` says that it does what `Check.run` does, however the
blocks refer to each other.  The counters stay below the number of blocks because a block is
counted at most once: what has been counted, what is on the stack and what has not been claimed
add up to no more than all the blocks (`total_visit`).
-/
import BlockFS.Proofs.Check.Walk
import BlockFS.Proofs.Machine.Operations

namespace BlockFS
namespace Machine

open Check (Claims Tally Visit)

/-! ## Claims -/

def claim (m : Bitmap) (c : Claims) (b : BlockNumber) : Except CheckFault Claims :=
  if b = noBlock then .error .noBlockReferenced
  else if c.marks.size ≤ b.toNat then .error (.invalidNumber b)
  else if !m.isAllocated b then .error (.referencedFree b)
  else
    match c.marks[b.toNat]? with
    | none => .error (.filesystem .defect)
    | some true => .error (.referencedTwice b)
    | some false => .ok ⟨c.marks.setIfInBounds b.toNat true⟩

/-- Claims the blocks of a file and counts each of them. -/
def claimAll (m : Bitmap) (c : Claims) (counted : Nat) :
    List BlockNumber → Except CheckFault (Claims × Nat)
  | [] => .ok (c, counted)
  | b :: bs =>
    match claim m c b with
    | .error fault => .error fault
    | .ok c =>
      match sum? counted 1 with
      | none => .error (.filesystem .defect)
      | some counted => claimAll m c counted bs

def claimEntries (g : Geometry) (m : Bitmap) (seen : List String) (c : Claims) :
    List Entry → Except CheckFault Claims
  | [] => .ok c
  | e :: es =>
    if g.maxNameLength < e.name.utf8ByteSize then .error (.nameTooLong e.name)
    else if e.name ∈ seen then .error (.duplicateName e.name)
    else
      match claim m c e.target with
      | .error fault => .error fault
      | .ok c => claimEntries g m (e.name :: seen) c es

section Claims

variable {m : Bitmap} {c c' : Claims}

theorem claim_eq (m : Bitmap) (c : Claims) (b : BlockNumber) : claim m c b = c.claim m b := by
  unfold claim Claims.claim
  by_cases hnone : b = noBlock
  · rw [if_pos hnone, if_pos hnone]
  by_cases hsize : c.marks.size ≤ b.toNat
  · rw [if_neg hnone, if_neg hnone, if_pos hsize, if_pos hsize]
  rw [if_neg hnone, if_neg hnone, if_neg hsize, if_neg hsize]
  have hmark := Array.getElem?_eq_getElem (Nat.lt_of_not_le hsize)
  simp only [hmark, Claims.has]
  cases c.marks[b.toNat] <;> rfl

theorem claimEntries_eq (g : Geometry) (m : Bitmap) (seen : List String) (c : Claims)
    (es : List Entry) : claimEntries g m seen c es = Check.claimEntries g m seen c es := by
  induction es generalizing seen c with
  | nil => rfl
  | cons e es ih =>
    rw [claimEntries, Check.claimEntries, claim_eq]
    cases c.claim m e.target with
    | error fault => rfl
    | ok c' => simp only [ih]

theorem claimAll_eq_ok {counted counted' : Nat} {bs : List BlockNumber}
    (h : claimAll m c counted bs = .ok (c', counted')) :
    c.claimAll m bs = .ok c' ∧ counted' = counted + bs.length := by
  induction bs generalizing c counted with
  | nil =>
    cases h
    exact ⟨rfl, rfl⟩
  | cons b bs ih =>
    rw [claimAll, claim_eq] at h
    rw [Claims.claimAll]
    cases hclaim : c.claim m b with
    | error fault => simp [hclaim] at h
    | ok d =>
      simp only [hclaim] at h
      split at h
      · cases h
      · next n hn =>
        obtain ⟨hall, hcounted⟩ := ih h
        have hn := eq_of_sum? hn
        refine ⟨hall, ?_⟩
        rw [List.length_cons]
        omega

/-- A counter of claims has room as long as it has room for the blocks that are left. -/
theorem claimAll_eq {counted : Nat} {bs : List BlockNumber}
    (h : counted + c.left < sizeLimit) :
    claimAll m c counted bs =
      match c.claimAll m bs with
      | .error fault => .error fault
      | .ok c' => .ok (c', counted + bs.length) := by
  induction bs generalizing c counted with
  | nil => rfl
  | cons b bs ih =>
    rw [claimAll, Claims.claimAll, claim_eq]
    cases hclaim : c.claim m b with
    | error fault => rfl
    | ok d =>
      have hleft := Claims.left_claim hclaim
      simp only [sum?_of_lt (show counted + 1 < sizeLimit by omega)]
      rw [ih (by omega), List.length_cons, Nat.add_assoc, Nat.add_comm 1]

theorem claim_ne_filesystem {b : BlockNumber} {fault : CheckFault}
    (h : c.claim m b = .error fault) (e : Error) : fault ≠ .filesystem e := by
  intro heq
  subst heq
  unfold Claims.claim at h
  split at h
  · cases h
  split at h
  · cases h
  split at h
  · cases h
  split at h
  · cases h
  · cases h

theorem claimAll_ne_filesystem {bs : List BlockNumber} {fault : CheckFault}
    (h : c.claimAll m bs = .error fault) (e : Error) : fault ≠ .filesystem e := by
  induction bs generalizing c with
  | nil => cases h
  | cons b bs ih =>
    rw [Claims.claimAll] at h
    cases hclaim : c.claim m b with
    | error fault' =>
      simp only [hclaim] at h
      cases h
      exact claim_ne_filesystem hclaim e
    | ok d =>
      simp only [hclaim] at h
      exact ih h

theorem claimEntries_ne_filesystem {g : Geometry} {seen : List String} {es : List Entry}
    {fault : CheckFault} (h : Check.claimEntries g m seen c es = .error fault) (e : Error) :
    fault ≠ .filesystem e := by
  induction es generalizing seen c with
  | nil => cases h
  | cons x es ih =>
    rw [Check.claimEntries] at h
    split at h
    · cases h
      simp
    split at h
    · cases h
      simp
    cases hclaim : c.claim m x.target with
    | error fault' =>
      simp only [hclaim] at h
      cases h
      exact claim_ne_filesystem hclaim e
    | ok d =>
      simp only [hclaim] at h
      exact ih h

end Claims

/-! ## Visits -/

/-- All that has been counted. -/
def total (t : Tally) : Nat := t.directories + t.files + t.dataBlocks

def visit (g : Geometry) (m : Bitmap) (c : Claims) (t : Tally) (b : BlockNumber) :
    Block → Except CheckFault Visit
  | .directory d =>
    match sum? t.directories 1 with
    | none => .error (.filesystem .defect)
    | some directories =>
      if g.maxDirEntries < d.size then .error (.tooManyEntries b d.size)
      else
        match claimEntries g m [] c d.entries with
        | .error fault => .error fault
        | .ok c => .ok ⟨c, ⟨directories, t.files, t.dataBlocks⟩,
            (d.entries.map Entry.target).reverse⟩
  | .file i =>
    match sum? t.files 1 with
    | none => .error (.filesystem .defect)
    | some files =>
      if g.maxFileSize < i.fileSize.toNat then .error .fileTooLarge
      else if g.maxDataBlocks < i.dataBlocks.length then
        .error (.tooManyBlocks b i.dataBlocks.length)
      else
        match fileBlocks g b i with
        | .error e => .error (.filesystem e)
        | .ok blocks =>
          match claimAll m c t.dataBlocks blocks with
          | .error fault => .error fault
          | .ok (c, dataBlocks) => .ok ⟨c, ⟨t.directories, files, dataBlocks⟩, []⟩

section Visits

variable {g : Geometry} {u : Store} {m : Bitmap} {c : Claims} {t : Tally} {b : BlockNumber}

/-- A visit that succeeds is one that succeeds with numbers. -/
theorem visit_eq_ok {block : Block} {v : Visit} (h : visit g m c t b block = .ok v) :
    Check.visit g m c t b block = .ok v := by
  cases block with
  | directory d =>
    rw [visit, claimEntries_eq] at h
    split at h
    · cases h
    · next n hn =>
      obtain rfl := eq_of_sum? hn
      exact h
  | file i =>
    rw [visit, fileBlocks_eq] at h
    split at h
    · cases h
    next n hn =>
    obtain rfl := eq_of_sum? hn
    split at h
    · cases h
    next hsize =>
    split at h
    · cases h
    next hslots =>
    rw [Check.visit, if_neg hsize, if_neg hslots]
    cases hblocks : g.fileBlocks b i with
    | error e => simp [hblocks] at h
    | ok blocks =>
      simp only [hblocks] at h ⊢
      split at h
      · cases h
      · next c' counted hclaims =>
        cases h
        obtain ⟨hall, rfl⟩ := claimAll_eq_ok hclaims
        rw [hall]
        rfl

theorem visit_eq (h : total t + c.left + 1 < sizeLimit) (block : Block) :
    visit g m c t b block = Check.visit g m c t b block := by
  unfold total at h
  cases block with
  | directory d =>
    rw [visit, Check.visit, sum?_of_lt (by omega)]
    simp only [claimEntries_eq]
    rfl
  | file i =>
    rw [visit, Check.visit, sum?_of_lt (by omega)]
    simp only [fileBlocks_eq]
    split
    · rfl
    split
    · rfl
    cases g.fileBlocks b i with
    | error e => rfl
    | ok blocks =>
      simp only [claimAll_eq (show t.dataBlocks + c.left < sizeLimit by omega)]
      cases c.claimAll m blocks <;> rfl

/-- A visit counts the block visited and the blocks of a file among those that it claims, and
hands on the others. -/
theorem total_visit {block : Block} {v : Visit} (hv : Check.visit g m c t b block = .ok v) :
    total v.tally + v.children.length + v.claims.left = total t + 1 + c.left := by
  unfold total
  cases block with
  | directory d =>
    rw [Check.visit] at hv
    split at hv
    · cases hv
    split at hv
    · cases hv
    · next hc =>
      cases hv
      have := Check.left_claimEntries hc
      simp only [Tally.countDirectory, List.length_reverse, List.length_map]
      omega
  | file i =>
    rw [Check.visit] at hv
    split at hv
    · cases hv
    split at hv
    · cases hv
    split at hv
    · cases hv
    split at hv
    · cases hv
    · next hc =>
      cases hv
      have := Claims.left_claimAll hc
      simp only [Tally.countFile, List.length_nil]
      omega

theorem visit_ne_defect (hg : 0 < g.blockSize) {block : Block} {fault : CheckFault}
    (hv : Check.visit g m c t b block = .error fault) : fault ≠ .filesystem .defect := by
  cases block with
  | directory d =>
    rw [Check.visit] at hv
    split at hv
    · cases hv
      simp
    split at hv
    · next hclaims =>
      cases hv
      exact claimEntries_ne_filesystem hclaims _
    · cases hv
  | file i =>
    rw [Check.visit] at hv
    split at hv
    · cases hv
      simp
    split at hv
    · cases hv
      simp
    obtain ⟨held, hblocks⟩ := exists_fileBlocks hg b i
    rw [hblocks] at hv
    by_cases hlen : held.length = g.blocksFor i.fileSize.toNat
    · rw [if_pos hlen] at hv
      dsimp only at hv
      split at hv
      · next hclaims =>
        cases hv
        exact claimAll_ne_filesystem hclaims _
      · cases hv
    · rw [if_neg hlen] at hv
      cases hv
      simp

end Visits

/-! ## The walk -/

def walk (g : Geometry) (m : Bitmap) (c : Claims) (t : Tally) (stack : List BlockNumber) :
    EStateM CheckFault Device (Claims × Tally) :=
  match stack with
  | [] => return (c, t)
  | b :: rest => do
    let block ← EStateM.adaptExcept .filesystem (readBlock b)
    match _h : visit g m c t b block with
    | .error fault => throw fault
    | .ok v => walk g m v.claims v.tally (v.children ++ rest)
termination_by c.left + stack.length
decreasing_by
  have := Check.left_visit (visit_eq_ok ‹_›)
  simp only [List.length_append, List.length_cons]
  omega

/-- The blocks among those numbered `ks` that are occupied without being claimed. -/
def leakedAmong (m : Bitmap) (c : Claims) : List Nat → Option (List BlockNumber)
  | [] => some []
  | k :: ks => do
    let b ← word? k
    let rest ← leakedAmong m c ks
    if m.isAllocated b then
      let mark ← c.marks[b.toNat]?
      if mark then return rest else return b :: rest
    else return rest

/-- The blocks behind the root, up to the number of blocks cut to a word. -/
def leaked? (m : Bitmap) (c : Claims) : Option (List BlockNumber) := do
  let stop ← word? m.size
  leakedAmong m c
    (List.range' (rootBlock.toNat + 1) (stop.toNat - (rootBlock.toNat + 1)))

def check (g : Geometry) : EStateM CheckFault Device CheckReport := do
  let m := (← get).store.bitmap
  match claim m (Claims.none m.size) rootBlock with
  | .error fault => throw fault
  | .ok c =>
    let (c, t) ← walk g m c .zero [rootBlock]
    match leaked? m c with
    | none => throw (.filesystem .defect)
    | some blocks => return ⟨t.directories, t.files, t.dataBlocks, blocks⟩

section Walk

variable {s u : Store} {g : Geometry}

theorem walk_cons (g : Geometry) (m : Bitmap) (c : Claims) (t : Tally) (b : BlockNumber)
    (rest : List BlockNumber) :
    walk g m c t (b :: rest) =
      EStateM.adaptExcept CheckFault.filesystem (readBlock b) >>= fun block =>
        match visit g m c t b block with
        | .error fault => throw fault
        | .ok v => walk g m v.claims v.tally (v.children ++ rest) := by
  rw [walk]
  congr 1
  funext block
  split
  · next hv => rw [hv]
  · next hv => rw [hv]

theorem follows_adaptExcept {α : Type} {x y : Action α} {P : α → Prop}
    (h : Follows (Shaped s) Error.defect x y P) :
    Follows (Shaped s) (CheckFault.filesystem .defect)
      (EStateM.adaptExcept CheckFault.filesystem x)
      (EStateM.adaptExcept CheckFault.filesystem y) P := by
  intro d hd
  obtain ⟨heq, hend⟩ := h d hd
  unfold EStateM.adaptExcept
  rw [heq]
  refine ⟨rfl, ?_⟩
  cases hy : y d with
  | ok a d' => exact hend.of_eq_ok hy
  | error e d' =>
    obtain ⟨hd', he⟩ := hend.of_eq_error hy
    exact ⟨hd', fun heq => he (CheckFault.filesystem.inj heq)⟩

/-- A walk visits no more blocks than there are. -/
theorem follows_walk (h : Holds s g) (u : Store) {c : Claims} {t : Tally}
    {stack : List BlockNumber} (hroom : total t + stack.length + c.left < sizeLimit) :
    Follows (Shaped s) (CheckFault.filesystem .defect) (walk g u.bitmap c t stack)
      (Check.walk g u.bitmap c t stack) (fun r => r.1.marks.size = c.marks.size) := by
  -- Along the recursion of both walks; `hroom` holds again by `total_visit`.
  induction hn : c.left + stack.length using Nat.strongRecOn generalizing c t stack with
  | ind n ih =>
    cases stack with
    | nil =>
      rw [walk, Check.walk]
      exact .pure rfl
    | cons b rest =>
      rw [walk_cons, Check.walk_cons]
      apply (follows_adaptExcept (follows_readBlock h b)).bind
      intro block _
      simp only [List.length_cons] at hroom hn
      rw [visit_eq (by omega)]
      cases hv : Check.visit g u.bitmap c t b block with
      | error fault => exact .throw (visit_ne_defect h.blockSize_pos hv)
      | ok v =>
        have htotal := total_visit hv
        have hleft := Check.left_visit hv
        obtain ⟨-, hclaims, -⟩ := (Check.visit_eq_ok_iff h.blockSize_pos).1 hv
        have hsize := (Claims.claimable_of_claimAll hclaims).2.size
        have hlength : (v.children ++ rest).length = v.children.length + rest.length :=
          List.length_append
        refine (ih _ ?_ ?_ rfl).imp fun r hr => hr.trans hsize
        · omega
        · omega

theorem leakedAmong_eq {m : Bitmap} {c : Claims} (hcount : m.size < 2 ^ 32)
    (hmarks : c.marks.size = m.size) {ks : List Nat} (hks : ∀ k ∈ ks, k < m.size) :
    leakedAmong m c ks =
      some ((ks.filter fun k => m.occupied k && !c.has k).map UInt32.ofNat) := by
  induction ks with
  | nil => rfl
  | cons k ks ih =>
    obtain ⟨hk, hks⟩ := List.forall_mem_cons.1 hks
    have hword : (UInt32.ofNat k).toNat = k := UInt32.toNat_ofNat_of_lt (Nat.lt_trans hk hcount)
    have hmark : c.marks[k]? = some _ := Array.getElem?_eq_getElem (hmarks ▸ hk)
    rw [leakedAmong, word?_of_lt (Nat.lt_trans hk hcount), ih hks, List.filter_cons]
    simp only [Option.bind_eq_bind, Option.bind_some, Bitmap.isAllocated, hword, Claims.has, hmark]
    cases m.occupied k with
    | false => rfl
    | true => cases c.marks[k] <;> rfl

theorem leaked?_eq {m : Bitmap} {c : Claims} (hcount : m.size < 2 ^ 32)
    (hmarks : c.marks.size = m.size) : leaked? m c = some (Check.leaked m c) := by
  have htwo := m.two_le_size
  have hroot : rootBlock.toNat = 1 := rfl
  have hword : (UInt32.ofNat m.size).toNat = m.size := UInt32.toNat_ofNat_of_lt hcount
  have hrange : List.range m.size = [0, 1] ++ List.range' 2 (m.size - 2) := by
    rw [List.range_eq_range', show [0, 1] = List.range' 0 2 from rfl, List.range'_append_1]
    congr 1
    omega
  have hbehind : ∀ k ∈ List.range' 2 (m.size - 2), 2 ≤ k ∧ k < m.size := by
    intro k hk
    have := List.mem_range'_1.1 hk
    omega
  unfold leaked? Check.leaked
  rw [word?_of_lt hcount]
  simp only [Option.bind_eq_bind, Option.bind_some, hword, hroot]
  rw [leakedAmong_eq hcount hmarks fun k hk => (hbehind k hk).2, hrange, List.filter_append]
  congr 2
  show _ = List.filter _ (List.range' 2 (m.size - 2))
  refine List.filter_congr fun k hk => ?_
  have hlt : 1 < k := (hbehind k hk).1
  simp [hlt]

/-- The check does what it does with numbers, without a step that has no value, and whatever the
blocks refer to. -/
theorem follows_check (h : Holds s g) :
    Follows (Shaped s) (CheckFault.filesystem .defect) (check g) (Check.run g)
      (fun _ => True) := by
  intro d hd
  have hcount : d.store.bitmap.size < 2 ^ 32 := (hd.wellFormed h.wellFormed).blockCount_lt
  obtain ⟨c, hclaim, hadds⟩ := Check.exists_claim_root d.store
  have hrun : check g d =
      (match claim d.store.bitmap (Claims.none d.store.bitmap.size) rootBlock with
      | .error fault => throw fault
      | .ok c => walk g d.store.bitmap c .zero [rootBlock] >>= fun r =>
        match leaked? d.store.bitmap r.1 with
        | none => throw (.filesystem .defect)
        | some blocks => pure ⟨r.2.directories, r.2.files, r.2.dataBlocks, blocks⟩
      : EStateM CheckFault Device CheckReport) d := rfl
  rw [hrun, Check.run_eq, claim_eq, hclaim]
  have hall : (Claims.none d.store.bitmap.size).marks.size = d.store.bitmap.size :=
    Array.size_replicate ..
  -- The root is on the stack and claimed, so the bound of the walk is the number of blocks.
  have hleft : c.left + 1 = d.store.bitmap.size := by
    rw [Claims.left_claim hclaim]
    exact Array.count_replicate_self ..
  have hroom : total .zero + [rootBlock].length + c.left < sizeLimit := by
    have hlimits := limits_eq
    have hzero : total .zero = 0 := rfl
    rw [hzero, List.length_singleton]
    omega
  refine ((follows_walk h d.store hroom).bind fun r hr => ?_) d hd
  rw [leaked?_eq hcount (hr.trans (hadds.size.trans hall))]
  exact .pure trivial

end Walk

end Machine
end BlockFS
