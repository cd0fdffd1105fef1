/-
The check finds the layout that a store holds.

A walk that succeeds has found layouts in the blocks that it started from, and has claimed
their other blocks (`ends_walk`).  It takes the entries of a directory from the last to the
first, and claims all of them before it looks at one, so claims are compared up to their
order.  `ends_run` puts the root on top.
-/
import BlockFS.Proofs.Check.Claims

namespace BlockFS
namespace Layout

/-! ## The parts of a layout -/

def isDirectory : Layout → Bool
  | file .. => false
  | directory .. => true

def dataBlocks : Layout → List BlockNumber
  | file _ bs _ => bs
  | directory .. => []

mutual

def nodes : Layout → List Layout
  | file b bs contents => [file b bs contents]
  | directory b es => directory b es :: nodesOf es

def nodesOf : List (String × Layout) → List Layout
  | [] => []
  | (_, t) :: es => t.nodes ++ nodesOf es

end

theorem nodesOf_eq_flatMap (es : List (String × Layout)) :
    nodesOf es = (es.map (·.2)).flatMap nodes := by
  induction es with
  | nil => rfl
  | cons e es ih => rw [List.map_cons, List.flatMap_cons, ← ih]; rfl

theorem flatMap_blocks_perm (ts : List Layout) :
    (ts.flatMap blocks).Perm (ts.map block ++ ts.flatMap otherBlocks) := by
  induction ts with
  | nil => exact List.Perm.refl _
  | cons t ts ih =>
    rw [List.flatMap_cons, List.flatMap_cons, List.map_cons, blocks_eq_cons]
    refine List.Perm.cons _ ?_
    exact (List.Perm.append_left _ ih).trans (List.perm_append_comm_assoc ..)

theorem exists_entriesOf {entries : List Entry} {ts : List Layout}
    (h : ts.map block = entries.map Entry.target) :
    ∃ es, entriesOf es = entries ∧ es.map (·.2) = ts := by
  induction entries generalizing ts with
  | nil => exact ⟨[], rfl, (List.map_eq_nil_iff.1 h).symm⟩
  | cons e entries ih =>
    cases ts with
    | nil => cases h
    | cons t ts =>
      rw [List.map_cons, List.map_cons] at h
      obtain ⟨hhead, htail⟩ := List.cons.inj h
      obtain ⟨es, rfl, rfl⟩ := ih htail
      refine ⟨(e.name, t) :: es, ?_, rfl⟩
      rw [entriesOf, List.map_cons, hhead]
      rfl

end Layout

namespace Check

/-- The count after some more nodes have been looked at. -/
def Tally.after (t : Tally) (nodes : List Layout) : Tally where
  directories := t.directories + nodes.countP (·.isDirectory)
  files := t.files + nodes.countP (! ·.isDirectory)
  dataBlocks := t.dataBlocks + (nodes.map (·.dataBlocks.length)).sum

theorem Tally.after_perm (t : Tally) {ns ns' : List Layout} (h : ns.Perm ns') :
    t.after ns = t.after ns' := by
  unfold after
  rw [h.countP_eq, h.countP_eq, (h.map _).sum_nat]

theorem Tally.after_directory (t : Tally) (b : BlockNumber) (es : List (String × Layout))
    (ns : List Layout) : t.countDirectory.after ns = t.after (.directory b es :: ns) := by
  simp [after, countDirectory, Layout.isDirectory, Layout.dataBlocks]
  omega

theorem Tally.after_file (t : Tally) (b : BlockNumber) (bs : List BlockNumber) (contents : Bytes)
    (ns : List Layout) :
    (t.countFile bs.length).after ns = t.after (.file b bs contents :: ns) := by
  simp [after, countFile, Layout.isDirectory, Layout.dataBlocks]
  omega

/-- From some blocks on, which have been claimed already, these layouts are found. -/
structure Finds (g : Geometry) (s : Store) (c c' : Claims) (t t' : Tally) (ts : List Layout) :
    Prop where
  stored : ∀ u ∈ ts, u.Stored g s
  claimable : Claims.Claimable s c (ts.flatMap Layout.otherBlocks)
  adds : Claims.Adds c c' (ts.flatMap Layout.otherBlocks)
  tally : t' = t.after (ts.flatMap Layout.nodes)

section Step

variable {g : Geometry} {s : Store} {c c' : Claims} {t t' : Tally} {b : BlockNumber}

theorem perm_otherBlocks {us vs : List Layout} {es : List (String × Layout)}
    (hes : es.map (·.2) = us.reverse) :
    ((es.map fun e => e.2.block) ++ (us ++ vs).flatMap Layout.otherBlocks).Perm
      ((Layout.directory b es :: vs).flatMap Layout.otherBlocks) := by
  have hblocks : Layout.blocksOf es = us.reverse.flatMap Layout.blocks := by
    rw [Layout.blocksOf_eq_flatMap, ← hes, List.flatMap_map]
  have hmap : (es.map fun e => e.2.block) = us.reverse.map Layout.block := by
    rw [← hes, List.map_map]
    rfl
  show List.Perm _ (Layout.blocksOf es ++ vs.flatMap Layout.otherBlocks)
  rw [List.flatMap_append, ← List.append_assoc, hblocks, hmap]
  refine List.Perm.append_right _ (List.Perm.trans ?_ (Layout.flatMap_blocks_perm _).symm)
  exact List.Perm.append_left _ ((List.reverse_perm us).symm.flatMap_right _)

theorem perm_nodes {us vs : List Layout} {es : List (String × Layout)}
    (hes : es.map (·.2) = us.reverse) :
    (Layout.directory b es :: (us ++ vs).flatMap Layout.nodes).Perm
      ((Layout.directory b es :: vs).flatMap Layout.nodes) := by
  show List.Perm _ (Layout.directory b es :: (Layout.nodesOf es ++ vs.flatMap Layout.nodes))
  rw [List.flatMap_append, Layout.nodesOf_eq_flatMap, hes]
  exact (List.Perm.append_right _ ((List.reverse_perm us).symm.flatMap_right _)).cons _

theorem exists_visit {block : Block} (hg : 0 < g.blockSize) (hsize : c.marks.size = s.blockCount)
    (hblock : g.Admits block) (h : Claims.Claimable s c (g.references block)) :
    ∃ v, visit g s.bitmap c t b block = .ok v := by
  obtain ⟨c₁, hclaims⟩ := Claims.exists_claimAll hsize h
  cases block with
  | directory dir =>
    exact ⟨⟨c₁, t.countDirectory, (dir.entries.map Entry.target).reverse⟩,
      (visit_eq_ok_iff hg).2 ⟨hblock, hclaims, rfl, rfl⟩⟩
  | file i =>
    exact ⟨⟨c₁, t.countFile (g.references (.file i)).length, []⟩,
      (visit_eq_ok_iff hg).2 ⟨hblock, hclaims, rfl, rfl⟩⟩

theorem inUse_children {block : Block} {v : Visit} (hg : 0 < g.blockSize)
    (hv : visit g s.bitmap c t b block = .ok v) : ∀ a ∈ v.children, s.InUse a := by
  obtain ⟨-, hclaims, hkind⟩ := (visit_eq_ok_iff hg).1 hv
  obtain ⟨⟨-, hall⟩, -⟩ := Claims.claimable_of_claimAll hclaims
  intro a ha
  cases block with
  | directory d =>
    rw [hkind.2] at ha
    exact (hall a (List.mem_reverse.1 ha)).1
  | file i =>
    rw [hkind.2] at ha
    exact absurd ha List.not_mem_nil

/-- From what the children of a block lead to, what the block leads to. -/
theorem finds_of_visit {block : Block} {v : Visit} {us vs : List Layout} (hg : 0 < g.blockSize)
    (hblock : s.metadata? b = some block) (hv : visit g s.bitmap c t b block = .ok v)
    (hus : us.map Layout.block = v.children) (h : Finds g s v.claims c' v.tally t' (us ++ vs)) :
    ∃ u, u.block = b ∧ Finds g s c c' t t' (u :: vs) := by
  obtain ⟨hadmits, hclaims, hkind⟩ := (visit_eq_ok_iff hg).1 hv
  obtain ⟨hclaimable, hadds⟩ := Claims.claimable_of_claimAll hclaims
  have hboth := (Claims.claimable_append_iff hadds).2 ⟨hclaimable, h.claimable⟩
  have hall := hadds.trans h.adds
  cases block with
  | directory d =>
    obtain ⟨htally, hchildren⟩ := hkind
    have htargets : us.reverse.map Layout.block = d.entries.map Entry.target := by
      rw [List.map_reverse, hus, hchildren, List.reverse_reverse]
    obtain ⟨es, hentries, hes⟩ := Layout.exists_entriesOf htargets
    have hrefs : g.references (.directory d) = es.map fun e => e.2.block := by
      rw [Geometry.references, ← hentries, Layout.map_target_entriesOf]
    rw [hrefs] at hboth hall
    obtain rfl : d = ⟨Layout.entriesOf es⟩ := by rw [hentries]
    refine ⟨.directory b es, rfl, ?_, hboth.perm (perm_otherBlocks hes),
      hall.perm (perm_otherBlocks hes), ?_⟩
    · refine List.forall_mem_cons.2 ⟨.directory hblock hadmits fun e he => ?_,
        fun u hu => h.stored u (List.mem_append_right _ hu)⟩
      have hmem : e.2 ∈ us.reverse := hes ▸ List.mem_map_of_mem he
      exact h.stored _ (List.mem_append_left _ (List.mem_reverse.1 hmem))
    · rw [h.tally, htally, Tally.after_directory t b es, t.after_perm (perm_nodes hes)]
  | file i =>
    obtain ⟨htally, hchildren⟩ := hkind
    obtain rfl : us = [] := List.map_eq_nil_iff.1 (hus.trans hchildren)
    refine ⟨.file b (g.references (.file i))
      ((s.gather g.blockSize (g.references (.file i))).take i.fileSize.toNat), rfl, ?_, hboth, hall,
      ?_⟩
    · exact List.forall_mem_cons.2 ⟨.file hblock hadmits rfl rfl, h.stored⟩
    · rw [h.tally, htally]
      exact Tally.after_file ..

end Step

/-! ## The walk -/

theorem ends_adaptExcept {ε ε' σ α : Type} {f : ε → ε'} {x : EStateM ε σ α} {s : σ}
    {Q : α → σ → Prop} {E : ε' → σ → Prop} (h : Ends (x s) Q fun e s' => E (f e) s') :
    Ends (EStateM.adaptExcept f x s) Q E := by
  unfold EStateM.adaptExcept
  cases hx : x s with
  | ok a s' => exact h.of_eq_ok hx
  | error e s' => exact h.of_eq_error hx

section Walk

variable {g : Geometry} {s : Store} {d : Device} {c : Claims} {t : Tally}

theorem ends_read (hs : s.WellFormed) (hd : d.store = s) {b : BlockNumber} (hb : s.InUse b) :
    Ends (EStateM.adaptExcept CheckFault.filesystem (Device.readBlock b) d)
      (fun block d' => s.metadata? b = some block ∧ d.Untouched d')
      (fun fault _ => s.metadata? b = none ∨
        ∃ e, fault = .filesystem e ∧ d.Interrupts .read e) := by
  subst hd
  refine ends_adaptExcept ((Device.ends_readBlock hs hb).imp (fun _ _ h => h) ?_)
  intro e d' herr
  obtain ⟨he | hnone, -⟩ := herr
  · exact .inr ⟨e, rfl, he⟩
  · exact .inl hnone

theorem walk_cons (g : Geometry) (m : Bitmap) (c : Claims) (t : Tally) (b : BlockNumber)
    (rest : List BlockNumber) :
    walk g m c t (b :: rest) =
      EStateM.adaptExcept CheckFault.filesystem (Device.readBlock b) >>= fun block =>
        match visit g m c t b block with
        | .error fault => throw fault
        | .ok v => walk g m v.claims v.tally (v.children ++ rest) := by
  rw [walk]
  congr 1
  funext block
  split
  · next hv => rw [hv]
  · next hv => rw [hv]

/-- Nothing is written by a walk. -/
theorem store_of_walk (g : Geometry) (m : Bitmap) (c : Claims) (t : Tally)
    (stack : List BlockNumber) (d : Device) :
    Ends (walk g m c t stack d) (fun _ d' => d'.store = d.store)
      (fun _ d' => d'.store = d.store) := by
  induction hn : c.left + stack.length using Nat.strongRecOn generalizing c t stack d with
  | ind n ih =>
    cases stack with
    | nil =>
      rw [walk]
      rfl
    | cons b rest =>
      rw [walk_cons]
      refine (ends_adaptExcept (Device.store_of_readBlock b d)).bind (fun _ _ h => h) ?_
      intro block d₁ hd₁
      cases hv : visit g m c t b block with
      | error fault => exact hd₁
      | ok v =>
        have hmeasure := left_visit hv
        simp only [List.length_cons] at hn
        rw [← hd₁]
        exact ih _ (by simp only [List.length_append]; omega) _ _ _ _ rfl

/-- What a walk has found when it ends. -/
theorem ends_walk (hg : 0 < g.blockSize) (hs : s.WellFormed) (hd : d.store = s)
    {stack : List BlockNumber} (hstack : ∀ b ∈ stack, s.InUse b) :
    Ends (walk g s.bitmap c t stack d)
      (fun r d' => d.Untouched d' ∧ ∃ ts, ts.map Layout.block = stack ∧ Finds g s c r.1 t r.2 ts)
      (fun _ _ => True) := by
  induction hn : c.left + stack.length using Nat.strongRecOn generalizing c t stack d with
  | ind n ih =>
    cases stack with
    | nil =>
      rw [walk]
      exact ⟨.refl d, [], rfl, by simp, ⟨List.nodup_nil, by simp⟩, .refl c, rfl⟩
    | cons b rest =>
      rw [walk_cons]
      have hb : s.InUse b := hstack b List.mem_cons_self
      refine (ends_read hs hd hb).bind (fun _ _ _ => trivial) ?_
      intro block d₁ hres
      obtain ⟨hblock, hd₁⟩ := hres
      cases hv : visit g s.bitmap c t b block with
      | error fault => trivial
      | ok v =>
        have hmeasure := left_visit hv
        have hchildren := inUse_children hg hv
        simp only [List.length_cons] at hn
        have hnext : ∀ a ∈ v.children ++ rest, s.InUse a := by
          intro a ha
          rcases List.mem_append.1 ha with ha | ha
          · exact hchildren a ha
          · exact hstack a (List.mem_cons_of_mem b ha)
        refine (ih _ (by simp only [List.length_append]; omega) (hd₁.store.trans hd) hnext rfl).imp
          ?_ (fun _ _ _ => trivial)
        intro r d' hres
        obtain ⟨hd', ts, hts, hfinds⟩ := hres
        obtain ⟨us, vs, rfl, hus, rfl⟩ := List.map_eq_append_iff.1 hts
        obtain ⟨u, rfl, hu⟩ := finds_of_visit hg hblock hv hus hfinds
        exact ⟨hd₁.trans hd', u :: vs, rfl, hu⟩

end Walk
end Check

/-! ## The report -/

def Layout.report (s : Store) (l : Layout) : CheckReport where
  directories := l.nodes.countP (·.isDirectory)
  files := l.nodes.countP (! ·.isDirectory)
  dataBlocks := (l.nodes.map (·.dataBlocks.length)).sum
  leaked := s.leaks l.blocks

namespace Check

variable {g : Geometry} {s : Store} {d : Device}

theorem Claims.has_none (n k : Nat) : (none n).has k = false := by
  unfold has none
  rw [Array.getElem?_replicate]
  split <;> rfl

/-- What the check calls leaked if it has claimed some blocks, the root among them. -/
theorem leaked_eq (hs : s.WellFormed) {c : Claims} {bs : List BlockNumber}
    (hroot : rootBlock ∈ bs) (hc : Claims.Adds (.none s.bitmap.size) c bs) :
    leaked s.bitmap c = s.leaks bs := by
  unfold leaked Store.leaks
  rw [List.filter_map]
  congr 1
  refine List.filter_congr fun k hk => ?_
  have hto : (UInt32.ofNat k).toNat = k := hs.ofNat_toNat (List.mem_range.1 hk)
  have hhas : c.has k = false ↔ UInt32.ofNat k ∉ bs := by
    have h := hc.has_eq_false_iff (UInt32.ofNat k)
    rw [hto] at h
    rw [h]
    simp [Claims.has_none]
  have hone : rootBlock.toNat = 1 := rfl
  rw [Bool.eq_iff_iff]
  simp only [Bool.and_eq_true, decide_eq_true_eq, Bool.not_eq_true', hhas, Function.comp,
    Store.InUse, Store.isAllocated, Bitmap.isAllocated, hto, hone]
  constructor
  · intro h
    obtain ⟨⟨hlt, hocc⟩, hmem⟩ := h
    refine ⟨⟨fun h => ?_, hocc⟩, hmem⟩
    rw [h] at hto
    have : (0 : Nat) = k := hto
    omega
  · intro h
    obtain ⟨⟨hne, hocc⟩, hmem⟩ := h
    refine ⟨⟨?_, hocc⟩, hmem⟩
    have h0 : k ≠ 0 := by
      intro heq
      subst heq
      exact hne rfl
    have h1 : k ≠ 1 := by
      intro heq
      subst heq
      exact hmem hroot
    omega

theorem exists_claim_root (s : Store) :
    ∃ c, (Claims.none s.bitmap.size).claim s.bitmap rootBlock = .ok c ∧
      Claims.Adds (.none s.bitmap.size) c [rootBlock] :=
  Claims.claim_of_claimable (Array.size_replicate ..) s.inUse_rootBlock (Claims.has_none ..)

theorem run_eq (g : Geometry) (d : Device) :
    run g d =
      (match (Claims.none d.store.bitmap.size).claim d.store.bitmap rootBlock with
      | .error fault => throw fault
      | .ok c => walk g d.store.bitmap c .zero [rootBlock] >>= fun r =>
        pure ⟨r.2.directories, r.2.files, r.2.dataBlocks, leaked d.store.bitmap r.1⟩
      : EStateM CheckFault Device CheckReport) d := rfl

theorem store_of_run (g : Geometry) (d : Device) :
    Ends (run g d) (fun _ d' => d'.store = d.store) (fun _ d' => d'.store = d.store) := by
  rw [run_eq]
  cases (Claims.none d.store.bitmap.size).claim d.store.bitmap rootBlock with
  | error fault => rfl
  | ok c => exact (store_of_walk g _ c .zero [rootBlock] d).bind (fun _ _ h => h) fun _ _ h => h

/-- A check that ends well has found a sound layout, and reports on it. -/
theorem ends_run (hg : 0 < g.blockSize) (hs : d.store.WellFormed) :
    Ends (run g d)
      (fun r d' => d.Untouched d' ∧ ∃ l : Layout, l.Sound g d.store ∧ r = l.report d.store)
      (fun _ _ => True) := by
  obtain ⟨c, hclaim, hadds⟩ := exists_claim_root d.store
  rw [run_eq, hclaim]
  have hstack : ∀ b ∈ [rootBlock], d.store.InUse b := by
    intro b hb
    rw [List.mem_singleton.1 hb]
    exact d.store.inUse_rootBlock
  refine (ends_walk hg hs rfl hstack).bind (fun _ _ _ => trivial) ?_
  rintro ⟨c', t⟩ d' ⟨hd, ts, hts, hfinds⟩
  obtain ⟨l, rfl, hroot⟩ := List.map_eq_singleton_iff.1 hts
  have hrest : [l].flatMap Layout.otherBlocks = l.otherBlocks := List.flatMap_singleton ..
  have hblocks : [rootBlock] ++ l.otherBlocks = l.blocks := by
    rw [Layout.blocks_eq_cons, hroot]
    rfl
  have hclaimable := hrest ▸ hfinds.claimable
  have hall := (Claims.claimable_append_iff hadds).2 ⟨⟨List.nodup_singleton _, fun b hb =>
    ⟨hstack b hb, Claims.has_none ..⟩⟩, hclaimable⟩
  have hclaims := hadds.trans (hrest ▸ hfinds.adds)
  rw [hblocks] at hall hclaims
  refine ⟨hd, l, ⟨hroot, hfinds.stored l List.mem_cons_self, hall.1, fun b hb => (hall.2 b hb).1⟩,
    ?_⟩
  have hleaked := leaked_eq hs (hroot ▸ l.block_mem_blocks) hclaims
  rw [hleaked, hfinds.tally]
  simp [Tally.after, Tally.zero, Layout.report]

end Check

/-! ## Checks of a session -/

namespace Session

theorem check_eq (u : Session) :
    u.check =
      match Check.run u.place.geometry u.device with
      | .ok r d => (.ok r, ⟨d, u.place⟩)
      | .error fault d => (.error fault, ⟨d, u.place⟩) := rfl

variable {u : Session}

theorem check_eq_ok_iff {r : CheckReport} :
    u.check.1 = .ok r ↔ ∃ d, Check.run u.place.geometry u.device = .ok r d := by
  rw [check_eq]
  cases Check.run u.place.geometry u.device with
  | ok r' d => simp
  | error fault d => simp

theorem check_eq_error_iff {fault : CheckFault} :
    u.check.1 = .error fault ↔ ∃ d, Check.run u.place.geometry u.device = .error fault d := by
  rw [check_eq]
  cases Check.run u.place.geometry u.device with
  | ok r d => simp
  | error fault' d => simp

end Session
end BlockFS
