/-
A store in memory and one in an image that only block 0 tells apart.

Two such stores mirror each other if they have as many blocks of the same length, the same of
them in use, and the same bytes in each but block 0.  Every call answers the same on both and
leaves stores that mirror each other (`Mirrors.call`); only what is said of block 0 depends on
the medium.
-/
import BlockFS.Proofs.Stores.Reopening

namespace BlockFS

namespace Store

structure Mirrors (m d : Store) : Prop where
  memory : m.medium = .memory
  wellFormed : m.WellFormed
  onDisk : d.OnDisk
  blockLen : d.blockLen = m.blockLen
  bitmap : d.bitmap = m.bitmap
  byteAt_eq : ∀ k, m.blockLen ≤ k → k < m.blockCount * m.blockLen →
    d.image.byteAt k = m.image.byteAt k

theorem read_noBlock (s : Store) : s.read noBlock = .error (.reserved s.medium) := rfl

namespace Mirrors

variable {m d m' d' : Store} {b : BlockNumber}

theorem blockCount (h : m.Mirrors d) : d.blockCount = m.blockCount :=
  congrArg Bitmap.size h.bitmap

theorem position_eq (h : m.Mirrors d) (hb : b ≠ noBlock) : d.position b = m.position b := by
  unfold position
  rw [if_neg hb, if_neg hb, h.blockCount, h.blockLen]

/-- The calls that leave the image of the one store alone leave it a mirror of the other. -/
theorem of_synced (h : m.Mirrors d) (hd : d.Synced d') : m.Mirrors d' where
  memory := h.memory
  wellFormed := h.wellFormed
  onDisk := hd.sameShape.onDisk h.onDisk
  blockLen := hd.blockLen.trans h.blockLen
  bitmap := hd.bitmap.trans h.bitmap
  byteAt_eq := by
    intro k hk hlt
    rw [hd.byteAt_ge k (h.blockLen ▸ hk), h.byteAt_eq k hk hlt]

theorem read (h : m.Mirrors d) (b : BlockNumber) :
    d.read b = m.read b ∨ b = noBlock ∧ m.read b = .error (.reserved .memory) ∧
      d.read b = .error (.reserved .disk) := by
  by_cases hb : b = noBlock
  · right
    subst hb
    rw [read_noBlock, read_noBlock, h.memory, h.onDisk.medium]
    exact ⟨rfl, rfl, rfl⟩
  left
  by_cases hlt : b.toNat < m.blockCount
  · rw [h.wellFormed.read_eq hb hlt, h.onDisk.read_eq hb (h.blockCount ▸ hlt), h.blockLen]
    have hend : b.toNat * m.blockLen + m.blockLen ≤ m.blockCount * m.blockLen := by
      rw [← Nat.succ_mul]
      exact Nat.mul_le_mul_right _ hlt
    have hfirst := m.first_le hb
    congr 1
    apply List.map_congr_left
    intro k hk
    have hk := List.mem_range.1 hk
    apply h.byteAt_eq <;> omega
  · unfold Store.read
    rw [h.position_eq hb]
    unfold position
    rw [if_neg hb, if_pos (Nat.le_of_not_lt hlt)]

theorem write (h : m.Mirrors d) (b : BlockNumber) (contents : Bytes) :
    (∃ m' d', m.write b contents = .ok m' ∧ d.write b contents = .ok d' ∧ m'.Mirrors d') ∨
      ∃ fault fault', m.write b contents = .error fault ∧ d.write b contents = .error fault' ∧
        (fault' = fault ∨
          b = noBlock ∧ fault = .reserved .memory ∧ fault' = .reserved .disk) := by
  have hmw := write_eq m b contents
  have hdw := write_eq d b contents
  by_cases hlen : contents.length = m.blockLen
  · have hdlen : contents.length = d.blockLen := hlen.trans h.blockLen.symm
    rw [if_neg (Decidable.not_not.2 hlen)] at hmw
    rw [if_neg (Decidable.not_not.2 hdlen)] at hdw
    by_cases hb : b = noBlock
    · right
      subst hb
      have hm : m.position noBlock = .error (.reserved .memory) := by rw [← h.memory]; rfl
      have hd : d.position noBlock = .error (.reserved .disk) := by rw [← h.onDisk.medium]; rfl
      rw [hm] at hmw
      rw [hd] at hdw
      exact ⟨_, _, hmw, hdw, .inr ⟨rfl, rfl, rfl⟩⟩
    rw [h.position_eq hb] at hdw
    cases hp : m.position b with
    | error fault =>
      rw [hp] at hmw hdw
      exact .inr ⟨fault, fault, hmw, hdw, .inl rfl⟩
    | ok pos =>
      rw [hp] at hmw hdw
      refine .inl ⟨_, _, hmw, hdw, h.memory, ?_, ?_, h.blockLen, h.bitmap, ?_⟩
      · exact (h.wellFormed.sameShape_write hmw).wellFormed h.wellFormed
      · exact (h.onDisk.sameShape_write hdw).onDisk h.onDisk
      · intro k hk hlt
        show (d.image.write pos contents).byteAt k = (m.image.write pos contents).byteAt k
        rw [Image.byteAt_write, Image.byteAt_write, h.byteAt_eq k hk hlt]
  · rw [if_pos hlen] at hmw
    rw [h.blockLen, if_pos hlen] at hdw
    exact .inr ⟨_, _, hmw, hdw, .inl rfl⟩

/-- Both bitmaps change in the same way. -/
theorem of_bitmap (h : m.Mirrors d) {n : Bitmap} (hn : n.size = m.bitmap.size) :
    Mirrors ⟨m.medium, m.blockLen, n, m.image⟩ ⟨d.medium, d.blockLen, n, d.image⟩ where
  memory := h.memory
  wellFormed := h.wellFormed.bitmap hn
  onDisk := by
    have hshape : d.SameShape ⟨d.medium, d.blockLen, n, d.image⟩ :=
      ⟨rfl, rfl, hn.trans h.blockCount.symm, rfl⟩
    exact hshape.onDisk h.onDisk
  blockLen := h.blockLen
  bitmap := rfl
  byteAt_eq := by
    intro k hk hlt
    have hlt : k < n.size * m.blockLen := hlt
    rw [hn] at hlt
    exact h.byteAt_eq k hk hlt

theorem allocate (h : m.Mirrors d) :
    (m.allocate = none ∧ d.allocate = none) ∨
      ∃ b m' d', m.allocate = some (b, m') ∧ d.allocate = some (b, d') ∧ m'.Mirrors d' := by
  rw [allocate_eq, allocate_eq, h.bitmap]
  cases ha : m.bitmap.allocate with
  | none => exact .inl ⟨rfl, rfl⟩
  | some p =>
    obtain ⟨b, n⟩ := p
    obtain ⟨-, -, -, -, -, hsize, -⟩ := Bitmap.allocate_eq_some ha
    exact .inr ⟨b, _, _, rfl, rfl, h.of_bitmap hsize⟩

theorem release (h : m.Mirrors d) (b : BlockNumber) :
    (∃ fault, m.release b = .error fault ∧ d.release b = .error fault) ∨
      ∃ m' d', m.release b = .ok m' ∧ d.release b = .ok d' ∧ m'.Mirrors d' := by
  rw [release_eq, release_eq, h.bitmap]
  cases hr : m.bitmap.release b with
  | error fault => exact .inl ⟨_, rfl, rfl⟩
  | ok n =>
    obtain ⟨-, -, hsize, -⟩ := Bitmap.release_eq_ok hr
    exact .inr ⟨_, _, rfl, rfl, h.of_bitmap hsize⟩

end Mirrors

/-- Block 0 is read or written. -/
def Call.onReserved : Call → Bool
  | .read b => b = noBlock
  | .write b _ => b = noBlock
  | _ => false

/-- A call is answered in the same way, or it is for block 0 and fails on both. -/
theorem Mirrors.call {m d : Store} (h : m.Mirrors d) (c : Call) :
    ((d.call c).1 = (m.call c).1 ∨ c.onReserved = true ∧
      (m.call c).1 = .error (.store (.reserved .memory)) ∧
        (d.call c).1 = .error (.store (.reserved .disk))) ∧
      (m.call c).2.Mirrors (d.call c).2 := by
  unfold Store.call
  cases c with
  | read b =>
    dsimp only [attempt]
    rcases h.read b with heq | ⟨rfl, hm, hd⟩
    · rw [heq]
      cases m.read b <;> exact ⟨.inl rfl, h⟩
    · rw [hm, hd]
      exact ⟨.inr ⟨by decide, rfl, rfl⟩, h⟩
  | write b contents =>
    dsimp only [attempt]
    rcases h.write b contents with ⟨m', d', hm, hd, h'⟩ | ⟨fault, fault', hm, hd, hfault⟩
    · rw [hm, hd]
      exact ⟨.inl rfl, h'⟩
    · rw [hm, hd]
      rcases hfault with rfl | ⟨rfl, rfl, rfl⟩
      · exact ⟨.inl rfl, h⟩
      · exact ⟨.inr ⟨by simp [Call.onReserved], rfl, rfl⟩, h⟩
  | allocate =>
    dsimp only [attempt]
    rcases h.allocate with ⟨hm, hd⟩ | ⟨b, m', d', hm, hd, h'⟩
    · rw [hm, hd]
      exact ⟨.inl rfl, h⟩
    · rw [hm, hd]
      exact ⟨.inl rfl, h'⟩
  | release b =>
    dsimp only [attempt]
    rcases h.release b with ⟨fault, hm, hd⟩ | ⟨m', d', hm, hd, h'⟩
    · rw [hm, hd]
      exact ⟨.inl rfl, h⟩
    · rw [hm, hd]
      exact ⟨.inl rfl, h'⟩
  | isAllocated b =>
    have hd : d.isAllocated b = m.isAllocated b := congrArg (Bitmap.isAllocated · b) h.bitmap
    dsimp only [attempt]
    rw [hd]
    exact ⟨.inl rfl, h⟩
  | freeCount =>
    have hd : d.freeCount = m.freeCount := congrArg Bitmap.freeCount h.bitmap
    dsimp only [attempt]
    rw [hd]
    exact ⟨.inl rfl, h⟩
  | sync =>
    obtain ⟨d', hd, hsynced⟩ := h.onDisk.exists_sync
    dsimp only [attempt]
    rw [h.memory, h.onDisk.medium, hd]
    exact ⟨.inl rfl, h.of_synced hsynced⟩
  | reopen =>
    obtain ⟨d', hd, hsynced⟩ := h.onDisk.exists_reopen
    dsimp only [attempt]
    rw [reopen_of_memory h.memory, hd]
    exact ⟨.inl rfl, h.of_synced hsynced⟩

theorem Mirrors.callAll {m d : Store} (h : m.Mirrors d) (cs : List Call) :
    (m.callAll cs).2.Mirrors (d.callAll cs).2 := by
  induction cs generalizing m d with
  | nil => exact h
  | cons c cs ih => exact ih (h.call c).2

/-- New stores are all zeros, one of them behind its header. -/
theorem mirrors_of_new {m d : Store} {old : DiskFile} {blockLen blocks : Nat}
    (hlen : blockLen < 2 ^ 32) (hblocks : blocks < 2 ^ 32)
    (hm : inMemory blockLen blocks = .ok m) (hd : create old blockLen blocks = .ok d) :
    m.Mirrors d := by
  obtain ⟨n, hn, rfl⟩ := inMemory_eq_ok hm
  obtain ⟨n', hn', hdisk, hsynced⟩ := synced_of_create hlen hblocks hd
  rw [hn] at hn'
  cases hn'
  have hzeros : Mirrors ⟨.memory, blockLen, n, Image.zeros (blockLen * blocks)⟩
      ⟨.disk, blockLen, n, Image.zeros (blockLen * blocks)⟩ :=
    ⟨rfl, wellFormed_of_fresh hn hblocks, hdisk, rfl, rfl, fun _ _ _ => rfl⟩
  exact hzeros.of_synced hsynced

end Store
end BlockFS
