/-
Bitmaps that are written out and read in again.

Calls change the bits of the blocks that they hand out or free and no others (`Touches`), so the
bits behind the last flag stay what they were in the bytes that the bitmap was read from.  They
count again if the bytes are read as a bitmap of more blocks, and fewer flags if they are read as
one of fewer (`ofBytes_toBytes_callAll`).
-/
import BlockFS.Proofs.Bitmap.Calls

namespace BlockFS

theorem Bytes.bit_eq (bs : Bytes) (k : Nat) : bit bs k = (bits bs)[k]?.getD false := by
  rw [getElem?_bits]
  split
  · rfl
  · next hk =>
    unfold bit
    rw [List.getElem?_eq_none (by omega)]
    exact Nat.zero_testBit _

namespace Bitmap

variable {m n : Bitmap} {k : Nat} {c : Call} {cs : List Call}

/-! ## Bits that calls change -/

/-- The call hands block `k` out or frees it. -/
def Touches (m : Bitmap) (k : Nat) : Call → Prop
  | .allocate => IsLeast {j | j < m.size ∧ j ∉ m.blocks} k
  | .release b => b.toNat = k ∧ (m.call (.release b)).1 = .freed true

/-- One of the calls, made in turn, hands block `k` out or frees it. -/
def TouchesAny (m : Bitmap) (k : Nat) : List Call → Prop
  | [] => False
  | c :: cs => m.Touches k c ∨ (m.call c).2.TouchesAny k cs

theorem spare_call (m : Bitmap) (c : Call) : (m.call c).2.spare = m.spare := by
  cases c with
  | allocate =>
    rw [call_allocate]
    cases h : m.allocate with
    | none => rfl
    | some p => exact spare_of_allocate h
  | release b =>
    rw [call_release]
    cases h : m.release b with
    | error fault => rfl
    | ok n => exact spare_of_release h

theorem spare_callAll (m : Bitmap) (cs : List Call) : (m.callAll cs).2.spare = m.spare := by
  induction cs generalizing m with
  | nil => rfl
  | cons c cs ih => rw [callAll_cons, ih, spare_call]

theorem occupied_call (h : ¬ m.Touches k c) : (m.call c).2.occupied k = m.occupied k := by
  cases c with
  | allocate =>
    rw [call_allocate]
    cases hm : m.allocate with
    | none => rfl
    | some p =>
      obtain ⟨i, -, hlt, hfree, hleast, -, hocc⟩ := allocate_eq_some hm
      have hne : k ≠ i := by
        rintro rfl
        refine h ⟨⟨hlt, not_mem_blocks.2 hfree⟩, fun j hj => ?_⟩
        exact Nat.le_of_not_lt fun hji => hj.2 (mem_blocks.2 (hleast j hji))
      show p.2.occupied k = m.occupied k
      rw [hocc, decide_eq_false hne, Bool.false_or]
  | release b =>
    have h : ¬ (b.toNat = k ∧ (m.call (.release b)).1 = .freed true) := h
    rw [call_release] at h ⊢
    cases hm : m.release b with
    | error fault => rfl
    | ok n =>
      obtain ⟨-, -, -, hocc⟩ := release_eq_ok hm
      rw [hm] at h
      have hne : k ≠ b.toNat := fun heq => h ⟨heq.symm, rfl⟩
      show n.occupied k = m.occupied k
      rw [hocc, decide_eq_false hne, Bool.not_false, Bool.true_and]

theorem occupied_callAll (h : ¬ m.TouchesAny k cs) :
    (m.callAll cs).2.occupied k = m.occupied k := by
  induction cs generalizing m with
  | nil => rfl
  | cons c cs ih =>
    obtain ⟨hc, hcs⟩ := not_or.1 h
    rw [callAll_cons, ih hcs, occupied_call hc]

/-- The flags and the bits behind them are all that the bits of a bitmap are made of. -/
theorem bit_toBytes_congr (hsize : n.size = m.size) (hspare : n.spare = m.spare)
    (h : k < m.size → n.occupied k = m.occupied k) :
    Bytes.bit n.toBytes k = Bytes.bit m.toBytes k := by
  by_cases hk : k < m.size
  · rw [bit_toBytes hk, bit_toBytes (hsize.symm ▸ hk), h hk]
  · have hm : m.flags.toList.length ≤ k := Nat.le_of_not_lt hk
    have hn : n.flags.toList.length ≤ k := by
      have hle : n.size ≤ k := hsize.symm ▸ Nat.le_of_not_lt hk
      exact hle
    have hlen : n.flags.toList.length = m.flags.toList.length := hsize
    rw [Bytes.bit_eq, Bytes.bit_eq, bits_toBytes, bits_toBytes, List.getElem?_append_right hm,
      List.getElem?_append_right hn, hspare, hlen]

/-! ## Reading in again -/

variable {l : Nat}

theorem exists_ofBytes_toBytes_iff (m : Bitmap) :
    (∃ m', ofBytes m.toBytes l = .ok m') ↔ minBlocks ≤ l ∧ l ≤ 8 * ((m.size + 7) / 8) := by
  have hmin := m.two_le_size
  rw [exists_ofBytes_iff, length_toBytes, bit_toBytes (by omega), bit_toBytes hmin,
    occupied_zero, occupied_one]
  simp

theorem occupied_of_ofBytes_toBytes {m' : Bitmap} (h : ofBytes m.toBytes l = .ok m')
    (hk : k < min l m.size) : m'.occupied k = m.occupied k := by
  rw [occupied_of_ofBytes h, decide_eq_true (by omega), Bool.true_and, bit_toBytes (by omega)]

/-- Bytes make a bitmap of `n` blocks if they have so many bits and the reserved ones are set, and
as many of them as that takes are written again.  After any calls the bytes differ from those at
the start in the bits of blocks that were handed out or freed.  They make a bitmap of as many blocks
as they have bits, or of fewer, which agrees on the blocks that both have; with the same number of
blocks it is the same bitmap. -/
theorem ofBytes_toBytes_callAll :
    (∀ (bs : Bytes) (n : Nat),
      ((∃ m, ofBytes bs n = .ok m) ↔
        minBlocks ≤ n ∧ n ≤ 8 * bs.length ∧ Bytes.bit bs 0 = true ∧ Bytes.bit bs 1 = true) ∧
      ∀ m, ofBytes bs n = .ok m → m.toBytes = bs.take ((n + 7) / 8)) ∧
    ∀ (n : Nat) (start : Bitmap), Made n start → ∀ cs : List Call,
      let m := (start.callAll cs).2
      m.size = n ∧ m.toBytes.length = (n + 7) / 8 ∧
        (∀ k, Bytes.bit m.toBytes k ≠ Bytes.bit start.toBytes k → k < n ∧ start.TouchesAny k cs) ∧
        ∀ l, ((∃ m', ofBytes m.toBytes l = .ok m') ↔ minBlocks ≤ l ∧ l ≤ 8 * ((n + 7) / 8)) ∧
          ∀ m', ofBytes m.toBytes l = .ok m' →
            (∀ k < min l n, m'.occupied k = m.occupied k) ∧ (l = n → m' = m) := by
  refine ⟨fun bs n => ⟨exists_ofBytes_iff, fun m => toBytes_of_ofBytes⟩, ?_⟩
  intro n start hstart cs m
  obtain rfl := hstart.size
  have hsize : m.size = start.size := start.size_callAll cs
  rw [← hsize]
  refine ⟨rfl, m.length_toBytes, fun k hne => ?_, fun l => ⟨m.exists_ofBytes_toBytes_iff, ?_⟩⟩
  · have hspare : m.spare = start.spare := start.spare_callAll cs
    by_contra hnot
    refine hne (bit_toBytes_congr hsize hspare fun hk => occupied_callAll fun htouch => ?_)
    exact hnot ⟨hsize.symm ▸ hk, htouch⟩
  · intro m' h
    refine ⟨fun k => occupied_of_ofBytes_toBytes h, ?_⟩
    rintro rfl
    rw [ofBytes_toBytes] at h
    exact (Except.ok.inj h).symm

/-- A bitmap of two bytes with three spare bits is read in again as one of sixteen blocks. -/
theorem ofBytes_toBytes_callAll_longer : ∃ m m' : Bitmap, ofBytes [0x07, 0xE0] 13 = .ok m ∧
    (m.callAll [.allocate, .release 2]).2.toBytes = [0x0B, 0xE0] ∧
    ofBytes [0x0B, 0xE0] 16 = .ok m' ∧ m'.occupied 14 = true ∧
    (m.callAll [.allocate, .release 2]).2.occupied 14 = false ∧
    ∀ k < min 16 13, m'.occupied k = (m.callAll [.allocate, .release 2]).2.occupied k := by
  obtain ⟨m, hm, hbytes, hout⟩ : ∃ m, ofBytes [0x07, 0xE0] 13 = .ok m ∧
      (m.callAll [.allocate, .release 2]).2.toBytes = [0x0B, 0xE0] ∧
      (m.callAll [.allocate, .release 2]).2.occupied 14 = false :=
    ⟨_, rfl, by decide +kernel, by decide +kernel⟩
  obtain ⟨m', hm', hin⟩ : ∃ m', ofBytes [0x0B, 0xE0] 16 = .ok m' ∧ m'.occupied 14 = true :=
    ⟨_, rfl, by decide +kernel⟩
  have hreload := (ofBytes_toBytes_callAll.2 13 m (.inr ⟨_, hm⟩) [.allocate, .release 2]).2.2.2 16
  rw [hbytes] at hreload
  exact ⟨m, m', hm, hbytes, hm', hin, hout, (hreload.2 m' hm').1⟩

end Bitmap
end BlockFS
