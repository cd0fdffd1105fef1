/-
Writing into a byte array at a position.

`peek` is the view: the bytes of the array, with zeros behind its end.  `size_patch`
and `peek_patch` say all there is to know about the result of a write.
-/
import BlockFS.Bytes

namespace BlockFS
namespace Bytes

/-- The byte of `a` at position `i`, which is zero from the end on. -/
def peek (a : ByteArray) (i : Nat) : UInt8 := if h : i < a.size then a[i] else 0

/-- Appends `count` zeros. -/
def pushZeros : Nat → ByteArray → ByteArray
  | 0, a => a
  | count + 1, a => pushZeros count (a.push 0)

/-- Sets the byte at position `i`, or appends it if the array ends there. -/
def put (a : ByteArray) (i : Nat) (b : UInt8) : ByteArray :=
  if h : i < a.size then a.set i b h else a.push b

/-- Puts the bytes `bs` at position `i` and behind it. -/
def putAll : ByteArray → Nat → Bytes → ByteArray
  | a, _, [] => a
  | a, i, b :: bs => putAll (put a i b) (i + 1) bs

/-- Writes `bs` at position `pos`, with zeros in between if that is behind the end. -/
def patch (a : ByteArray) (pos : Nat) (bs : Bytes) : ByteArray :=
  putAll (pushZeros (pos - a.size) a) pos bs

theorem peek_of_size_le {a : ByteArray} {i : Nat} (h : a.size ≤ i) : peek a i = 0 :=
  dif_neg (by omega)

theorem size_set (a : ByteArray) (i : Nat) (b : UInt8) (h : i < a.size) :
    (a.set i b h).size = a.size := by
  simp only [ByteArray.size, ByteArray.set, Array.size_set]

theorem peek_push (a : ByteArray) (b : UInt8) (i : Nat) :
    peek (a.push b) i = if i = a.size then b else peek a i := by
  have hdata : (a.push b).data = a.data.push b := rfl
  unfold peek
  simp only [ByteArray.getElem_eq_getElem_data, hdata, ByteArray.size_push, Array.getElem_push]
  have hsize : a.data.size = a.size := rfl
  grind

theorem peek_set (a : ByteArray) (k : Nat) (b : UInt8) (h : k < a.size) (i : Nat) :
    peek (a.set k b h) i = if i = k then b else peek a i := by
  have hdata : (a.set k b h).data = a.data.set k b h := rfl
  unfold peek
  simp only [ByteArray.getElem_eq_getElem_data, hdata, size_set, Array.getElem_set]
  grind

theorem size_put {a : ByteArray} {i : Nat} (h : i ≤ a.size) (b : UInt8) :
    (put a i b).size = max a.size (i + 1) := by
  unfold put
  split
  · rw [size_set]; omega
  · rw [ByteArray.size_push]; omega

theorem peek_put {a : ByteArray} {k : Nat} (h : k ≤ a.size) (b : UInt8) (i : Nat) :
    peek (put a k b) i = if i = k then b else peek a i := by
  unfold put
  split
  · rw [peek_set]
  · rw [peek_push, show a.size = k by omega]

theorem size_pushZeros (count : Nat) (a : ByteArray) :
    (pushZeros count a).size = a.size + count := by
  induction count generalizing a with
  | zero => rfl
  | succ count ih => rw [pushZeros, ih, ByteArray.size_push]; omega

theorem peek_pushZeros (count : Nat) (a : ByteArray) (i : Nat) :
    peek (pushZeros count a) i = peek a i := by
  induction count generalizing a with
  | zero => rfl
  | succ count ih =>
    rw [pushZeros, ih, peek_push]
    split
    · next h => rw [h, peek_of_size_le (Nat.le_refl _)]
    · rfl

theorem size_putAll {a : ByteArray} {i : Nat} (bs : Bytes) (h : i ≤ a.size) :
    (putAll a i bs).size = max a.size (i + bs.length) := by
  induction bs generalizing a i with
  | nil => simp only [putAll, List.length_nil]; omega
  | cons b bs ih =>
    have hsize := size_put h b
    rw [putAll, ih (by omega), hsize, List.length_cons]
    omega

theorem peek_putAll {a : ByteArray} {k : Nat} (bs : Bytes) (h : k ≤ a.size) (i : Nat) :
    peek (putAll a k bs) i
      = if k ≤ i ∧ i < k + bs.length then bs.getD (i - k) 0 else peek a i := by
  induction bs generalizing a k with
  | nil =>
    rw [putAll, if_neg]
    simp only [List.length_nil]
    omega
  | cons b bs ih =>
    have hsize := size_put h b
    rw [putAll, ih (by omega), peek_put h, List.length_cons]
    by_cases hk : i = k
    · rw [if_neg (by omega), if_pos hk, if_pos (by omega), hk, Nat.sub_self, List.getD_cons_zero]
    · rw [if_neg hk]
      by_cases hlt : k + 1 ≤ i ∧ i < k + 1 + bs.length
      · have hsub : i - k = (i - (k + 1)) + 1 := by omega
        rw [if_pos hlt, if_pos (by omega), hsub, List.getD_cons_succ]
      · rw [if_neg hlt, if_neg (by omega)]

theorem size_patch (a : ByteArray) (pos : Nat) (bs : Bytes) :
    (patch a pos bs).size = max (max a.size pos) (pos + bs.length) := by
  rw [patch, size_putAll _ (by rw [size_pushZeros]; omega), size_pushZeros]
  omega

theorem peek_patch (a : ByteArray) (pos : Nat) (bs : Bytes) (i : Nat) :
    peek (patch a pos bs) i
      = if pos ≤ i ∧ i < pos + bs.length then bs.getD (i - pos) 0 else peek a i := by
  rw [patch, peek_putAll _ (by rw [size_pushZeros]; omega), peek_pushZeros]

end Bytes
end BlockFS
