/-
Arithmetic on words of a machine.

The operations of a filesystem compute with lengths, positions and indices, which a machine
keeps in words of 64 bits.  Here each step of such a computation has a value only where the
machine arrives at the exact one: sums and products stay below `sizeLimit`, differences do not
go below zero, nothing is divided by zero, and a number is cut to 32 bits only if it fits.

A program written with such steps is compared with one that computes with numbers by `Follows`,
which is closed under sequencing.  It says as well that what the steps take for granted holds:
the error `bad`, with which a step ends that has no value, does not come up.
-/
import BlockFS.Proofs.Outcome
import Mathlib.Algebra.Group.Nat.Defs

namespace BlockFS
namespace Machine

def sum? (a b : Nat) : Option Nat := if a + b < sizeLimit then some (a + b) else none

def product? (a b : Nat) : Option Nat := if a * b < sizeLimit then some (a * b) else none

def difference? (a b : Nat) : Option Nat := if b ≤ a then some (a - b) else none

def quotient? (a b : Nat) : Option Nat := if b = 0 then none else some (a / b)

def remainder? (a b : Nat) : Option Nat := if b = 0 then none else some (a % b)

/-- The 32-bit word that holds `n`. -/
def word? (n : Nat) : Option UInt32 := if n < 2 ^ 32 then some (UInt32.ofNat n) else none

/-- Room for `n` bytes in one piece. -/
def capacity? (n : Nat) : Option Nat := if n < addressLimit then some n else none

/-- The number of blocks that `size` bytes fill or begin to fill. -/
def blocksFor? (blockSize size : Nat) : Option Nat := do
  let whole ← quotient? size blockSize
  let rest ← remainder? size blockSize
  if rest = 0 then some whole else sum? whole 1

section

variable {a b : Nat}

theorem sum?_of_lt (h : a + b < sizeLimit) : sum? a b = some (a + b) := if_pos h

theorem eq_of_sum? {c : Nat} (h : sum? a b = some c) : c = a + b := by
  unfold sum? at h
  split at h
  · cases h
    rfl
  · cases h

theorem product?_of_lt (h : a * b < sizeLimit) : product? a b = some (a * b) := if_pos h

theorem difference?_of_le (h : b ≤ a) : difference? a b = some (a - b) := if_pos h

theorem quotient?_of_pos (h : 0 < b) : quotient? a b = some (a / b) := if_neg (Nat.ne_of_gt h)

theorem remainder?_of_pos (h : 0 < b) : remainder? a b = some (a % b) := if_neg (Nat.ne_of_gt h)

theorem word?_of_lt (h : a < 2 ^ 32) : word? a = some (UInt32.ofNat a) := if_pos h

theorem capacity?_of_lt (h : a < addressLimit) : capacity? a = some a := if_pos h

end

theorem limits_eq :
    Geometry.inodeSizeLimit = 2 ^ 32 ∧ addressLimit = 2 ^ 63 ∧ sizeLimit = 2 ^ 64 := by
  decide

/-- Rounding up by the remainder is the same as rounding a greater number down, and unlike that
one it does not leave the words. -/
theorem blocksFor?_eq {size : Nat} (h : size < sizeLimit) (blockSize : Nat) :
    blocksFor? blockSize size = BlockFS.blocksFor? blockSize size := by
  by_cases hzero : blockSize = 0
  · subst hzero
    rfl
  have hpos : 0 < blockSize := Nat.pos_of_ne_zero hzero
  rw [blocksFor?_of_pos hpos]
  show (quotient? size blockSize).bind (fun whole => (remainder? size blockSize).bind fun rest =>
    if rest = 0 then some whole else sum? whole 1) = _
  rw [quotient?_of_pos hpos, remainder?_of_pos hpos]
  simp only [Option.bind_some]
  have hdiv := Nat.div_add_mod size blockSize
  have hmod := Nat.mod_lt size hpos
  by_cases hrest : size % blockSize = 0
  · have hup : (size + (blockSize - 1)) / blockSize = size / blockSize := by
      apply Nat.div_eq_of_lt_le
      · rw [Nat.mul_comm]
        omega
      · rw [Nat.succ_mul, Nat.mul_comm]
        omega
    rw [if_pos hrest, hup]
  · have hup : (size + (blockSize - 1)) / blockSize = size / blockSize + 1 := by
      apply Nat.div_eq_of_lt_le
      · rw [Nat.succ_mul, Nat.mul_comm]
        omega
      · rw [Nat.succ_mul, Nat.succ_mul, Nat.mul_comm]
        omega
    have hle : size / blockSize < size := by
      apply Nat.div_lt_self
      · omega
      · omega
    rw [if_neg hrest, sum?_of_lt (by omega), hup]

/-! ## Programs with such steps -/

variable {ε σ α β : Type}

/-- From every state with `I` the program `x` runs as `y` does, to a state with `I` again.
A value has `Q`, and an error is not `bad`. -/
def Follows (I : σ → Prop) (bad : ε) (x y : EStateM ε σ α) (Q : α → Prop) : Prop :=
  ∀ s, I s → x s = y s ∧ Ends (y s) (fun a t => I t ∧ Q a) (fun e t => I t ∧ e ≠ bad)

namespace Follows

variable {I : σ → Prop} {bad : ε} {x y : EStateM ε σ α} {P : α → Prop}

theorem of_ends (h : ∀ s, I s → Ends (y s) (fun a t => I t ∧ P a) (fun e t => I t ∧ e ≠ bad)) :
    Follows I bad y y P :=
  fun s hs => ⟨rfl, h s hs⟩

theorem pure {a : α} (h : P a) : Follows I bad (Pure.pure a) (Pure.pure a) P :=
  fun _ hs => ⟨rfl, hs, h⟩

theorem throw {e : ε} (h : e ≠ bad) :
    Follows I bad (MonadExcept.throw e) (MonadExcept.throw e) P :=
  fun _ hs => ⟨rfl, hs, h⟩

theorem imp {P' : α → Prop} (h : Follows I bad x y P) (hP : ∀ a, P a → P' a) :
    Follows I bad x y P' := by
  intro s hs
  obtain ⟨heq, hend⟩ := h s hs
  exact ⟨heq, hend.imp (fun a _ ha => ⟨ha.1, hP a ha.2⟩) fun _ _ he => he⟩

theorem bind {f k : α → EStateM ε σ β} {Q : β → Prop} (h : Follows I bad x y P)
    (hf : ∀ a, P a → Follows I bad (f a) (k a) Q) : Follows I bad (x >>= f) (y >>= k) Q := by
  intro s hs
  obtain ⟨heq, hend⟩ := h s hs
  rw [run_bind, run_bind, heq]
  cases hy : y s with
  | ok a t =>
    obtain ⟨ht, ha⟩ := hend.of_eq_ok hy
    exact hf a ha t ht
  | error e t => exact ⟨rfl, hend.of_eq_error hy⟩

/-- A step that `y` does not have. -/
theorem step {u : EStateM ε σ β} {b : β} {f : β → EStateM ε σ α}
    (hu : ∀ s, I s → u s = .ok b s) (h : Follows I bad (f b) y P) :
    Follows I bad (u >>= f) y P := by
  intro s hs
  rw [run_bind, hu s hs]
  exact h s hs

theorem ite {c : Prop} [Decidable c] {x' y' : EStateM ε σ α} (h : c → Follows I bad x y P)
    (h' : ¬ c → Follows I bad x' y' P) :
    Follows I bad (if c then x else x') (if c then y else y') P := by
  by_cases hc : c
  · rw [if_pos hc, if_pos hc]
    exact h hc
  · rw [if_neg hc, if_neg hc]
    exact h' hc

end Follows
end Machine
end BlockFS
