import Mathlib.Data.List.Count
import Mathlib.Tactic.Common
/-!
# Transition coding

Bits are sent as changes: each bit of the code is the one before it combined
with the next bit of data, by XOR or by XNOR. The two codes of the same data
change in complementary places, so one of them changes in at most half.
-/

namespace TransitionCode

/-- The code of the data `d`, by XOR or else by XNOR. -/
def chain (xor : Bool) (d : Nat → Bool) : Nat → Bool
  | 0 => d 0
  | i + 1 => if xor then chain xor d i ^^ d (i + 1) else !(chain xor d i ^^ d (i + 1))

/-- The data of the code `q`. -/
def unchain (xor : Bool) (q : Nat → Bool) : Nat → Bool
  | 0 => q 0
  | i + 1 => if xor then q (i + 1) ^^ q i else !(q (i + 1) ^^ q i)

/-- How often the bits 0 to `n` change. -/
def changes (q : Nat → Bool) (n : Nat) : Nat := (List.range n).countP fun i => q (i + 1) ^^ q i

/-- How many of the bits 1 to `n` are set. -/
def ones (d : Nat → Bool) (n : Nat) : Nat := (List.range n).countP fun i => d (i + 1)

variable {xor : Bool} {d q : Nat → Bool}

theorem unchain_chain (xor : Bool) (d : Nat → Bool) : unchain xor (chain xor d) = d := by
  funext i
  cases i with
  | zero => rfl
  | succ i =>
    simp only [unchain, chain]
    generalize chain xor d i = p
    cases xor <;> cases p <;> cases d (i + 1) <;> rfl

theorem unchain_congr (xor : Bool) {q q' : Nat → Bool} {i : Nat} (h : ∀ j ≤ i, q j = q' j) :
    unchain xor q i = unchain xor q' i := by
  cases i with
  | zero => exact h 0 (Nat.le_refl 0)
  | succ i => rw [unchain, unchain, h (i + 1) (Nat.le_refl _), h i (Nat.le_succ i)]

/-- Read by the other rule, every bit but the first comes out inverted. -/
theorem unchain_other (xor : Bool) (q : Nat → Bool) (i : Nat) : unchain (!xor) q (i + 1) = !unchain xor q (i + 1) := by
  cases xor <;> simp [unchain]

theorem ones_succ (d : Nat → Bool) (n : Nat) : ones d (n + 1) = ones d n + (d (n + 1)).toNat := by
  rw [ones, List.range_succ, List.countP_append, List.countP_singleton]
  cases d (n + 1) <;> rfl

theorem changes_succ (q : Nat → Bool) (n : Nat) : changes q (n + 1) = changes q n + (q (n + 1) ^^ q n).toNat := by
  rw [changes, List.range_succ, List.countP_append, List.countP_singleton]
  cases q (n + 1) ^^ q n <;> rfl

theorem changes_congr {q q' : Nat → Bool} {n : Nat} (h : ∀ i < n, (q (i + 1) ^^ q i) = (q' (i + 1) ^^ q' i)) :
    changes q n = changes q' n := by
  apply List.countP_congr
  intro i hi
  rw [h i (List.mem_range.1 hi)]

/-- The XOR code changes where the data is set. -/
theorem changes_xor (d : Nat → Bool) (n : Nat) : changes (chain true d) n = ones d n := by
  induction n with
  | zero => rfl
  | succ n ih =>
    have hbit : (chain true d (n + 1) ^^ chain true d n) = d (n + 1) := by
      rw [chain, if_pos rfl, Bool.xor_comm, ← Bool.xor_assoc, Bool.xor_self, Bool.false_xor]
    rw [changes_succ, ones_succ, ih, hbit]

/-- The XNOR code changes where it is not. -/
theorem changes_xnor (d : Nat → Bool) (n : Nat) : changes (chain false d) n + ones d n = n := by
  induction n with
  | zero => rfl
  | succ n ih =>
    have hbit : (chain false d (n + 1) ^^ chain false d n) = !d (n + 1) := by
      rw [chain, if_neg Bool.false_ne_true]
      generalize chain false d n = p
      cases p <;> cases d (n + 1) <;> rfl
    rw [changes_succ, ones_succ, hbit]
    cases d (n + 1) <;> simp <;> omega

/-- Whether XOR is the rule with few changes. -/
def prefersXor (d : Nat → Bool) (n : Nat) : Bool := decide (2 * ones d n ≤ n)

/-- The code of data by the rule that suits it changes in at most half of the places. -/
theorem changes_minimised (d : Nat → Bool) (n : Nat) : 2 * changes (chain (prefersXor d n) d) n ≤ n := by
  unfold prefersXor
  by_cases h : 2 * ones d n ≤ n
  · rw [decide_eq_true h, changes_xor]
    exact h
  · rw [decide_eq_false h]
    have hsum := changes_xnor d n
    omega

end TransitionCode
