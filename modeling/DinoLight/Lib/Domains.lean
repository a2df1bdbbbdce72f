import DinoLight.Lib.Clocked
import Mathlib.Data.Nat.Nth
/-!
# Clock domains

The edges of several clocks come in some order. Registers that only one clock
moves make a run of their own, counted in edges of that clock, whatever the
others do in between.
-/

namespace Clocked

variable {σ ι : Type} {step : σ → ι → σ} {p : Nat → Prop} [DecidablePred p] {r : Nat → σ}

/-- A domain on the waveform `w`, one input for each of its edges. -/
theorem domain_run {w : Nat → ι} (hedge : ∀ n, p n → r (n + 1) = step (r n) (w (Nat.count p n)))
    (hkeep : ∀ n, ¬ p n → r (n + 1) = r n) (n : Nat) : r n = after step (r 0) w (Nat.count p n) := by
  induction n with
  | zero => rw [Nat.count_zero, after_zero]
  | succ n ih =>
    by_cases hn : p n
    · rw [Nat.count_succ_eq_succ_count hn, after_succ, ← ih]
      exact hedge n hn
    · rw [Nat.count_succ_eq_count hn, ← ih]
      exact hkeep n hn

/-- A domain whose inputs come from the others. -/
theorem domain_follows {k : Nat → ι} (hedge : ∀ n, p n → r (n + 1) = step (r n) (k n))
    (hkeep : ∀ n, ¬ p n → r (n + 1) = r n) (n : Nat) :
    r n = after step (r 0) (fun j => k (Nat.nth p j)) (Nat.count p n) := by
  apply domain_run _ hkeep
  intro n hn
  rw [Nat.nth_count hn]
  exact hedge n hn

/-- Edge `j` finds the domain after `j` edges. -/
theorem domain_at {k : Nat → ι} (hedge : ∀ n, p n → r (n + 1) = step (r n) (k n))
    (hkeep : ∀ n, ¬ p n → r (n + 1) = r n) (hp : (Set.ofPred p).Infinite) (j : Nat) :
    r (Nat.nth p j) = after step (r 0) (fun j => k (Nat.nth p j)) j := by
  rw [domain_follows hedge hkeep, Nat.count_nth_of_infinite hp]

/-- From one edge to the next. -/
theorem domain_succ (step : σ → ι → σ) (r : Nat → σ) (k : Nat → ι) (hedge : ∀ n, p n → r (n + 1) = step (r n) (k n))
    (hkeep : ∀ n, ¬ p n → r (n + 1) = r n) (hp : (Set.ofPred p).Infinite) (j : Nat) :
    r (Nat.nth p (j + 1)) = step (r (Nat.nth p j)) (k (Nat.nth p j)) := by
  rw [domain_at hedge hkeep hp, domain_at hedge hkeep hp, after_succ]

/-- What the edges of a domain count is counted on its own time. -/
theorem domain_count (q : Nat → Prop) [DecidablePred q] (n : Nat) :
    Nat.count (fun k => p k ∧ q (Nat.count p k)) n = Nat.count q (Nat.count p n) := by
  induction n with
  | zero => rw [Nat.count_zero, Nat.count_zero, Nat.count_zero]
  | succ n ih =>
    by_cases hn : p n
    · rw [Nat.count_succ_eq_succ_count hn, Nat.count_succ, Nat.count_succ, ih]
      simp only [hn, true_and]
    · rw [Nat.count_succ_eq_count hn, Nat.count_succ_eq_count fun h => hn h.1, ih]

end Clocked
