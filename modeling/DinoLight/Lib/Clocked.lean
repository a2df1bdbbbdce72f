import Mathlib.Data.Nat.Notation
import Mathlib.Tactic.Common
/-!
# Clocked machines

A synchronous design is a step function: the registers before a clock edge and
the inputs sampled at that edge give the registers after it. A waveform gives
the inputs of every cycle. Statements about all waveforms go by induction on
the number of edges (`after_inv`); statements that something happens go by a
measure that every step lowers until it has (`reaches`).
-/

namespace Clocked

variable {σ ι α : Type}

/-- The registers after `n` clock edges from `s` under the waveform `w`. -/
def after (step : σ → ι → σ) (s : σ) (w : Nat → ι) : Nat → σ
  | 0 => s
  | n + 1 => step (after step s w n) (w n)

/-- States some waveform reaches from `s₀`. -/
def Reachable (step : σ → ι → σ) (s₀ s : σ) : Prop := ∃ w n, s = after step s₀ w n

variable {step : σ → ι → σ} {s : σ} {w : Nat → ι}

@[simp] theorem after_zero : after step s w 0 = s := rfl

theorem after_succ (n : Nat) : after step s w (n + 1) = step (after step s w n) (w n) := rfl

/-- What every step keeps holds after every run. -/
theorem after_inv {I : σ → Prop} (h0 : I s) (hs : ∀ s i, I s → I (step s i)) (n : Nat) :
    I (after step s w n) := by
  induction n with
  | zero => exact h0
  | succ n ih => exact hs _ _ ih

theorem Reachable.inv {s₀ : σ} {I : σ → Prop} (h : Reachable step s₀ s) (h0 : I s₀)
    (hs : ∀ s i, I s → I (step s i)) : I s := by
  obtain ⟨w, n, rfl⟩ := h
  exact after_inv h0 hs n

/-- `s` is a run under the waveform `w`, from whatever state it starts in. -/
def Follows (step : σ → ι → σ) (w : Nat → ι) (s : Nat → σ) : Prop := ∀ n, s (n + 1) = step (s n) (w n)

theorem after_follows : Follows step w (after step s w) := fun _ => rfl

theorem Follows.inv {r : Nat → σ} (hr : Follows step w r) {I : σ → Prop} (h0 : I (r 0))
    (hs : ∀ s i, I s → I (step s i)) (n : Nat) : I (r n) := by
  induction n with
  | zero => exact h0
  | succ n ih => rw [hr n]; exact hs _ _ ih

theorem Follows.eq_after {r : Nat → σ} (hr : Follows step w r) (n : Nat) : r n = after step (r 0) w n := by
  induction n with
  | zero => rfl
  | succ n ih => rw [hr n, ih, after_succ]

/-- What two runs under one waveform keep between them. -/
theorem Follows.related {r r' : Nat → σ} (hr : Follows step w r) (hr' : Follows step w r') {R : σ → σ → Prop}
    (hs : ∀ s s' i, R s s' → R (step s i) (step s' i)) {m n : Nat} (hmn : m ≤ n) (h : R (r m) (r' m)) :
    R (r n) (r' n) := by
  induction hmn with
  | refl => exact h
  | @step n _ ih => rw [hr n, hr' n]; exact hs _ _ _ ih

/-- Two runs from one state agree for as long as their agreement so far makes
their inputs the same. -/
theorem Follows.agree {w' : Nat → ι} {r r' : Nat → σ} (hr : Follows step w r) (hr' : Follows step w' r')
    (h0 : r 0 = r' 0) {e : Nat} (hw : ∀ n < e, (∀ t ≤ n, r t = r' t) → w n = w' n) : ∀ t ≤ e, r t = r' t := by
  intro t
  induction t using Nat.strongRecOn with
  | ind t ih =>
    intro ht
    cases t with
    | zero => exact h0
    | succ n =>
      have hbefore : ∀ u ≤ n, r u = r' u := fun u hu => ih u (Nat.lt_succ_of_le hu) (by omega)
      rw [hr n, hr' n, hbefore n (Nat.le_refl n), hw n ht hbefore]

/-- If every step from a state in `I` reaches `P` or stays in `I` with a lower
rank, a run that is in `I` reaches `P`, through states in `I`. -/
theorem Follows.reaches {r : Nat → σ} (hr : Follows step w r) {I P : σ → Prop} (rank : σ → Nat)
    (hs : ∀ s i, I s → P (step s i) ∨ I (step s i) ∧ rank (step s i) < rank s) {n : Nat} (h : I (r n)) :
    ∃ m, n < m ∧ P (r m) ∧ ∀ t, n ≤ t → t < m → I (r t) := by
  induction hk : rank (r n) using Nat.strongRecOn generalizing n with
  | ind k ih =>
    rcases hs (r n) (w n) h with hP | ⟨hI, hlt⟩ <;> rw [← hr n] at *
    · exact ⟨n + 1, by omega, hP, fun t h1 h2 => by rwa [show t = n by omega]⟩
    · obtain ⟨m, hm, hP, hin⟩ := ih _ (hk ▸ hlt) hI rfl
      refine ⟨m, by omega, hP, ?_⟩
      intro t h1 h2
      rcases Nat.eq_or_lt_of_le h1 with rfl | h1
      · exact h
      · exact hin t h1 h2

/-! ## What a run yields -/

/-- The outputs `f` gives in the cycles before `n`, in order. -/
def collect (f : Nat → List α) (n : Nat) : List α := (List.range n).flatMap f

@[simp] theorem collect_zero (f : Nat → List α) : collect f 0 = [] := rfl

theorem collect_succ (f : Nat → List α) (n : Nat) : collect f (n + 1) = collect f n ++ f n := by
  simp [collect, List.range_succ]

theorem collect_add (f : Nat → List α) (m n : Nat) :
    collect f (m + n) = collect f m ++ collect (fun t => f (m + t)) n := by
  induction n with
  | zero => simp
  | succ n ih => rw [← Nat.add_assoc, collect_succ, collect_succ, ih, List.append_assoc]

/-- The samples of `f` in the `n` cycles from `a` on. -/
def window (f : Nat → α) (a n : Nat) : List α := (List.range n).map fun k => f (a + k)

@[simp] theorem window_zero (f : Nat → α) (a : Nat) : window f a 0 = [] := rfl

theorem window_succ (f : Nat → α) (a n : Nat) : window f a (n + 1) = window f a n ++ [f (a + n)] := by
  simp [window, List.range_succ]

theorem window_add (f : Nat → α) (a m n : Nat) : window f a (m + n) = window f a m ++ window f (a + m) n := by
  induction n with
  | zero => simp
  | succ n ih => rw [← Nat.add_assoc, window_succ, window_succ, ih, List.append_assoc, Nat.add_assoc a]

theorem getElem_window (f : Nat → α) {a n k : Nat} (hk : k < (window f a n).length) :
    (window f a n)[k] = f (a + k) := by
  simp [window]

/-- A run folds the inputs of its cycles. -/
theorem Follows.foldl_window {r : Nat → σ} (hr : Follows step w r) (a n : Nat) :
    (window w a n).foldl step (r a) = r (a + n) := by
  induction n with
  | zero => rfl
  | succ n ih =>
    rw [window_succ, List.foldl_append, ih]
    exact (hr (a + n)).symm

end Clocked
