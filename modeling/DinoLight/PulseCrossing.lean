import DinoLight.ClockCrossing
import Mathlib.Data.Nat.Count
/-!
# Pulses across clocks

`cross_clock_pulse` turns a pulse into a change of level, which moves through
three registers of the other clock. `Flying` counts the pulses that are in and
not yet out: one for each pair of neighbouring registers that differ.
-/
open Clocked

namespace DinoLight.PulseCrossing
open ClockCrossing (Pulse)

/-- A rising edge of either clock. -/
inductive Event where
  | clk_in (pulse_in : Bool)
  | clk_out
  deriving DecidableEq

def step (s : Pulse) : Event → Pulse
  | .clk_in pulse_in => s.inProcess pulse_in
  | .clk_out => s.outProcess

def powerUp : Pulse := ⟨false, false, false, false⟩

/-! ## Counts -/

variable (e : Nat → Event)

/-- The edges of `clk_in` before event `n` that saw `pulse_in = '1'`. -/
def pulsesIn (n : Nat) : Nat := Nat.count (fun k => e k = .clk_in true) n

def outEdges (n : Nat) : Nat := Nat.count (fun k => e k = .clk_out) n

/-- The cycles of `clk_out`, each counted at the edge that begins it, with `pulse_out = '1'`. -/
def pulsesOut (n : Nat) : Nat :=
  Nat.count (fun k => e k = .clk_out ∧ (after step powerUp e (k + 1)).pulse_out = true) n

/-- The edges of `clk_out` that see `pulse_out = '1'`. -/
def pulsesSeen (n : Nat) : Nat := Nat.count (fun k => e k = .clk_out ∧ (after step powerUp e k).pulse_out = true) n

/-- An edge of `clk_out` lies between any two edges of `clk_in` that see a pulse. -/
def Apart : Prop :=
  ∀ m n, m < n → e m = .clk_in true → e n = .clk_in true → ∃ k, m < k ∧ k < n ∧ e k = .clk_out

/-- No pulse is invented or doubled, and none is lost: three edges of `clk_out`
after the last one all of them are out. -/
structure Exact : Prop where
  le : ∀ n, pulsesOut e n ≤ pulsesIn e n
  out : ∀ n, (∀ m < n, e m = .clk_in true → outEdges e (m + 1) + 3 ≤ outEdges e n) → pulsesOut e n = pulsesIn e n
  seen : ∀ n, (∀ m < n, e m = .clk_in true → outEdges e (m + 1) + 3 ≤ outEdges e n) → pulsesSeen e n = pulsesIn e n

/-- At most `d` edges of `clk_out` have followed some pulse. -/
def Recent (n d : Nat) : Prop := ∃ m < n, e m = .clk_in true ∧ outEdges e n ≤ outEdges e (m + 1) + d

variable {e}

theorem Recent.clk_in {n d : Nat} {p : Bool} (h : Recent e n d) (hn : e n = .clk_in p) : Recent e (n + 1) d := by
  obtain ⟨m, hm, hp, hle⟩ := h
  refine ⟨m, Nat.lt_succ_of_lt hm, hp, ?_⟩
  rwa [outEdges, Nat.count_succ_eq_count_iff.2 (by simp [hn])]

theorem Recent.clk_out {n d : Nat} (h : Recent e n d) (hn : e n = .clk_out) : Recent e (n + 1) (d + 1) := by
  obtain ⟨m, hm, hp, hle⟩ := h
  refine ⟨m, Nat.lt_succ_of_lt hm, hp, ?_⟩
  rw [outEdges, Nat.count_succ_eq_succ_count_iff.2 hn]
  exact Nat.succ_le_succ hle

theorem Recent.pulse {n : Nat} (hn : e n = .clk_in true) : Recent e (n + 1) 0 :=
  ⟨n, Nat.lt_succ_self n, hn, Nat.le_refl _⟩

theorem Recent.not_of_out {n d : Nat} (h : ∀ m < n, e m = .clk_in true → outEdges e (m + 1) + 3 ≤ outEdges e n)
    (hd : d < 3) : ¬ Recent e n d := by
  rintro ⟨m, hm, hp, hle⟩
  have := h m hm hp
  omega

/-! ## Pulses on their way -/

/-- The pulses in and not out stand between registers that differ, and came less
than three edges of `clk_out` ago. -/
structure Flying (e : Nat → Event) (n : Nat) (s : Pulse) : Prop where
  flying : pulsesIn e n = pulsesOut e n + (s.in_reg ^^ s.out_reg0).toNat + (s.out_reg0 ^^ s.out_reg1).toNat
  leaving : pulsesOut e n = pulsesSeen e n + (s.out_reg1 ^^ s.out_reg2).toNat
  first : s.in_reg ≠ s.out_reg0 → Recent e n 0
  second : s.out_reg0 ≠ s.out_reg1 → Recent e n 1
  third : s.out_reg1 ≠ s.out_reg2 → Recent e n 2

theorem flying_clk_in (ha : Apart e) {n : Nat} {p : Bool} (hn : e n = .clk_in p)
    (h : Flying e n (after step powerUp e n)) : Flying e (n + 1) (after step powerUp e (n + 1)) := by
  have hin : pulsesIn e (n + 1) = pulsesIn e n + p.toNat := by
    cases p <;> simp [pulsesIn, Nat.count_succ, hn]
  have hout : pulsesOut e (n + 1) = pulsesOut e n := Nat.count_succ_eq_count_iff.2 (by simp [hn])
  have hseen : pulsesSeen e (n + 1) = pulsesSeen e n := Nat.count_succ_eq_count_iff.2 (by simp [hn])
  rw [after_succ, hn]
  cases p
  · exact ⟨by rw [hin, hout]; exact h.flying, by rw [hout, hseen]; exact h.leaving, fun h' => (h.first h').clk_in hn,
      fun h' => (h.second h').clk_in hn, fun h' => (h.third h').clk_in hn⟩
  · -- the last pulse has left `in_reg`, or no edge of `clk_out` would lie between the two
    have hsame : (after step powerUp e n).in_reg = (after step powerUp e n).out_reg0 := by
      by_contra hne
      obtain ⟨m, hm, hp, hle⟩ := h.first hne
      obtain ⟨k, hmk, hkn, hk⟩ := ha m n hm hp hn
      have hstrict : outEdges e k < outEdges e n := Nat.count_strict_mono hk hkn
      have hmono : outEdges e (m + 1) ≤ outEdges e k := Nat.count_monotone _ hmk
      omega
    have hflying := h.flying
    refine ⟨?_, by rw [hout, hseen]; exact h.leaving, fun _ => .pulse hn, fun h' => (h.second h').clk_in hn,
      fun h' => (h.third h').clk_in hn⟩
    simp only [hsame, Bool.xor_self, Bool.toNat_false] at hflying
    simp only [step, Pulse.inProcess, hsame, hin, hout, if_true, Bool.not_xor_self, Bool.toNat_true]
    omega

theorem flying_clk_out {n : Nat} (hn : e n = .clk_out) (h : Flying e n (after step powerUp e n)) :
    Flying e (n + 1) (after step powerUp e (n + 1)) := by
  have hin : pulsesIn e (n + 1) = pulsesIn e n := Nat.count_succ_eq_count_iff.2 (by simp [hn])
  have hout : pulsesOut e (n + 1) =
      pulsesOut e n + ((after step powerUp e n).out_reg0 ^^ (after step powerUp e n).out_reg1).toNat := by
    rw [pulsesOut, Nat.count_succ, after_succ, hn]
    simp only [step, Pulse.outProcess, Pulse.pulse_out, true_and]
    cases (after step powerUp e n).out_reg0 <;> cases (after step powerUp e n).out_reg1 <;> rfl
  have hseen : pulsesSeen e (n + 1) =
      pulsesSeen e n + ((after step powerUp e n).out_reg1 ^^ (after step powerUp e n).out_reg2).toNat := by
    rw [pulsesSeen, Nat.count_succ, hn]
    simp only [Pulse.pulse_out, true_and]
    cases (after step powerUp e n).out_reg1 <;> cases (after step powerUp e n).out_reg2 <;> rfl
  have hflying := h.flying
  have hleaving := h.leaving
  rw [after_succ, hn]
  refine ⟨?_, ?_, fun h' => absurd rfl h', fun h' => (h.first h').clk_out hn, fun h' => (h.second h').clk_out hn⟩
  · simp only [step, Pulse.outProcess, Bool.xor_self, Bool.toNat_false]
    omega
  · simp only [step, Pulse.outProcess]
    omega

theorem flying_run (ha : Apart e) (n : Nat) : Flying e n (after step powerUp e n) := by
  induction n with
  | zero => exact ⟨rfl, rfl, fun h => absurd rfl h, fun h => absurd rfl h, fun h => absurd rfl h⟩
  | succ n ih =>
    cases hn : e n with
    | clk_in p => exact flying_clk_in ha hn ih
    | clk_out => exact flying_clk_out hn ih

/-- In every interleaving with an edge of `clk_out` between any two pulses, the
pulses out are the pulses in. -/
theorem pulses_exact (ha : Apart e) : Exact e := by
  have hrun := flying_run ha
  refine ⟨fun n => ?_, fun n hlate => ?_, fun n hlate => ?_⟩
  · have := (hrun n).flying
    omega
  all_goals
    have hflying := (hrun n).flying
    have h0 : (after step powerUp e n).in_reg = (after step powerUp e n).out_reg0 := by
      by_contra hne
      exact Recent.not_of_out hlate (by decide) ((hrun n).first hne)
    have h1 : (after step powerUp e n).out_reg0 = (after step powerUp e n).out_reg1 := by
      by_contra hne
      exact Recent.not_of_out hlate (by decide) ((hrun n).second hne)
    simp only [h0, h1, Bool.xor_self, Bool.toNat_false, Nat.add_zero] at hflying
  · exact hflying.symm
  · have h2 : (after step powerUp e n).out_reg1 = (after step powerUp e n).out_reg2 := by
      by_contra hne
      exact Recent.not_of_out hlate (by decide) ((hrun n).third hne)
    have hleaving := (hrun n).leaving
    simp only [h2, Bool.xor_self, Bool.toNat_false, Nat.add_zero] at hleaving
    rw [← hleaving, hflying]

/-- A pulse at every edge of `clk_in`, and one edge of `clk_out` after each. -/
def inTurns (k : Nat) : Event := if k % 2 = 0 then .clk_in true else .clk_out

theorem turns_exact : Exact inTurns := by
  apply pulses_exact
  intro m n hmn hm hn
  have heven (k : Nat) (hk : inTurns k = .clk_in true) : k % 2 = 0 := by
    by_contra hodd
    simp [inTurns, hodd] at hk
  have hm' := heven m hm
  have hn' := heven n hn
  refine ⟨m + 1, by omega, by omega, ?_⟩
  simp only [inTurns]
  rw [if_neg (by omega)]

end DinoLight.PulseCrossing
