import Mathlib.Tactic.Common
/-!
# Pulses on a wire

A sampled wire read as pulses: the lengths of its maximal runs of high
samples, in order. `scan` reads the samples one by one, so that a claim about
the pulses of a run follows the run cycle by cycle.
-/

namespace Pulses

/-- The pulses that have ended, and how long the wire has been high since. -/
structure Scan where
  done : List Nat
  high : Nat

def Scan.next (s : Scan) (level : Bool) : Scan :=
  if level then { s with high := s.high + 1 }
  else if s.high = 0 then s
  else ⟨s.done ++ [s.high], 0⟩

def scan (samples : List Bool) : Scan := samples.foldl Scan.next ⟨[], 0⟩

/-- The lengths of the maximal runs of high samples. -/
def pulses (samples : List Bool) : List Nat :=
  let s := scan samples
  if s.high = 0 then s.done else s.done ++ [s.high]

theorem scan_concat (samples : List Bool) (level : Bool) : scan (samples ++ [level]) = (scan samples).next level := by
  simp [scan]

/-- A low wire adds no pulse in front. -/
theorem pulses_low {low : List Bool} (h : ∀ b ∈ low, b = false) (samples : List Bool) :
    pulses (low ++ samples) = pulses samples := by
  induction low with
  | nil => rfl
  | cons b low ih =>
    obtain rfl := h b (by simp)
    exact ih fun b hb => h b (by simp [hb])

theorem pulses_of_scan {samples : List Bool} {done : List Nat} (h : scan samples = ⟨done, 0⟩) :
    pulses samples = done := by
  simp [pulses, h]

example : pulses [false, true, true, false, false, true, false] = [2, 1] := by decide

end Pulses
