import DinoLight.LedSwitch
/-!
# Refresh requests

`ledSwitch` passes a request of the selected source on to the LEDs in the next
cycle. Mode 0 has no source and clears `run_neopixel`; mode 3 has none either
but leaves `run_neopixel` alone, so a request that is being passed on when mode
3 begins stays until the mode changes.
-/
open Clocked

namespace DinoLight.Refresh

/-- What `run_neopixel` depends on. -/
structure Inputs where
  mode : BitVec 2
  vsync_50 : Bool
  custom_color_change : Bool

/-- `run_neopixel` after an edge. -/
def step (run_neopixel : Bool) (i : Inputs) : Bool :=
  if i.mode = 0 then false
  else if i.mode = 1 then i.vsync_50
  else if i.mode = 2 then i.custom_color_change
  else run_neopixel

theorem ledSwitch_run {num_blocks : Nat} (s : LedSwitch.Regs num_blocks) (i : LedSwitch.Inputs num_blocks) :
    (LedSwitch.ledSwitch s i).1 = step s.run_neopixel ⟨s.uart.mode, i.vsync_50, s.uart.custom_block_change⟩ := by
  unfold LedSwitch.ledSwitch step
  split
  · rfl
  · split
    · rfl
    · split <;> rfl

/-- The selected source asks for a refresh. -/
def request (i : Inputs) : Bool := i.mode = 1 ∧ i.vsync_50 = true ∨ i.mode = 2 ∧ i.custom_color_change = true

/-- `run_neopixel` from power-up. -/
def run (w : Nat → Inputs) : Nat → Bool := after step false w

theorem mode_cases (m : BitVec 2) : m = 0 ∨ m = 1 ∨ m = 2 ∨ m = 3 := by
  have := m.isLt
  bv_omega

/-- Outside mode 3 an edge samples the request. -/
theorem step_request {r : Bool} {i : Inputs} (h : i.mode ≠ 3) : step r i = request i := by
  unfold step request
  rcases mode_cases i.mode with hm | hm | hm | hm
  · simp [hm]
  · simp [hm]
  · simp [hm]
  · exact absurd hm h

theorem step_keep {r : Bool} {i : Inputs} (h : i.mode = 3) : step r i = r := by
  simp [step, h]

theorem no_request {i : Inputs} (h : i.mode = 3) : request i = false := by
  simp [request, h]

/-- Every refresh was requested in the cycle before, and there are no more
refreshes than requests. -/
structure Requested (w : Nat → Inputs) : Prop where
  source : ∀ n, run w (n + 1) = true → request (w n) = true
  count : ∀ n, (List.range (n + 1)).countP (run w) ≤ (List.range n).countP fun t => request (w t)

theorem countP_range_succ (p : Nat → Bool) (n : Nat) :
    (List.range (n + 1)).countP p = (List.range n).countP p + if p n then 1 else 0 := by
  rw [List.range_succ, List.countP_append, List.countP_singleton]

theorem count_le {w : Nat → Inputs} (h : ∀ n, run w (n + 1) = true → request (w n) = true) (n : Nat) :
    (List.range (n + 1)).countP (run w) ≤ (List.range n).countP fun t => request (w t) := by
  induction n with
  | zero => simp [run]
  | succ n ih =>
    rw [countP_range_succ, countP_range_succ (fun t => request (w t))]
    apply Nat.add_le_add ih
    split
    case isTrue hr => rw [if_pos (h n hr)]
    case isFalse => exact Nat.zero_le _

/-- Refreshes are requested exactly when no request is followed by mode 3. -/
theorem requested_iff (w : Nat → Inputs) :
    Requested w ↔ ∀ n, request (w n) = true → (w (n + 1)).mode ≠ 3 := by
  constructor
  · intro h n hreq hm
    have hmode : (w n).mode ≠ 3 := fun h => by simp [no_request h] at hreq
    have hrun : run w (n + 1) = true := (step_request hmode).trans hreq
    -- mode 3 keeps the pulse for another cycle
    have hkept : run w (n + 2) = true := (step_keep hm).trans hrun
    have := h.source (n + 1) hkept
    rw [no_request hm] at this
    cases this
  · intro h
    have hsource (n : Nat) : run w (n + 1) = true → request (w n) = true := by
      induction n with
      | zero =>
        intro hr
        rw [run, after_succ] at hr
        by_cases hm : (w 0).mode = 3
        · rw [step_keep hm] at hr
          cases hr
        · rwa [step_request hm] at hr
      | succ n ih =>
        intro hr
        by_cases hm : (w (n + 1)).mode = 3
        · -- the pulse of the cycle before would come from a request
          have hrun : run w (n + 1) = true := ((step_keep hm).symm.trans hr)
          exact absurd hm (h n (ih hrun))
        · exact (step_request hm).symm.trans hr
    exact ⟨hsource, count_le hsource⟩

/-- A vsync pulse in mode 1, and mode 3 from the next cycle on. -/
def leaveMode (n : Nat) : Inputs where
  mode := if n = 0 then 1 else 3
  vsync_50 := n = 0
  custom_color_change := false

theorem free_running : ¬ Requested leaveMode := by
  intro h
  exact absurd (h.source 1 rfl) (by decide)

end DinoLight.Refresh
