import DinoLight.CommandRanges
/-!
# What a reset forgets

`bufferToRegister` says that a reset clears all registers, but it clears neither
`mode` nor `block_counts`. All else is as at power-up after a reset, so two
controllers that are reset together differ in these two registers at most.
-/
open Clocked

namespace DinoLight.ResetMemory
open UartRxController
open CommandRanges (Known)

variable {num_blocks : Nat}

/-- The output ports. -/
structure Outputs (num_blocks : Nat) where
  mode : BitVec 2
  mode_value_change : Bool
  custom_block_values : BitVec (num_blocks * 24)
  block_counts : BitVec (num_blocks * 8)
  custom_block_change : Bool

def outputs (s : Regs num_blocks) : Outputs num_blocks :=
  ⟨s.mode, s.mode_value_change, s.custom_block_values, s.block_counts, s.custom_block_change⟩

/-- A reset keeps the two registers and nothing else. -/
theorem reset_step (s : Regs num_blocks) {i : Inputs} (hr : i.reset_in = true) :
    step s i = { powerUp with state := .reset, mode := s.mode, block_counts := s.block_counts } := by
  have he := edge_step s i
  generalize step s i = s' at he ⊢
  cases he with
  | reset => rfl
  | _ => simp_all

/-! ## Two controllers -/

/-- Two controllers that differ in `mode` and `block_counts` at most. -/
structure Alike (s s' : Regs num_blocks) : Prop where
  state : s.state = s'.state
  command : s.currentCommand = s'.currentCommand
  index : s.currentIndex = s'.currentIndex
  buffer : s.write_value_shift_in = s'.write_value_shift_in
  mode_change : s.mode_value_change = s'.mode_value_change
  custom_values : s.custom_block_values = s'.custom_block_values
  custom_change : s.custom_block_change = s'.custom_block_change

theorem alike_reset (s s' : Regs num_blocks) {i i' : Inputs} (hr : i.reset_in = true) (hr' : i'.reset_in = true) :
    Alike (step s i) (step s' i') := by
  rw [reset_step s hr, reset_step s' hr']
  constructor <;> rfl

theorem alike_step (s s' : Regs num_blocks) (i : Inputs) (h : Alike s s') : Alike (step s i) (step s' i) := by
  have hnext : nextStateDecode s i = nextStateDecode s' i := by
    unfold nextStateDecode
    rw [h.state, h.command, h.index]
  have hbuffer : (bufferToRegister s (nextStateDecode s' i)).mode_value_change =
        (bufferToRegister s' (nextStateDecode s' i)).mode_value_change ∧
      (bufferToRegister s (nextStateDecode s' i)).custom_block_values =
        (bufferToRegister s' (nextStateDecode s' i)).custom_block_values ∧
      (bufferToRegister s (nextStateDecode s' i)).custom_block_change =
        (bufferToRegister s' (nextStateDecode s' i)).custom_block_change := by
    unfold bufferToRegister writeRegister
    simp only [h.command, h.buffer]
    split
    · exact ⟨rfl, rfl, rfl⟩
    · split
      · split <;> exact ⟨rfl, by simp [h.custom_values], rfl⟩
      · exact ⟨rfl, h.custom_values, rfl⟩
  constructor
  · exact hnext
  · simp only [step, setCommand, hnext, h.command]
  · simp only [step, indexCounter, hnext, h.index]
  · simp only [step, writeBuffer, hnext, h.buffer]
  · simpa only [step, hnext] using hbuffer.1
  · simpa only [step, hnext] using hbuffer.2.1
  · simpa only [step, hnext] using hbuffer.2.2

/-- After a reset two controllers with the same inputs give the same custom
colours and change pulses, whatever they did before. -/
theorem alike_after (s s' : Regs num_blocks) {i i' : Inputs} (hr : i.reset_in = true) (hr' : i'.reset_in = true)
    (w : Nat → Inputs) (n : Nat) : Alike (after step (step s i) w n) (after step (step s' i') w n) :=
  Follows.related (r := after step (step s i) w) after_follows after_follows alike_step (Nat.zero_le n)
    (alike_reset s s' hr hr')

/-- After a reset all outputs of two controllers are the same in every cycle
exactly if `mode` and `block_counts` were the same before. -/
theorem forgotten_iff (s s' : Regs num_blocks) {i i' : Inputs} (hr : i.reset_in = true) (hr' : i'.reset_in = true)
    (w : Nat → Inputs) : (∀ n, outputs (after step (step s i) w n) = outputs (after step (step s' i') w n)) ↔
      s.mode = s'.mode ∧ s.block_counts = s'.block_counts := by
  constructor
  · intro h
    have h0 := h 0
    rw [after_zero, after_zero, reset_step s hr, reset_step s' hr'] at h0
    exact ⟨congrArg Outputs.mode h0, congrArg Outputs.block_counts h0⟩
  · rintro ⟨hm, hc⟩ n
    rw [reset_step s hr, reset_step s' hr', hm, hc]

/-- A command byte, with nothing after it. -/
def loneCommand (n : Nat) : Inputs where
  reset_in := false
  data_in := 2
  data_valid := n = 0

/-- No strobes. -/
def silence (_n : Nat) : Inputs := ⟨false, 0, false⟩

def resetCycle : Inputs := ⟨true, 0, false⟩

/-- A reset inside a frame leaves the controller as one at power-up. -/
theorem lone_command_forgotten :
    outputs (after step (step (after step (powerUp : Regs 1) loneCommand 3) resetCycle) CommandParser.modeFrame 6) =
      outputs (after step (step powerUp resetCycle) CommandParser.modeFrame 6) := by
  have hreset : resetCycle.reset_in = true := rfl
  exact (forgotten_iff (after step powerUp loneCommand 3) powerUp hreset hreset CommandParser.modeFrame).2 ⟨rfl, rfl⟩ 6

/-- The mode of a frame before the reset is there after it. -/
theorem mode_survives : ¬ ∀ (w₁ w₂ w : Nat → Inputs) (n₁ n₂ : Nat) (i : Inputs), i.reset_in = true →
    (∀ n, Known (after step (powerUp : Regs 1) w₁ n) (w₁ n)) →
    (∀ n, Known (after step (powerUp : Regs 1) w₂ n) (w₂ n)) →
    (∀ n, Known (after step (step (after step (powerUp : Regs 1) w₁ n₁) i) w n) (w n)) →
    (∀ n, Known (after step (step (after step (powerUp : Regs 1) w₂ n₂) i) w n) (w n)) →
    ∀ n, outputs (after step (step (after step (powerUp : Regs 1) w₁ n₁) i) w n) =
      outputs (after step (step (after step (powerUp : Regs 1) w₂ n₂) i) w n) := by
  intro h
  have hsame := h CommandParser.modeFrame silence silence 6 0 resetCycle rfl CommandRanges.modeFrame_known
    (fun _ _ _ hv => by cases hv) (fun _ _ _ hv => by cases hv) (fun _ _ _ hv => by cases hv) 0
  exact absurd (congrArg Outputs.mode hsame) (by decide)

end DinoLight.ResetMemory
