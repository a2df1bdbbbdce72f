import DinoLight.CommandParser
/-!
# Declared ranges of the controller

`setCommand` takes the byte that ends `idle` without looking at it. As long as
these bytes are commands, `currentCommand` indexes `payloadSizes` and the test
of `currentIndex` for equality stops it at the size (`InRange`). A byte that is
no command leaves the range at once.
-/
open Clocked

namespace DinoLight.CommandRanges
open UartRxController

variable {num_blocks : Nat}

def num_commands : Nat := 3

/-- The values one clock edge assigns and reads stay in their declared ranges,
and the byte taken as a command is one. -/
structure Contained (s : Regs num_blocks) (i : Inputs) : Prop where
  command : setCommand s i (nextStateDecode s i) < num_commands
  table : s.state = .payloadWrite → s.currentCommand < (payloadSizes num_blocks).length
  index : s.currentIndex ≤ 3 * num_blocks ∧ indexCounter s (nextStateDecode s i) ≤ 3 * num_blocks
  known : nextStateDecode s i = .command → i.data_in.toNat < num_commands

/-- `payloadSizes(currentCommand)` -/
def size (s : Regs num_blocks) : Nat := (payloadSizes num_blocks).getD s.currentCommand 0

/-- Where `currentIndex` stands in each state. -/
def InRange (s : Regs num_blocks) : Prop :=
  s.currentCommand < num_commands ∧
    match s.state with
    | .idle | .command | .reset => s.currentIndex = 0
    | .payloadWait => s.currentIndex < size s
    | .payloadWrite => s.currentIndex ≤ size s
    | .finish => s.currentIndex ≤ 3 * num_blocks
    | .timeout => False

/-- A byte in command position is a command. -/
def Known (s : Regs num_blocks) (i : Inputs) : Prop :=
  s.state = .idle → i.reset_in = false → i.data_valid = true → i.data_in.toNat < num_commands

theorem size_get {s : Regs num_blocks} (h : s.currentCommand < num_commands) :
    (payloadSizes num_blocks)[s.currentCommand]? = some (size s) := by
  have hlt : s.currentCommand < (payloadSizes num_blocks).length := h
  rw [size, List.getD_eq_getElem?_getD, List.getElem?_eq_getElem hlt, Option.getD_some]

theorem size_bounds (hN : 0 < num_blocks) {s : Regs num_blocks} (h : s.currentCommand < num_commands) :
    0 < size s ∧ size s ≤ 3 * num_blocks := by
  unfold size
  unfold num_commands at h
  rcases show s.currentCommand = 0 ∨ s.currentCommand = 1 ∨ s.currentCommand = 2 by omega with h | h | h <;>
    rw [h] <;> simp [payloadSizes] <;> omega

theorem InRange.index_le (hN : 0 < num_blocks) {s : Regs num_blocks} (h : InRange s) :
    s.currentIndex ≤ 3 * num_blocks := by
  obtain ⟨hc, hi⟩ := h
  have := (size_bounds hN hc).2
  cases hst : s.state <;> simp only [hst] at hi <;> omega

theorem inRange_step (hN : 0 < num_blocks) {s : Regs num_blocks} {i : Inputs} (h : InRange s) (hk : Known s i) :
    InRange (step s i) := by
  have hle := h.index_le hN
  obtain ⟨hc, hi⟩ := h
  have he := edge_step s i
  generalize step s i = s' at he ⊢
  cases he with
  | reset => exact ⟨Nat.zero_lt_succ 2, rfl⟩
  | rest _ h => simp [InRange, quiet, h, hc]
  | command hr h hv =>
    simp only [h] at hi
    exact ⟨hk h hr hv, hi⟩
  | ready _ h =>
    simp only [h] at hi
    exact ⟨hc, hi ▸ (size_bounds hN hc).1⟩
  | wait _ h =>
    simp only [h] at hi
    simp only [InRange, quiet, h]
    exact ⟨hc, hi⟩
  | write _ h =>
    simp only [h] at hi
    exact ⟨hc, hi⟩
  | more _ h hn =>
    simp only [h] at hi
    rw [size_get hc] at hn
    exact ⟨hc, Nat.lt_of_le_of_ne hi fun h => hn (congrArg some h.symm)⟩
  | finish _ h =>
    have hcur : (writeRegister (quiet s)).currentCommand = s.currentCommand ∧
        (writeRegister (quiet s)).currentIndex = s.currentIndex := by
      unfold writeRegister
      split <;> exact ⟨rfl, rfl⟩
    simp only [InRange, hcur]
    exact ⟨hc, hle⟩
  | done => exact ⟨hc, rfl⟩

/-- From a state in range an edge stays in range exactly if it takes no unknown command. -/
theorem contained_step (hN : 0 < num_blocks) {s : Regs num_blocks} {i : Inputs} (h : InRange s) :
    Contained s i ↔ Known s i := by
  constructor
  · intro hcon hst hr hv
    exact hcon.known (by simp [nextStateDecode, hst, hr, hv])
  · intro hk
    have h' := inRange_step hN h hk
    refine ⟨h'.1, fun _ => h.1, ⟨h.index_le hN, h'.index_le hN⟩, ?_⟩
    intro hn
    have hcmd : (step s i).currentCommand = i.data_in.toNat := by simp [step, setCommand, hn]
    exact hcmd ▸ h'.1

theorem powerUp_inRange : InRange (powerUp : Regs num_blocks) := ⟨Nat.zero_lt_succ 2, rfl⟩

/-- Under every waveform the controller stays in its declared ranges exactly as
long as no unknown byte arrives in `idle`. -/
theorem contained_iff_known (hN : 0 < num_blocks) (w : Nat → Inputs) :
    let s := after step (powerUp : Regs num_blocks) w
    (∀ n, Contained (s n) (w n)) ↔ ∀ n, Known (s n) (w n) := by
  intro s
  constructor
  · intro h n hst hr hv
    exact (h n).known (by simp [nextStateDecode, hst, hr, hv])
  · intro hk n
    have hin (n : Nat) : InRange (s n) := by
      induction n with
      | zero => exact powerUp_inRange
      | succ n ih => exact inRange_step hN ih (hk n)
    exact (contained_step hN (hin n)).2 (hk n)

/-- The second byte of a mode frame is no command, but it does not come in `idle`. -/
theorem modeFrame_known (n : Nat) :
    Known (after step (powerUp : Regs 1) CommandParser.modeFrame n) (CommandParser.modeFrame n) := by
  intro hst _ hv
  simp only [CommandParser.modeFrame, decide_eq_true_eq] at hv
  rcases hv with rfl | rfl
  · decide
  · exact absurd hst (by decide)

theorem modeFrame_contained :
    Contained (after step (powerUp : Regs 1) CommandParser.modeFrame 4) (CommandParser.modeFrame 4) :=
  (contained_iff_known Nat.one_pos CommandParser.modeFrame).2 modeFrame_known 4

/-- The byte 3 in cycle 0. -/
def strayByte (n : Nat) : Inputs where
  reset_in := false
  data_in := 3
  data_valid := n = 0

theorem stray_byte_taken : ¬ ∀ n, Contained (after step (powerUp : Regs 30) strayByte n) (strayByte n) := by
  intro h
  exact absurd (h 0).command (by decide)

end DinoLight.CommandRanges
