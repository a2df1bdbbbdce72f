import DinoLight.Lib.Clocked
import DinoLight.Lib.Vectors
/-!
# `uart_rx_controller`

The controller reads a command byte and its payload from strobed bytes and
writes the registers the other components see. As for the sequencer, `Edge`
lists what one clock edge can do.
-/
open Vectors

namespace DinoLight.UartRxController

inductive StateType where
  | idle | command | payloadWrite | payloadWait | finish | timeout | reset
  deriving DecidableEq, Repr

/-- The registers. `currentCommand` and `currentIndex` are VHDL naturals with
the ranges `0 to num_commands-1` and `0 to 3*num_blocks`: a value outside stops
a simulation, and the model carries it on. -/
structure Regs (num_blocks : Nat) where
  state : StateType
  currentCommand : Nat
  currentIndex : Nat
  write_value_shift_in : BitVec (num_blocks * 24)
  mode : BitVec 2
  mode_value_change : Bool
  custom_block_values : BitVec (num_blocks * 24)
  block_counts : BitVec (num_blocks * 8)
  custom_block_change : Bool
  deriving DecidableEq

structure Inputs where
  reset_in : Bool
  data_in : BitVec 8
  data_valid : Bool

variable {num_blocks : Nat}

def powerUp : Regs num_blocks where
  state := .idle
  currentCommand := 0
  currentIndex := 0
  write_value_shift_in := 0
  mode := 0
  mode_value_change := false
  custom_block_values := 0
  block_counts := 0
  custom_block_change := false

def payloadSizes (num_blocks : Nat) : List Nat := [1, num_blocks, 3 * num_blocks]

/-! ## The processes -/

def nextStateDecode (s : Regs num_blocks) (i : Inputs) : StateType :=
  if i.reset_in then .reset
  else match s.state with
    | .idle => if i.data_valid then .command else s.state
    | .command => .payloadWait
    | .payloadWait => if i.data_valid then .payloadWrite else s.state
    | .payloadWrite =>
      if (payloadSizes num_blocks)[s.currentCommand]? = some s.currentIndex then .finish else .payloadWait
    | .finish => .idle
    | .timeout => .idle
    | .reset => .idle

def writeBuffer (s : Regs num_blocks) (i : Inputs) (nextState : StateType) : BitVec (num_blocks * 24) :=
  if nextState = .reset ∨ nextState = .timeout then 0
  else if nextState = .payloadWrite then shiftIn s.write_value_shift_in i.data_in
  else s.write_value_shift_in

/-- The output registers at `finish`, by command. -/
def writeRegister (s : Regs num_blocks) : Regs num_blocks :=
  match s.currentCommand with
  | 0 => { s with mode_value_change := true, mode := s.write_value_shift_in.extractLsb' 0 2 }
  | 1 => { s with block_counts := s.write_value_shift_in.extractLsb' 0 (num_blocks * 8) }
  | 2 => { s with custom_block_change := true, custom_block_values := s.write_value_shift_in }
  | _ => s

def bufferToRegister (s : Regs num_blocks) (nextState : StateType) : Regs num_blocks :=
  let s := { s with custom_block_change := false, mode_value_change := false }
  if nextState = .reset then { s with mode_value_change := false, custom_block_values := 0 }
  else if nextState = .finish then writeRegister s
  else s

def setCommand (s : Regs num_blocks) (i : Inputs) (nextState : StateType) : Nat :=
  if nextState = .reset then 0
  else if nextState = .command then i.data_in.toNat
  else s.currentCommand

def indexCounter (s : Regs num_blocks) (nextState : StateType) : Nat :=
  if nextState = .idle ∨ nextState = .reset then 0
  else if nextState = .payloadWrite then s.currentIndex + 1
  else s.currentIndex

/-- One rising edge of `clk`. -/
def step (s : Regs num_blocks) (i : Inputs) : Regs num_blocks :=
  let nextState := nextStateDecode s i
  { bufferToRegister s nextState with
    state := nextState
    currentCommand := setCommand s i nextState
    currentIndex := indexCounter s nextState
    write_value_shift_in := writeBuffer s i nextState }

/-! ## What an edge does -/

/-- The registers with both change pulses low. -/
def quiet (s : Regs num_blocks) : Regs num_blocks :=
  { s with custom_block_change := false, mode_value_change := false }

/-- What a clock edge turns `s` into, one constructor for each transition. -/
inductive Edge (s : Regs num_blocks) (i : Inputs) : Regs num_blocks → Prop
  | reset (hr : i.reset_in = true) :
      Edge s i { quiet s with
        state := .reset, currentCommand := 0, currentIndex := 0, write_value_shift_in := 0,
        custom_block_values := 0 }
  | rest (hr : i.reset_in = false) (h : s.state = .idle) (hv : i.data_valid = false) :
      Edge s i { quiet s with currentIndex := 0 }
  | command (hr : i.reset_in = false) (h : s.state = .idle) (hv : i.data_valid = true) :
      Edge s i { quiet s with state := .command, currentCommand := i.data_in.toNat }
  | ready (hr : i.reset_in = false) (h : s.state = .command) :
      Edge s i { quiet s with state := .payloadWait }
  | wait (hr : i.reset_in = false) (h : s.state = .payloadWait) (hv : i.data_valid = false) :
      Edge s i (quiet s)
  | write (hr : i.reset_in = false) (h : s.state = .payloadWait) (hv : i.data_valid = true) :
      Edge s i { quiet s with
        state := .payloadWrite, currentIndex := s.currentIndex + 1,
        write_value_shift_in := shiftIn s.write_value_shift_in i.data_in }
  | more (hr : i.reset_in = false) (h : s.state = .payloadWrite)
      (hn : (payloadSizes num_blocks)[s.currentCommand]? ≠ some s.currentIndex) :
      Edge s i { quiet s with state := .payloadWait }
  | finish (hr : i.reset_in = false) (h : s.state = .payloadWrite)
      (hn : (payloadSizes num_blocks)[s.currentCommand]? = some s.currentIndex) :
      Edge s i { writeRegister (quiet s) with state := .finish }
  | done (hr : i.reset_in = false) (h : s.state = .finish ∨ s.state = .timeout ∨ s.state = .reset) :
      Edge s i { quiet s with state := .idle, currentIndex := 0 }

theorem edge_step (s : Regs num_blocks) (i : Inputs) : Edge s i (step s i) := by
  cases hr : i.reset_in
  case true =>
    have hn : nextStateDecode s i = .reset := by simp [nextStateDecode, hr]
    simp only [step, hn]
    exact .reset hr
  case false =>
    obtain ⟨st, c, n, v, m, mc, vals, counts, cc⟩ := s
    cases st <;> simp only [step, nextStateDecode, hr, Bool.false_eq_true, if_false]
    case idle =>
      cases hv : i.data_valid
      · exact .rest hr rfl hv
      · exact .command hr rfl hv
    case command => exact .ready hr rfl
    case payloadWait =>
      cases hv : i.data_valid
      · exact .wait hr rfl hv
      · exact .write hr rfl hv
    case payloadWrite =>
      by_cases hn : (payloadSizes num_blocks)[c]? = some n
      · simp only [hn, if_true]
        rcases c with _ | _ | _ | c <;> exact .finish hr rfl hn
      · simp only [hn, if_false]; exact .more hr rfl hn
    case finish => exact .done hr (.inl rfl)
    case timeout => exact .done hr (.inr (.inl rfl))
    case reset => exact .done hr (.inr (.inr rfl))

/-- The custom colours change only with their change pulse. -/
theorem custom_step {s : Regs num_blocks} {i : Inputs} (hr : i.reset_in = false)
    (hc : (step s i).custom_block_change = false) : (step s i).custom_block_values = s.custom_block_values := by
  have he := edge_step s i
  generalize step s i = s' at he hc ⊢
  cases he with
  | reset hr' => simp [hr] at hr'
  | finish =>
    unfold writeRegister at hc ⊢
    split at hc <;> simp_all [quiet]
  | _ => rfl

theorem idle_step {s : Regs num_blocks} {i : Inputs} (h : s.state = .idle) (hr : i.reset_in = false)
    (hv : i.data_valid = false) : (step s i).state = .idle := by
  simp [step, nextStateDecode, h, hr, hv]

/-- The controller takes the byte at its input into a command or a payload. -/
def accepts (s : Regs num_blocks) (i : Inputs) : Bool :=
  nextStateDecode s i = .command ∨ nextStateDecode s i = .payloadWrite

/-! ## Streams of strobes -/

/-- Strobes are one cycle long and at least three cycles apart. -/
def Spaced (w : Nat → Inputs) : Prop :=
  ∀ m n, (w m).data_valid = true → (w n).data_valid = true → m < n → m + 3 ≤ n

/-- The byte strobed in a cycle. -/
def strobe (i : Inputs) : List (BitVec 8) := if i.data_valid then [i.data_in] else []

/-- The bytes strobed before cycle `n`. -/
def received (w : Nat → Inputs) (n : Nat) : List (BitVec 8) := Clocked.collect (fun t => strobe (w t)) n

theorem received_succ (w : Nat → Inputs) (n : Nat) : received w (n + 1) = received w n ++ strobe (w n) :=
  Clocked.collect_succ _ n

theorem received_mono (w : Nat → Inputs) {m n : Nat} (h : m ≤ n) : received w m <+: received w n := by
  obtain ⟨k, rfl⟩ := Nat.exists_eq_add_of_le h
  rw [received, received, Clocked.collect_add]
  exact List.prefix_append _ _

theorem received_silent {w : Nat → Inputs} {m n : Nat} (hmn : m ≤ n)
    (h : ∀ t, m ≤ t → t < n → (w t).data_valid = false) : received w n = received w m := by
  induction n, hmn using Nat.le_induction with
  | base => rfl
  | succ n hmn ih =>
    rw [received_succ, ih fun t h1 h2 => h t h1 (by omega), strobe, h n hmn (by omega)]
    simp

/-- The last strobe of a stream that is not empty. -/
theorem last_strobe {w : Nat → Inputs} {n : Nat} (h : received w n ≠ []) :
    ∃ m < n, (w m).data_valid = true ∧ received w (m + 1) = received w n := by
  induction n with
  | zero => exact absurd rfl h
  | succ n ih =>
    cases hv : (w n).data_valid
    · have hsame : received w (n + 1) = received w n := by simp [received_succ, strobe, hv]
      obtain ⟨m, hm, hv, he⟩ := ih (hsame ▸ h)
      exact ⟨m, by omega, hv, he.trans hsame.symm⟩
    · exact ⟨n, by omega, hv, rfl⟩

/-- The states between two frames or inside one, and how long ago the last byte
was strobed in the states that do not look at `data_valid`. -/
def Recent (w : Nat → Inputs) (s : Nat → Regs num_blocks) (n : Nat) : Prop :=
  match (s n).state with
  | .idle | .payloadWait => True
  | .command | .payloadWrite => ∃ m, n = m + 1 ∧ (w m).data_valid = true
  | .finish => ∃ m, n = m + 2 ∧ (w m).data_valid = true
  | .timeout | .reset => False

theorem recent {w : Nat → Inputs} {s : Nat → Regs num_blocks} (hs : Clocked.Follows step w s)
    (h0 : (s 0).state = .idle) (hr : ∀ n, (w n).reset_in = false) (n : Nat) : Recent w s n := by
  induction n with
  | zero => simp [Recent, h0]
  | succ n ih =>
    have he := edge_step (s n) (w n)
    rw [← hs n] at he
    unfold Recent at ih ⊢
    generalize s (n + 1) = s' at he ⊢
    cases he with
    | reset hr' => simp [hr n] at hr'
    | rest _ h | wait _ h => simp [quiet, h]
    | command _ _ hv | write _ _ hv => exact ⟨n, rfl, hv⟩
    | ready | more | done => trivial
    | finish _ h =>
      simp only [h] at ih
      obtain ⟨m, rfl, hm⟩ := ih
      exact ⟨m, rfl, hm⟩

/-- With spaced strobes no byte arrives in a state that ignores it. -/
theorem ready_of_strobe {w : Nat → Inputs} {s : Nat → Regs num_blocks} (hs : Clocked.Follows step w s)
    (h0 : (s 0).state = .idle) (hr : ∀ n, (w n).reset_in = false) (hsp : Spaced w) {n : Nat}
    (hv : (w n).data_valid = true) : (s n).state = .idle ∨ (s n).state = .payloadWait := by
  have h := recent hs h0 hr n
  cases hst : (s n).state <;> simp only [Recent, hst] at h
  case idle => exact .inl rfl
  case payloadWait => exact .inr rfl
  all_goals
    obtain ⟨m, rfl, hm⟩ := h
    have := hsp _ _ hm hv (by omega)
    omega

end DinoLight.UartRxController
