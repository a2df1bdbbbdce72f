import DinoLight.Lib.Clocked
import DinoLight.Lib.Vectors
/-!
# `uart_tx_controller`

The controller counts to the send period and then gives the six bytes of a
report to the transmitter, one each time it is done. All its processes act on
the next state, so an edge is determined by that.
-/
open Clocked Vectors

namespace DinoLight.UartTxController

inductive StateType where
  | count_up | send | send_wait | send_next
  deriving DecidableEq, Repr

/-- The registers; none has an initial value in the source, and the state, the
counter and the index start at the leftmost values of their types. -/
structure Regs where
  state : StateType
  counter : Nat
  current_send_index : Nat
  periodic_send_data_reg : BitVec 48
  data_to_uart : BitVec 8
  uart_data_stb : Bool
  deriving DecidableEq

structure Inputs where
  periodic_send_data : BitVec 48
  uart_data_ack : Bool

def powerUp : Regs where
  state := .count_up
  counter := 0
  current_send_index := 0
  periodic_send_data_reg := 0
  data_to_uart := 0
  uart_data_stb := false

/-! ## The processes -/

def nextStateDecode (clock_cycles_send_period : Nat) (s : Regs) (i : Inputs) : StateType :=
  match s.state with
  | .count_up => if s.counter = clock_cycles_send_period then .send else .count_up
  | .send => .send_wait
  | .send_wait => if i.uart_data_ack then .send_next else s.state
  | .send_next => if s.current_send_index = 6 then .count_up else .send

/-- `v(7 downto 0) & v(47 downto 8)` -/
def rotate (v : BitVec 48) : BitVec 48 := v.extractLsb' 0 8 ++ v.extractLsb' 8 40

def incSendIndex (s : Regs) (i : Inputs) (next_state : StateType) : Nat × BitVec 48 :=
  if next_state = .send then (s.current_send_index + 1, rotate s.periodic_send_data_reg)
  else if next_state = .count_up then (0, i.periodic_send_data)
  else (s.current_send_index, s.periodic_send_data_reg)

/-- One rising edge of `clk`. -/
def step (clock_cycles_send_period : Nat) (s : Regs) (i : Inputs) : Regs :=
  let next_state := nextStateDecode clock_cycles_send_period s i
  { state := next_state
    counter := if next_state = .count_up then s.counter + 1 else 0
    current_send_index := (incSendIndex s i next_state).1
    periodic_send_data_reg := (incSendIndex s i next_state).2
    data_to_uart := if next_state = .send then s.periodic_send_data_reg.extractLsb' 0 8 else s.data_to_uart
    uart_data_stb := next_state = .send }

/-! ## What an edge does -/

section Edges
variable {P : Nat} {s : Regs} {i : Inputs}

theorem step_count (h : nextStateDecode P s i = .count_up) : step P s i =
    { s with
      state := .count_up, counter := s.counter + 1, current_send_index := 0
      periodic_send_data_reg := i.periodic_send_data, uart_data_stb := false } := by
  simp [step, incSendIndex, h]

theorem step_send (h : nextStateDecode P s i = .send) : step P s i =
    { state := .send, counter := 0, current_send_index := s.current_send_index + 1
      periodic_send_data_reg := rotate s.periodic_send_data_reg
      data_to_uart := s.periodic_send_data_reg.extractLsb' 0 8, uart_data_stb := true } := by
  simp [step, incSendIndex, h]

theorem step_wait (h : nextStateDecode P s i = .send_wait ∨ nextStateDecode P s i = .send_next) : step P s i =
    { s with state := nextStateDecode P s i, counter := 0, uart_data_stb := false } := by
  rcases h with h | h <;> simp [step, incSendIndex, h]

end Edges

/-! ## The bytes of a report -/

/-- Byte `i` of a report, the least significant first. -/
def reportByte (v : BitVec 48) (i : Nat) : BitVec 8 := v.extractLsb' (8 * i) 8

theorem getLsbD_rotate (v : BitVec 48) {b : Nat} (hb : b < 48) : (rotate v).getLsbD b = v.getLsbD ((b + 8) % 48) := by
  rw [rotate, BitVec.getLsbD_append]
  by_cases h : b < 40
  · simp only [h, decide_true, if_true, BitVec.getLsbD_extractLsb', Bool.true_and]
    congr 1
    omega
  · simp only [h, decide_false, if_false, BitVec.getLsbD_extractLsb', show b - 40 < 8 by omega,
      decide_true, Bool.true_and]
    congr 1
    omega

/-- After `i` rotations the low byte is byte `i`. -/
theorem rotate_byte (v : BitVec 48) {i : Nat} (hi : i < 6) : (rotate^[i] v).extractLsb' 0 8 = reportByte v i := by
  have hbit (b : Nat) (hb : b < 48) : (rotate^[i] v).getLsbD b = v.getLsbD ((b + 8 * i) % 48) := by
    induction i generalizing b with
    | zero => rw [Function.iterate_zero, id, Nat.mod_eq_of_lt (by omega), Nat.mul_zero, Nat.add_zero]
    | succ i ih =>
      rw [Function.iterate_succ_apply', getLsbD_rotate _ hb, ih (by omega) _ (Nat.mod_lt _ (by omega))]
      congr 1
      omega
  apply BitVec.eq_of_getLsbD_eq
  intro b hb
  simp only [reportByte, BitVec.getLsbD_extractLsb', hb, decide_true, Bool.true_and]
  rw [hbit (0 + b) (by omega)]
  congr 1
  omega

end DinoLight.UartTxController
