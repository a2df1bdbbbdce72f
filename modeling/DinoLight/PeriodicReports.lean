import DinoLight.UartTx
import DinoLight.UartTxController
/-!
# Periodic reports

`tx_controller` and `uart_serial_tx` of `uart_top`. The transmitter holds its
done flag for two cycles and is idle in the second; the controller takes the
first to see the flag and the second to go on, so its strobe falls in the first
cycle in which the transmitter rests. From this the cycle of every strobe follows.
-/
open Clocked

namespace DinoLight.PeriodicReports
open UartTxController (rotate reportByte nextStateDecode)
open UartTx (Rests Sends)

structure Regs where
  tx_controller : UartTxController.Regs
  uart_serial_tx : UartTx.Regs

def powerUp : Regs where
  tx_controller := UartTxController.powerUp
  uart_serial_tx := UartTx.powerUp

def controllerInputs (s : Regs) (periodic_send_data : BitVec 48) : UartTxController.Inputs where
  periodic_send_data := periodic_send_data
  uart_data_ack := s.uart_serial_tx.r_TX_Done

def uartInputs (s : Regs) : UartTx.Inputs where
  i_TX_DV := s.tx_controller.uart_data_stb
  i_TX_Byte := s.tx_controller.data_to_uart

/-- One rising edge of `clock`. -/
def step (clock_cycles_send_period clocks_per_bit : Nat) (s : Regs) (periodic_send_data : BitVec 48) : Regs where
  tx_controller :=
    UartTxController.step clock_cycles_send_period s.tx_controller (controllerInputs s periodic_send_data)
  uart_serial_tx := UartTx.step clocks_per_bit s.uart_serial_tx (uartInputs s)

/-! ## The schedule -/

/-- The cycle of strobe `i` of report `j`, with the send period `P` and `C` clocks a bit. -/
def strobeAt (P C j i : Nat) : Nat := P + 1 + j * (6 * (10 * C + 3) + P) + i * (10 * C + 3)

theorem strobeAt_byte (P C j i : Nat) : strobeAt P C j (i + 1) = strobeAt P C j i + (10 * C + 3) := by
  unfold strobeAt
  rw [Nat.add_one_mul i]
  omega

theorem strobeAt_report (P C j : Nat) : strobeAt P C (j + 1) 0 = strobeAt P C j 5 + (10 * C + 3) + P := by
  unfold strobeAt
  rw [Nat.add_one_mul j]
  omega

variable {P C : Nat} {w : Nat → BitVec 48}

/-- The report that starts with a strobe in cycle `n`. -/
def report (w : Nat → BitVec 48) (n : Nat) : BitVec 48 := w (n - 2)

/-- `c` cycles into the send period before report `j`. -/
structure Counting (P C : Nat) (w : Nat → BitVec 48) (n : Nat) (s : Regs) (j c : Nat) : Prop where
  le : c ≤ P
  cycle : n + 1 + (P - c) = strobeAt P C j 0
  state : s.tx_controller.state = .count_up
  counter : s.tx_controller.counter = c
  index : s.tx_controller.current_send_index = 0
  strobe : s.tx_controller.uart_data_stb = false
  sample : 0 < c → s.tx_controller.periodic_send_data_reg = w (n - 1)
  rests : Rests s.uart_serial_tx

/-- `k` cycles after strobe `i` of report `j`. -/
structure Sending (P C : Nat) (w : Nat → BitVec 48) (n : Nat) (s : Regs) (j i k : Nat) : Prop where
  le : i ≤ 5
  cycle : n = strobeAt P C j i + k
  state : s.tx_controller.state = if k = 0 then .send else if k ≤ 10 * C + 1 then .send_wait else .send_next
  counter : s.tx_controller.counter = 0
  index : s.tx_controller.current_send_index = i + 1
  strobe : s.tx_controller.uart_data_stb = decide (k = 0)
  sample : s.tx_controller.periodic_send_data_reg = rotate^[i + 1] (report w (strobeAt P C j 0))
  data : s.tx_controller.data_to_uart = reportByte (report w (strobeAt P C j 0)) i
  rests : k = 0 → Rests s.uart_serial_tx
  sends : 0 < k → k ≤ 10 * C + 2 ∧ Sends C s.tx_controller.data_to_uart s.uart_serial_tx k

/-- Every state is somewhere in the schedule. -/
def Scheduled (P C : Nat) (w : Nat → BitVec 48) (n : Nat) (s : Regs) : Prop :=
  (∃ j c, Counting P C w n s j c) ∨ ∃ j i k, Sending P C w n s j i k

theorem powerUp_scheduled : Scheduled P C w 0 powerUp := by
  refine .inl ⟨0, 0, Nat.zero_le _, ?_, rfl, rfl, rfl, rfl, fun h => absurd h (Nat.lt_irrefl 0), ⟨rfl, rfl⟩⟩
  unfold strobeAt
  omega

theorem counting_step (hP : 0 < P) {n : Nat} {s : Regs} {j c : Nat} (h : Counting P C w n s j c) :
    Scheduled P C w (n + 1) (step P C s (w n)) := by
  have hnext : nextStateDecode P s.tx_controller (controllerInputs s (w n)) =
      if c = P then .send else .count_up := by
    simp [nextStateDecode, h.state, h.counter]
  have hrests := (UartTx.rests_step (C := C) (i := uartInputs s) h.rests.state h.strobe).1
  have hcycle := h.cycle
  have hle := h.le
  by_cases hc : c = P
  · rw [if_pos hc] at hnext
    have hsample : s.tx_controller.periodic_send_data_reg = report w (strobeAt P C j 0) := by
      rw [h.sample (by omega), report]
      congr 1
      omega
    refine .inr ⟨j, 0, 0, ?_⟩
    simp only [step, UartTxController.step_send hnext]
    exact ⟨Nat.zero_le 5, by omega, rfl, rfl, by rw [h.index], rfl, by rw [hsample]; rfl, by rw [hsample]; rfl,
      fun _ => hrests, fun h => absurd h (Nat.lt_irrefl 0)⟩
  · rw [if_neg hc] at hnext
    refine .inl ⟨j, c + 1, ?_⟩
    simp only [step, UartTxController.step_count hnext]
    exact ⟨by omega, by omega, rfl, by rw [h.counter], rfl, rfl, fun _ => rfl, hrests⟩

theorem sending_step (hP : 0 < P) (hC : 0 < C) {n : Nat} {s : Regs} {j i k : Nat} (h : Sending P C w n s j i k) :
    Scheduled P C w (n + 1) (step P C s (w n)) := by
  have hcycle := h.cycle
  have hle := h.le
  by_cases hlast : k ≤ 10 * C + 1
  · -- the byte is on its way
    refine .inr ⟨j, i, k + 1, ?_⟩
    have hsends : Sends C s.tx_controller.data_to_uart (step P C s (w n)).uart_serial_tx (k + 1) := by
      rcases Nat.eq_zero_or_pos k with rfl | hk
      · exact UartTx.load_step (i := uartInputs s) hC (h.rests rfl).state (h.strobe.trans rfl)
      · exact UartTx.sends_step (h.sends hk).2 hlast _
    have hnext : nextStateDecode P s.tx_controller (controllerInputs s (w n)) =
        if k + 1 ≤ 10 * C + 1 then .send_wait else .send_next := by
      have hstate := h.state
      rcases Nat.eq_zero_or_pos k with rfl | hk
      · simp [nextStateDecode, hstate]
      · rw [if_neg (by omega), if_pos hlast] at hstate
        have hdone := (h.sends hk).2.done_iff
        simp only [nextStateDecode, hstate, controllerInputs, hdone]
        split
        case isTrue => rw [if_neg (by omega)]
        case isFalse => rw [if_pos (by omega)]
    have hstep := UartTxController.step_wait (P := P) (s := s.tx_controller) (i := controllerInputs s (w n))
      (by rw [hnext]; split <;> simp)
    refine ⟨hle, by omega, ?_, ?_, ?_, ?_, ?_, ?_, by simp, fun _ => ⟨by omega, ?_⟩⟩
    all_goals simp only [step, hstep]
    · rw [hnext]
      simp
    · exact h.index
    · simp
    · exact h.sample
    · exact h.data
    · exact hsends
  · obtain ⟨hk, hsends⟩ := h.sends (by omega)
    obtain rfl : k = 10 * C + 2 := by omega
    have hrests := (UartTx.rests_step (C := C) (i := uartInputs s) (hsends.idle_iff.2 rfl) (h.strobe.trans (by simp))).1
    have hnext : nextStateDecode P s.tx_controller (controllerInputs s (w n)) = if i = 5 then .count_up else .send := by
      have hstate := h.state
      rw [if_neg (by omega), if_neg (by omega)] at hstate
      simp [nextStateDecode, hstate, h.index]
    by_cases hi : i = 5
    · subst hi
      rw [if_pos rfl] at hnext
      refine .inl ⟨j + 1, 1, ?_⟩
      simp only [step, UartTxController.step_count hnext]
      exact ⟨hP, by rw [strobeAt_report]; omega, rfl, by rw [h.counter], rfl, rfl, fun _ => rfl, hrests⟩
    · rw [if_neg hi] at hnext
      refine .inr ⟨j, i + 1, 0, ?_⟩
      simp only [step, UartTxController.step_send hnext]
      exact ⟨by omega, by rw [strobeAt_byte]; omega, rfl, rfl, by rw [h.index], rfl,
        by rw [Function.iterate_succ_apply', ← h.sample], by rw [h.sample, UartTxController.rotate_byte _ (by omega)],
        fun _ => hrests, fun h => absurd h (Nat.lt_irrefl 0)⟩

theorem scheduled_run (hP : 0 < P) (hC : 0 < C) (n : Nat) : Scheduled P C w n (after (step P C) powerUp w n) := by
  induction n with
  | zero => exact powerUp_scheduled
  | succ n ih =>
    rcases ih with ⟨j, c, h⟩ | ⟨j, i, k, h⟩
    · exact counting_step hP h
    · exact sending_step hP hC h

/-! ## Reports -/

theorem strobeAt_mono {j i i' : Nat} (h : i < i') : strobeAt P C j i + (10 * C + 3) ≤ strobeAt P C j i' := by
  have := Nat.mul_le_mul_right (10 * C + 3) (Nat.succ_le_of_lt h)
  rw [Nat.add_one_mul] at this
  unfold strobeAt
  omega

theorem strobeAt_gap {j j' i : Nat} (h : j < j') (hi : i ≤ 5) :
    strobeAt P C j i + (10 * C + 3) + P ≤ strobeAt P C j' 0 := by
  have hj := Nat.mul_le_mul_right (6 * (10 * C + 3) + P) (Nat.succ_le_of_lt h)
  have hi := Nat.mul_le_mul_right (10 * C + 3) hi
  rw [Nat.add_one_mul] at hj
  unfold strobeAt
  omega

/-- Strobes of one report or of two are at least a byte time apart. -/
theorem strobeAt_apart {j j' i i' : Nat} (hi : i ≤ 5) (h : j < j' ∨ j = j' ∧ i < i') :
    strobeAt P C j i + (10 * C + 3) ≤ strobeAt P C j' i' := by
  rcases h with h | ⟨rfl, h⟩
  · have := strobeAt_gap (P := P) (C := C) h hi
    rcases Nat.eq_zero_or_pos i' with rfl | hi'
    · omega
    · have := strobeAt_mono (P := P) (C := C) (j := j') hi'
      omega
  · exact strobeAt_mono h

theorem strobeAt_cases (P C j j' : Nat) {i i' : Nat} (hi : i ≤ 5) (hi' : i' ≤ 5) : (j = j' ∧ i = i') ∨
    strobeAt P C j i + (10 * C + 3) ≤ strobeAt P C j' i' ∨ strobeAt P C j' i' + (10 * C + 3) ≤ strobeAt P C j i := by
  rcases show (j = j' ∧ i = i') ∨ (j < j' ∨ j = j' ∧ i < i') ∨ (j' < j ∨ j' = j ∧ i' < i) by omega with h | h | h
  · exact .inl h
  · exact .inr (.inl (strobeAt_apart hi h))
  · exact .inr (.inr (strobeAt_apart hi' h))

/-- In a cycle of the schedule the controller is strobing. -/
theorem sending_at (hP : 0 < P) (hC : 0 < C) {j i : Nat} (hi : i ≤ 5) :
    Sending P C w (strobeAt P C j i) (after (step P C) powerUp w (strobeAt P C j i)) j i 0 := by
  rcases scheduled_run (w := w) hP hC (strobeAt P C j i) with ⟨j', c, h⟩ | ⟨j', i', k, h⟩
  · have hcycle := h.cycle
    rcases Nat.lt_or_ge j j' with hj | hj
    · have := strobeAt_gap (P := P) (C := C) hj hi
      omega
    · have : strobeAt P C j' 0 ≤ strobeAt P C j i := by
        rcases Nat.eq_zero_or_pos i with rfl | hi'
        · rcases Nat.eq_or_lt_of_le hj with rfl | hj
          · exact Nat.le_refl _
          · have := strobeAt_gap (P := P) (C := C) hj (Nat.zero_le 5)
            omega
        · have := strobeAt_apart (P := P) (C := C) (i := 0) (Nat.zero_le 5) (show j' < j ∨ j' = j ∧ 0 < i by omega)
          omega
      omega
  · have hcycle := h.cycle
    have hk : k ≤ 10 * C + 2 := by
      rcases Nat.eq_zero_or_pos k with rfl | hk
      · omega
      · exact (h.sends hk).1
    rcases strobeAt_cases P C j j' hi h.le with ⟨rfl, rfl⟩ | hlt | hgt
    · obtain rfl : k = 0 := by omega
      exact h
    · omega
    · omega

theorem strobe_iff (hP : 0 < P) (hC : 0 < C) (n : Nat) :
    (after (step P C) powerUp w n).tx_controller.uart_data_stb = true ↔ ∃ j i, i < 6 ∧ n = strobeAt P C j i := by
  constructor
  · intro hs
    rcases scheduled_run (w := w) hP hC n with ⟨j, c, h⟩ | ⟨j, i, k, h⟩
    · rw [h.strobe] at hs
      cases hs
    · obtain rfl : k = 0 := by simpa [h.strobe] using hs
      exact ⟨j, i, Nat.lt_succ_of_le h.le, h.cycle⟩
  · rintro ⟨j, i, hi, rfl⟩
    exact (sending_at hP hC (Nat.le_of_lt_succ hi)).strobe

/-- Reports come whole, in order and on schedule, and every byte is transmitted once. -/
structure Whole (P C : Nat) (w : Nat → BitVec 48) (s : Nat → Regs) : Prop where
  bursts : ∀ n, (s n).tx_controller.uart_data_stb = true ↔ ∃ j i, i < 6 ∧ n = strobeAt P C j i
  bytes : ∀ j i, i < 6 →
    (s (strobeAt P C j i)).tx_controller.data_to_uart = reportByte (report w (strobeAt P C j 0)) i
  pulse : ∀ n, (s n).tx_controller.uart_data_stb = true → (s (n + 1)).tx_controller.uart_data_stb = false
  idle : ∀ n, (s n).tx_controller.uart_data_stb = true → (s n).uart_serial_tx.r_SM_Main = .s_Idle
  starts : ∀ n, (s n).uart_serial_tx.r_SM_Main = .s_Idle →
    ((s (n + 1)).uart_serial_tx.r_SM_Main = .s_TX_Start_Bit ↔ (s n).tx_controller.uart_data_stb = true)
  loads : ∀ n, (s (n + 1)).uart_serial_tx.r_TX_Data =
    if (s n).tx_controller.uart_data_stb then (s n).tx_controller.data_to_uart else (s n).uart_serial_tx.r_TX_Data
  counter : ∀ n, (s n).tx_controller.counter ≤ P
  index : ∀ n, (s n).tx_controller.current_send_index ≤ 6

theorem reports_whole (hP : 0 < P) (hC : 0 < C) (w : Nat → BitVec 48) : Whole P C w (after (step P C) powerUp w) := by
  have hstrobe := strobe_iff (w := w) hP hC
  have hidle (n : Nat) (hn : (after (step P C) powerUp w n).tx_controller.uart_data_stb = true) :
      (after (step P C) powerUp w n).uart_serial_tx.r_SM_Main = .s_Idle := by
    obtain ⟨j, i, hi, rfl⟩ := (hstrobe n).1 hn
    exact ((sending_at hP hC (Nat.le_of_lt_succ hi)).rests rfl).state
  refine ⟨hstrobe, ?_, ?_, hidle, ?_, ?_, ?_, ?_⟩
  · intro j i hi
    exact (sending_at hP hC (Nat.le_of_lt_succ hi)).data
  · intro n hn
    by_contra hn'
    obtain ⟨j, i, hi, rfl⟩ := (hstrobe n).1 hn
    obtain ⟨j', i', hi', he⟩ := (hstrobe _).1 (eq_true_of_ne_false hn')
    rcases strobeAt_cases P C j j' (Nat.le_of_lt_succ hi) (Nat.le_of_lt_succ hi') with
      ⟨rfl, rfl⟩ | hlt | hgt <;> omega
  · intro n hn
    rw [after_succ, step, UartTx.start_iff hn]
    rfl
  · intro n
    rw [after_succ, step, UartTx.data_step]
    by_cases hs : (after (step P C) powerUp w n).tx_controller.uart_data_stb = true
    · rw [if_pos ⟨hidle n hs, hs⟩, if_pos hs]
      rfl
    · rw [if_neg fun h => hs h.2, if_neg hs]
  · intro n
    rcases scheduled_run (w := w) hP hC n with ⟨j, c, h⟩ | ⟨j, i, k, h⟩
    · exact h.counter ▸ h.le
    · exact h.counter ▸ Nat.zero_le P
  · intro n
    rcases scheduled_run (w := w) hP hC n with ⟨j, c, h⟩ | ⟨j, i, k, h⟩
    · exact h.index ▸ Nat.zero_le 6
    · exact h.index ▸ Nat.succ_le_succ h.le

/-- The second byte of the first report, with the shortest period and bits. -/
theorem second_byte :
    (after (step 1 1) powerUp (fun n => BitVec.ofNat 48 (0x0700 + n)) 15).tx_controller.data_to_uart = 7 :=
  ((reports_whole Nat.one_pos Nat.one_pos fun n => BitVec.ofNat 48 (0x0700 + n)).bytes 0 1 (by decide)).trans
    (by decide)

end DinoLight.PeriodicReports
