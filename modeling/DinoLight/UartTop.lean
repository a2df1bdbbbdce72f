import DinoLight.BaudTolerance
import DinoLight.PeriodicReports
import Mathlib.Tactic.Ring
/-!
# `uart_top`

The receiving half is that of `SerialLink`, the sending half that of
`PeriodicReports`; they share nothing but the clock. One more register stands
between the transmitter and the line. Two boards are linked line to line, each
with a clock of its own.
-/
open Clocked

namespace DinoLight.UartTop
open BaudTolerance
open LineReading (half busy)
open PeriodicReports (strobeAt report sending_at scheduled_run strobeAt_byte strobeAt_report)
open SerialLink (bytesBefore wireBits)
open UartTx (Sends)
open UartTxController (reportByte)

structure Regs (num_blocks : Nat) where
  receiver : SerialLink.Regs num_blocks
  sender : PeriodicReports.Regs
  usb_rs232_txd : Bool

structure Inputs where
  usb_rs232_rxd : Bool
  periodic_send_data : BitVec 48

variable {num_blocks P C : Nat}

/-- `usb_rs232_txd` has no initial value in the source. -/
def powerUp : Regs num_blocks where
  receiver := SerialLink.powerUp
  sender := PeriodicReports.powerUp
  usb_rs232_txd := false

/-- One rising edge of `clock`. -/
def step (clock_cycles_send_period clocks_per_bit : Nat) (s : Regs num_blocks) (i : Inputs) : Regs num_blocks where
  receiver := SerialLink.step clocks_per_bit s.receiver i.usb_rs232_rxd
  sender := PeriodicReports.step clock_cycles_send_period clocks_per_bit s.sender i.periodic_send_data
  usb_rs232_txd := s.sender.uart_serial_tx.o_TX_Serial

/-- The last byte received. -/
def debug_leds (s : Regs num_blocks) : BitVec 8 := s.receiver.uart_serial_rx.r_RX_Byte

section Parts
variable {w : Nat → Inputs} {s : Nat → Regs num_blocks}

theorem receiver_follows (hs : Follows (step P C) w s) :
    Follows (SerialLink.step C) (fun t => (w t).usb_rs232_rxd) fun t => (s t).receiver :=
  fun t => congrArg Regs.receiver (hs t)

theorem sender_follows (hs : Follows (step P C) w s) :
    Follows (PeriodicReports.step P C) (fun t => (w t).periodic_send_data) fun t => (s t).sender :=
  fun t => congrArg Regs.sender (hs t)

end Parts

/-! ## The line of the transmitter -/

/-- The level that `UART_TX` gives `k` cycles after it took a byte. -/
theorem serial_bit {byte : BitVec 8} {r : UartTx.Regs} {k : Nat} (h : Sends C byte r k) (hk : k ≤ 10 * C)
    (i : UartTx.Inputs) : (UartTx.step C r i).o_TX_Serial = (wireBits byte).getD ((k - 1) / C) true := by
  have he := h.elapsed
  unfold UartTx.Elapsed at he
  unfold UartTx.step
  cases hst : r.r_SM_Main <;> simp only [hst] at he
  case s_TX_Start_Bit =>
    obtain ⟨-, hlt, -, rfl⟩ := he
    rw [Nat.add_sub_cancel, Nat.div_eq_of_lt hlt]
    dsimp only
    split <;> rfl
  case s_TX_Data_Bits =>
    obtain ⟨-, hlt, hidx, rfl⟩ := he
    rw [Nat.add_sub_cancel, Nat.mul_comm, Nat.mul_add_div (by omega), Nat.div_eq_of_lt hlt, Nat.add_zero,
      wireBits_data _ hidx, ← h.byte]
    dsimp only
    split
    · rfl
    · split <;> rfl
  case s_TX_Stop_Bit =>
    obtain ⟨-, hlt, rfl⟩ := he
    rw [Nat.add_sub_cancel, Nat.mul_comm, Nat.mul_add_div (by omega), Nat.div_eq_of_lt hlt]
    dsimp only
    split <;> rfl
  all_goals omega

theorem serial_idle {r : UartTx.Regs} (h : r.r_SM_Main = .s_Idle) (i : UartTx.Inputs) :
    (UartTx.step C r i).o_TX_Serial = true := by
  unfold UartTx.step
  rw [h]
  dsimp only
  split <;> rfl

section Line
variable {w : Nat → BitVec 48}

/-- The registers of the sender in cycle `n`. -/
def sender (P C : Nat) (w : Nat → BitVec 48) (n : Nat) : PeriodicReports.Regs :=
  after (PeriodicReports.step P C) PeriodicReports.powerUp w n

/-- `tx` -/
def tx (P C : Nat) (w : Nat → BitVec 48) (n : Nat) : Bool := (sender P C w n).uart_serial_tx.o_TX_Serial

theorem tx_succ (w : Nat → BitVec 48) (n : Nat) : tx P C w (n + 1) =
    (UartTx.step C (sender P C w n).uart_serial_tx (PeriodicReports.uartInputs (sender P C w n))).o_TX_Serial := rfl

/-- While a byte is out, the transmitter counts its cycles. -/
theorem sends_run (hP : 0 < P) (hC : 0 < C) {j i k : Nat} (hi : i ≤ 5) (hk : 0 < k) (hk' : k ≤ 10 * C + 2) :
    Sends C (reportByte (report w (strobeAt P C j 0)) i) (sender P C w (strobeAt P C j i + k)).uart_serial_tx k := by
  have hsend := sending_at (w := w) (j := j) hP hC hi
  induction k, hk using Nat.le_induction with
  | base =>
    have hload := UartTx.load_step (C := C) hC (hsend.rests rfl).state
      (i := PeriodicReports.uartInputs (sender P C w (strobeAt P C j i))) hsend.strobe
    rw [← hsend.data]
    exact hload
  | succ k hk ih =>
    exact UartTx.sends_step (ih (by omega)) (by omega) _

theorem tx_bit (hP : 0 < P) (hC : 0 < C) {j i k o : Nat} (hi : i ≤ 5) (hk : k < 10) (ho : o < C) :
    tx P C w (strobeAt P C j i + 2 + k * C + o) =
      (wireBits (reportByte (report w (strobeAt P C j 0)) i)).getD k true := by
  have hle : (k + 1) * C ≤ 10 * C := Nat.mul_le_mul_right C hk
  rw [Nat.add_one_mul] at hle
  have hsends := sends_run (w := w) (j := j) (k := k * C + o + 1) hP hC hi (Nat.succ_pos _) (by omega)
  have hbit := serial_bit hsends (by omega)
    (PeriodicReports.uartInputs (sender P C w (strobeAt P C j i + (k * C + o + 1))))
  have hdiv : (k * C + o) / C = k := by
    rw [Nat.mul_comm, Nat.mul_add_div hC, Nat.div_eq_of_lt ho, Nat.add_zero]
  rw [← tx_succ, Nat.add_sub_cancel, hdiv] at hbit
  rw [← hbit]
  congr 1
  omega

/-- Between bytes the line is high. -/
theorem tx_rest (hP : 0 < P) (hC : 0 < C) {n : Nat}
    (h : ∀ j i, i ≤ 5 → strobeAt P C j i < n → strobeAt P C j i + 10 * C < n) : tx P C w (n + 1) = true := by
  rcases scheduled_run (w := w) hP hC n with ⟨j, c, hc⟩ | ⟨j, i, k, hk⟩
  · exact serial_idle hc.rests.state _
  · have hcycle := hk.cycle
    rcases Nat.eq_zero_or_pos k with rfl | hpos
    · exact serial_idle (hk.rests rfl).state _
    · obtain ⟨hle, hsends⟩ := hk.sends hpos
      have hlate := h j i hk.le (by omega)
      rcases hsends.phase with ⟨-, -, hk'⟩ | ⟨-, hst, hk'⟩ | ⟨-, hst, -⟩
      · omega
      · -- `s_Cleanup` keeps the level of the stop bit
        obtain ⟨m, rfl⟩ : ∃ m, n = m + 1 := ⟨n - 1, by omega⟩
        have hstop := tx_bit (w := w) (j := j) (k := 9) (o := C - 1) hP hC hk.le (by decide) (by omega)
        rw [show strobeAt P C j i + 2 + 9 * C + (C - 1) = m + 1 by omega, wireBits_stop] at hstop
        rw [tx_succ, ← hstop]
        unfold UartTx.step sender
        rw [hst]
        rfl
      · exact serial_idle hst _

end Line

/-! ## Two boards -/

/-- The strobes of all reports, one after the other. -/
def strobe (P C m : Nat) : Nat := strobeAt P C (m / 6) (m % 6)

/-- The bytes of all reports. -/
def sentByte (P C : Nat) (w : Nat → BitVec 48) (m : Nat) : BitVec 8 :=
  reportByte (report w (strobeAt P C (m / 6) 0)) (m % 6)

theorem strobe_eq (P C j : Nat) {i : Nat} (hi : i ≤ 5) : strobeAt P C j i = strobe P C (6 * j + i) := by
  unfold strobe
  rw [Nat.mul_add_div (by decide), Nat.div_eq_of_lt (by omega), Nat.mul_add_mod, Nat.mod_eq_of_lt (by omega),
    Nat.add_zero]

theorem strobe_succ (P C m : Nat) : strobe P C m + (10 * C + 3) ≤ strobe P C (m + 1) := by
  unfold strobe
  by_cases h : m % 6 = 5
  · have hdiv : (m + 1) / 6 = m / 6 + 1 ∧ (m + 1) % 6 = 0 := by omega
    rw [hdiv.1, hdiv.2, h, strobeAt_report]
    exact Nat.le_add_right _ _
  · have hdiv : (m + 1) / 6 = m / 6 ∧ (m + 1) % 6 = m % 6 + 1 := by omega
    rw [hdiv.1, hdiv.2, strobeAt_byte]

theorem strobe_mono (P C : Nat) : Monotone (strobe P C) :=
  monotone_nat_of_le_succ fun m => Nat.le_trans (Nat.le_add_right _ _) (strobe_succ P C m)

section Boards
variable {p q u : Nat} {w : Nat → Inputs} {s : Nat → Regs num_blocks}

/-- The line of a board over time, a cycle of its clock being `p` units. -/
def wave (s : Nat → Regs num_blocks) (p x : Nat) : Bool := (s (x / p)).usb_rs232_txd

theorem txd_eq (hs : Follows (step P C) w s) (h0 : s 0 = powerUp) (n : Nat) :
    (s (n + 1)).usb_rs232_txd = tx P C (fun t => (w t).periodic_send_data) n := by
  have hsender := (sender_follows hs).eq_after n
  rw [h0] at hsender
  rw [hs n, step]
  exact congrArg (fun r => r.uart_serial_tx.o_TX_Serial) hsender

/-- The line of a board carries its reports. -/
theorem wave_sent (hP : 0 < P) (hC : 0 < C) (hp : 0 < p) (hs : Follows (step P C) w s) (h0 : s 0 = powerUp)
    (N : Nat) :
    Sent (C * p) (wave s p) (2 * p) (fun m => p * (strobe P C m + 3))
      (sentByte P C fun t => (w t).periodic_send_data) N := by
  -- a unit in which no byte is out
  have hhigh {x : Nat} (hx : 2 * p ≤ x)
      (h : ∀ m, strobe P C m + 2 < x / p → strobe P C m + 10 * C + 2 < x / p) : wave s p x = true := by
    obtain ⟨n, hn⟩ : ∃ n, x / p = n + 2 := ⟨x / p - 2, by have := (Nat.le_div_iff_mul_le hp).2 hx; omega⟩
    rw [wave, hn, txd_eq hs h0]
    apply tx_rest hP hC
    intro j i hi hlt
    rw [strobe_eq P C j hi] at hlt ⊢
    have := h (6 * j + i)
    omega
  constructor
  · intro x h1 h2
    have hx : x / p < strobe P C 0 + 3 := Nat.div_lt_of_lt_mul h2
    refine hhigh h1 fun m hm => ?_
    have := strobe_mono P C (Nat.zero_le m)
    omega
  · intro m _ k hk o ho
    have hcycle : (p * (strobe P C m + 3) + k * (C * p) + o) / p = strobe P C m + 2 + k * C + o / p + 1 := by
      rw [show p * (strobe P C m + 3) + k * (C * p) + o = p * (strobe P C m + 3 + k * C) + o by ring,
        Nat.mul_add_div hp]
      omega
    rw [wave, hcycle, txd_eq hs h0]
    exact tx_bit hP hC (by omega) hk (Nat.div_lt_of_lt_mul (Nat.mul_comm C p ▸ ho))
  · intro m _ x h1 h2
    have hx : x / p < strobe P C (m + 1) + 3 := Nat.div_lt_of_lt_mul h2
    have hx' : strobe P C m + 3 + 10 * C ≤ x / p := by
      rw [Nat.le_div_iff_mul_le hp]
      refine Nat.le_trans (Nat.le_of_eq ?_) h1
      ring
    refine hhigh ?_ fun m' hm' => ?_
    · exact Nat.le_trans (Nat.mul_le_mul_right p (by omega)) (Nat.div_mul_le_self x p)
    · rcases Nat.lt_or_ge m m' with h | h
      · have := strobe_mono P C (show m + 1 ≤ m' from h)
        omega
      · have := strobe_mono P C h
        omega
  · intro m _
    have hspaced := strobe_succ P C m
    refine Nat.le_trans (Nat.le_of_eq ?_) (Nat.mul_le_mul_left p (by omega : strobe P C m + 3 + 10 * C ≤ _))
    ring

/-- Every byte of every report of one board is strobed in the other, in order
and once, if their clocks differ by no more than the receiver tolerates and the
second board waits for a bit time before the first report. -/
theorem boards_linked (hP : 0 < P) (hC : 13 ≤ C) (hp : 0 < p) (hq : 0 < q) (ht : Tolerated C (C * p) q)
    (w w' : Nat → Inputs) (hlink : ∀ t, (w' t).usb_rs232_rxd =
      sampled q u (wave (after (step P C) (powerUp : Regs num_blocks) w) p) t)
    (hu : q * C + u ≤ p * (strobe P C 0 + 3)) (n : Nat) :
    bytesBefore (fun t => (after (step P C) (powerUp : Regs num_blocks) w' t).receiver)
        (firstCycle q u (p * (strobe P C n + 3)) + 4) =
      (List.range n).map (sentByte P C fun t => (w t).periodic_send_data) := by
  have hsent := wave_sent (s := after (step P C) (powerUp : Regs num_blocks) w) hP (by omega) hp after_follows rfl n
  have hfollows := receiver_follows (s := after (step P C) (powerUp : Regs num_blocks) w') after_follows
  rw [funext hlink] at hfollows
  have hquiet : 2 * p ≤ q * (half C - 4) + u := by
    have hhalf := mul_half_le C q
    have hslow := ht.slow
    rw [Nat.mul_add, Nat.mul_left_comm q 8 C] at hslow
    have hq3 : 2 * p ≤ q * 3 := by
      apply Nat.le_of_mul_le_mul_left (c := C) _ (by omega)
      rw [Nat.mul_left_comm C 2, ← Nat.mul_assoc C q, Nat.mul_comm C q]
      have hCq : q * 13 ≤ q * C := Nat.mul_le_mul_left q hC
      omega
    have h3 : q * 3 ≤ q * (half C - 4) := by
      apply Nat.mul_le_mul_left
      unfold half
      omega
    omega
  exact (sent_received (by omega) hq ht hfollows rfl hsent hquiet hu (Nat.le_refl n)).2

end Boards

/-- The report `01` to `06`, again and again. -/
def counting (_ : Nat) : Inputs := ⟨true, 0x060504030201⟩

/-- The line of such a board, as one with a clock 1% slower sees it. -/
def listening (t : Nat) : Inputs :=
  ⟨sampled 101 0 (wave (after (step 10000000 435) (powerUp : Regs 1) counting) 100) t, 0⟩

theorem counting_received :
    bytesBefore (fun t => (after (step 10000000 435) (powerUp : Regs 1) listening t).receiver)
        (firstCycle 101 0 (100 * (strobe 10000000 435 6 + 3)) + 4) = [1, 2, 3, 4, 5, 6] :=
  (boards_linked (by decide) (by decide) (by decide) (by decide) ⟨by decide, by decide⟩ counting listening
    (fun _ => rfl) (by decide) 6).trans (by decide)

end DinoLight.UartTop
