import DinoLight.CommandFrames
import DinoLight.UartRx
import Mathlib.Data.List.GetD
/-!
# The serial link

`uart_top` from the line to the registers: two deglitch flip-flops, the
receiver, and the controller. The line carries bytes as the test bench writes
them; the receiver's state machine sees it four cycles late. `received_run`
follows the line byte by byte: each byte finds the receiver idle and leaves it
idle before the next one.
-/
open Clocked

namespace DinoLight.SerialLink
open UartRx (Idle Counting)
open UartRxController (accepts received strobe Spaced)
open CommandParser CommandFrames

structure Regs (num_blocks : Nat) where
  rx_sync : Bool
  rx : Bool
  uart_serial_rx : UartRx.Regs
  rx_controller : UartRxController.Regs num_blocks

variable {num_blocks C : Nat}

def powerUp : Regs num_blocks where
  rx_sync := false
  rx := false
  uart_serial_rx := UartRx.powerUp
  rx_controller := UartRxController.powerUp

def controllerInputs (s : Regs num_blocks) : UartRxController.Inputs where
  reset_in := false
  data_in := s.uart_serial_rx.r_RX_Byte
  data_valid := s.uart_serial_rx.r_RX_DV

/-- One rising edge of `clock`. -/
def step (clocks_per_bit : Nat) (s : Regs num_blocks) (usb_rs232_rxd : Bool) : Regs num_blocks where
  rx_sync := usb_rs232_rxd
  rx := s.rx_sync
  uart_serial_rx := UartRx.step clocks_per_bit s.uart_serial_rx s.rx
  rx_controller := UartRxController.step s.rx_controller (controllerInputs s)

/-! ## The line -/

/-- The bits of a byte on the line: start bit, data from the least significant bit, stop bit. -/
def wireBits (b : BitVec 8) : List Bool := false :: (List.range 8).map b.getLsbD ++ [true]

/-- `UART_WRITE_BYTE` -/
def writeByte (C : Nat) (b : BitVec 8) : List Bool := (wireBits b).flatMap (List.replicate C)

/-- Bytes, each after a number of extra high cycles. -/
def transmit (C : Nat) (sent : List (Nat × BitVec 8)) : List Bool :=
  sent.flatMap fun p => List.replicate p.1 true ++ writeByte C p.2

/-- From cycle `T` on the line carries `sent`, and rests high. -/
def Carries (C : Nat) (line : Nat → Bool) (T : Nat) (sent : List (Nat × BitVec 8)) : Prop :=
  ∀ i, line (T + i) = (transmit C sent).getD i true

theorem getD_spread (bits rest : List Bool) {k o : Nat} (hk : k < bits.length) (ho : o < C) :
    (bits.flatMap (List.replicate C) ++ rest).getD (k * C + o) true = bits.getD k true := by
  induction bits generalizing k with
  | nil => simp at hk
  | cons b bits ih =>
    rw [List.flatMap_cons, List.append_assoc]
    rcases k with _ | k
    · rw [List.getD_append _ _ _ _ (by simpa using ho)]
      simp [List.getD_eq_getElem?_getD, ho]
    · rw [List.getD_append_right _ _ _ _ (by simp [Nat.succ_mul]; omega), List.length_replicate,
        show (k + 1) * C + o - C = k * C + o by rw [Nat.succ_mul]; omega]
      exact ih (by simpa using hk)

theorem length_writeByte (b : BitVec 8) : (writeByte C b).length = 10 * C := by
  have h (bits : List Bool) : (bits.flatMap (List.replicate C)).length = bits.length * C := by
    induction bits with
    | nil => simp
    | cons b bits ih =>
      rw [List.flatMap_cons, List.length_append, ih, List.length_replicate, List.length_cons, Nat.succ_mul,
        Nat.add_comm]
  rw [writeByte, h]
  simp [wireBits]

section Line
variable {line : Nat → Bool} {T g t : Nat} {b : BitVec 8} {more : List (Nat × BitVec 8)}

theorem Carries.gap (h : Carries C line T ((g, b) :: more)) (h1 : T ≤ t) (h2 : t < T + g) : line t = true := by
  obtain ⟨i, rfl⟩ := Nat.exists_eq_add_of_le h1
  have hi : i < g := Nat.lt_of_add_lt_add_left h2
  rw [h, transmit, List.flatMap_cons, List.append_assoc, List.getD_append _ _ _ _ (by simpa using hi)]
  simp [List.getD_eq_getElem?_getD, hi]

theorem Carries.bit (h : Carries C line T ((g, b) :: more)) {k o : Nat} (hk : k < 10) (ho : o < C)
    (ht : t = T + g + k * C + o) : line t = (wireBits b).getD k true := by
  rw [ht, Nat.add_assoc, Nat.add_assoc, h, transmit, List.flatMap_cons, List.append_assoc,
    List.getD_append_right _ _ _ _ (by simp), List.length_replicate, Nat.add_sub_cancel_left, writeByte,
    getD_spread _ _ (by simpa [wireBits] using hk) ho]

theorem Carries.stop (h : Carries C line T ((g, b) :: more)) (h1 : T + g + 9 * C ≤ t) (h2 : t < T + g + 10 * C) :
    line t = true := by
  obtain ⟨o, ho⟩ := Nat.exists_eq_add_of_le h1
  exact h.bit (by omega) (by omega) ho

theorem Carries.next (h : Carries C line T ((g, b) :: more)) : Carries C line (T + g + 10 * C) more := by
  intro i
  rw [Nat.add_assoc, Nat.add_assoc, h, transmit, List.flatMap_cons,
    List.getD_append_right _ _ _ _ (by simp [length_writeByte])]
  simp only [List.length_append, length_writeByte, List.length_replicate]
  congr 1
  omega

theorem Carries.rest (h : Carries C line T []) (ht : T ≤ t) : line t = true := by
  obtain ⟨i, rfl⟩ := Nat.exists_eq_add_of_le ht
  exact h i

end Line

/-! ## Runs -/

section Runs
variable {line : Nat → Bool} {s : Nat → Regs num_blocks}

theorem uart_follows (hs : Follows (step C) line s) :
    Follows (UartRx.step C) (fun t => (s t).rx) (fun t => (s t).uart_serial_rx) := fun t =>
  congrArg Regs.uart_serial_rx (hs t)

theorem controller_follows (hs : Follows (step C) line s) :
    Follows UartRxController.step (fun t => controllerInputs (s t)) (fun t => (s t).rx_controller) := fun t =>
  congrArg Regs.rx_controller (hs t)

/-- The state machine sees the line four cycles late. -/
theorem data_late (hs : Follows (step C) line s) {t : Nat} (ht : 4 ≤ t) :
    (s t).uart_serial_rx.r_RX_Data = line (t - 4) := by
  obtain ⟨u, rfl⟩ := Nat.exists_eq_add_of_le' ht
  rw [hs (u + 3), step, hs (u + 2), step, hs (u + 1), step, hs u]
  rfl

/-- The bytes strobed before cycle `t`. -/
def bytesBefore (s : Nat → Regs num_blocks) (t : Nat) : List (BitVec 8) :=
  received (fun t => controllerInputs (s t)) t

/-- While the line is high an idle receiver stays idle, and strobes nothing. -/
theorem idle_until (hs : Follows (step C) line s) {t u : Nat} (htu : t ≤ u) (h : Idle (s t).uart_serial_rx)
    (hd : ∀ v, t ≤ v → v < u → (s v).uart_serial_rx.r_RX_Data = true) :
    Idle (s u).uart_serial_rx ∧ bytesBefore s u = bytesBefore s t := by
  have hidle {v : Nat} (h1 : t ≤ v) (h2 : v ≤ u) : Idle (s v).uart_serial_rx :=
    UartRx.idle_run (uart_follows hs) h1 h fun x hx1 hx2 => hd x hx1 (by omega)
  refine ⟨hidle htu (Nat.le_refl u), UartRxController.received_silent htu ?_⟩
  intro v h1 h2
  exact (hidle h1 (Nat.le_of_lt h2)).quiet

/-- One byte on the line is one strobe, and leaves the receiver idle before the
next start bit reaches it. -/
theorem byte_received (hC : 7 ≤ C) (hs : Follows (step C) line s) {T g : Nat} {b : BitVec 8}
    {more : List (Nat × BitVec 8)} (hl : Carries C line T ((g, b) :: more))
    (h : Idle (s (T + g + 4)).uart_serial_rx) :
    ∃ t', T + g + 9 * C + 4 ≤ t' ∧ t' ≤ T + g + 10 * C + 4 ∧ Idle (s t').uart_serial_rx ∧
      bytesBefore s t' = bytesBefore s (T + g + 4) ++ [b] := by
  have hu := uart_follows hs
  have hfall : (s (T + g + 4)).uart_serial_rx.r_RX_Data = false := by
    rw [data_late hs (by omega)]
    exact hl.bit (k := 0) (o := 0) (by omega) (by omega) (by omega)
  have hlow : (s (T + g + 4 + 1 + (C - 1) / 2)).uart_serial_rx.r_RX_Data = false := by
    rw [data_late hs (by omega)]
    exact hl.bit (k := 0) (o := 1 + (C - 1) / 2) (by omega) (by omega) (by omega)
  -- every data bit is sampled as far into its time as the start bit
  have hbits (k : Nat) (hk : k < 8) :
      (s (T + g + 4 + 1 + (C - 1) / 2 + 1 + k * C + (C - 1))).uart_serial_rx.r_RX_Data = b.getLsbD k := by
    rw [data_late hs (by omega), hl.bit (k := k + 1) (o := 1 + (C - 1) / 2) (by omega) (by omega)
      (by rw [Nat.succ_mul]; omega), wireBits, List.cons_append, List.getD_cons_succ,
      List.getD_append _ _ _ _ (by simpa using hk)]
    simp [List.getD_eq_getElem?_getD, hk]
  obtain ⟨hquiet, hdv, hbyte, hidle⟩ := UartRx.byte_run (by omega) hu h hfall hlow hbits
  refine ⟨_, by omega, by omega, hidle, ?_⟩
  have hsilent := UartRxController.received_silent (w := fun t => controllerInputs (s t)) (by omega) hquiet
  rw [bytesBefore, UartRxController.received_succ, hsilent, strobe]
  simp only [controllerInputs, hdv, hbyte, if_true]
  rfl

/-- An idle receiver reads every byte the line carries, in order. -/
theorem received_run (hC : 7 ≤ C) (hs : Follows (step C) line s) {sent : List (Nat × BitVec 8)} {t T : Nat}
    (hl : Carries C line T sent) (h : Idle (s t).uart_serial_rx) (ht : t ≤ T + 4)
    (hd : ∀ u, t ≤ u → u < T + 4 → (s u).uart_serial_rx.r_RX_Data = true) :
    ∃ t', t' ≤ T + (transmit C sent).length + 7 ∧ Idle (s t').uart_serial_rx ∧
      bytesBefore s t' = bytesBefore s t ++ sent.map Prod.snd ∧
      ∀ u, t' ≤ u → (s u).uart_serial_rx.r_RX_Data = true := by
  induction sent generalizing t T with
  | nil =>
    refine ⟨t, by omega, h, by simp, ?_⟩
    intro u hu
    rcases Nat.lt_or_ge u (T + 4) with hlt | hge
    · exact hd u hu hlt
    · rw [data_late hs (by omega)]
      exact hl.rest (by omega)
  | cons p sent ih =>
    obtain ⟨g, b⟩ := p
    have hgap (u : Nat) (h1 : t ≤ u) (h2 : u < T + g + 4) : (s u).uart_serial_rx.r_RX_Data = true := by
      rcases Nat.lt_or_ge u (T + 4) with hlt | hge
      · exact hd u h1 hlt
      · rw [data_late hs (by omega)]
        exact hl.gap (by omega) (by omega)
    obtain ⟨hidle, hnone⟩ := idle_until hs (by omega) h hgap
    obtain ⟨t₁, h1, h2, hidle', hone⟩ := byte_received hC hs hl hidle
    have hstop (u : Nat) (hu1 : t₁ ≤ u) (hu2 : u < T + g + 10 * C + 4) : (s u).uart_serial_rx.r_RX_Data = true := by
      rw [data_late hs (by omega)]
      exact hl.stop (by omega) (by omega)
    obtain ⟨t', hle, hidle'', hall, hrest⟩ := ih hl.next hidle' h2 hstop
    have hlen : (transmit C ((g, b) :: sent)).length = g + 10 * C + (transmit C sent).length := by
      simp [transmit, length_writeByte, Nat.add_assoc]
    refine ⟨t', by omega, hidle'', ?_, hrest⟩
    rw [hall, hone, hnone]
    simp

/-- The false start bit at power-up is dropped while the line is high. -/
theorem first_idle (hC : 7 ≤ C) (hs : Follows (step C) line s) (h0 : s 0 = powerUp) {T : Nat} (hT : C ≤ T)
    (hhigh : ∀ u < T, line u = true) :
    ∃ t, 4 ≤ t ∧ t ≤ C ∧ Idle (s t).uart_serial_rx ∧ bytesBefore s t = [] := by
  have hu := uart_follows hs
  have hidle : Idle (s 0).uart_serial_rx := by rw [h0]; exact ⟨rfl, rfl⟩
  have hstart := UartRx.idle_low (C := C) hidle (by rw [h0]; rfl) (s 0).rx
  rw [← hu 0] at hstart
  have hdata : (s (0 + 1 + (C - 1) / 2)).uart_serial_rx.r_RX_Data = true := by
    rw [data_late hs (by omega)]
    exact hhigh _ (by omega)
  have hend := UartRx.start_false (UartRx.counting_run hu hstart (Nat.le_refl _)) hdata (s (0 + 1 + (C - 1) / 2)).rx
  rw [← hu] at hend
  refine ⟨_, by omega, by omega, hend, (UartRxController.received_silent (Nat.zero_le _) ?_).trans rfl⟩
  intro t _ h2
  rcases Nat.eq_zero_or_pos t with rfl | hpos
  · exact hidle.quiet
  · exact UartRx.counting_quiet hu hstart hpos (Nat.le_of_lt_succ h2)

/-- The bytes the controller takes before cycle `n`. -/
def taken (s : Nat → Regs num_blocks) (n : Nat) : List (BitVec 8) :=
  collect (fun t =>
    if accepts (s t).rx_controller (controllerInputs (s t)) then [(s t).uart_serial_rx.r_RX_Byte] else []) n

/-- The strobes of the receiver are far enough apart for the controller. -/
theorem strobes_spaced (hs : Follows (step C) line s) (h0 : s 0 = powerUp) :
    Spaced fun t => controllerInputs (s t) := by
  intro m n hm hn hlt
  have hstrobing : UartRx.Strobing (s 0).uart_serial_rx := by
    rw [h0]
    simp [UartRx.Strobing, powerUp, UartRx.powerUp]
  exact UartRx.strobes_apart (uart_follows hs) hstrobing hm hn hlt

/-- From power-up, after a high line of at least a bit time, every byte is strobed within 7
cycles of the end of its stop bit, and nothing else is. -/
theorem bytes_run (hC : 7 ≤ C) (hs : Follows (step C) line s) (h0 : s 0 = powerUp) {lead : Nat} (hlead : C ≤ lead)
    (hhigh : ∀ t < lead, line t = true) {sent : List (Nat × BitVec 8)} (hl : Carries C line lead sent) :
    (∀ n, lead + (transmit C sent).length + 7 ≤ n → bytesBefore s n = sent.map Prod.snd) ∧
      ∀ n, bytesBefore s n <+: sent.map Prod.snd := by
  obtain ⟨t, h4, htC, hidle, hnil⟩ := first_idle hC hs h0 hlead hhigh
  have hlead_high (u : Nat) (h1 : t ≤ u) (h2 : u < lead + 4) :
      (s u).uart_serial_rx.r_RX_Data = true := by
    rw [data_late hs (by omega)]
    exact hhigh _ (by omega)
  obtain ⟨t', hle, hidle', hall, hrest⟩ := received_run hC hs hl hidle (by omega) hlead_high
  rw [hnil, List.nil_append] at hall
  have hafter (n : Nat) (hn : t' ≤ n) : bytesBefore s n = sent.map Prod.snd :=
    (idle_until hs hn hidle' fun v h1 _ => hrest v h1).2.trans hall
  refine ⟨fun n hn => hafter n (by omega), ?_⟩
  intro n
  rw [← hafter (max n t') (Nat.le_max_right _ _)]
  exact UartRxController.received_mono _ (Nat.le_max_left _ _)

end Runs

/-- From power-up, after a high line of at least a bit time, the frames sent
over the line arrive byte by byte, and 8 cycles after the last stop bit the
registers are those of the last frame of each command. -/
theorem serial_round_trip (hN : 0 < num_blocks) (hC : 7 ≤ C) (line : Nat → Bool) {lead : Nat} (hlead : C ≤ lead)
    (hhigh : ∀ t < lead, line t = true) {sent : List (Nat × BitVec 8)} (hl : Carries C line lead sent)
    (fs : List (Frame num_blocks)) (hsent : sent.map Prod.snd = encode fs) {n : Nat}
    (hn : lead + (transmit C sent).length + 8 ≤ n) :
    let s := after (step C) (powerUp : Regs num_blocks) line
    taken s n = encode fs ∧
    registers (s n).rx_controller =
      { mode := ((lastPayload fs 0).map fun p => (p.headD 0).extractLsb' 0 2).getD 0
        block_counts := (lastPayload fs 1).getD (List.replicate num_blocks 0)
        custom_block_values := (lastPayload fs 2).getD (List.replicate (3 * num_blocks) 0) } := by
  intro s
  have hs : Follows (step C) line s := after_follows
  have hc := controller_follows hs
  obtain ⟨hbytes, hprefix⟩ := bytes_run hC hs rfl hlead hhigh hl
  rw [hsent] at hbytes hprefix
  have hspaced := strobes_spaced hs rfl
  have hstart : parserOf (s 0).rx_controller = Parser.start num_blocks := by
    simp [s, parserOf, registers, Parser.start, powerUp, UartRxController.powerUp]
  constructor
  · have htaken : taken s n = bytesBefore s n := by
      simp only [taken, accepts_run hc rfl (fun _ => rfl) hspaced]
      rfl
    rw [htaken, hbytes n (by omega)]
  · obtain ⟨m, rfl⟩ : ∃ m, n = m + 1 := ⟨n - 1, by omega⟩
    have hknown : KnownCommands num_blocks (parserOf (s 0).rx_controller) fun t => controllerInputs (s t) :=
      stream_known hN hprefix _
    rw [registers_run hN hc powerUp_atRest (fun _ => rfl) hspaced hknown m, hstart]
    have hall : received (fun t => controllerInputs (s t)) m = encode fs := hbytes m (by omega)
    rw [hall, Parser.start, run_encode hN, writeAll_last]

/-- The frame `00 03` at 7 cycles a bit, with 2 cycles between its bytes. -/
def modeLine (t : Nat) : Bool := if t < 7 then true else (transmit 7 [(0, 0), (2, 3)]).getD (t - 7) true

theorem mode_line_received :
    registers (after (step 7) (powerUp : Regs 1) modeLine 157).rx_controller = ⟨3, [0], [0, 0, 0]⟩ :=
  have hl : Carries 7 modeLine 7 [(0, 0), (2, 3)] := fun i => by simp [modeLine]
  have hhigh : ∀ t < 7, modeLine t = true := fun t ht => by simp [modeLine, ht]
  (serial_round_trip Nat.one_pos (Nat.le_refl 7) modeLine (Nat.le_refl 7) hhigh hl [⟨0, [3], by decide, rfl⟩] rfl
    (by simp [transmit, length_writeByte])).2

end DinoLight.SerialLink
