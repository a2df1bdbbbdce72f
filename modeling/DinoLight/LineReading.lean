import DinoLight.SerialLink
/-!
# Reading a line

`UART_RX` looks at the line while it waits for a byte, half a bit after a fall,
and then once in each bit. A line is readable if it is right in those cycles,
whatever it does in the others; a fall that is over half a bit later is dropped.
-/
open Clocked Vectors

namespace DinoLight.LineReading
open UartRx (Idle)
open SerialLink (Regs step powerUp bytesBefore controllerInputs data_late uart_follows)
open UartRxController (received received_silent received_succ strobe)

/-- The cycles from a fall to the check of the start bit. -/
def half (C : Nat) : Nat := 1 + (C - 1) / 2

/-- The cycles from the fall of a byte to the next in which the receiver is idle. -/
def busy (C : Nat) : Nat := half C + 9 * C + 2

/-- What the receiver makes of a fall in cycle `T`. -/
def readByte (C : Nat) (line : Nat → Bool) (T : Nat) : BitVec 8 :=
  ofDownto 8 fun k => line (T + half C + (k + 1) * C)

/-- Between `t` and `u` every fall is over half a bit later, and before `u`. -/
def Quiet (C : Nat) (line : Nat → Bool) (t u : Nat) : Prop :=
  ∀ v, t ≤ v → v < u → line v = false → line (v + half C) = true ∧ v + half C < u

/-- The bytes `b` are on the line, byte `i` from its fall in cycle `fall i`. -/
structure Readable (C : Nat) (line : Nat → Bool) (fall : Nat → Nat) (b : Nat → BitVec 8) (N : Nat) : Prop where
  start : ∀ i < N, line (fall i) = false
  low : ∀ i < N, line (fall i + half C) = false
  data : ∀ i < N, ∀ k < 8, line (fall i + half C + (k + 1) * C) = (b i).getLsbD k
  apart : ∀ i < N, fall i + busy C ≤ fall (i + 1)
  rest : ∀ i < N, Quiet C line (fall i + busy C) (fall (i + 1))

variable {num_blocks C : Nat} {line : Nat → Bool} {s : Nat → Regs num_blocks}

theorem quiet_of_high {t u : Nat} (h : ∀ v, t ≤ v → v < u → line v = true) : Quiet C line t u := by
  intro v h1 h2 hv
  rw [h v h1 h2] at hv
  cases hv

/-! ## A false start -/

theorem false_start (hs : Follows (step C) line s) {t : Nat} (h : Idle (s t).uart_serial_rx)
    (hlow : (s t).uart_serial_rx.r_RX_Data = false) (hhigh : (s (t + half C)).uart_serial_rx.r_RX_Data = true) :
    Idle (s (t + half C + 1)).uart_serial_rx ∧ bytesBefore s (t + half C + 1) = bytesBefore s t := by
  have hu := uart_follows hs
  have hstart := UartRx.idle_low (C := C) h hlow (s t).rx
  rw [← hu t] at hstart
  unfold half at hhigh ⊢
  rw [← Nat.add_assoc] at hhigh ⊢
  have hend := UartRx.start_false (UartRx.counting_run hu hstart (Nat.le_refl _)) hhigh (s (t + 1 + (C - 1) / 2)).rx
  rw [← hu] at hend
  refine ⟨hend, received_silent (by omega) fun v h1 h2 => ?_⟩
  rcases Nat.eq_or_lt_of_le h1 with rfl | h1
  · exact h.quiet
  · exact UartRx.counting_quiet hu hstart h1 (Nat.le_of_lt_succ h2)

/-- The receiver powers up in a false start of its own. -/
theorem powerUp_idle (hC : 7 ≤ C) (hs : Follows (step C) line s) (h0 : s 0 = powerUp)
    (hhigh : line (half C - 4) = true) :
    Idle (s (half C + 1)).uart_serial_rx ∧ bytesBefore s (half C + 1) = [] := by
  have hhalf : 4 ≤ half C := by
    unfold half
    omega
  have hidle : Idle (s 0).uart_serial_rx := by
    rw [h0]
    exact ⟨rfl, rfl⟩
  have hdata : (s (0 + half C)).uart_serial_rx.r_RX_Data = true := by
    rw [Nat.zero_add, data_late hs hhalf, hhigh]
  have h := false_start hs hidle (by rw [h0]; rfl) hdata
  rwa [Nat.zero_add] at h

/-- Noise leaves the receiver idle and strobes nothing. -/
theorem idle_through (hs : Follows (step C) line s) {t u : Nat} (htu : t ≤ u) (h : Idle (s (t + 4)).uart_serial_rx)
    (hquiet : Quiet C line t u) :
    Idle (s (u + 4)).uart_serial_rx ∧ bytesBefore s (u + 4) = bytesBefore s (t + 4) := by
  induction hn : u - t using Nat.strong_induction_on generalizing t with
  | _ n ih =>
    rcases Nat.eq_or_lt_of_le htu with rfl | hlt
    · exact ⟨h, rfl⟩
    have hdata (v : Nat) : (s (v + 4)).uart_serial_rx.r_RX_Data = line v := data_late hs (Nat.le_add_left 4 v)
    -- from the next cycle in which the receiver is idle, by induction
    have hgo {t' : Nat} (h1 : t < t') (h2 : t' ≤ u) (hidle : Idle (s (t' + 4)).uart_serial_rx)
        (hsame : bytesBefore s (t' + 4) = bytesBefore s (t + 4)) :
        Idle (s (u + 4)).uart_serial_rx ∧ bytesBefore s (u + 4) = bytesBefore s (t + 4) := by
      rw [← hsame]
      exact ih (u - t') (by omega) h2 hidle (fun v hv => hquiet v (by omega)) rfl
    cases hline : line t with
    | true =>
      apply hgo (Nat.lt_succ_self t) hlt
      · have hidle := UartRx.idle_high (C := C) h ((hdata t).trans hline) (s (t + 4)).rx
        rw [← uart_follows hs] at hidle
        rwa [Nat.succ_add]
      · apply received_silent (Nat.add_le_add_right (Nat.le_succ t) 4)
        intro v h1 h2
        obtain rfl : v = t + 4 := by omega
        exact h.quiet
    | false =>
      obtain ⟨hhigh, hend⟩ := hquiet t (Nat.le_refl t) hlt hline
      obtain ⟨hidle, hsame⟩ := false_start hs h ((hdata t).trans hline)
        (by rw [Nat.add_right_comm, hdata, hhigh])
      have heq : t + half C + 1 + 4 = t + 4 + half C + 1 := by omega
      exact hgo (by omega : t < t + half C + 1) hend (heq ▸ hidle) (heq ▸ hsame)

/-- A high line leads from power-up to a receiver that waits for a byte. -/
theorem ready (hC : 7 ≤ C) (hs : Follows (step C) line s) (h0 : s 0 = powerUp) {T : Nat} (hT : C ≤ T)
    (hhigh : ∀ v, half C - 4 ≤ v → v < T → line v = true) :
    Idle (s (T + 4)).uart_serial_rx ∧ bytesBefore s (T + 4) = [] := by
  have hhalf : 4 ≤ half C ∧ half C ≤ C := by
    unfold half
    omega
  obtain ⟨hidle, hnil⟩ := powerUp_idle hC hs h0 (hhigh _ (Nat.le_refl _) (by omega))
  have heq : half C + 1 = half C - 3 + 4 := by omega
  rw [heq] at hidle hnil
  obtain ⟨hidle', hsame⟩ := idle_through hs (u := T) (by omega) hidle
    (quiet_of_high fun v h1 h2 => hhigh v (by omega) h2)
  exact ⟨hidle', hsame.trans hnil⟩

/-! ## Bytes -/

/-- A fall that lasts is one strobe, of whatever the line shows. -/
theorem byte_read (hC : 0 < C) (hs : Follows (step C) line s) {T : Nat} (h : Idle (s (T + 4)).uart_serial_rx)
    (hfall : line T = false) (hlow : line (T + half C) = false) :
    Idle (s (T + busy C + 4)).uart_serial_rx ∧
      bytesBefore s (T + busy C + 4) = bytesBefore s (T + 4) ++ [readByte C line T] := by
  have hdata {t u : Nat} (heq : t = u + 4) : (s t).uart_serial_rx.r_RX_Data = line u := by
    rw [heq]
    exact data_late hs (Nat.le_add_left 4 u)
  have hbits (k : Nat) (hk : k < 8) :
      (s (T + 4 + 1 + (C - 1) / 2 + 1 + k * C + (C - 1))).uart_serial_rx.r_RX_Data =
        (readByte C line T).getLsbD k := by
    rw [readByte, getLsbD_ofDownto _ hk]
    apply hdata
    rw [Nat.succ_mul, half]
    omega
  obtain ⟨hquiet, hdv, hbyte, hidle⟩ := UartRx.byte_run hC (uart_follows hs) h (hdata rfl ▸ hfall)
    ((hdata (by rw [half]; omega)).trans hlow) hbits
  have hend : T + busy C + 4 = T + 4 + 1 + (C - 1) / 2 + 1 + 9 * C + 1 := by
    rw [busy, half]
    omega
  rw [hend]
  refine ⟨hidle, ?_⟩
  have hsilent := received_silent (w := fun t => controllerInputs (s t)) (by omega) hquiet
  rw [bytesBefore, received_succ, hsilent, strobe]
  simp only [controllerInputs, hdv, hbyte, if_true]
  rfl

theorem readByte_eq {T : Nat} {b : BitVec 8} (h : ∀ k < 8, line (T + half C + (k + 1) * C) = b.getLsbD k) :
    readByte C line T = b := by
  apply BitVec.eq_of_getLsbD_eq
  intro k hk
  rw [readByte, getLsbD_ofDownto _ hk, h k hk]

/-- An idle receiver reads every byte of a readable line, in order. -/
theorem bytes_read (hC : 0 < C) (hs : Follows (step C) line s) {t N : Nat} {fall : Nat → Nat} {b : Nat → BitVec 8}
    (h : Idle (s (t + 4)).uart_serial_rx) (ht : t ≤ fall 0) (hquiet : Quiet C line t (fall 0))
    (hr : Readable C line fall b N) {n : Nat} (hn : n ≤ N) :
    Idle (s (fall n + 4)).uart_serial_rx ∧
      bytesBefore s (fall n + 4) = bytesBefore s (t + 4) ++ (List.range n).map b := by
  induction n with
  | zero =>
    rw [List.range_zero, List.map_nil, List.append_nil]
    exact idle_through hs ht h hquiet
  | succ n ih =>
    obtain ⟨hidle, hbytes⟩ := ih (Nat.le_of_succ_le hn)
    obtain ⟨hidle', hbyte⟩ := byte_read hC hs hidle (hr.start n hn) (hr.low n hn)
    obtain ⟨hidle'', hsame⟩ := idle_through hs (hr.apart n hn) hidle' (hr.rest n hn)
    refine ⟨hidle'', ?_⟩
    rw [hsame, hbyte, hbytes, readByte_eq (hr.data n hn), List.range_succ, List.map_append, List.append_assoc]
    rfl

end DinoLight.LineReading
