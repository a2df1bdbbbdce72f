import DinoLight.Lib.Clocked
import DinoLight.Lib.Vectors
/-!
# `UART_RX`

The receiver waits for a falling line, checks it again half a bit later, and
then samples every bit once, a bit time apart. `byte_run` is its account of one
byte; the stop bit is waited for and not looked at.
-/
open Clocked Vectors

namespace DinoLight.UartRx

inductive SM_Main where
  | s_Idle | s_RX_Start_Bit | s_RX_Data_Bits | s_RX_Stop_Bit | s_Cleanup
  deriving DecidableEq, Repr

structure Regs where
  r_SM_Main : SM_Main
  r_RX_Data_R : Bool
  r_RX_Data : Bool
  r_Clk_Count : Nat
  r_Bit_Index : Nat
  r_RX_Byte : BitVec 8
  r_RX_DV : Bool
  deriving DecidableEq

def powerUp : Regs where
  r_SM_Main := .s_Idle
  r_RX_Data_R := false
  r_RX_Data := false
  r_Clk_Count := 0
  r_Bit_Index := 0
  r_RX_Byte := 0
  r_RX_DV := false

/-- `r_RX_Byte(i) <= b` -/
def setBit (v : BitVec 8) (i : Nat) (b : Bool) : BitVec 8 := ofDownto 8 fun j => if j = i then b else v.getLsbD j

/-- The process `p_UART_RX`. -/
def p_UART_RX (g_CLKS_PER_BIT : Nat) (s : Regs) : Regs :=
  match s.r_SM_Main with
  | .s_Idle =>
    { s with
      r_RX_DV := false, r_Clk_Count := 0, r_Bit_Index := 0
      r_SM_Main := if s.r_RX_Data = false then .s_RX_Start_Bit else .s_Idle }
  | .s_RX_Start_Bit =>
    if s.r_Clk_Count = (g_CLKS_PER_BIT - 1) / 2 then
      if s.r_RX_Data = false then { s with r_Clk_Count := 0, r_SM_Main := .s_RX_Data_Bits }
      else { s with r_SM_Main := .s_Idle } -- high again: no start bit
    else { s with r_Clk_Count := s.r_Clk_Count + 1, r_SM_Main := .s_RX_Start_Bit }
  | .s_RX_Data_Bits =>
    if s.r_Clk_Count < g_CLKS_PER_BIT - 1 then
      { s with r_Clk_Count := s.r_Clk_Count + 1, r_SM_Main := .s_RX_Data_Bits }
    else
      let s := { s with r_Clk_Count := 0, r_RX_Byte := setBit s.r_RX_Byte s.r_Bit_Index s.r_RX_Data }
      if s.r_Bit_Index < 7 then { s with r_Bit_Index := s.r_Bit_Index + 1, r_SM_Main := .s_RX_Data_Bits }
      else { s with r_Bit_Index := 0, r_SM_Main := .s_RX_Stop_Bit }
  | .s_RX_Stop_Bit =>
    if s.r_Clk_Count < g_CLKS_PER_BIT - 1 then
      { s with r_Clk_Count := s.r_Clk_Count + 1, r_SM_Main := .s_RX_Stop_Bit }
    else { s with r_RX_DV := true, r_Clk_Count := 0, r_SM_Main := .s_Cleanup }
  | .s_Cleanup => { s with r_SM_Main := .s_Idle, r_RX_DV := false }

/-- One rising edge of `i_Clk`: `p_UART_RX` and `p_SAMPLE`. -/
def step (g_CLKS_PER_BIT : Nat) (s : Regs) (i_RX_Serial : Bool) : Regs :=
  { p_UART_RX g_CLKS_PER_BIT s with r_RX_Data_R := i_RX_Serial, r_RX_Data := s.r_RX_Data_R }

/-! ## States -/

/-- Between bytes. -/
structure Idle (s : Regs) : Prop where
  state : s.r_SM_Main = .s_Idle
  quiet : s.r_RX_DV = false

/-- Waiting in `st` for `count` cycles so far, with the byte `v` read up to bit `i`. -/
structure Counting (s : Regs) (st : SM_Main) (i count : Nat) (v : BitVec 8) : Prop where
  state : s.r_SM_Main = st
  index : s.r_Bit_Index = i
  count : s.r_Clk_Count = count
  byte : s.r_RX_Byte = v
  quiet : s.r_RX_DV = false

/-- How long a state counts. -/
def limit (C : Nat) : SM_Main → Nat
  | .s_RX_Start_Bit => (C - 1) / 2
  | .s_RX_Data_Bits | .s_RX_Stop_Bit => C - 1
  | .s_Idle | .s_Cleanup => 0

variable {C : Nat}

theorem setBit_get (v : BitVec 8) (i : Nat) (b : Bool) {j : Nat} (hj : j < 8) :
    (setBit v i b).getLsbD j = if j = i then b else v.getLsbD j := getLsbD_ofDownto _ hj

theorem idle_high {s : Regs} (h : Idle s) (hd : s.r_RX_Data = true) (i : Bool) : Idle (step C s i) := by
  constructor <;> simp [step, p_UART_RX, h.state, hd]

theorem idle_low {s : Regs} (h : Idle s) (hd : s.r_RX_Data = false) (i : Bool) :
    Counting (step C s i) .s_RX_Start_Bit 0 0 s.r_RX_Byte := by
  constructor <;> simp [step, p_UART_RX, h.state, hd]

theorem counting_step {s : Regs} {st : SM_Main} {i count : Nat} {v : BitVec 8} (h : Counting s st i count v)
    (hc : count < limit C st) (d : Bool) : Counting (step C s d) st i (count + 1) v := by
  obtain ⟨rfl, rfl, rfl, rfl, hq⟩ := h
  cases hst : s.r_SM_Main <;> simp only [hst, limit] at hc
  case s_RX_Start_Bit =>
    constructor <;> simp [step, p_UART_RX, hst, Nat.ne_of_lt hc, hq]
  case s_RX_Data_Bits | s_RX_Stop_Bit => constructor <;> simp [step, p_UART_RX, hst, hc, hq]
  all_goals exact absurd hc (Nat.not_lt_zero _)

theorem start_end {s : Regs} {i : Nat} {v : BitVec 8} (h : Counting s .s_RX_Start_Bit i ((C - 1) / 2) v)
    (hd : s.r_RX_Data = false) (d : Bool) : Counting (step C s d) .s_RX_Data_Bits i 0 v := by
  constructor <;> simp [step, p_UART_RX, h.state, h.count, h.index, h.byte, h.quiet, hd]

/-- A start bit that is high half a bit later was none. -/
theorem start_false {s : Regs} {i : Nat} {v : BitVec 8} (h : Counting s .s_RX_Start_Bit i ((C - 1) / 2) v)
    (hd : s.r_RX_Data = true) (d : Bool) : Idle (step C s d) := by
  constructor <;> simp [step, p_UART_RX, h.state, h.count, h.quiet, hd]

theorem data_next {s : Regs} {i : Nat} {v : BitVec 8} (h : Counting s .s_RX_Data_Bits i (C - 1) v) (hi : i < 7)
    (d : Bool) : Counting (step C s d) .s_RX_Data_Bits (i + 1) 0 (setBit v i s.r_RX_Data) := by
  constructor <;> simp [step, p_UART_RX, h.state, h.count, h.index, h.byte, h.quiet, hi]

theorem data_end {s : Regs} {v : BitVec 8} (h : Counting s .s_RX_Data_Bits 7 (C - 1) v) (d : Bool) :
    Counting (step C s d) .s_RX_Stop_Bit 0 0 (setBit v 7 s.r_RX_Data) := by
  constructor <;> simp [step, p_UART_RX, h.state, h.count, h.index, h.byte, h.quiet]

theorem stop_end {s : Regs} {v : BitVec 8} (h : Counting s .s_RX_Stop_Bit 0 (C - 1) v) (d : Bool) :
    (step C s d).r_SM_Main = .s_Cleanup ∧ (step C s d).r_RX_DV = true ∧ (step C s d).r_RX_Byte = v := by
  simp [step, p_UART_RX, h.state, h.count, h.byte]

theorem cleanup_end {s : Regs} (h : s.r_SM_Main = .s_Cleanup) (d : Bool) : Idle (step C s d) := by
  constructor <;> simp [step, p_UART_RX, h]

/-! ## One byte -/

section Runs
variable {w : Nat → Bool} {s : Nat → Regs}

theorem counting_run (hs : Follows (step C) w s) {t : Nat} {st : SM_Main} {i : Nat} {v : BitVec 8}
    (h : Counting (s t) st i 0 v) {k : Nat} (hk : k ≤ limit C st) : Counting (s (t + k)) st i k v := by
  induction k with
  | zero => exact h
  | succ k ih =>
    rw [← Nat.add_assoc, hs]
    exact counting_step (ih (by omega)) (by omega) _

theorem counting_quiet (hs : Follows (step C) w s) {t : Nat} {st : SM_Main} {i : Nat} {v : BitVec 8}
    (h : Counting (s t) st i 0 v) {u : Nat} (h1 : t ≤ u) (h2 : u ≤ t + limit C st) : (s u).r_RX_DV = false := by
  obtain ⟨k, rfl⟩ := Nat.exists_eq_add_of_le h1
  exact (counting_run hs h (by omega)).quiet

/-- The states that read a bit count for a bit time. -/
theorem bit_time (hC : 0 < C) (hs : Follows (step C) w s) {t : Nat} {st : SM_Main} (hst : limit C st = C - 1)
    {i : Nat} {v : BitVec 8} (h : Counting (s t) st i 0 v) :
    Counting (s (t + (C - 1))) st i (C - 1) v ∧ s (t + C) = step C (s (t + (C - 1))) (w (t + (C - 1))) ∧
      ∀ u, t ≤ u → u < t + C → (s u).r_RX_DV = false := by
  refine ⟨counting_run hs h (Nat.le_of_eq hst.symm), ?_, fun u h1 h2 => counting_quiet hs h h1 (by omega)⟩
  rw [← hs, Nat.add_assoc, Nat.sub_add_cancel hC]

theorem idle_run (hs : Follows (step C) w s) {t u : Nat} (htu : t ≤ u) (h : Idle (s t))
    (hd : ∀ v, t ≤ v → v < u → (s v).r_RX_Data = true) : Idle (s u) := by
  induction u, htu using Nat.le_induction with
  | base => exact h
  | succ u htu ih =>
    rw [hs]
    exact idle_high (ih fun v h1 h2 => hd v h1 (Nat.lt_succ_of_lt h2)) (hd u htu (Nat.lt_succ_self u)) _

/-- After `m` bit times the first `m` bits are read, each sampled at the end of its time. -/
theorem data_run (hC : 0 < C) (hs : Follows (step C) w s) {t : Nat} {v₀ : BitVec 8}
    (h : Counting (s t) .s_RX_Data_Bits 0 0 v₀) {m : Nat} (hm : m ≤ 7) :
    ∃ v, Counting (s (t + m * C)) .s_RX_Data_Bits m 0 v ∧
      (∀ j < m, v.getLsbD j = (s (t + j * C + (C - 1))).r_RX_Data) ∧
      ∀ u, t ≤ u → u < t + m * C → (s u).r_RX_DV = false := by
  induction m with
  | zero => exact ⟨v₀, by simpa using h, by simp, fun u h1 h2 => by omega⟩
  | succ m ih =>
    obtain ⟨v, hv, hbits, hquiet⟩ := ih (by omega)
    obtain ⟨hlast, hnext, hquiet'⟩ := bit_time hC hs rfl hv
    rw [Nat.succ_mul, ← Nat.add_assoc]
    refine ⟨_, hnext ▸ data_next hlast (by omega) _, ?_, ?_⟩
    · intro j hj
      rw [setBit_get _ _ _ (by omega)]
      split
      case isTrue h => rw [h]
      case isFalse h => exact hbits j (by omega)
    · intro u h1 h2
      rcases Nat.lt_or_ge u (t + m * C) with hu | hu
      · exact hquiet u h1 hu
      · exact hquiet' u hu h2

/-- A start bit at `t` and the samples of `b` after it end in one strobe of `b`,
nine bit times after the start bit was checked. -/
theorem byte_run (hC : 0 < C) (hs : Follows (step C) w s) {t : Nat} {b : BitVec 8} (h : Idle (s t))
    (hfall : (s t).r_RX_Data = false) (hlow : (s (t + 1 + (C - 1) / 2)).r_RX_Data = false)
    (hbits : ∀ k < 8, (s (t + 1 + (C - 1) / 2 + 1 + k * C + (C - 1))).r_RX_Data = b.getLsbD k) :
    let t' := t + 1 + (C - 1) / 2 + 1 + 9 * C
    (∀ u, t ≤ u → u < t' → (s u).r_RX_DV = false) ∧ (s t').r_RX_DV = true ∧ (s t').r_RX_Byte = b ∧
      Idle (s (t' + 1)) := by
  intro t'
  have hstart := idle_low (C := C) h hfall (w t)
  rw [← hs] at hstart
  have hdata := start_end (counting_run hs hstart (Nat.le_refl _)) hlow (w (t + 1 + (C - 1) / 2))
  rw [← hs] at hdata
  obtain ⟨v, hv, hread, hquiet⟩ := data_run hC hs hdata (Nat.le_refl 7)
  obtain ⟨hlast, hnext, hquiet7⟩ := bit_time hC hs rfl hv
  have hstop := data_end hlast (w (t + 1 + (C - 1) / 2 + 1 + 7 * C + (C - 1)))
  rw [← hnext] at hstop
  obtain ⟨hlast', hnext', hquiet8⟩ := bit_time hC hs rfl hstop
  obtain ⟨hclean, hdv, hbyte⟩ := stop_end hlast' (w (t + 1 + (C - 1) / 2 + 1 + 7 * C + C + (C - 1)))
  have ht' : t + 1 + (C - 1) / 2 + 1 + 7 * C + C + C = t' := by omega
  rw [← hnext', ht'] at hclean hdv hbyte
  have hidle := cleanup_end hclean (C := C) (w t')
  rw [← hs] at hidle
  refine ⟨?_, hdv, ?_, hidle⟩
  · -- the states from the start bit to the stop bit count, and strobe nothing
    intro u h1 h2
    rcases Nat.eq_or_lt_of_le h1 with rfl | h1
    · exact h.quiet
    rcases Nat.lt_or_ge u (t + 1 + (C - 1) / 2 + 1) with hu | hu
    · exact counting_quiet hs hstart h1 (Nat.le_of_lt_succ hu)
    rcases Nat.lt_or_ge u (t + 1 + (C - 1) / 2 + 1 + 7 * C) with hu7 | hu7
    · exact hquiet u hu hu7
    rcases Nat.lt_or_ge u (t + 1 + (C - 1) / 2 + 1 + 7 * C + C) with hu8 | hu8
    · exact hquiet7 u hu7 hu8
    · exact hquiet8 u hu8 (by omega)
  · rw [hbyte]
    apply BitVec.eq_of_getLsbD_eq
    intro j hj
    rw [setBit_get _ _ _ hj]
    split
    case isTrue h => rw [h, hbits 7 (by omega)]
    case isFalse h => rw [hread j (by omega), hbits j hj]

end Runs

/-! ## Strobes -/

/-- The strobe is high in `s_Cleanup` only. -/
def Strobing (s : Regs) : Prop := s.r_RX_DV = true ↔ s.r_SM_Main = .s_Cleanup

theorem strobing_step (s : Regs) (i : Bool) (h : Strobing s) : Strobing (step C s i) := by
  unfold Strobing at h ⊢
  simp only [step, p_UART_RX]
  cases hst : s.r_SM_Main <;> simp only [hst] at h ⊢ <;> (repeat' split) <;> simp_all

/-- After a strobe the receiver is idle for a cycle at least, so that strobes
are three cycles apart. -/
theorem strobes_apart {w : Nat → Bool} {s : Nat → Regs} (hs : Follows (step C) w s) (h0 : Strobing (s 0)) {m n : Nat}
    (hm : (s m).r_RX_DV = true) (hn : (s n).r_RX_DV = true) (hlt : m < n) : m + 3 ≤ n := by
  have hinv := hs.inv h0 (strobing_step (C := C))
  have hidle := cleanup_end ((hinv m).1 hm) (C := C) (w m)
  rw [← hs] at hidle
  have hnot : (s (m + 2)).r_RX_DV = false := by
    have hstep : s (m + 2) = step C (s (m + 1)) (w (m + 1)) := hs (m + 1)
    rw [hstep]
    simp [step, p_UART_RX, hidle.state]
  by_contra hge
  rcases (show n = m + 1 ∨ n = m + 2 by omega) with rfl | rfl
  · simp [hidle.quiet] at hn
  · simp [hnot] at hn

end DinoLight.UartRx
