import DinoLight.Lib.Clocked
import DinoLight.Lib.Vectors
/-!
# `UART_TX`

The transmitter takes a byte when it is idle and then looks at nothing until
the byte is out. `Sends` says how far it is by the cycles since it took the byte.
-/
open Clocked Vectors

namespace DinoLight.UartTx

inductive SM_Main where
  | s_Idle | s_TX_Start_Bit | s_TX_Data_Bits | s_TX_Stop_Bit | s_Cleanup
  deriving DecidableEq, Repr

structure Regs where
  r_SM_Main : SM_Main
  r_Clk_Count : Nat
  r_Bit_Index : Nat
  r_TX_Data : BitVec 8
  r_TX_Done : Bool
  o_TX_Active : Bool
  o_TX_Serial : Bool
  deriving DecidableEq

structure Inputs where
  i_TX_DV : Bool
  i_TX_Byte : BitVec 8

/-- `o_TX_Active` and `o_TX_Serial` have no initial value in the source. -/
def powerUp : Regs where
  r_SM_Main := .s_Idle
  r_Clk_Count := 0
  r_Bit_Index := 0
  r_TX_Data := 0
  r_TX_Done := false
  o_TX_Active := false
  o_TX_Serial := false

/-- One rising edge of `i_Clk`. -/
def step (g_CLKS_PER_BIT : Nat) (s : Regs) (i : Inputs) : Regs :=
  match s.r_SM_Main with
  | .s_Idle =>
    let s := { s with
      o_TX_Active := false, o_TX_Serial := true, r_TX_Done := false, r_Clk_Count := 0, r_Bit_Index := 0 }
    if i.i_TX_DV then { s with r_TX_Data := i.i_TX_Byte, r_SM_Main := .s_TX_Start_Bit }
    else { s with r_SM_Main := .s_Idle }
  | .s_TX_Start_Bit =>
    let s := { s with o_TX_Active := true, o_TX_Serial := false }
    if s.r_Clk_Count < g_CLKS_PER_BIT - 1 then
      { s with r_Clk_Count := s.r_Clk_Count + 1, r_SM_Main := .s_TX_Start_Bit }
    else { s with r_Clk_Count := 0, r_SM_Main := .s_TX_Data_Bits }
  | .s_TX_Data_Bits =>
    let s := { s with o_TX_Serial := s.r_TX_Data.getLsbD s.r_Bit_Index }
    if s.r_Clk_Count < g_CLKS_PER_BIT - 1 then
      { s with r_Clk_Count := s.r_Clk_Count + 1, r_SM_Main := .s_TX_Data_Bits }
    else
      let s := { s with r_Clk_Count := 0 }
      if s.r_Bit_Index < 7 then { s with r_Bit_Index := s.r_Bit_Index + 1, r_SM_Main := .s_TX_Data_Bits }
      else { s with r_Bit_Index := 0, r_SM_Main := .s_TX_Stop_Bit }
  | .s_TX_Stop_Bit =>
    let s := { s with o_TX_Serial := true }
    if s.r_Clk_Count < g_CLKS_PER_BIT - 1 then
      { s with r_Clk_Count := s.r_Clk_Count + 1, r_SM_Main := .s_TX_Stop_Bit }
    else { s with r_TX_Done := true, r_Clk_Count := 0, r_SM_Main := .s_Cleanup }
  | .s_Cleanup => { s with o_TX_Active := false, r_TX_Done := true, r_SM_Main := .s_Idle }

/-! ## A byte -/

variable {C : Nat}

/-- Idle, with the done flag low. -/
structure Rests (s : Regs) : Prop where
  state : s.r_SM_Main = .s_Idle
  done : s.r_TX_Done = false

/-- The transmitter is `k` cycles past taking its byte. The done flag is high in
`s_Cleanup` and in the first cycle of `s_Idle`. -/
def Elapsed (C : Nat) (s : Regs) (k : Nat) : Prop :=
  match s.r_SM_Main with
  | .s_TX_Start_Bit => s.r_TX_Done = false ∧ s.r_Clk_Count < C ∧ s.r_Bit_Index = 0 ∧ k = s.r_Clk_Count + 1
  | .s_TX_Data_Bits => s.r_TX_Done = false ∧ s.r_Clk_Count < C ∧ s.r_Bit_Index < 8 ∧
      k = (s.r_Bit_Index + 1) * C + s.r_Clk_Count + 1
  | .s_TX_Stop_Bit => s.r_TX_Done = false ∧ s.r_Clk_Count < C ∧ k = 9 * C + s.r_Clk_Count + 1
  | .s_Cleanup => s.r_TX_Done = true ∧ k = 10 * C + 1
  | .s_Idle => s.r_TX_Done = true ∧ k = 10 * C + 2

structure Sends (C : Nat) (byte : BitVec 8) (s : Regs) (k : Nat) : Prop where
  elapsed : Elapsed C s k
  byte : s.r_TX_Data = byte

theorem rests_step {s : Regs} {i : Inputs} (h : s.r_SM_Main = .s_Idle) (hv : i.i_TX_DV = false) :
    Rests (step C s i) ∧ (step C s i).r_TX_Data = s.r_TX_Data := by
  refine ⟨⟨?_, ?_⟩, ?_⟩ <;> simp [step, h, hv]

theorem load_step (hC : 0 < C) {s : Regs} {i : Inputs} (h : s.r_SM_Main = .s_Idle) (hv : i.i_TX_DV = true) :
    Sends C i.i_TX_Byte (step C s i) 1 := by
  constructor
  · simp [Elapsed, step, h, hv, hC]
  · simp [step, h, hv]

theorem start_iff {s : Regs} {i : Inputs} (h : s.r_SM_Main = .s_Idle) :
    (step C s i).r_SM_Main = .s_TX_Start_Bit ↔ i.i_TX_DV = true := by
  cases hv : i.i_TX_DV <;> simp [step, h, hv]

/-- Only the idle transmitter takes a byte. -/
theorem data_step (s : Regs) (i : Inputs) : (step C s i).r_TX_Data =
    if s.r_SM_Main = .s_Idle ∧ i.i_TX_DV = true then i.i_TX_Byte else s.r_TX_Data := by
  unfold step
  cases hst : s.r_SM_Main <;> simp only [reduceCtorEq, false_and, if_false, true_and]
  case s_Idle => split <;> rfl
  case s_TX_Start_Bit | s_TX_Stop_Bit => split <;> rfl
  case s_TX_Data_Bits =>
    split
    · rfl
    · split <;> rfl

/-- While it sends, the transmitter starts nothing else. -/
theorem sends_step {byte : BitVec 8} {s : Regs} {k : Nat} (h : Sends C byte s k) (hk : k ≤ 10 * C + 1) (i : Inputs) :
    Sends C byte (step C s i) (k + 1) := by
  obtain ⟨he, hb⟩ := h
  unfold Elapsed at he
  cases hst : s.r_SM_Main <;> simp only [hst] at he
  case s_Idle => omega
  case s_TX_Start_Bit =>
    obtain ⟨hd, hlt, hidx, rfl⟩ := he
    by_cases hc : s.r_Clk_Count < C - 1
    · constructor <;> simp [Elapsed, step, hst, hc, hb, hd, hidx]
      omega
    · constructor <;> simp [Elapsed, step, hst, hc, hb, hd, hidx]
      omega
  case s_TX_Data_Bits =>
    obtain ⟨hd, hlt, hidx, rfl⟩ := he
    by_cases hc : s.r_Clk_Count < C - 1
    · constructor <;> simp [Elapsed, step, hst, hc, hb, hd, hidx]
      omega
    · by_cases hi : s.r_Bit_Index < 7
      · constructor <;> simp [Elapsed, step, hst, hc, hb, hd, hi]
        have := Nat.add_one_mul (s.r_Bit_Index + 1) C
        omega
      · -- the last data bit
        obtain hi' : s.r_Bit_Index = 7 := by omega
        constructor <;> simp [Elapsed, step, hst, hc, hb, hd, hi']
        omega
  case s_TX_Stop_Bit =>
    obtain ⟨hd, hlt, rfl⟩ := he
    by_cases hc : s.r_Clk_Count < C - 1
    · constructor <;> simp [Elapsed, step, hst, hc, hb, hd]
      omega
    · constructor <;> simp [Elapsed, step, hst, hc, hb]
      omega
  case s_Cleanup =>
    obtain ⟨-, rfl⟩ := he
    constructor <;> simp [Elapsed, step, hst, hb]

/-- The byte takes ten bit times, and then the done flag is high for two cycles. -/
theorem Sends.phase {byte : BitVec 8} {s : Regs} {k : Nat} (h : Sends C byte s k) :
    s.r_TX_Done = false ∧ s.r_SM_Main ≠ .s_Idle ∧ k ≤ 10 * C ∨
      s.r_TX_Done = true ∧ s.r_SM_Main = .s_Cleanup ∧ k = 10 * C + 1 ∨
      s.r_TX_Done = true ∧ s.r_SM_Main = .s_Idle ∧ k = 10 * C + 2 := by
  have he := h.elapsed
  unfold Elapsed at he
  cases hst : s.r_SM_Main <;> simp only [hst] at he
  case s_TX_Data_Bits =>
    obtain ⟨hd, hlt, hidx, rfl⟩ := he
    have hbits : (s.r_Bit_Index + 1) * C ≤ 8 * C := Nat.mul_le_mul_right C hidx
    exact .inl ⟨hd, nofun, by omega⟩
  case s_TX_Start_Bit => exact .inl ⟨he.1, nofun, by omega⟩
  case s_TX_Stop_Bit => exact .inl ⟨he.1, nofun, by omega⟩
  case s_Cleanup => exact .inr (.inl ⟨he.1, rfl, he.2⟩)
  case s_Idle => exact .inr (.inr ⟨he.1, rfl, he.2⟩)

theorem Sends.done_iff {byte : BitVec 8} {s : Regs} {k : Nat} (h : Sends C byte s k) :
    s.r_TX_Done = true ↔ 10 * C < k := by
  rcases h.phase with ⟨hd, -, hk⟩ | ⟨hd, -, hk⟩ | ⟨hd, -, hk⟩ <;>
    simp only [hd, Bool.false_eq_true, true_iff, false_iff]
  all_goals omega

theorem Sends.idle_iff {byte : BitVec 8} {s : Regs} {k : Nat} (h : Sends C byte s k) :
    s.r_SM_Main = .s_Idle ↔ k = 10 * C + 2 := by
  rcases h.phase with ⟨-, hi, hk⟩ | ⟨-, hi, hk⟩ | ⟨-, hi, hk⟩
  · exact ⟨fun h => absurd h hi, by omega⟩
  · refine ⟨fun h => ?_, by omega⟩
    cases hi.symm.trans h
  · exact ⟨fun _ => hk, fun _ => hi⟩

end DinoLight.UartTx
