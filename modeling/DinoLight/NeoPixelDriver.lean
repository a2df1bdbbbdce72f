import DinoLight.Lib.Clocked
import DinoLight.Lib.Pulses
import DinoLight.Lib.Vectors
/-!
# `NeoPixelDriver`

The LED driver asks the sequencer for a pixel, maps its three bytes through
the gamma table and shifts the 24 bits out, most significant first: a 1 is a
high pulse of 40 cycles, a 0 one of 20. The last acknowledgement ends the
frame with the strip's reset time.
-/
open Vectors Pulses

namespace DinoLight.NeoPixelDriver

inductive StateType where
  | ack | waitForValid | t0H | t1H | finishCycle | res | reset1 | reset0 | incCount | display
  | writeState | idle | loadReg
  deriving DecidableEq, Repr

structure Regs where
  state : StateType
  counter : BitVec 12
  curPos : Nat
  data_reg : BitVec 24
  data_out : Bool
  ack_pixel : Bool
  deriving DecidableEq

structure Inputs where
  run : Bool
  valid_pixel : Bool
  last_pixel : Bool
  data_in : BitVec 24

def powerUp : Regs where
  state := .idle
  counter := 0
  curPos := 0
  data_reg := 0
  data_out := false
  ack_pixel := false

def t0hTime : BitVec 12 := 20
def t1hTime : BitVec 12 := 40
def cycleTime : BitVec 12 := 62
def tholdtime : BitVec 12 := 2500

def gammaTable : List (BitVec 8) := [
  0x00, 0x00, 0x00, 0x00, 0x00, 0x00, 0x00, 0x00, 0x00, 0x00, 0x00, 0x00, 0x00, 0x00, 0x00, 0x00,
  0x00, 0x00, 0x00, 0x00, 0x00, 0x00, 0x00, 0x00, 0x00, 0x00, 0x00, 0x00, 0x00, 0x00, 0x00, 0x00,
  0x00, 0x00, 0x00, 0x00, 0x00, 0x00, 0x00, 0x00, 0x00, 0x04, 0x04, 0x04, 0x04, 0x04, 0x05, 0x05,
  0x05, 0x05, 0x05, 0x06, 0x06, 0x06, 0x06, 0x06, 0x07, 0x07, 0x07, 0x08, 0x08, 0x08, 0x08, 0x09,
  0x09, 0x09, 0x0A, 0x0A, 0x0A, 0x0B, 0x0B, 0x0B, 0x0C, 0x0C, 0x0D, 0x0D, 0x0D, 0x0E, 0x0E, 0x0F,
  0x0F, 0x0F, 0x10, 0x10, 0x11, 0x11, 0x12, 0x12, 0x13, 0x13, 0x14, 0x14, 0x15, 0x15, 0x16, 0x17,
  0x17, 0x18, 0x18, 0x19, 0x19, 0x1A, 0x1B, 0x1B, 0x1C, 0x1D, 0x1D, 0x1E, 0x1F, 0x1F, 0x20, 0x21,
  0x21, 0x22, 0x23, 0x24, 0x24, 0x25, 0x26, 0x27, 0x28, 0x28, 0x29, 0x2A, 0x2B, 0x2C, 0x2D, 0x2D,
  0x2E, 0x2F, 0x30, 0x31, 0x32, 0x33, 0x34, 0x35, 0x36, 0x37, 0x38, 0x39, 0x3A, 0x3B, 0x3C, 0x3D,
  0x3E, 0x3F, 0x40, 0x41, 0x42, 0x43, 0x44, 0x46, 0x47, 0x48, 0x49, 0x4A, 0x4B, 0x4D, 0x4E, 0x4F,
  0x50, 0x51, 0x53, 0x54, 0x55, 0x57, 0x58, 0x59, 0x5A, 0x5C, 0x5D, 0x5F, 0x60, 0x61, 0x63, 0x64,
  0x66, 0x67, 0x68, 0x6A, 0x6B, 0x6D, 0x6E, 0x70, 0x71, 0x73, 0x74, 0x76, 0x78, 0x79, 0x7B, 0x7C,
  0x7E, 0x80, 0x81, 0x83, 0x85, 0x86, 0x88, 0x8A, 0x8B, 0x8D, 0x8F, 0x91, 0x92, 0x94, 0x96, 0x98,
  0x9A, 0x9B, 0x9D, 0x9F, 0xA1, 0xA3, 0xA5, 0xA7, 0xA9, 0xAB, 0xAD, 0xAF, 0xB1, 0xB3, 0xB5, 0xB7,
  0xB9, 0xBB, 0xBD, 0xBF, 0xC1, 0xC3, 0xC5, 0xC7, 0xCA, 0xCC, 0xCE, 0xD0, 0xD2, 0xD5, 0xD7, 0xD9,
  0xDB, 0xDE, 0xE0, 0xE2, 0xE4, 0xE7, 0xE9, 0xEC, 0xEE, 0xF0, 0xF3, 0xF5, 0xF8, 0xFA, 0xFD, 0xFF]

/-- `gamma_lut(to_integer(unsigned(b)))` -/
def gammaLut (b : BitVec 8) : BitVec 8 := gammaTable.getD b.toNat 0

example : gammaTable.length = 256 := by decide +kernel

/-! ## The processes -/

def nextStateDecode (s : Regs) (i : Inputs) : StateType :=
  match s.state with
  | .idle => if i.run then .waitForValid else s.state
  | .waitForValid => if i.valid_pixel then .ack else .waitForValid
  | .ack => if i.last_pixel then .display else .writeState
  | .t0H => if s.counter ≥ t0hTime then .finishCycle else s.state
  | .t1H => if s.counter ≥ t1hTime then .finishCycle else s.state
  | .finishCycle => if s.counter ≥ cycleTime then .incCount else s.state
  | .incCount => .writeState
  | .display => if s.counter ≥ tholdtime then .idle else s.state
  | .writeState =>
    if s.curPos ≥ 24 then .waitForValid else if s.data_reg.getMsbD 0 then .t1H else .t0H
  | .res | .reset1 | .reset0 | .loadReg => .idle -- `when others`

def outputProcess (nextState : StateType) : Bool := nextState = .t0H ∨ nextState = .t1H

/-- The bytes of a pixel, each mapped through `gammaLut`. -/
def gammaPixel (p : BitVec 24) : BitVec 24 :=
  gammaLut (slice p 0 8) ++ gammaLut (slice p 8 8) ++ gammaLut (slice p 16 8)

/-- `for i in 0 to 22 loop data_reg(i) <= data_reg(i+1)`: the last bit stays. -/
def shiftData (r : BitVec 24) : BitVec 24 :=
  ofLeft _ fun i => if i ≤ 22 then r.getMsbD (i + 1) else r.getMsbD i

def loadShiftProcess (s : Regs) (i : Inputs) (nextState : StateType) : BitVec 24 :=
  if nextState = .ack then gammaPixel i.data_in
  else if nextState = .incCount then shiftData s.data_reg
  else s.data_reg

def counterPro (s : Regs) (nextState : StateType) : BitVec 12 :=
  if nextState = .finishCycle ∨ nextState = .t1H ∨ nextState = .t0H ∨ nextState = .display then s.counter + 1
  else 0

def posPorcess (s : Regs) (nextState : StateType) : Nat :=
  if nextState = .incCount then s.curPos + 1
  else if nextState = .display ∨ nextState = .ack then 0
  else s.curPos

def ackOutput (nextState : StateType) : Bool := nextState = .ack

/-- One rising edge of `clk`. -/
def step (s : Regs) (i : Inputs) : Regs :=
  let nextState := nextStateDecode s i
  { state := nextState
    counter := counterPro s nextState
    curPos := posPorcess s nextState
    data_reg := loadShiftProcess s i nextState
    data_out := outputProcess nextState
    ack_pixel := ackOutput nextState }

/-! ## What an edge does -/

/-- How long a bit holds the wire high. -/
def width (b : Bool) : Nat := if b then 40 else 20

/-- The state that sends bit `b`. -/
def highState (b : Bool) : StateType := if b then .t1H else .t0H

theorem highState_ne {st : StateType} (h1 : st ≠ .t1H) (h0 : st ≠ .t0H) (b : Bool) : st ≠ highState b := by
  cases b <;> assumption

/-- What a clock edge turns `s` into, one constructor for each transition. -/
inductive Edge (s : Regs) (i : Inputs) : Regs → Prop
  | rest (h : s.state = .idle) (hr : i.run = false) :
      Edge s i { s with counter := 0, data_out := false, ack_pixel := false }
  | wake (h : s.state = .idle) (hr : i.run = true) :
      Edge s i { s with state := .waitForValid, counter := 0, data_out := false, ack_pixel := false }
  | hold (h : s.state = .waitForValid) (hv : i.valid_pixel = false) :
      Edge s i { s with counter := 0, data_out := false, ack_pixel := false }
  | grant (h : s.state = .waitForValid) (hv : i.valid_pixel = true) :
      Edge s i { s with
        state := .ack, counter := 0, curPos := 0, data_reg := gammaPixel i.data_in,
        data_out := false, ack_pixel := true }
  | send (h : s.state = .ack) (hl : i.last_pixel = false) :
      Edge s i { s with state := .writeState, counter := 0, data_out := false, ack_pixel := false }
  | last (h : s.state = .ack) (hl : i.last_pixel = true) :
      Edge s i { s with
        state := .display, counter := s.counter + 1, curPos := 0, data_out := false, ack_pixel := false }
  | rise (b : Bool) (h : s.state = .writeState) (hp : s.curPos < 24) (hb : s.data_reg.getMsbD 0 = b) :
      Edge s i { s with
        state := highState b, counter := s.counter + 1, data_out := true, ack_pixel := false }
  | sent (h : s.state = .writeState) (hp : 24 ≤ s.curPos) :
      Edge s i { s with state := .waitForValid, counter := 0, data_out := false, ack_pixel := false }
  | high (b : Bool) (h : s.state = highState b) (hc : s.counter.toNat < width b) :
      Edge s i { s with counter := s.counter + 1, data_out := true, ack_pixel := false }
  | fall (b : Bool) (h : s.state = highState b) (hc : width b ≤ s.counter.toNat) :
      Edge s i { s with
        state := .finishCycle, counter := s.counter + 1, data_out := false, ack_pixel := false }
  | low (h : s.state = .finishCycle) (hc : s.counter.toNat < 62) :
      Edge s i { s with counter := s.counter + 1, data_out := false, ack_pixel := false }
  | shift (h : s.state = .finishCycle) (hc : 62 ≤ s.counter.toNat) :
      Edge s i { s with
        state := .incCount, counter := 0, curPos := s.curPos + 1, data_reg := shiftData s.data_reg,
        data_out := false, ack_pixel := false }
  | nextBit (h : s.state = .incCount) :
      Edge s i { s with state := .writeState, counter := 0, data_out := false, ack_pixel := false }
  | reset (h : s.state = .display) (hc : s.counter.toNat < 2500) :
      Edge s i { s with counter := s.counter + 1, curPos := 0, data_out := false, ack_pixel := false }
  | shown (h : s.state = .display) (hc : 2500 ≤ s.counter.toNat) :
      Edge s i { s with state := .idle, counter := 0, data_out := false, ack_pixel := false }
  | other (h : s.state = .res ∨ s.state = .reset1 ∨ s.state = .reset0 ∨ s.state = .loadReg) :
      Edge s i { s with state := .idle, counter := 0, data_out := false, ack_pixel := false }

theorem edge_step (s : Regs) (i : Inputs) : Edge s i (step s i) := by
  obtain ⟨st, c, p, r, o, a⟩ := s
  cases st <;> simp only [step, nextStateDecode]
  case ack =>
    cases hl : i.last_pixel
    · exact .send rfl hl
    · exact .last rfl hl
  case waitForValid =>
    cases hv : i.valid_pixel
    · exact .hold rfl hv
    · exact .grant rfl hv
  case t0H =>
    by_cases hc : c ≥ t0hTime
    · simp only [hc, if_true]; exact .fall false rfl hc
    · simp only [hc, if_false]; exact .high false rfl (Nat.lt_of_not_le hc)
  case t1H =>
    by_cases hc : c ≥ t1hTime
    · simp only [hc, if_true]; exact .fall true rfl hc
    · simp only [hc, if_false]; exact .high true rfl (Nat.lt_of_not_le hc)
  case finishCycle =>
    by_cases hc : c ≥ cycleTime
    · simp only [hc, if_true]; exact .shift rfl hc
    · simp only [hc, if_false]; exact .low rfl (Nat.lt_of_not_le hc)
  case incCount => exact .nextBit rfl
  case display =>
    by_cases hc : c ≥ tholdtime
    · simp only [hc, if_true]; exact .shown rfl hc
    · simp only [hc, if_false]; exact .reset rfl (Nat.lt_of_not_le hc)
  case writeState =>
    by_cases hp : p ≥ 24
    · simp only [hp, if_true]; exact .sent rfl hp
    · simp only [hp, if_false]
      cases hb : r.getMsbD 0
      · exact .rise false rfl (Nat.lt_of_not_le hp) hb
      · exact .rise true rfl (Nat.lt_of_not_le hp) hb
  case idle =>
    cases hr : i.run
    · exact .rest rfl hr
    · exact .wake rfl hr
  all_goals exact .other (by simp)

/-! ## The invariant -/

/-- Where the counter and the bit position can be in each state. -/
def Timed (s : Regs) : Prop :=
  match s.state with
  | .idle | .waitForValid => s.counter = 0
  | .ack => s.counter = 0 ∧ s.curPos = 0
  | .writeState | .incCount => s.counter = 0 ∧ s.curPos ≤ 24
  | .t0H => 1 ≤ s.counter.toNat ∧ s.counter.toNat ≤ 20 ∧ s.curPos < 24
  | .t1H => 1 ≤ s.counter.toNat ∧ s.counter.toNat ≤ 40 ∧ s.curPos < 24
  | .finishCycle => 21 ≤ s.counter.toNat ∧ s.counter.toNat ≤ 62 ∧ s.curPos < 24
  | .display => 1 ≤ s.counter.toNat ∧ s.counter.toNat ≤ 2500
  | .res | .reset1 | .reset0 | .loadReg => False

structure Inv (s : Regs) : Prop where
  timed : Timed s
  out : s.data_out = outputProcess s.state
  ack : s.ack_pixel = ackOutput s.state

theorem powerUp_inv : Inv powerUp := ⟨rfl, rfl, rfl⟩

theorem timed_high {s : Regs} {b : Bool} (h : s.state = highState b) :
    Timed s ↔ 1 ≤ s.counter.toNat ∧ s.counter.toNat ≤ width b ∧ s.curPos < 24 := by
  cases b <;> simp [Timed, h, highState, width]

theorem outputProcess_high (b : Bool) : outputProcess (highState b) = true := by
  cases b <;> rfl

theorem ackOutput_high (b : Bool) : ackOutput (highState b) = false := by
  cases b <;> rfl

theorem width_bounds (b : Bool) : 20 ≤ width b ∧ width b ≤ 40 := by
  cases b <;> simp [width]

/-- Below the longest time the counter counts, it does not wrap. -/
theorem counter_succ {c : BitVec 12} (h : c.toNat ≤ 2500) : (c + 1).toNat = c.toNat + 1 := by
  rw [BitVec.toNat_add]
  simp
  omega

theorem step_inv {s : Regs} (i : Inputs) (h : Inv s) : Inv (step s i) := by
  have he := edge_step s i
  generalize step s i = s' at he ⊢
  obtain ⟨ht, -, -⟩ := h
  cases he with
  | rest h => exact ⟨by simp [Timed, h], by simp [h, outputProcess], by simp [h, ackOutput]⟩
  | hold h => exact ⟨by simp [Timed, h], by simp [h, outputProcess], by simp [h, ackOutput]⟩
  | wake | sent | shown | other => exact ⟨rfl, rfl, rfl⟩
  | grant => exact ⟨⟨rfl, rfl⟩, rfl, rfl⟩
  | send h => simp only [Timed, h] at ht; exact ⟨⟨rfl, by simp [ht]⟩, rfl, rfl⟩
  | last h =>
    simp only [Timed, h] at ht
    exact ⟨by simp [Timed, ht], rfl, rfl⟩
  | rise b h hp =>
    simp only [Timed, h] at ht
    have hw := width_bounds b
    exact ⟨(timed_high rfl).2 ⟨by simp [ht], by simp [ht]; omega, hp⟩, (outputProcess_high b).symm,
      (ackOutput_high b).symm⟩
  | high b h hc =>
    rw [timed_high h] at ht
    have hw := width_bounds b
    have hn := counter_succ (c := s.counter) (by omega)
    refine ⟨(timed_high (b := b) (s := { s with counter := s.counter + 1, data_out := true, ack_pixel := false }) h).2
      ⟨?_, ?_, ht.2.2⟩, by simp [h, outputProcess_high], by simp [h, ackOutput_high]⟩ <;> simp only [hn] <;> omega
  | fall b h hc =>
    rw [timed_high h] at ht
    have hw := width_bounds b
    have hn := counter_succ (c := s.counter) (by omega)
    exact ⟨⟨by simp only [hn]; omega, by simp only [hn]; omega, ht.2.2⟩, rfl, rfl⟩
  | low h hc =>
    simp only [Timed, h] at ht
    have hn := counter_succ (c := s.counter) (by omega)
    exact ⟨by simp only [Timed, h, hn]; omega, by simp [h, outputProcess], by simp [h, ackOutput]⟩
  | shift h => simp only [Timed, h] at ht; exact ⟨⟨rfl, ht.2.2⟩, rfl, rfl⟩
  | nextBit h => simp only [Timed, h] at ht; exact ⟨⟨rfl, ht.2⟩, rfl, rfl⟩
  | reset h hc =>
    simp only [Timed, h] at ht
    have hn := counter_succ (c := s.counter) (by omega)
    exact ⟨by simp only [Timed, h, hn]; omega, by simp [h, outputProcess], by simp [h, ackOutput]⟩

/-- The driver enters `ack` only by granting an offered pixel. -/
theorem ack_step {s : Regs} {i : Inputs} (ha : (step s i).state = .ack) :
    s.state = .waitForValid ∧ i.valid_pixel = true ∧ (step s i).data_reg = gammaPixel i.data_in := by
  have he := edge_step s i
  generalize step s i = s' at he ha ⊢
  cases he with
  | grant h hv => exact ⟨h, hv, rfl⟩
  | rise b | high b h' => cases b <;> simp_all [highState]
  | _ => simp_all

/-- The driver is between frames: waiting for `run` or holding the reset time. -/
def Resting (s : Regs) : Prop := s.state = .idle ∨ s.state = .display

/-- A frame ends only with the last acknowledgement. -/
theorem resting_step {s : Regs} {i : Inputs} (h : Inv s) (hr : Resting (step s i)) :
    Resting s ∧ (s.state = .idle → i.run = false) ∨ s.state = .ack ∧ i.last_pixel = true := by
  have he := edge_step s i
  have ht := h.timed
  generalize step s i = s' at he hr
  cases he with
  | rest h hrun => exact .inl ⟨.inl h, fun _ => hrun⟩
  | reset h | shown h => exact .inl ⟨.inr h, by simp [h]⟩
  | last h hl => exact .inr ⟨h, hl⟩
  | rise b | high b h' => cases b <;> simp_all [highState, Resting]
  | other h => rcases h with h | h | h | h <;> simp [Timed, h] at ht
  | _ => simp_all [Resting]

/-- Between frames the driver at most starts to wait for a pixel. -/
theorem resting_next {s : Regs} (i : Inputs) (hs : Resting s) :
    (step s i).state = .waitForValid ∨ Resting (step s i) := by
  have he := edge_step s i
  generalize step s i = s' at he ⊢
  rcases hs with hs | hs <;> cases he with
  | rise b | high b | fall b => cases b <;> simp_all [highState]
  | _ => simp_all [Resting]

theorem resting_keep {s : Regs} {i : Inputs} (hs : Resting s) (hr : i.run = false) : Resting (step s i) := by
  have he := edge_step s i
  generalize step s i = s' at he ⊢
  rcases hs with hs | hs <;> cases he with
  | rest h | wake h => simp_all [Resting]
  | rise b | high b | fall b => cases b <;> simp_all [highState]
  | _ => simp_all [Resting]

/-- The reset time counts up to `tholdtime`. -/
theorem display_step {s : Regs} (i : Inputs) (h : s.state = .display) (hc : s.counter.toNat < 2500) :
    (step s i).state = .display ∧ (step s i).counter.toNat = s.counter.toNat + 1 := by
  have hlt : ¬ s.counter ≥ tholdtime := Nat.not_le_of_lt hc
  simp only [step, nextStateDecode, h, if_neg hlt]
  exact ⟨trivial, counter_succ (Nat.le_of_lt hc)⟩

theorem display_end {s : Regs} (i : Inputs) (h : s.state = .display) (hc : 2500 ≤ s.counter.toNat) :
    (step s i).state = .idle := by
  have hge : s.counter ≥ tholdtime := hc
  simp only [step, nextStateDecode, h, if_pos hge]

/-- Only a `run` that finds the driver idle starts a frame. -/
theorem wakes {s : Regs} {i : Inputs} (hs : Resting s) (hb : ¬ Resting (step s i)) :
    s.state = .idle ∧ i.run = true := by
  rcases hs with h | h
  · exact ⟨h, by by_contra hr; exact hb (resting_keep (.inl h) (eq_false_of_ne_true hr))⟩
  · rcases Nat.lt_or_ge s.counter.toNat 2500 with hc | hc
    · exact absurd (.inr (display_step i h hc).1) hb
    · exact absurd (.inl (display_end i h hc)) hb

theorem grant_step {s : Regs} {i : Inputs} (h : s.state = .waitForValid) (hv : i.valid_pixel = true) :
    (step s i).state = .ack := by
  simp [step, nextStateDecode, h, hv]

theorem idle_step (s : Regs) (i : Inputs) (h : s.state = .idle) :
    (step s i).state = if i.run then .waitForValid else .idle := by
  simp [step, nextStateDecode, h]

theorem last_step {s : Regs} {i : Inputs} (h : s.state = .ack) (hl : i.last_pixel = true) :
    (step s i).state = .display := by
  simp [step, nextStateDecode, h, hl]

/-- The reset time counts from 1. -/
theorem last_counter {s : Regs} {i : Inputs} (h : Inv s) (ha : s.state = .ack) (hl : i.last_pixel = true) :
    (step s i).counter.toNat = 1 := by
  have ht := h.timed
  simp only [Timed, ha] at ht
  simp [step, nextStateDecode, counterPro, ha, hl, ht]

/-! ## The bits still to be sent -/

/-- The bits of a pixel on the wire. -/
def pixelBits (p : BitVec 24) : List Bool := bits (gammaPixel p) 24

/-- The bits of the current pixel that have not started yet. -/
def toSend (s : Regs) : List Bool :=
  match s.state with
  | .ack | .writeState | .incCount => bits s.data_reg (24 - s.curPos)
  | .t0H | .t1H | .finishCycle => (bits s.data_reg (24 - s.curPos)).tail
  | _ => []

/-- The bit that starts at the edge from `s` to `s'`. -/
def started (s s' : Regs) : List Bool :=
  if s.state = .writeState ∧ s'.state = .t1H then [true]
  else if s.state = .writeState ∧ s'.state = .t0H then [false]
  else []

theorem bits_shift (r : BitVec 24) {m : Nat} (hm : m < 24) : bits (shiftData r) m = (bits r (m + 1)).tail := by
  simp only [bits, List.range_succ_eq_map, List.map_cons, List.tail_cons, List.map_map]
  apply List.map_congr_left
  intro i hi
  have hi : i < m := List.mem_range.1 hi
  rw [shiftData, getMsbD_ofLeft _ (by omega), if_pos (by omega)]
  rfl

theorem toSend_resting {s : Regs} (h : s.state = .waitForValid ∨ Resting s) : toSend s = [] := by
  rcases h with h | h | h <;> simp [toSend, h]

theorem started_resting {s s' : Regs} (h : Resting s) : started s s' = [] := by
  rcases h with h | h <;> simp [started, h]

/-- A granted pixel puts its bits in line; any other edge starts the first bit
in line or none. The last acknowledgement is not for a pixel. -/
theorem toSend_step {s : Regs} (i : Inputs) (h : Inv s) (hl : s.state = .ack → i.last_pixel = false) :
    if s.state = .waitForValid ∧ i.valid_pixel = true then toSend (step s i) = pixelBits i.data_in
    else toSend s = started s (step s i) ++ toSend (step s i) := by
  have he := edge_step s i
  generalize step s i = s' at he ⊢
  obtain ⟨ht, -, -⟩ := h
  cases he with
  | rest h hr => simp [h, started, toSend]
  | hold h hv => simp [h, hv, started, toSend]
  | wake h => simp [h, started, toSend]
  | grant h hv => simp [h, hv, toSend, pixelBits]
  | send h => simp [h, started, toSend]
  | last h hlast => simp [hl h] at hlast
  | rise b h hp hb =>
    obtain ⟨m, hm⟩ : ∃ m, 24 - s.curPos = m + 1 := ⟨24 - s.curPos - 1, by omega⟩
    cases b <;> simp [h, started, toSend, hm, highState, bits, List.range_succ_eq_map, hb]
  | sent h hp => simp [h, started, toSend, bits, Nat.sub_eq_zero_of_le hp]
  | high b h => cases b <;> simp [h, started, toSend, highState]
  | fall b h => cases b <;> simp [h, started, toSend, highState]
  | low h => simp [h, started, toSend]
  | shift h =>
    -- the bit that was sent leaves the register
    simp only [Timed, h] at ht
    have hm : 24 - s.curPos = 24 - (s.curPos + 1) + 1 := by omega
    have hs := bits_shift s.data_reg (show 24 - (s.curPos + 1) < 24 by omega)
    rw [← hm] at hs
    simpa [h, started, toSend] using hs.symm
  | nextBit h => simp [h, started, toSend]
  | reset h => simp [h, started, toSend]
  | shown h => simp [h, started, toSend]
  | other h => rcases h with h | h | h | h <;> simp [h, started, toSend]

/-- A granted pixel that is not the end of the strip is sent from its first bit. -/
theorem send_step {s : Regs} {i : Inputs} (h : Inv s) (ha : s.state = .ack) (hl : i.last_pixel = false) :
    (step s i).state = .writeState ∧ toSend (step s i) = bits s.data_reg 24 := by
  have ht := h.timed
  simp only [Timed, ha] at ht
  have hst : (step s i).state = .writeState := by simp [step, nextStateDecode, ha, hl]
  have he := toSend_step i h (fun _ => hl)
  rw [if_neg (by simp [ha])] at he
  refine ⟨hst, ?_⟩
  simpa [toSend, ha, ht, started] using he.symm

/-! ## The wire -/

/-- The pulses seen so far are the widths of the started bits; the last one is
still high in the states that send it. -/
def OnWire (s : Regs) (sent : List Bool) (wire : Scan) : Prop :=
  (∃ pre b, s.state = highState b ∧ sent = pre ++ [b] ∧ wire = ⟨pre.map width, s.counter.toNat⟩) ∨
    (∀ b, s.state ≠ highState b) ∧ wire = ⟨sent.map width, 0⟩

theorem highState_inj {a b : Bool} (h : highState a = highState b) : a = b := by
  cases a <;> cases b <;> simp_all [highState]

theorem onWire_low {s : Regs} {sent : List Bool} {wire : Scan} (h : ∀ b, s.state ≠ highState b)
    (hw : OnWire s sent wire) : wire = ⟨sent.map width, 0⟩ := by
  rcases hw with ⟨_, b, hb, -⟩ | ⟨-, hw⟩
  · exact absurd hb (h b)
  · exact hw

theorem onWire_high {s : Regs} {b : Bool} {sent : List Bool} {wire : Scan} (h : s.state = highState b)
    (hw : OnWire s sent wire) : ∃ pre, sent = pre ++ [b] ∧ wire = ⟨pre.map width, s.counter.toNat⟩ := by
  rcases hw with ⟨pre, b', hb, hs, hw⟩ | ⟨hn, -⟩
  · obtain rfl := highState_inj (h.symm.trans hb)
    exact ⟨pre, hs, hw⟩
  · exact absurd h (hn b)

theorem started_low {s s' : Regs} (h' : ∀ b, s'.state ≠ highState b) : started s s' = [] := by
  have h1 := h' true
  have h0 := h' false
  simp only [highState, if_true, Bool.false_eq_true, if_false] at h1 h0
  simp [started, h1, h0]

theorem onWire_keep {s s' : Regs} {sent : List Bool} {wire : Scan} (hw : OnWire s sent wire)
    (h : ∀ b, s.state ≠ highState b) (h' : ∀ b, s'.state ≠ highState b) (ho : s'.data_out = false) :
    OnWire s' (sent ++ started s s') (wire.next s'.data_out) := by
  obtain rfl := onWire_low h hw
  exact .inr ⟨h', by simp [started_low h', ho, Scan.next]⟩

theorem onWire_step {s : Regs} (i : Inputs) (h : Inv s) {sent : List Bool} {wire : Scan}
    (hw : OnWire s sent wire) :
    OnWire (step s i) (sent ++ started s (step s i)) (wire.next (step s i).data_out) := by
  have he := edge_step s i
  generalize step s i = s' at he ⊢
  obtain ⟨ht, -, -⟩ := h
  cases he with
  | rise b h hp hb =>
    -- the wire was low, so the pulse begins with the bit
    obtain rfl := onWire_low (by intro b; cases b <;> simp [h, highState]) hw
    simp only [Timed, h] at ht
    refine .inl ⟨sent, b, rfl, ?_, by simp [Scan.next, ht]⟩
    cases b <;> simp [started, h, highState]
  | high b h hc =>
    obtain ⟨pre, rfl, rfl⟩ := onWire_high h hw
    rw [timed_high h] at ht
    have hb := width_bounds b
    have hn := counter_succ (c := s.counter) (by omega)
    refine .inl ⟨pre, b, h, ?_, by simp only [Scan.next, if_true, hn]⟩
    cases b <;> simp [started, h, highState]
  | fall b h hc =>
    obtain ⟨pre, rfl, rfl⟩ := onWire_high h hw
    rw [timed_high h] at ht
    have hcw : s.counter.toNat = width b := by omega
    refine .inr ⟨by intro b; cases b <;> simp [highState], ?_⟩
    cases b <;> simp [Scan.next, started, h, highState, hcw, width]
  | other h =>
    exact onWire_keep hw (by rcases h with h | h | h | h <;> simp [h, highState_ne]) (by simp [highState_ne]) rfl
  | rest h | wake h | hold h | grant h | send h | last h | sent h | low h | shift h | nextBit h | reset h | shown h =>
    exact onWire_keep hw (by simp [h, highState_ne]) (by simp [h, highState_ne]) rfl

end DinoLight.NeoPixelDriver
