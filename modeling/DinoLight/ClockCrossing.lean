import DinoLight.Averager
import DinoLight.LedSwitch
/-!
# From the pixel clock to the LED clock

A vsync edge sends two things from `clk_pixel` to `clk_50`: the new
framebuffer, through three registers, and one pixel clock later a pulse,
through a toggle and two registers. `Crossing` says where both are, counted in
edges of `clk_50`; the framebuffer is in time when one of these edges falls
between its latch and the launch of the pulse.
-/
open Clocked

namespace DinoLight.ClockCrossing

/-! ## The components -/

/-- The part of `video_averager` that drives its outputs: the averager's vsync
and framebuffer, and the `vsync1Clock` process. -/
structure Video (num_blocks : Nat) where
  a_vsync : Bool
  framebuffer : BitVec (num_blocks * 24)
  last_vsync_value : Bool
  vsync : Bool

/-- `cross_clock_pulse` -/
structure Pulse where
  in_reg : Bool
  out_reg0 : Bool
  out_reg1 : Bool
  out_reg2 : Bool

/-- `cross_clock_register` -/
structure Register (register_size : Nat) where
  register0 : BitVec register_size
  register1 : BitVec register_size
  signal_out : BitVec register_size

structure Regs (num_blocks : Nat) where
  video : Video num_blocks
  cross_clock_vsync : Pulse
  cross_clock_framebuffer : Register (num_blocks * 24)
  leds : LedSwitch.Regs num_blocks

/-- A rising edge of either clock, with the inputs it samples. `averages` is what
the averager latches if this is a rising edge of the cleaned vsync. -/
inductive Event (num_blocks : Nat) where
  | clk_pixel (vsync_cleaned : Bool) (averages : BitVec (num_blocks * 24))
  | clk_50 (uart : UartRxController.Inputs)

variable {num_blocks : Nat}

def Video.step (s : Video num_blocks) (vsync_cleaned : Bool) (averages : BitVec (num_blocks * 24)) :
    Video num_blocks where
  a_vsync := vsync_cleaned
  framebuffer := if vsync_cleaned ≠ s.a_vsync ∧ vsync_cleaned = true then averages else s.framebuffer
  last_vsync_value := vsync_cleaned
  vsync := s.last_vsync_value ≠ vsync_cleaned

def Pulse.inProcess (s : Pulse) (pulse_in : Bool) : Pulse :=
  { s with in_reg := if pulse_in then !s.in_reg else s.in_reg }

def Pulse.outProcess (s : Pulse) : Pulse :=
  { s with out_reg0 := s.in_reg, out_reg1 := s.out_reg0, out_reg2 := s.out_reg1 }

def Pulse.pulse_out (s : Pulse) : Bool := s.out_reg2 ^^ s.out_reg1

def Register.step {register_size : Nat} (s : Register register_size) (signal_in : BitVec register_size) :
    Register register_size where
  register0 := signal_in
  register1 := s.register0
  signal_out := s.register1

def step (s : Regs num_blocks) : Event num_blocks → Regs num_blocks
  | .clk_pixel vsync_cleaned averages =>
    { s with
      video := s.video.step vsync_cleaned averages
      cross_clock_vsync := s.cross_clock_vsync.inProcess s.video.vsync }
  | .clk_50 uart =>
    { s with
      cross_clock_vsync := s.cross_clock_vsync.outProcess
      cross_clock_framebuffer := s.cross_clock_framebuffer.step s.video.framebuffer
      leds := LedSwitch.step s.leds ⟨uart, s.cross_clock_vsync.pulse_out, s.cross_clock_framebuffer.signal_out⟩ }

/-- All flip-flops 0 but the mode, which is `01`. -/
def powerUp : Regs num_blocks where
  video := ⟨false, 0, false, false⟩
  cross_clock_vsync := ⟨false, false, false, false⟩
  cross_clock_framebuffer := ⟨0, 0, 0⟩
  leds := { LedSwitch.powerUp with uart := { UartRxController.powerUp with mode := 1 } }

/-- The averager's registers give `Video` its vsync and framebuffer, and its
accumulators what a rising edge latches. -/
theorem averager_video (a : Averager.Regs) (i : Averager.Inputs) (last vsync : Bool) :
    Video.step (⟨a.a_vsync, a.framebuffer, last, vsync⟩ : Video 32) i.i_vsync (Averager.latch a.accumulator) =
      ⟨(Averager.step a i).a_vsync, (Averager.step a i).framebuffer, i.i_vsync, last ≠ i.i_vsync⟩ := rfl

/-! ## Where the framebuffer and the pulse are -/

/-- `k` edges of `clk_50` after a vsync edge and before the pulse is launched,
and `j` after: the registers that have been reached hold `new` and the toggled
level, the others still `old` and `level`. -/
structure Crossing (s : Regs num_blocks) (old new : BitVec (num_blocks * 24)) (level launched : Bool) (k j : Nat) :
    Prop where
  framebuffer : s.video.framebuffer = new
  last : s.video.last_vsync_value = s.video.a_vsync
  vsync : s.video.vsync = !launched
  in_reg : s.cross_clock_vsync.in_reg = (level ^^ launched)
  out_reg0 : s.cross_clock_vsync.out_reg0 = (level ^^ decide (1 ≤ j))
  out_reg1 : s.cross_clock_vsync.out_reg1 = (level ^^ decide (2 ≤ j))
  out_reg2 : s.cross_clock_vsync.out_reg2 = (level ^^ decide (3 ≤ j))
  register0 : s.cross_clock_framebuffer.register0 = if 1 ≤ k + j then new else old
  register1 : s.cross_clock_framebuffer.register1 = if 2 ≤ k + j then new else old
  signal_out : s.cross_clock_framebuffer.signal_out = if 3 ≤ k + j then new else old
  run : s.leds.run_neopixel = decide (j = 3)
  select : s.leds.neopixel_select = if 4 ≤ k + j then new else old
  waiting : launched = false → j = 0

theorem powerUp_crossing : Crossing (powerUp : Regs num_blocks) 0 0 true true 0 16 := by
  constructor <;> simp [powerUp, LedSwitch.powerUp]

/-- An edge of `clk_50` moves both on by one register. -/
theorem crossing_clk_50 {s : Regs num_blocks} {old new : BitVec (num_blocks * 24)} {level launched : Bool} {k j : Nat}
    (h : Crossing s old new level launched k j) (hm : s.leds.uart.mode = 1) (uart : UartRxController.Inputs) :
    Crossing (step s (.clk_50 uart)) old new level launched (if launched then k else k + 1)
      (if launched then j + 1 else j) := by
  have hpulse : s.cross_clock_vsync.pulse_out = decide (j = 2) := by
    rw [Pulse.pulse_out, h.out_reg2, h.out_reg1]
    rcases Nat.lt_trichotomy j 2 with hj | hj | hj
    · simp [show ¬ 3 ≤ j by omega, show ¬ 2 ≤ j by omega, show j ≠ 2 by omega]
    · simp [hj]
    · simp [show 3 ≤ j by omega, show 2 ≤ j by omega, show j ≠ 2 by omega]
  have hled (i : LedSwitch.Inputs num_blocks) : LedSwitch.ledSwitch s.leds i = (i.vsync_50, i.framebuffer_50) := by
    simp [LedSwitch.ledSwitch, hm]
  cases launched
  · obtain rfl := h.waiting rfl
    refine ⟨h.framebuffer, h.last, h.vsync, h.in_reg, ?_, ?_, ?_, ?_, ?_, ?_, ?_, ?_, fun _ => rfl⟩ <;>
      simp [step, Pulse.outProcess, Register.step, LedSwitch.step, hled, hpulse, h.in_reg, h.out_reg0, h.out_reg1,
        h.framebuffer, h.register0, h.register1, h.signal_out]
  · -- once launched, the pulse moves with the framebuffer
    refine ⟨h.framebuffer, h.last, h.vsync, h.in_reg, ?_, ?_, ?_, ?_, ?_, ?_, ?_, ?_, by simp⟩ <;>
      simp [step, Pulse.outProcess, Register.step, LedSwitch.step, hled, hpulse, h.in_reg, h.out_reg0, h.out_reg1,
        h.framebuffer, h.register0, h.register1, h.signal_out, ← Nat.add_assoc]

/-- A pixel edge without a vsync edge launches a pulse that waits. -/
theorem crossing_keep {s : Regs num_blocks} {old new : BitVec (num_blocks * 24)} {level launched : Bool} {k j : Nat}
    (h : Crossing s old new level launched k j) {v : Bool} (hv : v = s.video.a_vsync)
    (averages : BitVec (num_blocks * 24)) : Crossing (step s (.clk_pixel v averages)) old new level true k j := by
  have hj : launched = false → j = 0 := h.waiting
  refine ⟨?_, rfl, ?_, ?_, h.out_reg0, h.out_reg1, h.out_reg2, h.register0, h.register1, h.signal_out, h.run,
    h.select, by simp⟩
  · simp [step, Video.step, hv, h.framebuffer]
  · simp [step, Video.step, hv, h.last]
  · cases launched <;> simp [step, Pulse.inProcess, h.vsync, h.in_reg]

/-- A vsync edge that finds the last crossing over starts the next one. -/
theorem crossing_change {s : Regs num_blocks} {old new : BitVec (num_blocks * 24)} {level : Bool} {k j : Nat}
    (h : Crossing s old new level true k j) (hj : 4 ≤ j) {v : Bool} (hv : v ≠ s.video.a_vsync)
    (averages : BitVec (num_blocks * 24)) :
    Crossing (step s (.clk_pixel v averages)) new (if v then averages else new) (level ^^ true) false 0 0 := by
  refine ⟨?_, rfl, ?_, ?_, ?_, ?_, ?_, ?_, ?_, ?_, ?_, ?_, fun _ => rfl⟩
  · cases v <;> simp [step, Video.step, hv, h.framebuffer]
  · simp [step, Video.step, h.last, hv.symm]
  · simp [step, Pulse.inProcess, h.vsync, h.in_reg]
  · simp [step, Pulse.inProcess, h.out_reg0, show 1 ≤ j by omega]
  · simp [step, Pulse.inProcess, h.out_reg1, show 2 ≤ j by omega]
  · simp [step, Pulse.inProcess, h.out_reg2, show 3 ≤ j by omega]
  · simp [step, h.register0, show 1 ≤ k + j by omega]
  · simp [step, h.register1, show 2 ≤ k + j by omega]
  · simp [step, h.signal_out, show 3 ≤ k + j by omega]
  · simp [step, h.run, show j ≠ 3 by omega]
  · simp [step, h.select, show 4 ≤ k + j by omega]

/-! ## Runs -/

def Event.isClk50 : Event num_blocks → Bool
  | .clk_pixel _ _ => false
  | .clk_50 _ => true

/-- The cleaned vsync at the last pixel edge before event `n`; low at power-up. -/
def lastVsync (e : Nat → Event num_blocks) : Nat → Bool
  | 0 => false
  | n + 1 => match e n with
    | .clk_pixel vsync_cleaned _ => vsync_cleaned
    | .clk_50 _ => lastVsync e n

/-- The edges of `clk_50` since the last change of vsync. The first change may come at any time. -/
def sinceChange (e : Nat → Event num_blocks) : Nat → Nat
  | 0 => 16
  | n + 1 => match e n with
    | .clk_pixel vsync_cleaned _ => if vsync_cleaned ≠ lastVsync e n then 0 else sinceChange e n
    | .clk_50 _ => sinceChange e n + 1

/-- Vsync changes at event `n`. -/
def Changes (e : Nat → Event num_blocks) (n : Nat) : Prop := lastVsync e (n + 1) ≠ lastVsync e n

/-- At most one edge of `clk_50` between two pixel edges, and vsync changes at
least 16 edges of `clk_50` apart. -/
structure Schedule (e : Nat → Event num_blocks) : Prop where
  single : ∀ n, (e n).isClk50 = true → (e (n + 1)).isClk50 = false
  apart : ∀ n, Changes e n → 16 ≤ sinceChange e n

variable {e : Nat → Event num_blocks}

/-- The last event was an edge of `clk_50`. -/
def AfterClk50 (e : Nat → Event num_blocks) (n : Nat) : Prop := ∃ m, n = m + 1 ∧ (e m).isClk50 = true

theorem not_after_clk_50 (he : Schedule e) {n : Nat} (h : AfterClk50 e n) : (e n).isClk50 = false := by
  obtain ⟨m, rfl, hm⟩ := h
  exact he.single m hm

/-- In every state some crossing is under way or over, as long ago as vsync changed. -/
theorem crossing_run (he : Schedule e) (hm : ∀ n, (after step powerUp e n).leds.uart.mode = 1) (n : Nat) :
    (after step powerUp e n).video.a_vsync = lastVsync e n ∧
      ∃ old new level launched k j, Crossing (after step powerUp e n) old new level launched k j ∧
        k + j = sinceChange e n ∧ k ≤ 1 ∧ (launched = false → k = 1 → AfterClk50 e n) := by
  induction n with
  | zero => exact ⟨rfl, _, _, _, _, _, _, powerUp_crossing, rfl, by omega, by simp⟩
  | succ n ih =>
    obtain ⟨hv, old, new, level, launched, k, j, hc, hsum, hk, hlate⟩ := ih
    have hapart := he.apart n
    have hnot := not_after_clk_50 (n := n) he
    have hmode := hm n
    simp only [Changes, lastVsync, sinceChange] at hapart ⊢
    rw [after_succ]
    have hlast : ∀ m, e n = .clk_50 m → AfterClk50 e (n + 1) := fun m h => ⟨n, rfl, by rw [h]; rfl⟩
    cases hen : e n with
    | clk_50 uart =>
      refine ⟨hv, old, new, level, launched, _, _, crossing_clk_50 hc hmode uart, ?_, ?_, fun _ _ => hlast uart hen⟩
      · simp only
        split <;> omega
      · cases launched
        · -- the pulse has waited for at most this edge
          have hk0 : k ≠ 1 := fun h => by simp [hen, Event.isClk50] at hnot; exact hnot (hlate rfl h)
          simp
          omega
        · exact hk
    | clk_pixel v averages =>
      rw [hen] at hapart
      simp only at hapart ⊢
      refine ⟨rfl, ?_⟩
      by_cases hchange : v = lastVsync e n
      · refine ⟨old, new, level, true, k, j, crossing_keep hc (hchange.trans hv.symm) averages, ?_, hk, by simp⟩
        simp [hchange, hsum]
      · have hlong := hapart hchange
        cases launched
        · have := hc.waiting rfl
          omega
        · refine ⟨_, _, _, _, _, _, crossing_change hc (by omega) (hv ▸ hchange) averages, ?_, by omega, by simp⟩
          simp [hchange]

/-! ## Which framebuffer a pulse shows -/

/-- At event `p` vsync rises and the averager latches `new`. -/
def Latches (e : Nat → Event num_blocks) (p : Nat) (new : BitVec (num_blocks * 24)) : Prop :=
  e p = .clk_pixel true new ∧ lastVsync e p = false

/-- The pulse of the vsync edge at event `p` starts an idle sequencer at event `n`. -/
structure Starts (e : Nat → Event num_blocks) (p n : Nat) : Prop where
  later : p < n
  unchanged : ∀ t, p < t → t < n → ¬ Changes e t
  clk_50 : (e n).isClk50 = true
  run : (after step powerUp e n).leds.run_neopixel = true
  idle : (after step powerUp e n).leds.neoPixel.pixelGenerator.state = .idle

/-- Until vsync changes again, the crossing that a latch starts goes on. -/
theorem crossing_after (he : Schedule e) (hm : ∀ n, (after step powerUp e n).leds.uart.mode = 1) {p : Nat}
    {new : BitVec (num_blocks * 24)} (hl : Latches e p new) (m : Nat)
    (hsame : ∀ t, p < t → t < p + 1 + m → ¬ Changes e t) :
    ∃ level launched k j,
      Crossing (after step powerUp e (p + 1 + m)) (after step powerUp e p).video.framebuffer new level launched k j ∧
        (m = 0 → launched = false ∧ k = 0) ∧ (0 < m → k = if (e (p + 1)).isClk50 then 1 else 0) ∧
        (launched = false → 0 < m → AfterClk50 e (p + 1 + m)) := by
  induction m with
  | zero =>
    obtain ⟨hv, old, new', level, launched, k, j, hc, hsum, hk, -⟩ := crossing_run he hm p
    have hapart := he.apart p
    simp only [Changes, lastVsync, hl.1, hl.2] at hapart
    have hlong := hapart (by simp)
    cases launched
    · have := hc.waiting rfl
      omega
    · have hstart := crossing_change (v := true) hc (by omega) (by simp [hv, hl.2]) new
      rw [Nat.add_zero, after_succ, hl.1, hc.framebuffer]
      exact ⟨_, _, _, _, hstart, by simp, by simp, by simp⟩
  | succ m ih =>
    obtain ⟨level, launched, k, j, hc, hzero, hpos, hwait⟩ := ih fun t h1 h2 => hsame t h1 (by omega)
    have hkeep := hsame (p + 1 + m) (by omega) (by omega)
    simp only [Changes, lastVsync] at hkeep
    have hv := (crossing_run he hm (p + 1 + m)).1
    have hmode := hm (p + 1 + m)
    have hnot := not_after_clk_50 (n := p + 1 + m) he
    rw [← Nat.add_assoc, after_succ]
    cases hen : e (p + 1 + m) with
    | clk_50 uart =>
      refine ⟨level, launched, _, _, crossing_clk_50 hc hmode uart, by simp, fun _ => ?_,
        fun _ _ => ⟨p + 1 + m, rfl, by rw [hen]; rfl⟩⟩
      rcases Nat.eq_zero_or_pos m with rfl | hm0
      · -- the edge right after the latch is the one the framebuffer gains
        obtain ⟨rfl, rfl⟩ := hzero rfl
        rw [Nat.add_zero] at hen
        simp [hen, Event.isClk50]
      · cases launched
        · have := hnot (hwait rfl hm0)
          simp [hen, Event.isClk50] at this
        · simpa using hpos hm0
    | clk_pixel v averages =>
      have hv' : v = (after step powerUp e (p + 1 + m)).video.a_vsync := by
        rw [hv]
        rw [hen] at hkeep
        simpa using hkeep
      refine ⟨level, true, k, j, crossing_keep hc hv' averages, by simp, ?_, by simp⟩
      intro _
      rcases Nat.eq_zero_or_pos m with rfl | hm0
      · rw [Nat.add_zero] at hen
        simp [hen, Event.isClk50, (hzero rfl).2]
      · exact hpos hm0

/-- A pulse starts the LEDs with the framebuffer latched at its vsync edge if an
edge of `clk_50` falls between that edge and the next pixel edge, and with the
framebuffer before it otherwise. -/
theorem loaded_framebuffer (he : Schedule e) (hm : ∀ n, (after step powerUp e n).leds.uart.mode = 1) {p n : Nat}
    {new : BitVec (num_blocks * 24)} (hl : Latches e p new) (hs : Starts e p n) :
    (after step powerUp e (n + 1)).leds.neoPixel.pixelGenerator.pixelBlockRegister =
      if (e (p + 1)).isClk50 then new else (after step powerUp e p).video.framebuffer := by
  obtain ⟨m, rfl⟩ : ∃ m, n = p + 1 + m := ⟨n - p - 1, by have := hs.later; omega⟩
  obtain ⟨level, launched, k, j, hc, hzero, hpos, -⟩ := crossing_after he hm hl m hs.unchanged
  have hj : j = 3 := by simpa [hc.run] using hs.run
  have hm0 : 0 < m := by
    rcases Nat.eq_zero_or_pos m with rfl | hm0
    · have := hc.waiting (hzero rfl).1
      omega
    · exact hm0
  have hload : (after step powerUp e (p + 1 + m + 1)).leds.neoPixel.pixelGenerator.pixelBlockRegister =
      (after step powerUp e (p + 1 + m)).leds.neopixel_select := by
    have hrun := hs.run
    have hidle := hs.idle
    have hclk := hs.clk_50
    rw [after_succ]
    cases hen : e (p + 1 + m) with
    | clk_pixel v averages => simp [hen, Event.isClk50] at hclk
    | clk_50 uart =>
      simp [step, LedSwitch.step, NeopixelTop.step, BlockToPixel.step, BlockToPixel.nextStateDecode, hidle,
        NeopixelTop.generatorInputs, LedSwitch.ledInputs, hrun, BlockToPixel.mangageBlockRegister]
  rw [hload, hc.select, hpos hm0, hj]
  cases (e (p + 1)).isClk50 <;> rfl

/-- A pulse never shows the framebuffer before its own, if and only if an edge
of `clk_50` falls between the latch and the next pixel edge or both
framebuffers are the same. -/
theorem fresh_iff (he : Schedule e) (hm : ∀ n, (after step powerUp e n).leds.uart.mode = 1) {p n : Nat}
    {new : BitVec (num_blocks * 24)} (hl : Latches e p new) (hs : Starts e p n) :
    (after step powerUp e (n + 1)).leds.neoPixel.pixelGenerator.pixelBlockRegister = new ↔
      (e (p + 1)).isClk50 = true ∨ (after step powerUp e p).video.framebuffer = new := by
  rw [loaded_framebuffer he hm hl hs]
  split
  case isTrue h => simp [h]
  case isFalse h => simp [h]

/-- Events under one rise of vsync at event 0, with the framebuffer 1 and no bytes from the host. -/
def oneRise (isClk50 : Nat → Bool) (n : Nat) : Event 1 :=
  if isClk50 n then .clk_50 ⟨false, 0, false⟩ else .clk_pixel true 1

theorem oneRise_clk_50 (isClk50 : Nat → Bool) (n : Nat) : (oneRise isClk50 n).isClk50 = isClk50 n := by
  cases h : isClk50 n <;> simp [oneRise, h, Event.isClk50]

theorem oneRise_vsync {isClk50 : Nat → Bool} (h0 : isClk50 0 = false) (n : Nat) :
    lastVsync (oneRise isClk50) (n + 1) = true := by
  induction n with
  | zero => simp [lastVsync, oneRise, h0]
  | succ n ih =>
    unfold lastVsync
    cases h : isClk50 (n + 1)
    · simp [oneRise, h]
    · simpa [oneRise, h] using ih

theorem oneRise_changes {isClk50 : Nat → Bool} (h0 : isClk50 0 = false) {n : Nat} (h : Changes (oneRise isClk50) n) :
    n = 0 := by
  rcases n with _ | n
  · rfl
  · exact absurd ((oneRise_vsync h0 (n + 1)).trans (oneRise_vsync h0 n).symm) h

theorem oneRise_schedule {isClk50 : Nat → Bool} (h0 : isClk50 0 = false)
    (hs : ∀ n, isClk50 n = true → isClk50 (n + 1) = false) : Schedule (oneRise isClk50) where
  single n h := by
    rw [oneRise_clk_50] at h ⊢
    exact hs n h
  apart n h := by
    obtain rfl := oneRise_changes h0 h
    exact Nat.le_refl 16

theorem oneRise_mode (isClk50 : Nat → Bool) (n : Nat) :
    (after step powerUp (oneRise isClk50) n).leds.uart.mode = 1 := by
  have h : (after step powerUp (oneRise isClk50) n).leds.uart.state = .idle ∧
      (after step powerUp (oneRise isClk50) n).leds.uart.mode = 1 := by
    induction n with
    | zero => exact ⟨rfl, rfl⟩
    | succ n ih =>
      rw [after_succ, oneRise]
      split
      · refine ⟨UartRxController.idle_step ih.1 rfl rfl, ?_⟩
        have hstep := ih.1
        simp [step, LedSwitch.step, UartRxController.step, UartRxController.nextStateDecode, hstep,
          UartRxController.bufferToRegister, ih.2]
      · exact ih
  exact h.2

/-- Pixel and LED clock take turns. -/
def turns (n : Nat) : Bool := n % 2 = 1

theorem turns_fresh :
    (after step powerUp (oneRise turns) 10).leds.neoPixel.pixelGenerator.pixelBlockRegister = 1 :=
  (fresh_iff (p := 0) (n := 9) (oneRise_schedule rfl fun n h => by simp [turns] at h ⊢; omega) (oneRise_mode turns)
    ⟨rfl, rfl⟩ ⟨by omega, fun t h1 _ h => absurd (oneRise_changes rfl h) (by omega), rfl, by decide +kernel,
      by decide +kernel⟩).2 (.inl rfl)

/-- Whenever the pulse of a latch starts an idle sequencer, it loads what was latched. -/
def NeverOvertakes (e : Nat → Event num_blocks) : Prop :=
  ∀ p n new, Latches e p new → Starts e p n →
    (after step powerUp e (n + 1)).leds.neoPixel.pixelGenerator.pixelBlockRegister = new

/-- Two pixel edges come first. -/
def lateTurns (n : Nat) : Bool := 2 ≤ n ∧ n % 2 = 0

/-- With both pixel edges between two edges of `clk_50` the old framebuffer is loaded. -/
theorem late_turns_stale : Schedule (oneRise lateTurns) ∧
    (∀ n, (oneRise lateTurns n).isClk50 = true ∨ (oneRise lateTurns (n + 1)).isClk50 = true ∨
      (oneRise lateTurns (n + 2)).isClk50 = true) ∧
    (∀ n, (after step powerUp (oneRise lateTurns) n).leds.uart.mode = 1) ∧ ¬ NeverOvertakes (oneRise lateTurns) := by
  refine ⟨oneRise_schedule rfl fun n h => by simp [lateTurns] at h ⊢; omega, fun n => ?_, oneRise_mode lateTurns,
    fun h => ?_⟩
  · simp only [oneRise_clk_50, lateTurns, decide_eq_true_eq]
    omega
  · have hload := h 0 8 1 ⟨rfl, rfl⟩ ⟨by omega, fun t h1 _ h => absurd (oneRise_changes rfl h) (by omega), rfl,
      by decide +kernel, by decide +kernel⟩
    exact absurd hload (by decide +kernel)

end DinoLight.ClockCrossing
