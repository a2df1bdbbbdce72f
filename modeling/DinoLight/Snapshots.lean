import DinoLight.Progress
/-!
# Snapshots

The sequencer latches `blocks` and `block_counts` when it starts, both at one
edge, and the driver sends what it latched. A frame is that of its own `run`
as long as none falls in the reset time; one that does starts the sequencer
alone, and the next frame is the one of that time.
-/
open Clocked Pulses

namespace DinoLight.Snapshots
open NeopixelTop Frames
open NeoPixelDriver (Resting)

variable {num_blocks : Nat} {s : Nat → Regs num_blocks} {w : Nat → Inputs num_blocks}

/-- Whatever `run`, `blocks` and `block_counts` do, a completed driver run
sends the frame of one snapshot, both registers loaded at the same edge, and
later runs send later snapshots. -/
theorem frame_integrity (hN : 0 < num_blocks) (w : Nat → Inputs num_blocks) :
    let s := after step powerUp w
    (∀ a e, DriverRun s a e → ∃ L, LastLoad s w e L ∧
      pulses (wire s a e) = framePulses (w L).blocks (w L).block_counts) ∧
    ∀ a e L a' e' L', DriverRun s a e → DriverRun s a' e' → LastLoad s w e L → LastLoad s w e' L' →
      a < a' → L < L' := by
  refine ⟨fun a e hr => run_pulses hN after_follows powerUp_inv rfl hr, ?_⟩
  intro a e L a' e' L' hr hr' hL hL' ha
  exact Nat.lt_of_lt_of_le hL.before (load_after_run hN after_follows powerUp_inv hr hr' ha hL')

/-- The colours of two blocks: one LED and two, in the first cycle and later. -/
def earlyColours : BitVec (2 * 24) := 0xFF008000FF00

def lateColours : BitVec (2 * 24) := 0x0000FF808080

def oneAndTwo : BitVec (2 * 8) := 0x0102

/-- These blocks, run in the cycles of `ts`. -/
def runs (ts : List Nat) (n : Nat) : Inputs 2 where
  run := n ∈ ts
  blocks := if n = 0 then earlyColours else lateColours
  block_counts := oneAndTwo

theorem colours_differ : framePulses lateColours oneAndTwo ≠ framePulses earlyColours oneAndTwo := by decide +kernel

/-- A further `run` changes nothing before its cycle. -/
theorem runs_extend (ts : List Nat) (t : Nat) :
    ∀ n ≤ t, after step powerUp (runs (ts ++ [t])) n = after step powerUp (runs ts) n := by
  have hlong : Follows step (runs (ts ++ [t])) (after step powerUp (runs (ts ++ [t]))) := after_follows
  have hshort : Follows step (runs ts) (after step powerUp (runs ts)) := after_follows
  exact hlong.agree hshort rfl fun n hn _ => by simp [runs, Nat.ne_of_lt hn]

/-- A `run` in cycle 0, and one when both machines are idle again. -/
theorem two_runs : ∃ K e e', 0 < K ∧ DriverRun (after step powerUp (runs [0, K])) 0 e ∧
    (after step powerUp (runs [0, K]) K).pixelGenerator.state = .idle ∧
    DriverRun (after step powerUp (runs [0, K])) K e' := by
  have hN : 0 < 2 := Nat.two_pos
  have hfirst : Follows step (runs [0]) (after step powerUp (runs [0])) := after_follows
  obtain ⟨e, he⟩ := Progress.run_completes hN hfirst powerUp_inv (a := 0) rfl rfl
  obtain ⟨K, hK, hg, hd⟩ := Progress.rests_after hN hfirst powerUp_inv he fun t ht => by
    have := he.lt
    simp [runs, show t ≠ 0 by omega]
  have hsame := runs_extend [0] K
  rw [← hsame K (Nat.le_refl K)] at hg hd
  obtain ⟨e', he'⟩ := Progress.run_completes hN after_follows powerUp_inv hd (by simp [runs])
  exact ⟨K, e, e', Nat.zero_lt_of_lt hK, he.congr fun t ht => hsame t (by omega), hg, he'⟩

theorem two_runs_sent : ∃ K e e',
    let s := after step powerUp (runs [0, K])
    DriverRun s 0 e ∧ LastLoad s (runs [0, K]) e 0 ∧ pulses (wire s 0 e) = framePulses earlyColours oneAndTwo ∧
      DriverRun s K e' ∧ LastLoad s (runs [0, K]) e' K ∧ pulses (wire s K e') = framePulses lateColours oneAndTwo ∧
      0 < K := by
  obtain ⟨K, e, e', hK, he, hg, he'⟩ := two_runs
  have hN : 0 < 2 := Nat.two_pos
  obtain ⟨hsent, hlater⟩ := frame_integrity hN (runs [0, K])
  have hload := lastLoad_start hN after_follows powerUp_inv he rfl
  have hload' := lastLoad_start hN after_follows powerUp_inv he' hg
  obtain ⟨L, hL, hp⟩ := hsent 0 e he
  obtain ⟨L', hL', hp'⟩ := hsent K e' he'
  obtain rfl := hL.unique hload
  obtain rfl := hL'.unique hload'
  have hblocks : (runs [0, L'] L').blocks = lateColours := if_neg (Nat.ne_of_gt hK)
  rw [hblocks] at hp'
  exact ⟨L', e, e', he, hL, hp, he', hL', hp', hlater 0 e 0 L' e' L' he he' hL hL' hK⟩

/-! ## The frame of the trigger -/

/-- Both machines start at every `run` that wakes the driver, and the frame the
driver then sends is that of the blocks and counts present at that `run`. -/
structure InStep (w : Nat → Inputs num_blocks) : Prop where
  together : let s := after step powerUp w
    ∀ n, (s n).neopixel_drive.state = .idle → (w n).run = true →
      (s n).pixelGenerator.state = .idle ∧ (s (n + 1)).pixelGenerator.state = .start
  shown : let s := after step powerUp w
    ∀ a e, DriverRun s a e → pulses (wire s a e) = framePulses (w a).blocks (w a).block_counts

/-- If no `run` falls in the reset time, the sequencer rests whenever the driver does. -/
theorem idle_of_resting (hN : 0 < num_blocks) (hs : Follows step w s) (h0 : Inv (s 0))
    (hidle : (s 0).pixelGenerator.state = .idle)
    (hw : ∀ n, (w n).run = true → (s n).neopixel_drive.state ≠ .display) (n : Nat)
    (hr : Resting (s n).neopixel_drive) : (s n).pixelGenerator.state = .idle := by
  induction n with
  | zero => exact hidle
  | succ n ih =>
    have hinv := hs.inv h0 (fun _ i => step_inv hN i) n
    rw [hs n] at hr ⊢
    by_cases hr' : Resting (s n).neopixel_drive
    · apply idle_keep (ih hr')
      intro hl
      rcases hr' with hd | hd
      · exact wake_busy hd hl.2 hr
      · exact hw n hl.2 hd
    · exact (frame_end hinv hr' hr).2.2.2

/-- As long as no `run` falls in a cycle in which the driver holds the reset
time, the frame shown is the frame that triggered it. -/
theorem frame_of_trigger (hN : 0 < num_blocks) (w : Nat → Inputs num_blocks)
    (hw : ∀ n, (w n).run = true → (after step powerUp w n).neopixel_drive.state ≠ .display) : InStep w where
  together n hd hrun := by
    have hidle := idle_of_resting hN after_follows powerUp_inv rfl hw n (.inl hd)
    exact ⟨hidle, BlockToPixel.start_step hidle hrun⟩
  shown a e hr := by
    have hidle := idle_of_resting hN after_follows powerUp_inv rfl hw a (.inl hr.leaves.1)
    exact start_shows hN after_follows powerUp_inv rfl hr hidle

/-- Each of the two frames is that of its own `run`. -/
theorem two_runs_in_step : ∃ K e e',
    let s := after step powerUp (runs [0, K])
    InStep (runs [0, K]) ∧ DriverRun s 0 e ∧ DriverRun s K e' ∧ pulses (wire s K e') ≠ pulses (wire s 0 e) := by
  obtain ⟨K, e, e', hK, he, -, he'⟩ := two_runs
  have hstep : InStep (runs [0, K]) := frame_of_trigger Nat.two_pos (runs [0, K]) fun n hn hd => by
    have hidle : (after step powerUp (runs [0, K]) n).neopixel_drive.state = .idle := by
      simp only [runs, List.mem_cons, List.not_mem_nil, or_false, decide_eq_true_eq] at hn
      rcases hn with rfl | rfl
      · rfl
      · exact he'.leaves.1
    cases hidle.symm.trans hd
  have hblocks : (runs [0, K] K).blocks = lateColours := if_neg (Nat.ne_of_gt hK)
  refine ⟨K, e, e', hstep, he, he', ?_⟩
  rw [hstep.shown 0 e he, hstep.shown K e' he', hblocks]
  exact colours_differ

/-- A sequencer that waits for the last acknowledgement waits through the
driver's reset time. -/
theorem reset_time (hs : Follows step w s) (hinv : ∀ n, Inv (s n)) {n : Nat}
    (hd : (s n).neopixel_drive.state = .display) (hg : (s n).pixelGenerator.state = .waitForLastAck) (k : Nat)
    (hk : (s n).neopixel_drive.counter.toNat + k ≤ 2500) : (s (n + k)).pixelGenerator.state = .waitForLastAck := by
  induction k with
  | zero => exact hg
  | succ k ih =>
    have hd' := (display_lasts hs hd k (by omega)).1
    have hack : (s (n + k)).neopixel_drive.ack_pixel = false := by
      simp [(hinv (n + k)).drive.ack, NeoPixelDriver.ackOutput, hd']
    rw [← Nat.add_assoc, hs]
    exact BlockToPixel.lastAck_keep (ih (by omega)) hack

/-- One block without LEDs, run in cycles 0, 20 (in the reset time of the first
frame) and 2509 (the first cycle after it). -/
def lateRun (n : Nat) : Inputs 1 where
  run := n = 0 ∨ n = 20 ∨ n = 2509
  blocks := 0
  block_counts := 0

/-- The `run` in the reset time starts the sequencer alone; the next one wakes
the driver for what the sequencer latched then. -/
theorem late_run_out_of_step : ¬ InStep lateRun := by
  intro h
  have hinv : ∀ n, Inv (after step powerUp lateRun n) :=
    after_inv powerUp_inv (fun _ i => step_inv Nat.one_pos i)
  have hlate : (after step powerUp lateRun 29).neopixel_drive.state = .display ∧
      (after step powerUp lateRun 29).pixelGenerator.state = .waitForLastAck ∧
      (after step powerUp lateRun 29).neopixel_drive.counter.toNat = 21 := by decide +kernel
  have hg := reset_time after_follows hinv hlate.1 hlate.2.1 2479 (by omega)
  obtain ⟨hd, hc⟩ := display_lasts after_follows hlate.1 2479 (by omega)
  have hidle : (after step powerUp lateRun 2509).neopixel_drive.state = .idle :=
    NeoPixelDriver.display_end _ hd (Nat.le_of_eq (hc.trans (by rw [hlate.2.2])).symm)
  have hst := (h.together 2509 hidle rfl).1
  have hack : (after step powerUp lateRun 2508).neopixel_drive.ack_pixel = false := by
    simp [(hinv 2508).drive.ack, NeoPixelDriver.ackOutput, hd]
  have hnot := (BlockToPixel.idle_step _ (generatorInputs (after step powerUp lateRun 2508) (lateRun 2508))).1 hst
  simp [hg, generatorInputs, hack] at hnot

end DinoLight.Snapshots
