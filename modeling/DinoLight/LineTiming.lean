import DinoLight.Progress
/-!
# Timing of the LED wire

The strip latches when the wire is low for long. Inside a frame that does not
happen: the driver takes 64 cycles for a bit, so by the time it has sent 24 of
them the sequencer has walked over every block that may follow (`InTime`) and
the next pixel is there. Between two frames the driver holds the reset time.
-/
open Clocked

namespace DinoLight.LineTiming
open NeopixelTop Frames
open NeoPixelDriver (Resting)

variable {num_blocks : Nat}

/-- The wire is high in cycle `t`. -/
def High (s : Nat → Regs num_blocks) (t : Nat) : Prop := (s t).neopixel_drive.data_out = true

instance (s : Nat → Regs num_blocks) (t : Nat) : Decidable (High s t) := inferInstanceAs (Decidable (_ = true))

/-- High pulses belong to driver runs; inside a run the wire is never low for
more than 47 cycles between them, and between two runs it is for 2500. -/
structure Gaps (s : Nat → Regs num_blocks) : Prop where
  in_run : ∀ t, High s t → ∃ a e, DriverRun s a e ∧ a < t ∧ t < e
  within : ∀ a e t₁ t₂, DriverRun s a e → a < t₁ → t₁ < t₂ → t₂ < e → High s t₁ → High s t₂ →
    (∀ t, t₁ < t → t < t₂ → ¬ High s t) → t₂ - t₁ - 1 ≤ 47
  between : ∀ a e a' e' t₁ t₂, DriverRun s a e → DriverRun s a' e' → a < a' → a < t₁ → t₁ < e → a' < t₂ → t₂ < e' →
    High s t₁ → High s t₂ → ∃ u, t₁ < u ∧ u + 2500 ≤ t₂ ∧ ∀ t, u ≤ t → t < u + 2500 → ¬ High s t

/-! ## The race -/

/-- The cycles until the sequencer offers again, at most: five for each block
it may have to skip. -/
def toOffer (g : BlockToPixel.Regs num_blocks) : Nat :=
  match g.state with
  | .start => 5 * num_blocks + 1
  | .getCurrentInfo | .incLEDCount => 5 * (num_blocks - g.blockCounter)
  | .ledCountDecide => 5 * (num_blocks - g.blockCounter) - 1
  | .incBlockCount => 5 * (num_blocks - g.blockCounter) + 3
  | .shiftBlockRegister => 5 * (num_blocks - g.blockCounter) + 2
  | .blockCountDecide => 5 * (num_blocks - g.blockCounter) + 1
  | _ => 0

/-- The cycles until a driver that is sending a pixel asks for the next one. -/
def timeLeft (d : NeoPixelDriver.Regs) : Nat :=
  match d.state with
  | .writeState => (24 - d.curPos) * 64 + 1
  | .t0H | .t1H | .finishCycle => (24 - d.curPos) * 64 + 1 - d.counter.toNat
  | .incCount => (24 - d.curPos) * 64 + 2
  | _ => 0

theorem toOffer_le (g : BlockToPixel.Regs num_blocks) : toOffer g ≤ 5 * num_blocks + 3 := by
  unfold toOffer
  split <;> omega

theorem offered_of_toOffer {g : BlockToPixel.Regs num_blocks} (h : BlockToPixel.Inv g) (hg : g.state ≠ .idle)
    (ho : toOffer g = 0) : g.valid_pixel = true := by
  have hc := h.counted
  rw [h.valid]
  unfold BlockToPixel.Counted at hc
  unfold toOffer at ho
  cases hst : g.state <;> simp only [hst] at hc ho hg <;> first | rfl | omega | exact absurd rfl hg

/-- A sequencer that is active comes closer to its next offer. -/
theorem toOffer_step {g : BlockToPixel.Regs num_blocks} {i : BlockToPixel.Inputs num_blocks}
    (h : BlockToPixel.Inv g) (hg : g.state ≠ .idle) (ha : i.advance_pixel = false) :
    toOffer (BlockToPixel.step g i) ≤ toOffer g - 1 := by
  have he := BlockToPixel.edge_step g i
  have hc := h.counted
  generalize BlockToPixel.step g i = g' at he ⊢
  cases he with
  | rest h | load h => exact absurd h hg
  | taken _ ha' | finished _ ha' => simp [ha] at ha'
  | info h => rcases h with h | ⟨h, -⟩ <;> simp only [BlockToPixel.Counted, h] at hc <;> simp [toOffer, h, hc]
  | toCount h => rcases h with h | h <;> simp [toOffer, h]
  | blockDone h =>
    simp only [BlockToPixel.Counted, h] at hc
    simp only [toOffer, h]
    omega
  | stuck h => simp only [BlockToPixel.Counted, h] at hc
  | offer h | shift h | nextBlock h => simp [toOffer, h]
  | wait | waitLast | allDone => exact Nat.zero_le _

/-- A driver that is sending counts its time down; it starts with that of 24 bits. -/
theorem timeLeft_step {d : NeoPixelDriver.Regs} (i : NeoPixelDriver.Inputs) (h : NeoPixelDriver.Inv d) :
    timeLeft (NeoPixelDriver.step d i) + 1 = timeLeft d ∨
      timeLeft d = 0 ∧ (timeLeft (NeoPixelDriver.step d i) = 0 ∨ timeLeft (NeoPixelDriver.step d i) = 1537) := by
  have he := NeoPixelDriver.edge_step d i
  have ht := h.timed
  generalize NeoPixelDriver.step d i = d' at he ⊢
  cases he with
  | rest h | wake h | hold h | grant h | last h | reset h | shown h =>
    exact .inr ⟨by simp [timeLeft, h], .inl (by simp [timeLeft, h])⟩
  | other h => rcases h with h | h | h | h <;> simp [NeoPixelDriver.Timed, h] at ht
  | send h =>
    simp only [NeoPixelDriver.Timed, h] at ht
    exact .inr ⟨by simp [timeLeft, h], .inr (by simp [timeLeft, ht])⟩
  | sent h hp => exact .inl (by simp [timeLeft, h, Nat.sub_eq_zero_of_le hp])
  | nextBit h => exact .inl (by simp [timeLeft, h])
  | rise b h hp =>
    simp only [NeoPixelDriver.Timed, h] at ht
    refine .inl ?_
    cases b <;> simp [timeLeft, h, NeoPixelDriver.highState, ht]
  | high b h hc =>
    rw [NeoPixelDriver.timed_high h] at ht
    have hw := NeoPixelDriver.width_bounds b
    have hn := NeoPixelDriver.counter_succ (c := d.counter) (by omega)
    refine .inl ?_
    cases b <;> simp only [h, timeLeft, NeoPixelDriver.highState, hn] <;> simp <;> omega
  | fall b h hc =>
    rw [NeoPixelDriver.timed_high h] at ht
    have hw := NeoPixelDriver.width_bounds b
    have hn := NeoPixelDriver.counter_succ (c := d.counter) (by omega)
    refine .inl ?_
    cases b <;> simp only [h, timeLeft, NeoPixelDriver.highState, hn] <;> simp <;> omega
  | low h hc =>
    simp only [NeoPixelDriver.Timed, h] at ht
    have hn := NeoPixelDriver.counter_succ (c := d.counter) (by omega)
    refine .inl ?_
    simp only [h, timeLeft, hn]
    omega
  | shift h hc =>
    simp only [NeoPixelDriver.Timed, h] at ht
    refine .inl ?_
    simp only [h, timeLeft]
    omega

/-- The sequencer will offer before a driver that is sending asks. -/
def InTime (s : Regs num_blocks) : Prop :=
  timeLeft s.neopixel_drive = 0 ∨ toOffer s.pixelGenerator ≤ timeLeft s.neopixel_drive

theorem timeLeft_resting {d : NeoPixelDriver.Regs} (h : Resting d ∨ d.state = .ack) : timeLeft d = 0 := by
  rcases h with (h | h) | h <;> simp [timeLeft, h]

theorem toOffer_sending {s : Regs num_blocks} (i : Inputs num_blocks) (h : Inv s) (ht : InTime s)
    (hd : timeLeft s.neopixel_drive ≠ 0) :
    toOffer (step s i).pixelGenerator ≤ timeLeft (step s i).neopixel_drive := by
  have hleft := timeLeft_step (driveInputs s i) h.drive
  have hg : s.pixelGenerator.state ≠ .idle := h.busy fun hr => hd (timeLeft_resting (.inl hr))
  have ha : (generatorInputs s i).advance_pixel = false := by
    have hack := (ack_pixel_iff h).not.2 fun hack => hd (timeLeft_resting (.inr hack))
    simpa [generatorInputs] using hack
  have hoffer := toOffer_step h.generator hg ha
  unfold InTime at ht
  simp only [step]
  omega

theorem inTime_step (hN : num_blocks ≤ 300) {s : Regs num_blocks} (i : Inputs num_blocks) (h : Inv s)
    (ht : InTime s) : InTime (step s i) := by
  by_cases hd : timeLeft s.neopixel_drive = 0
  · -- a pixel that starts takes longer than any walk over the blocks
    have hleft := timeLeft_step (driveInputs s i) h.drive
    have hwalk := toOffer_le (step s i).pixelGenerator
    unfold InTime
    simp only [step] at hwalk ⊢
    omega
  · exact .inr (toOffer_sending i h ht hd)

/-! ## The wire inside a run -/

/-- How long the wire has been low, at most, when every pixel asked for was there. -/
def lowFor (d : NeoPixelDriver.Regs) : Nat :=
  match d.state with
  | .finishCycle => d.counter.toNat - 20
  | .incCount => 43
  | .writeState => if d.curPos = 0 then 47 else 44
  | .waitForValid => 45
  | .ack => 46
  | _ => 0

theorem lowFor_le {d : NeoPixelDriver.Regs} (h : NeoPixelDriver.Inv d) : lowFor d ≤ 47 := by
  have ht := h.timed
  unfold NeoPixelDriver.Timed at ht
  unfold lowFor
  cases hst : d.state <;> simp only [hst] at ht ⊢ <;> first | omega | (split <;> omega)

theorem lowFor_step {d : NeoPixelDriver.Regs} {i : NeoPixelDriver.Inputs} (h : NeoPixelDriver.Inv d)
    (hb : ¬ Resting d) (hb' : ¬ Resting (NeoPixelDriver.step d i))
    (hv : d.state = .waitForValid → i.valid_pixel = true) (hlow : (NeoPixelDriver.step d i).data_out = false) :
    lowFor d < lowFor (NeoPixelDriver.step d i) := by
  have he := NeoPixelDriver.edge_step d i
  have ht := h.timed
  generalize NeoPixelDriver.step d i = d' at he hb' hlow ⊢
  cases he with
  | rest h | wake h => exact absurd (.inl h) hb
  | reset h | shown h => exact absurd (.inr h) hb
  | last => exact absurd (.inr rfl) hb'
  | other => exact absurd (.inl rfl) hb'
  | rise | high => cases hlow
  | hold h hn => simp [hv h] at hn
  | grant h => simp [lowFor, h]
  | send h => simp only [NeoPixelDriver.Timed, h] at ht; simp [lowFor, h, ht]
  | sent h hp =>
    have hne : d.curPos ≠ 0 := by omega
    simp [lowFor, h, hne]
  | nextBit h =>
    simp only [lowFor, h]
    split <;> omega
  | fall b h hc =>
    rw [NeoPixelDriver.timed_high h] at ht
    have hw := NeoPixelDriver.width_bounds b
    have hn := NeoPixelDriver.counter_succ (c := d.counter) (by omega)
    cases b <;> simp only [lowFor, h, NeoPixelDriver.highState, hn] <;> simp <;> omega
  | low h =>
    simp only [NeoPixelDriver.Timed, h] at ht
    have hn := NeoPixelDriver.counter_succ (c := d.counter) (by omega)
    simp only [lowFor, h, hn]
    omega
  | shift h =>
    simp only [NeoPixelDriver.Timed, h] at ht
    simp only [lowFor, h]
    omega

/-- A driver asks when it wakes, when it got no answer, or after a pixel. -/
theorem asks_step {d : NeoPixelDriver.Regs} {i : NeoPixelDriver.Inputs}
    (ha : (NeoPixelDriver.step d i).state = .waitForValid) :
    Resting d ∨ d.state = .waitForValid ∧ i.valid_pixel = false ∨ timeLeft d ≠ 0 := by
  have he := NeoPixelDriver.edge_step d i
  generalize NeoPixelDriver.step d i = d' at he ha
  cases he with
  | wake h => exact .inl (.inl h)
  | hold h hv => exact .inr (.inl ⟨h, hv⟩)
  | sent h => exact .inr (.inr (by simp [timeLeft, h]))
  | rise b | high b => cases b <;> simp_all [NeoPixelDriver.highState]
  | _ => simp_all

theorem high_busy {d : NeoPixelDriver.Regs} (h : NeoPixelDriver.Inv d) (hi : d.data_out = true) :
    ¬ Resting d ∧ d.state ≠ .waitForValid := by
  rw [h.out] at hi
  refine ⟨?_, fun hd => by simp [NeoPixelDriver.outputProcess, hd] at hi⟩
  rintro (hd | hd) <;> simp [NeoPixelDriver.outputProcess, hd] at hi

section Runs
variable {s : Nat → Regs num_blocks} {w : Nat → Inputs num_blocks}

/-- After a high cycle of a run, the wire has been low for what the driver's
state accounts for, and a pixel asked for is there. -/
theorem low_since (hs : Follows step w s) (hinv : ∀ n, Inv (s n)) (htime : ∀ n, InTime (s n)) {t : Nat}
    (hi : High s t) (k : Nat) (hb : ∀ j, j ≤ k → ¬ Resting (s (t + j)).neopixel_drive)
    (hlow : ∀ j, 0 < j → j ≤ k → ¬ High s (t + j)) :
    k ≤ lowFor (s (t + k)).neopixel_drive ∧
      ((s (t + k)).neopixel_drive.state = .waitForValid → (s (t + k)).pixelGenerator.valid_pixel = true) := by
  induction k with
  | zero => exact ⟨Nat.zero_le _, fun hd => absurd hd (high_busy (hinv t).drive hi).2⟩
  | succ k ih =>
    obtain ⟨hk, hv⟩ := ih (fun j h => hb j (by omega)) (fun j h0 h => hlow j h0 (by omega))
    have hbk := hb k (Nat.le_succ k)
    have hb' := hb (k + 1) (Nat.le_refl _)
    have hlow' : (s (t + k + 1)).neopixel_drive.data_out = false := by
      exact eq_false_of_ne_true (hlow (k + 1) (Nat.succ_pos k) (Nat.le_refl _))
    rw [← Nat.add_assoc] at hb' ⊢
    rw [hs (t + k)] at hb' hlow' ⊢
    constructor
    · exact Nat.lt_of_le_of_lt hk (lowFor_step (hinv _).drive hbk hb' hv hlow')
    · intro ha
      rcases asks_step ha with hd | ⟨hd, hn⟩ | hd
      · exact absurd hd hbk
      · exact absurd (hv hd) (by simpa [driveInputs] using hn)
      · -- it asks when its time is up, and the sequencer was in time
        have hoffer := toOffer_sending (w (t + k)) (hinv _) (htime _) hd
        have hup : timeLeft (step (s (t + k)) (w (t + k))).neopixel_drive = 0 := by simp [timeLeft, ha]
        have hinv' := hinv (t + k + 1)
        rw [hs (t + k)] at hinv'
        exact offered_of_toOffer hinv'.generator (hinv'.busy hb') (by omega)

/-- A driver in a frame was woken since it last rested. -/
theorem woken (hs : Follows step w s) (hidle : (s 0).neopixel_drive.state = .idle) {t : Nat}
    (hb : ¬ Resting (s t).neopixel_drive) : ∃ a, a < t ∧ (s a).neopixel_drive.state = .idle ∧ (w a).run = true ∧
      ∀ j, a < j → j ≤ t → ¬ Resting (s j).neopixel_drive := by
  induction t with
  | zero => exact absurd (.inl hidle) hb
  | succ t ih =>
    by_cases hr : Resting (s t).neopixel_drive
    · rw [hs t] at hb
      obtain ⟨hd, hrun⟩ := NeoPixelDriver.wakes hr hb
      refine ⟨t, Nat.lt_succ_self t, hd, hrun, ?_⟩
      intro j h1 h2
      obtain rfl : j = t + 1 := by omega
      rwa [hs t]
    · obtain ⟨a, ha, hd, hrun, hin⟩ := ih hr
      refine ⟨a, by omega, hd, hrun, ?_⟩
      intro j h1 h2
      rcases Nat.le_succ_iff.1 h2 with h2 | rfl
      · exact hin j h1 h2
      · exact hb

theorem high_in_run (hN : 0 < num_blocks) (hs : Follows step w s) (h0 : Inv (s 0))
    (hidle : (s 0).neopixel_drive.state = .idle) {t : Nat} (hi : High s t) :
    ∃ a e, DriverRun s a e ∧ a < t ∧ t < e := by
  have hb := (high_busy (hs.inv h0 (fun _ i => step_inv hN i) t).drive hi).1
  obtain ⟨a, hat, hd, hrun, hin⟩ := woken hs hidle hb
  obtain ⟨e, he⟩ := Progress.run_completes hN hs h0 hd hrun
  refine ⟨a, e, he, hat, ?_⟩
  by_contra hle
  exact hin e he.lt (by omega) (.inr he.enters)

/-! ## The wire between two runs -/

/-- The wire is low for the 2500 cycles after a run, and no run starts in them. -/
theorem reset_low (hN : 0 < num_blocks) (hs : Follows step w s) (h0 : Inv (s 0)) {a e : Nat} (hr : DriverRun s a e)
    {t : Nat} (h1 : e ≤ t) (h2 : t < e + 2500) : (s t).neopixel_drive.state = .display := by
  obtain ⟨n, rfl, hack, hg, -⟩ := hr.last hN hs h0
  have hinv := hs.inv h0 (fun _ i => step_inv hN i) (a + n + 1)
  have hc : (s (a + n + 1 + 1)).neopixel_drive.counter.toNat = 1 := by
    rw [hs]
    exact NeoPixelDriver.last_counter hinv.drive hack ((last_pixel_iff hinv hack).2 hg)
  have hd := (display_lasts hs hr.enters (t - (a + n + 1 + 1)) (by omega)).1
  rwa [show a + n + 1 + 1 + (t - (a + n + 1 + 1)) = t by omega] at hd

theorem later_run (hN : 0 < num_blocks) (hs : Follows step w s) (h0 : Inv (s 0)) {a e a' e' : Nat}
    (hr : DriverRun s a e) (hr' : DriverRun s a' e') (ha : a < a') : e + 2500 ≤ a' := by
  have he := hr.le_later hN hs h0 hr' ha
  by_contra hlt
  have hd := reset_low hN hs h0 hr he (by omega)
  cases hd.symm.trans hr'.leaves.1

end Runs

/-- With 1 to 300 blocks, the wire is low for at most 47 cycles between the
pulses of a frame and for 2500 between those of two frames, whatever `run`,
`blocks` and `block_counts` do. -/
theorem line_timing (hN : 0 < num_blocks) (h300 : num_blocks ≤ 300) (w : Nat → Inputs num_blocks) :
    Gaps (after step powerUp w) where
  in_run t hi := high_in_run hN after_follows powerUp_inv rfl hi
  within a e t₁ t₂ hr h1 h12 h2 hi₁ hi₂ hlow := by
    have hall : ∀ n, Inv (after step powerUp w n) ∧ InTime (after step powerUp w n) :=
      after_inv (I := fun s => Inv s ∧ InTime s) ⟨powerUp_inv, .inl rfl⟩ fun _ i h =>
        ⟨step_inv hN i h.1, inTime_step h300 i h.1 h.2⟩
    obtain ⟨k, rfl⟩ : ∃ k, t₂ = t₁ + k + 1 := ⟨t₂ - t₁ - 1, by omega⟩
    have hsince := (low_since after_follows (fun n => (hall n).1) (fun n => (hall n).2) hi₁ k
      (fun j hj => by
        rw [show t₁ + j = a + (t₁ + j - a - 1) + 1 by omega]
        exact hr.busy hN after_follows powerUp_inv (by omega))
      (fun j h0 hj => hlow (t₁ + j) (by omega) (by omega))).1
    have hmax := lowFor_le (hall (t₁ + k)).1.drive
    omega
  between a e a' e' t₁ t₂ hr hr' ha _ h1 h2 _ _ _ := by
    have hlater := later_run hN after_follows powerUp_inv hr hr' ha
    refine ⟨e, h1, by omega, ?_⟩
    intro t h1 h2 hi
    have hd := reset_low hN after_follows powerUp_inv hr h1 h2
    exact (high_busy (after_inv powerUp_inv (fun _ i => step_inv hN i) t).drive hi).1 (.inr hd)

/-- One block of one LED, run once. -/
def oneLed (n : Nat) : Inputs 1 where
  run := n = 0
  blocks := 0
  block_counts := 1

theorem one_led_timing : High (after step powerUp oneLed) 26 ∧ High (after step powerUp oneLed) 71 ∧
    Gaps (after step powerUp oneLed) :=
  ⟨by decide +kernel, by decide +kernel, line_timing Nat.one_pos (by decide) oneLed⟩

end DinoLight.LineTiming
