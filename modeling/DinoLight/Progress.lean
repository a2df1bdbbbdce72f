import DinoLight.Frames
/-!
# Every frame ends

`rank` bounds the cycles until a driver in a frame takes the last
acknowledgement: the pixels to acknowledge, the bits of the current one, and
the sequencer's way to its next offer.
-/
open Clocked Pulses

namespace DinoLight.Progress
open NeopixelTop Frames
open NeoPixelDriver (Resting)

variable {num_blocks : Nat}

/-- The driver's way to the next grant. -/
def work (d : NeoPixelDriver.Regs) : Nat :=
  match d.state with
  | .waitForValid => 1
  | .writeState => (24 - d.curPos) * 70 + 2
  | .incCount => (24 - d.curPos) * 70 + 3
  | .t0H | .t1H | .finishCycle => (24 - d.curPos) * 70 - d.counter.toNat
  | _ => 0

/-- The sequencer's way to its next offer. -/
def distance (g : BlockToPixel.Regs num_blocks) : Nat :=
  8 * (num_blocks - g.blockCounter) + match g.state with
    | .start => 7
    | .getCurrentInfo | .incLEDCount => 6
    | .ledCountDecide => 5
    | .writeOutPixel => 4
    | .waitForAck => 3
    | .incBlockCount => 12
    | .shiftBlockRegister => 11
    | .blockCountDecide => 10
    | .finish => 2
    | _ => 1

def rank (s : Regs num_blocks) : Nat :=
  (BlockToPixel.remaining s.pixelGenerator).length * 2000 + work s.neopixel_drive + distance s.pixelGenerator

/-- In a frame the driver works towards the next grant, or waits for an offer. -/
theorem work_step {d : NeoPixelDriver.Regs} {i : NeoPixelDriver.Inputs} (h : NeoPixelDriver.Inv d)
    (hb : ¬ Resting d) (ha : d.state ≠ .ack) :
    if d.state = .waitForValid ∧ i.valid_pixel = false then work (NeoPixelDriver.step d i) = work d
    else work (NeoPixelDriver.step d i) < work d := by
  have he := NeoPixelDriver.edge_step d i
  generalize NeoPixelDriver.step d i = d' at he ⊢
  have ht := h.timed
  cases he with
  | rest h | wake h => exact absurd (.inl h) hb
  | reset h | shown h => exact absurd (.inr h) hb
  | hold h hv => simp [h, hv, work]
  | grant h hv => simp [h, hv, work]
  | send h | last h => exact absurd h ha
  | rise b h hp hb =>
    simp only [NeoPixelDriver.Timed, h] at ht
    cases b <;> simp [h, work, NeoPixelDriver.highState, ht] <;> omega
  | sent h hp => simp [h, work]
  | high b h hc =>
    rw [NeoPixelDriver.timed_high h] at ht
    have hn := NeoPixelDriver.counter_succ (c := d.counter) (by have := NeoPixelDriver.width_bounds b; omega)
    have hw := NeoPixelDriver.width_bounds b
    cases b <;> simp only [h, work, NeoPixelDriver.highState, hn] <;> simp <;> omega
  | fall b h hc =>
    rw [NeoPixelDriver.timed_high h] at ht
    have hw := NeoPixelDriver.width_bounds b
    have hn := NeoPixelDriver.counter_succ (c := d.counter) (by omega)
    cases b <;> simp only [h, work, NeoPixelDriver.highState, hn] <;> simp <;> omega
  | low h hc =>
    simp only [NeoPixelDriver.Timed, h] at ht
    have hn := NeoPixelDriver.counter_succ (c := d.counter) (by omega)
    simp only [h, work, hn]
    simp
    omega
  | shift h hc =>
    simp only [NeoPixelDriver.Timed, h] at ht
    simp only [h, work]
    simp
    omega
  | nextBit h => simp [h, work]
  | other h => rcases h with h | h | h | h <;> simp [NeoPixelDriver.Timed, h] at ht

/-- A sequencer that is not idle comes closer to its offer, or keeps offering. -/
theorem distance_step {g : BlockToPixel.Regs num_blocks} {i : BlockToPixel.Inputs num_blocks}
    (h : BlockToPixel.Inv g) (hg : g.state ≠ .idle) (ha : i.advance_pixel = false) :
    distance (BlockToPixel.step g i) ≤ distance g ∧
      (g.valid_pixel = false → distance (BlockToPixel.step g i) < distance g) := by
  have he := BlockToPixel.edge_step g i
  have hc := h.counted
  rw [h.valid]
  generalize BlockToPixel.step g i = g' at he ⊢
  cases he with
  | rest h | load h => exact absurd h hg
  | taken _ ha' | finished _ ha' => simp [ha] at ha'
  | info h => rcases h with h | ⟨h, -⟩ <;> simp [distance, h]
  | toCount h => rcases h with h | h <;> simp [distance, h]
  | blockDone h hp =>
    simp only [BlockToPixel.Counted, h] at hc
    simp only [distance, h]
    omega
  | wait h => rcases h with h | ⟨h, -⟩ <;> simp [distance, h, BlockToPixel.pixelRead]
  | waitLast h => rcases h with h | ⟨h, -⟩ <;> simp [distance, h, BlockToPixel.pixelRead]
  | allDone h hk => simp [distance, h, hk]
  | offer h | shift h | nextBlock h => simp [distance, h]
  | stuck h => simp only [BlockToPixel.Counted, h] at hc

/-- A step in a frame ends it or lowers the rank. -/
theorem rank_step (hN : 0 < num_blocks) {s : Regs num_blocks} (i : Inputs num_blocks) (h : Inv s)
    (hb : ¬ Resting s.neopixel_drive) :
    (step s i).neopixel_drive.state = .display ∨
      ¬ Resting (step s i).neopixel_drive ∧ rank (step s i) < rank s := by
  by_cases hr : Resting (step s i).neopixel_drive
  · exact .inl (frame_end h hb hr).2.2.1
  refine .inr ⟨hr, ?_⟩
  have hg := h.busy hb
  have hrem := BlockToPixel.remaining_step hN (generatorInputs s i) h.generator
  rw [if_neg fun hl => hg hl.1] at hrem
  by_cases hack : s.neopixel_drive.state = .ack
  · have ha := (ack_pixel_iff h).2 hack
    rcases h.acked hack with ⟨hg', -⟩ | hg'
    · -- the granted pixel is sent next
      rw [if_pos ⟨hg', ha⟩] at hrem
      have hlast : s.pixelGenerator.last_pixel = false := by simpa [hg'] using (last_pixel_iff h hack).not
      have hst := (NeoPixelDriver.send_step (i := driveInputs s i) h.drive hack hlast).1
      -- a bit takes less than 70 cycles, and the pixel counted for 2000
      have hpos : (24 - (step s i).neopixel_drive.curPos) * 70 ≤ 1680 := by omega
      have hd : distance (step s i).pixelGenerator = distance s.pixelGenerator + 3 := by
        simp [step, BlockToPixel.step, BlockToPixel.nextStateDecode, hg', generatorInputs, ha, distance,
          BlockToPixel.blockCounterManager]
      simp only [rank, hrem, List.length_cons, hd]
      simp only [step] at hpos ⊢
      simp only [work, hst, hack]
      omega
    · have hst := NeoPixelDriver.last_step (i := driveInputs s i) hack ((last_pixel_iff h hack).2 hg')
      exact absurd (.inr hst) hr
  · have ha : (generatorInputs s i).advance_pixel = false := by
      simpa [generatorInputs] using (ack_pixel_iff h).not.2 hack
    rw [if_neg (by simp [ha])] at hrem
    have hd := distance_step h.generator hg ha
    have hw := work_step (i := driveInputs s i) h.drive hb hack
    simp only [rank, step, hrem]
    split at hw
    case isTrue hwait =>
      -- while the driver waits the sequencer comes closer
      have := hd.2 hwait.2
      omega
    case isFalse => omega

/-- A driver in a frame reaches `display`. -/
theorem frame_ends (hN : 0 < num_blocks) {s : Nat → Regs num_blocks} {w : Nat → Inputs num_blocks}
    (hs : Follows step w s) (h0 : Inv (s 0)) {n : Nat} (hb : ¬ Resting (s n).neopixel_drive) :
    ∃ m, n < m ∧ (s m).neopixel_drive.state = .display ∧ ∀ t, n ≤ t → t < m → ¬ Resting (s t).neopixel_drive := by
  obtain ⟨m, hm, hd, hin⟩ := hs.reaches (I := fun s => Inv s ∧ ¬ Resting s.neopixel_drive)
    (P := fun s => s.neopixel_drive.state = .display) rank
    (fun s i h => (rank_step hN i h.1 h.2).imp_right fun h' => ⟨⟨step_inv hN i h.1, h'.1⟩, h'.2⟩)
    ⟨hs.inv h0 (fun _ i => step_inv hN i) n, hb⟩
  exact ⟨m, hm, hd, fun t h1 h2 => (hin t h1 h2).2⟩

/-- A driver that `run` wakes completes a run. -/
theorem run_completes (hN : 0 < num_blocks) {s : Nat → Regs num_blocks} {w : Nat → Inputs num_blocks}
    (hs : Follows step w s) (h0 : Inv (s 0)) {a : Nat} (hd : (s a).neopixel_drive.state = .idle)
    (hrun : (w a).run = true) : ∃ e, DriverRun s a e := by
  have hst : (s (a + 1)).neopixel_drive.state = .waitForValid := by
    rw [hs a]
    exact wake_step hd hrun
  obtain ⟨e, he, hdisp, hin⟩ := frame_ends hN hs h0 (n := a + 1) (by simp [Resting, hst])
  exact ⟨e, ⟨hd, by simp [hst]⟩, by omega, fun t h1 h2 h => hin t h1 h2 (.inr h), hdisp⟩

/-- The reset time ends. -/
theorem display_ends (hN : 0 < num_blocks) {s : Nat → Regs num_blocks} {w : Nat → Inputs num_blocks}
    (hs : Follows step w s) (h0 : Inv (s 0)) {n : Nat} (hd : (s n).neopixel_drive.state = .display) :
    ∃ m, n < m ∧ (s m).neopixel_drive.state = .idle ∧ ∀ t, n ≤ t → t < m → (s t).neopixel_drive.state = .display := by
  obtain ⟨m, hm, hidle, hin⟩ := hs.reaches (I := fun s => Inv s ∧ s.neopixel_drive.state = .display)
    (P := fun s => s.neopixel_drive.state = .idle) (fun s => 2500 - s.neopixel_drive.counter.toNat)
    (fun s i h => by
      rcases Nat.lt_or_ge s.neopixel_drive.counter.toNat 2500 with hc | hc
      · obtain ⟨hst, hn⟩ := NeoPixelDriver.display_step (driveInputs s i) h.2 hc
        exact .inr ⟨⟨step_inv hN i h.1, hst⟩, by simp only [step, hn]; omega⟩
      · exact .inl (NeoPixelDriver.display_end _ h.2 hc))
    ⟨hs.inv h0 (fun _ i => step_inv hN i) n, hd⟩
  exact ⟨m, hm, hidle, fun t h1 h2 => (hin t h1 h2).2⟩

/-- Without `run` after a completed run, both machines come to rest. -/
theorem rests_after (hN : 0 < num_blocks) {s : Nat → Regs num_blocks} {w : Nat → Inputs num_blocks}
    (hs : Follows step w s) (h0 : Inv (s 0)) {a e : Nat} (hr : DriverRun s a e)
    (hlow : ∀ t, e ≤ t → (w t).run = false) :
    ∃ n, e < n ∧ (s n).pixelGenerator.state = .idle ∧ (s n).neopixel_drive.state = .idle := by
  obtain ⟨n, hn, hidle, -⟩ := display_ends hN hs h0 hr.enters
  refine ⟨n, hn, ?_, hidle⟩
  have hkeep := idle_until_load hs (hr.ends hN hs h0) (n - e) fun t h1 _ hl => by
    simp [Loads, hlow t h1] at hl
  rwa [show e + (n - e) = n by omega] at hkeep

end DinoLight.Progress
