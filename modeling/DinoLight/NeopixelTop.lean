import DinoLight.BlockToPixel
import DinoLight.NeoPixelDriver
/-!
# `neopixel_top`

The sequencer and the driver see the same `run` and hand pixels over with
`valid`, `last` and `ack`. `Inv` relates the two machines whatever the inputs
do; `pending` is what the strip has yet to receive, and an edge moves at most
one bit of it onto the wire (`pending_step`).
-/
open Clocked

namespace DinoLight.NeopixelTop
open NeoPixelDriver (Resting gammaPixel pixelBits toSend started)
open BlockToPixel (remaining expand)

structure Regs (num_blocks : Nat) where
  pixelGenerator : BlockToPixel.Regs num_blocks
  neopixel_drive : NeoPixelDriver.Regs

structure Inputs (num_blocks : Nat) where
  run : Bool
  blocks : BitVec (num_blocks * 24)
  block_counts : BitVec (num_blocks * 8)

variable {num_blocks : Nat}

def powerUp : Regs num_blocks where
  pixelGenerator := BlockToPixel.powerUp
  neopixel_drive := NeoPixelDriver.powerUp

def generatorInputs (s : Regs num_blocks) (i : Inputs num_blocks) : BlockToPixel.Inputs num_blocks where
  run := i.run
  pixelBlocks := i.blocks
  pixelBlockCount := i.block_counts
  advance_pixel := s.neopixel_drive.ack_pixel

def driveInputs (s : Regs num_blocks) (i : Inputs num_blocks) : NeoPixelDriver.Inputs where
  run := i.run
  valid_pixel := s.pixelGenerator.valid_pixel
  last_pixel := s.pixelGenerator.last_pixel
  data_in := s.pixelGenerator.current_pixel

/-- One rising edge of `clk`. -/
def step (s : Regs num_blocks) (i : Inputs num_blocks) : Regs num_blocks where
  pixelGenerator := BlockToPixel.step s.pixelGenerator (generatorInputs s i)
  neopixel_drive := NeoPixelDriver.step s.neopixel_drive (driveInputs s i)

/-! ## The two machines together -/

structure Inv (s : Regs num_blocks) : Prop where
  generator : BlockToPixel.Inv s.pixelGenerator
  drive : NeoPixelDriver.Inv s.neopixel_drive
  /-- An acknowledgement meets a sequencer that waits for it. -/
  acked : s.neopixel_drive.state = .ack →
    s.pixelGenerator.state = .waitForAck ∧
        s.neopixel_drive.data_reg = gammaPixel s.pixelGenerator.current_pixel ∨
      s.pixelGenerator.state = .waitForLastAck
  /-- A driver in a frame has a sequencer that will deliver. -/
  busy : ¬ Resting s.neopixel_drive → s.pixelGenerator.state ≠ .idle

theorem powerUp_inv : Inv (powerUp : Regs num_blocks) :=
  ⟨BlockToPixel.powerUp_inv, NeoPixelDriver.powerUp_inv, by simp [powerUp, NeoPixelDriver.powerUp],
    fun h => absurd (.inl rfl) h⟩

theorem ack_pixel_iff {s : Regs num_blocks} (h : Inv s) :
    s.neopixel_drive.ack_pixel = true ↔ s.neopixel_drive.state = .ack := by
  simp [h.drive.ack, NeoPixelDriver.ackOutput]

theorem last_pixel_iff {s : Regs num_blocks} (h : Inv s) (ha : s.neopixel_drive.state = .ack) :
    s.pixelGenerator.last_pixel = true ↔ s.pixelGenerator.state = .waitForLastAck := by
  rcases h.acked ha with ⟨hg, -⟩ | hg <;> simp [h.generator.last, hg, BlockToPixel.outputProcess]

/-- The invariant survives every edge, whatever `run`, `blocks` and
`block_counts` do. -/
theorem step_inv (hN : 0 < num_blocks) {s : Regs num_blocks} (i : Inputs num_blocks) (h : Inv s) :
    Inv (step s i) where
  generator := BlockToPixel.step_inv hN _ h.generator
  drive := NeoPixelDriver.step_inv _ h.drive
  acked ha := by
    obtain ⟨hd, hv, hr⟩ := NeoPixelDriver.ack_step ha
    have hack : s.neopixel_drive.ack_pixel = false := by simp [h.drive.ack, NeoPixelDriver.ackOutput, hd]
    rcases BlockToPixel.offer_step (i := generatorInputs s i) h.generator hv hack with ⟨hs, hc⟩ | hs
    · exact .inl ⟨hs, by simp only [step, hr, hc]; rfl⟩
    · exact .inr hs
  busy hb hi := by
    rcases (BlockToPixel.idle_step _ _).1 hi with ⟨hs, hr⟩ | ⟨hs, ha⟩
    · have hd : Resting s.neopixel_drive := by
        by_contra hd
        exact h.busy hd hs
      exact hb (NeoPixelDriver.resting_keep hd hr)
    · have hd := (ack_pixel_iff h).1 ha
      exact hb (.inr (NeoPixelDriver.last_step hd ((last_pixel_iff h hd).2 hs)))

/-- `run` wakes an idle driver. -/
theorem wake_step {s : Regs num_blocks} {i : Inputs num_blocks} (hd : s.neopixel_drive.state = .idle)
    (hrun : i.run = true) : (step s i).neopixel_drive.state = .waitForValid :=
  (NeoPixelDriver.idle_step _ (driveInputs s i) hd).trans (if_pos hrun)

theorem wake_busy {s : Regs num_blocks} {i : Inputs num_blocks} (hd : s.neopixel_drive.state = .idle)
    (hrun : i.run = true) : ¬ Resting (step s i).neopixel_drive := by
  rintro (h | h) <;> cases (wake_step hd hrun).symm.trans h

/-- A frame ends when the last acknowledgement is taken: the driver goes to
`display` and the sequencer to `idle`, at the same edge. -/
theorem frame_end {s : Regs num_blocks} {i : Inputs num_blocks} (h : Inv s) (hb : ¬ Resting s.neopixel_drive)
    (hr : Resting (step s i).neopixel_drive) :
    s.neopixel_drive.state = .ack ∧ s.pixelGenerator.state = .waitForLastAck ∧
      (step s i).neopixel_drive.state = .display ∧ (step s i).pixelGenerator.state = .idle := by
  rcases NeoPixelDriver.resting_step h.drive hr with ⟨hr, -⟩ | ⟨ha, hl⟩
  · exact absurd hr hb
  · have hg := (last_pixel_iff h ha).1 hl
    exact ⟨ha, hg, NeoPixelDriver.last_step ha hl, (BlockToPixel.idle_step _ _).2 (.inr ⟨hg, (ack_pixel_iff h).2 ha⟩)⟩

/-! ## What the strip has yet to receive -/

/-- The bits of a whole frame. -/
def frameBits (blocks : BitVec (num_blocks * 24)) (counts : BitVec (num_blocks * 8)) : List Bool :=
  (expand blocks counts).flatMap pixelBits

/-- The bits of the frame being sent, or about to be, that have not started. In
`ack` the granted pixel is still the sequencer's first. -/
def pending (s : Regs num_blocks) : List Bool :=
  if s.neopixel_drive.state = .ack then (remaining s.pixelGenerator).flatMap pixelBits
  else toSend s.neopixel_drive ++ (remaining s.pixelGenerator).flatMap pixelBits

/-- The edge at which the sequencer loads its two registers. -/
def Loads (s : Regs num_blocks) (i : Inputs num_blocks) : Prop :=
  s.pixelGenerator.state = .idle ∧ i.run = true

theorem idle_keep {s : Regs num_blocks} {i : Inputs num_blocks} (hg : s.pixelGenerator.state = .idle)
    (hl : ¬ Loads s i) : (step s i).pixelGenerator.state = .idle :=
  (BlockToPixel.idle_step _ _).2 (.inl ⟨hg, by simpa [Loads, hg, generatorInputs] using hl⟩)

theorem pending_load (hN : 0 < num_blocks) {s : Regs num_blocks} {i : Inputs num_blocks} (h : Inv s)
    (hl : Loads s i) : pending (step s i) = frameBits i.blocks i.block_counts := by
  have hrem := BlockToPixel.remaining_step hN (generatorInputs s i) h.generator
  rw [if_pos ⟨hl.1, hl.2⟩] at hrem
  unfold generatorInputs at hrem
  have hd : Resting s.neopixel_drive := by
    by_contra hd
    exact h.busy hd hl.1
  have hd' := NeoPixelDriver.resting_next (driveInputs s i) hd
  have ha : (NeoPixelDriver.step s.neopixel_drive (driveInputs s i)).state ≠ .ack := by
    rcases hd' with hd' | hd' | hd' <;> simp [hd']
  simp only [pending, step, ha, if_false, NeoPixelDriver.toSend_resting hd', generatorInputs, hrem, frameBits,
    List.nil_append]

/-- An edge that loads nothing moves at most one bit onto the wire. -/
theorem pending_step (hN : 0 < num_blocks) {s : Regs num_blocks} {i : Inputs num_blocks} (h : Inv s)
    (hl : ¬ Loads s i) :
    pending s = started s.neopixel_drive (step s i).neopixel_drive ++ pending (step s i) := by
  have hrem := BlockToPixel.remaining_step hN (generatorInputs s i) h.generator
  rw [if_neg (show ¬ (s.pixelGenerator.state = .idle ∧ (generatorInputs s i).run = true) from hl)] at hrem
  by_cases hack : s.neopixel_drive.state = .ack
  · have ha := (ack_pixel_iff h).2 hack
    rcases h.acked hack with ⟨hg, hdata⟩ | hg
    · -- the granted pixel leaves the sequencer and its bits are in line
      rw [if_pos ⟨hg, ha⟩] at hrem
      have hlast : s.pixelGenerator.last_pixel = false := by
        simpa [hg] using (last_pixel_iff h hack).not
      obtain ⟨hst, hsend⟩ := NeoPixelDriver.send_step (i := driveInputs s i) h.drive hack hlast
      simp [pending, hack, hrem, step, hst, hsend, started, hdata, pixelBits]
    · have hlast := (last_pixel_iff h hack).2 hg
      have hst := NeoPixelDriver.last_step (i := driveInputs s i) hack hlast
      rw [if_neg (by simp [hg])] at hrem
      simp [pending, hack, hrem, step, hst, started, toSend]
  · have ha : s.neopixel_drive.ack_pixel = false := by simpa using (ack_pixel_iff h).not.2 hack
    have hna : (generatorInputs s i).advance_pixel = false := ha
    rw [if_neg (by simp [hna])] at hrem
    have hdrv := NeoPixelDriver.toSend_step (driveInputs s i) h.drive (fun h => absurd h hack)
    by_cases hgrant : s.neopixel_drive.state = .waitForValid ∧ (driveInputs s i).valid_pixel = true
    · have hst := NeoPixelDriver.grant_step (i := driveInputs s i) hgrant.1 hgrant.2
      simp [pending, hrem, step, hst, NeoPixelDriver.toSend_resting (.inl hgrant.1), started, hgrant.1]
    · rw [if_neg hgrant] at hdrv
      have hst : (NeoPixelDriver.step s.neopixel_drive (driveInputs s i)).state ≠ .ack := fun he =>
        hgrant ⟨(NeoPixelDriver.ack_step he).1, (NeoPixelDriver.ack_step he).2.1⟩
      simp only [pending, hack, hrem, step, hst, if_false, hdrv, List.append_assoc]

end DinoLight.NeopixelTop
