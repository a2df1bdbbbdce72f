import DinoLight.Averager
import DinoLight.RemoveBadThings
/-!
# `video_averager`

The decoded video goes through one filter for each sync bit and one for each
bit of a colour, and then to the averager. The averager relies on blanking
being black; the filters of a pixel switch at different times and keep it so.
-/
open Clocked

namespace DinoLight.VideoAverager
open RemoveBadThings (ByteRegs excludes_step)

structure Regs where
  clean_vsync : RemoveBadThings.Regs 64
  clean_blank : RemoveBadThings.Regs 64
  clean_red : ByteRegs 64
  clean_green : ByteRegs 64
  clean_blue : ByteRegs 64
  averager : Averager.Regs
  last_vsync_value : Bool
  vsync : Bool

/-- The outputs of `dvid_in`. -/
structure Inputs where
  dvid_red : BitVec 8
  dvid_green : BitVec 8
  dvid_blue : BitVec 8
  dvid_blank : Bool
  dvid_vsync : Bool

def powerUp : Regs where
  clean_vsync := RemoveBadThings.powerUp
  clean_blank := RemoveBadThings.powerUp
  clean_red := RemoveBadThings.bytePowerUp
  clean_green := RemoveBadThings.bytePowerUp
  clean_blue := RemoveBadThings.bytePowerUp
  averager := Averager.powerUp
  last_vsync_value := false
  vsync := false

/-- The ports of `Inst_averager`. -/
def cleaned (s : Regs) : Averager.Inputs where
  i_red := s.clean_red.signal_out
  i_green := s.clean_green.signal_out
  i_blue := s.clean_blue.signal_out
  i_blank := s.clean_blank.signal_out
  i_vsync := s.clean_vsync.signal_out

/-- One rising edge of `clk_pixel`. -/
def step (s : Regs) (i : Inputs) : Regs where
  clean_vsync := RemoveBadThings.step s.clean_vsync i.dvid_vsync
  clean_blank := RemoveBadThings.step s.clean_blank i.dvid_blank
  clean_red := RemoveBadThings.byteStep s.clean_red i.dvid_red
  clean_green := RemoveBadThings.byteStep s.clean_green i.dvid_green
  clean_blue := RemoveBadThings.byteStep s.clean_blue i.dvid_blue
  averager := Averager.step s.averager (cleaned s)
  last_vsync_value := (cleaned s).i_vsync
  vsync := s.last_vsync_value ≠ (cleaned s).i_vsync

/-! ## Black blanking -/

/-- The raw colours, by column of the averager's accumulator. -/
def Inputs.colour (i : Inputs) (c : Fin 3) : BitVec 8 := [i.dvid_red, i.dvid_green, i.dvid_blue].getD c 0

/-- The filters of a colour. -/
def Regs.filters (s : Regs) (c : Fin 3) : ByteRegs 64 := [s.clean_red, s.clean_green, s.clean_blue].getD c s.clean_red

theorem filters_step (s : Regs) (i : Inputs) (c : Fin 3) :
    (step s i).filters c = RemoveBadThings.byteStep (s.filters c) (i.colour c) := by
  match c with
  | 0 | 1 | 2 => rfl

theorem cleaned_colour (s : Regs) (c : Fin 3) : (cleaned s).colour c = (s.filters c).signal_out := by
  match c with
  | 0 | 1 | 2 => rfl

/-- No filter of the colour is high where the blank filter is. -/
def Black (c : Fin 3) (s : Regs) : Prop :=
  ∀ k, RemoveBadThings.Excludes s.clean_blank ((s.filters c).cleanSignal k)

theorem black_step {c : Fin 3} {s : Regs} {i : Inputs} (h : Black c s)
    (hi : i.dvid_blank = true → i.colour c = 0) : Black c (step s i) := by
  intro k
  rw [filters_step]
  refine excludes_step (by decide) (h k) fun hb => ?_
  rw [hi hb]
  simp

theorem black_run {w : Nat → Inputs} {c : Fin 3} (hw : ∀ n, (w n).dvid_blank = true → (w n).colour c = 0)
    (n : Nat) : Black c (after step powerUp w n) := by
  induction n with
  | zero =>
    intro k
    have hk : (powerUp.filters c).cleanSignal k = RemoveBadThings.powerUp := by
      match c with
      | 0 | 1 | 2 => rfl
    rw [after_zero, hk]
    exact RemoveBadThings.powerUp_excludes
  | succ n ih => exact black_step ih (hw n)

/-- Blanking of 64 cycles gets through its filter. -/
theorem blank_settles {w : Nat → Inputs} {n : Nat} (hw : ∀ t, n ≤ t → t < n + 64 → (w t).dvid_blank = true) :
    (cleaned (after step powerUp w (n + 65))).i_blank = true := by
  have hblank : Follows RemoveBadThings.step (fun t => (w t).dvid_blank) fun t => (after step powerUp w t).clean_blank :=
    fun _ => rfl
  exact RemoveBadThings.settles (by decide) hblank hw

/-- If a raw colour is black in blanking, so is the cleaned one. -/
theorem cleaned_black (w : Nat → Inputs) (c : Fin 3) (hw : ∀ n, (w n).dvid_blank = true → (w n).colour c = 0)
    (n : Nat) (hb : (cleaned (after step powerUp w n)).i_blank = true) :
    (cleaned (after step powerUp w n)).colour c = 0 := by
  rw [cleaned_colour]
  apply BitVec.eq_of_getLsbD_eq
  intro k hk
  rw [RemoveBadThings.signal_out_bit _ ⟨k, hk⟩, (black_run hw n ⟨k, hk⟩).out hb]
  simp

/-- A red level for 70 cycles, and blanking. -/
def redThenBlank (n : Nat) : Inputs where
  dvid_red := if n < 70 then 255 else 0
  dvid_green := 0
  dvid_blue := 0
  dvid_blank := 70 ≤ n
  dvid_vsync := false

theorem red_then_black : (cleaned (after step powerUp redThenBlank 135)).colour 0 = 0 := by
  apply cleaned_black redThenBlank 0
  · intro n hn
    have hn : ¬ n < 70 := by simpa [redThenBlank] using hn
    simp [redThenBlank, Inputs.colour, hn]
  · exact blank_settles (n := 70) fun t ht _ => decide_eq_true ht

end DinoLight.VideoAverager
