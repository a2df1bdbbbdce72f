import DinoLight.BlockAverages
import DinoLight.HostToLed
import DinoLight.UartComm
import Mathlib.Data.List.GetD
/-!
# The order of the colour channels

Both sources of `ledSwitch` give `blockToPixel` three bytes for a block. The
averager puts them in the order of its accumulator's columns, red first; the
host sends green first. The LEDs take whatever comes first for the same colour.
-/
open Clocked Vectors

namespace DinoLight.ChannelOrder
open CommandParser CommandFrames
open UartRxController (Spaced received)
open BlockToPixel (blockAt)

/-- The bytes of block `n`, as `blockToPixel` hands them to the driver. -/
def blockBytes (blocks : BitVec (32 * 24)) (n : Nat) : List (BitVec 8) := bytes (blockAt blocks n) 3

/-! ## TV mode -/

/-- A frame of one colour. -/
def Solid (f : BlockAverages.Frame) (r g b : BitVec 8) : Prop :=
  ∀ row column c, f.pixel row column c = [r, g, b].getD c 0

/-- `framebuffer` after the vsync edge that ends `f`. -/
def latched (lead : Option BlockAverages.Blanking) (fs : List BlockAverages.Frame) (f : BlockAverages.Frame) :
    BitVec (32 * 24) :=
  (BlockAverages.run Averager.powerUp (BlockAverages.leading lead ++ fs.flatMap BlockAverages.Frame.cycles ++
    f.picture ++ [BlockAverages.blank true])).framebuffer

/-- `blocks` is what `ledSwitch` selects in mode 1 after a frame of the colour,
whatever came before. -/
def TvPresents (r g b : BitVec 8) (blocks : BitVec (32 * 24)) : Prop :=
  ∃ lead fs f, Solid f r g b ∧ ∃ (s : LedSwitch.Regs 32) (i : LedSwitch.Inputs 32),
    s.uart.mode = 1 ∧ i.framebuffer_50 = latched lead fs f ∧ blocks = (LedSwitch.ledSwitch s i).2

theorem blockBytes_byteAt (blocks : BitVec (32 * 24)) (n : Fin 32) :
    blockBytes blocks n = [Averager.byteAt blocks n 0, Averager.byteAt blocks n 1, Averager.byteAt blocks n 2] := by
  have hn := n.isLt
  have hslice (k : Nat) (hk : k < 3) : slice (blockAt blocks n) (k * 8) 8 = slice blocks (24 * n + 8 * k) 8 := by
    rw [blockAt, slice_slice _ (by omega) (by omega)]
    congr 1
    omega
  exact congrArg₂ List.cons (hslice 0 (by decide))
    (congrArg₂ List.cons (hslice 1 (by decide)) (congrArg₂ List.cons (hslice 2 (by decide)) rfl))

theorem tv_selected {s : LedSwitch.Regs 32} {i : LedSwitch.Inputs 32} (h : s.uart.mode = 1) :
    (LedSwitch.ledSwitch s i).2 = i.framebuffer_50 := by
  simp [LedSwitch.ledSwitch, h]

/-- Off the left edge a box of one colour has it as its average. -/
theorem average_solid {f : BlockAverages.Frame} {r g b : BitVec 8} (hf : Solid f r g b)
    (lead : Option BlockAverages.Blanking) (fs : List BlockAverages.Frame) {n : Fin 32}
    (hn : 0 < Averager.startx n) (c : Fin 3) : Averager.byteAt (latched lead fs f) n c = [r, g, b].getD c 0 := by
  apply BitVec.eq_of_toNat_eq
  have haverage := BlockAverages.average_eq lead fs f n c
  have hcolumn (x : Nat) : BlockAverages.columnSum f n c x = 128 * ([r, g, b].getD c 0).toNat := by
    simp [BlockAverages.columnSum, hf _ _ c]
  rw [BlockAverages.rowSums_columns, if_neg (Nat.ne_of_gt hn)] at haverage
  simp only [hcolumn, Finset.sum_const, Finset.card_range, nsmul_eq_mul, Nat.cast_id] at haverage
  refine haverage.trans ?_
  omega

theorem tv_bytes {r g b : BitVec 8} {blocks : BitVec (32 * 24)} (h : TvPresents r g b blocks) {n : Fin 32}
    (hn : 0 < Averager.startx n) : blockBytes blocks n = [r, g, b] := by
  obtain ⟨lead, fs, f, hf, s, i, hmode, hfb, rfl⟩ := h
  have haverage := average_solid hf lead fs hn
  rw [tv_selected hmode, hfb, blockBytes_byteAt, haverage, haverage, haverage]
  rfl

/-! ## Custom mode -/

/-- `blocks` is what `ledSwitch` selects in mode 2 once the controller has
received frames of which the last with command 2 has the colour for all blocks,
green first. -/
def CustomPresents (r g b : BitVec 8) (blocks : BitVec (32 * 24)) : Prop :=
  ∃ (u : Nat → UartRxController.Regs 32) (w : Nat → UartRxController.Inputs) (frames : List (Frame 32)) (m : Nat),
    (Follows UartRxController.step w u ∧ AtRest (u 0) ∧ (∀ t, (w t).reset_in = false) ∧ Spaced w ∧
      (∀ t, received w t <+: encode frames) ∧ received w m = encode frames ∧
      lastPayload frames 2 = some (UartComm.repeated [g, r, b] 32)) ∧
    ∃ (s : LedSwitch.Regs 32) (i : LedSwitch.Inputs 32),
      s.uart = u (m + 1) ∧ s.uart.mode = 2 ∧ blocks = (LedSwitch.ledSwitch s i).2

theorem custom_selected {s : LedSwitch.Regs 32} {i : LedSwitch.Inputs 32} (h : s.uart.mode = 2) :
    (LedSwitch.ledSwitch s i).2 = s.uart.custom_block_values := by
  simp [LedSwitch.ledSwitch, h]

theorem getD_repeated (xs : List (BitVec 8)) {n i k : Nat} (hi : i < n) (hk : k < xs.length) :
    (UartComm.repeated xs n).getD (i * xs.length + k) 0 = xs.getD k 0 := by
  induction n generalizing i with
  | zero => exact absurd hi (Nat.not_lt_zero i)
  | succ n ih =>
    have hcons : UartComm.repeated xs (n + 1) = xs ++ UartComm.repeated xs n := by
      simp [UartComm.repeated, List.replicate_succ]
    rw [hcons]
    rcases i with _ | i
    · rw [Nat.zero_mul, Nat.zero_add, List.getD_append _ _ _ _ hk]
    · rw [Nat.add_one_mul, List.getD_append_right _ _ _ _ (by omega),
        show i * xs.length + xs.length + k - xs.length = i * xs.length + k by omega, ih (by omega)]

theorem custom_bytes {r g b : BitVec 8} {blocks : BitVec (32 * 24)} (h : CustomPresents r g b blocks) {n : Nat}
    (hn : n < 32) : blockBytes blocks n = [g, r, b] := by
  obtain ⟨u, w, frames, m, ⟨hu, h0, hr, hsp, hw, hm, hlast⟩, s, i, hs, hmode, rfl⟩ := h
  have hregs := registers_run (by decide) hu h0 hr hsp (stream_known (by decide) hw _) m
  rw [hm, parserOf, run_encode (by decide), writeAll_last] at hregs
  have hvalues : bytes s.uart.custom_block_values (3 * 32) = UartComm.repeated [g, r, b] 32 := by
    rw [hs]
    exact (congrArg Registers.custom_block_values hregs).trans (by rw [hlast]; rfl)
  have hbyte (k : Nat) (hk : k < 3) : slice (blockAt s.uart.custom_block_values n) (k * 8) 8 = [g, r, b].getD k 0 := by
    rw [← HostToLed.colour_byte _ hn hk, hvalues, Nat.mul_comm 3 n]
    exact getD_repeated [g, r, b] hn hk
  rw [custom_selected hmode]
  exact congrArg₂ List.cons (hbyte 0 (by decide))
    (congrArg₂ List.cons (hbyte 1 (by decide)) (congrArg₂ List.cons (hbyte 2 (by decide)) rfl))

/-- Off the left edge the two modes show a colour alike exactly if its red and
green components are the same. -/
theorem channels_agree_iff {r g b : BitVec 8} {tv custom : BitVec (32 * 24)} (htv : TvPresents r g b tv)
    (hcustom : CustomPresents r g b custom) (n : Fin 32) (hn : 0 < Averager.startx n) :
    blockBytes tv n = blockBytes custom n ↔ r = g := by
  rw [tv_bytes htv hn, custom_bytes hcustom n.isLt]
  constructor
  · intro h
    exact (List.cons.inj h).1
  · rintro rfl
    rfl

/-! ## Both modes show every colour -/

theorem tv_presents (r g b : BitVec 8) : ∃ blocks, TvPresents r g b blocks := by
  let f : BlockAverages.Frame := ⟨fun _ _ c => [r, g, b].getD c 0, fun _ => 0, ⟨0, 0, 0⟩⟩
  have hf : Solid f r g b := fun _ _ _ => rfl
  obtain ⟨s, hs⟩ : ∃ s : LedSwitch.Regs 32, s.uart.mode = 1 :=
    ⟨{ LedSwitch.powerUp with uart := { UartRxController.powerUp with mode := 1 } }, rfl⟩
  have hinputs (fb : BitVec (32 * 24)) : ∃ i : LedSwitch.Inputs 32, i.framebuffer_50 = fb :=
    ⟨⟨⟨false, 0, false⟩, false, fb⟩, rfl⟩
  obtain ⟨i, hi⟩ := hinputs (latched none [] f)
  exact ⟨_, none, [], f, hf, s, i, hs, hi, rfl⟩

/-- Mode 2, and one `writeColor`. -/
def customColor (r g b : BitVec 8) : List (Frame 32) :=
  [.setMode 2, ⟨2, UartComm.repeated [g, r, b] 32, Nat.le_refl 2, UartComm.length_repeated _ _⟩]

/-- Frames that end in mode 2 with the colour, sent from power-up. -/
theorem sent_presents {r g b : BitVec 8} {frames : List (Frame 32)} (hmode : lastPayload frames 0 = some [2])
    (hlast : lastPayload frames 2 = some (UartComm.repeated [g, r, b] 32)) : ∃ blocks, CustomPresents r g b blocks := by
  have hw (t : Nat) : received (send (encode frames)) t <+: encode frames := by
    rw [received_send]
    exact List.take_prefix _ _
  have hm : received (send (encode frames)) (3 * (encode frames).length) = encode frames := by
    rw [received_send, List.take_of_length_le (by omega)]
  obtain ⟨u, hu, h0⟩ : ∃ u : Nat → UartRxController.Regs 32,
      Follows UartRxController.step (send (encode frames)) u ∧ AtRest (u 0) :=
    ⟨after UartRxController.step UartRxController.powerUp _, after_follows, powerUp_atRest⟩
  have hregs := registers_run (by decide) hu h0 (fun _ => rfl) (send_spaced _) (stream_known (by decide) hw _)
    (3 * (encode frames).length)
  rw [hm, parserOf, run_encode (by decide), writeAll_last] at hregs
  have hmode : (u (3 * (encode frames).length + 1)).mode = 2 :=
    (congrArg Registers.mode hregs).trans (by rw [hmode]; rfl)
  obtain ⟨s, hs⟩ : ∃ s : LedSwitch.Regs 32, s.uart = u (3 * (encode frames).length + 1) :=
    ⟨{ LedSwitch.powerUp with uart := u _ }, rfl⟩
  exact ⟨_, u, _, frames, _, ⟨hu, h0, fun _ => rfl, send_spaced _, hw, hm, hlast⟩, s,
    ⟨⟨false, 0, false⟩, false, 0⟩, hs, hs ▸ hmode, rfl⟩

theorem custom_presents (r g b : BitVec 8) : ∃ blocks, CustomPresents r g b blocks :=
  sent_presents (show lastPayload (customColor r g b) 0 = some [2] by simp [lastPayload, customColor, Frame.setMode])
    (by simp [lastPayload, customColor, Frame.setMode])

/-- Yellow is the same in both modes. -/
theorem yellow_agrees : ∃ tv custom, TvPresents 255 255 0 tv ∧ CustomPresents 255 255 0 custom ∧
    blockBytes tv 1 = blockBytes custom 1 := by
  obtain ⟨tv, htv⟩ := tv_presents 255 255 0
  obtain ⟨custom, hcustom⟩ := custom_presents 255 255 0
  exact ⟨tv, custom, htv, hcustom, (channels_agree_iff htv hcustom 1 (by decide)).2 rfl⟩

/-- Red in TV mode is green in custom mode. -/
theorem red_differs : ∃ tv custom, TvPresents 255 0 0 tv ∧ CustomPresents 255 0 0 custom ∧
    blockBytes tv 1 ≠ blockBytes custom 1 := by
  obtain ⟨tv, htv⟩ := tv_presents 255 0 0
  obtain ⟨custom, hcustom⟩ := custom_presents 255 0 0
  refine ⟨tv, custom, htv, hcustom, ?_⟩
  have h := tv_bytes htv (n := 1) (by decide)
  rw [show blockBytes tv 1 = [255, 0, 0] from h, custom_bytes hcustom (by decide)]
  decide

end DinoLight.ChannelOrder
