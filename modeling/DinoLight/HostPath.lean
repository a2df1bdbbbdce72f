import DinoLight.Dinolight
import DinoLight.HostToLed
/-!
# From the host's line to the LED wire

A host that selects custom mode and sends counts and colours, at any bit time
that the receiver follows, lights the LEDs with them. Until another mode is
selected the video half has no say in it, whatever it does and however its
edges fall.
-/
open Clocked Pulses

namespace DinoLight.HostPath
open BaudTolerance
open Dinolight
open LineReading (half)
open CommandParser CommandFrames
open Frames (DriverRun)
open HostToLed (customFrames ledBits ledWire silent_host_to_led)
open NeoPixelDriver (width)
open SerialLink (bytesBefore controllerInputs)
open UartRxController (received)

variable {num_blocks P C B q a u N : Nat} {wave : Nat → Bool} {start : Nat → Nat} {b : Nat → BitVec 8}

/-! ## The mode -/

/-- Within a stream the registers are those of its first frames. -/
theorem prefix_regs (hN : 0 < num_blocks) (r : Registers) {fs : List (Frame num_blocks)} {l : List (BitVec 8)}
    (h : l <+: encode fs) : ∃ pre, pre <+: fs ∧ (Parser.run num_blocks ⟨none, r⟩ l).regs = writeAll r pre := by
  rcases part_cases h with ⟨pre, hpre, rfl⟩ | ⟨pre, f, part, hpre, -, hlt, rfl⟩
  · exact ⟨pre, hpre, congrArg Parser.regs (run_encode hN r pre)⟩
  · refine ⟨pre, (List.prefix_append pre [f]).trans hpre, ?_⟩
    rw [run_append, run_encode hN, run_open _ _ _ (by rw [← f.sized]; exact hlt)]

/-- The mode is the one before or one that a frame selects. -/
theorem mode_among (r : Registers) (fs : List (Frame num_blocks)) :
    (writeAll r fs).mode = r.mode ∨
      ∃ f ∈ fs, f.cmd = 0 ∧ (writeAll r fs).mode = (f.payload.headD 0).extractLsb' 0 2 := by
  rw [writeAll_last, lastPayload]
  cases h : (fs.filter (·.cmd = 0)).getLast? with
  | none => exact .inl rfl
  | some f =>
    have hf := List.mem_filter.1 (List.mem_of_getLast? h)
    exact .inr ⟨f, hf.1, of_decide_eq_true hf.2, rfl⟩

/-- The three frames never select TV mode. -/
theorem custom_mode {counts colours : List (BitVec 8)} (hc : counts.length = num_blocks)
    (hb : colours.length = 3 * num_blocks) {r : Registers} (hr : r.mode = 0) {pre : List (Frame num_blocks)}
    (h : pre <+: customFrames counts colours hc hb) : (writeAll r pre).mode ≠ 1 := by
  rcases mode_among r pre with hmode | ⟨f, hf, hcmd, hmode⟩ <;> rw [hmode]
  · rw [hr]
    decide
  · have hmem := h.mem hf
    simp only [customFrames, List.mem_cons, List.not_mem_nil, or_false] at hmem
    rcases hmem with rfl | rfl | rfl
    · intro htv
      exact absurd htv (by decide : (2 : BitVec 2) ≠ 1)
    · exact absurd hcmd (by decide : (1 : BitVec 8) ≠ 0)
    · exact absurd hcmd (by decide : (2 : BitVec 8) ≠ 0)

/-- Without TV mode a run is one without vsync. -/
theorem without_vsync {s : Nat → LedSwitch.Regs num_blocks} {w : Nat → LedSwitch.Inputs num_blocks}
    (hs : Follows LedSwitch.step w s) (hm : ∀ n, (s n).uart.mode ≠ 1) :
    Follows LedSwitch.step (fun n => { w n with vsync_50 := false }) s := by
  intro n
  have hswitch : LedSwitch.ledSwitch (s n) (w n) = LedSwitch.ledSwitch (s n) { w n with vsync_50 := false } := by
    unfold LedSwitch.ledSwitch
    rw [if_neg (hm n), if_neg (hm n)]
  rw [hs n]
  unfold LedSwitch.step
  rw [hswitch]

/-! ## The `clk_50` half -/

/-- The registers are those that the parser has after the bytes so far. -/
theorem registers_sent (hN : 0 < num_blocks) {w : Nat → Clk50.Inputs num_blocks} {s : Nat → Clk50 num_blocks}
    (hs : Follows (Clk50.step P C) w s) (h0 : s 0 = Clk50.powerUp) {fs : List (Frame num_blocks)}
    (hsofar : ∀ t, bytesBefore (fun t => (s t).uart.receiver) t <+: encode fs) (n : Nat) :
    registers (s (n + 1)).leds.uart = (Parser.run num_blocks
      ⟨none, registers (UartRxController.powerUp : UartRxController.Regs num_blocks)⟩
      (bytesBefore (fun t => (s t).uart.receiver) n)).regs := by
  have hleds := leds_follows hs
  have hstart : (s 0).leds.uart = UartRxController.powerUp := by
    rw [h0]
    rfl
  have hlink0 : (s 0).uart.receiver = SerialLink.powerUp := by
    rw [h0]
    rfl
  have hregs := registers_run hN (LedSwitch.uart_follows hleds) (by rw [hstart]; exact powerUp_atRest) (fun _ => rfl)
    (SerialLink.strobes_spaced (receiver_follows hs) hlink0) (stream_known hN hsofar _) n
  rw [hstart] at hregs
  exact hregs

theorem clk50_host_to_leds (hN : 0 < num_blocks) (hC : 7 ≤ C) (hq : 0 < q) (ht : Tolerated C B q)
    {counts colours : List (BitVec 8)} (hc : counts.length = num_blocks) (hb : colours.length = 3 * num_blocks)
    (h : Sent B wave a start b N) (hbytes : (List.range N).map b = [0, 2] ++ 1 :: counts ++ 2 :: colours)
    (ha : a ≤ q * (half C - 4) + u) (hlead : q * C + u ≤ start 0) (hend : ∀ x, start N ≤ x → wave x = true)
    {w : Nat → Clk50.Inputs num_blocks} (hw : ∀ t, (w t).portC10 = sampled q u wave t)
    {s : Nat → Clk50 num_blocks} (hs : Follows (Clk50.step P C) w s) (h0 : s 0 = Clk50.powerUp) :
    ∃ a e, DriverRun (fun n => (s n).neoPixel) a e ∧
      (∀ t ≤ a, (s t).neoPixel.neopixel_drive.state = .idle) ∧
      pulses (ledWire (fun n => (s n).leds) 0 (e + 1)) = (ledBits num_blocks counts colours).map width := by
  have hlink := receiver_follows hs
  rw [funext hw] at hlink
  have hlink0 : (s 0).uart.receiver = SerialLink.powerUp := by
    rw [h0]
    rfl
  obtain ⟨hall, hsofar⟩ := sent_run hC hq ht hlink hlink0 h ha hlead hend
  have hencode : (List.range N).map b = encode (customFrames counts colours hc hb) := by
    rw [hbytes]
    simp [customFrames]
  rw [hencode] at hall hsofar
  have hmode (n : Nat) : (s n).leds.uart.mode ≠ 1 := by
    rcases n with _ | n
    · rw [h0]
      intro htv
      exact absurd htv (by decide : (0 : BitVec 2) ≠ 1)
    · obtain ⟨pre, hpre, hpre'⟩ := prefix_regs hN (registers UartRxController.powerUp) (hsofar n)
      have hm : (s (n + 1)).leds.uart.mode = (writeAll (registers UartRxController.powerUp) pre).mode :=
        congrArg Registers.mode ((registers_sent hN hs h0 hsofar n).trans hpre')
      rw [hm]
      exact custom_mode hc hb rfl hpre
  exact silent_host_to_led hN (without_vsync (leds_follows hs) hmode) (by rw [h0]; exact powerUp_inv hN)
    (by rw [h0]; exact powerUp_quiet) hc hb (fun _ => rfl) (fun _ => rfl) (SerialLink.strobes_spaced hlink hlink0)
    (K := firstCycle q u (start N) + 4) fun n => hall _ (Nat.le_add_right _ n)

/-! ## The chip -/

/-- From power-up, the host's bytes `00 02`, the counts and the colours light the
LEDs once, in every order of the edges of both clocks and whatever comes in over HDMI. -/
theorem host_to_portC6 {clk : Nat → Clock} (hclk : Runs clk .clk_50) (hdmi_in : Nat → DvidIn.Inputs)
    (portC10 : Nat → Bool) (hline : ∀ t, portC10 t = sampled q u wave t) (hq : 0 < q) (ht : Tolerated 435 B q)
    (counts colours : List (BitVec 8)) (hc : counts.length = 32) (hb : colours.length = 96)
    (h : Sent B wave a start b N) (hbytes : (List.range N).map b = [0, 2] ++ 1 :: counts ++ 2 :: colours)
    (ha : a ≤ q * 214 + u) (hlead : q * 435 + u ≤ start 0) (hend : ∀ x, start N ≤ x → wave x = true) :
    let s := atEdge clk hdmi_in portC10
    ∃ a e, DriverRun (fun j => (s j).clk_50.neoPixel) a e ∧
      (∀ j ≤ a, (s j).clk_50.neoPixel.neopixel_drive.state = .idle) ∧
      pulses (window (fun j => portC6 (s j)) 0 (e + 1)) = (ledBits 32 counts colours).map width := by
  exact clk50_host_to_leds (P := 10000000) (by decide) (by decide) hq ht hc hb h hbytes ha hlead hend hline
    (atEdge_follows hclk) (atEdge_start hclk)

/-! ## Grey LEDs -/

/-- Custom mode, one LED for each block, all grey. -/
def greyBytes : List (BitVec 8) := [0, 2] ++ 1 :: List.replicate 32 1 ++ 2 :: List.replicate 96 0x80

/-- These bytes at 115200 baud. -/
def greyWave : Nat → Bool := burst 15625 15660 (fun i => greyBytes.getD i 0) greyBytes.length

theorem map_getD_range (l : List (BitVec 8)) : (List.range l.length).map (fun i => l.getD i 0) = l := by
  apply List.ext_getElem
  · simp
  · intro i h1 h2
    simp [List.getD_eq_getElem?_getD, h2]

theorem grey_lit : ∃ a e,
    let s := atEdge turns (fun _ => ⟨fun _ => 0, fun _ => 0⟩) (sampled 36 0 greyWave)
    DriverRun (fun j => (s j).clk_50.neoPixel) a e ∧
      pulses (window (fun j => portC6 (s j)) 0 (e + 1)) =
        (ledBits 32 (List.replicate 32 1) (List.replicate 96 0x80)).map width := by
  obtain ⟨a, e, hrun, -, hp⟩ := host_to_portC6 turns_runs (fun _ => ⟨fun _ => 0, fun _ => 0⟩)
    (sampled 36 0 greyWave) (fun _ => rfl) (by decide) ⟨by decide, by decide⟩
    (List.replicate 32 1) (List.replicate 96 0x80) rfl rfl
    (sent_burst (15660 + greyBytes.length * (10 * 15625)) (Nat.le_refl _)) (map_getD_range greyBytes)
    (Nat.zero_le _) (by rw [if_pos (by simp [greyBytes]), Nat.zero_mul]) fun x hx => by
      rw [if_neg (Nat.lt_irrefl _)] at hx
      exact burst_after hx
  exact ⟨a, e, hrun, hp⟩

end DinoLight.HostPath
