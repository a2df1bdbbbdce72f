import DinoLight.HostPath
import DinoLight.Refresh
import Mathlib.Algebra.Group.Nat.Even
/-!
# From the screen to the LED wire

In TV mode the LEDs take their colours from the framebuffer and their start
from a vsync pulse, each through registers of its own. Counted in edges of
`clk_50` both are four edges old when a frame of the LEDs starts, so it mostly
starts with the end of a video frame and shows the one before.
-/
open Clocked Pulses Vectors

namespace DinoLight.ScreenPath
open BaudTolerance (Sent burst burst_after firstCycle sampled sent_burst sent_received sent_run)
open BlockAverages (Blanking Frame rowSums)
open ClockCrossing (Register)
open CommandFrames (encode run_encode writeAll)
open CommandParser (Parser Registers registers)
open Dinolight
open DvidIn (Channel)
open DvidLock
open Frames (DriverRun)
open HostToLed (ledBits ledWire)
open InputChannel (Carries)
open NeoPixelDriver (width)
open SerialLink (bytesBefore)
open TmdsDecode (Symbol)
open UartRxController (received_mono)
open VideoPath (Slow Still pixel sent stream)

variable {clk : Nat → Clock} {hdmi_in : Nat → DvidIn.Inputs} {portC10 : Nat → Bool}

/-! ## The crossings -/

section Crossings
variable (hclk : Runs clk .clk_50)
include hclk

theorem framebuffer_succ (j : Nat) : (atEdge clk hdmi_in portC10 (j + 1)).cross_clock_framebuffer =
    (atEdge clk hdmi_in portC10 j).cross_clock_framebuffer.step
      (framebuffer_pixel (atEdge clk hdmi_in portC10 j)) := by
  apply domain_succ Register.step (fun n => (run clk hdmi_in portC10 n).cross_clock_framebuffer)
    (fun n => framebuffer_pixel (run clk hdmi_in portC10 n)) _ _ hclk.infinite
  · intro n hn
    rw [run_clk_50 hn]
    rfl
  · intro n hn
    rw [run_clk_pixel (not_clk_50 hn)]
    rfl

/-- The framebuffer is three edges old. -/
theorem framebuffer_50 (j : Nat) : (atEdge clk hdmi_in portC10 (j + 3)).cross_clock_framebuffer.signal_out =
    framebuffer_pixel (atEdge clk hdmi_in portC10 j) := by
  rw [framebuffer_succ hclk (j + 2), framebuffer_succ hclk (j + 1), framebuffer_succ hclk j]
  rfl

/-- The registers of `cross_clock_vsync` on `clk_50`. -/
def outRegs (s : Regs) : Bool × Bool × Bool :=
  (s.cross_clock_vsync.out_reg0, s.cross_clock_vsync.out_reg1, s.cross_clock_vsync.out_reg2)

theorem outRegs_succ (j : Nat) : outRegs (atEdge clk hdmi_in portC10 (j + 1)) =
    ((atEdge clk hdmi_in portC10 j).cross_clock_vsync.in_reg, (outRegs (atEdge clk hdmi_in portC10 j)).1,
      (outRegs (atEdge clk hdmi_in portC10 j)).2.1) := by
  apply domain_succ (fun r i => (i, r.1, r.2.1)) (fun n => outRegs (run clk hdmi_in portC10 n))
    (fun n => (run clk hdmi_in portC10 n).cross_clock_vsync.in_reg) _ _ hclk.infinite
  · intro n hn
    rw [run_clk_50 hn]
    rfl
  · intro n hn
    rw [run_clk_pixel (not_clk_50 hn)]
    rfl

/-- A pulse comes out where the toggle has changed, two edges late. -/
theorem vsync_50 (j : Nat) : (atEdge clk hdmi_in portC10 (j + 3)).cross_clock_vsync.pulse_out =
    ((atEdge clk hdmi_in portC10 j).cross_clock_vsync.in_reg ^^
      (atEdge clk hdmi_in portC10 (j + 1)).cross_clock_vsync.in_reg) := by
  have hout (s : Regs) : s.cross_clock_vsync.pulse_out = ((outRegs s).2.2 ^^ (outRegs s).2.1) := rfl
  rw [hout, outRegs_succ hclk (j + 2), outRegs_succ hclk (j + 1), outRegs_succ hclk j]

theorem leds_at : Follows LedSwitch.step
    (fun j => (atEdge clk hdmi_in portC10 j).clk_50.ledInputs (clk50Wave clk hdmi_in portC10 j))
    fun j => (atEdge clk hdmi_in portC10 j).clk_50.leds :=
  leds_follows (atEdge_follows hclk)

variable (hdmi_in portC10) in
/-- The process `ledSwitch` at edge `j`. -/
theorem switch_succ (j : Nat) : ((atEdge clk hdmi_in portC10 (j + 1)).clk_50.run_neopixel,
      (atEdge clk hdmi_in portC10 (j + 1)).clk_50.neopixel_select) =
    LedSwitch.ledSwitch (atEdge clk hdmi_in portC10 j).clk_50.leds
      ((atEdge clk hdmi_in portC10 j).clk_50.ledInputs (clk50Wave clk hdmi_in portC10 j)) := by
  exact congrArg (fun s => (s.run_neopixel, s.neopixel_select)) (atEdge_follows hclk j)

end Crossings

/-! ## The vsync pulses -/

/-- The pixel edges before event `n` that saw a vsync pulse. -/
def vsyncs (clk : Nat → Clock) (hdmi_in : Nat → DvidIn.Inputs) (portC10 : Nat → Bool) (n : Nat) : Nat :=
  Nat.count (fun k => clk k = .clk_pixel ∧
    (run clk hdmi_in portC10 k).hdmi_averager.video_averager.vsync = true) n

/-- The toggle has the parity of the pulses. -/
theorem toggle_run (n : Nat) : (run clk hdmi_in portC10 n).cross_clock_vsync.in_reg =
    decide (vsyncs clk hdmi_in portC10 n % 2 = 1) := by
  induction n with
  | zero => rfl
  | succ n ih =>
    cases hc : clk n with
    | clk_50 =>
      rw [run_clk_50 hc, vsyncs, Nat.count_succ_eq_count (by simp [hc])]
      exact ih
    | clk_pixel =>
      have htoggle : (run clk hdmi_in portC10 (n + 1)).cross_clock_vsync.in_reg =
          if (run clk hdmi_in portC10 n).hdmi_averager.video_averager.vsync
          then !(run clk hdmi_in portC10 n).cross_clock_vsync.in_reg
          else (run clk hdmi_in portC10 n).cross_clock_vsync.in_reg := by
        rw [run_clk_pixel hc]
        rfl
      rw [htoggle, ih]
      split
      case isTrue h =>
        rw [vsyncs, vsyncs, Nat.count_succ_eq_succ_count ⟨hc, h⟩, ← decide_not]
        congr 1
        apply propext
        omega
      case isFalse h => rw [vsyncs, vsyncs, Nat.count_succ_eq_count fun h' => h h'.2]

theorem vsyncs_mono (clk : Nat → Clock) (hdmi_in : Nat → DvidIn.Inputs) (portC10 : Nat → Bool) :
    Monotone (vsyncs clk hdmi_in portC10) := Nat.count_monotone _

/-- A pulse is passed on if the pixel edges between two edges of `clk_50` saw an
odd number of them. -/
theorem pulse_iff (hclk : Runs clk .clk_50) (j : Nat) :
    (atEdge clk hdmi_in portC10 (j + 3)).cross_clock_vsync.pulse_out = true ↔
      (vsyncs clk hdmi_in portC10 (edgeAt clk .clk_50 (j + 1)) -
        vsyncs clk hdmi_in portC10 (edgeAt clk .clk_50 j)) % 2 = 1 := by
  have hle : edgeAt clk .clk_50 j ≤ edgeAt clk .clk_50 (j + 1) :=
    Nat.nth_monotone hclk.infinite (Nat.le_succ j)
  have hmono := vsyncs_mono clk hdmi_in portC10 hle
  rw [vsync_50 hclk, atEdge, atEdge, toggle_run, toggle_run, Bool.xor_iff_ne]
  simp only [ne_eq, decide_eq_decide]
  omega

/-- An idle driver starts where `run_neopixel` is high. -/
theorem run_iff (hclk : Runs clk .clk_50) (hdmi_in : Nat → DvidIn.Inputs) (portC10 : Nat → Bool) {j : Nat}
    (hidle : (atEdge clk hdmi_in portC10 j).clk_50.neoPixel.neopixel_drive.state = .idle) :
    (∃ e, DriverRun (fun j => (atEdge clk hdmi_in portC10 j).clk_50.neoPixel) j e) ↔
      (atEdge clk hdmi_in portC10 j).clk_50.run_neopixel = true := by
  have hat : Follows LedSwitch.step _ fun j => (atEdge clk hdmi_in portC10 j).clk_50.leds := leds_at hclk
  have hleds := LedSwitch.neoPixel_follows hat
  have hinv : NeopixelTop.Inv (atEdge clk hdmi_in portC10 0).clk_50.leds.neoPixel := by
    rw [atEdge_start hclk]
    exact NeopixelTop.powerUp_inv
  exact ⟨fun ⟨e, hr⟩ => (hr.first hleds).1, Progress.run_completes (by decide) hleds hinv hidle⟩

/-! ## What the LEDs show -/

/-- The colours of the 32 blocks of a frame: the sums of their pixels without the low 14 bits. -/
def averages (f : Frame) : List (BitVec 8) :=
  (List.finRange (32 * 3)).map fun k => BitVec.ofNat 8 (rowSums f 720 k.divNat k.modNat / 2 ^ 14)

/-- The pulses are those of the video half, counted by its own edges. -/
theorem vsyncs_video (n : Nat) : vsyncs clk hdmi_in portC10 n =
    Nat.count (fun t => (after VideoPath.cycle powerUp.hdmi_averager hdmi_in t).video_averager.vsync = true)
      (edges clk .clk_pixel n) := by
  unfold vsyncs
  simp only [video_run]
  exact domain_count (fun t => (after VideoPath.cycle powerUp.hdmi_averager hdmi_in t).video_averager.vsync = true) n

/-- TV mode, and one LED for each block. -/
def tvFrames : List (CommandFrames.Frame 32) := [.setMode 1, ⟨1, List.replicate 32 1, Nat.le_succ 1, rfl⟩]

/-- A line with the bytes of these frames from cycle `first` on. -/
def tvLine (first : Nat) : Nat → Bool :=
  sampled 1 0 (burst 435 first (fun i => (encode tvFrames).getD i 0) (encode tvFrames).length)

theorem tv_registers (hclk : Runs clk .clk_50) (hdmi_in : Nat → DvidIn.Inputs) {first : Nat}
    (hfirst : 435 ≤ first) (n : Nat) :
    let r := (atEdge clk hdmi_in (tvLine first) n).clk_50.uart.receiver.rx_controller
    (r.mode = 0 ∨ r.mode = 1) ∧ (n ≤ first + 5 → r.mode = 0) ∧
      (first + 35 * 4350 + 5 ≤ n → r.mode = 1 ∧ bytes r.block_counts 32 = List.replicate 32 1) := by
  intro r
  let s j := (atEdge clk hdmi_in (tvLine first) j).clk_50
  have hs : Follows (Clk50.step 10000000 435) (clk50Wave clk hdmi_in (tvLine first)) s := atEdge_follows hclk
  have h0 : s 0 = Clk50.powerUp := atEdge_start hclk
  have hlink : Follows (SerialLink.step 435) (tvLine first) fun t => (s t).uart.receiver := receiver_follows hs
  have hlink0 : (s 0).uart.receiver = SerialLink.powerUp := by
    rw [h0]
    rfl
  let b i := (encode tvFrames).getD i 0
  have hsent : Sent 435 (burst 435 first b 35) 0
      (fun i => if i < 35 then first + i * (10 * 435) else first + 35 * (10 * 435)) b 35 :=
    sent_burst _ (Nat.le_refl _)
  have hcycle (x : Nat) : firstCycle 1 0 x = x := by simp [firstCycle]
  have hlead : 1 * 435 + 0 ≤ if 0 < 35 then first + 0 * (10 * 435) else first + 35 * (10 * 435) := by
    rw [if_pos (by decide)]
    omega
  have hall : (List.range 35).map b = encode tvFrames := HostPath.map_getD_range (encode tvFrames)
  obtain ⟨hafter, hsofar⟩ := sent_run (by decide) (by decide) ⟨by decide, by decide⟩ hlink hlink0 hsent
    (Nat.zero_le _) hlead fun x hx => burst_after hx
  have hnone := (sent_received (by decide) (by decide) ⟨by decide, by decide⟩ hlink hlink0 hsent
    (Nat.zero_le _) hlead (Nat.zero_le 35)).2
  rw [hall] at hafter hsofar
  rw [hcycle] at hafter hnone
  rw [if_neg (Nat.lt_irrefl 35)] at hafter
  rw [if_pos (by decide), Nat.zero_mul, Nat.add_zero] at hnone
  rcases n with _ | n
  · have hr : r = UartRxController.powerUp := congrArg (fun s => s.uart.receiver.rx_controller) h0
    rw [hr]
    exact ⟨.inl rfl, fun _ => rfl, fun h => absurd h (by omega)⟩
  have hregs : registers r = (Parser.run 32 ⟨none, registers UartRxController.powerUp⟩
    (bytesBefore (fun t => (s t).uart.receiver) n)).regs := HostPath.registers_sent (by decide) hs h0 hsofar n
  refine ⟨?_, fun hn => ?_, fun hn => ?_⟩
  · obtain ⟨pre, hpre, hpre'⟩ := HostPath.prefix_regs (by decide) (registers UartRxController.powerUp) (hsofar n)
    have hmode : r.mode = (writeAll (registers UartRxController.powerUp) pre).mode :=
      congrArg Registers.mode (hregs.trans hpre')
    rw [hmode]
    rcases HostPath.mode_among (registers UartRxController.powerUp) pre with h | ⟨f, hf, hcmd, h⟩ <;> rw [h]
    · exact .inl rfl
    · have hmem := hpre.mem hf
      simp only [tvFrames, List.mem_cons, List.not_mem_nil, or_false] at hmem
      rcases hmem with rfl | rfl
      · exact .inr rfl
      · exact absurd hcmd (by decide : (1 : BitVec 8) ≠ 0)
  · have hnil : bytesBefore (fun t => (s t).uart.receiver) n = [] := by
      apply List.prefix_nil.1
      rw [← List.map_nil (f := b), ← List.range_zero, ← hnone]
      exact received_mono _ (by omega)
    rw [hnil] at hregs
    exact congrArg Registers.mode hregs
  · rw [hafter n (by omega), run_encode (by decide)] at hregs
    exact ⟨congrArg Registers.mode hregs, congrArg Registers.block_counts hregs⟩

/-- Without a mode, and in TV mode without pulses, the LEDs rest. -/
theorem rest_without (hclk : Runs clk .clk_50) {N : Nat}
    (hmode : ∀ n < N, (atEdge clk hdmi_in portC10 n).clk_50.uart.receiver.rx_controller.mode = 0 ∨
      (atEdge clk hdmi_in portC10 n).clk_50.uart.receiver.rx_controller.mode = 1 ∧
        (atEdge clk hdmi_in portC10 n).cross_clock_vsync.pulse_out = false) :
    (atEdge clk hdmi_in portC10 (N + 1)).clk_50.neoPixel.pixelGenerator.state = .idle ∧
      (atEdge clk hdmi_in portC10 (N + 1)).clk_50.neoPixel.neopixel_drive.state = .idle := by
  have hlow (n : Nat) (hn : n < N + 1) : (atEdge clk hdmi_in portC10 n).clk_50.leds.run_neopixel = false := by
    rcases n with _ | n
    · rw [atEdge_start hclk]
      rfl
    · have hswitch := congrArg Prod.fst (switch_succ hdmi_in portC10 hclk n)
      refine (hswitch.trans (Refresh.ledSwitch_run _ _)).trans ?_
      rcases hmode n (by omega) with h | ⟨h, hp⟩
      · exact if_pos h
      · refine (if_neg fun h0 => ?_).trans ((if_pos h).trans hp)
        exact absurd (h0.symm.trans h) (by decide)
  have hrest := HostToLed.leds_rest (by decide) (leds_at hclk)
    (by rw [atEdge_start hclk]; exact powerUp_inv (by decide)) (by rw [atEdge_start hclk]; exact powerUp_quiet) hlow
  exact ⟨hrest.1, hrest.2.1⟩

/-- With the edges of the clocks in turn, a pulse is passed on in the third edge after it. -/
theorem turns_pulse (m : Nat) : (atEdge turns hdmi_in portC10 (m + 3)).cross_clock_vsync.pulse_out =
    (after VideoPath.cycle powerUp.hdmi_averager hdmi_in (m + 1)).video_averager.vsync := by
  apply Bool.eq_iff_iff.2
  rw [pulse_iff turns_runs, vsyncs_video, vsyncs_video, turns_at, turns_at, (turns_edges _).2, (turns_edges _).2,
    Nat.count_succ, Nat.add_sub_cancel_left]
  split
  case isTrue h => exact iff_of_true rfl h
  case isFalse h => exact iff_of_false (by decide) h

/-- A host that selects TV mode in the white picture finds the LEDs at rest. -/
theorem white_rests {lead j first : Nat}
    (hlead : 0 / 10 + 32777 + 10 * (VideoPath.screen.length + 32773 + 32770) = lead)
    (hE : lead + latency 0 + 65 + VideoPath.screen.length = j + 1) (hfirst : 435 ≤ first)
    (hnear : j < first + 720 * 1281 + 1) :
    let s := atEdge turns (VideoPath.transmit (VideoPath.whiteVideo lead)) (tvLine first)
    (s (j + 4)).clk_50.neoPixel.pixelGenerator.state = .idle ∧
      (s (j + 4)).clk_50.neoPixel.neopixel_drive.state = .idle := by
  have hpast {n : Nat} (h1 : first + 5 < n) (h2 : n < j + 3) :
      ∃ m, n = m + 3 ∧ j + 1 < m + 1 + 720 * 1281 ∧ m + 1 < j + 1 := by
    clear hlead hE
    exact ⟨n - 3, by omega, by omega, by omega⟩
  refine rest_without turns_runs (N := j + 3) fun n hn => ?_
  obtain ⟨hmode, hbefore, -⟩ := tv_registers turns_runs (VideoPath.transmit (VideoPath.whiteVideo lead)) hfirst n
  rcases Nat.lt_or_ge (first + 5) n with h | h
  · refine hmode.imp_right fun h1 => ⟨h1, ?_⟩
    obtain ⟨m, rfl, hm, hm'⟩ := hpast h hn
    rw [turns_pulse]
    exact (VideoPath.white_end hlead hE).2 (m + 1) hm hm'
  · exact .inl (hbefore h)

/-- A host selects TV mode in the white picture: at its end the LEDs rest, and are
told to show one LED for each block. -/
theorem white_ready : ∃ lead first j,
    let s := atEdge turns (VideoPath.transmit (VideoPath.whiteVideo lead)) (tvLine first)
    0 / 10 + 32777 + 10 * (VideoPath.screen.length + 32773 + 32770) = lead ∧ 435 ≤ first ∧
      lead + latency 0 + 65 + VideoPath.screen.length = j + 1 ∧
      (s (j + 3)).clk_50.uart.receiver.rx_controller.mode = 1 ∧
      bytes (s (j + 4)).clk_50.uart.receiver.rx_controller.block_counts 32 = List.replicate 32 1 ∧
      (s (j + 4)).clk_50.neoPixel.pixelGenerator.state = .idle ∧
      (s (j + 4)).clk_50.neoPixel.neopixel_drive.state = .idle := by
  have hbytes {j : Nat} (hj : 435 + 720 * 1281 ≤ j) : ∃ first, 435 ≤ first ∧ first + 35 * 4350 + 5 ≤ j + 3 ∧
      first + 35 * 4350 + 5 ≤ j + 4 ∧ j < first + 720 * 1281 + 1 :=
    ⟨j - 720 * 1281, by omega, by omega, by omega, by omega⟩
  have hedges (k l n : Nat) : k + l + 65 + n = k + l + 64 + n + 1 := by omega
  have hlong {k l n lead j : Nat} (hn : 720 * 1281 ≤ n) (hlead : 0 / 10 + 32777 + 10 * k = lead)
      (hj : lead + l + 64 + n = j) : 435 + 720 * 1281 ≤ j := by omega
  generalize hlead : 0 / 10 + 32777 + 10 * (VideoPath.screen.length + 32773 + 32770) = lead
  generalize hj : lead + latency 0 + 64 + VideoPath.screen.length = j
  have hE : lead + latency 0 + 65 + VideoPath.screen.length = j + 1 := (hedges lead _ _).trans (congrArg (· + 1) hj)
  obtain ⟨first, hfirst, hlast, hlast', hnear⟩ := hbytes (hlong VideoPath.screen_long hlead hj)
  have hregs (n : Nat) := (tv_registers turns_runs (VideoPath.transmit (VideoPath.whiteVideo lead)) hfirst n).2.2
  exact ⟨lead, first, j, rfl, hfirst, hE, (hregs (j + 3) hlast).1, (hregs (j + 4) hlast').2,
    white_rests hlead hE hfirst hnear⟩

/-- What starts an idle driver: in TV mode an odd number of vsync pulses between
two edges of `clk_50`, in custom mode a change of the colours, and in mode `11`
what it was the edge before. -/
theorem starts_iff (hclk : Runs clk .clk_50) (hdmi_in : Nat → DvidIn.Inputs) (portC10 : Nat → Bool) {j : Nat}
    (hidle : (atEdge clk hdmi_in portC10 (j + 4)).clk_50.neoPixel.neopixel_drive.state = .idle) :
    let s := atEdge clk hdmi_in portC10
    let mode := (s (j + 3)).clk_50.uart.receiver.rx_controller.mode
    (∃ e, DriverRun (fun j => (s j).clk_50.neoPixel) (j + 4) e) ↔
      (mode = 1 ∧ (vsyncs clk hdmi_in portC10 (edgeAt clk .clk_50 (j + 1)) -
          vsyncs clk hdmi_in portC10 (edgeAt clk .clk_50 j)) % 2 = 1) ∨
        (mode = 2 ∧ (s (j + 3)).clk_50.uart.receiver.rx_controller.custom_block_change = true) ∨
        (mode = 3 ∧ (s (j + 3)).clk_50.run_neopixel = true) := by
  intro s mode
  have hswitch : (s (j + 4)).clk_50.run_neopixel = Refresh.step (s (j + 3)).clk_50.run_neopixel
      ⟨mode, (s (j + 3)).cross_clock_vsync.pulse_out,
        (s (j + 3)).clk_50.uart.receiver.rx_controller.custom_block_change⟩ :=
    (congrArg Prod.fst (switch_succ hdmi_in portC10 hclk (j + 3))).trans (Refresh.ledSwitch_run _ _)
  rw [run_iff hclk hdmi_in portC10 hidle, hswitch, ← pulse_iff hclk]
  unfold Refresh.step
  rcases Refresh.mode_cases mode with h | h | h | h <;> simp [h, s]

/-- With the white picture nothing starts while no mode is selected, and the end of
the picture starts a frame. -/
theorem white_start : ∃ lead first j,
    let hdmi_in := VideoPath.transmit (VideoPath.whiteVideo lead)
    let s := atEdge turns hdmi_in (tvLine first)
    (¬ ∃ e, DriverRun (fun j => (s j).clk_50.neoPixel) 4 e) ∧
      (s (j + 3)).clk_50.uart.receiver.rx_controller.mode = 1 ∧
      (vsyncs turns hdmi_in (tvLine first) (edgeAt turns .clk_50 (j + 1)) -
        vsyncs turns hdmi_in (tvLine first) (edgeAt turns .clk_50 j)) % 2 = 1 ∧
      ∃ e, DriverRun (fun j => (s j).clk_50.neoPixel) (j + 4) e := by
  obtain ⟨lead, first, j, hlead, hfirst, hE, hmode, -, -, hdrive⟩ := white_ready
  have hpulse : (atEdge turns (VideoPath.transmit (VideoPath.whiteVideo lead)) (tvLine first)
      (j + 3)).cross_clock_vsync.pulse_out = true := (turns_pulse j).trans (VideoPath.white_end hlead hE).1
  have hodd := (pulse_iff turns_runs j).1 hpulse
  refine ⟨lead, first, j, ?_, hmode, hodd, (starts_iff turns_runs _ _ hdrive).2 (.inl ⟨hmode, hodd⟩)⟩
  rintro ⟨e, hrun⟩
  have hnone := (tv_registers turns_runs (VideoPath.transmit (VideoPath.whiteVideo lead)) hfirst 3).2.1
    (Nat.le_trans (by decide) (Nat.le_trans hfirst (Nat.le_add_right first 5)))
  rcases (starts_iff turns_runs _ _ hrun.leaves.1).1 ⟨e, hrun⟩ with ⟨hm, -⟩ | ⟨hm, -⟩ | ⟨hm, -⟩
  all_goals cases hnone.symm.trans hm

end DinoLight.ScreenPath
