import DinoLight.ClockCrossing
import DinoLight.Lib.Domains
import DinoLight.UartTop
import DinoLight.VideoPath
/-!
# `dinolight`

The top level: `video_averager` on the pixel clock, `uart_top`, `ledSwitch` and
the LEDs on `clk_50`, and the two crossings between them. An event is an edge of
one of the clocks, with what the pins are at that edge.
-/
open Clocked

namespace DinoLight.Dinolight
open ClockCrossing (Pulse Register)

/-! ## The registers on `clk_50` -/

structure Clk50 (num_blocks : Nat) where
  uart : UartTop.Regs num_blocks
  run_neopixel : Bool
  neopixel_select : BitVec (num_blocks * 24)
  neoPixel : NeopixelTop.Regs num_blocks

structure Clk50.Inputs (num_blocks : Nat) where
  portC10 : Bool
  vsync_50 : Bool
  framebuffer_50 : BitVec (num_blocks * 24)

variable {num_blocks : Nat}

def Clk50.powerUp : Clk50 num_blocks where
  uart := UartTop.powerUp
  run_neopixel := false
  neopixel_select := 0
  neoPixel := NeopixelTop.powerUp

/-- The controller, the process `ledSwitch` and the LEDs. -/
def Clk50.leds (s : Clk50 num_blocks) : LedSwitch.Regs num_blocks :=
  ⟨s.uart.receiver.rx_controller, s.run_neopixel, s.neopixel_select, s.neoPixel⟩

def Clk50.ledInputs (s : Clk50 num_blocks) (i : Inputs num_blocks) : LedSwitch.Inputs num_blocks :=
  ⟨SerialLink.controllerInputs s.uart.receiver, i.vsync_50, i.framebuffer_50⟩

/-- One rising edge of `clk_50`; the data to send is tied to 0. -/
def Clk50.step (clock_cycles_send_period clocks_per_bit : Nat) (s : Clk50 num_blocks) (i : Inputs num_blocks) :
    Clk50 num_blocks where
  uart := UartTop.step clock_cycles_send_period clocks_per_bit s.uart ⟨i.portC10, 0⟩
  run_neopixel := (LedSwitch.ledSwitch s.leds (s.ledInputs i)).1
  neopixel_select := (LedSwitch.ledSwitch s.leds (s.ledInputs i)).2
  neoPixel := NeopixelTop.step s.neoPixel (LedSwitch.ledInputs s.leds)

section Parts
variable {P C : Nat} {w : Nat → Clk50.Inputs num_blocks} {s : Nat → Clk50 num_blocks}

theorem leds_follows (hs : Follows (Clk50.step P C) w s) :
    Follows LedSwitch.step (fun t => (s t).ledInputs (w t)) fun t => (s t).leds :=
  fun t => congrArg Clk50.leds (hs t)

theorem powerUp_inv (hN : 0 < num_blocks) : LedSwitch.Inv (Clk50.powerUp : Clk50 num_blocks).leds :=
  LedSwitch.reachable_inv hN ⟨fun _ => ⟨⟨false, 0, false⟩, false, 0⟩, 0, rfl⟩

theorem powerUp_quiet : LedSwitch.Quiet (Clk50.powerUp : Clk50 num_blocks).leds := ⟨rfl, rfl, rfl, rfl, rfl⟩

theorem receiver_follows (hs : Follows (Clk50.step P C) w s) :
    Follows (SerialLink.step C) (fun t => (w t).portC10) fun t => (s t).uart.receiver :=
  fun t => congrArg (fun s => s.uart.receiver) (hs t)

end Parts

/-! ## The chip -/

structure Regs where
  hdmi_averager : VideoPath.Regs
  cross_clock_vsync : Pulse
  cross_clock_framebuffer : Register (32 * 24)
  clk_50 : Clk50 32

inductive Event where
  | clk_pixel (hdmi_in : DvidIn.Inputs)
  | clk_50 (portC10 : Bool)

def powerUp : Regs where
  hdmi_averager := ⟨DvidIn.start, VideoAverager.powerUp⟩
  cross_clock_vsync := ⟨false, false, false, false⟩
  cross_clock_framebuffer := ⟨0, 0, 0⟩
  clk_50 := Clk50.powerUp

def framebuffer_pixel (s : Regs) : BitVec (32 * 24) := s.hdmi_averager.video_averager.averager.framebuffer

def clk50Inputs (s : Regs) (portC10 : Bool) : Clk50.Inputs 32 :=
  ⟨portC10, s.cross_clock_vsync.pulse_out, s.cross_clock_framebuffer.signal_out⟩

def step (s : Regs) : Event → Regs
  | .clk_pixel hdmi_in =>
    { s with
      hdmi_averager := VideoPath.cycle s.hdmi_averager hdmi_in
      cross_clock_vsync := s.cross_clock_vsync.inProcess s.hdmi_averager.video_averager.vsync }
  | .clk_50 portC10 =>
    { s with
      cross_clock_vsync := s.cross_clock_vsync.outProcess
      cross_clock_framebuffer := s.cross_clock_framebuffer.step (framebuffer_pixel s)
      clk_50 := Clk50.step 10000000 435 s.clk_50 (clk50Inputs s portC10) }

/-- `leds`: the mode, and zeros. -/
def leds (s : Regs) : BitVec 8 := s.clk_50.uart.receiver.rx_controller.mode.setWidth 8

/-- The LED wire. -/
def portC6 (s : Regs) : Bool := s.clk_50.neoPixel.neopixel_drive.data_out

/-- The line to the host. -/
def portC8 (s : Regs) : Bool := s.clk_50.uart.usb_rs232_txd

/-! ## Its two domains -/

inductive Clock where
  | clk_pixel | clk_50
  deriving DecidableEq

/-- The edges of a clock before event `n`. -/
def edges (clk : Nat → Clock) (c : Clock) (n : Nat) : Nat := Nat.count (fun k => clk k = c) n

/-- The event of edge `j` of a clock. -/
noncomputable def edgeAt (clk : Nat → Clock) (c : Clock) (j : Nat) : Nat := Nat.nth (fun k => clk k = c) j

/-- The edges of both clocks in the order `clk`, with the pins as each clock samples them. -/
def events (clk : Nat → Clock) (hdmi_in : Nat → DvidIn.Inputs) (portC10 : Nat → Bool) (n : Nat) : Event :=
  match clk n with
  | .clk_pixel => .clk_pixel (hdmi_in (edges clk .clk_pixel n))
  | .clk_50 => .clk_50 (portC10 (edges clk .clk_50 n))

/-- The clock never stops. -/
def Runs (clk : Nat → Clock) (c : Clock) : Prop := ∀ n, ∃ m, n ≤ m ∧ clk m = c

section Domains
variable {clk : Nat → Clock} {hdmi_in : Nat → DvidIn.Inputs} {portC10 : Nat → Bool}

theorem Runs.infinite {c : Clock} (h : Runs clk c) : (Set.ofPred fun k => clk k = c).Infinite := by
  rw [Set.infinite_iff_exists_gt]
  intro n
  obtain ⟨m, hm, hc⟩ := h (n + 1)
  exact ⟨m, hc, hm⟩

/-- The chip after `n` events. -/
def run (clk : Nat → Clock) (hdmi_in : Nat → DvidIn.Inputs) (portC10 : Nat → Bool) : Nat → Regs :=
  after step powerUp (events clk hdmi_in portC10)

theorem run_clk_pixel {n : Nat} (hn : clk n = .clk_pixel) : run clk hdmi_in portC10 (n + 1) =
    step (run clk hdmi_in portC10 n) (.clk_pixel (hdmi_in (edges clk .clk_pixel n))) := by
  rw [run, after_succ, events, hn]

theorem run_clk_50 {n : Nat} (hn : clk n = .clk_50) : run clk hdmi_in portC10 (n + 1) =
    step (run clk hdmi_in portC10 n) (.clk_50 (portC10 (edges clk .clk_50 n))) := by
  rw [run, after_succ, events, hn]

theorem not_clk_50 {n : Nat} (hn : clk n ≠ .clk_50) : clk n = .clk_pixel := by
  cases h : clk n
  · rfl
  · exact absurd h hn

theorem not_clk_pixel {n : Nat} (hn : clk n ≠ .clk_pixel) : clk n = .clk_50 := by
  cases h : clk n
  · exact absurd h hn
  · rfl

/-- The video half sees the pixel clock and the HDMI pins only. -/
theorem video_run (n : Nat) : (run clk hdmi_in portC10 n).hdmi_averager =
    after VideoPath.cycle powerUp.hdmi_averager hdmi_in (edges clk .clk_pixel n) := by
  apply domain_run (r := fun n => (run clk hdmi_in portC10 n).hdmi_averager)
  · intro n hn
    rw [run_clk_pixel hn]
    rfl
  · intro n hn
    rw [run_clk_50 (not_clk_pixel hn)]
    rfl

/-- What the `clk_50` half sees at its edge `j`. -/
noncomputable def clk50Wave (clk : Nat → Clock) (hdmi_in : Nat → DvidIn.Inputs) (portC10 : Nat → Bool) (j : Nat) :
    Clk50.Inputs 32 :=
  let s := run clk hdmi_in portC10 (edgeAt clk .clk_50 j)
  ⟨portC10 j, s.cross_clock_vsync.pulse_out, s.cross_clock_framebuffer.signal_out⟩

/-- The `clk_50` half after `j` edges of its clock. -/
noncomputable def clk50Run (clk : Nat → Clock) (hdmi_in : Nat → DvidIn.Inputs) (portC10 : Nat → Bool) :
    Nat → Clk50 32 :=
  after (Clk50.step 10000000 435) Clk50.powerUp (clk50Wave clk hdmi_in portC10)

theorem clk_50_run (n : Nat) : (run clk hdmi_in portC10 n).clk_50 =
    clk50Run clk hdmi_in portC10 (edges clk .clk_50 n) := by
  apply domain_run (r := fun n => (run clk hdmi_in portC10 n).clk_50)
  · intro n hn
    rw [run_clk_50 hn, clk50Wave, edgeAt, edges, Nat.nth_count (p := fun k => clk k = .clk_50) hn]
    rfl
  · intro n hn
    rw [run_clk_pixel (not_clk_50 hn)]
    rfl

/-- The chip at edge `j` of `clk_50`. -/
noncomputable def atEdge (clk : Nat → Clock) (hdmi_in : Nat → DvidIn.Inputs) (portC10 : Nat → Bool) (j : Nat) :
    Regs :=
  run clk hdmi_in portC10 (edgeAt clk .clk_50 j)

theorem clk_50_at (hclk : Runs clk .clk_50) (j : Nat) :
    (atEdge clk hdmi_in portC10 j).clk_50 = clk50Run clk hdmi_in portC10 j := by
  rw [atEdge, clk_50_run, edges, edgeAt, Nat.count_nth_of_infinite hclk.infinite]

theorem atEdge_follows (hclk : Runs clk .clk_50) : Follows (Clk50.step 10000000 435) (clk50Wave clk hdmi_in portC10)
    fun j => (atEdge clk hdmi_in portC10 j).clk_50 := by
  have hs : (fun j => (atEdge clk hdmi_in portC10 j).clk_50) = clk50Run clk hdmi_in portC10 := by
    funext j
    exact clk_50_at hclk j
  rw [hs]
  exact after_follows

theorem atEdge_start (hclk : Runs clk .clk_50) : (atEdge clk hdmi_in portC10 0).clk_50 = Clk50.powerUp :=
  clk_50_at hclk 0

end Domains

/-- Edges of the two clocks in turn. -/
def turns (n : Nat) : Clock := if n % 2 = 0 then .clk_pixel else .clk_50

theorem turns_odd (j : Nat) : turns (2 * j + 1) = .clk_50 := by
  unfold turns
  rw [if_neg (by omega)]

theorem turns_runs : Runs turns .clk_50 := by
  intro n
  exact ⟨2 * n + 1, by omega, turns_odd n⟩

theorem turns_edges (j : Nat) :
    edges turns .clk_50 (2 * j + 1) = j ∧ edges turns .clk_pixel (2 * j + 1) = j + 1 := by
  unfold edges
  induction j with
  | zero => exact ⟨rfl, rfl⟩
  | succ j ih =>
    have heven : turns (2 * j + 2) = .clk_pixel := by
      unfold turns
      rw [if_pos (by omega)]
    constructor
    · rw [Nat.mul_succ, Nat.count_succ_eq_count (by simp [heven]), Nat.count_succ_eq_succ_count (turns_odd j), ih.1]
    · rw [Nat.mul_succ, Nat.count_succ_eq_succ_count heven, Nat.count_succ_eq_count (by simp [turns_odd]), ih.2]

theorem turns_at (j : Nat) : edgeAt turns .clk_50 j = 2 * j + 1 := by
  have hnth := Nat.nth_count (p := fun k => turns k = .clk_50) (turns_odd j)
  have hcount := (turns_edges j).1
  unfold edges at hcount
  rwa [hcount] at hnth

end DinoLight.Dinolight
