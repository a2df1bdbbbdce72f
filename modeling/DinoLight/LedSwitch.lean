import DinoLight.CommandFrames
import DinoLight.Progress
/-!
# The controller, `ledSwitch` and the LEDs

`uart_rx_controller` and `neopixel_top` on one clock, with the process of
`dinolight` between them that chooses by `mode` what the LEDs show and when.
-/
open Clocked

namespace DinoLight.LedSwitch
open CommandParser (AtRest)

structure Regs (num_blocks : Nat) where
  uart : UartRxController.Regs num_blocks
  run_neopixel : Bool
  neopixel_select : BitVec (num_blocks * 24)
  neoPixel : NeopixelTop.Regs num_blocks

structure Inputs (num_blocks : Nat) where
  uart : UartRxController.Inputs
  vsync_50 : Bool
  framebuffer_50 : BitVec (num_blocks * 24)

variable {num_blocks : Nat}

def powerUp : Regs num_blocks where
  uart := UartRxController.powerUp
  run_neopixel := false
  neopixel_select := 0
  neoPixel := NeopixelTop.powerUp

/-- `run_neopixel` and `neopixel_select` after an edge; `mode = "11"` keeps both. -/
def ledSwitch (s : Regs num_blocks) (i : Inputs num_blocks) : Bool × BitVec (num_blocks * 24) :=
  if s.uart.mode = 0 then (false, s.neopixel_select)
  else if s.uart.mode = 1 then (i.vsync_50, i.framebuffer_50)
  else if s.uart.mode = 2 then (s.uart.custom_block_change, s.uart.custom_block_values)
  else (s.run_neopixel, s.neopixel_select)

def ledInputs (s : Regs num_blocks) : NeopixelTop.Inputs num_blocks where
  run := s.run_neopixel
  blocks := s.neopixel_select
  block_counts := s.uart.block_counts

/-- One rising edge of `clk_50`. -/
def step (s : Regs num_blocks) (i : Inputs num_blocks) : Regs num_blocks where
  uart := UartRxController.step s.uart i.uart
  run_neopixel := (ledSwitch s i).1
  neopixel_select := (ledSwitch s i).2
  neoPixel := NeopixelTop.step s.neoPixel (ledInputs s)

/-! ## Its parts -/

section Parts
variable {s : Nat → Regs num_blocks} {w : Nat → Inputs num_blocks}

theorem uart_follows (hs : Follows step w s) :
    Follows UartRxController.step (fun n => (w n).uart) (fun n => (s n).uart) := fun n =>
  congrArg Regs.uart (hs n)

theorem neoPixel_follows (hs : Follows step w s) :
    Follows NeopixelTop.step (fun n => ledInputs (s n)) (fun n => (s n).neoPixel) := fun n =>
  congrArg Regs.neoPixel (hs n)

end Parts

/-! ## Reachable states -/

/-- In `idle` the controller's index is 0, and a change pulse is only high in `finish`. -/
structure ControllerInv (s : UartRxController.Regs num_blocks) : Prop where
  index : s.state = .idle → s.currentIndex = 0
  mode_change : s.mode_value_change = true → s.state = .finish
  custom_change : s.custom_block_change = true → s.state = .finish

theorem controllerInv_step (s : UartRxController.Regs num_blocks) (i : UartRxController.Inputs) :
    ControllerInv (UartRxController.step s i) := by
  have he := UartRxController.edge_step s i
  generalize UartRxController.step s i = s' at he ⊢
  cases he with
  | finish => exact ⟨by simp, fun _ => rfl, fun _ => rfl⟩
  | rest | done => exact ⟨fun _ => rfl, by simp [UartRxController.quiet], by simp [UartRxController.quiet]⟩
  | wait _ hst =>
    exact ⟨by simp [UartRxController.quiet, hst], by simp [UartRxController.quiet],
      by simp [UartRxController.quiet]⟩
  | _ => exact ⟨by simp, by simp [UartRxController.quiet], by simp [UartRxController.quiet]⟩

structure Inv (s : Regs num_blocks) : Prop where
  uart : ControllerInv s.uart
  neoPixel : NeopixelTop.Inv s.neoPixel

theorem reachable_inv (hN : 0 < num_blocks) {s : Regs num_blocks} (h : Reachable step powerUp s) : Inv s :=
  h.inv ⟨⟨fun _ => rfl, by simp [powerUp, UartRxController.powerUp], by simp [powerUp, UartRxController.powerUp]⟩,
    NeopixelTop.powerUp_inv⟩
    fun s i h => ⟨controllerInv_step s.uart i.uart, NeopixelTop.step_inv hN _ h.neoPixel⟩

/-- All three machines are idle, and neither pulse on the way to the LEDs is high. -/
structure Quiet (s : Regs num_blocks) : Prop where
  uart : s.uart.state = .idle
  generator : s.neoPixel.pixelGenerator.state = .idle
  drive : s.neoPixel.neopixel_drive.state = .idle
  run : s.run_neopixel = false
  custom_change : s.uart.custom_block_change = false

theorem Quiet.atRest {s : Regs num_blocks} (h : Quiet s) (hi : Inv s) : AtRest s.uart where
  idle := h.uart
  index := hi.uart.index h.uart
  mode_change := by
    by_contra hm
    have hst := hi.uart.mode_change (by simpa using hm)
    cases h.uart.symm.trans hst
  custom_change := h.custom_change

end DinoLight.LedSwitch
