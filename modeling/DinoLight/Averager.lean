import DinoLight.Lib.Clocked
import DinoLight.Lib.Vectors
/-!
# `averager`

The averager counts its position on the screen and adds every pixel to the
accumulators of the boxes the position lies in. A rising `i_vsync` latches the
top eight bits of each accumulator into `framebuffer` and clears them.
-/
open Vectors

namespace DinoLight.Averager

/-- The registers that reach `framebuffer`. `accumulator` has a fourth column in
the source that nothing reads or writes. -/
structure Regs where
  a_red : BitVec 8
  a_green : BitVec 8
  a_blue : BitVec 8
  a_blank : Bool
  a_vsync : Bool
  x : BitVec 11
  y : BitVec 11
  accumulator : Fin 32 → Fin 3 → BitVec 22
  framebuffer : BitVec (32 * 24)

structure Inputs where
  i_red : BitVec 8
  i_green : BitVec 8
  i_blue : BitVec 8
  i_blank : Bool
  i_vsync : Bool

def powerUp : Regs where
  a_red := 0
  a_green := 0
  a_blue := 0
  a_blank := false
  a_vsync := false
  x := 0
  y := 0
  accumulator _ _ := 0
  framebuffer := 0

/-- The left column of each box. -/
def startx (n : Fin 32) : Nat :=
  [0, 115, 230, 346, 461, 576, 691, 806, 922, 1152, 1152, 1152, 1152, 1152, 1152, 1152, 1152, 1037, 922, 806, 691,
    576, 461, 346, 230, 0, 0, 0, 0, 0, 0, 0].getD n 0

/-- The top row of each box. -/
def starty (n : Fin 32) : Nat :=
  [0, 0, 0, 0, 0, 0, 0, 0, 0, 0, 0, 99, 197, 296, 395, 592, 592, 592, 592, 592, 592, 592, 592, 592, 592, 592, 592,
    493, 395, 296, 197, 0].getD n 0

/-! ## The process -/

def inBlock (n : Fin 32) (x y : Nat) : Prop :=
  x ≥ startx n ∧ x < startx n + 128 ∧ y ≥ starty n ∧ y < starty n + 128

instance (n : Fin 32) (x y : Nat) : Decidable (inBlock n x y) := inferInstanceAs (Decidable (_ ∧ _))

/-- `a_red`, `a_green` and `a_blue` by column of the accumulator. -/
def Regs.colour (s : Regs) (c : Fin 3) : BitVec 8 := [s.a_red, s.a_green, s.a_blue].getD c 0

def Inputs.colour (i : Inputs) (c : Fin 3) : BitVec 8 := [i.i_red, i.i_green, i.i_blue].getD c 0

/-- `i_vsync /= a_vsync` and `i_vsync = '1'` -/
def rises (s : Regs) (i : Inputs) : Prop := i.i_vsync ≠ s.a_vsync ∧ i.i_vsync = true

instance (s : Regs) (i : Inputs) : Decidable (rises s i) := inferInstanceAs (Decidable (_ ∧ _))

/-- `framebuffer(c * 8 + i * 24 to i * 24 + c * 8 + 7) <= accumulator(i, c)(21 downto 14)` for every `i` and `c`. -/
def latch (accumulator : Fin 32 → Fin 3 → BitVec 22) : BitVec (32 * 24) :=
  ofLeft _ fun j => (accumulator (Fin.ofNat 32 (j / 24)) (Fin.ofNat 3 (j % 24 / 8))).getMsbD (j % 8)

/-- A cycle of active video. -/
def Inputs.active (pixel : Fin 3 → BitVec 8) : Inputs := ⟨pixel 0, pixel 1, pixel 2, false, false⟩

/-- One rising edge of `clk_pixel`. Of two assignments to `x` or `y` at one edge
the last one counts. -/
def step (s : Regs) (i : Inputs) : Regs where
  a_red := i.i_red
  a_green := i.i_green
  a_blue := i.i_blue
  a_blank := i.i_blank
  a_vsync := i.i_vsync
  x :=
    if s.a_blank = false ∧ i.i_blank = true then 0
    else if i.i_blank = false then s.x + 1
    else s.x
  y :=
    if s.a_blank = false ∧ i.i_blank = true then s.y + 1
    else if i.i_vsync ≠ s.a_vsync then 0
    else s.y
  accumulator n c :=
    if rises s i then 0
    else if inBlock n s.x.toNat s.y.toNat then s.accumulator n c + (s.colour c).setWidth 22
    else s.accumulator n c
  framebuffer := if rises s i then latch s.accumulator else s.framebuffer

@[simp] theorem colour_step (s : Regs) (i : Inputs) : (step s i).colour = i.colour := rfl
@[simp] theorem a_blank_step (s : Regs) (i : Inputs) : (step s i).a_blank = i.i_blank := rfl

/-- `x` is cleared when blanking starts and does not move in it. -/
def Rests (s : Regs) : Prop := s.a_blank = true → s.x = 0

theorem rests_step (s : Regs) (i : Inputs) (h : Rests s) : Rests (step s i) := by
  intro hi
  rw [a_blank_step] at hi
  cases hs : s.a_blank
  · simp [step, hs, hi]
  · simp [step, hs, hi, h hs]

/-- The byte of `framebuffer` that shows channel `c` of block `n`. -/
def byteAt (framebuffer : BitVec (32 * 24)) (n : Fin 32) (c : Fin 3) : BitVec 8 :=
  slice framebuffer (24 * n + 8 * c) 8

/-- The latched byte is the accumulator without its low 14 bits. -/
theorem byteAt_latch (accumulator : Fin 32 → Fin 3 → BitVec 22) (n : Fin 32) (c : Fin 3) :
    (byteAt (latch accumulator) n c).toNat = (accumulator n c).toNat / 2 ^ 14 := by
  have hn := n.isLt
  have hc := c.isLt
  have hbyte : byteAt (latch accumulator) n c = (accumulator n c).extractLsb' 14 8 := by
    apply BitVec.eq_of_getMsbD_eq
    intro i hi
    rw [byteAt, getMsbD_slice _ hi (by omega), latch, getMsbD_ofLeft _ (by omega)]
    have h1 : Fin.ofNat 32 ((24 * n + 8 * c + i) / 24) = n := Fin.ext (by simp [Fin.ofNat]; omega)
    have h2 : Fin.ofNat 3 ((24 * n + 8 * c + i) % 24 / 8) = c := Fin.ext (by simp [Fin.ofNat]; omega)
    rw [h1, h2, show (24 * (n : Nat) + 8 * (c : Nat) + i) % 8 = i by omega]
    simp only [BitVec.getMsbD_eq_getLsbD, BitVec.getLsbD_extractLsb', hi, show i < 22 by omega,
      show 8 - 1 - i < 8 by omega, decide_true, Bool.true_and]
    congr 1
    omega
  rw [hbyte, BitVec.extractLsb'_toNat, Nat.shiftRight_eq_div_pow, Nat.mod_eq_of_lt]
  have := (accumulator n c).isLt
  omega

/-! ## Exact sums -/

/-- What an edge adds to an accumulator, unless it clears it. -/
def added (s : Regs) (n : Fin 32) (c : Fin 3) : Nat :=
  if inBlock n s.x.toNat s.y.toNat then (s.colour c).toNat else 0

theorem added_black {s : Regs} (h : ∀ c, s.colour c = 0) (n : Fin 32) (c : Fin 3) : added s n c = 0 := by
  simp [added, h c]

/-- The accumulators are the sums `A`, modulo `2 ^ 22`. -/
def Sums (s : Regs) (A : Fin 32 → Fin 3 → Nat) : Prop := ∀ n c, s.accumulator n c = BitVec.ofNat 22 (A n c)

theorem powerUp_sums : Sums powerUp fun _ _ => 0 := fun _ _ => rfl

theorem sums_step {s : Regs} {A : Fin 32 → Fin 3 → Nat} (i : Inputs) (h : Sums s A) :
    Sums (step s i) fun n c => if rises s i then 0 else A n c + added s n c := by
  intro n c
  simp only [step, added, h n c]
  split
  · rfl
  · split
    · rw [BitVec.ofNat_add, BitVec.ofNat_toNat]
    · simp

end DinoLight.Averager
