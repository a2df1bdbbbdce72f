import DinoLight.Averager
/-!
# Blanking and the averages

Accumulation looks at the position and not at `a_blank`. In blanking `x` rests
at 0, so what the inputs carry then reaches the boxes at the left edge of the
screen, and no other: the averager relies on blanking being black there.
-/
open Clocked

namespace DinoLight.Blanking
open Averager

/-- The same pictures: the colours may differ in blanking. -/
structure SamePictures (w w' : Nat → Inputs) : Prop where
  blank : ∀ t, (w t).i_blank = (w' t).i_blank
  vsync : ∀ t, (w t).i_vsync = (w' t).i_vsync
  pixels : ∀ t c, (w t).i_blank = false → (w t).colour c = (w' t).colour c

/-- Two averagers that differ at most in what they captured in blanking, and in
the boxes at the left edge. -/
structure Alike (s s' : Regs) : Prop where
  blank : s.a_blank = s'.a_blank
  vsync : s.a_vsync = s'.a_vsync
  x : s.x = s'.x
  y : s.y = s'.y
  rest : s.a_blank = true → s.x = 0
  pixel : s.a_blank = false → ∀ c, s.colour c = s'.colour c
  accumulator : ∀ n c, 0 < startx n → s.accumulator n c = s'.accumulator n c
  framebuffer : ∀ n c, 0 < startx n → byteAt s.framebuffer n c = byteAt s'.framebuffer n c

theorem byteAt_latch_congr {a a' : Fin 32 → Fin 3 → BitVec 22} {n : Fin 32} {c : Fin 3} (h : a n c = a' n c) :
    byteAt (latch a) n c = byteAt (latch a') n c := by
  apply BitVec.eq_of_toNat_eq
  rw [byteAt_latch, byteAt_latch, h]

/-- Off the left edge an edge adds no colour captured in blanking. -/
theorem alike_step {s s' : Regs} {i i' : Inputs} (h : Alike s s') (hb : i.i_blank = i'.i_blank)
    (hv : i.i_vsync = i'.i_vsync) (hp : ∀ c, i.i_blank = false → i.colour c = i'.colour c) :
    Alike (step s i) (step s' i') := by
  have hrise : rises s i ↔ rises s' i' := by simp [rises, hv, h.vsync]
  refine ⟨hb, hv, ?_, ?_, rests_step s i h.rest, fun hi c => hp c hi, ?_, ?_⟩
  · simp only [step, h.blank, hb, h.x]
  · simp only [step, h.blank, hb, hv, h.vsync, h.y]
  · intro n c hn
    simp only [step, hrise, ← h.x, ← h.y, ← h.accumulator n c hn]
    split
    · rfl
    · split
      case isTrue hin =>
        -- in blanking `x` is 0, which is left of the box
        have hs : s.a_blank = false := by
          by_contra hs
          have hx := h.rest (eq_true_of_ne_false hs)
          have := hin.1
          simp [hx] at this
          omega
        rw [h.pixel hs c]
      case isFalse => rfl
  · intro n c hn
    simp only [step, hrise]
    split
    · exact byteAt_latch_congr (h.accumulator n c hn)
    · exact h.framebuffer n c hn

theorem alike_run {w w' : Nat → Inputs} (h : SamePictures w w') (t : Nat) :
    Alike (after step powerUp w t) (after step powerUp w' t) := by
  induction t with
  | zero => exact ⟨rfl, rfl, rfl, rfl, fun _ => rfl, fun _ _ => rfl, fun _ _ _ => rfl, fun _ _ _ => rfl⟩
  | succ t ih => exact alike_step ih (h.blank t) (h.vsync t) (h.pixels t)

/-- Off the left edge of the screen the averages do not depend on what the
inputs carry in blanking. -/
theorem averages_agree {w w' : Nat → Inputs} (h : SamePictures w w') (t : Nat) (n : Fin 32) (c : Fin 3)
    (hn : 0 < startx n) :
    byteAt (after step powerUp w t).framebuffer n c = byteAt (after step powerUp w' t).framebuffer n c :=
  (alike_run h t).framebuffer n c hn

/-- Blanking with a red level, and a vsync edge in cycle 67. -/
def redBlanking (red : BitVec 8) (t : Nat) : Inputs where
  i_red := red
  i_green := 0
  i_blue := 0
  i_blank := true
  i_vsync := t = 67

theorem redBlanking_same (red red' : BitVec 8) : SamePictures (redBlanking red) (redBlanking red') :=
  ⟨fun _ => rfl, fun _ => rfl, fun _ _ h => by simp [redBlanking] at h⟩

theorem red_averages_agree : byteAt (after step powerUp (redBlanking 255) 68).framebuffer 1 0 =
    byteAt (after step powerUp (redBlanking 0) 68).framebuffer 1 0 :=
  averages_agree (redBlanking_same 255 0) 68 1 0 (by decide)

/-- Box 0 shows the red of a blanking interval. -/
theorem blanking_leaks : SamePictures (redBlanking 255) (redBlanking 0) ∧
    (after step powerUp (redBlanking 255) 68).framebuffer ≠ (after step powerUp (redBlanking 0) 68).framebuffer := by
  refine ⟨redBlanking_same 255 0, ?_⟩
  intro h
  have hbyte (red : BitVec 8) : (byteAt (after step powerUp (redBlanking red) 68).framebuffer 0 0).toNat =
      ((after step powerUp (redBlanking red) 67).accumulator 0 0).toNat / 2 ^ 14 := by
    have hrise : rises (after step powerUp (redBlanking red) 67) (redBlanking red 67) :=
      ⟨fun h => Bool.noConfusion (h : true = false), rfl⟩
    rw [after_succ, ← byteAt_latch]
    simp only [step, if_pos hrise]
  have hred := hbyte 255
  rw [h, hbyte 0] at hred
  exact absurd hred (by decide +kernel)

end DinoLight.Blanking
