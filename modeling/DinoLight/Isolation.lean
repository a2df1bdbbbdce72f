import DinoLight.Averager
/-!
# Frames are isolated

A rise of `i_vsync` that falls in blanking leaves nothing of the past in the
averager but `framebuffer`, which no register reads: the accumulators and `y`
are cleared, `x` rests at 0 through blanking, and the pipeline registers take
the inputs. Two averagers with different pasts agree from there on.
-/
open Clocked

namespace DinoLight.Isolation
open Averager

theorem rests_run (w : Nat → Inputs) (n : Nat) : Rests (after step powerUp w n) :=
  after_inv (fun _ => rfl) rests_step n

/-- Two averagers that differ in `framebuffer` at most. -/
structure Agree (s s' : Regs) : Prop where
  colour : s.colour = s'.colour
  blank : s.a_blank = s'.a_blank
  vsync : s.a_vsync = s'.a_vsync
  x : s.x = s'.x
  y : s.y = s'.y
  accumulator : s.accumulator = s'.accumulator

theorem Agree.rises_iff {s s' : Regs} (h : Agree s s') (i : Inputs) : rises s i ↔ rises s' i := by
  unfold rises
  rw [h.vsync]

theorem agree_step (s s' : Regs) (i : Inputs) (h : Agree s s') : Agree (step s i) (step s' i) where
  colour := rfl
  blank := rfl
  vsync := rfl
  x := by simp only [step, h.blank, h.x]
  y := by simp only [step, h.blank, h.vsync, h.y]
  accumulator := by
    funext n c
    simp only [step, h.rises_iff i, h.colour, h.x, h.y, h.accumulator]

/-- The frame latched at a rise is the same. -/
theorem Agree.latched {s s' : Regs} {i : Inputs} (h : Agree s s') (hr : rises s i) :
    (step s i).framebuffer = (step s' i).framebuffer := by
  simp only [step, if_pos hr, if_pos ((h.rises_iff i).1 hr), h.accumulator]

/-- The rise that ends a frame in blanking makes any two averagers agree. -/
theorem agree_rise {s s' : Regs} {i : Inputs} (h : Rests s) (h' : Rests s') (hb : s.a_blank = true)
    (hb' : s'.a_blank = true) (hr : rises s i) (hr' : rises s' i) (hi : i.i_blank = true) :
    Agree (step s i) (step s' i) where
  colour := rfl
  blank := rfl
  vsync := rfl
  x := by simp [step, hi, hb, hb', h hb, h' hb']
  y := by simp [step, hb, hb', hr.1, hr'.1]
  accumulator := by
    funext n c
    simp only [step, if_pos hr, if_pos hr']

/-- After a rise in blanking, two histories see the same rises and latch the same frames. -/
theorem frames_isolated (w₁ w₂ w : Nat → Inputs) (n₁ n₂ : Nat) (hb₁ : (w₁ n₁).i_blank = true)
    (hb₂ : (w₂ n₂).i_blank = true) (hv₁ : (after step powerUp w₁ (n₁ + 1)).a_vsync = false)
    (hv₂ : (after step powerUp w₂ (n₂ + 1)).a_vsync = false) (hv : (w 0).i_vsync = true)
    (hb : (w 0).i_blank = true) (t : Nat) (ht : 0 < t) :
    let s₁ := after step (after step powerUp w₁ (n₁ + 1)) w
    let s₂ := after step (after step powerUp w₂ (n₂ + 1)) w
    (rises (s₁ t) (w t) ↔ rises (s₂ t) (w t)) ∧
      (rises (s₁ t) (w t) → (s₁ (t + 1)).framebuffer = (s₂ (t + 1)).framebuffer) := by
  intro s₁ s₂
  have hr₁ : rises (after step powerUp w₁ (n₁ + 1)) (w 0) := ⟨by simp [hv₁, hv], hv⟩
  have hr₂ : rises (after step powerUp w₂ (n₂ + 1)) (w 0) := ⟨by simp [hv₂, hv], hv⟩
  have hfirst : Agree (s₁ 1) (s₂ 1) := agree_rise (rests_run w₁ _) (rests_run w₂ _) hb₁ hb₂ hr₁ hr₂ hb
  have hf₁ : Follows step w s₁ := after_follows
  have h : Agree (s₁ t) (s₂ t) := hf₁.related after_follows agree_step ht hfirst
  exact ⟨h.rises_iff (w t), h.latched⟩

/-- Rows of three red pixels, with no end of frame. -/
def redRows (t : Nat) : Inputs where
  i_red := 255
  i_green := 0
  i_blue := 0
  i_blank := t % 4 = 3
  i_vsync := false

/-- Blanking, with a rise of `i_vsync` in every even cycle. -/
def rapidVsync (t : Nat) : Inputs where
  i_red := 7
  i_green := 0
  i_blue := 0
  i_blank := true
  i_vsync := t % 2 = 0

theorem redRows_isolated :
    let s₁ := after step (after step powerUp redRows 4) rapidVsync
    let s₂ := after step (after step powerUp redRows 12) rapidVsync
    (rises (s₁ 2) (rapidVsync 2) ↔ rises (s₂ 2) (rapidVsync 2)) ∧
      (rises (s₁ 2) (rapidVsync 2) → (s₁ 3).framebuffer = (s₂ 3).framebuffer) :=
  frames_isolated redRows redRows rapidVsync 3 11 rfl rfl rfl rfl rfl rfl 2 (by decide)

end DinoLight.Isolation
