import DinoLight.VideoAverager
/-!
# Vsync pulses

`vsync1Clock` and the averager each remember the cleaned vsync of the cycle
before. The averager latches when it rises, `vsync1Clock` gives a pulse when it
changes, so every fall gives a pulse that announces nothing.
-/
open Clocked

namespace DinoLight.VsyncPulses
open Averager (rises)

/-- `averager` and the process `vsync1Clock` of `video_averager`. -/
structure Regs where
  averager : Averager.Regs
  last_vsync_value : Bool
  vsync : Bool

def powerUp : Regs where
  averager := Averager.powerUp
  last_vsync_value := false
  vsync := false

/-- One rising edge of `clk_pixel`. -/
def step (s : Regs) (i : Averager.Inputs) : Regs where
  averager := Averager.step s.averager i
  last_vsync_value := i.i_vsync
  vsync := s.last_vsync_value ≠ i.i_vsync

/-- The part of `video_averager` after its filters. -/
def behindFilters (s : VideoAverager.Regs) : Regs := ⟨s.averager, s.last_vsync_value, s.vsync⟩

theorem video_averager_step (s : VideoAverager.Regs) (i : VideoAverager.Inputs) :
    behindFilters (VideoAverager.step s i) = step (behindFilters s) (VideoAverager.cleaned s) := rfl

/-- Both copies of the previous vsync are the same. -/
def Alike (s : Regs) : Prop := s.last_vsync_value = s.averager.a_vsync

theorem alike_step (s : Regs) (i : Averager.Inputs) : Alike (step s i) := rfl

theorem alike_run (w : Nat → Averager.Inputs) (n : Nat) : Alike (after step powerUp w n) := by
  cases n with
  | zero => rfl
  | succ n => exact alike_step _ _

/-- The cleaned vsync falls. -/
def falls (s : Averager.Regs) (i : Averager.Inputs) : Prop := s.a_vsync = true ∧ i.i_vsync = false

/-- A pulse says that the vsync rose or fell at the edge before. -/
theorem pulse_step {s : Regs} (i : Averager.Inputs) (h : Alike s) :
    (step s i).vsync = true ↔ rises s.averager i ∨ falls s.averager i := by
  unfold Alike at h
  unfold rises falls
  simp only [step, h, decide_eq_true_eq]
  cases s.averager.a_vsync <;> cases i.i_vsync <;> simp

theorem falls_iff (w : Nat → Averager.Inputs) (n : Nat) :
    falls (after step powerUp w n).averager (w n) ↔
      ∃ m, n = m + 1 ∧ (w m).i_vsync = true ∧ (w (m + 1)).i_vsync = false := by
  rcases n with _ | m
  · simp [falls, powerUp, Averager.powerUp]
  · constructor
    · intro h
      exact ⟨m, rfl, h⟩
    · rintro ⟨k, hk, h⟩
      obtain rfl := Nat.succ.inj hk
      exact h

/-- A pulse stands in exactly the cycles in which a new framebuffer first shows,
exactly if the cleaned vsync never falls. -/
theorem announced_iff (w : Nat → Averager.Inputs) :
    let s := after step powerUp w
    (∀ n, (s n).vsync = true ↔ ∃ m, n = m + 1 ∧ rises (s m).averager (w m)) ↔
      ∀ n, (w n).i_vsync = true → (w (n + 1)).i_vsync = true := by
  intro s
  have hpulse (m : Nat) : (s (m + 1)).vsync = true ↔ rises (s m).averager (w m) ∨ falls (s m).averager (w m) :=
    pulse_step (w m) (alike_run w m)
  constructor
  · intro h n hn
    by_contra hn'
    have hfall : falls (s (n + 1)).averager (w (n + 1)) := (falls_iff w _).2 ⟨n, rfl, hn, eq_false_of_ne_true hn'⟩
    obtain ⟨m, hm, hrise⟩ := (h (n + 2)).1 ((hpulse (n + 1)).2 (.inr hfall))
    obtain rfl := Nat.succ.inj hm
    exact hn' hrise.2
  · intro h n
    constructor
    · intro hp
      rcases n with _ | m
      · cases hp
      · rcases (hpulse m).1 hp with hrise | hfall
        · exact ⟨m, rfl, hrise⟩
        · obtain ⟨k, -, hk, hk'⟩ := (falls_iff w m).1 hfall
          cases (h k hk).symm.trans hk'
    · rintro ⟨m, rfl, hrise⟩
      exact (hpulse m).2 (.inl hrise)

/-- One vsync pulse of 100 cycles, long and late enough for the filter to have passed it on. -/
def oneFrame (n : Nat) : Averager.Inputs where
  i_red := 0
  i_green := 0
  i_blue := 0
  i_blank := true
  i_vsync := 100 ≤ n ∧ n < 200

/-- The fall gives a second pulse for the frame. -/
theorem second_pulse : ¬ ∀ n, (after step powerUp oneFrame n).vsync = true ↔
    ∃ m, n = m + 1 ∧ rises (after step powerUp oneFrame m).averager (oneFrame m) := by
  intro h
  have hfall : falls (after step powerUp oneFrame 200).averager (oneFrame 200) :=
    (falls_iff oneFrame 200).2 ⟨199, rfl, rfl, rfl⟩
  obtain ⟨m, hm, hrise⟩ := (h 201).1 ((pulse_step (oneFrame 200) (alike_run oneFrame 200)).2 (.inr hfall))
  obtain rfl : m = 200 := (Nat.succ.inj hm).symm
  exact Bool.false_ne_true hrise.2

end DinoLight.VsyncPulses
