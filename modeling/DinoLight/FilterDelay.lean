import DinoLight.Lib.Runs
import DinoLight.RemoveBadThings
/-!
# What the one-bit filter does to a signal

The output of `remove_bad_things` switches only to a value the whole buffer
holds, so it stays for as long as the buffer is wide; a signal whose runs are
at least that long comes out whole, one buffer and one register later.
-/
open Clocked Runs

namespace DinoLight.FilterDelay
open RemoveBadThings

variable {clean_width : Nat}

/-- The filter on the signal `w`, cycle by cycle. -/
def filter (clean_width : Nat) (w : Nat → Bool) : Nat → Regs clean_width := after step powerUp w

theorem filter_succ (w : Nat → Bool) (n : Nat) :
    filter clean_width w (n + 1) = step (filter clean_width w n) (w n) := rfl

/-- What `remove_bad_things` does to the signal `w`. -/
structure Clean (clean_width : Nat) (w : Nat → Bool) : Prop where
  switches : ∀ n, (filter clean_width w (n + 1)).signal_out ≠ (filter clean_width w n).signal_out →
    Holds (filter clean_width w n) (filter clean_width w (n + 1)).signal_out
  apart : ∀ m n, m < n → (filter clean_width w (m + 1)).signal_out ≠ (filter clean_width w m).signal_out →
    (filter clean_width w (n + 1)).signal_out ≠ (filter clean_width w n).signal_out → m + clean_width ≤ n
  delays : Long clean_width w → Delayed (clean_width + 1) (fun n => (filter clean_width w n).signal_out) w

variable {w : Nat → Bool}

theorem switches (hW : 0 < clean_width) {n : Nat}
    (h : (filter clean_width w (n + 1)).signal_out ≠ (filter clean_width w n).signal_out) :
    Holds (filter clean_width w n) (filter clean_width w (n + 1)).signal_out := by
  rcases signal_out_step hW (filter clean_width w n) (w n) with ⟨b, hb, hout⟩ | ⟨-, hout⟩
  · rw [filter_succ, hout]
    exact hb
  · exact absurd hout h

/-- Unless the whole buffer holds the other value the output stays. -/
theorem stays (hW : 0 < clean_width) {n : Nat} {b : Bool} (h : (filter clean_width w n).signal_out = b)
    (hb : ¬ Holds (filter clean_width w n) (!b)) : (filter clean_width w (n + 1)).signal_out = b := by
  by_contra hne
  apply hb
  rw [← Bool.eq_not_of_ne hne]
  exact switches hW (by rwa [h])

/-- A buffer of one value holds no sample of the other. -/
theorem sample_of_holds {m k : Nat} {b : Bool} (h : Holds (filter clean_width w m) b) (hk : k < m)
    (hm : m ≤ k + clean_width) : w k = b := by
  obtain ⟨i, rfl⟩ := Nat.exists_eq_add_of_lt hk
  have hi : i < clean_width := by omega
  rw [← sample_run (filter_succ w) k hi]
  exact h i hi

/-- Elements that no sample has reached are low, as at power-up. -/
theorem unreached {n i : Nat} (hni : n ≤ i) (hi : i < clean_width) :
    (filter clean_width w n).removeBuffer.getMsbD i = false := by
  induction n generalizing i with
  | zero => simp [filter, powerUp]
  | succ n ih =>
    rw [filter_succ]
    simp only [step, getMsbD_shiftBuffer _ _ hi]
    rw [if_neg (Nat.ne_of_gt (Nat.lt_of_lt_of_le (Nat.succ_pos n) hni))]
    exact ih (Nat.le_sub_one_of_lt hni) (Nat.lt_of_le_of_lt (Nat.sub_le i 1) hi)

/-- The output leaves its power-up value only when a whole buffer has come in. -/
theorem low_at_first (hW : 0 < clean_width) {n : Nat} (hn : n ≤ clean_width) :
    (filter clean_width w n).signal_out = false := by
  induction n with
  | zero => rfl
  | succ n ih =>
    apply stays hW (ih (Nat.le_of_succ_le hn))
    intro hb
    have hlow := unreached (w := w) (Nat.le_refl n) hn
    rw [hb n hn] at hlow
    exact Bool.noConfusion hlow

theorem apart (hW : 0 < clean_width) {m n : Nat} (hmn : m < n)
    (hm : (filter clean_width w (m + 1)).signal_out ≠ (filter clean_width w m).signal_out)
    (hn : (filter clean_width w (n + 1)).signal_out ≠ (filter clean_width w n).signal_out) : m + clean_width ≤ n := by
  by_contra hlt
  have hpos : 0 < m := by
    rcases Nat.eq_zero_or_pos m with rfl | hpos
    · exact absurd ((low_at_first hW hW).trans (low_at_first hW (Nat.zero_le _)).symm) hm
    · exact hpos
  -- the last sample before the first switch is in every buffer until the second
  have hsample : w (m - 1) = (filter clean_width w (m + 1)).signal_out :=
    sample_of_holds (switches hW hm) (by omega) (by omega)
  have hstays : ∀ k, m + 1 ≤ k → k ≤ n + 1 →
      (filter clean_width w k).signal_out = (filter clean_width w (m + 1)).signal_out := by
    intro k hmk
    induction hmk with
    | refl => exact fun _ => rfl
    | @step k hmk ih =>
      intro hk
      apply stays hW (ih (Nat.le_of_succ_le hk))
      intro hb
      have hmk : m < k := hmk
      have hother := sample_of_holds hb (k := m - 1) (by omega) (by omega)
      rw [hsample] at hother
      exact Bool.not_ne_self _ hother.symm
  exact hn ((hstays (n + 1) (Nat.le_succ_of_le hmn) (Nat.le_refl _)).trans (hstays n hmn (Nat.le_succ n)).symm)

/-- Whatever state the filter starts in. -/
theorem delays_run (hW : 0 < clean_width) {r : Nat → Regs clean_width} (hr : Follows step w r)
    (hw : Long clean_width w) : Delayed (clean_width + 1) (fun n => (r n).signal_out) w := by
  intro t
  obtain ⟨a, hat, hbegins, hsame⟩ := exists_begins w t
  obtain ⟨k, rfl⟩ := Nat.exists_eq_add_of_le hat
  rw [hsame _ hat (Nat.le_refl _)]
  -- on `k`, from the cycle in which the run has filled the buffer
  induction k with
  | zero => exact settles hW hr fun u hau hu => hw.lasts hbegins hau hu
  | succ k ih =>
    have hout := ih (Nat.le_add_right a k) fun u hau hu => hsame u hau (Nat.le_succ_of_le hu)
    have hnext : a + (k + 1) + (clean_width + 1) = a + k + (clean_width + 1) + 1 := by omega
    simp only [hnext, hr (a + k + (clean_width + 1))]
    obtain ⟨b, hb, hout'⟩ | ⟨-, hkept⟩ :=
      signal_out_step hW (r (a + k + (clean_width + 1))) (w (a + k + (clean_width + 1)))
    · -- the newest sample but the last is of the run
      have hlast := hb (clean_width - 1) (by omega)
      have hsample := sample_run hr (a + (k + 1)) (i := clean_width - 1) (by omega)
      rw [show a + (k + 1) + (clean_width - 1) + 1 = a + k + (clean_width + 1) by omega, hlast] at hsample
      rw [hout', hsample]
      exact hsame _ (Nat.le_add_right a _) (Nat.le_refl _)
    · rw [hkept]
      exact hout

theorem delays (hW : 0 < clean_width) (hw : Long clean_width w) :
    Delayed (clean_width + 1) (fun n => (filter clean_width w n).signal_out) w := delays_run hW (filter_succ w) hw

/-- Short pulses are removed and nothing else is changed, at every width. -/
theorem clean (hW : 0 < clean_width) (w : Nat → Bool) : Clean clean_width w :=
  ⟨fun _ => switches hW, fun _ _ => apart hW, delays hW⟩

/-- The filter as instantiated, on a step. -/
theorem clean_step : Clean 64 (stepAt 100) := clean (by decide) (stepAt 100)

end DinoLight.FilterDelay
