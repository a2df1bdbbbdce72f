import DinoLight.Averager
import DinoLight.BlockStarts
/-!
# Holes along the edge of the screen

Each side takes its last regular step two steps before the corner and then
snaps to it. The boxes before and at the corner leave no hole between them only
if two steps fit into one box, which is a matter of the number of blocks alone.
-/
open Rounding

namespace DinoLight.EdgeCoverage
open BlockStarts

/-- The pixel lies in the 128 by 128 box that starts at `p`. -/
def InBox (p : ℤ × ℤ) (x y : ℤ) : Prop := p.1 ≤ x ∧ x < p.1 + 128 ∧ p.2 ≤ y ∧ y < p.2 + 128

def Covered (starts : List ℤ × List ℤ) (x y : ℤ) : Prop := ∃ p ∈ starts.1.zip starts.2, InBox p x y

/-- A pixel of the first or last column or row. -/
def Border (x y : ℤ) : Prop :=
  (0 ≤ x ∧ x ≤ 1279 ∧ 0 ≤ y ∧ y ≤ 719) ∧ (x = 0 ∨ x = 1279 ∨ y = 0 ∨ y = 719)

/-- Every border pixel is in some box. -/
def NoHole (starts : List ℤ × List ℤ) : Prop := ∀ x y, Border x y → Covered starts x y

/-! ## Steps of a side -/

section Leg
variable {L : ℚ} {n j : Nat}

/-- Two regular steps before the corner. -/
theorem leg_before (hn : 2 ≤ n) : leg L n (n - 2) = L - 2 * L / n := by
  have hpos : (n : ℚ) ≠ 0 := Nat.cast_ne_zero.2 (by omega)
  rw [leg_inner (by omega), Nat.cast_sub hn]
  field_simp
  push_cast
  ring

theorem leg_le_before (hL : 0 ≤ L) (hj : j < n - 1) : leg L n j ≤ leg L n (n - 2) := by
  rw [leg_inner hj, leg_inner (by omega)]
  exact mul_le_mul_of_nonneg_right (Nat.cast_le.2 (by omega)) (by positivity)

/-- With two steps in a box the corner follows closely. -/
theorem snap_close (hn : 2 ≤ n) (hfit : 2 * L ≤ 128 * n) (hj : n - 1 ≤ j + 1) : L - 128 ≤ leg L n j := by
  have hpos : (0 : ℚ) < n := Nat.cast_pos.2 (by omega)
  rcases Nat.lt_or_ge j (n - 1) with hlt | hge
  · rw [show j = n - 2 by omega, leg_before hn]
    have : 2 * L / n ≤ 128 := (div_le_iff₀ hpos).2 hfit
    linarith
  · rw [leg_snap (by omega) hge]
    linarith

/-- With two steps longer than a box the steps stay away from the corner. -/
theorem snap_far (hL : 129 ≤ L) (hlong : 129 * n ≤ 2 * L) (j : Nat) : leg L n j ≤ L - 129 ∨ leg L n j = L := by
  rcases Nat.eq_zero_or_pos j with rfl | hpos
  · rw [leg_zero]
    exact .inl (by linarith)
  · rcases Nat.lt_or_ge j (n - 1) with hlt | hge
    · have hn : (0 : ℚ) < n := Nat.cast_pos.2 (by omega)
      have hbefore := leg_le_before (by linarith : 0 ≤ L) hlt
      rw [leg_before (by omega)] at hbefore
      have : 129 ≤ 2 * L / n := (le_div_iff₀ hn).2 hlong
      exact .inl (by linarith)
    · exact .inr (leg_snap hpos hge)

variable (r : Nearest) {k : ℤ}

/-- The next box starts before this one ends, or right after. -/
theorem step_close (hk : (k : ℚ) = L) (hn : 2 ≤ n) (hfit : 2 * L ≤ 128 * n) (j : Nat) :
    r.toInt (leg L n (j + 1)) ≤ r.toInt (leg L n j) + 128 := by
  have hpos : (0 : ℚ) < n := Nat.cast_pos.2 (by omega)
  rcases Nat.lt_or_ge (j + 1) (n - 1) with hlt | hge
  · apply r.toInt_le_add
    have : L / n ≤ 64 := (div_le_iff₀ hpos).2 (by linarith)
    rw [leg_step hlt]
    push_cast
    linarith
  · have hcorner : r.toInt L = k := by rw [← hk, r.toInt_intCast]
    have hbefore : k - 128 ≤ r.toInt (leg L n j) := by
      apply r.le_toInt
      rw [Int.cast_sub, hk]
      exact snap_close hn hfit hge
    rw [leg_snap (Nat.succ_pos j) hge, hcorner]
    omega

theorem step_back_close (hn : 2 ≤ n) (hfit : 2 * L ≤ 128 * n) (j : Nat) :
    r.toInt (L - leg L n j) ≤ r.toInt (L - leg L n (j + 1)) + 128 := by
  have hpos : (0 : ℚ) < n := Nat.cast_pos.2 (by omega)
  rcases Nat.lt_or_ge (j + 1) (n - 1) with hlt | hge
  · apply r.toInt_le_add
    have : L / n ≤ 64 := (div_le_iff₀ hpos).2 (by linarith)
    rw [leg_step hlt]
    push_cast
    linarith
  · rw [leg_snap (Nat.succ_pos j) hge, sub_self, toInt_zero, zero_add]
    have := snap_close hn hfit hge
    exact r.toInt_le (by push_cast; linarith)

end Leg

/-- Boxes that follow one another closely leave nothing out. -/
theorem ladder {f : Nat → ℤ} {n : Nat} {c d : ℤ} (h0 : f 0 ≤ c) (hn : c < f n + d)
    (hs : ∀ j < n, f (j + 1) ≤ f j + d) : ∃ j ≤ n, f j ≤ c ∧ c < f j + d := by
  induction n with
  | zero => exact ⟨0, Nat.le_refl 0, h0, hn⟩
  | succ n ih =>
    rcases lt_or_ge c (f (n + 1)) with hlt | hge
    · have hend : c < f n + d := lt_of_lt_of_le hlt (hs n (Nat.lt_succ_self n))
      obtain ⟨j, hj, hin⟩ := ih hend fun j hj => hs j (Nat.lt_succ_of_lt hj)
      exact ⟨j, Nat.le_succ_of_le hj, hin⟩
    · exact ⟨n + 1, Nat.le_refl _, hge, hn⟩

/-- The same from the far end. -/
theorem ladder_back {f : Nat → ℤ} {n : Nat} {c d : ℤ} (h0 : c < f 0 + d) (hn : f n ≤ c)
    (hs : ∀ j < n, f j ≤ f (j + 1) + d) : ∃ j ≤ n, f j ≤ c ∧ c < f j + d := by
  obtain ⟨j, hj, hin⟩ := ladder (f := fun j => f (n - j)) (n := n) (by simpa using hn) (by simpa using h0)
    (fun j hj => by simpa [show n - (j + 1) + 1 = n - j by omega] using hs (n - (j + 1)) (by omega))
  exact ⟨n - j, Nat.sub_le n j, hin⟩

/-! ## Each side -/

variable {v h : Nat}

theorem start_mem (hv : 1 ≤ v) (hh : 1 ≤ h) (r : Nearest) {i : Nat} (hi : i < 2 * v + 2 * h - 1) :
    (r.toInt (start v h i).1, r.toInt (start v h i).2) ∈
      (generate_block_starts v h r).1.zip (generate_block_starts v h r).2 := by
  rw [starts_eq hv hh r]
  exact List.mem_append_left _ (List.mem_map.2 ⟨i, List.mem_range.2 hi, rfl⟩)

/-- Every start is one of the loop's or the last one. -/
theorem mem_starts (hv : 1 ≤ v) (hh : 1 ≤ h) {r : Nearest} {p : ℤ × ℤ}
    (hp : p ∈ (generate_block_starts v h r).1.zip (generate_block_starts v h r).2) :
    (∃ i, p = (r.toInt (start v h i).1, r.toInt (start v h i).2)) ∨ p = (0, 0) := by
  rw [starts_eq hv hh r] at hp
  rcases List.mem_append.1 hp with hp | hp
  · obtain ⟨i, -, rfl⟩ := List.mem_map.1 hp
    exact .inl ⟨i, rfl⟩
  · exact .inr (List.mem_singleton.1 hp)

theorem fits_width (hh : 18 ≤ h) : (2 : ℚ) * 1152 ≤ 128 * h := by
  have hh : (18 : ℚ) ≤ h := by exact_mod_cast hh
  linarith

theorem fits_height (hv : 10 ≤ v) : (2 : ℚ) * 592 ≤ 128 * v := by
  have hv : (10 : ℚ) ≤ v := by exact_mod_cast hv
  linarith

theorem top_covered (hv : 1 ≤ v) (hh : 18 ≤ h) (r : Nearest) {x : ℤ} (hx : 0 ≤ x) (hx' : x ≤ 1279) :
    Covered (generate_block_starts v h r) x 0 := by
  have hfirst : r.toInt (leg 1152 h 0) ≤ x := by rwa [leg_zero, toInt_zero]
  have hlast : x < r.toInt (leg 1152 h h) + 128 := by
    rw [leg_full (by omega), toInt_width]
    exact Int.lt_add_one_of_le hx'
  obtain ⟨j, hj, hlow, hhigh⟩ := ladder (f := fun j => r.toInt (leg 1152 h j)) hfirst hlast
    fun j _ => step_close r (k := 1152) (by norm_num) (by omega) (fits_width hh) j
  have hmem := start_mem hv (by omega) r (show j < 2 * v + 2 * h - 1 by omega)
  rw [start_top hj, toInt_zero] at hmem
  exact ⟨_, hmem, hlow, hhigh, le_refl 0, by norm_num⟩

theorem right_covered (hv : 10 ≤ v) (hh : 1 ≤ h) (r : Nearest) {y : ℤ} (hy : 0 ≤ y) (hy' : y ≤ 719) :
    Covered (generate_block_starts v h r) 1279 y := by
  have hfirst : r.toInt (leg 592 v 0) ≤ y := by rwa [leg_zero, toInt_zero]
  have hlast : y < r.toInt (leg 592 v v) + 128 := by
    rw [leg_full (by omega), toInt_height]
    exact Int.lt_add_one_of_le hy'
  obtain ⟨j, hj, hlow, hhigh⟩ := ladder (f := fun j => r.toInt (leg 592 v j)) hfirst hlast
    fun j _ => step_close r (k := 592) (by norm_num) (by omega) (fits_height hv) j
  have hmem := start_mem (by omega) hh r (show h + j < 2 * v + 2 * h - 1 by omega)
  rw [start_right hh (by omega) (by omega), Nat.add_sub_cancel_left, toInt_width] at hmem
  exact ⟨_, hmem, by norm_num, by norm_num, hlow, hhigh⟩

theorem bottom_covered (hv : 2 ≤ v) (hh : 18 ≤ h) (r : Nearest) {x : ℤ} (hx : 0 ≤ x) (hx' : x ≤ 1279) :
    Covered (generate_block_starts v h r) x 719 := by
  have hfirst : x < r.toInt (1152 - leg 1152 h 0) + 128 := by
    rw [leg_zero, sub_zero, toInt_width]
    exact Int.lt_add_one_of_le hx'
  have hlast : r.toInt (1152 - leg 1152 h h) ≤ x := by rwa [leg_full (by omega), sub_self, toInt_zero]
  obtain ⟨j, hj, hlow, hhigh⟩ := ladder_back (f := fun j => r.toInt (1152 - leg 1152 h j)) hfirst hlast
    fun j _ => step_back_close r (by omega) (fits_width hh) j
  have hmem := start_mem (by omega) (by omega) r (show v + h + j < 2 * v + 2 * h - 1 by omega)
  have hj' : v + h + j - v - h = j := by omega
  rw [start_bottom (by omega) (by omega) (by omega), hj', toInt_height] at hmem
  exact ⟨_, hmem, hlow, hhigh, by norm_num, by norm_num⟩

theorem left_covered (hv : 10 ≤ v) (hh : 1 ≤ h) (r : Nearest) {y : ℤ} (hy : 0 ≤ y) (hy' : y ≤ 719) :
    Covered (generate_block_starts v h r) 0 y := by
  rcases lt_or_ge y 128 with hlt | hge
  · -- the first box of all
    have hmem := start_mem (by omega) hh r (show 0 < 2 * v + 2 * h - 1 by omega)
    rw [start_top (Nat.zero_le h), leg_zero, toInt_zero] at hmem
    exact ⟨_, hmem, le_refl 0, by norm_num, hy, hlt⟩
  · have hfirst : y < r.toInt (592 - leg 592 v 0) + 128 := by
      rw [leg_zero, sub_zero, toInt_height]
      exact Int.lt_add_one_of_le hy'
    -- the last box of the side starts at most 128 rows down
    have hlast : r.toInt (592 - leg 592 v (v - 2)) ≤ 128 := by
      have := snap_close (j := v - 2) (by omega) (fits_height hv) (by omega)
      exact r.toInt_le (by push_cast; linarith)
    obtain ⟨j, hj, hlow, hhigh⟩ := ladder_back (f := fun j => r.toInt (592 - leg 592 v j)) hfirst (le_trans hlast hge)
      fun j _ => step_back_close r (by omega) (fits_height hv) j
    have hmem := start_mem (by omega) hh r (show v + 2 * h + j < 2 * v + 2 * h - 1 by omega)
    have hj' : v + 2 * h + j - v - 2 * h = j := by omega
    rw [start_left hh (by omega), hj', toInt_zero] at hmem
    exact ⟨_, hmem, le_refl 0, by norm_num, hlow, hhigh⟩

/-! ## Holes -/

/-- Left of the top right corner. -/
theorem top_hole (hv : 1 ≤ v) (hh : 1 ≤ h) (hlong : h ≤ 17) (r : Nearest) :
    ¬ Covered (generate_block_starts v h r) 1151 0 := by
  have hfar : (129 : ℚ) * h ≤ 2 * 1152 := by
    have : (h : ℚ) ≤ 17 := by exact_mod_cast hlong
    linarith
  rintro ⟨p, hp, h1, h2, h3, h4⟩
  rcases mem_starts hv hh hp with ⟨i, rfl⟩ | rfl
  · rcases sides v h i with hi | ⟨hi, hi'⟩ | ⟨hi, hi'⟩ | hi
    · rw [start_top hi] at h1 h2
      rcases snap_far (by norm_num) hfar i with hleg | hleg
      · have := r.toInt_le (n := 1023) (x := leg 1152 h i) (by push_cast; linarith)
        simp only at h2
        omega
      · simp only [hleg, toInt_width] at h1
        omega
    · simp only [start_right hh hi hi', toInt_width] at h1
      omega
    · simp only [start_bottom hv hi hi', toInt_height] at h3
      omega
    · simp only [start_left hh hi, toInt_zero] at h2
      omega
  · simp only at h2
    omega

/-- Above the bottom right corner. -/
theorem right_hole (hv : 1 ≤ v) (hh : 1 ≤ h) (hlong : v ≤ 9) (r : Nearest) :
    ¬ Covered (generate_block_starts v h r) 1279 591 := by
  have hfar : (129 : ℚ) * v ≤ 2 * 592 := by
    have : (v : ℚ) ≤ 9 := by exact_mod_cast hlong
    linarith
  rintro ⟨p, hp, h1, h2, h3, h4⟩
  rcases mem_starts hv hh hp with ⟨i, rfl⟩ | rfl
  · rcases sides v h i with hi | ⟨hi, hi'⟩ | ⟨hi, hi'⟩ | hi
    · simp only [start_top hi, toInt_zero] at h4
      omega
    · rw [start_right hh hi hi'] at h3 h4
      rcases snap_far (by norm_num) hfar (i - h) with hleg | hleg
      · have := r.toInt_le (n := 463) (x := leg 592 v (i - h)) (by push_cast; linarith)
        simp only at h4
        omega
      · simp only [hleg, toInt_height] at h3
        omega
    · simp only [start_bottom hv hi hi', toInt_height] at h3
      omega
    · simp only [start_left hh hi, toInt_zero] at h2
      omega
  · simp only at h2
    omega

/-- Where two steps are longer than a box the edge has a hole, and nowhere else. -/
theorem noHole_iff (hv : 1 ≤ v) (hh : 1 ≤ h) (r : Nearest) :
    NoHole (generate_block_starts v h r) ↔ 10 ≤ v ∧ 18 ≤ h := by
  constructor
  · intro hall
    constructor
    · by_contra hlt
      exact right_hole hv hh (by omega) r (hall 1279 591 ⟨by norm_num, .inr (.inl rfl)⟩)
    · by_contra hlt
      exact top_hole hv hh (by omega) r (hall 1151 0 ⟨by norm_num, .inr (.inr (.inl rfl))⟩)
  · rintro ⟨hv', hh'⟩ x y ⟨⟨hx, hx', hy, hy'⟩, rfl | rfl | rfl | rfl⟩
    · exact left_covered hv' hh r hy hy'
    · exact right_covered hv' hh r hy hy'
    · exact top_covered hv hh' r hx hx'
    · exact bottom_covered (by omega) hh' r hx hx'

theorem noHole_iff_6_10 : NoHole (generate_block_starts 6 10 .away) ↔ 10 ≤ 6 ∧ 18 ≤ 10 :=
  noHole_iff (Nat.le_add_left 1 5) (Nat.le_add_left 1 9) .away

/-- The script's own call leaves a hole between columns 1050 and 1151 of the first row. -/
theorem hole_6_10 : Border 1151 0 ∧ ¬ Covered (generate_block_starts 6 10 .away) 1151 0 :=
  ⟨⟨by norm_num, .inr (.inr (.inl rfl))⟩, top_hole (by norm_num) (by norm_num) (by norm_num) .away⟩

/-- The boxes of the averager are those of this call. -/
example : generate_block_starts 6 10 .away =
    ((List.finRange 32).map fun n => (Averager.startx n : ℤ),
      (List.finRange 32).map fun n => (Averager.starty n : ℤ)) := by
  decide +kernel

end DinoLight.EdgeCoverage
