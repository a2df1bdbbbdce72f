import DinoLight.Lib.Rounding
/-!
# `generate_block_starts`

The host script lays the boxes of the LEDs around the screen. Its loop has a
branch for each side and each corner; all four sides are the same `leg`, regular
steps and then a snap to the corner, so that the starts are points of one walk
around the screen.
-/
open Rounding

namespace DinoLight.BlockStarts

/-- The lists the loop builds. -/
structure Vals where
  x_vals : List ℚ
  y_vals : List ℚ

variable (vertBlocks horizBlocks : Nat)

def deltaX : ℚ := (1280 - 128) / horizBlocks

def deltaY : ℚ := (720 - 128) / vertBlocks

/-- The body of `for i in range(1, 2 * vertBlocks + 2 * horizBlocks - 1)`. -/
def loopBody (s : Vals) (i : Nat) : Vals :=
  let x := s.x_vals.getLastD 0 -- `x_vals[-1]`
  let y := s.y_vals.getLastD 0
  if i < horizBlocks - 1 then ⟨s.x_vals ++ [deltaX horizBlocks + x], s.y_vals ++ [0]⟩
  else if i ≤ horizBlocks then ⟨s.x_vals ++ [1280 - 128], s.y_vals ++ [y]⟩
  else if i < vertBlocks + horizBlocks - 1 then ⟨s.x_vals ++ [x], s.y_vals ++ [y + deltaY vertBlocks]⟩
  else if i ≤ vertBlocks + horizBlocks then ⟨s.x_vals ++ [x], s.y_vals ++ [720 - 128]⟩
  else if i < vertBlocks + 2 * horizBlocks - 1 then ⟨s.x_vals ++ [x - deltaX horizBlocks], s.y_vals ++ [y]⟩
  else if i ≤ vertBlocks + 2 * horizBlocks then ⟨s.x_vals ++ [0], s.y_vals ++ [y]⟩
  else ⟨s.x_vals ++ [0], s.y_vals ++ [y - deltaY vertBlocks]⟩

/-- The lists after `n` rounds. -/
def rounds (n : Nat) : Vals := (List.range' 1 n).foldl (loopBody vertBlocks horizBlocks) ⟨[0], [0]⟩

/-- `roundedX` and `roundedY` -/
def generate_block_starts (r : Nearest) : List ℤ × List ℤ :=
  let s := rounds vertBlocks horizBlocks (2 * vertBlocks + 2 * horizBlocks - 1 - 1)
  ((s.x_vals ++ [0]).map r.toInt, (s.y_vals ++ [0]).map r.toInt)

/-- The start `p` steps clockwise from the top left corner, for a box that stays
inside the screen and touches its border. -/
def pointAt (p : ℤ) : ℤ × ℤ :=
  if p ≤ 1152 then (p, 0)
  else if p ≤ 1744 then (1152, p - 1152)
  else if p ≤ 2896 then (2896 - p, 592)
  else (0, 3488 - p)

/-- `n` starts of boxes on the screen and on its border, once around it clockwise. -/
structure Walk (n : Nat) (starts : List ℤ × List ℤ) : Prop where
  length_x : starts.1.length = n
  length_y : starts.2.length = n
  on_screen : ∀ p ∈ starts.1.zip starts.2, 0 ≤ p.1 ∧ p.1 ≤ 1152 ∧ 0 ≤ p.2 ∧ p.2 ≤ 592
  on_border : ∀ p ∈ starts.1.zip starts.2, (p.1 = 0 ∨ p.1 = 1152) ∨ (p.2 = 0 ∨ p.2 = 592)
  clockwise : ∃ ps : List ℤ, ps.Pairwise (· ≤ ·) ∧ ps.head? = some 0 ∧ ps.getLast? = some 3488 ∧
    starts.1.zip starts.2 = ps.map pointAt

/-! ## One side -/

/-- `j` steps along a side of length `L` with `n` blocks. -/
def leg (L : ℚ) (n j : Nat) : ℚ := if j = 0 then 0 else if j < n - 1 then j * (L / n) else L

section Leg
variable {L : ℚ} {n j : Nat}

theorem leg_zero : leg L n 0 = 0 := if_pos rfl

theorem leg_inner (hj : j < n - 1) : leg L n j = j * (L / n) := by
  rcases Nat.eq_zero_or_pos j with rfl | hpos
  · rw [leg_zero, Nat.cast_zero, zero_mul]
  · rw [leg, if_neg (Nat.ne_of_gt hpos), if_pos hj]

theorem leg_snap (hj : 0 < j) (hn : n - 1 ≤ j) : leg L n j = L := by
  rw [leg, if_neg (Nat.ne_of_gt hj), if_neg (Nat.not_lt.2 hn)]

theorem leg_step (hj : j + 1 < n - 1) : leg L n (j + 1) = leg L n j + L / n := by
  rw [leg_inner hj, leg_inner (Nat.lt_of_succ_lt hj)]
  push_cast
  ring

theorem inner_le (hL : 0 ≤ L) (hj : j ≤ n) : j * (L / n) ≤ L := by
  rcases Nat.eq_zero_or_pos n with rfl | hn
  · simpa using hL
  · have hn : (0 : ℚ) < n := Nat.cast_pos.2 hn
    have hj : (j : ℚ) ≤ n := Nat.cast_le.2 hj
    rw [← mul_div_assoc, div_le_iff₀ hn, mul_comm]
    exact mul_le_mul_of_nonneg_left hj hL

theorem leg_nonneg (hL : 0 ≤ L) : 0 ≤ leg L n j := by
  unfold leg
  split
  · exact le_refl _
  · split
    · positivity
    · exact hL

theorem leg_le (hL : 0 ≤ L) : leg L n j ≤ L := by
  unfold leg
  split
  · exact hL
  · split
    next hj => exact inner_le hL (by omega)
    next => exact le_refl L

theorem leg_mono (hL : 0 ≤ L) : leg L n j ≤ leg L n (j + 1) := by
  rcases Nat.lt_or_ge (j + 1) (n - 1) with hj | hj
  · rw [leg_step hj]
    have : 0 ≤ L / n := by positivity
    linarith
  · rw [leg_snap (Nat.succ_pos j) hj]
    exact leg_le hL

end Leg

/-! ## Around the screen -/

/-- What holds `i` boxes along the way, given side by side. -/
def around {α : Type} (v h : Nat) (top right bottom left : Nat → α) (i : Nat) : α :=
  if i ≤ h then top i
  else if i ≤ v + h then right (i - h)
  else if i ≤ v + 2 * h then bottom (i - v - h)
  else left (i - v - 2 * h)

section Around
variable {α : Type} {v h i : Nat} {top right bottom left : Nat → α}

theorem around_top (hi : i ≤ h) : around v h top right bottom left i = top i := if_pos hi

-- a corner belongs to both its sides
theorem around_right (hcorner : top h = right 0) (hi : h ≤ i) (hi' : i ≤ v + h) :
    around v h top right bottom left i = right (i - h) := by
  rcases Nat.eq_or_lt_of_le hi with rfl | hi
  · rw [around_top (Nat.le_refl _), hcorner, Nat.sub_self]
  · rw [around, if_neg (Nat.not_le_of_lt hi), if_pos hi']

theorem around_bottom (hv : 1 ≤ v) (hcorner : right v = bottom 0) (hi : v + h ≤ i) (hi' : i ≤ v + 2 * h) :
    around v h top right bottom left i = bottom (i - v - h) := by
  rw [around, if_neg (by omega)]
  rcases Nat.eq_or_lt_of_le hi with rfl | hi
  · rw [if_pos (Nat.le_refl _), Nat.add_sub_cancel, hcorner, Nat.add_sub_cancel_left, Nat.sub_self]
  · rw [if_neg (Nat.not_le_of_lt hi), if_pos hi']

theorem around_left (hh : 1 ≤ h) (hcorner : bottom h = left 0) (hi : v + 2 * h ≤ i) :
    around v h top right bottom left i = left (i - v - 2 * h) := by
  rw [around, if_neg (by omega), if_neg (by omega)]
  rcases Nat.eq_or_lt_of_le hi with rfl | hi
  · have hlast : v + 2 * h - v - h = h := by omega
    have hfirst : v + 2 * h - v - 2 * h = 0 := by omega
    rw [if_pos (Nat.le_refl _), hlast, hcorner, hfirst]
  · rw [if_neg (Nat.not_le_of_lt hi)]

end Around

/-- The exact start of box `i`, before the last one. -/
def start (v h : Nat) : Nat → ℚ × ℚ :=
  around v h (fun j => (leg 1152 h j, 0)) (fun j => (1152, leg 592 v j)) (fun j => (1152 - leg 1152 h j, 592))
    (fun j => (0, 592 - leg 592 v j))

/-- Where on the walk it comes to lie. -/
def pos (v h : Nat) (r : Nearest) : Nat → ℤ :=
  around v h (fun j => r.toInt (leg 1152 h j)) (fun j => 1152 + r.toInt (leg 592 v j))
    (fun j => 2896 - r.toInt (1152 - leg 1152 h j)) (fun j => 3488 - r.toInt (592 - leg 592 v j))

variable {v h i : Nat}

theorem leg_full {L : ℚ} {n : Nat} (hn : 1 ≤ n) : leg L n n = L := leg_snap hn (Nat.sub_le n 1)

theorem start_top (hi : i ≤ h) : start v h i = (leg 1152 h i, 0) := around_top hi

theorem start_right (hh : 1 ≤ h) (hi : h ≤ i) (hi' : i ≤ v + h) : start v h i = (1152, leg 592 v (i - h)) :=
  around_right (by rw [leg_full hh, leg_zero]) hi hi'

theorem start_bottom (hv : 1 ≤ v) (hi : v + h ≤ i) (hi' : i ≤ v + 2 * h) :
    start v h i = (1152 - leg 1152 h (i - v - h), 592) :=
  around_bottom hv (by rw [leg_full hv, leg_zero, sub_zero]) hi hi'

theorem start_left (hh : 1 ≤ h) (hi : v + 2 * h ≤ i) : start v h i = (0, 592 - leg 592 v (i - v - 2 * h)) :=
  around_left hh (by rw [leg_full hh, leg_zero, sub_self, sub_zero]) hi

/-- A round of the loop goes from one start to the next. -/
theorem loopBody_start (hv : 1 ≤ v) (hh : 1 ≤ h) {s : Vals} (hx : s.x_vals.getLastD 0 = (start v h i).1)
    (hy : s.y_vals.getLastD 0 = (start v h i).2) (hi : i + 1 < 2 * v + 2 * h - 1) :
    loopBody v h s (i + 1) = ⟨s.x_vals ++ [(start v h (i + 1)).1], s.y_vals ++ [(start v h (i + 1)).2]⟩ := by
  have hX : deltaX h = 1152 / h := by norm_num [deltaX]
  have hY : deltaY v = 592 / v := by norm_num [deltaY]
  simp only [loopBody, hx, hy, hX, hY]
  split
  next hA =>
    rw [start_top (i := i) (by omega), start_top (by omega), leg_step hA, add_comm]
  next hA =>
    split
    next hB =>
      rw [start_top (i := i) (by omega), start_top hB, leg_snap (Nat.succ_pos i) (by omega)]
      norm_num
    next hB =>
      split
      next hC =>
        have hnext : i + 1 - h = i - h + 1 := by omega
        rw [start_right (i := i) hh (by omega) (by omega), start_right hh (by omega) (by omega), hnext,
          leg_step (by omega)]
      next hC =>
        split
        next hD =>
          rw [start_right (i := i) hh (by omega) (by omega), start_right hh (by omega) hD,
            leg_snap (j := i + 1 - h) (by omega) (by omega)]
          norm_num
        next hD =>
          split
          next hE =>
            have hnext : i + 1 - v - h = i - v - h + 1 := by omega
            rw [start_bottom (i := i) hv (by omega) (by omega), start_bottom hv (by omega) (by omega), hnext,
              leg_step (by omega), sub_add_eq_sub_sub]
          next hE =>
            split
            next hF =>
              rw [start_bottom (i := i) hv (by omega) (by omega), start_bottom hv (by omega) hF,
                leg_snap (j := i + 1 - v - h) (by omega) (by omega), sub_self]
            next hF =>
              have hnext : i + 1 - v - 2 * h = i - v - 2 * h + 1 := by omega
              rw [start_left (i := i) hh (by omega), start_left hh (by omega), hnext, leg_step (by omega),
                sub_add_eq_sub_sub]

variable {r : Nearest}

theorem toInt_nonneg {x : ℚ} (hx : 0 ≤ x) : 0 ≤ r.toInt x := r.le_toInt (by exact_mod_cast hx)

theorem toInt_zero : r.toInt 0 = 0 := by exact_mod_cast r.toInt_intCast 0

theorem toInt_width : r.toInt 1152 = 1152 := by exact_mod_cast r.toInt_intCast 1152

theorem toInt_height : r.toInt 592 = 592 := by exact_mod_cast r.toInt_intCast 592

theorem rounds_succ (v h n : Nat) : rounds v h (n + 1) = loopBody v h (rounds v h n) (n + 1) := by
  rw [rounds, List.range'_1_concat, List.foldl_concat, ← rounds, Nat.add_comm 1 n]

theorem rounds_eq (hv : 1 ≤ v) (hh : 1 ≤ h) {n : Nat} (hn : n < 2 * v + 2 * h - 1) :
    rounds v h n =
      ⟨(List.range (n + 1)).map fun i => (start v h i).1, (List.range (n + 1)).map fun i => (start v h i).2⟩ := by
  induction n with
  | zero => simp [rounds, start_top, leg_zero]
  | succ n ih =>
    rw [rounds_succ, ih (Nat.lt_of_succ_lt hn), loopBody_start hv hh (by simp [List.range_succ])
      (by simp [List.range_succ]) hn]
    simp [List.range_succ]

/-- The starts in pairs, with the one appended after the loop. -/
theorem starts_eq (hv : 1 ≤ v) (hh : 1 ≤ h) (r : Nearest) :
    (generate_block_starts v h r).1.zip (generate_block_starts v h r).2 =
      (List.range (2 * v + 2 * h - 1)).map (fun i => (r.toInt (start v h i).1, r.toInt (start v h i).2)) ++
        [(0, 0)] := by
  simp only [generate_block_starts]
  rw [rounds_eq hv hh (by omega), show 2 * v + 2 * h - 1 - 1 + 1 = 2 * v + 2 * h - 1 by omega]
  simp only [List.map_append, List.map_map, List.map_cons, List.map_nil, toInt_zero]
  rw [List.zip_append (by simp), List.zip_map']
  rfl

/-! ## The walk -/

theorem pointAt_top {p : ℤ} (hp : p ≤ 1152) : pointAt p = (p, 0) := if_pos hp

theorem pointAt_right {y : ℤ} (hy : 0 ≤ y) (hy' : y ≤ 592) : pointAt (1152 + y) = (1152, y) := by
  unfold pointAt
  split
  · ext <;> simp only <;> omega
  · rw [if_pos (by omega), add_sub_cancel_left]

theorem pointAt_bottom {x : ℤ} (hx : 0 ≤ x) (hx' : x ≤ 1152) : pointAt (2896 - x) = (x, 592) := by
  rw [pointAt, if_neg (by omega)]
  split
  · ext <;> simp only <;> omega
  · rw [if_pos (by omega), sub_sub_cancel]

theorem pointAt_left {y : ℤ} (hy : 0 ≤ y) (hy' : y ≤ 592) : pointAt (3488 - y) = (0, y) := by
  rw [pointAt, if_neg (by omega), if_neg (by omega)]
  split
  · ext <;> simp only <;> omega
  · rw [sub_sub_cancel]

/-- The walk stays on the screen and on its border. -/
theorem pointAt_border {p : ℤ} (hp : 0 ≤ p) (hp' : p ≤ 3488) :
    (0 ≤ (pointAt p).1 ∧ (pointAt p).1 ≤ 1152 ∧ 0 ≤ (pointAt p).2 ∧ (pointAt p).2 ≤ 592) ∧
      (((pointAt p).1 = 0 ∨ (pointAt p).1 = 1152) ∨ ((pointAt p).2 = 0 ∨ (pointAt p).2 = 592)) := by
  rcases le_total p 1152 with h1 | h1
  · rw [pointAt_top h1]
    exact ⟨⟨hp, h1, le_refl 0, by norm_num⟩, .inr (.inl rfl)⟩
  · rcases le_total p 1744 with h2 | h2
    · obtain ⟨y, rfl⟩ : ∃ y, p = 1152 + y := ⟨p - 1152, by omega⟩
      rw [pointAt_right (by omega) (by omega)]
      exact ⟨⟨by norm_num, le_refl 1152, by omega, by omega⟩, .inl (.inr rfl)⟩
    · rcases le_total p 2896 with h3 | h3
      · obtain ⟨x, rfl⟩ : ∃ x, p = 2896 - x := ⟨2896 - p, by omega⟩
        rw [pointAt_bottom (by omega) (by omega)]
        exact ⟨⟨by omega, by omega, by norm_num, le_refl 592⟩, .inr (.inr rfl)⟩
      · obtain ⟨y, rfl⟩ : ∃ y, p = 3488 - y := ⟨3488 - p, by omega⟩
        rw [pointAt_left (by omega) (by omega)]
        exact ⟨⟨le_refl 0, by norm_num, by omega, by omega⟩, .inl (.inl rfl)⟩

theorem pos_top (hi : i ≤ h) : pos v h r i = r.toInt (leg 1152 h i) := around_top hi

theorem pos_right (hh : 1 ≤ h) (hi : h ≤ i) (hi' : i ≤ v + h) : pos v h r i = 1152 + r.toInt (leg 592 v (i - h)) :=
  around_right (by rw [leg_full hh, leg_zero, toInt_width, toInt_zero, add_zero]) hi hi'

theorem pos_bottom (hv : 1 ≤ v) (hi : v + h ≤ i) (hi' : i ≤ v + 2 * h) :
    pos v h r i = 2896 - r.toInt (1152 - leg 1152 h (i - v - h)) :=
  around_bottom hv (by rw [leg_full hv, leg_zero, sub_zero, toInt_height, toInt_width]; norm_num) hi hi'

theorem pos_left (hh : 1 ≤ h) (hi : v + 2 * h ≤ i) :
    pos v h r i = 3488 - r.toInt (592 - leg 592 v (i - v - 2 * h)) :=
  around_left hh (by rw [leg_full hh, leg_zero, sub_self, sub_zero, toInt_height, toInt_zero]; norm_num) hi

/-- Which side a start is on; a corner is on two. -/
theorem sides (v h i : Nat) : i ≤ h ∨ (h ≤ i ∧ i ≤ v + h) ∨ (v + h ≤ i ∧ i ≤ v + 2 * h) ∨ v + 2 * h ≤ i := by
  omega

theorem width_leg (n j : Nat) : 0 ≤ leg 1152 n j ∧ leg 1152 n j ≤ 1152 :=
  ⟨leg_nonneg (by norm_num), leg_le (by norm_num)⟩

theorem height_leg (n j : Nat) : 0 ≤ leg 592 n j ∧ leg 592 n j ≤ 592 :=
  ⟨leg_nonneg (by norm_num), leg_le (by norm_num)⟩

/-- The rounded starts lie on the walk. -/
theorem pointAt_pos (hv : 1 ≤ v) (hh : 1 ≤ h) (i : Nat) :
    pointAt (pos v h r i) = (r.toInt (start v h i).1, r.toInt (start v h i).2) := by
  rcases sides v h i with hi | ⟨hi, hi'⟩ | ⟨hi, hi'⟩ | hi
  · rw [pos_top hi, start_top hi, pointAt_top (r.toInt_le (width_leg h i).2), toInt_zero]
  · obtain ⟨h0, h1⟩ := height_leg v (i - h)
    rw [pos_right hh hi hi', start_right hh hi hi', pointAt_right (toInt_nonneg h0) (r.toInt_le h1), toInt_width]
  · obtain ⟨h0, h1⟩ := width_leg h (i - v - h)
    rw [pos_bottom hv hi hi', start_bottom hv hi hi',
      pointAt_bottom (toInt_nonneg (by linarith)) (r.toInt_le (by push_cast; linarith)), toInt_height]
  · obtain ⟨h0, h1⟩ := height_leg v (i - v - 2 * h)
    rw [pos_left hh hi, start_left hh hi,
      pointAt_left (toInt_nonneg (by linarith)) (r.toInt_le (by push_cast; linarith)), toInt_zero]

/-- The walk does not step back. -/
theorem pos_step (hv : 1 ≤ v) (hh : 1 ≤ h) (i : Nat) : pos v h r i ≤ pos v h r (i + 1) := by
  have hw (j : Nat) : leg 1152 h j ≤ leg 1152 h (j + 1) := leg_mono (by norm_num)
  have hl (j : Nat) : leg 592 v j ≤ leg 592 v (j + 1) := leg_mono (by norm_num)
  rcases Nat.lt_or_ge i h with h1 | h1
  · rw [pos_top (Nat.le_of_lt h1), pos_top h1]
    exact r.mono (hw i)
  rcases Nat.lt_or_ge i (v + h) with h2 | h2
  · rw [pos_right hh h1 (Nat.le_of_lt h2), pos_right hh (Nat.le_succ_of_le h1) h2, Nat.succ_sub h1]
    exact add_le_add_right (r.mono (hl (i - h))) 1152
  rcases Nat.lt_or_ge i (v + 2 * h) with h3 | h3
  · have hnext : i + 1 - v - h = i - v - h + 1 := by omega
    rw [pos_bottom hv h2 (Nat.le_of_lt h3), pos_bottom hv (Nat.le_succ_of_le h2) h3, hnext]
    exact sub_le_sub_left (r.mono (sub_le_sub_left (hw _) 1152)) 2896
  · have hnext : i + 1 - v - 2 * h = i - v - 2 * h + 1 := by omega
    rw [pos_left hh h3, pos_left hh (Nat.le_succ_of_le h3), hnext]
    exact sub_le_sub_left (r.mono (sub_le_sub_left (hl _) 592)) 3488

theorem pos_mono (hv : 1 ≤ v) (hh : 1 ≤ h) {i j : Nat} (hij : i ≤ j) : pos v h r i ≤ pos v h r j :=
  monotone_nat_of_le_succ (pos_step hv hh) hij

theorem pos_zero (v h : Nat) (r : Nearest) : pos v h r 0 = 0 := by
  rw [pos_top (Nat.zero_le h), leg_zero, toInt_zero]

theorem pos_le (hv : 1 ≤ v) (hh : 1 ≤ h) (i : Nat) : pos v h r i ≤ 3488 := by
  refine le_trans (pos_mono hv hh (Nat.le_add_right i (v + 2 * h))) ?_
  rw [pos_left hh (Nat.le_add_left _ i)]
  exact sub_le_self 3488 (toInt_nonneg (sub_nonneg.2 (height_leg v _).2))

/-- The positions of all starts; the last one is back at the corner. -/
def positions (v h : Nat) (r : Nearest) : List ℤ := (List.range (2 * v + 2 * h - 1)).map (pos v h r) ++ [3488]

theorem starts_positions (hv : 1 ≤ v) (hh : 1 ≤ h) (r : Nearest) :
    (generate_block_starts v h r).1.zip (generate_block_starts v h r).2 = (positions v h r).map pointAt := by
  rw [starts_eq hv hh r, positions, List.map_append, List.map_map]
  congr 1
  exact List.map_congr_left fun i _ => (pointAt_pos hv hh i).symm

theorem positions_range (hv : 1 ≤ v) (hh : 1 ≤ h) {p : ℤ} (hp : p ∈ positions v h r) : 0 ≤ p ∧ p ≤ 3488 := by
  rcases List.mem_append.1 hp with hp | hp
  · obtain ⟨i, -, rfl⟩ := List.mem_map.1 hp
    exact ⟨(pos_zero v h r).symm.trans_le (pos_mono hv hh (Nat.zero_le i)), pos_le hv hh i⟩
  · rw [List.mem_singleton.1 hp]
    exact ⟨by norm_num, le_refl _⟩

theorem positions_sorted (hv : 1 ≤ v) (hh : 1 ≤ h) (r : Nearest) : (positions v h r).Pairwise (· ≤ ·) := by
  rw [positions, List.pairwise_append]
  refine ⟨?_, List.pairwise_singleton _ _, fun p hp q hq => ?_⟩
  · rw [List.pairwise_map]
    exact List.pairwise_lt_range.imp fun hlt => pos_mono hv hh (Nat.le_of_lt hlt)
  · rw [List.mem_singleton.1 hq]
    exact (positions_range hv hh (List.mem_append_left _ hp)).2

theorem positions_head (hv : 1 ≤ v) (r : Nearest) : (positions v h r).head? = some 0 := by
  obtain ⟨n, hn⟩ : ∃ n, 2 * v + 2 * h - 1 = n + 1 := ⟨2 * v + 2 * h - 2, by omega⟩
  rw [positions, hn, List.range_succ_eq_map]
  simp [pos_zero]

theorem length_starts (hv : 1 ≤ v) (hh : 1 ≤ h) (r : Nearest) :
    (generate_block_starts v h r).1.length = 2 * (v + h) ∧ (generate_block_starts v h r).2.length = 2 * (v + h) := by
  simp only [generate_block_starts]
  rw [rounds_eq hv hh (by omega)]
  simp only [List.length_map, List.length_append, List.length_range, List.length_singleton]
  omega

/-- The starts go once around the screen, whatever the numbers of blocks and
whichever way ties are rounded. -/
theorem walk (hv : 1 ≤ v) (hh : 1 ≤ h) (r : Nearest) : Walk (2 * (v + h)) (generate_block_starts v h r) := by
  have hpairs := starts_positions hv hh r
  have hborder : ∀ p ∈ (generate_block_starts v h r).1.zip (generate_block_starts v h r).2,
      ∃ q, (0 ≤ q ∧ q ≤ 3488) ∧ pointAt q = p := by
    rw [hpairs]
    intro p hp
    obtain ⟨q, hq, rfl⟩ := List.mem_map.1 hp
    exact ⟨q, positions_range hv hh hq, rfl⟩
  refine ⟨(length_starts hv hh r).1, (length_starts hv hh r).2, fun p hp => ?_, fun p hp => ?_, positions v h r,
    positions_sorted hv hh r, positions_head hv r, List.getLast?_concat, hpairs⟩
  · obtain ⟨q, ⟨h0, h1⟩, rfl⟩ := hborder p hp
    exact (pointAt_border h0 h1).1
  · obtain ⟨q, ⟨h0, h1⟩, rfl⟩ := hborder p hp
    exact (pointAt_border h0 h1).2

/-- The blocks of the script's own call. -/
theorem walk_6_10 : Walk 32 (generate_block_starts 6 10 .away) :=
  walk (Nat.le_add_left 1 5) (Nat.le_add_left 1 9) .away

end DinoLight.BlockStarts
