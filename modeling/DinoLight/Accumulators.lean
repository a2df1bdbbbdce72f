import DinoLight.Averager
/-!
# The accumulators do not wrap

Every position inside a box gets at most one pixel between two clears, and
`128 * 128 * 255` is below `2 ^ 22`. `cells` counts the positions of a box that
the counters have passed; it bounds the sums as long as the counters only move
on (`Live`). Once they may start over, no pixel arrives until the next clear
(`Dead`).
-/
open Clocked

namespace DinoLight.Accumulators
open Averager

variable (w : Nat → Inputs)

/-! ## Streams -/

/-- How long `i_blank` has been low before cycle `t`. -/
def activeFor : Nat → Nat
  | 0 => 0
  | t + 1 => if (w t).i_blank then 0 else activeFor t + 1

/-- `i_vsync` in the cycle before `t`; low at power-up. -/
def lastVsync : Nat → Bool
  | 0 => false
  | t + 1 => (w t).i_vsync

/-- The active runs that began under `i_vsync = level` since the last rise before cycle `t`. -/
def runs (level : Bool) : Nat → Nat
  | 0 => 0
  | t + 1 =>
    (if (w t).i_vsync ≠ lastVsync w t ∧ (w t).i_vsync = true then 0 else runs level t) +
      if (w t).i_vsync = level ∧ (w t).i_blank = false ∧ activeFor w t = 0 then 1 else 0

/-- The active runs since the last rise. -/
def allRuns (t : Nat) : Nat := runs w true t + runs w false t

/-- The values added to an accumulator since it was cleared last. -/
def exactSum (n : Fin 32) (c : Fin 3) : Nat → Nat
  | 0 => 0
  | t + 1 =>
    if rises (after step powerUp w t) (w t) then 0 else exactSum n c t + added (after step powerUp w t) n c

/-- A picture stream: black blanking, rows of at most 2047 pixels, vsync edges
inside blanking, and at most 2047 rows between two rises, all on one side of
the fall. -/
structure Stream : Prop where
  black : ∀ t c, (w t).i_blank = true → (w t).colour c = 0
  row : ∀ t, activeFor w t ≤ 2047
  vsync : ∀ t, (w (t + 1)).i_vsync ≠ (w t).i_vsync → (w t).i_blank = true ∧ (w (t + 1)).i_blank = true
  rows : ∀ t, allRuns w t ≤ 2047
  side : ∀ t, runs w true t = 0 ∨ runs w false t = 0

/-! ## Cells of a box -/

/-- The positions of box `n` that come before `(x, y)`, row by row. -/
def cells (n : Fin 32) (x y : Nat) : Nat :=
  128 * min (y - starty n) 128 + if starty n ≤ y ∧ y < starty n + 128 then min (x - startx n) 128 else 0

/-- Whether `(x, y)` lies in box `n`, as a number. -/
def cell (n : Fin 32) (x y : Nat) : Nat := if inBlock n x y then 1 else 0

theorem cell_le (n : Fin 32) (x y : Nat) :
    cell n x y ≤ 1 ∧ (0 < cell n x y → startx n ≤ x ∧ x < startx n + 128 ∧ starty n ≤ y ∧ y < starty n + 128) := by
  unfold cell
  split
  case isTrue h => exact ⟨Nat.le_refl 1, fun _ => h⟩
  case isFalse => exact ⟨Nat.zero_le 1, fun h => absurd h (Nat.lt_irrefl 0)⟩

theorem cells_next (n : Fin 32) (x y : Nat) : cells n x y + cell n x y ≤ cells n (x + 1) y := by
  have h := cell_le n x y
  unfold cells
  split <;> omega

theorem cells_row (n : Fin 32) (x y : Nat) : cells n x y + cell n x y ≤ cells n 0 (y + 1) := by
  have h := cell_le n x y
  unfold cells
  split <;> omega

theorem cells_le (n : Fin 32) (x y : Nat) : cells n x y ≤ 16384 := by
  unfold cells
  split <;> omega

theorem added_le (s : Regs) (n : Fin 32) (c : Fin 3) : added s n c ≤ 255 * cell n s.x.toNat s.y.toNat := by
  have := (s.colour c).isLt
  simp only [added, cell]
  split <;> omega

/-! ## The invariant -/

/-- The counters have only moved on since the clear. -/
structure Live (s : Regs) (t : Nat) : Prop where
  sums : ∀ n c, exactSum w n c t ≤ 255 * cells n s.x.toNat s.y.toNat
  y : s.y.toNat ≤ allRuns w t + if s.a_blank then 1 else 0

/-- No row can begin before the next rise. -/
structure Dead (s : Regs) (t : Nat) : Prop where
  blank : s.a_blank = true
  sums : ∀ n c, exactSum w n c t ≤ 255 * 16384
  ended : allRuns w t = 2047 ∨ 0 < runs w true t ∧ s.a_vsync = false

structure Inv (s : Regs) (t : Nat) : Prop where
  x : s.x.toNat = activeFor w t
  vsync : s.a_vsync = lastVsync w t
  blank : s.a_blank = true → activeFor w t = 0
  black : s.a_blank = true → ∀ c, s.colour c = 0
  begun : 0 < activeFor w t → 0 < allRuns w t
  untouched : allRuns w t = 0 → (∀ n c, exactSum w n c t = 0) ∧ ∀ c, s.colour c = 0
  side : s.a_vsync = true → runs w false t = 0
  phase : Live w s t ∨ Dead w s t

variable {w}

theorem allRuns_succ (t : Nat) : allRuns w (t + 1) =
    (if (w t).i_vsync ≠ lastVsync w t ∧ (w t).i_vsync = true then 0 else allRuns w t) +
      if (w t).i_blank = false ∧ activeFor w t = 0 then 1 else 0 := by
  simp only [allRuns, runs]
  cases (w t).i_vsync <;> simp <;> split <;> omega

theorem allRuns_keep {t : Nat} (hv : (after step powerUp w t).a_vsync = lastVsync w t)
    (hrise : ¬ rises (after step powerUp w t) (w t)) : allRuns w (t + 1) =
      allRuns w t + if (w t).i_blank = false ∧ activeFor w t = 0 then 1 else 0 := by
  rw [rises, hv] at hrise
  rw [allRuns_succ, if_neg hrise]

/-- A vsync edge comes inside blanking, or at power-up. -/
theorem edge_blank (hw : Stream w) {t : Nat} (h : (w t).i_vsync ≠ lastVsync w t) :
    t = 0 ∨ (w t).i_blank = true ∧ (after step powerUp w t).a_blank = true := by
  rcases t with _ | t
  · exact .inl rfl
  · exact .inr (hw.vsync t h).symm

theorem inv_start : Inv w powerUp 0 where
  x := rfl
  vsync := rfl
  blank := by simp [powerUp]
  black := by simp [powerUp]
  begun := by simp [activeFor]
  untouched _ := ⟨fun _ _ => rfl, by decide⟩
  side := by simp [powerUp]
  phase := .inl ⟨fun _ _ => Nat.zero_le _, by simp [powerUp]⟩

theorem toNat_succ {v : BitVec 11} (h : v.toNat < 2047) : (v + 1).toNat = v.toNat + 1 := by
  rw [BitVec.toNat_add]
  simp
  omega

theorem x_step (hw : Stream w) {s : Regs} {t : Nat} (h : Inv w s t) :
    (step s (w t)).x.toNat = activeFor w (t + 1) := by
  have hrow := hw.row (t + 1)
  unfold activeFor at hrow ⊢
  cases hb : (w t).i_blank
  · simp only [hb, Bool.false_eq_true, if_false] at hrow ⊢
    have hx := h.x
    simp only [step, hb, Bool.false_eq_true, and_false, if_false, if_true]
    rw [toNat_succ (by omega), hx]
  · cases ha : s.a_blank
    · simp [step, hb, ha]
    · simp [step, hb, ha, h.x, h.blank ha]

/-- What is added in a cycle fits the cells passed. -/
theorem sums_next {s : Regs} {t : Nat} {n : Fin 32} {c : Fin 3}
    (h : exactSum w n c t ≤ 255 * cells n s.x.toNat s.y.toNat) :
    exactSum w n c t + added s n c ≤ 255 * (cells n s.x.toNat s.y.toNat + cell n s.x.toNat s.y.toNat) := by
  have := added_le s n c
  omega

/-- A rise leaves the counters at their start, below clear accumulators. -/
theorem rise_live (hw : Stream w) {t : Nat} (hrise : rises (after step powerUp w t) (w t))
    (hv : (after step powerUp w t).a_vsync = lastVsync w t) : Live w (after step powerUp w (t + 1)) (t + 1) := by
  have hzero (n : Fin 32) (c : Fin 3) : exactSum w n c (t + 1) = 0 := by simp [exactSum, hrise]
  refine ⟨fun n c => by simp [hzero], ?_⟩
  rcases edge_blank hw (hv ▸ hrise.1) with rfl | ⟨hb, ha⟩
  · simp only [after_succ, after_zero, step, powerUp]
    cases hb : (w 0).i_blank
    · simp
    · simp
  · rw [after_succ]
    have hne := hrise.1
    simp [step, ha, hne]

/-- A vsync edge that does not rise comes in blanking. -/
theorem fall_blank (hw : Stream w) {t : Nat} (hv : (after step powerUp w t).a_vsync = lastVsync w t)
    (hrise : ¬ rises (after step powerUp w t) (w t)) (hne : (w t).i_vsync ≠ (after step powerUp w t).a_vsync) :
    (w t).i_blank = true ∧ (after step powerUp w t).a_blank = true := by
  rcases edge_blank hw (hv ▸ hne) with rfl | h
  · exact absurd ⟨hne, eq_true_of_ne_false hne⟩ hrise
  · exact h

/-- A pixel moves the counters on. -/
theorem live_pixel (hw : Stream w) {t : Nat} (h : Inv w (after step powerUp w t) t)
    (hl : Live w (after step powerUp w t) t) (hrise : ¬ rises (after step powerUp w t) (w t))
    (hb : (w t).i_blank = false) : Live w (after step powerUp w (t + 1)) (t + 1) := by
  have hx := x_step hw h
  have hall := allRuns_keep h.vsync hrise
  have hsame : (w t).i_vsync = (after step powerUp w t).a_vsync := by
    by_contra hne
    have := (fall_blank hw h.vsync hrise hne).1
    simp [hb] at this
  have hy : (after step powerUp w (t + 1)).y = (after step powerUp w t).y := by simp [after_succ, step, hb, hsame]
  have hx' : (after step powerUp w (t + 1)).x.toNat = (after step powerUp w t).x.toNat + 1 := by
    rw [after_succ, hx, activeFor, h.x]
    simp [hb]
  refine ⟨?_, ?_⟩
  · intro n c
    have hsum := sums_next (hl.sums n c)
    have hcells := cells_next n (after step powerUp w t).x.toNat (after step powerUp w t).y.toNat
    rw [hx', hy, exactSum, if_neg hrise]
    omega
  · have hly := hl.y
    rw [hy, hall, after_succ, a_blank_step]
    cases ha : (after step powerUp w t).a_blank
    · simp only [ha, hb] at hly ⊢
      simp at hly ⊢
      omega
    · simp only [ha, hb, h.blank ha] at hly ⊢
      simpa using hly

/-- The end of a row moves the counters to the next one, or was the last row. -/
theorem live_row (hw : Stream w) {t : Nat} (h : Inv w (after step powerUp w t) t)
    (hl : Live w (after step powerUp w t) t) (hrise : ¬ rises (after step powerUp w t) (w t))
    (hb : (w t).i_blank = true) (ha : (after step powerUp w t).a_blank = false) :
    Live w (after step powerUp w (t + 1)) (t + 1) ∨ Dead w (after step powerUp w (t + 1)) (t + 1) := by
  have hall := allRuns_keep h.vsync hrise
  simp only [hb, Bool.true_eq_false, false_and, if_false, Nat.add_zero] at hall
  have hmax := hw.rows t
  have hly := hl.y
  rw [ha] at hly
  have hx : (after step powerUp w (t + 1)).x = 0 := by simp [after_succ, step, hb, ha]
  have hy : (after step powerUp w (t + 1)).y = (after step powerUp w t).y + 1 := by simp [after_succ, step, hb, ha]
  have hsums (n : Fin 32) (c : Fin 3) :
      exactSum w n c (t + 1) ≤ 255 * cells n 0 ((after step powerUp w t).y.toNat + 1) := by
    have hsum := sums_next (hl.sums n c)
    have hcells := cells_row n (after step powerUp w t).x.toNat (after step powerUp w t).y.toNat
    rw [exactSum, if_neg hrise]
    omega
  have hblank : (after step powerUp w (t + 1)).a_blank = true := hb
  rcases Nat.lt_or_ge (after step powerUp w t).y.toNat 2047 with hlt | hge
  · left
    have hy' := toNat_succ hlt
    refine ⟨?_, ?_⟩
    · intro n c
      rw [hx, hy, hy']
      exact hsums n c
    · rw [hy, hy', hall, hblank]
      simp at hly ⊢
      exact hly
  · -- `y` would wrap, but no row may follow
    right
    refine ⟨hblank, fun n c => Nat.le_trans (hsums n c) (Nat.mul_le_mul_left _ (cells_le _ _ _)), .inl ?_⟩
    simp at hly
    omega

/-- In blanking nothing is added; a fall may take the counters back. -/
theorem live_blank {t : Nat} (h : Inv w (after step powerUp w t) t)
    (hl : Live w (after step powerUp w t) t) (hrise : ¬ rises (after step powerUp w t) (w t))
    (hb : (w t).i_blank = true) (ha : (after step powerUp w t).a_blank = true) :
    Live w (after step powerUp w (t + 1)) (t + 1) ∨ Dead w (after step powerUp w (t + 1)) (t + 1) := by
  have hall := allRuns_keep h.vsync hrise
  simp only [hb, Bool.true_eq_false, false_and, if_false, Nat.add_zero] at hall
  have hx : (after step powerUp w (t + 1)).x = (after step powerUp w t).x := by simp [after_succ, step, hb, ha]
  have hsum (n : Fin 32) (c : Fin 3) : exactSum w n c (t + 1) = exactSum w n c t := by
    rw [exactSum, if_neg hrise, added_black (h.black ha), Nat.add_zero]
  have hblank : (after step powerUp w (t + 1)).a_blank = true := hb
  by_cases hsame : (w t).i_vsync = (after step powerUp w t).a_vsync
  · left
    have hy : (after step powerUp w (t + 1)).y = (after step powerUp w t).y := by
      simp [after_succ, step, hb, ha, hsame]
    refine ⟨?_, ?_⟩
    · intro n c
      rw [hsum, hx, hy]
      exact hl.sums n c
    · have hly := hl.y
      rw [hy, hall, hblank]
      rwa [ha] at hly
  · -- the fall sets `y` back to 0, which only matters if rows have been summed
    have hfall : (w t).i_vsync = false ∧ (after step powerUp w t).a_vsync = true := by
      cases hv : (w t).i_vsync
      · rw [hv] at hsame
        exact ⟨rfl, eq_true_of_ne_false (Ne.symm hsame)⟩
      · exact absurd ⟨hsame, hv⟩ hrise
    have hy : (after step powerUp w (t + 1)).y = 0 := by simp [after_succ, step, hb, ha, hsame]
    rcases Nat.eq_zero_or_pos (allRuns w t) with hnone | hsome
    · refine .inl ⟨fun n c => ?_, by simp [hy]⟩
      rw [hsum, (h.untouched hnone).1]
      exact Nat.zero_le _
    · refine .inr ⟨hblank, fun n c => ?_, .inr ⟨?_, hfall.1⟩⟩
      · rw [hsum]
        exact Nat.le_trans (hl.sums n c) (Nat.mul_le_mul_left _ (cells_le _ _ _))
      · have hside := h.side hfall.2
        simp only [allRuns, hside, Nat.add_zero] at hsome
        simpa [runs, hfall.1] using hsome

/-- After the last row of a picture only blanking follows. -/
theorem dead_step (hw : Stream w) {t : Nat} (h : Inv w (after step powerUp w t) t)
    (hd : Dead w (after step powerUp w t) t) (hrise : ¬ rises (after step powerUp w t) (w t)) :
    Dead w (after step powerUp w (t + 1)) (t + 1) := by
  have hall := allRuns_keep h.vsync hrise
  have hblank : (w t).i_blank = true := by
    by_contra hb
    -- a pixel would begin one row too many, or a row on the other side of the fall
    have hb : (w t).i_blank = false := eq_false_of_ne_true hb
    simp only [hb, h.blank hd.blank, and_self, if_true] at hall
    rcases hd.ended with hover | ⟨htop, hv⟩
    · have := hw.rows (t + 1)
      omega
    · have hlow : (w t).i_vsync = false := by
        by_contra hi
        have := (fall_blank hw h.vsync hrise (by simpa [hv] using hi)).1
        simp [hb] at this
      have hside := hw.side (t + 1)
      simp only [runs, hlow, hb, h.blank hd.blank] at hside
      simp at hside
      omega
  simp only [hblank, Bool.true_eq_false, false_and, if_false, Nat.add_zero] at hall
  refine ⟨hblank, ?_, ?_⟩
  · intro n c
    rw [exactSum, if_neg hrise, added_black (h.black hd.blank), Nat.add_zero]
    exact hd.sums n c
  · rcases hd.ended with hover | ⟨htop, hv⟩
    · exact .inl (hall.trans hover)
    · have hlow : (w t).i_vsync = false := by
        by_contra hi
        exact hrise ⟨by simpa [hv] using hi, eq_true_of_ne_false hi⟩
      exact .inr ⟨by simpa [runs, hlow] using htop, hlow⟩

theorem inv_step (hw : Stream w) {t : Nat} (h : Inv w (after step powerUp w t) t) :
    Inv w (after step powerUp w (t + 1)) (t + 1) := by
  have hbegun : 0 < activeFor w (t + 1) → 0 < allRuns w (t + 1) := by
    intro hpos
    have hb : (w t).i_blank = false := by
      by_contra hb
      rw [activeFor, if_pos (eq_true_of_ne_false hb)] at hpos
      exact Nat.lt_irrefl 0 hpos
    rw [allRuns_succ]
    rcases Nat.eq_zero_or_pos (activeFor w t) with h0 | hpos
    · simp [hb, h0]
    · have hsame : ¬ ((w t).i_vsync ≠ lastVsync w t ∧ (w t).i_vsync = true) := fun he => by
        rcases edge_blank hw he.1 with rfl | ⟨hb', -⟩
        · exact Nat.lt_irrefl 0 hpos
        · simp [hb] at hb'
      rw [if_neg hsame]
      exact Nat.lt_of_lt_of_le (h.begun hpos) (Nat.le_add_right _ _)
  refine ⟨x_step hw h, rfl, ?_, fun hb c => hw.black t c hb, hbegun, fun hnone => ⟨?_, ?_⟩, ?_, ?_⟩
  · intro hb
    have hb : (w t).i_blank = true := hb
    simp [activeFor, hb]
  · intro n c
    by_cases hrise : rises (after step powerUp w t) (w t)
    · simp [exactSum, hrise]
    · have hall := allRuns_keep h.vsync hrise
      obtain ⟨hzero, hblack⟩ := h.untouched (by omega)
      rw [exactSum, if_neg hrise, hzero, added_black hblack]
  · intro c
    apply hw.black t c
    by_contra hb
    have := hbegun (by simp [activeFor, hb])
    omega
  · intro hv
    have hv : (w t).i_vsync = true := hv
    have hside := h.side
    rw [h.vsync] at hside
    simp only [runs, hv]
    cases hl : lastVsync w t
    · simp
    · simp [hside hl]
  · by_cases hrise : rises (after step powerUp w t) (w t)
    · exact .inl (rise_live hw hrise h.vsync)
    · rcases h.phase with hl | hd
      · cases hb : (w t).i_blank
        · exact .inl (live_pixel hw h hl hrise hb)
        · cases ha : (after step powerUp w t).a_blank
          · exact live_row hw h hl hrise hb ha
          · exact live_blank h hl hrise hb ha
      · exact .inr (dead_step hw h hd hrise)

theorem inv_run (hw : Stream w) (t : Nat) : Inv w (after step powerUp w t) t := by
  induction t with
  | zero => exact inv_start
  | succ t ih => exact inv_step hw ih

theorem exactSum_lt (hw : Stream w) (t : Nat) (n : Fin 32) (c : Fin 3) : exactSum w n c t < 2 ^ 22 := by
  have hle : exactSum w n c t ≤ 255 * 16384 := by
    rcases (inv_run hw t).phase with hl | hd
    · exact Nat.le_trans (hl.sums n c) (Nat.mul_le_mul_left _ (cells_le _ _ _))
    · exact hd.sums n c
  omega

theorem sums_run (w : Nat → Inputs) (t : Nat) : Sums (after step powerUp w t) fun n c => exactSum w n c t := by
  induction t with
  | zero => exact powerUp_sums
  | succ t ih => exact sums_step (w t) ih

/-- In every cycle of a picture stream the accumulators are the exact sums, and
every latched byte is the exact sum without its low 14 bits. -/
theorem accumulators_exact (hw : Stream w) (t : Nat) (n : Fin 32) (c : Fin 3) :
    let s := after step powerUp w
    ((s t).accumulator n c).toNat = exactSum w n c t ∧ exactSum w n c t < 2 ^ 22 ∧
      (rises (s t) (w t) → (byteAt (s (t + 1)).framebuffer n c).toNat = exactSum w n c t / 2 ^ 14) := by
  have hlt := exactSum_lt hw t n c
  have heq : ((after step powerUp w t).accumulator n c).toNat = exactSum w n c t := by
    rw [sums_run w t n c, BitVec.toNat_ofNat, Nat.mod_eq_of_lt hlt]
  refine ⟨heq, hlt, ?_⟩
  intro hrise
  rw [← heq, ← byteAt_latch, after_succ]
  simp only [step, if_pos hrise]

/-- One pixel in cycle 1, and a rising vsync in cycle 3. -/
def onePixel (t : Nat) : Inputs where
  i_red := if t = 1 then 200 else 0
  i_green := 0
  i_blue := 0
  i_blank := t ≠ 1
  i_vsync := 3 ≤ t

theorem onePixel_runs (t : Nat) : runs onePixel true t = 0 ∧ runs onePixel false t ≤ if t ≤ 1 then 0 else 1 := by
  induction t with
  | zero => simp [runs]
  | succ t ih =>
    obtain ⟨h1, h0⟩ := ih
    have hpixel : (onePixel t).i_blank = false ↔ t = 1 := by simp [onePixel]
    by_cases ht : t = 1
    · subst ht
      decide
    · simp only [runs, hpixel, ht, h1, false_and, and_false, if_false, ite_self, Nat.add_zero, true_and]
      split
      · exact Nat.zero_le _
      · split at h0 <;> split <;> omega

theorem onePixel_stream : Stream onePixel where
  black t c hb := by
    have ht : t ≠ 1 := by simpa [onePixel] using hb
    have hred : (onePixel t).i_red = 0 := if_neg ht
    show [(onePixel t).i_red, 0, 0].getD c 0 = 0
    rw [hred]
    revert c
    decide
  row t := by
    rcases t with _ | _ | _ | t
    · decide
    · decide
    · decide
    · simp [activeFor, onePixel]
  vsync t hne := by
    have ht : t = 2 := by
      simp [onePixel] at hne
      omega
    subst ht
    decide
  rows t := by
    obtain ⟨h1, h0⟩ := onePixel_runs t
    rw [allRuns, h1]
    split at h0 <;> omega
  side t := .inl (onePixel_runs t).1

theorem one_pixel_exact : ((after step powerUp onePixel 3).accumulator 0 0).toNat = 200 :=
  (accumulators_exact onePixel_stream 3 0 0).1.trans (by decide +kernel)

end DinoLight.Accumulators
