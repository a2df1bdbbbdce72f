import DinoLight.Averager
import Mathlib.Algebra.BigOperators.Intervals
import Mathlib.Algebra.Order.BigOperators.Group.Finset
import Mathlib.Algebra.Ring.Nat
import Mathlib.Tactic.FinCases
/-!
# The averages of a stream of frames

A pixel is added one cycle after it arrives, when `x` has moved on: the pixel
of column `j` counts at `x = j + 1`. A box therefore sums the columns from one
left of its left column to one left of its right column (`codeSum_columns`),
and the latched byte is the average of the box exactly when that shift does
not carry across a multiple of `2 ^ 14`.
-/
open Finset

namespace DinoLight.BlockAverages
open Averager

/-! ## Streams of frames -/

/-- Cycles of vertical blanking: before, during and after the vsync pulse. The
last two are counted less one. -/
structure Blanking where
  front : Nat
  sync : Nat
  back : Nat

/-- A picture, and the blanking after each row, less one, and after the last. -/
structure Frame where
  pixel : Nat → Nat → Fin 3 → BitVec 8
  hblank : Nat → Nat
  vertical : Blanking

def blank (vsync : Bool) : Inputs := ⟨0, 0, 0, true, vsync⟩

def Frame.active (f : Frame) (row column : Nat) : Inputs := .active (f.pixel row column)

def Frame.line (f : Frame) (row : Nat) : List Inputs :=
  (List.range 1280).map (f.active row) ++ List.replicate (f.hblank row + 1) (blank false)

def Blanking.before (b : Blanking) : List Inputs := List.replicate b.front (blank false)

def Blanking.pulse (b : Blanking) : List Inputs :=
  List.replicate (b.sync + 1) (blank true) ++ List.replicate (b.back + 1) (blank false)

/-- A frame up to the vsync pulse. -/
def Frame.picture (f : Frame) : List Inputs := (List.range 720).flatMap f.line ++ f.vertical.before

def Frame.cycles (f : Frame) : List Inputs := f.picture ++ f.vertical.pulse

/-- Vertical blanking the stream may start with. -/
def leading (lead : Option Blanking) : List Inputs := lead.elim [] fun b => b.before ++ b.pulse

def run (s : Regs) (is : List Inputs) : Regs := is.foldl step s

@[simp] theorem run_nil (s : Regs) : run s [] = s := rfl

@[simp] theorem run_cons (s : Regs) (i : Inputs) (is : List Inputs) : run s (i :: is) = run (step s i) is := rfl

theorem run_append (s : Regs) (is js : List Inputs) : run s (is ++ js) = run (run s is) js := List.foldl_append

theorem colour_active (f : Frame) (row column : Nat) (c : Fin 3) :
    (f.active row column).colour c = f.pixel row column c := by
  fin_cases c <;> rfl

theorem colour_blank (v : Bool) (c : Fin 3) : (blank v).colour c = 0 := by
  fin_cases c <;> rfl

/-! ## Sums with the pixel to come -/

/-- The sums once the captured pixel has been added. -/
def Owes (s : Regs) (T : Fin 32 → Fin 3 → Nat) : Prop :=
  ∃ A, Sums s A ∧ ∀ n c, A n c + added s n c = T n c

theorem owes_step {s : Regs} {T : Fin 32 → Fin 3 → Nat} (i : Inputs) (h : Owes s T) (hr : ¬ rises s i) :
    Owes (step s i) fun n c => T n c + added (step s i) n c := by
  obtain ⟨A, hA, hT⟩ := h
  have hs := sums_step i hA
  simp only [hr, if_false, hT] at hs
  exact ⟨T, hs, fun _ _ => rfl⟩

theorem owes_blank {s : Regs} {T : Fin 32 → Fin 3 → Nat} {v : Bool} (h : Owes s T) (hr : ¬ rises s (blank v)) :
    Owes (step s (blank v)) T := by
  have ho := owes_step _ h hr
  simpa only [added_black (s := step s (blank v)) (colour_blank v), Nat.add_zero] using ho

theorem not_rises {s : Regs} {i : Inputs} (h : i.i_vsync = false) : ¬ rises s i := by
  simp [rises, h]

/-! ## Rows -/

/-- Before row `r`, with the sums `T`. -/
structure AtRow (s : Regs) (r : Nat) (T : Fin 32 → Fin 3 → Nat) : Prop where
  x : s.x = 0
  y : s.y = BitVec.ofNat 11 r
  vsync : s.a_vsync = false
  sums : Owes s T

/-- What pixel `j` of row `r` adds to an accumulator. -/
def weight (f : Frame) (r j : Nat) (n : Fin 32) (c : Fin 3) : Nat :=
  if inBlock n (j + 1) r then (f.pixel r j c).toNat else 0

theorem pixels_run {s : Regs} {f : Frame} {r : Nat} {T : Fin 32 → Fin 3 → Nat} (h : AtRow s r T) (hr : r < 720)
    {k : Nat} (hk : k ≤ 1280) :
    let s' := run s ((List.range k).map (f.active r))
    s'.x = BitVec.ofNat 11 k ∧ s'.y = BitVec.ofNat 11 r ∧ s'.a_vsync = false ∧ (0 < k → s'.a_blank = false) ∧
      Owes s' fun n c => T n c + ∑ j ∈ range k, weight f r j n c := by
  induction k with
  | zero => exact ⟨h.x, h.y, h.vsync, by simp, by simpa using h.sums⟩
  | succ k ih =>
    obtain ⟨hx, hy, hv, -, ho⟩ := ih (by omega)
    rw [List.range_succ, List.map_append, run_append, List.map_cons, List.map_nil, run_cons, run_nil]
    generalize run s ((List.range k).map (f.active r)) = s' at *
    have hx' : (step s' (f.active r k)).x = BitVec.ofNat 11 (k + 1) := by
      simp [step, Frame.active, Inputs.active, hx, BitVec.ofNat_add]
    have hy' : (step s' (f.active r k)).y = BitVec.ofNat 11 r := by
      simp [step, Frame.active, Inputs.active, hy, hv]
    refine ⟨hx', hy', rfl, fun _ => rfl, ?_⟩
    have ho' := owes_step (f.active r k) ho (not_rises rfl)
    have hadd (n : Fin 32) (c : Fin 3) : added (step s' (f.active r k)) n c = weight f r k n c := by
      simp only [added, weight, hx', hy', colour_step, colour_active, BitVec.toNat_ofNat,
        Nat.mod_eq_of_lt (show k + 1 < 2 ^ 11 by omega), Nat.mod_eq_of_lt (show r < 2 ^ 11 by omega)]
    simpa only [hadd, sum_range_succ, Nat.add_assoc] using ho'

/-- In blanking, past its first cycle. -/
structure Blanked (s : Regs) (v : Bool) (T : Fin 32 → Fin 3 → Nat) : Prop where
  blank : s.a_blank = true
  vsync : s.a_vsync = v
  black : ∀ c, s.colour c = 0
  sums : Owes s T

theorem blank_step {s : Regs} {T : Fin 32 → Fin 3 → Nat} {v : Bool} (h : Owes s T) (hr : ¬ rises s (blank v)) :
    Blanked (step s (blank v)) v T :=
  ⟨rfl, rfl, colour_blank v, owes_blank h hr⟩

theorem blanks_run {s : Regs} {T : Fin 32 → Fin 3 → Nat} {v : Bool} (h : Blanked s v T) (k : Nat) :
    let s' := run s (List.replicate k (blank v))
    Blanked s' v T ∧ s'.x = s.x ∧ s'.y = s.y := by
  induction k with
  | zero => exact ⟨h, rfl, rfl⟩
  | succ k ih =>
    obtain ⟨h', hx, hy⟩ := ih
    rw [List.replicate_succ', run_append, run_cons, run_nil]
    generalize run s (List.replicate k (blank v)) = s' at *
    have hr : ¬ rises s' (blank v) := by simp [rises, blank, h'.vsync]
    refine ⟨blank_step h'.sums hr, ?_, ?_⟩
    · simpa [step, blank, h'.blank] using hx
    · simpa [step, blank, h'.blank, h'.vsync] using hy

/-- A row adds its pixels. -/
theorem line_run {s : Regs} {f : Frame} {r : Nat} {T : Fin 32 → Fin 3 → Nat} (h : AtRow s r T) (hr : r < 720) :
    let T' := fun n c => T n c + ∑ j ∈ range 1280, weight f r j n c
    AtRow (run s (f.line r)) (r + 1) T' ∧ Blanked (run s (f.line r)) false T' := by
  obtain ⟨-, hy, hv, hb, ho⟩ := pixels_run (f := f) h hr (Nat.le_refl 1280)
  rw [Frame.line, run_append, List.replicate_succ, run_cons]
  obtain ⟨hblank, hx', hy'⟩ := blanks_run (blank_step ho (not_rises rfl)) (f.hblank r)
  have hb := hb (by omega)
  refine ⟨⟨?_, ?_, hblank.vsync, hblank.sums⟩, hblank⟩
  · rw [hx']
    simp [step, blank, hb]
  · rw [hy']
    simp [step, blank, hb, hy, BitVec.ofNat_add]

/-- The sums of the first `k` rows, as the code forms them. -/
def rowSums (f : Frame) (k : Nat) (n : Fin 32) (c : Fin 3) : Nat := ∑ r ∈ range k, ∑ j ∈ range 1280, weight f r j n c

/-- At the start of a frame, with clear accumulators. -/
def Fresh (s : Regs) : Prop := AtRow s 0 fun _ _ => 0

theorem lines_run {s : Regs} (f : Frame) (h : Fresh s) {k : Nat} (hk : k ≤ 720) :
    let s' := run s ((List.range k).flatMap f.line)
    AtRow s' k (rowSums f k) ∧ (0 < k → Blanked s' false (rowSums f k)) := by
  induction k with
  | zero => exact ⟨h, fun hk => absurd hk (Nat.lt_irrefl 0)⟩
  | succ k ih =>
    obtain ⟨hrow, -⟩ := ih (by omega)
    rw [List.range_succ, List.flatMap_append, List.flatMap_cons, List.flatMap_nil, List.append_nil, run_append]
    obtain ⟨hrow', hblank⟩ := line_run (f := f) hrow (by omega)
    have hsum : (fun n c => rowSums f k n c + ∑ j ∈ range 1280, weight f k j n c) = rowSums f (k + 1) := by
      funext n c
      exact (sum_range_succ _ k).symm
    rw [hsum] at hrow' hblank
    exact ⟨hrow', fun _ => hblank⟩

theorem picture_run {s : Regs} (f : Frame) (h : Fresh s) :
    Blanked (run s f.picture) false (rowSums f 720) ∧ (run s f.picture).x = 0 := by
  obtain ⟨hrow, hblank⟩ := lines_run f h (Nat.le_refl 720)
  obtain ⟨hblank', hx, -⟩ := blanks_run (hblank (by omega)) f.vertical.front
  rw [Frame.picture, run_append, Blanking.before]
  exact ⟨hblank', hx.trans hrow.x⟩

/-- A vsync pulse leaves the averager at the start of a frame. -/
theorem pulse_run {s : Regs} (b : Blanking) (hx : s.x = 0) (hv : s.a_vsync = false) : Fresh (run s b.pulse) := by
  have hrise : rises s (blank true) := by simp [rises, blank, hv]
  have hclear : Blanked (step s (blank true)) true fun _ _ => 0 := by
    refine ⟨rfl, rfl, colour_blank true, fun _ _ => 0, fun n c => by simp [step, hrise], ?_⟩
    intro n c
    rw [Nat.zero_add, added_black (s := step s (blank true)) (colour_blank true)]
  -- the rise clears the accumulators, the fall only `y`
  have hx' : (step s (blank true)).x = 0 := by simp [step, blank, hx]
  obtain ⟨hsync, hx1, -⟩ := blanks_run hclear b.sync
  rw [hx'] at hx1
  rw [Blanking.pulse, run_append, List.replicate_succ, run_cons, List.replicate_succ, run_cons]
  generalize run (step s (blank true)) (List.replicate b.sync (blank true)) = s1 at *
  obtain ⟨hback, hx2, hy2⟩ := blanks_run (blank_step (v := false) hsync.sums (not_rises rfl)) b.back
  refine ⟨hx2.trans ?_, hy2.trans ?_, hback.vsync, hback.sums⟩
  · simp [step, blank, hsync.blank, hx1]
  · simp [step, blank, hsync.blank, hsync.vsync]

theorem before_run (b : Blanking) {s : Regs} (hx : s.x = 0) (hv : s.a_vsync = false) :
    (run s b.before).x = 0 ∧ (run s b.before).a_vsync = false := by
  unfold Blanking.before
  induction b.front generalizing s with
  | zero => exact ⟨hx, hv⟩
  | succ k ih => exact ih (by simp [step, blank, hx]) rfl

theorem leading_run (lead : Option Blanking) : Fresh (run powerUp (leading lead)) := by
  have hblack : ∀ c, powerUp.colour c = 0 := by decide
  rcases lead with _ | b
  · exact ⟨rfl, rfl, rfl, fun _ _ => 0, powerUp_sums, fun n c => by
      rw [Nat.zero_add, show added (run powerUp (leading none)) n c = 0 from added_black hblack n c]⟩
  · obtain ⟨hx, hv⟩ := before_run b (s := powerUp) rfl rfl
    rw [leading, Option.elim_some, run_append]
    exact pulse_run b hx hv

theorem frames_run {s : Regs} (fs : List Frame) (h : Fresh s) : Fresh (run s (fs.flatMap Frame.cycles)) := by
  induction fs generalizing s with
  | nil => exact h
  | cons f fs ih =>
    obtain ⟨hblank, hx⟩ := picture_run f h
    rw [List.flatMap_cons, run_append, Frame.cycles, run_append]
    exact ih (pulse_run f.vertical hx hblank.vsync)

/-! ## Boxes and columns -/

/-- The pixels of column `x` in the rows of box `n`. -/
def columnSum (f : Frame) (n : Fin 32) (c : Fin 3) (x : Nat) : Nat :=
  ∑ k ∈ range 128, (f.pixel (starty n + k) x c).toNat

/-- The exact sum of box `n`. -/
def boxSum (f : Frame) (n : Fin 32) (c : Fin 3) : Nat := ∑ k ∈ range 128, columnSum f n c (startx n + k)

/-- The column left of box `n`, which the code counts to it. -/
def leftColumn (f : Frame) (n : Fin 32) (c : Fin 3) : Nat :=
  if startx n = 0 then 0 else columnSum f n c (startx n - 1)

/-- The last column of box `n`, which the code leaves out. -/
def rightColumn (f : Frame) (n : Fin 32) (c : Fin 3) : Nat := columnSum f n c (startx n + 127)

theorem box_on_screen : ∀ n : Fin 32, startx n + 128 ≤ 1280 ∧ starty n + 128 ≤ 720 := by decide

theorem sum_window (g : Nat → Nat) (lo len total : Nat) (h : lo + len ≤ total) :
    ∑ j ∈ range total, (if lo ≤ j ∧ j < lo + len then g j else 0) = ∑ k ∈ range len, g (lo + k) := by
  rw [← sum_filter]
  have hset : (range total).filter (fun j => lo ≤ j ∧ j < lo + len) = Ico lo (lo + len) := by
    ext j
    simp only [mem_filter, mem_range, mem_Ico]
    omega
  rw [hset, sum_Ico_eq_sum_range, Nat.add_sub_cancel_left]

/-- The code's sum has the columns from one left of the box on: 128 of them,
or 127 at the left edge of the screen. -/
theorem rowSums_columns (f : Frame) (n : Fin 32) (c : Fin 3) :
    rowSums f 720 n c =
      ∑ k ∈ range (if startx n = 0 then 127 else 128), columnSum f n c (startx n - 1 + k) := by
  have hn := (box_on_screen n).1
  rw [rowSums, sum_comm, ← sum_window _ (startx n - 1) _ 1280 (by split <;> omega)]
  apply sum_congr rfl
  intro j _
  have hw (r : Nat) : weight f r j n c = if starty n ≤ r ∧ r < starty n + 128 then
      (if startx n ≤ j + 1 ∧ j + 1 < startx n + 128 then (f.pixel r j c).toNat else 0) else 0 := by
    rw [weight, ← ite_and]
    refine if_congr ?_ rfl rfl
    unfold inBlock
    omega
  simp only [hw]
  have hc : (startx n - 1 ≤ j ∧ j < startx n - 1 + if startx n = 0 then 127 else 128) ↔
      startx n ≤ j + 1 ∧ j + 1 < startx n + 128 := by split <;> omega
  rw [sum_window _ _ _ _ (box_on_screen n).2, if_congr hc rfl rfl]
  split
  · rfl
  · exact sum_const_zero

/-- The code's sum is that of the box, one column to the left. -/
theorem rowSums_boxSum (f : Frame) (n : Fin 32) (c : Fin 3) :
    rowSums f 720 n c + rightColumn f n c = boxSum f n c + leftColumn f n c := by
  rw [rowSums_columns, rightColumn, leftColumn, boxSum]
  rcases Nat.eq_zero_or_pos (startx n) with h0 | hpos
  · -- at the left edge `x = 0` never comes with a pixel
    rw [if_pos h0, if_pos h0, sum_range_succ _ 127, h0]
    simp only [Nat.zero_sub, Nat.zero_add, Nat.add_zero]
  · obtain ⟨a, ha⟩ : ∃ a, startx n = a + 1 := ⟨startx n - 1, by omega⟩
    rw [if_neg (Nat.ne_of_gt hpos), if_neg (Nat.ne_of_gt hpos), ha, Nat.add_sub_cancel,
      show a + 1 + 127 = a + 128 by omega, ← sum_range_succ fun k => columnSum f n c (a + k), sum_range_succ']
    simp only [Nat.add_zero, Nat.add_assoc, Nat.add_comm 1]

theorem columnSum_le (f : Frame) (n : Fin 32) (c : Fin 3) (x : Nat) : columnSum f n c x ≤ 32640 := by
  have h := sum_le_card_nsmul (range 128) (fun k => (f.pixel (starty n + k) x c).toNat) 255 fun k _ =>
    Nat.le_of_lt_succ (f.pixel (starty n + k) x c).isLt
  simpa [columnSum] using h

/-- No accumulator overflows in a frame. -/
theorem rowSums_lt (f : Frame) (n : Fin 32) (c : Fin 3) : rowSums f 720 n c < 2 ^ 22 := by
  have h := sum_le_card_nsmul (range (if startx n = 0 then 127 else 128))
    (fun k => columnSum f n c (startx n - 1 + k)) 32640 fun k _ => columnSum_le f n c _
  rw [← rowSums_columns, card_range, nsmul_eq_mul, Nat.cast_id] at h
  split at h <;> omega

/-- The framebuffer after the vsync edge that ends `f`, as one byte of it. -/
def average (lead : Option Blanking) (fs : List Frame) (f : Frame) (n : Fin 32) (c : Fin 3) : Nat :=
  (byteAt (run powerUp (leading lead ++ fs.flatMap Frame.cycles ++ f.picture ++ [blank true])).framebuffer n c).toNat

/-- The vsync edge that ends a frame latches its sums. -/
theorem latched_run {s : Regs} (f : Frame) (h : Fresh s) (n : Fin 32) (c : Fin 3) :
    (byteAt (run s (f.picture ++ [blank true])).framebuffer n c).toNat = rowSums f 720 n c / 2 ^ 14 := by
  obtain ⟨hblank, -⟩ := picture_run f h
  rw [run_append, run_cons, run_nil]
  generalize run s f.picture = s at *
  have hrise : rises s (blank true) := by simp [rises, blank, hblank.vsync]
  obtain ⟨A, hA, hT⟩ := hblank.sums
  have hs : s.accumulator n c = BitVec.ofNat 22 (rowSums f 720 n c) := by
    rw [hA, ← hT n c, added_black hblank.black, Nat.add_zero]
  simp only [step, if_pos hrise]
  rw [byteAt_latch, hs, BitVec.toNat_ofNat, Nat.mod_eq_of_lt (rowSums_lt f n c)]

theorem average_eq (lead : Option Blanking) (fs : List Frame) (f : Frame) (n : Fin 32) (c : Fin 3) :
    average lead fs f n c = rowSums f 720 n c / 2 ^ 14 := by
  have hfresh : Fresh (run powerUp (leading lead ++ fs.flatMap Frame.cycles)) := by
    rw [run_append]
    exact frames_run fs (leading_run lead)
  rw [average, List.append_assoc, run_append]
  exact latched_run f hfresh n c

/-- The byte shown for a box is its average exactly when moving the box one
column to the left does not change the sum's quotient by `2 ^ 14`. -/
theorem average_iff (lead : Option Blanking) (fs : List Frame) (f : Frame) (n : Fin 32) (c : Fin 3) :
    average lead fs f n c = boxSum f n c / 16384 ↔
      rightColumn f n c ≤ boxSum f n c % 16384 + leftColumn f n c ∧
        boxSum f n c % 16384 + leftColumn f n c < 16384 + rightColumn f n c := by
  have h := rowSums_boxSum f n c
  rw [average_eq]
  omega

/-- A screen that is white in column 127 and black elsewhere. -/
def whiteColumn : Frame where
  pixel _ column _ := if column = 127 then 255 else 0
  hblank _ := 0
  vertical := ⟨0, 0, 0⟩

theorem columnSum_white (x : Nat) : columnSum whiteColumn 0 0 x = if x = 127 then 32640 else 0 := by
  simp only [columnSum, whiteColumn]
  split <;> simp

/-- Box 0 ends with the white column, and shows none of it. -/
theorem white_column_missed : average none [] whiteColumn 0 0 ≠ boxSum whiteColumn 0 0 / 16384 := by
  have hstart : startx 0 = 0 := rfl
  have hbox : boxSum whiteColumn 0 0 = 32640 := by
    simp [boxSum, columnSum_white, hstart]
  have hright : rightColumn whiteColumn 0 0 = 32640 := by simp [rightColumn, columnSum_white, hstart]
  have hleft : leftColumn whiteColumn 0 0 = 0 := by simp [leftColumn, hstart]
  have h := rowSums_boxSum whiteColumn 0 0
  rw [average_eq, hbox]
  omega

end DinoLight.BlockAverages
