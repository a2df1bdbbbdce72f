import DinoLight.Lib.Clocked
import DinoLight.Lib.SerialBits
/-!
# `gearbox`

Half-words of five bits come in at twice the pixel clock; words of ten come
out, one for every second edge, with the boundary that `framing` selects. The
ten framings are the ten places a word can start in the stream.
-/
open Clocked SerialBits

namespace DinoLight.Gearbox

structure Regs where
  every_other : Bool
  joined : BitVec 15
  data_out : BitVec 10
  deriving DecidableEq

structure Inputs where
  invert : Bool
  framing : BitVec 4
  data_in : BitVec 5

/-- What goes into `joined`: without `invert` the complement of the half-word. -/
def Inputs.half_word (i : Inputs) : BitVec 5 := if i.invert then i.data_in else i.data_in ^^^ 0b11111#5

/-- One rising edge of `clk_fabric_x2`. -/
def step (s : Regs) (i : Inputs) : Regs where
  data_out :=
    if s.every_other then
      match i.framing with
      | 0b0000#4 => s.joined.extractLsb' 0 10
      | 0b0001#4 => s.joined.extractLsb' 1 10
      | 0b0010#4 => s.joined.extractLsb' 2 10
      | 0b0011#4 => s.joined.extractLsb' 3 10
      | 0b0100#4 => s.joined.extractLsb' 4 10
      | _ => s.data_out
    else
      match i.framing with
      | 0b0101#4 => s.joined.extractLsb' 0 10
      | 0b0110#4 => s.joined.extractLsb' 1 10
      | 0b0111#4 => s.joined.extractLsb' 2 10
      | 0b1000#4 => s.joined.extractLsb' 3 10
      | 0b1001#4 => s.joined.extractLsb' 4 10
      | _ => s.data_out
  joined := push s.joined i.half_word
  every_other := !s.every_other

/-- Where the slice of `joined` that an edge takes starts, if it takes one. -/
def slot (every_other : Bool) (framing : BitVec 4) : Option Nat :=
  if every_other then
    if framing.toNat < 5 then some framing.toNat else none
  else
    if 5 ≤ framing.toNat ∧ framing.toNat < 10 then some (framing.toNat - 5) else none

theorem slot_lt {e : Bool} {f : BitVec 4} {lo : Nat} (h : slot e f = some lo) : lo < 5 := by
  unfold slot at h
  split at h <;> split at h <;> cases h <;> omega

theorem slot_odd_none : ∀ f : BitVec 4, f ≠ 0 → f ≠ 1 → f ≠ 2 → f ≠ 3 → f ≠ 4 → slot true f = none := by decide

theorem slot_even_none : ∀ f : BitVec 4, f ≠ 5 → f ≠ 6 → f ≠ 7 → f ≠ 8 → f ≠ 9 → slot false f = none := by decide

theorem data_out_step (s : Regs) (i : Inputs) : (step s i).data_out =
    (slot s.every_other i.framing).elim s.data_out fun lo => s.joined.extractLsb' lo 10 := by
  unfold step
  dsimp only
  generalize i.framing = f
  cases s.every_other with
  | true =>
    rw [if_pos rfl]
    split
    case h_6 h0 h1 h2 h3 h4 => rw [slot_odd_none f h0 h1 h2 h3 h4, Option.elim_none]
    all_goals rfl
  | false =>
    rw [if_neg Bool.false_ne_true]
    split
    case h_6 h5 h6 h7 h8 h9 => rw [slot_even_none f h5 h6 h7 h8 h9, Option.elim_none]
    all_goals rfl

variable {w : Nat → Inputs} {s : Nat → Regs}

/-- The bits that go into `joined`, in the order of arrival. -/
def line (w : Nat → Inputs) : Nat → Bool := stream fun n => (w n).half_word

theorem every_other_run (hs : Follows step w s) (n : Nat) :
    (s n).every_other = ((s 0).every_other ^^ decide (n % 2 = 1)) := by
  induction n with
  | zero => simp
  | succ n ih =>
    have h : (s (n + 1)).every_other = !(s n).every_other := by rw [hs n]; rfl
    rw [h, ih]
    rcases Nat.mod_two_eq_zero_or_one n with h0 | h0 <;> simp [h0, Nat.add_mod]

/-- An edge that takes a slice puts out ten consecutive bits of the line. -/
theorem update_run (hs : Follows step w s) {n lo p : Nat} (hslot : slot (s n).every_other (w n).framing = some lo)
    (hp : p + 15 = 5 * n + lo) : (s (n + 1)).data_out = windowAt 10 (line w) p := by
  have hjoined : ∀ m, (s (m + 1)).joined = push (s m).joined (w m).half_word := fun m => by rw [hs m]; rfl
  have hlo := slot_lt hslot
  rw [hs n, data_out_step, hslot]
  exact slice_run (v := fun m => (s m).joined) hjoined n (by omega) hp

theorem keep_run (hs : Follows step w s) {n : Nat} (hslot : slot (s n).every_other (w n).framing = none) :
    (s (n + 1)).data_out = (s n).data_out := by
  rw [hs n, data_out_step, hslot]
  rfl

/-! ## A held framing -/

/-- How far behind its two edges a word starts. -/
def lag (every_other : Bool) (framing : Nat) : Nat :=
  if every_other then 15 else if framing < 5 then 10 else 20

theorem slot_low {f : BitVec 4} (h : f.toNat < 5) : slot true f = some f.toNat ∧ slot false f = none := by
  simp [slot, h, show ¬ 5 ≤ f.toNat by omega]

theorem slot_high {f : BitVec 4} (h : 5 ≤ f.toNat) (h' : f.toNat < 10) :
    slot true f = none ∧ slot false f = some (f.toNat - 5) := by
  simp [slot, h, h', show ¬ f.toNat < 5 by omega]

theorem every_other_succ (hs : Follows step w s) (n : Nat) : (s (n + 1)).every_other = !(s n).every_other := by
  rw [hs n]
  rfl

/-- Over two edges one of the ten framings puts out one word. -/
theorem word_run (hs : Follows step w s) {n p : Nat} {f : BitVec 4} (hf : f.toNat < 10) (h0 : (w n).framing = f)
    (h1 : (w (n + 1)).framing = f) (hp : p + lag (s n).every_other f.toNat = 5 * n + f.toNat) :
    (s (n + 2)).data_out = windowAt 10 (line w) p := by
  have hnext := every_other_succ hs n
  unfold lag at hp
  cases he : (s n).every_other with
  | true =>
    rw [he, Bool.not_true] at hnext
    rw [if_pos he] at hp
    rcases Nat.lt_or_ge f.toNat 5 with hlow | hhigh
    · rw [keep_run hs (by rw [hnext, h1, (slot_low hlow).2])]
      exact update_run hs (by rw [he, h0, (slot_low hlow).1]) hp
    · exact update_run hs (by rw [hnext, h1, (slot_high hhigh hf).2]) (by omega)
  | false =>
    rw [he, Bool.not_false] at hnext
    rw [if_neg (Bool.eq_false_iff.1 he)] at hp
    rcases Nat.lt_or_ge f.toNat 5 with hlow | hhigh
    · rw [if_pos hlow] at hp
      exact update_run hs (by rw [hnext, h1, (slot_low hlow).1]) (by omega)
    · rw [if_neg (Nat.not_lt.2 hhigh)] at hp
      rw [keep_run hs (by rw [hnext, h1, (slot_high hhigh hf).1])]
      exact update_run hs (by rw [he, h0, (slot_high hhigh hf).2]) (by omega)

/-! ## Any framing -/

/-- Where in the line the word starts that is out after `n` edges. There is none
before a slice of a full register has been taken. -/
def origin (w : Nat → Inputs) (s : Nat → Regs) : Nat → Option Nat
  | 0 => none
  | n + 1 => (slot (s n).every_other (w n).framing).elim (origin w s n) fun lo =>
      if 15 ≤ 5 * n + lo then some (5 * n + lo - 15) else none

theorem origin_update {n lo : Nat} (hslot : slot (s n).every_other (w n).framing = some lo) :
    origin w s (n + 1) = if 15 ≤ 5 * n + lo then some (5 * n + lo - 15) else none := by
  rw [origin, hslot]
  rfl

theorem origin_keep {n : Nat} (hslot : slot (s n).every_other (w n).framing = none) :
    origin w s (n + 1) = origin w s n := by
  rw [origin, hslot]
  rfl

theorem origin_lt {n p : Nat} (h : origin w s n = some p) : p + 15 < 5 * n := by
  induction n with
  | zero => cases h
  | succ n ih =>
    cases hslot : slot (s n).every_other (w n).framing with
    | none =>
      have hlt := ih (by rwa [origin_keep hslot] at h)
      omega
    | some lo =>
      have hlo := slot_lt hslot
      rw [origin_update hslot] at h
      split at h
      · cases h
        omega
      · cases h

/-- An edge that takes a slice goes forward in the line. -/
theorem origin_forward {n p lo : Nat} (h : origin w s n = some p)
    (hslot : slot (s n).every_other (w n).framing = some lo) : ∃ q, origin w s (n + 1) = some q ∧ p < q := by
  have hlt := origin_lt h
  exact ⟨5 * n + lo - 15, by rw [origin_update hslot, if_pos (by omega)], by omega⟩

/-- What the gearbox puts out, however the framing moves. -/
structure Slides (w : Nat → Inputs) (s : Nat → Regs) : Prop where
  window : ∀ n p, origin w s n = some p → (s n).data_out = windowAt 10 (line w) p
  forward : ∀ m n p, m ≤ n → origin w s m = some p → ∃ q, origin w s n = some q ∧ p ≤ q
  aligned : ∀ n q, origin w s (n + 1) = some q → origin w s (n + 1) ≠ origin w s n → q % 10 = (w n).framing.toNat

theorem window_run (hs : Follows step w s) {n p : Nat} (h : origin w s n = some p) :
    (s n).data_out = windowAt 10 (line w) p := by
  induction n with
  | zero => cases h
  | succ n ih =>
    cases hslot : slot (s n).every_other (w n).framing with
    | none =>
      rw [keep_run hs hslot]
      exact ih (by rwa [origin_keep hslot] at h)
    | some lo =>
      rw [origin_update hslot] at h
      split at h
      · cases h
        exact update_run hs hslot (by omega)
      · cases h

theorem origin_mono {m n p : Nat} (hmn : m ≤ n) (h : origin w s m = some p) : ∃ q, origin w s n = some q ∧ p ≤ q := by
  induction hmn with
  | refl => exact ⟨p, h, Nat.le_refl p⟩
  | @step n _ ih =>
    obtain ⟨q, hq, hpq⟩ := ih
    cases hslot : slot (s n).every_other (w n).framing with
    | none => exact ⟨q, by rw [origin_keep hslot, hq], hpq⟩
    | some lo =>
      obtain ⟨q', hq', hlt⟩ := origin_forward hq hslot
      exact ⟨q', hq', Nat.le_of_lt (Nat.lt_of_le_of_lt hpq hlt)⟩

theorem slot_eq {e : Bool} {f : BitVec 4} {lo : Nat} (h : slot e f = some lo) :
    f.toNat < 10 ∧ f.toNat = lo + if e then 0 else 5 := by
  unfold slot at h
  cases e <;> simp only [if_true, Bool.false_eq_true, if_false] at h ⊢ <;> split at h <;> cases h <;> omega

theorem origin_aligned (hs : Follows step w s) (h0 : (s 0).every_other = false) {n q : Nat}
    (h : origin w s (n + 1) = some q) (hne : origin w s (n + 1) ≠ origin w s n) : q % 10 = (w n).framing.toNat := by
  have hphase := every_other_run hs n
  rw [h0, Bool.false_xor] at hphase
  cases hslot : slot (s n).every_other (w n).framing with
  | none => exact absurd (origin_keep hslot) hne
  | some lo =>
    obtain ⟨hlt, heq⟩ := slot_eq hslot
    rw [origin_update hslot] at h
    split at h
    next hfull =>
      cases h
      rw [hphase] at heq
      by_cases hodd : n % 2 = 1
      · rw [decide_eq_true hodd, if_pos rfl] at heq
        omega
      · rw [decide_eq_false hodd, if_neg Bool.false_ne_true] at heq
        omega
    next => cases h

/-- From power-up every word taken after the first three edges is ten bits of the
line in a row, later ones further on, and it starts where the framing of its
edge says, modulo ten; the framing may change at any edge and take any value. -/
theorem words_slide (hs : Follows step w s) (h0 : (s 0).every_other = false) : Slides w s :=
  ⟨fun _ _ => window_run hs, fun _ _ _ => origin_mono, fun _ _ => origin_aligned hs h0⟩

/-- Half-words that count up, under one framing after the other. -/
def counting (n : Nat) : Inputs := ⟨false, BitVec.ofNat 4 n, BitVec.ofNat 5 n⟩

theorem words_slide_counting :
    let s := after step ⟨false, 0, 0⟩ counting
    Slides counting s ∧ origin counting s 4 = some 3 ∧ origin counting s 7 = some 16 ∧
      (s 4).data_out ≠ (s 7).data_out :=
  ⟨words_slide after_follows rfl, by decide, by decide, by decide⟩

end DinoLight.Gearbox
