import DinoLight.FilterDelay
/-!
# What the byte filter does to a byte

Each bit of `remove_bad_things_byte` is a filter of 64 samples, whatever the
width of the entity, and switches by itself.
-/
open Clocked Runs

namespace DinoLight.ByteFilters
open RemoveBadThings FilterDelay

variable {clean_width : Nat}

def byteFilter (clean_width : Nat) (d : Nat → BitVec 8) : Nat → ByteRegs clean_width := after byteStep bytePowerUp d

/-- `signal_out` of the byte filter in cycle `n`. -/
def cleanByte (clean_width : Nat) (d : Nat → BitVec 8) (n : Nat) : BitVec 8 := (byteFilter clean_width d n).signal_out

/-- One wire of the byte. -/
def bit (d : Nat → BitVec 8) (i : Fin 8) (t : Nat) : Bool := (d t).getLsbD i

theorem depth_pos : 0 < 64 := Nat.succ_pos 63

theorem byte_ext {x y : BitVec 8} (h : ∀ i : Fin 8, x.getLsbD i = y.getLsbD i) : x = y :=
  BitVec.eq_of_getLsbD_eq fun i hi => h ⟨i, hi⟩

theorem cleanSignal_eq (d : Nat → BitVec 8) (i : Fin 8) (n : Nat) :
    (byteFilter clean_width d n).cleanSignal i = filter 64 (bit d i) n := by
  induction n with
  | zero => rfl
  | succ n ih =>
    rw [filter_succ, ← ih]
    rfl

/-- Every bit goes through a filter of its own. -/
theorem getLsbD_cleanByte (d : Nat → BitVec 8) (i : Fin 8) (n : Nat) :
    (cleanByte clean_width d n).getLsbD i = (filter 64 (bit d i) n).signal_out := by
  rw [cleanByte, signal_out_bit, cleanSignal_eq]

theorem cleanByte_zero (d : Nat → BitVec 8) : cleanByte clean_width d 0 = 0 := by
  apply byte_ext
  intro i
  rw [getLsbD_cleanByte]
  simp [filter, powerUp]

/-! ## Bytes that were really there -/

/-- `signal_in` was `v`, all bits together, in the 64 cycles from `a` on. -/
def Held (d : Nat → BitVec 8) (a : Nat) (v : BitVec 8) : Prop := ∀ t, a ≤ t → t < a + 64 → d t = v

/-- The output is always a byte that came in for 64 cycles, and switches only after 64 of it. -/
structure Real (d : Nat → BitVec 8) : Prop where
  real : ∀ n, cleanByte 64 d n = 0 ∨ ∃ a, a + 64 ≤ n ∧ Held d a (cleanByte 64 d n)
  switches : ∀ n, cleanByte 64 d (n + 1) ≠ cleanByte 64 d n →
    ∃ a, a + 64 = n ∧ Held d a (cleanByte 64 d (n + 1))

/-- Whenever 64 equal samples of one bit are about to change the output, all
bits have been still for these 64 samples. -/
def Together (d : Nat → BitVec 8) : Prop :=
  ∀ (a : Nat) (i : Fin 8) (b : Bool), (∀ t, a ≤ t → t < a + 64 → bit d i t = b) →
    (cleanByte 64 d (a + 64)).getLsbD i ≠ b → Held d a (d a)

/-- A bit that switches has been still for 64 samples. -/
theorem bit_switches {d : Nat → BitVec 8} {i : Fin 8} {n : Nat}
    (h : (cleanByte 64 d (n + 1)).getLsbD i ≠ (cleanByte 64 d n).getLsbD i) :
    ∃ a, a + 64 = n ∧ ∀ t, a ≤ t → t < a + 64 → bit d i t = (cleanByte 64 d (n + 1)).getLsbD i := by
  rw [getLsbD_cleanByte, getLsbD_cleanByte] at h
  have hn : 64 ≤ n := by
    by_contra hlt
    apply h
    rw [low_at_first depth_pos (by omega), low_at_first depth_pos (by omega)]
  refine ⟨n - 64, Nat.sub_add_cancel hn, fun t hat hta => ?_⟩
  rw [getLsbD_cleanByte]
  exact sample_of_holds (switches depth_pos h) (by omega) (by omega)

/-- A byte held for 64 cycles comes out. -/
theorem held_out {d : Nat → BitVec 8} {a : Nat} {v : BitVec 8} (h : Held d a v) :
    cleanByte clean_width d (a + 65) = v := by
  apply byte_ext
  intro i
  rw [getLsbD_cleanByte]
  apply settles depth_pos (filter_succ (bit d i))
  intro t hat hta
  rw [bit, h t hat hta]

theorem real_of_switches {d : Nat → BitVec 8}
    (h : ∀ n, cleanByte 64 d (n + 1) ≠ cleanByte 64 d n → ∃ a, a + 64 = n ∧ Held d a (cleanByte 64 d (n + 1)))
    (n : Nat) : cleanByte 64 d n = 0 ∨ ∃ a, a + 64 ≤ n ∧ Held d a (cleanByte 64 d n) := by
  induction n with
  | zero => exact .inl (cleanByte_zero d)
  | succ n ih =>
    by_cases hsame : cleanByte 64 d (n + 1) = cleanByte 64 d n
    · rw [hsame]
      rcases ih with hzero | ⟨a, ha, hheld⟩
      · exact .inl hzero
      · exact .inr ⟨a, Nat.le_succ_of_le ha, hheld⟩
    · obtain ⟨a, rfl, hheld⟩ := h n hsame
      exact .inr ⟨a, Nat.le_succ _, hheld⟩

/-- The cleaned byte is one that was there just when no bit settles alone. -/
theorem real_iff (d : Nat → BitVec 8) : Real d ↔ Together d := by
  constructor
  · rintro ⟨-, hswitches⟩ a i b hstill hout
    have hin : (cleanByte 64 d (a + 65)).getLsbD i = b := by
      rw [getLsbD_cleanByte]
      exact settles depth_pos (filter_succ (bit d i)) hstill
    obtain ⟨a', ha', hheld⟩ := hswitches (a + 64) fun heq => hout (by rw [← heq, hin])
    obtain rfl := Nat.add_right_cancel ha'
    rwa [← hheld a' (Nat.le_refl _) (Nat.lt_add_of_pos_right depth_pos)] at hheld
  · intro htogether
    have hswitches : ∀ n, cleanByte 64 d (n + 1) ≠ cleanByte 64 d n →
        ∃ a, a + 64 = n ∧ Held d a (cleanByte 64 d (n + 1)) := by
      intro n hne
      obtain ⟨i, hi⟩ : ∃ i : Fin 8, (cleanByte 64 d (n + 1)).getLsbD i ≠ (cleanByte 64 d n).getLsbD i := by
        by_contra hall
        exact hne (byte_ext fun i => by_contra fun h => hall ⟨i, h⟩)
      obtain ⟨a, rfl, hstill⟩ := bit_switches hi
      have hheld := htogether a i _ hstill hi.symm
      exact ⟨a, rfl, by rwa [held_out hheld]⟩
    exact ⟨real_of_switches hswitches, hswitches⟩

/-- Bit 1 is still and bit 0 flickers: the output is 2, which never came in for two cycles. -/
def flicker (t : Nat) : BitVec 8 := if t % 2 = 0 then 2 else 3

theorem mixed_byte : ¬ Real flicker := by
  rintro ⟨hreal, -⟩
  have hbit : ∀ t, bit flicker 1 t = true := by
    intro t
    unfold bit flicker
    split <;> rfl
  have hout : (cleanByte 64 flicker 65).getLsbD 1 = true :=
    (getLsbD_cleanByte flicker 1 65).trans
      (settles depth_pos (filter_succ (bit flicker 1)) (n := 0) fun t _ _ => hbit t)
  rcases hreal 65 with hzero | ⟨a, -, hheld⟩
  · rw [hzero] at hout
    exact Bool.noConfusion hout
  · have h0 := hheld a (Nat.le_refl a) (by omega)
    have h1 := hheld (a + 1) (by omega) (by omega)
    rw [← h0] at h1
    unfold flicker at h1
    by_cases ha : a % 2 = 0
    · rw [if_pos ha, if_neg (by omega)] at h1
      exact absurd h1 (by decide)
    · rw [if_neg ha, if_pos (by omega)] at h1
      exact absurd h1 (by decide)

/-! ## Bits beside bytes -/

/-- Every wire of the byte moves slowly enough. -/
def LongBits (W : Nat) (d : Nat → BitVec 8) : Prop := ∀ i, Long W (bit d i)

/-- `signal_out` of the one-bit filter in cycle `n`. -/
def cleanBit (clean_width : Nat) (s : Nat → Bool) (n : Nat) : Bool := (filter clean_width s n).signal_out

/-- One delay describes both filters. -/
def Aligned (clean_width : Nat) (s : Nat → Bool) (d : Nat → BitVec 8) : Prop :=
  ∃ D, Delayed D (cleanBit clean_width s) s ∧ Delayed D (cleanByte clean_width d) d

/-- The byte filter delays by 65 cycles at every width. -/
theorem byte_delay {d : Nat → BitVec 8} (hd : LongBits 64 d) : Delayed 65 (cleanByte clean_width d) d := by
  intro t
  apply byte_ext
  intro i
  rw [getLsbD_cleanByte]
  exact delays depth_pos (hd i) t

theorem low_byte {d : Nat → BitVec 8} {n : Nat} (hn : n ≤ 64) : cleanByte clean_width d n = 0 := by
  apply byte_ext
  intro i
  rw [getLsbD_cleanByte, low_at_first depth_pos hn]
  simp

theorem still_out {d : Nat → BitVec 8} {v : BitVec 8} (h : ∀ t, d t = v) {n : Nat} (hn : 64 < n) :
    cleanByte clean_width d n = v := by
  obtain ⟨a, rfl⟩ := Nat.exists_eq_add_of_le' hn
  exact held_out fun t _ _ => h t

/-- A filter set narrower than 64 delays nothing but a dark byte by its own width. -/
theorem narrow {d : Nat → BitVec 8} (hW : clean_width < 64)
    (h : Delayed (clean_width + 1) (cleanByte clean_width d) d) (t : Nat) : d t = 0 := by
  induction t using Nat.strongRecOn with
  | ind t ih =>
    rw [← h t]
    by_cases hearly : t + (clean_width + 1) ≤ 64
    · exact low_byte hearly
    · -- the output has kept the value of a cycle before `t`
      apply byte_ext
      intro i
      rw [show t + (clean_width + 1) = t + clean_width + 1 by omega]
      have hbefore : (cleanByte clean_width d (t + clean_width)).getLsbD i = false := by
        cases t with
        | zero => rw [low_byte (by omega)]; simp
        | succ t =>
          have hprev := h t
          rw [show t + (clean_width + 1) = t + 1 + clean_width by omega] at hprev
          rw [hprev, ih t (Nat.lt_succ_self t)]
          simp
      rw [getLsbD_cleanByte] at hbefore ⊢
      rw [stays depth_pos hbefore]
      · simp
      · intro hb
        have hsample := sample_of_holds hb (k := t + clean_width - 64) (by omega) (by omega)
        rw [bit, ih _ (by omega)] at hsample
        simp at hsample

/-- A filter set wider than 64 delays nothing but a still byte by its own width. -/
theorem wide {d : Nat → BitVec 8} (hW : 64 < clean_width) (hd : LongBits clean_width d)
    (h : Delayed (clean_width + 1) (cleanByte clean_width d) d) (t : Nat) : d t = d 0 := by
  have hdelay : Delayed 65 (cleanByte clean_width d) d := byte_delay fun i => (hd i).mono (Nat.le_of_lt hW)
  have hahead (t : Nat) : d (t + (clean_width - 64)) = d t := by
    rw [← h t, ← hdelay]
    congr 1
    omega
  induction t with
  | zero => rfl
  | succ t ih =>
    rw [← ih]
    by_contra hne
    obtain ⟨i, hi⟩ : ∃ i : Fin 8, bit d i t ≠ bit d i (t + 1) := by
      by_contra hall
      exact hne (byte_ext fun i => by_contra fun h' => hall ⟨i, fun h'' => h' h''.symm⟩)
    -- the new run is still there when the old value comes out
    have hlasts := (hd i).lasts_after hi (u := t + (clean_width - 64)) (by omega) (by omega)
    rw [bit, hahead t] at hlasts
    exact hi hlasts

theorem byte_delay_iff {d : Nat → BitVec 8} (hd : LongBits clean_width d) :
    Delayed (clean_width + 1) (cleanByte clean_width d) d ↔
      clean_width = 64 ∨ (∀ t, d t = 0) ∨ (64 < clean_width ∧ ∀ t, d t = d 0) := by
  constructor
  · intro h
    rcases Nat.lt_trichotomy clean_width 64 with hW | hW | hW
    · exact .inr (.inl (narrow hW h))
    · exact .inl hW
    · exact .inr (.inr ⟨hW, wide hW hd h⟩)
  · rintro (rfl | hzero | ⟨hW, hstill⟩)
    · exact byte_delay hd
    · intro t
      rw [hzero]
      rcases Nat.lt_or_ge 64 (t + (clean_width + 1)) with hlate | hearly
      · exact still_out hzero hlate
      · exact low_byte hearly
    · intro t
      rw [hstill]
      exact still_out hstill (by omega)

/-- White from cycle `T` on. -/
def whiteAt (T t : Nat) : BitVec 8 := if T ≤ t then BitVec.allOnes 8 else 0

theorem bit_whiteAt (T : Nat) (i : Fin 8) : bit (whiteAt T) i = stepAt T := by
  funext t
  unfold bit whiteAt stepAt
  by_cases ht : T ≤ t
  · rw [if_pos ht, BitVec.getLsbD_allOnes, decide_eq_true i.isLt, decide_eq_true ht]
  · rw [if_neg ht, decide_eq_false ht]
    simp

theorem whiteAt_long {W T : Nat} (hT : W ≤ T) : LongBits W (whiteAt T) := by
  intro i
  rw [bit_whiteAt]
  exact long_stepAt hT

/-- A picture that turns white as its sync bit rises tells the widths apart. -/
theorem not_aligned (hW : 0 < clean_width) (hne : clean_width ≠ 64) {T : Nat} (hT : clean_width ≤ T)
    (h64 : 64 ≤ T) : ¬ Aligned clean_width (stepAt T) (whiteAt T) := by
  rintro ⟨D, hbit, hbyte⟩
  have hpos : 0 < T := Nat.lt_of_lt_of_le hW hT
  have hD : D = clean_width + 1 := hbit.eq_of_stepAt hpos (delays hW (long_stepAt hT))
  have hD' : D = 65 := by
    apply Delayed.eq_of_stepAt (f := bit (cleanByte clean_width (whiteAt T)) 0) hpos
    · intro t
      rw [bit, hbyte, ← bit_whiteAt T 0, bit]
    · intro t
      rw [bit, byte_delay (whiteAt_long h64), ← bit_whiteAt T 0, bit]
  exact hne (Nat.succ.inj (hD.symm.trans hD'))

/-- The byte filter keeps step with the bit filter at width 64 alone. At another
width it does so by chance, on a byte that is dark, or still and filtered by less. -/
theorem aligned_iff (hW : 0 < clean_width) :
    ((∀ s d, Long clean_width s → LongBits clean_width d → Aligned clean_width s d) ↔ clean_width = 64) ∧
      ∀ s d, Long clean_width s → LongBits clean_width d →
        Delayed (clean_width + 1) (cleanBit clean_width s) s ∧
          (Delayed (clean_width + 1) (cleanByte clean_width d) d ↔
            clean_width = 64 ∨ (∀ t, d t = 0) ∨ (64 < clean_width ∧ ∀ t, d t = d 0)) := by
  refine ⟨⟨fun hall => ?_, ?_⟩, fun s d hs hd => ⟨delays hW hs, byte_delay_iff hd⟩⟩
  · by_contra hne
    exact not_aligned hW hne (Nat.le_add_right _ 64) (Nat.le_add_left 64 _)
      (hall _ _ (long_stepAt (Nat.le_add_right _ 64)) (whiteAt_long (Nat.le_add_right _ 64)))
  · rintro rfl s d hs hd
    exact ⟨65, delays hW hs, byte_delay hd⟩

theorem aligned_iff_32 :
    ((∀ s d, Long 32 s → LongBits 32 d → Aligned 32 s d) ↔ 32 = 64) ∧
      ∀ s d, Long 32 s → LongBits 32 d → Delayed 33 (cleanBit 32 s) s ∧
        (Delayed 33 (cleanByte 32 d) d ↔ 32 = 64 ∨ (∀ t, d t = 0) ∨ (64 < 32 ∧ ∀ t, d t = d 0)) :=
  aligned_iff (by decide)

/-- At a width of 32 the byte comes 32 cycles late. -/
theorem tuned_apart : Long 32 (stepAt 64) ∧ LongBits 32 (whiteAt 64) ∧ ¬ Aligned 32 (stepAt 64) (whiteAt 64) :=
  ⟨long_stepAt (by decide), whiteAt_long (by decide), not_aligned (by decide) (by decide) (by decide) (by decide)⟩

end DinoLight.ByteFilters
