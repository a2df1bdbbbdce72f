import DinoLight.Lib.Clocked
/-!
# Hunting

A receiver that cannot tell which of `N` alignments is the right one tries
them in turn: it keeps a candidate for as long as it sees marks, and moves on
after `K` cycles without one. What it sees in a cycle is decided by the
candidate it has held for the last `d` cycles.

The hunt ends (`converges`) if the right candidate shows a mark often enough
and every so often there is a quiet time long enough for a wrong one to run
out. Wrong candidates may show marks at all other times.
-/
open Clocked

namespace Hunt

structure State where
  candidate : Nat
  count : Nat

variable {N K : Nat}

def next (N c : Nat) : Nat := if c + 1 = N then 0 else c + 1

def step (N K : Nat) (s : State) (seen : Bool) : State :=
  if seen then { s with count := 0 }
  else if s.count + 1 = K then ⟨next N s.candidate, 0⟩
  else { s with count := s.count + 1 }

structure InRange (N K : Nat) (s : State) : Prop where
  candidate : s.candidate < N
  count : s.count < K

theorem next_lt {c : Nat} (h : c < N) : next N c < N := by
  unfold next
  split <;> omega

theorem inRange_step {s : State} (seen : Bool) (h : InRange N K s) : InRange N K (step N K s seen) := by
  obtain ⟨hc, hk⟩ := h
  unfold step
  split
  · exact ⟨hc, Nat.lt_of_le_of_lt (Nat.zero_le _) hk⟩
  · split
    · exact ⟨next_lt hc, Nat.lt_of_le_of_lt (Nat.zero_le _) hk⟩
    · exact ⟨hc, Nat.lt_of_le_of_ne hk (by assumption)⟩

/-- A step keeps the candidate, or it moves on with the count at 0. -/
theorem step_cases (s : State) (seen : Bool) :
    (step N K s seen).candidate = s.candidate ∨ step N K s seen = ⟨next N s.candidate, 0⟩ := by
  unfold step
  split
  · exact .inl rfl
  · split
    · exact .inr rfl
    · exact .inl rfl

/-! ## In closed form -/

/-- How many cycles before `t` have gone by without a mark. -/
def quiet (seen : Nat → Bool) : Nat → Nat
  | 0 => 0
  | t + 1 => if seen t then 0 else quiet seen t + 1

/-- How often in the cycles before `t` a time without a mark has reached another `K` cycles. -/
def moves (K : Nat) (seen : Nat → Bool) (t : Nat) : Nat :=
  (List.range t).countP fun u => !seen u && (quiet seen u + 1) % K = 0

theorem moves_succ (K : Nat) (seen : Nat → Bool) (t : Nat) :
    moves K seen (t + 1) = moves K seen t + if seen t = false ∧ (quiet seen t + 1) % K = 0 then 1 else 0 := by
  rw [moves, List.range_succ, List.countP_append, List.countP_singleton]
  cases seen t <;> simp [moves]

theorem next_eq {c : Nat} (hc : c < N) : next N c = (c + 1) % N := by
  unfold next
  split
  next h => rw [h, Nat.mod_self]
  next h => rw [Nat.mod_eq_of_lt (by omega)]

theorem not_seen_of_quiet {seen : Nat → Bool} {t u : Nat} (hu : u < t) (h : t ≤ u + quiet seen t) : seen u = false := by
  induction t with
  | zero => exact absurd hu (Nat.not_lt_zero u)
  | succ t ih =>
    unfold quiet at h
    cases hs : seen t with
    | true =>
      rw [hs, if_pos rfl] at h
      exact absurd hu (Nat.not_lt.2 h)
    | false =>
      rw [hs, if_neg Bool.false_ne_true] at h
      rcases Nat.lt_succ_iff_lt_or_eq.1 hu with hu | rfl
      · exact ih hu (by omega)
      · exact hs

/-- Unless there has been no mark yet, the last one is where the quiet time began. -/
theorem seen_before_quiet {seen : Nat → Bool} {t : Nat} (h : quiet seen t < t) :
    seen (t - quiet seen t - 1) = true := by
  induction t with
  | zero => exact absurd h (Nat.not_lt_zero _)
  | succ t ih =>
    unfold quiet at h ⊢
    cases hs : seen t with
    | true => simpa using hs
    | false =>
      rw [hs, if_neg Bool.false_ne_true] at h
      rw [if_neg Bool.false_ne_true, show t + 1 - (quiet seen t + 1) - 1 = t - quiet seen t - 1 by omega]
      exact ih (Nat.lt_of_succ_lt_succ h)

theorem closed_form {r : Nat → State} {seen : Nat → Bool} (hr : Follows (step N K) seen r) (hK : 0 < K)
    (hc : (r 0).candidate < N) (hcount : (r 0).count = 0) (t : Nat) :
    (r t).count = quiet seen t % K ∧ (r t).candidate = ((r 0).candidate + moves K seen t) % N := by
  induction t with
  | zero => exact ⟨by rw [hcount, quiet, Nat.zero_mod], (Nat.mod_eq_of_lt hc).symm⟩
  | succ t ih =>
    obtain ⟨hcount, hcand⟩ := ih
    rw [hr t, moves_succ, quiet, step]
    cases seen t with
    | true => simp [hcand]
    | false =>
      have hlt := Nat.mod_lt (quiet seen t) hK
      have hwrap : (quiet seen t + 1) % K = if (r t).count + 1 = K then 0 else (r t).count + 1 := by
        rw [hcount]
        split
        next h => rw [← Nat.mod_add_mod, h, Nat.mod_self]
        next h => rw [← Nat.mod_add_mod, Nat.mod_eq_of_lt (by omega)]
      have hN := Nat.lt_of_le_of_lt (Nat.zero_le _) hc
      rw [if_neg Bool.false_ne_true, if_neg Bool.false_ne_true, hwrap]
      split
      · rw [if_pos ⟨rfl, rfl⟩, next_eq (hcand ▸ Nat.mod_lt _ hN), hcand, Nat.mod_add_mod, Nat.add_assoc]
        exact ⟨rfl, rfl⟩
      · rw [if_neg (fun h => Nat.succ_ne_zero _ h.2), Nat.add_zero]
        exact ⟨rfl, hcand⟩

/-! ## How far the right one is -/

/-- How many candidates there are still to try before `good`. -/
def away (N good c : Nat) : Nat := if c ≤ good then good - c else good + N - c

theorem away_next_good {good : Nat} (hg : good < N) : away N good (next N good) + 1 = N := by
  unfold away next
  split <;> split <;> omega

theorem away_next {good c : Nat} (hg : good < N) (hc : c < N) (hne : c ≠ good) :
    away N good (next N c) + 1 = away N good c := by
  unfold away next
  split <;> split <;> split <;> omega

theorem away_eq_zero {good c : Nat} (hc : c < N) (h : away N good c = 0) : c = good := by
  unfold away at h
  split at h <;> omega

/-! ## The hunt -/

variable {r : Nat → State} {seen : Nat → Bool}

/-- What is seen is what the candidate of the last `d` cycles shows. -/
def Reports (d : Nat) (shows : Nat → Nat → Prop) (r : Nat → State) (seen : Nat → Bool) : Prop :=
  ∀ t c, (∀ u, t ≤ u → u ≤ t + d → (r u).candidate = c) → (seen (t + d) = true ↔ shows c (t + d))

/-- Where the hunt ends: at the right candidate, with a count that some mark,
or its arrival, has started since. -/
structure Locked (d good : Nat) (shows : Nat → Nat → Prop) (r : Nat → State) (t : Nat) : Prop where
  found : (r t).candidate = good
  since : ∃ a b, a ≤ b ∧ (r t).count + b = t ∧ (∀ u, a ≤ u → u ≤ t → (r u).candidate = good) ∧
    ∀ u, b ≤ u → a + d ≤ u → u < t → ¬ shows good u

variable {d G F good : Nat} {shows : Nat → Nat → Prop}

theorem locked_fresh {t : Nat} (hgood : (r t).candidate = good) (hcount : (r t).count = 0) :
    Locked d good shows r t := by
  refine ⟨hgood, t, t, Nat.le_refl t, by rw [hcount, Nat.zero_add], ?_, ?_⟩
  · intro u h1 h2
    rwa [Nat.le_antisymm h2 h1]
  · intro u h1 _ h2
    exact absurd h1 (Nat.not_le.2 h2)

theorem Reports.held (hrep : Reports d shows r seen) {a t c : Nat} (h : ∀ u, a ≤ u → u ≤ t → (r u).candidate = c)
    (hat : a + d ≤ t) : seen t = true ↔ shows c t := by
  obtain ⟨v, rfl⟩ := Nat.exists_eq_add_of_le' (Nat.le_trans (Nat.le_add_left d a) hat)
  exact hrep v c fun u h1 h2 => h u (Nat.le_trans (Nat.le_of_add_le_add_right hat) h1) h2

/-- At the right candidate the next mark is in time. -/
theorem Locked.succ (hr : Follows (step N K) seen r) (hrep : Reports d shows r seen)
    (hmarks : ∀ t, ∃ u, t ≤ u ∧ u < t + G ∧ shows good u) (hK : d + G ≤ K) {t : Nat} (h : Locked d good shows r t) :
    Locked d good shows r (t + 1) := by
  obtain ⟨hgood, a, b, hab, hcount, hheld, hnone⟩ := h
  cases hs : seen t with
  | true =>
    have hnext : r (t + 1) = ⟨good, 0⟩ := by rw [hr t, hs, ← hgood]; rfl
    exact locked_fresh (by rw [hnext]) (by rw [hnext])
  | false =>
    have hnot (hat : a + d ≤ t) : ¬ shows good t := fun hx => by
      have hseen := (hrep.held hheld hat).2 hx
      rw [hs] at hseen
      exact Bool.false_ne_true hseen
    -- the mark due since `b`, or since the candidate can be seen, is still to come
    obtain ⟨u, hmu, huG, hshows⟩ := hmarks (max b (a + d))
    have hbu := Nat.le_trans (Nat.le_max_left _ _) hmu
    have hau := Nat.le_trans (Nat.le_max_right _ _) hmu
    have htu : t < u := by
      rcases Nat.lt_trichotomy u t with hlt | rfl | hgt
      · exact absurd hshows (hnone u hbu hau hlt)
      · exact absurd hshows (hnot hau)
      · exact hgt
    have hnext : r (t + 1) = ⟨good, (r t).count + 1⟩ := by
      rw [hr t, hs, step, if_neg Bool.false_ne_true, if_neg (by omega), hgood]
    refine ⟨by rw [hnext], a, b, hab, by rw [hnext]; dsimp only; omega, ?_, ?_⟩
    · intro x h1 h2
      rcases Nat.le_succ_iff.1 h2 with h2 | rfl
      · exact hheld x h1 h2
      · rw [hnext]
    · intro x h1 h2 h3
      rcases Nat.lt_succ_iff_lt_or_eq.1 h3 with h3 | rfl
      · exact hnone x h1 h2 h3
      · exact hnot h2

theorem Locked.forever (hr : Follows (step N K) seen r) (hrep : Reports d shows r seen)
    (hmarks : ∀ t, ∃ u, t ≤ u ∧ u < t + G ∧ shows good u) (hK : d + G ≤ K) {t u : Nat} (h : Locked d good shows r t)
    (htu : t ≤ u) : Locked d good shows r u := by
  induction htu with
  | refl => exact h
  | step _ ih => exact ih.succ hr hrep hmarks hK

/-- From a time at which the candidate has been held long enough a quiet
stretch counts up, and no further than to the next candidate. -/
theorem quiet_run (hr : Follows (step N K) seen r) (hrep : Reports d shows r seen) {t a c : Nat} (htd : t + d ≤ a)
    (hheld : ∀ u, t ≤ u → u ≤ a → (r u).candidate = c) (hquiet : ∀ u, a ≤ u → u < a + K → ¬ shows c u) {k : Nat}
    (hk : (r a).count + k < K) :
    (r (a + k)).count = (r a).count + k ∧ ∀ u, t ≤ u → u ≤ a + k → (r u).candidate = c := by
  induction k with
  | zero => exact ⟨rfl, hheld⟩
  | succ k ih =>
    obtain ⟨hcount, hheld⟩ := ih (by omega)
    have hs : seen (a + k) = false := by
      rw [Bool.eq_false_iff]
      exact fun hs => hquiet _ (by omega) (by omega) ((hrep.held hheld (by omega)).1 hs)
    have hnext : r (a + k + 1) = ⟨c, (r a).count + k + 1⟩ := by
      rw [hr (a + k), hs, step, if_neg Bool.false_ne_true, if_neg (by omega), hcount,
        hheld _ (by omega) (Nat.le_refl _)]
    rw [← Nat.add_assoc, hnext]
    refine ⟨rfl, fun u h1 h2 => ?_⟩
    rcases Nat.le_succ_iff.1 h2 with h2 | rfl
    · exact hheld u h1 h2
    · rw [hnext]

/-- A candidate is held, or the first move from it is to the next one. -/
theorem held_or_moves (hr : Follows (step N K) seen r) (t n : Nat) :
    (∀ u, t ≤ u → u ≤ t + n → (r u).candidate = (r t).candidate) ∨
      ∃ u, t < u ∧ u ≤ t + n ∧ r u = ⟨next N (r t).candidate, 0⟩ := by
  induction n with
  | zero => exact .inl fun u h1 h2 => by rw [Nat.le_antisymm h2 h1, Nat.add_zero]
  | succ n ih =>
    rcases ih with hheld | ⟨u, htu, hu, hnext⟩
    · rcases step_cases (N := N) (K := K) (r (t + n)) (seen (t + n)) with hsame | hnext <;> rw [← hr (t + n)] at *
      · refine .inl fun u h1 h2 => ?_
        rcases Nat.le_succ_iff.1 h2 with h2 | rfl
        · exact hheld u h1 h2
        · exact hsame.trans (hheld _ (Nat.le_add_right t n) (Nat.le_refl _))
      · rw [hheld _ (Nat.le_add_right t n) (Nat.le_refl _)] at hnext
        exact .inr ⟨t + n + 1, by omega, Nat.le_refl _, hnext⟩
    · exact .inr ⟨u, htu, Nat.le_succ_of_le hu, hnext⟩

section
variable (hr : Follows (step N K) seen r) (hrep : Reports d shows r seen)
  (hquiet : ∀ t, ∃ u, t ≤ u ∧ u < t + F ∧ ∀ v, u ≤ v → v < u + d + K → ∀ c < N, c ≠ good → ¬ shows c v)
  (hmarks : ∀ t, ∃ u, t ≤ u ∧ u < t + G ∧ shows good u) (hK : d + G ≤ K) (hg : good < N)
  (hin : ∀ u, InRange N K (r u))
include hr hrep hin

include hquiet in
/-- A wrong candidate is left in the next quiet stretch at the latest. -/
theorem leaves {t : Nat} (hne : (r t).candidate ≠ good) :
    ∃ u, t < u ∧ u ≤ t + (F + d + K) ∧ r u = ⟨next N (r t).candidate, 0⟩ := by
  obtain ⟨a, hta, haF, hquiet⟩ := hquiet t
  rcases held_or_moves hr t (a + d - t) with hheld | ⟨u, htu, hu, hnext⟩
  · have hlt := (hin (a + d)).count
    obtain ⟨hlast, hheld⟩ := quiet_run hr hrep (a := a + d) (by omega) (fun u h1 h2 => hheld u h1 (by omega))
      (fun v h1 h2 => hquiet v (by omega) h2 _ (hin t).candidate hne) (k := K - 1 - (r (a + d)).count) (by omega)
    have hs : seen (a + d + (K - 1 - (r (a + d)).count)) = false := by
      rw [Bool.eq_false_iff]
      exact fun hs => hquiet _ (by omega) (by omega) _ (hin t).candidate hne ((hrep.held hheld (by omega)).1 hs)
    have hnext := hr (a + d + (K - 1 - (r (a + d)).count))
    rw [hs, step, if_neg Bool.false_ne_true, if_pos (by omega), hheld _ (by omega) (Nat.le_refl _)] at hnext
    exact ⟨_, by omega, by omega, hnext⟩
  · exact ⟨u, htu, by omega, hnext⟩

include hquiet hg in
theorem nearer {t : Nat} (hne : (r t).candidate ≠ good) :
    ∃ u, t < u ∧ u ≤ t + (F + d + K) ∧ (r u).count = 0 ∧
      away N good (r u).candidate + 1 = away N good (r t).candidate := by
  obtain ⟨u, htu, hu, hnext⟩ := leaves hr hrep hquiet hin hne
  exact ⟨u, htu, hu, by rw [hnext], by rw [hnext, away_next hg (hin t).candidate hne]⟩

include hquiet hg in
/-- The quiet stretches end the hunt one candidate at a time. -/
theorem arrives (n : Nat) {t : Nat} (hn : away N good (r t).candidate = n + 1) :
    ∃ u, t ≤ u ∧ u ≤ t + (n + 1) * (F + d + K) ∧ (r u).candidate = good ∧ (r u).count = 0 := by
  have hne : (r t).candidate ≠ good := by
    intro heq
    rw [heq, away, if_pos (Nat.le_refl good), Nat.sub_self] at hn
    exact absurd hn (Nat.succ_ne_zero n).symm
  obtain ⟨u, htu, hu, hcount, haway⟩ := nearer hr hrep hquiet hg hin hne
  induction n generalizing t u with
  | zero =>
    exact ⟨u, Nat.le_of_lt htu, by omega, away_eq_zero (hin u).candidate (by omega), hcount⟩
  | succ n ih =>
    have hne' : (r u).candidate ≠ good := by
      intro heq
      rw [heq, away, if_pos (Nat.le_refl good)] at haway
      omega
    obtain ⟨v, huv, hv, hcount', haway'⟩ := nearer hr hrep hquiet hg hin hne'
    obtain ⟨x, hux, hx, hgood⟩ := ih (by omega) hne' v huv hv hcount' haway'
    refine ⟨x, by omega, ?_, hgood⟩
    rw [Nat.succ_mul]
    omega

include hquiet hmarks hK hg in
/-- From any state on the hunt ends, within the time in which every candidate
can be tried, and the right one is held from then on. -/
theorem converges (t : Nat) :
    ∃ u, t ≤ u ∧ u ≤ t + N * (F + d + K) ∧ ∀ v, u ≤ v → Locked d good shows r v := by
  have hstays {u : Nat} (hgood : (r u).candidate = good) (hcount : (r u).count = 0) :
      ∀ v, u ≤ v → Locked d good shows r v :=
    fun v huv => Locked.forever hr hrep hmarks hK (locked_fresh hgood hcount) huv
  have hwrong {t : Nat} (hne : (r t).candidate ≠ good) :
      ∃ u, t ≤ u ∧ u ≤ t + away N good (r t).candidate * (F + d + K) ∧ ∀ v, u ≤ v → Locked d good shows r v := by
    cases hn : away N good (r t).candidate with
    | zero => exact absurd (away_eq_zero (hin t).candidate hn) hne
    | succ n =>
      obtain ⟨u, htu, hu, hgood, hcount⟩ := arrives hr hrep hquiet hg hin n hn
      exact ⟨u, htu, hu, hstays hgood hcount⟩
  have hN : F + d + K ≤ N * (F + d + K) := Nat.le_mul_of_pos_left _ (Nat.lt_of_le_of_lt (Nat.zero_le _) hg)
  by_cases hgood : (r t).candidate = good
  · rcases held_or_moves hr t (d + G - 1) with hheld | ⟨u, htu, hu, hnext⟩
    · -- it is held until a mark comes in
      obtain ⟨u, htu, huG, hshows⟩ := hmarks (t + d)
      have hseen := (hrep.held (fun v h1 h2 => (hheld v h1 (by omega)).trans hgood) htu).2 hshows
      have hnext : r (u + 1) = ⟨good, 0⟩ := by
        rw [hr u, hseen, ← hgood, ← hheld u (by omega) (by omega)]
        rfl
      exact ⟨u + 1, by omega, by omega, hstays (by rw [hnext]) (by rw [hnext])⟩
    · -- it was about to be left, and all the others come first
      by_cases hsame : (r u).candidate = good
      · exact ⟨u, Nat.le_of_lt htu, by omega, hstays hsame (by rw [hnext])⟩
      · obtain ⟨v, huv, hv, hlocked⟩ := hwrong hsame
        have haway := away_next_good hg
        have hcand : (r u).candidate = next N good := by rw [hnext, hgood]
        rw [hcand] at hv
        have hmul : (away N good (next N good) + 1) * (F + d + K) = N * (F + d + K) := by rw [haway]
        rw [Nat.succ_mul] at hmul
        exact ⟨v, by omega, by omega, hlocked⟩
  · obtain ⟨u, htu, hu, hlocked⟩ := hwrong hgood
    have hle : away N good (r t).candidate ≤ N := by
      have hc := (hin t).candidate
      unfold away
      split <;> omega
    exact ⟨u, htu, Nat.le_trans hu (Nat.add_le_add_left (Nat.mul_le_mul_right _ hle) t), hlocked⟩

end

end Hunt
