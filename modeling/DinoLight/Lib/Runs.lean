import Mathlib.Data.List.GetD
import Mathlib.Data.Nat.Find
import Mathlib.Tactic.Common
/-!
# Maximal runs

Where a sampled signal starts and stops a run of equal samples. A signal whose
runs are all `Long` moves slowly: every sample lies in a run (`exists_begins`),
and from where it begins the run lasts (`Long.lasts`).
-/

namespace Runs

variable {α : Type} {w : Nat → α}

/-- A run of equal samples begins at `a`. -/
def Begins (w : Nat → α) (a : Nat) : Prop := ∀ u, u + 1 = a → w u ≠ w a

/-- The samples of the cycles `a` to `c - 1` are a maximal run. -/
structure Run (w : Nat → α) (a c : Nat) : Prop where
  begins : Begins w a
  lt : a < c
  same : ∀ t, a ≤ t → t < c → w t = w a
  ends : w c ≠ w a

/-- Every maximal run is at least `W` samples long. -/
def Long (W : Nat) (w : Nat → α) : Prop := ∀ a c, Run w a c → a + W ≤ c

theorem Long.mono {V W : Nat} (h : Long W w) (hVW : V ≤ W) : Long V w :=
  fun a c hrun => Nat.le_trans (Nat.add_le_add_left hVW a) (h a c hrun)

/-- Every sample lies in a run that has begun. -/
theorem exists_begins (w : Nat → α) (t : Nat) : ∃ a ≤ t, Begins w a ∧ ∀ u, a ≤ u → u ≤ t → w u = w a := by
  induction t with
  | zero =>
    refine ⟨0, Nat.le_refl 0, fun u hu => absurd hu (Nat.succ_ne_zero u), fun u _ hu => ?_⟩
    rw [Nat.le_zero.1 hu]
  | succ t ih =>
    by_cases h : w (t + 1) = w t
    · obtain ⟨a, ha, hbegins, hsame⟩ := ih
      refine ⟨a, Nat.le_succ_of_le ha, hbegins, fun u hau hut => ?_⟩
      rcases Nat.le_succ_iff.1 hut with hut | rfl
      · exact hsame u hau hut
      · rw [h, hsame t ha (Nat.le_refl t)]
    · refine ⟨t + 1, Nat.le_refl _, fun u hu => ?_, fun u hau hut => by rw [Nat.le_antisymm hut hau]⟩
      rw [Nat.succ.inj hu]
      exact fun h' => h h'.symm

/-- A long run lasts from where it begins. -/
theorem Long.lasts {W a : Nat} (h : Long W w) (ha : Begins w a) {u : Nat} (hau : a ≤ u) (hu : u < a + W) :
    w u = w a := by
  classical
  by_contra hne
  have hex : ∃ c, a ≤ c ∧ w c ≠ w a := ⟨u, hau, hne⟩
  obtain ⟨hac, hc⟩ := Nat.find_spec hex
  have hrun : Run w a (Nat.find hex) := by
    refine ⟨ha, Nat.lt_of_le_of_ne hac fun heq => hc (by rw [← heq]), fun t hat ht => ?_, hc⟩
    by_contra hne'
    exact Nat.find_min hex ht ⟨hat, hne'⟩
  have hlong := h a (Nat.find hex) hrun
  have hmin := Nat.find_min' hex ⟨hau, hne⟩
  omega

/-- After a change a long run begins. -/
theorem Long.lasts_after {W T : Nat} (h : Long W w) (hT : w T ≠ w (T + 1)) {u : Nat} (hTu : T < u)
    (hu : u ≤ T + W) : w u = w (T + 1) := by
  apply h.lasts _ hTu (by omega)
  intro v hv
  rwa [Nat.succ.inj hv]

/-- Changes are a run apart. -/
theorem Long.apart {W m n : Nat} (h : Long W w) (hm : w m ≠ w (m + 1)) (hn : w n ≠ w (n + 1)) (hmn : m < n) :
    m + W ≤ n := by
  by_contra hlt
  have h1 := h.lasts_after hm hmn (by omega)
  have h2 := h.lasts_after hm (u := n + 1) (by omega) (by omega)
  exact hn (h1.trans h2.symm)

theorem long_const (W : Nat) (v : α) : Long W fun _ => v := fun _ _ hrun => absurd rfl hrun.ends

/-- A long level in front of slow samples. -/
theorem Long.cons {W n : Nat} {v : α} (hn : W ≤ n) (hv : ∀ t < n, w t = v) (h : Long W fun t => w (n + t)) :
    Long W w := by
  rintro a c ⟨hbegins, hac, hsame, hends⟩
  by_cases ha : a < n
  · -- the run starts with the samples, and goes on to their end
    have hzero : a = 0 := by
      cases a with
      | zero => rfl
      | succ a => exact absurd ((hv a (by omega)).trans (hv (a + 1) ha).symm) (hbegins a rfl)
    have hnc : n ≤ c := by
      by_contra hcn
      exact hends ((hv c (by omega)).trans (hv a ha).symm)
    omega
  · obtain ⟨a, rfl⟩ := Nat.exists_eq_add_of_le (Nat.not_lt.1 ha)
    obtain ⟨c, rfl⟩ := Nat.exists_eq_add_of_le (show n ≤ c by omega)
    have hrun : Run (fun t => w (n + t)) a c := by
      refine ⟨fun u hu => hbegins (n + u) (by omega), by omega, fun t h1 h2 => hsame (n + t) (by omega) (by omega), hends⟩
    have hlong := h a c hrun
    omega

/-- A list of samples with a level in front, `tail` from its end on. -/
theorem Long.append {β : Type} {g : β → α} {l l' : List β} {tail : β} {W : Nat} {v : α} (hn : W ≤ l.length)
    (hv : ∀ x ∈ l, g x = v) (h : Long W fun t => g (l'.getD t tail)) : Long W fun t => g ((l ++ l').getD t tail) := by
  apply Long.cons hn (v := v)
  · intro t ht
    rw [List.getD_append _ _ _ _ ht, List.getD_eq_getElem _ _ ht]
    exact hv _ (List.getElem_mem ht)
  · simpa only [List.getD_append_right _ _ _ _ (Nat.le_add_right _ _), Nat.add_sub_cancel_left] using h

/-! ## Delays -/

/-- `f` is `g` some cycles later. -/
def Delayed (D : Nat) (f g : Nat → α) : Prop := ∀ t, f (t + D) = g t

/-- Low before cycle `T` and high from then on. -/
def stepAt (T t : Nat) : Bool := decide (T ≤ t)

theorem long_stepAt {W T : Nat} (hT : W ≤ T) : Long W (stepAt T) := by
  rintro a c ⟨hbegins, hlt, -, hends⟩
  by_cases ha : T ≤ a
  · exact absurd (by simp [stepAt, ha, Nat.le_trans ha (Nat.le_of_lt hlt)]) hends
  · by_cases hc : T ≤ c
    · -- the run is the low one, so it began in cycle 0
      cases a with
      | zero => omega
      | succ a => exact absurd (by simp only [stepAt, decide_eq_decide]; omega) (hbegins a rfl)
    · exact absurd (by simp [stepAt, ha, hc]) hends

/-- A delayed step shows by how much it is delayed. -/
theorem Delayed.eq_of_stepAt {f : Nat → Bool} {T D E : Nat} (hT : 0 < T) (hD : Delayed D f (stepAt T))
    (hE : Delayed E f (stepAt T)) : D = E := by
  have key {D E : Nat} (hD : Delayed D f (stepAt T)) (hE : Delayed E f (stepAt T)) : E ≤ D := by
    by_contra hlt
    have hlow := hE (T - 1)
    rw [show T - 1 + E = T - 1 + (E - D) + D by omega, hD] at hlow
    simp only [stepAt, decide_eq_decide] at hlow
    omega
  exact Nat.le_antisymm (key hE hD) (key hD hE)

end Runs
