import DinoLight.Snapshots
/-!
# The pixel handshake

Whatever `run` does, an acknowledgement meets a sequencer that waits for it,
and a driver in a frame has a sequencer that will deliver. A wait need not end:
a `run` in the reset time starts the sequencer alone, and its wait lasts until
a `run` finds the driver idle.
-/
open Clocked

namespace DinoLight.Handshake
open NeopixelTop Frames
open Snapshots (runs runs_extend)
open NeoPixelDriver (Resting)

variable {num_blocks : Nat}

/-- The sequencer waits for an acknowledgement. -/
def Waits (s : Regs num_blocks) : Prop :=
  s.pixelGenerator.state = .waitForAck ∨ s.pixelGenerator.state = .waitForLastAck

/-- The driver waits for a pixel or is sending one. -/
def InPixel (s : Regs num_blocks) : Prop :=
  s.neopixel_drive.state = .waitForValid ∨ s.neopixel_drive.state = .writeState ∨ s.neopixel_drive.state = .t0H ∨
    s.neopixel_drive.state = .t1H ∨ s.neopixel_drive.state = .finishCycle ∨ s.neopixel_drive.state = .incCount

/-- Every acknowledgement is for a wait, every wait ends with its one
acknowledgement, and a driver that asks has a sequencer that will answer. -/
structure Answered (s : Nat → Regs num_blocks) : Prop where
  acked : ∀ n, (s n).neopixel_drive.ack_pixel = true →
    Waits (s n) ∧ ((s n).pixelGenerator.last_pixel = true ↔ (s n).pixelGenerator.state = .waitForLastAck)
  ends : ∀ n, Waits (s n) → ∃ m, n ≤ m ∧
    (∀ t, n ≤ t → t ≤ m → (s t).pixelGenerator.state = (s n).pixelGenerator.state) ∧
    (∀ t, n ≤ t → t < m → (s t).neopixel_drive.ack_pixel = false) ∧
    (s m).neopixel_drive.ack_pixel = true ∧ ¬ Waits (s (m + 1))
  delivers : ∀ n, InPixel (s n) → (s n).pixelGenerator.state ≠ .idle

/-! ## Safety -/

theorem ack_waits {s : Regs num_blocks} (h : Inv s) (ha : s.neopixel_drive.ack_pixel = true) :
    Waits s ∧ (s.pixelGenerator.last_pixel = true ↔ s.pixelGenerator.state = .waitForLastAck) := by
  have hack := (ack_pixel_iff h).1 ha
  exact ⟨(h.acked hack).imp_left And.left, last_pixel_iff h hack⟩

theorem InPixel.delivers {s : Regs num_blocks} (h : Inv s) (hp : InPixel s) : s.pixelGenerator.state ≠ .idle := by
  apply h.busy
  rintro (hr | hr) <;> simp [InPixel, hr] at hp

theorem waits_keep {s : Regs num_blocks} (i : Inputs num_blocks) (hw : Waits s)
    (ha : s.neopixel_drive.ack_pixel = false) : (step s i).pixelGenerator.state = s.pixelGenerator.state := by
  rcases hw with h | h <;> simp [step, BlockToPixel.step, BlockToPixel.nextStateDecode, generatorInputs, h, ha]

theorem waits_leave {s : Regs num_blocks} (i : Inputs num_blocks) (hw : Waits s)
    (ha : s.neopixel_drive.ack_pixel = true) : ¬ Waits (step s i) := by
  unfold Waits
  rcases hw with h | h <;> simp [step, BlockToPixel.step, BlockToPixel.nextStateDecode, generatorInputs, h, ha]

section Runs
variable {s : Nat → Regs num_blocks} {w : Nat → Inputs num_blocks}

theorem waits_until (hs : Follows step w s) {n m : Nat} (hw : Waits (s n)) (hnm : n ≤ m)
    (ha : ∀ t, n ≤ t → t < m → (s t).neopixel_drive.ack_pixel = false) :
    (s m).pixelGenerator.state = (s n).pixelGenerator.state := by
  induction hnm with
  | refl => rfl
  | @step m hnm ih =>
    have hm := ih fun t h1 h2 => ha t h1 (Nat.lt_succ_of_lt h2)
    have hwm : Waits (s m) := by
      unfold Waits
      rwa [hm]
    rw [hs m, waits_keep _ hwm (ha m hnm (Nat.lt_succ_self m)), hm]

/-- A wait during which an acknowledgement comes ends with the first one. -/
theorem wait_ends (hs : Follows step w s) {n : Nat} (hw : Waits (s n))
    (h : ∃ m, n ≤ m ∧ (s m).neopixel_drive.ack_pixel = true) : ∃ m, n ≤ m ∧
      (∀ t, n ≤ t → t ≤ m → (s t).pixelGenerator.state = (s n).pixelGenerator.state) ∧
      (∀ t, n ≤ t → t < m → (s t).neopixel_drive.ack_pixel = false) ∧
      (s m).neopixel_drive.ack_pixel = true ∧ ¬ Waits (s (m + 1)) := by
  obtain ⟨hnm, hack⟩ := Nat.find_spec h
  have hfirst (t : Nat) (h1 : n ≤ t) (h2 : t < Nat.find h) : (s t).neopixel_drive.ack_pixel = false := by
    by_contra ha
    exact Nat.find_min h h2 ⟨h1, eq_true_of_ne_false ha⟩
  have hsame (t : Nat) (h1 : n ≤ t) (h2 : t ≤ Nat.find h) :=
    waits_until hs hw h1 fun t' h1' h2' => hfirst t' h1' (Nat.lt_of_lt_of_le h2' h2)
  refine ⟨Nat.find h, hnm, hsame, hfirst, hack, ?_⟩
  have hwm : Waits (s (Nat.find h)) := by
    unfold Waits
    rwa [hsame _ hnm (Nat.le_refl _)]
  rw [hs]
  exact waits_leave _ hwm hack

/-! ## Liveness -/

/-- A driver in a frame acknowledges something yet. -/
theorem frame_acks (hN : 0 < num_blocks) (hs : Follows step w s) (h0 : Inv (s 0)) {n : Nat}
    (hb : ¬ Resting (s n).neopixel_drive) : ∃ m, n ≤ m ∧ (s m).neopixel_drive.ack_pixel = true := by
  obtain ⟨m, hm, hd, hin⟩ := Progress.frame_ends hN hs h0 hb
  obtain ⟨k, rfl⟩ : ∃ k, m = k + 1 := ⟨m - 1, by omega⟩
  have hinv := hs.inv h0 (fun _ i => step_inv hN i) k
  rw [hs k] at hd
  have hend := frame_end hinv (hin k (by omega) (Nat.lt_succ_self k)) (.inr hd)
  exact ⟨k, by omega, (ack_pixel_iff hinv).2 hend.1⟩

/-- A sequencer that is active while the driver rests was started alone, in the
reset time, and no `run` has found the driver idle since. -/
theorem started_alone (hN : 0 < num_blocks) (hs : Follows step w s) (h0 : Inv (s 0))
    (hidle : (s 0).pixelGenerator.state = .idle) {n : Nat} (hr : Resting (s n).neopixel_drive)
    (hg : (s n).pixelGenerator.state ≠ .idle) :
    ∃ L, L < n ∧ Loads (s L) (w L) ∧ (s L).neopixel_drive.state = .display ∧
      ∀ t, L < t → t < n → ¬ ((s t).neopixel_drive.state = .idle ∧ (w t).run = true) := by
  induction n with
  | zero => exact absurd hidle hg
  | succ n ih =>
    have hinv := hs.inv h0 (fun _ i => step_inv hN i) n
    have hasleep : ¬ ((s n).neopixel_drive.state = .idle ∧ (w n).run = true) := by
      rintro ⟨hd, hrun⟩
      rw [hs n] at hr
      exact wake_busy hd hrun hr
    by_cases hl : Loads (s n) (w n)
    · refine ⟨n, Nat.lt_succ_self n, hl, ?_, fun t h1 h2 => absurd h2 (by omega)⟩
      -- both would have started together
      have hrest : Resting (s n).neopixel_drive := by
        by_contra hb
        exact hinv.busy hb hl.1
      rcases hrest with hd | hd
      · exact absurd ⟨hd, hl.2⟩ hasleep
      · exact hd
    · have hg' : (s n).pixelGenerator.state ≠ .idle := fun h => hg (hs n ▸ idle_keep h hl)
      have hr' : Resting (s n).neopixel_drive := by
        by_contra hb
        rw [hs n] at hr hg
        exact hg (frame_end hinv hb hr).2.2.2
      obtain ⟨L, hL, hload, hd, hnone⟩ := ih hr' hg'
      refine ⟨L, by omega, hload, hd, ?_⟩
      intro t h1 h2
      rcases Nat.lt_succ_iff_lt_or_eq.1 h2 with h2 | rfl
      · exact hnone t h1 h2
      · exact hasleep

/-- Every `run` that starts the sequencer alone is followed by one that wakes the driver. -/
def Followed (s : Nat → Regs num_blocks) (w : Nat → Inputs num_blocks) : Prop :=
  ∀ n, (w n).run = true → (s n).pixelGenerator.state = .idle → (s n).neopixel_drive.state = .display →
    ∃ m, n < m ∧ (w m).run = true ∧ (s m).neopixel_drive.state = .idle

theorem acked_of_followed (hN : 0 < num_blocks) (hs : Follows step w s) (h0 : Inv (s 0))
    (hidle : (s 0).pixelGenerator.state = .idle) (hf : Followed s w) {n : Nat} (hw : Waits (s n)) :
    ∃ m, n ≤ m ∧ (s m).neopixel_drive.ack_pixel = true := by
  by_cases hr : Resting (s n).neopixel_drive
  · have hg : (s n).pixelGenerator.state ≠ .idle := by
      rcases hw with h | h <;> simp [h]
    obtain ⟨L, hL, hload, hd, hnone⟩ := started_alone hN hs h0 hidle hr hg
    obtain ⟨m, hm, hrun, hwake⟩ := hf L hload.2 hload.1 hd
    have hnm : n ≤ m := by
      by_contra hlt
      exact hnone m hm (by omega) ⟨hwake, hrun⟩
    have hb : ¬ Resting (s (m + 1)).neopixel_drive := by
      rw [hs m]
      exact wake_busy hwake hrun
    obtain ⟨k, hk, hack⟩ := frame_acks hN hs h0 hb
    exact ⟨k, by omega, hack⟩
  · exact frame_acks hN hs h0 hr

/-- Without a `run` in `idle` the driver rests on. -/
theorem rests_on (hs : Follows step w s) {n : Nat} (hr : Resting (s n).neopixel_drive)
    (hnone : ∀ t, n ≤ t → (s t).neopixel_drive.state = .idle → (w t).run = false) {m : Nat} (hnm : n ≤ m) :
    Resting (s m).neopixel_drive := by
  induction hnm with
  | refl => exact hr
  | @step m hnm ih =>
    by_contra hb
    rw [hs m] at hb
    obtain ⟨hd, hrun⟩ := NeoPixelDriver.wakes ih hb
    cases (hnone m hnm hd).symm.trans hrun

/-- Without acknowledgements an active sequencer comes to wait for one. -/
theorem waits_soon (hs : Follows step w s) {n : Nat} (hinv : ∀ t, Inv (s t))
    (hg : (s n).pixelGenerator.state ≠ .idle) (ha : ∀ t, n ≤ t → (s t).neopixel_drive.ack_pixel = false) :
    ∃ m, n ≤ m ∧ Waits (s m) := by
  induction hk : Progress.distance (s n).pixelGenerator using Nat.strongRecOn generalizing n with
  | ind k ih =>
    have hgen := (hinv n).generator
    have hna : (generatorInputs (s n) (w n)).advance_pixel = false := ha n (Nat.le_refl n)
    cases hv : (s n).pixelGenerator.valid_pixel
    · have hd := (Progress.distance_step hgen hg hna).2 hv
      have hg' : (s (n + 1)).pixelGenerator.state ≠ .idle := by
        rw [hs n]
        intro h
        rcases (BlockToPixel.idle_step _ _).1 h with ⟨h, -⟩ | ⟨-, h⟩
        · exact hg h
        · rw [hna] at h
          cases h
      have hs' : (s (n + 1)).pixelGenerator = BlockToPixel.step (s n).pixelGenerator (generatorInputs (s n) (w n)) := by
        rw [hs n]
        rfl
      obtain ⟨m, hm, hw⟩ := ih _ (hk ▸ hs' ▸ hd) hg' (fun t ht => ha t (by omega)) rfl
      exact ⟨m, by omega, hw⟩
    · refine ⟨n + 1, Nat.le_succ n, ?_⟩
      rw [hs n]
      exact (BlockToPixel.offer_step hgen hv hna).imp_left And.left

/-- If every wait ends, no `run` starts the sequencer alone for good. -/
theorem followed_of_answered (hN : 0 < num_blocks) (hs : Follows step w s) (h0 : Inv (s 0)) (h : Answered s) :
    Followed s w := by
  intro n hrun hg hd
  by_contra hnone
  have hinv := hs.inv h0 fun _ i => step_inv hN i
  have hrest (t : Nat) (ht : n ≤ t) : Resting (s t).neopixel_drive := by
    refine rests_on hs (.inr hd) ?_ ht
    intro t ht hidle
    by_contra hr
    rcases Nat.eq_or_lt_of_le ht with rfl | hlt
    · cases hd.symm.trans hidle
    · exact hnone ⟨t, hlt, eq_true_of_ne_false hr, hidle⟩
  have hack (t : Nat) (ht : n ≤ t) : (s t).neopixel_drive.ack_pixel = false := by
    by_contra ha
    have hstate := (ack_pixel_iff (hinv t)).1 (eq_true_of_ne_false ha)
    rcases hrest t ht with h | h <;> cases hstate.symm.trans h
  have hstart : (s (n + 1)).pixelGenerator.state ≠ .idle := by
    rw [hs n]
    intro h
    cases (BlockToPixel.start_step hg hrun).symm.trans h
  obtain ⟨m, hm, hw⟩ := waits_soon hs hinv hstart fun t ht => hack t (by omega)
  obtain ⟨k, hk, -, -, ha, -⟩ := h.ends m hw
  rw [hack k (by omega)] at ha
  cases ha

end Runs

/-- The handshake answers every wait exactly if every `run` that starts the
sequencer alone, in the reset time, is followed by one that finds the driver idle. -/
theorem answered_iff_followed (hN : 0 < num_blocks) (w : Nat → Inputs num_blocks) :
    let s := after step powerUp w
    Answered s ↔ ∀ n, (w n).run = true → (s n).pixelGenerator.state = .idle → (s n).neopixel_drive.state = .display →
      ∃ m, n < m ∧ (w m).run = true ∧ (s m).neopixel_drive.state = .idle := by
  intro s
  have hs : Follows step w s := after_follows
  have hinv := hs.inv powerUp_inv fun _ i => step_inv hN i
  constructor
  · exact followed_of_answered hN hs powerUp_inv
  · intro hf
    refine ⟨fun n ha => ack_waits (hinv n) ha, ?_, fun n hp => hp.delivers (hinv n)⟩
    intro n hw
    exact wait_ends hs hw (acked_of_followed hN hs powerUp_inv rfl hf hw)

/-- A `run` in the reset time of a frame, in cycle `D`, is answered by way of a later one. -/
theorem late_run_answered : ∃ D K, D < K ∧
    let s := after step powerUp (runs [0, D, K])
    (s D).pixelGenerator.state = .idle ∧ (s D).neopixel_drive.state = .display ∧ Answered s := by
  have hN : 0 < 2 := Nat.two_pos
  have hfirst : Follows step (runs [0]) (after step powerUp (runs [0])) := after_follows
  obtain ⟨D, hrun⟩ := Progress.run_completes hN hfirst powerUp_inv (a := 0) rfl rfl
  have hsame : ∀ n ≤ D, after step powerUp (runs [0, D]) n = after step powerUp (runs [0]) n := runs_extend [0] D
  have hsecond : Follows step (runs [0, D]) (after step powerUp (runs [0, D])) := after_follows
  have hdisplay : (after step powerUp (runs [0, D]) D).neopixel_drive.state = .display := by
    rw [hsame D (Nat.le_refl D)]
    exact hrun.enters
  obtain ⟨K, hK, hidle, -⟩ := Progress.display_ends hN hsecond powerUp_inv hdisplay
  have hsame' : ∀ n ≤ K, after step powerUp (runs [0, D, K]) n = after step powerUp (runs [0, D]) n :=
    runs_extend [0, D] K
  rw [← hsame' K (Nat.le_refl K)] at hidle
  rw [← hsame' D (Nat.le_of_lt hK)] at hdisplay
  have hg : (after step powerUp (runs [0, D, K]) D).pixelGenerator.state = .idle := by
    rw [hsame' D (Nat.le_of_lt hK), hsame D (Nat.le_refl D)]
    exact hrun.ends hN hfirst powerUp_inv
  refine ⟨D, K, hK, hg, hdisplay, (answered_iff_followed hN (runs [0, D, K])).2 ?_⟩
  intro n hn _ hdn
  simp only [runs, List.mem_cons, List.not_mem_nil, or_false, decide_eq_true_eq] at hn
  rcases hn with rfl | rfl | rfl
  · cases hdn
  · exact ⟨K, hK, by simp [runs], hidle⟩
  · cases hidle.symm.trans hdn

/-- One block without LEDs, run in cycles 0 and 20, in the reset time of the first frame. -/
def loneRun (n : Nat) : Inputs 1 where
  run := n = 0 ∨ n = 20
  blocks := 0
  block_counts := 0

/-- The second `run` starts the sequencer alone, and nothing ends its wait. -/
theorem lone_run_unanswered : ¬ Answered (after step powerUp loneRun) := by
  intro h
  have hstate : (after step powerUp loneRun 20).pixelGenerator.state = .idle ∧
      (after step powerUp loneRun 20).neopixel_drive.state = .display := by decide +kernel
  obtain ⟨m, hm, hrun, -⟩ := followed_of_answered Nat.one_pos after_follows powerUp_inv h 20 rfl hstate.1 hstate.2
  simp only [loneRun, decide_eq_true_eq] at hrun
  omega

end DinoLight.Handshake
