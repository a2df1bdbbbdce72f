import DinoLight.NeopixelTop
/-!
# Frames on the LED wire

A driver run sends the expansion of one snapshot: the blocks and counts the
sequencer loaded last. The argument follows a run cycle by cycle: the bits
started so far followed by the pending ones are the frame of that snapshot
(`sent_pending`), and the pulses on the wire are the widths of the started
bits (`run_onWire`).
-/
open Clocked Pulses

namespace DinoLight.Frames
open NeopixelTop
open NeoPixelDriver (Resting OnWire started width)

variable {num_blocks : Nat} {s : Nat → Regs num_blocks} {w : Nat → Inputs num_blocks}

/-- The most recent edge before cycle `n` at which the sequencer loaded. -/
structure LastLoad (s : Nat → Regs num_blocks) (w : Nat → Inputs num_blocks) (n L : Nat) : Prop where
  loads : Loads (s L) (w L)
  before : L < n
  latest : ∀ t, L < t → t < n → ¬ Loads (s t) (w t)

/-- A completed run of the driver: it leaves `idle` at the edge after cycle `a`
and is in `display` for the first time after that in cycle `e`. -/
structure DriverRun (s : Nat → Regs num_blocks) (a e : Nat) : Prop where
  leaves : (s a).neopixel_drive.state = .idle ∧ (s (a + 1)).neopixel_drive.state ≠ .idle
  lt : a < e
  within : ∀ t, a < t → t < e → (s t).neopixel_drive.state ≠ .display
  enters : (s e).neopixel_drive.state = .display

/-- The LED wire in the cycles of a run. -/
def wire (s : Nat → Regs num_blocks) (a e : Nat) : List Bool :=
  window (fun t => (s t).neopixel_drive.data_out) (a + 1) (e - a)

/-- The pulses of the frame that `blocks` and `counts` describe. -/
def framePulses (blocks : BitVec (num_blocks * 24)) (counts : BitVec (num_blocks * 8)) : List Nat :=
  (frameBits blocks counts).map width

/-! ## Loads -/

theorem LastLoad.succ {n L : Nat} (h : LastLoad s w n L) (hn : ¬ Loads (s n) (w n)) : LastLoad s w (n + 1) L where
  loads := h.loads
  before := Nat.lt_succ_of_lt h.before
  latest t h1 h2 := by
    rcases Nat.lt_succ_iff_lt_or_eq.1 h2 with h2 | rfl
    · exact h.latest t h1 h2
    · exact hn

theorem LastLoad.of_loads {n : Nat} (h : Loads (s n) (w n)) : LastLoad s w (n + 1) n :=
  ⟨h, Nat.lt_succ_self n, fun t h1 h2 => absurd h2 (by omega)⟩

theorem LastLoad.unique {n L L' : Nat} (h : LastLoad s w n L) (h' : LastLoad s w n L') : L = L' := by
  rcases Nat.lt_trichotomy L L' with hlt | heq | hlt
  · exact absurd h'.loads (h.latest L' hlt h'.before)
  · exact heq
  · exact absurd h.loads (h'.latest L hlt h.before)

/-- The frame pending between driver runs is that of the last load. -/
theorem pending_resting (hN : 0 < num_blocks) (hs : Follows step w s) (h0 : Inv (s 0))
    (hidle : (s 0).pixelGenerator.state = .idle) (n : Nat) (hg : (s n).pixelGenerator.state ≠ .idle) :
    ∃ L, LastLoad s w n L ∧
      (Resting (s n).neopixel_drive → pending (s n) = frameBits (w L).blocks (w L).block_counts) := by
  induction n with
  | zero => exact absurd hidle hg
  | succ n ih =>
    have hinv := hs.inv h0 (fun _ i => step_inv hN i) n
    by_cases hl : Loads (s n) (w n)
    · exact ⟨n, .of_loads hl, fun _ => by rw [hs n, pending_load hN hinv hl]⟩
    · have hg' : (s n).pixelGenerator.state ≠ .idle := fun h => hg (hs n ▸ idle_keep h hl)
      obtain ⟨L, hL, hp⟩ := ih hg'
      refine ⟨L, hL.succ hl, ?_⟩
      intro hr
      rw [hs n] at hr hg ⊢
      -- a frame that ended here would have left the sequencer idle
      have hr' : Resting (s n).neopixel_drive := by
        by_contra hb
        exact hg (frame_end hinv hb hr).2.2.2
      rw [← hp hr', pending_step hN hinv hl, NeoPixelDriver.started_resting hr', List.nil_append]

/-! ## One run of the driver -/

/-- The bits started at the edges of cycles `a .. a + n - 1`. -/
def sentBits (s : Nat → Regs num_blocks) (a n : Nat) : List Bool :=
  collect (fun k => started (s (a + k)).neopixel_drive (s (a + k + 1)).neopixel_drive) n

theorem DriverRun.busy (hN : 0 < num_blocks) (hs : Follows step w s) (h0 : Inv (s 0)) {a e : Nat}
    (hr : DriverRun s a e) {n : Nat} (hn : a + n + 1 < e) : ¬ Resting (s (a + n + 1)).neopixel_drive := by
  induction n with
  | zero =>
    rintro (h | h)
    · exact hr.leaves.2 h
    · exact hr.within _ (by omega) hn h
  | succ n ih =>
    intro h
    have hinv := hs.inv h0 (fun _ i => step_inv hN i) (a + n + 1)
    rw [show a + (n + 1) + 1 = a + n + 1 + 1 by omega, hs] at h
    have hd := (frame_end hinv (ih (by omega)) h).2.2.1
    rw [← hs] at hd
    exact hr.within _ (by omega) hn hd

/-- The driver leaves `idle` on `run` and waits for a pixel first. -/
theorem DriverRun.first (hs : Follows step w s) {a e : Nat} (hr : DriverRun s a e) :
    (w a).run = true ∧ (s (a + 1)).neopixel_drive.state = .waitForValid ∧ a + 1 < e := by
  have hstep := NeoPixelDriver.idle_step _ (driveInputs (s a) (w a)) hr.leaves.1
  have hne := hr.leaves.2
  rw [hs a] at hne
  have hrun : (w a).run = true := by
    by_contra hrun
    exact hne (hstep.trans (by simp [driveInputs, hrun]))
  have hst : (s (a + 1)).neopixel_drive.state = .waitForValid := by
    rw [hs a]
    exact hstep.trans (by simp [driveInputs, hrun])
  refine ⟨hrun, hst, Nat.lt_of_le_of_ne hr.lt ?_⟩
  rintro rfl
  simp [hr.enters] at hst

/-- A run ends with the last acknowledgement, which leaves the sequencer idle. -/
theorem DriverRun.last (hN : 0 < num_blocks) (hs : Follows step w s) (h0 : Inv (s 0)) {a e : Nat}
    (hr : DriverRun s a e) : ∃ n, e = a + n + 1 + 1 ∧ (s (a + n + 1)).neopixel_drive.state = .ack ∧
      (s (a + n + 1)).pixelGenerator.state = .waitForLastAck ∧ (s e).pixelGenerator.state = .idle := by
  have hlt := (hr.first hs).2.2
  obtain ⟨n, rfl⟩ : ∃ n, e = a + n + 1 + 1 := ⟨e - a - 2, by omega⟩
  have hinv := hs.inv h0 (fun _ i => step_inv hN i) (a + n + 1)
  have henter := hr.enters
  rw [hs] at henter
  obtain ⟨hack, hg, -, hidle⟩ := frame_end hinv (hr.busy hN hs h0 (Nat.lt_succ_self _)) (.inr henter)
  exact ⟨n, rfl, hack, hg, by rwa [hs]⟩

/-- During a run, the bits started since it began and the pending ones are the
frame of the last load. -/
theorem sent_pending (hN : 0 < num_blocks) (hs : Follows step w s) (h0 : Inv (s 0))
    (hidle : (s 0).pixelGenerator.state = .idle) {a e : Nat} (hr : DriverRun s a e) {n : Nat} (hn : a + n + 1 < e) :
    ∃ L, LastLoad s w (a + n + 1) L ∧
      sentBits s a (n + 1) ++ pending (s (a + n + 1)) = frameBits (w L).blocks (w L).block_counts := by
  induction n with
  | zero =>
    have hinv := hs.inv h0 (fun _ i => step_inv hN i) a
    have hrest : Resting (s a).neopixel_drive := .inl hr.leaves.1
    have hnone : sentBits s a 1 = [] := by simp [sentBits, collect_succ, NeoPixelDriver.started_resting hrest]
    simp only [Nat.add_zero, Nat.zero_add, hnone, List.nil_append]
    by_cases hl : Loads (s a) (w a)
    · exact ⟨a, .of_loads hl, by rw [hs a, pending_load hN hinv hl]⟩
    · have hg : (s a).pixelGenerator.state ≠ .idle := fun h => hl ⟨h, (hr.first hs).1⟩
      obtain ⟨L, hL, hp⟩ := pending_resting hN hs h0 hidle a hg
      refine ⟨L, hL.succ hl, ?_⟩
      rw [← hp hrest, pending_step hN hinv hl, NeoPixelDriver.started_resting hrest, List.nil_append, hs a]
  | succ n ih =>
    obtain ⟨L, hL, hp⟩ := ih (by omega)
    have hinv := hs.inv h0 (fun _ i => step_inv hN i) (a + n + 1)
    have hl : ¬ Loads (s (a + n + 1)) (w (a + n + 1)) := fun hl =>
      hinv.busy (hr.busy hN hs h0 (by omega)) hl.1
    refine ⟨L, hL.succ hl, ?_⟩
    rw [← hp, pending_step hN hinv hl, ← hs, ← List.append_assoc, sentBits, collect_succ]
    rfl

/-- A run ends with the sequencer waiting for the last acknowledgement; its bits
are the frame of the last load. -/
theorem run_sends (hN : 0 < num_blocks) (hs : Follows step w s) (h0 : Inv (s 0))
    (hidle : (s 0).pixelGenerator.state = .idle) {a e : Nat} (hr : DriverRun s a e) :
    ∃ L, LastLoad s w e L ∧ sentBits s a (e - a) = frameBits (w L).blocks (w L).block_counts := by
  obtain ⟨n, rfl, hack, hg, -⟩ := hr.last hN hs h0
  obtain ⟨L, hL, hp⟩ := sent_pending hN hs h0 hidle hr (Nat.lt_succ_self _)
  have hinv := hs.inv h0 (fun _ i => step_inv hN i) (a + n + 1)
  have hl : ¬ Loads (s (a + n + 1)) (w (a + n + 1)) := fun hl => by cases hg.symm.trans hl.1
  refine ⟨L, hL.succ hl, ?_⟩
  rw [show a + n + 1 + 1 - a = n + 1 + 1 by omega, sentBits, collect_succ, ← hp]
  simp [pending, hack, BlockToPixel.remaining, hg, started, sentBits, ← Nat.add_assoc]

/-- The pulses of a run so far are the widths of the bits started. -/
theorem run_onWire (hs : Follows step w s) (hinv : ∀ n, Inv (s n)) {a : Nat}
    (ha : (s a).neopixel_drive.state = .idle) (n : Nat) :
    OnWire (s (a + n)).neopixel_drive (sentBits s a n)
      (scan (window (fun t => (s t).neopixel_drive.data_out) (a + 1) n)) := by
  induction n with
  | zero => exact .inr ⟨by simp [ha, NeoPixelDriver.highState_ne], rfl⟩
  | succ n ih =>
    have hw := NeoPixelDriver.onWire_step (driveInputs (s (a + n)) (w (a + n))) (hinv (a + n)).drive ih
    rw [window_succ, scan_concat, sentBits, collect_succ, show a + 1 + n = a + n + 1 by omega, ← Nat.add_assoc, hs]
    exact hw

theorem run_pulses (hN : 0 < num_blocks) (hs : Follows step w s) (h0 : Inv (s 0))
    (hidle : (s 0).pixelGenerator.state = .idle) {a e : Nat} (hr : DriverRun s a e) :
    ∃ L, LastLoad s w e L ∧ pulses (wire s a e) = framePulses (w L).blocks (w L).block_counts := by
  obtain ⟨L, hL, hsent⟩ := run_sends hN hs h0 hidle hr
  have hw := run_onWire hs (hs.inv h0 fun _ i => step_inv hN i) hr.leaves.1 (e - a)
  rw [show a + (e - a) = e by have := hr.lt; omega] at hw
  refine ⟨L, hL, pulses_of_scan ?_⟩
  rw [wire, framePulses, ← hsent]
  exact NeoPixelDriver.onWire_low (by simp [hr.enters, NeoPixelDriver.highState_ne]) hw

/-! ## Runs follow loads -/

theorem idle_until_load (hs : Follows step w s) {m : Nat} (hm : (s m).pixelGenerator.state = .idle) (n : Nat)
    (hl : ∀ t, m ≤ t → t < m + n → ¬ Loads (s t) (w t)) : (s (m + n)).pixelGenerator.state = .idle := by
  induction n with
  | zero => exact hm
  | succ n ih =>
    rw [← Nat.add_assoc, hs]
    exact idle_keep (ih fun t h1 h2 => hl t h1 (by omega)) (hl (m + n) (by omega) (by omega))

/-- The sequencer is idle when a run ends. -/
theorem DriverRun.ends (hN : 0 < num_blocks) (hs : Follows step w s) (h0 : Inv (s 0)) {a e : Nat}
    (hr : DriverRun s a e) : (s e).pixelGenerator.state = .idle := by
  obtain ⟨n, -, -, -, hidle⟩ := hr.last hN hs h0
  exact hidle

theorem DriverRun.unique {a e e' : Nat} (hr : DriverRun s a e) (hr' : DriverRun s a e') : e = e' := by
  rcases Nat.lt_trichotomy e e' with h | h | h
  · exact absurd hr.enters (hr'.within e hr.lt h)
  · exact h
  · exact absurd hr'.enters (hr.within e' hr'.lt h)

/-- A run is one of any history that is the same until it ends. -/
theorem DriverRun.congr {s' : Nat → Regs num_blocks} {a e : Nat} (hr : DriverRun s a e) (h : ∀ t ≤ e, s' t = s t) :
    DriverRun s' a e where
  leaves := by
    rw [h a (Nat.le_of_lt hr.lt), h (a + 1) hr.lt]
    exact hr.leaves
  lt := hr.lt
  within t h1 h2 := by
    rw [h t (Nat.le_of_lt h2)]
    exact hr.within t h1 h2
  enters := by
    rw [h e (Nat.le_refl e)]
    exact hr.enters

/-- A later run starts after the earlier one has ended. -/
theorem DriverRun.le_later (hN : 0 < num_blocks) (hs : Follows step w s) (h0 : Inv (s 0)) {a e a' e' : Nat}
    (hr : DriverRun s a e) (hr' : DriverRun s a' e') (ha : a < a') : e ≤ a' := by
  by_contra hea
  obtain ⟨n, rfl⟩ : ∃ n, a' = a + n + 1 := ⟨a' - a - 1, by omega⟩
  exact hr.busy hN hs h0 (by omega) (.inl hr'.leaves.1)

/-- The load a later run sends came after the earlier run had ended. -/
theorem load_after_run (hN : 0 < num_blocks) (hs : Follows step w s) (h0 : Inv (s 0)) {a e a' e' L : Nat}
    (hr : DriverRun s a e) (hr' : DriverRun s a' e') (ha : a < a') (hL : LastLoad s w e' L) : e ≤ L := by
  have hea := hr.le_later hN hs h0 hr' ha
  -- the sequencer is idle when the first run ends and loaded when the second one does
  obtain ⟨k, rfl, -, hg, -⟩ := hr'.last hN hs h0
  by_contra hle
  have hidle := idle_until_load hs (hr.ends hN hs h0) (a' + k + 1 - e) fun t h1 h2 =>
    hL.latest t (by omega) (by omega)
  rw [show e + (a' + k + 1 - e) = a' + k + 1 by omega] at hidle
  cases hg.symm.trans hidle

/-- A driver run that finds the sequencer idle sends the snapshot loaded when it started. -/
theorem lastLoad_start (hN : 0 < num_blocks) (hs : Follows step w s) (h0 : Inv (s 0)) {a e : Nat}
    (hr : DriverRun s a e) (hidle : (s a).pixelGenerator.state = .idle) : LastLoad s w e a where
  loads := ⟨hidle, (hr.first hs).1⟩
  before := hr.lt
  latest t h1 h2 hl := by
    obtain ⟨n, rfl⟩ : ∃ n, t = a + n + 1 := ⟨t - a - 1, by omega⟩
    exact (hs.inv h0 (fun _ i => step_inv hN i) _).busy (hr.busy hN hs h0 h2) hl.1

/-- It shows what is there when it starts. -/
theorem start_shows (hN : 0 < num_blocks) (hs : Follows step w s) (h0 : Inv (s 0))
    (hidle : (s 0).pixelGenerator.state = .idle) {a e : Nat} (hr : DriverRun s a e)
    (hg : (s a).pixelGenerator.state = .idle) :
    pulses (wire s a e) = framePulses (w a).blocks (w a).block_counts := by
  obtain ⟨L, hL, hp⟩ := run_pulses hN hs h0 hidle hr
  rwa [hL.unique (lastLoad_start hN hs h0 hr hg)] at hp

/-- The driver holds the reset time, whatever happens. -/
theorem display_lasts (hs : Follows step w s) {n : Nat} (hd : (s n).neopixel_drive.state = .display) (k : Nat)
    (hk : (s n).neopixel_drive.counter.toNat + k ≤ 2500) : (s (n + k)).neopixel_drive.state = .display ∧
      (s (n + k)).neopixel_drive.counter.toNat = (s n).neopixel_drive.counter.toNat + k := by
  induction k with
  | zero => exact ⟨hd, rfl⟩
  | succ k ih =>
    obtain ⟨hd', hc⟩ := ih (by omega)
    have hstep := NeoPixelDriver.display_step (driveInputs (s (n + k)) (w (n + k))) hd' (by omega)
    rw [← Nat.add_assoc, hs]
    exact ⟨hstep.1, hstep.2.trans (by omega)⟩

end DinoLight.Frames
