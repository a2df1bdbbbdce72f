import DinoLight.HostToLed
/-!
# Updates of the custom colours

A change pulse starts a frame only if it finds the sequencer and the driver
idle; nothing keeps it otherwise. The LEDs then show the last update that found
both idle, which need not be the last one the host completed.
-/
open Clocked Pulses

namespace DinoLight.CustomUpdates
open LedSwitch Frames HostToLed CommandParser UartRxController
open CommandFrames (send send_spaced send_valid)

variable {num_blocks : Nat} {s : Nat → LedSwitch.Regs num_blocks} {w : Nat → LedSwitch.Inputs num_blocks}

/-! ## What the LEDs show -/

/-- The driver's most recent run that is complete in cycle `n`. -/
structure LastRun (s : Nat → LedSwitch.Regs num_blocks) (n a e : Nat) : Prop where
  run : DriverRun (fun t => (s t).neoPixel) a e
  before : e ≤ n
  latest : ∀ a' e', DriverRun (fun t => (s t).neoPixel) a' e' → e' ≤ n → a' ≤ a

/-- The most recent frame on the wire has the custom colours of cycle `n`, under
the counts of the snapshot it was made from. -/
def Shows (s : Nat → LedSwitch.Regs num_blocks) (n : Nat) : Prop :=
  ∃ a e L, LastRun s n a e ∧ LastLoad (fun t => (s t).neoPixel) (fun t => ledInputs (s t)) e L ∧
    pulses (ledWire s (a + 1) (e - a)) = framePulses (s n).uart.custom_block_values (s L).uart.block_counts

/-- The strobe that completes the most recent command-2 frame before cycle `n`. -/
structure LastUpdate (p : Parser) (w : Nat → LedSwitch.Inputs num_blocks) (n m : Nat) : Prop where
  completes : completed num_blocks p (fun t => (w t).uart) m = some 2
  before : m < n
  latest : ∀ t, m < t → t < n → completed num_blocks p (fun t => (w t).uart) t ≠ some 2

/-- Every byte in command position is command 1 or 2. -/
def UpdateCommands (p : Parser) (w : Nat → LedSwitch.Inputs num_blocks) : Prop :=
  ∀ n, (w n).uart.data_valid = true → (p.run num_blocks (received (fun t => (w t).uart) n)).frame = none →
    (w n).uart.data_in = 1 ∨ (w n).uart.data_in = 2

theorem UpdateCommands.known {p : Parser} (h : UpdateCommands p w) :
    KnownCommands num_blocks p fun t => (w t).uart := fun n hv hf => by
  rcases h n hv hf with h | h <;> simp [h]

theorem valid_of_completed {p : Parser} {w : Nat → UartRxController.Inputs} {n : Nat} {c : BitVec 8}
    (h : completed num_blocks p w n = some c) : (w n).data_valid = true := by
  by_contra hv
  simp [completed, hv] at h

/-! ## Custom mode lasts -/

/-- The mode is `10`, and no frame being read can change it. -/
def Custom (p : Parser) : Prop := p.regs.mode = 2 ∧ ∀ cmd payload, p.frame = some (cmd, payload) → cmd ≠ 0

theorem custom_feed {p : Parser} {b : BitVec 8} (h : Custom p) (hb : p.frame = none → b ≠ 0) :
    Custom (p.feed num_blocks b) := by
  obtain ⟨hm, hf⟩ := h
  obtain ⟨frame, regs⟩ := p
  rcases frame with _ | ⟨cmd, payload⟩
  · refine ⟨hm, ?_⟩
    intro cmd payload h
    simp only [Parser.feed, Option.some.injEq, Prod.mk.injEq] at h
    exact h.1 ▸ hb rfl
  · have hc := hf cmd payload rfl
    simp only [Parser.feed]
    split
    · refine ⟨?_, by simp⟩
      simp only [Registers.write, hc, if_false]
      split <;> exact hm
    · refine ⟨hm, ?_⟩
      intro cmd' payload' h
      simp only [Option.some.injEq, Prod.mk.injEq] at h
      exact h.1 ▸ hc

theorem custom_run {p : Parser} (h : Custom p) (hw : UpdateCommands p w) (n : Nat) :
    Custom (p.run num_blocks (received (fun t => (w t).uart) n)) := by
  induction n with
  | zero => exact h
  | succ n ih =>
    rw [received_succ, CommandFrames.run_append, strobe]
    split
    case isTrue hv =>
      apply custom_feed ih
      intro hf
      rcases hw n hv hf with h | h <;> simp [h]
    case isFalse => exact ih

/-! ## The last update -/

section Updates
variable (hN : 0 < num_blocks) (hs : Follows LedSwitch.step w s) (hi : LedSwitch.Inv (s 0)) (hq : Quiet (s 0))
  (hr : ∀ n, (w n).uart.reset_in = false) (hsp : Spaced fun t => (w t).uart)
  (hcmd : UpdateCommands (parserOf (s 0).uart) w)
include hN hs hi hq hr hsp hcmd

theorem change_iff (t : Nat) : (s t).uart.custom_block_change = true ↔
    ∃ n, t = n + 2 ∧ completed num_blocks (parserOf (s 0).uart) (fun t => (w t).uart) n = some 2 :=
  (change_run hN (uart_follows hs) (hq.atRest hi) hr hsp hcmd.known t).2

theorem mode_custom (hm : (s 0).uart.mode = 2) (n : Nat) : (s n).uart.mode = 2 := by
  rcases n with _ | n
  · exact hm
  · have h := registers_run hN (uart_follows hs) (hq.atRest hi) hr hsp hcmd.known n
    have hc := (custom_run ⟨hm, by simp [parserOf]⟩ hcmd n).1
    rw [← h] at hc
    exact hc

/-- `run_neopixel` is high three cycles after a completing strobe, and at no other time. -/
theorem run_iff (hm : (s 0).uart.mode = 2) (t : Nat) : (s t).run_neopixel = true ↔
    ∃ n, t = n + 3 ∧ completed num_blocks (parserOf (s 0).uart) (fun t => (w t).uart) n = some 2 := by
  rcases t with _ | t
  · simp [hq.run]
  · rw [(run_custom hs (mode_custom hN hs hi hq hr hsp hcmd hm t)).1, change_iff hN hs hi hq hr hsp hcmd]
    simp

/-- The custom colours stay those of the last update. -/
theorem values_kept {n m : Nat} (hu : LastUpdate (parserOf (s 0).uart) w n m) {k : Nat} (hk : m + 2 + k ≤ n) :
    (s (m + 2 + k)).uart.custom_block_values = (s (m + 2)).uart.custom_block_values := by
  induction k with
  | zero => rfl
  | succ k ih =>
    rw [← ih (by omega), ← Nat.add_assoc, hs]
    apply custom_step (hr _)
    have hch := change_iff hN hs hi hq hr hsp hcmd (m + 2 + k + 1)
    rw [hs] at hch
    by_contra h
    obtain ⟨t, ht, hc⟩ := hch.1 (by simpa [LedSwitch.step] using h)
    exact hu.latest t (by omega) (by omega) hc

theorem values_at {n m : Nat} (hu : LastUpdate (parserOf (s 0).uart) w n m) (hn : m + 2 ≤ n) :
    (s n).uart.custom_block_values = (s (m + 2)).uart.custom_block_values := by
  obtain ⟨k, rfl⟩ := Nat.exists_eq_add_of_le hn
  exact values_kept hN hs hi hq hr hsp hcmd hu (Nat.le_refl _)

/-- A quiet cycle comes after the last update has reached `run_neopixel`. -/
theorem quiet_after (hm : (s 0).uart.mode = 2) {n m : Nat} (hu : LastUpdate (parserOf (s 0).uart) w n m)
    (hqn : Quiet (s n)) : m + 3 < n := by
  have h1 : n ≠ m + 1 := by
    rintro rfl
    exact busy_of_completed hN (uart_follows hs) (hq.atRest hi) hr hsp hcmd.known hu.completes hqn.uart
  have h2 : n ≠ m + 2 := by
    rintro rfl
    have h := (change_iff hN hs hi hq hr hsp hcmd (m + 2)).2 ⟨m, rfl, hu.completes⟩
    simp [hqn.custom_change] at h
  have h3 : n ≠ m + 3 := by
    rintro rfl
    have h := (run_iff hN hs hi hq hr hsp hcmd hm (m + 3)).2 ⟨m, rfl, hu.completes⟩
    simp [hqn.run] at h
  have := hu.before
  omega

/-- A quiet cycle follows a driver run after which the host is silent. -/
theorem quiet_comes (hm : (s 0).uart.mode = 2) {T a e : Nat} (hT : (s T).uart.state = .idle)
    (hsilent : ∀ t, T ≤ t → (w t).uart.data_valid = false) (hrun : DriverRun (fun t => (s t).neoPixel) a e)
    (hTe : T ≤ e)
    (hdone : ∀ k, completed num_blocks (parserOf (s 0).uart) (fun t => (w t).uart) k = some 2 → k + 3 < e) :
    ∃ n, e < n ∧ Quiet (s n) := by
  have hlow (t : Nat) (ht : e ≤ t) : (s t).run_neopixel = false := by
    by_contra h
    obtain ⟨k, rfl, hk⟩ := (run_iff hN hs hi hq hr hsp hcmd hm t).1 (eq_true_of_ne_false h)
    have := hdone k hk
    omega
  obtain ⟨n, hn, hg, hd⟩ := Progress.rests_after hN (neoPixel_follows hs) hi.neoPixel hrun hlow
  have huart (k : Nat) : (s (T + k)).uart.state = .idle := by
    induction k with
    | zero => exact hT
    | succ k ih =>
      rw [← Nat.add_assoc, hs]
      exact idle_step ih (hr _) (hsilent _ (by omega))
  refine ⟨n, hn, ⟨?_, hg, hd, hlow n (by omega), ?_⟩⟩
  · have h := huart (n - T)
    rwa [show T + (n - T) = n by omega] at h
  · by_contra h
    obtain ⟨k, rfl, hk⟩ := (change_iff hN hs hi hq hr hsp hcmd n).1 (eq_true_of_ne_false h)
    have := hdone k hk
    omega

end Updates

/-- In custom mode, if the pulse of the most recently completed update found the
sequencer and the driver idle, the LEDs show the custom colours in every quiet
state after it. -/
theorem update_shown (hN : 0 < num_blocks) {s₀ : LedSwitch.Regs num_blocks}
    (hreach : Reachable LedSwitch.step LedSwitch.powerUp s₀) (hq : Quiet s₀) (hm : s₀.uart.mode = 2)
    (w : Nat → LedSwitch.Inputs num_blocks) (hr : ∀ n, (w n).uart.reset_in = false)
    (hsp : Spaced fun t => (w t).uart) (hcmd : UpdateCommands (parserOf s₀.uart) w) :
    let s := after LedSwitch.step s₀ w
    ∀ n m, Quiet (s n) → LastUpdate (parserOf s₀.uart) w n m →
      (s (m + 3)).neoPixel.pixelGenerator.state = .idle → (s (m + 3)).neoPixel.neopixel_drive.state = .idle →
      Shows s n := by
  intro s n m hqn hu hg hd
  have hs : Follows LedSwitch.step w s := after_follows
  have hi := reachable_inv hN hreach
  have hrun := run_iff (s := s) hN hs hi hq hr hsp hcmd hm
  have hlt := quiet_after (s := s) hN hs hi hq hr hsp hcmd hm hu hqn
  have hgo : (s (m + 3)).run_neopixel = true := (hrun (m + 3)).2 ⟨m, rfl, hu.completes⟩
  obtain ⟨e, hrun_e⟩ := Progress.run_completes hN (neoPixel_follows hs) hi.neoPixel hd hgo
  have hle : e ≤ n := by
    by_contra hle
    obtain ⟨k, rfl⟩ : ∃ k, n = m + 3 + k + 1 := ⟨n - m - 4, by omega⟩
    exact hrun_e.busy hN (neoPixel_follows hs) hi.neoPixel (by omega) (.inl hqn.drive)
  refine ⟨m + 3, e, m + 3, ⟨hrun_e, hle, fun a' e' hr' he' => ?_⟩,
    lastLoad_start hN (neoPixel_follows hs) hi.neoPixel hrun_e hg, ?_⟩
  · by_contra ha
    obtain ⟨t, ht, hc⟩ := (hrun a').1 (hr'.first (neoPixel_follows hs)).1
    have := hr'.lt
    exact hu.latest t (by omega) (by omega) hc
  · rw [run_shows hN hs hi hq hrun_e hg, (run_custom hs (mode_custom hN hs hi hq hr hsp hcmd hm (m + 2))).2,
      ← values_at hN hs hi hq hr hsp hcmd hu (by omega)]

/-- After `00 02`, with no colours sent yet. -/
def customMode : LedSwitch.Regs 1 := after LedSwitch.step LedSwitch.powerUp (fromHost [0x00, 0x02]) 8

theorem customMode_quiet : Quiet customMode :=
  ⟨by decide +kernel, by decide +kernel, by decide +kernel, by decide +kernel, by decide +kernel⟩

/-- One LED and its colour, then silence. -/
def oneUpdate : Nat → LedSwitch.Inputs 1 := fromHost [0x01, 0x01, 0x02, 0xFF, 0x00, 0x80]

theorem oneUpdate_valid {n : Nat} (h : (oneUpdate n).uart.data_valid = true) : n < 18 := (send_valid.1 h).2

theorem oneUpdate_commands : UpdateCommands (parserOf customMode.uart) oneUpdate := by
  have h : ∀ n < 18, (oneUpdate n).uart.data_valid = true →
      ((parserOf customMode.uart).run 1 (received (fun t => (oneUpdate t).uart) n)).frame = none →
      (oneUpdate n).uart.data_in = 1 ∨ (oneUpdate n).uart.data_in = 2 := by decide +kernel
  exact fun n hv => h n (oneUpdate_valid hv) hv

theorem oneUpdate_completed {k : Nat}
    (h : completed 1 (parserOf customMode.uart) (fun t => (oneUpdate t).uart) k = some 2) : k = 15 := by
  have hk : ∀ k < 18, completed 1 (parserOf customMode.uart) (fun t => (oneUpdate t).uart) k = some 2 → k = 15 := by
    decide +kernel
  exact hk k (oneUpdate_valid (valid_of_completed h)) h

/-- The LED shows it in some quiet cycle, for which the last run is that of cycle 18. -/
theorem one_update_shown : ∃ n e,
    let s := after LedSwitch.step customMode oneUpdate
    Quiet (s n) ∧ Shows s n ∧ LastRun s n 18 e ∧
      pulses (ledWire s 19 (e - 18)) = framePulses (0xFF0080 : BitVec (1 * 24)) (1 : BitVec (1 * 8)) := by
  have hreach : Reachable LedSwitch.step LedSwitch.powerUp customMode := ⟨_, 8, rfl⟩
  have hm : customMode.uart.mode = 2 := by decide +kernel
  have hr (n : Nat) : (oneUpdate n).uart.reset_in = false := rfl
  let s := after LedSwitch.step customMode oneUpdate
  have hs : Follows LedSwitch.step oneUpdate s := after_follows
  have hn := neoPixel_follows hs
  have hi := reachable_inv Nat.one_pos hreach
  have hstart : (s 18).neoPixel.pixelGenerator.state = .idle ∧ (s 18).neoPixel.neopixel_drive.state = .idle ∧
      (s 18).run_neopixel = true ∧ (s 18).uart.state = .idle ∧ (s 18).uart.block_counts = 1 := by decide +kernel
  obtain ⟨hg, hd, hgo, hu, hone⟩ := hstart
  obtain ⟨e, he⟩ := Progress.run_completes Nat.one_pos hn hi.neoPixel hd hgo
  have hlt := he.lt
  obtain ⟨n, hen, hquiet⟩ := quiet_comes Nat.one_pos hs hi customMode_quiet hr (send_spaced _)
    oneUpdate_commands hm hu (fun t ht => by
      by_contra hv
      have := oneUpdate_valid (eq_true_of_ne_false hv)
      omega) he (by omega) fun k hk => by rw [oneUpdate_completed hk]; omega
  have hlast : LastUpdate (parserOf customMode.uart) oneUpdate n 15 :=
    ⟨by decide +kernel, by omega, fun t h1 _ h => absurd (oneUpdate_completed h) (Nat.ne_of_gt h1)⟩
  have hshows : Shows s n := update_shown Nat.one_pos hreach customMode_quiet hm oneUpdate hr
    (send_spaced _) oneUpdate_commands n 15 hquiet hlast hg hd
  -- the only run is that of cycle 18, which loaded the one count and the colour
  obtain ⟨a, e', L, hrun, hL, hp⟩ := hshows
  obtain ⟨k, rfl, hk⟩ := (run_iff Nat.one_pos hs hi customMode_quiet hr (send_spaced _)
    oneUpdate_commands hm a).1 (hrun.run.first hn).1
  obtain rfl := oneUpdate_completed hk
  obtain rfl := hL.unique (lastLoad_start Nat.one_pos hn hi.neoPixel hrun.run hg)
  have hcolour : (s n).uart.custom_block_values = 0xFF0080 := by
    rw [values_at Nat.one_pos hs hi customMode_quiet hr (send_spaced _) oneUpdate_commands hlast (by omega)]
    decide +kernel
  refine ⟨n, e', hquiet, ⟨15 + 3, e', 15 + 3, hrun, hL, hp⟩, hrun, ?_⟩
  rw [hcolour, hone] at hp
  exact hp

/-! ## A lost update -/

/-- One LED, black, then white. -/
def twoUpdates : Nat → LedSwitch.Inputs 1 :=
  fromHost [0x01, 0x01, 0x02, 0x00, 0x00, 0x00, 0x02, 0xFF, 0xFF, 0xFF]

theorem twoUpdates_valid {n : Nat} (h : (twoUpdates n).uart.data_valid = true) : n < 30 := (send_valid.1 h).2

theorem twoUpdates_commands : UpdateCommands (parserOf customMode.uart) twoUpdates := by
  have h : ∀ n < 30, (twoUpdates n).uart.data_valid = true →
      ((parserOf customMode.uart).run 1 (received (fun t => (twoUpdates t).uart) n)).frame = none →
      (twoUpdates n).uart.data_in = 1 ∨ (twoUpdates n).uart.data_in = 2 := by decide +kernel
  exact fun n hv => h n (twoUpdates_valid hv) hv

theorem twoUpdates_completed {k : Nat}
    (h : completed 1 (parserOf customMode.uart) (fun t => (twoUpdates t).uart) k = some 2) : k = 15 ∨ k = 27 := by
  have hk : ∀ k < 30, completed 1 (parserOf customMode.uart) (fun t => (twoUpdates t).uart) k = some 2 →
      k = 15 ∨ k = 27 := by decide +kernel
  exact hk k (twoUpdates_valid (valid_of_completed h)) h

/-- The colours of every completed update are shown in every quiet state after it. -/
def NoUpdateLost (s₀ : LedSwitch.Regs num_blocks) (w : Nat → LedSwitch.Inputs num_blocks) : Prop :=
  let s := after LedSwitch.step s₀ w
  ∀ n m, Quiet (s n) → LastUpdate (parserOf s₀.uart) w n m → Shows s n

/-- White completes while the frame for black is sent, and is never shown. -/
theorem update_lost : Reachable LedSwitch.step LedSwitch.powerUp customMode ∧ Quiet customMode ∧
    customMode.uart.mode = 2 ∧ (∀ n, (twoUpdates n).uart.reset_in = false) ∧
    (Spaced fun t => (twoUpdates t).uart) ∧ UpdateCommands (parserOf customMode.uart) twoUpdates ∧
    ¬ NoUpdateLost customMode twoUpdates := by
  have hreach : Reachable LedSwitch.step LedSwitch.powerUp customMode := ⟨_, 8, rfl⟩
  have hm : customMode.uart.mode = 2 := by decide +kernel
  have hr (n : Nat) : (twoUpdates n).uart.reset_in = false := rfl
  refine ⟨hreach, customMode_quiet, hm, hr, send_spaced _, twoUpdates_commands, ?_⟩
  intro hno
  let s := after LedSwitch.step customMode twoUpdates
  have hs : Follows LedSwitch.step twoUpdates s := after_follows
  have hn := neoPixel_follows hs
  have hi := reachable_inv Nat.one_pos hreach
  have hrun {t : Nat} (h : (s t).run_neopixel = true) : t = 18 ∨ t = 30 := by
    obtain ⟨k, rfl, hk⟩ := (run_iff Nat.one_pos hs hi customMode_quiet hr (send_spaced _)
      twoUpdates_commands hm t).1 h
    rcases twoUpdates_completed hk with rfl | rfl <;> simp
  -- black is being sent from cycle 18 on, still in cycle 31
  have hstart : (s 18).neoPixel.pixelGenerator.state = .idle ∧ (s 18).neoPixel.neopixel_drive.state = .idle ∧
      (s 18).run_neopixel = true ∧ (s 18).neopixel_select = 0 ∧ (s 18).uart.block_counts = 1 := by decide +kernel
  have hsending : ∀ k < 14, (s (18 + k)).neoPixel.neopixel_drive.state ≠ .display := by decide +kernel
  obtain ⟨hg, hd, hgo, hblack, hone⟩ := hstart
  obtain ⟨e, he⟩ := Progress.run_completes Nat.one_pos hn hi.neoPixel hd hgo
  have hlate : 32 ≤ e := by
    by_contra hlt
    obtain ⟨k, rfl⟩ : ∃ k, e = 18 + k := ⟨e - 18, by have := he.lt; omega⟩
    exact hsending k (by omega) he.enters
  -- a quiet cycle follows
  obtain ⟨n, hen, hquiet⟩ := quiet_comes Nat.one_pos hs hi customMode_quiet hr (send_spaced _)
    twoUpdates_commands hm (T := 31) (by decide +kernel) (fun t ht => by
      by_contra hv
      have := twoUpdates_valid (eq_true_of_ne_false hv)
      omega) he (by omega) fun k hk => by rcases twoUpdates_completed hk with rfl | rfl <;> omega
  have hlast : LastUpdate (parserOf customMode.uart) twoUpdates n 27 :=
    ⟨by decide +kernel, by omega, fun t h1 _ h => by rcases twoUpdates_completed h with rfl | rfl <;> omega⟩
  -- the last run is that of black
  obtain ⟨a', e', L, hrun', hL, hp⟩ := hno n 27 hquiet hlast
  have ha : a' = 18 := by
    have hle := hrun'.latest 18 e he (by omega)
    rcases hrun (hrun'.run.first hn).1 with h | h
    · exact h
    · subst h
      exact absurd hrun'.run.leaves.1 (by decide +kernel)
  subst ha
  obtain rfl := hrun'.run.unique he
  obtain rfl := hL.unique (lastLoad_start Nat.one_pos hn hi.neoPixel he hg)
  have hwhite : (s n).uart.custom_block_values = 0xFFFFFF := by
    rw [values_at Nat.one_pos hs hi customMode_quiet hr (send_spaced _) twoUpdates_commands hlast (by omega)]
    decide +kernel
  rw [run_shows Nat.one_pos hs hi customMode_quiet he hg, hblack, hone, hwhite] at hp
  exact absurd hp (by decide +kernel)

end DinoLight.CustomUpdates
