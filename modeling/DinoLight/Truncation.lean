import DinoLight.LedSwitch
/-!
# Truncated frames

The controller declares a state `timeout` and says what it would do there, but
nothing leads to it: after a part of a frame the controller waits for the rest
however long it takes, and takes the next frame's first bytes for it.
-/
open Clocked

namespace DinoLight.Truncation
open UartRxController CommandParser CommandFrames
open LedSwitch (ControllerInv controllerInv_step)

variable {num_blocks : Nat}

theorem no_timeout (s : Regs num_blocks) (i : Inputs) : nextStateDecode s i ≠ .timeout := by
  unfold nextStateDecode
  repeat' split
  all_goals simp_all

/-- Between frames a reachable controller is at rest. -/
theorem atRest_of_idle {s : Regs num_blocks} (h : Reachable step powerUp s) (hidle : s.state = .idle) :
    AtRest s := by
  have hi : ControllerInv s :=
    h.inv ⟨fun _ => rfl, by simp [powerUp], by simp [powerUp]⟩ fun s i _ => controllerInv_step s i
  refine ⟨hidle, hi.index hidle, ?_, ?_⟩
  · by_contra hm
    cases hidle.symm.trans (hi.mode_change (by simpa using hm))
  · by_contra hc
    cases hidle.symm.trans (hi.custom_change (by simpa using hc))

/-! ## Recovery -/

/-- `w` without its strobes before cycle `a`. -/
def muted (a : Nat) (w : Nat → Inputs) (n : Nat) : Inputs :=
  if n < a then { w n with data_valid := false } else w n

structure SameOutputs (s s' : Regs num_blocks) : Prop where
  registers : registers s = registers s'
  mode_change : s.mode_value_change = s'.mode_value_change
  custom_change : s.custom_block_change = s'.custom_block_change

/-- After the bytes `q`, `T` cycles of silence and a frame, the controller that
was in `s₀` shows what it would show after the frame alone. -/
def Recovers (s₀ : Regs num_blocks) (q : List (BitVec 8)) (T : Nat) : Prop :=
  ∀ (w : Nat → Inputs) (b a e : Nat) (g : Frame num_blocks), (∀ n, (w n).reset_in = false) → Spaced w →
    received w b = q → b + T ≤ a → (∀ n, b ≤ n → n < a → (w n).data_valid = false) →
    received (fun n => w (a + n)) e = g.encode → (∀ n, a + e ≤ n → (w n).data_valid = false) →
    ∀ n, a + e < n → SameOutputs (after step s₀ w n) (after step s₀ (muted a w) n)

/-! ## The next mode frame -/

def modeOne : Frame num_blocks := .setMode 1

/-- A proper part of a frame is its command and less than its payload. -/
theorem proper_part {f : Frame num_blocks} {q : List (BitVec 8)} (hq : q <+: f.encode) (hne : q ≠ [])
    (hproper : q ≠ f.encode) : ∃ part, q = f.cmd :: part ∧ part.length < payloadSize num_blocks f.cmd := by
  obtain ⟨b, part, rfl⟩ := List.exists_cons_of_ne_nil hne
  obtain ⟨rfl, hpart⟩ := List.cons_prefix_cons.1 hq
  refine ⟨part, rfl, ?_⟩
  rw [← f.sized]
  refine Nat.lt_of_le_of_ne hpart.length_le fun h => hproper ?_
  rw [Frame.encode, hpart.eq_of_length h]

/-- A command byte of 0 after a part of a frame goes into its payload: the byte
that follows completes no mode frame. -/
theorem absorbed (r : Registers) {cmd : BitVec 8} {part : List (BitVec 8)}
    (h : part.length < payloadSize num_blocks cmd) :
    (Parser.run num_blocks ⟨none, r⟩ (cmd :: part ++ [0])).completes num_blocks ≠ some 0 := by
  rw [run_append, run_open r cmd part h]
  by_cases hl : part.length + 1 = payloadSize num_blocks cmd
  · simp [Parser.run, Parser.feed, Parser.completes, hl]
  · simp only [Parser.run, List.foldl_cons, List.foldl_nil, Parser.feed, if_neg hl, Parser.completes]
    split
    case isTrue =>
      -- a mode frame has one payload byte
      intro hc
      obtain rfl := Option.some.inj hc
      simp only [payloadSize, if_true] at h hl
      omega
    case isFalse => rintro ⟨⟩

/-- The cycle in which the next frame begins. -/
def restart (q : List (BitVec 8)) (T : Nat) : Nat := 3 * q.length + T

/-- The bytes `q`, `T` cycles of silence, and the frame that selects mode 1. -/
def gapped (q : List (BitVec 8)) (T : Nat) : Nat → Inputs :=
  splice (restart q T) (send q) (send [0, 1])

section Gapped
variable {q : List (BitVec 8)} {T : Nat}

theorem gapped_reset (n : Nat) : (gapped q T n).reset_in = false := by
  unfold gapped splice
  split <;> rfl

theorem gapped_spaced : Spaced (gapped q T) := by
  apply splice_spaced (send_spaced q) (send_spaced _)
  intro n _ hv
  have := send_valid.1 hv
  unfold restart
  omega

theorem gapped_part : received (gapped q T) (3 * q.length) = q := by
  have hsame : ∀ n < 3 * q.length, gapped q T n = send q n := fun n hn => splice_lt (Nat.lt_add_right T hn)
  rw [received_congr hsame, received_send, List.take_of_length_le (by omega)]

theorem gapped_silent (n : Nat) (hn : 3 * q.length ≤ n) (ha : n < restart q T) :
    (gapped q T n).data_valid = false := by
  rw [gapped, splice_lt ha]
  by_contra hv
  have := send_valid.1 (eq_true_of_ne_false hv)
  omega

theorem gapped_next : (fun n => gapped q T (restart q T + n)) = send [0, 1] := by
  funext n
  exact splice_add _ n

theorem gapped_received (n : Nat) :
    received (gapped q T) (restart q T + n) = q ++ [(0 : BitVec 8), 1].take ((n + 2) / 3) := by
  have hall : q.length ≤ (restart q T + 2) / 3 := by
    unfold restart
    omega
  rw [gapped, received_splice, received_send, received_send, List.take_of_length_le hall]

theorem gapped_stream (n : Nat) : received (gapped q T) n <+: q ++ [(0 : BitVec 8)] ++ [1] := by
  have h := received_mono (gapped q T) (show n ≤ restart q T + (4 + n) by omega)
  rwa [gapped_received, List.take_of_length_le (by simp; omega), show [(0 : BitVec 8), 1] = [0] ++ [1] from rfl,
    ← List.append_assoc] at h

/-- The parser never takes an unknown command. -/
theorem gapped_known (hN : 0 < num_blocks) (r : Registers) {f : Frame num_blocks} (hq : q <+: f.encode) :
    KnownCommands num_blocks ⟨none, r⟩ (gapped q T) := by
  intro n hv hf
  have hstream := gapped_stream (q := q) (T := T) (n + 1)
  rw [received_strobe hv] at hstream
  rcases List.prefix_concat_iff.1 hstream with h | h
  · rw [List.singleton_inj.1 (List.append_inj_right' h rfl)]
    decide
  rcases List.prefix_concat_iff.1 h with h | h
  · rw [List.singleton_inj.1 (List.append_inj_right' h rfl)]
    decide
  · have hpart := h.trans (show q <+: encode [f] by simpa [encode] using hq)
    obtain ⟨g, -, hb⟩ := next_known hN r hpart hf
    rw [hb]
    exact g.known

theorem muted_add (a n : Nat) (w : Nat → Inputs) : muted a w (a + n) = w (a + n) :=
  if_neg (by omega)

/-- Muted, only the mode frame is left. -/
theorem muted_received (n : Nat) :
    received (muted (restart q T) (gapped q T)) (restart q T + n) = [(0 : BitVec 8), 1].take ((n + 2) / 3) := by
  have hnone : received (muted (restart q T) (gapped q T)) (restart q T) = [] :=
    (received_silent (Nat.zero_le _) fun t _ ht => by simp [muted, ht]).trans rfl
  rw [received_add, hnone]
  simp only [muted_add, gapped_next]
  exact received_send _ n

theorem muted_spaced {w : Nat → Inputs} (hw : Spaced w) (a : Nat) : Spaced (muted a w) := by
  have hvalid (n : Nat) (h : (muted a w n).data_valid = true) : (w n).data_valid = true := by
    unfold muted at h
    split at h
    · cases h
    · exact h
  intro m n hm hn hlt
  exact hw m n (hvalid m hm) (hvalid n hn) hlt

theorem muted_modeOne : (∀ n, (muted (restart q T) (gapped q T) n).reset_in = false) ∧
    Spaced (muted (restart q T) (gapped q T)) ∧
    ∀ n, received (muted (restart q T) (gapped q T)) n <+: encode [(modeOne : Frame num_blocks)] := by
  refine ⟨?_, muted_spaced gapped_spaced _, ?_⟩
  · intro n
    unfold muted
    split <;> exact gapped_reset n
  · intro n
    have h := received_mono (muted (restart q T) (gapped q T)) (show n ≤ restart q T + (4 + n) by omega)
    rwa [muted_received, List.take_of_length_le (by simp; omega)] at h

/-- The change pulse of the mode frame is lost. -/
theorem pulse_lost (hN : 0 < num_blocks) {s₀ : Regs num_blocks} (h₀ : AtRest s₀) {f : Frame num_blocks}
    (hq : q <+: f.encode) (hne : q ≠ []) (hproper : q ≠ f.encode) :
    (after step s₀ (gapped q T) (restart q T + 5)).mode_value_change = false ∧
      (after step s₀ (muted (restart q T) (gapped q T)) (restart q T + 5)).mode_value_change = true := by
  constructor
  · obtain ⟨part, hpart, hlt⟩ := proper_part hq hne hproper
    have hknown := gapped_known (T := T) hN (registers s₀) hq
    have hpulse := (change_run hN (s := after step s₀ (gapped q T)) after_follows h₀ gapped_reset gapped_spaced hknown
      (restart q T + 5)).1
    by_contra hc
    obtain ⟨n, hn, hc⟩ := hpulse.1 (eq_true_of_ne_false hc)
    obtain rfl : n = restart q T + 3 := by omega
    have hbefore : received (gapped q T) (restart q T + 3) = f.cmd :: part ++ [0] := by
      rw [gapped_received, hpart]
      rfl
    simp only [completed, hbefore] at hc
    split at hc
    · exact absorbed (registers s₀) hlt hc
    · cases hc
  · obtain ⟨hreset, hspaced, hstream⟩ := muted_modeOne
    have hpulse := (change_run hN (s := after step s₀ (muted (restart q T) (gapped q T))) after_follows h₀ hreset
      hspaced (stream_known hN hstream _) (restart q T + 5)).1
    apply hpulse.2 ⟨restart q T + 3, rfl, _⟩
    apply (completed_iff hN hstream (registers s₀) _ _).2
    refine ⟨?_, [], modeOne, List.prefix_rfl, rfl, muted_received 4⟩
    rw [muted_add]
    exact congrArg Inputs.data_valid (congrFun gapped_next 3)

end Gapped

/-- From any state between frames some next frame is lost. -/
theorem poisoned (hN : 0 < num_blocks) {s₀ : Regs num_blocks} (h₀ : AtRest s₀) {f : Frame num_blocks}
    {q : List (BitVec 8)} (hq : q <+: f.encode) (hne : q ≠ []) (hproper : q ≠ f.encode) (T : Nat) :
    ¬ Recovers s₀ q T := by
  intro h
  have hlost := pulse_lost (T := T) hN h₀ hq hne hproper
  have hsent : received (fun n => gapped q T (restart q T + n)) 4 = (modeOne : Frame num_blocks).encode := by
    rw [gapped_next, received_send]
    rfl
  have hrest (n : Nat) (hn : restart q T + 4 ≤ n) : (gapped q T n).data_valid = false := by
    obtain ⟨k, rfl⟩ := Nat.exists_eq_add_of_le hn
    rw [Nat.add_assoc]
    refine (congrArg Inputs.data_valid (congrFun gapped_next (4 + k))).trans ?_
    simp [send]
    omega
  have hsame := h (gapped q T) (3 * q.length) (restart q T) 4 modeOne gapped_reset gapped_spaced gapped_part
    (Nat.le_refl _) gapped_silent hsent hrest (restart q T + 5) (by omega)
  have hpulse := hsame.mode_change
  rw [hlost.1, hlost.2] at hpulse
  cases hpulse

/-- No number of silent cycles recovers any part of any frame, in any state. -/
theorem never_recovers (hN : 0 < num_blocks) {s₀ : Regs num_blocks} (h₀ : Reachable step powerUp s₀)
    (hidle : s₀.state = .idle) (f : Frame num_blocks) (q : List (BitVec 8)) (hq : q <+: f.encode) (hne : q ≠ [])
    (hproper : q ≠ f.encode) (T : Nat) : ¬ Recovers s₀ q T :=
  poisoned hN (atRest_of_idle h₀ hidle) hq hne hproper T

/-- The byte 0 of a mode frame, at power-up. -/
theorem lone_command_poisons : ¬ Recovers (powerUp : Regs 1) [0] 1000 :=
  never_recovers Nat.one_pos ⟨fun _ => ⟨false, 0, false⟩, 0, rfl⟩ rfl ⟨0, [0], by decide, rfl⟩ [0] ⟨[0], rfl⟩
    (by decide) (by decide) 1000

/-- No number of silent cycles is enough for every truncated frame. -/
theorem no_recovery_time : ¬ ∃ T, ∀ s₀ : Regs 30, Reachable step powerUp s₀ → s₀.state = .idle →
    ∀ (f : Frame 30) (q : List (BitVec 8)), q <+: f.encode → q ≠ [] → q ≠ f.encode → Recovers s₀ q T := by
  rintro ⟨T, h⟩
  have hq : [0] <+: (⟨0, [0], by decide, rfl⟩ : Frame 30).encode := ⟨[0], rfl⟩
  have hpowerUp : Reachable step (powerUp : Regs 30) powerUp := ⟨fun _ => ⟨false, 0, false⟩, 0, rfl⟩
  exact poisoned (by decide) powerUp_atRest hq (by decide) (by decide) T
    (h powerUp hpowerUp rfl _ [0] hq (by decide) (by decide))

end DinoLight.Truncation
