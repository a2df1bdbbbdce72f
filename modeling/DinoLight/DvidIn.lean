import DinoLight.InputChannel
import DinoLight.Lib.Hunt
/-!
# `dvid_in`

Three channels share one framing. It moves on by one bit after every 2^15
pixel cycles in which the third channel has shown no sync word.
-/
open Clocked

namespace DinoLight.DvidIn
open InputChannel (Pixel)

/-- The instances of `input_channel`. -/
inductive Channel
  | c0 | c1 | c2
  deriving DecidableEq

structure Regs where
  input_channel : Channel → InputChannel.Regs
  framing : BitVec 4
  since_sync : BitVec 15
  synced : Bool

/-- The register values that the source gives; the registers of the channels
that it leaves open keep the values in `s`. -/
structure PowerUp (s : Regs) : Prop where
  every_other : ∀ ch, (s.input_channel ch).gearbox.every_other = false
  framing : s.framing = 0
  since_sync : s.since_sync = 0
  synced : s.synced = false

def sync_seen (s : Regs) : Bool := (s.input_channel .c2).sync_seen

/-- One rising edge of `clock_x2`; `clock_x1` tells whether it rises too. -/
def step (clock_x1 : Bool) (s : Regs) (half_words : Channel → BitVec 5) : Regs where
  input_channel ch := InputChannel.step clock_x1 (s.input_channel ch) ⟨false, s.framing, half_words ch⟩
  framing :=
    if clock_x1 then
      if sync_seen s then s.framing
      else if s.since_sync = 0b111111111111111#15 then
        if s.framing = 0b1001#4 then 0 else s.framing + 1
      else s.framing
    else s.framing
  since_sync :=
    if clock_x1 then
      if sync_seen s then 0 else s.since_sync + 1
    else s.since_sync
  synced :=
    if clock_x1 then
      if sync_seen s then true
      else if s.since_sync = 0b111111111111111#15 then false
      else s.synced
    else s.synced

/-! ## Pixel cycles -/

/-- The half-words of the two edges of `clock_x2` in a cycle of `clock_x1`. -/
structure Inputs where
  first : Channel → BitVec 5
  second : Channel → BitVec 5

/-- A cycle of `clock_x1`: an edge common to both clocks and one of `clock_x2` alone. -/
def cycle (s : Regs) (i : Inputs) : Regs := step false (step true s i.first) i.second

/-- What the channel `ch` sees in the cycles of a run. -/
def pixels (w : Nat → Inputs) (s : Nat → Regs) (ch : Channel) (t : Nat) : Pixel :=
  ⟨(s t).framing, (s (t + 1)).framing, (w t).first ch, (w t).second ch⟩

/-- The bits of the channel `ch` in the order of arrival. -/
def received (w : Nat → Inputs) (ch : Channel) : Nat → Bool :=
  SerialBits.stream fun n => if n % 2 = 0 then (w (n / 2)).first ch else (w (n / 2)).second ch

variable {w : Nat → Inputs} {s : Nat → Regs}

theorem channel_follows (hs : Follows cycle w s) (ch : Channel) :
    Follows InputChannel.cycle (pixels w s ch) fun t => (s t).input_channel ch := by
  intro t
  simp only [pixels, hs t]
  rfl

theorem received_channel (w : Nat → Inputs) (s : Nat → Regs) (ch : Channel) :
    InputChannel.received (pixels w s ch) = received w ch := by
  unfold InputChannel.received received
  congr 1
  funext n
  unfold InputChannel.edges
  split <;> rfl

/-- The VGA signals. -/
structure Outputs where
  red_p : BitVec 8
  green_p : BitVec 8
  blue_p : BitVec 8
  hsync : Bool
  vsync : Bool
  blank : Bool
  deriving DecidableEq

def outputs (s : Regs) : Outputs where
  blue_p := (s.input_channel .c0).tmds_decode.data_out
  green_p := (s.input_channel .c1).tmds_decode.data_out
  red_p := (s.input_channel .c2).tmds_decode.data_out
  hsync := (s.input_channel .c0).tmds_decode.c.getLsbD 0
  vsync := (s.input_channel .c0).tmds_decode.c.getLsbD 1
  blank := !(s.input_channel .c2).tmds_decode.active_data

/-- Words whose halves come in at the two edges of each cycle. -/
theorem sends_halves {w : Nat → Inputs} {ch : Channel} {u : Nat → BitVec 10}
    (h1 : ∀ t, (w t).first ch = (u t).extractLsb' 0 5) (h2 : ∀ t, (w t).second ch = (u t).extractLsb' 5 5) :
    SerialBits.Sends u 0 (received w ch) := by
  intro j
  apply BitVec.eq_of_getLsbD_eq
  intro i hi
  rw [SerialBits.getLsbD_windowAt _ _ hi, Nat.zero_add, received]
  rcases Nat.lt_or_ge i 5 with hlow | hhigh
  · rw [show 10 * j + i = 5 * (2 * j) + i by omega, SerialBits.stream_chunk _ hlow, if_pos (by omega),
      Nat.mul_div_cancel_left j (by decide), h1, BitVec.getLsbD_extractLsb', decide_eq_true hlow, Nat.zero_add,
      Bool.true_and]
  · rw [show 10 * j + i = 5 * (2 * j + 1) + (i - 5) by omega, SerialBits.stream_chunk _ (by omega), if_neg (by omega),
      show (2 * j + 1) / 2 = j by omega, h2, BitVec.getLsbD_extractLsb', decide_eq_true (by omega),
      Nat.add_sub_cancel' hhigh, Bool.true_and]

/-! ## The hunt for the framing -/

/-- The process of `clock_x1` hunts for the framing. -/
def hunt (s : Regs) : Hunt.State := ⟨s.framing.toNat, s.since_sync.toNat⟩

theorem framing_cycle (s : Regs) (i : Inputs) : (cycle s i).framing =
    if sync_seen s then s.framing
    else if s.since_sync = 0b111111111111111#15 then if s.framing = 0b1001#4 then 0 else s.framing + 1
    else s.framing := rfl

theorem since_sync_cycle (s : Regs) (i : Inputs) :
    (cycle s i).since_sync = if sync_seen s then 0 else s.since_sync + 1 := rfl

theorem synced_cycle (s : Regs) (i : Inputs) : (cycle s i).synced =
    if sync_seen s then true else if s.since_sync = 0b111111111111111#15 then false else s.synced := rfl

/-- Only a move of the framing clears `synced`. -/
theorem synced_held {s : Regs} {i : Inputs} (hsame : (cycle s i).framing = s.framing) (h : s.synced = true) :
    (cycle s i).synced = true := by
  rw [framing_cycle] at hsame
  rw [synced_cycle]
  split
  · rfl
  next hseen =>
    rw [if_neg hseen] at hsame
    split
    next hlast =>
      rw [if_pos hlast] at hsame
      split at hsame
      next hnine =>
        rw [hnine] at hsame
        exact absurd hsame (by decide)
      next => exact absurd hsame (by bv_omega)
    next => exact h

theorem last_iff (s : Regs) : s.since_sync = 0b111111111111111#15 ↔ (hunt s).count + 1 = 32768 := by
  unfold hunt
  constructor
  · intro h
    rw [h]
    rfl
  · intro h
    bv_omega

theorem hunt_cycle {s : Regs} (hf : s.framing.toNat < 10) (i : Inputs) :
    hunt (cycle s i) = Hunt.step 10 32768 (hunt s) (sync_seen s) := by
  have hcycle : hunt (cycle s i) = ⟨(cycle s i).framing.toNat, (cycle s i).since_sync.toNat⟩ := rfl
  rw [hcycle, framing_cycle, since_sync_cycle, Hunt.step]
  cases sync_seen s with
  | true => rfl
  | false =>
    rw [if_neg Bool.false_ne_true, if_neg Bool.false_ne_true, if_neg Bool.false_ne_true]
    by_cases hlast : s.since_sync = 0b111111111111111#15
    · have hzero : (s.since_sync + 1).toNat = 0 := by rw [hlast]; rfl
      rw [if_pos hlast, if_pos ((last_iff s).1 hlast), hzero]
      congr 1
      unfold Hunt.next hunt
      by_cases hnine : s.framing = 0b1001#4
      · rw [if_pos hnine, if_pos (by rw [hnine]; rfl)]
        rfl
      · rw [if_neg hnine, if_neg (by bv_omega)]
        bv_omega
    · have hsucc : (s.since_sync + 1).toNat = s.since_sync.toNat + 1 := by bv_omega
      rw [if_neg hlast, if_neg (mt (last_iff s).2 hlast), hsucc]
      rfl

theorem inRange_hunt {s : Regs} (hf : s.framing.toNat < 10) : Hunt.InRange 10 32768 (hunt s) :=
  ⟨hf, s.since_sync.isLt⟩

/-- The framing is one of the ten in every cycle. -/
theorem framing_run (hs : Follows cycle w s) (h0 : (s 0).framing.toNat < 10) (t : Nat) : (s t).framing.toNat < 10 :=
  hs.inv (I := fun s => s.framing.toNat < 10) h0 (fun s i h => by
    have hnext := (Hunt.inRange_step (sync_seen s) (inRange_hunt h)).candidate
    rwa [← hunt_cycle h i] at hnext) t

theorem hunt_follows (hs : Follows cycle w s) (h0 : (s 0).framing.toNat < 10) :
    Follows (Hunt.step 10 32768) (fun t => sync_seen (s t)) fun t => hunt (s t) := by
  intro t
  simp only [hs t]
  exact hunt_cycle (framing_run hs h0 t) (w t)

/-- Whether a sync word has been seen, by its cycle. -/
def syncs (s : Nat → Regs) (t : Nat) : Bool := sync_seen (s t)

theorem hunt_run (hs : Follows cycle w s) (h : PowerUp (s 0)) (t : Nat) :
    (s t).since_sync.toNat = Hunt.quiet (syncs s) t % 32768 ∧
      (s t).framing.toNat = Hunt.moves 32768 (syncs s) t % 10 := by
  have hzero : hunt (s 0) = ⟨0, 0⟩ := by rw [hunt, h.framing, h.since_sync]; rfl
  have hfollows := hunt_follows hs (by rw [h.framing]; exact Nat.zero_lt_succ 9)
  have hform := Hunt.closed_form hfollows (by decide) (by rw [hzero]; exact Nat.zero_lt_succ 9) (by rw [hzero]) t
  rwa [hzero, Nat.zero_add] at hform

/-- `synced` is set until the timer runs out. -/
theorem synced_run (hs : Follows cycle w s) (h : PowerUp (s 0)) (t : Nat) :
    (s t).synced = true ↔ Hunt.quiet (syncs s) t < t ∧ Hunt.quiet (syncs s) t < 32768 := by
  induction t with
  | zero =>
    rw [h.synced]
    exact ⟨nofun, fun hlt => absurd hlt.1 (Nat.not_lt_zero _)⟩
  | succ t ih =>
    have hquiet : Hunt.quiet (syncs s) (t + 1) = if sync_seen (s t) then 0 else Hunt.quiet (syncs s) t + 1 := rfl
    have hcount := (hunt_run hs h t).1
    rw [hs t, synced_cycle, hquiet]
    cases sync_seen (s t) with
    | true => simp
    | false =>
      rw [if_neg Bool.false_ne_true, if_neg Bool.false_ne_true]
      by_cases hlast : (s t).since_sync = 0b111111111111111#15
      · have hfull := (last_iff (s t)).1 hlast
        rw [if_pos hlast]
        simp only [hunt] at hfull
        exact ⟨nofun, fun ⟨_, hlt⟩ => by omega⟩
      · have hfull := mt (last_iff (s t)).2 hlast
        rw [if_neg hlast, ih]
        simp only [hunt] at hfull
        omega

/-- What the process of `clock_x1` makes of the sync words, cycle by cycle. -/
structure Policy (s : Nat → Regs) : Prop where
  framing : ∀ t, (s t).framing.toNat = Hunt.moves 32768 (syncs s) t % 10
  synced : ∀ t, (s t).synced = true ↔ ∃ u < t, t ≤ u + 32768 ∧ syncs s u = true

/-- The framing counts, modulo ten, the times that 2^15 cycles have gone by
without a sync word, and `synced` tells whether there was one in the last 2^15. -/
theorem framing_policy (hs : Follows cycle w s) (h : PowerUp (s 0)) : Policy s where
  framing t := (hunt_run hs h t).2
  synced t := by
    rw [synced_run hs h]
    constructor
    · rintro ⟨hsome, hlt⟩
      exact ⟨t - Hunt.quiet (syncs s) t - 1, by omega, by omega, Hunt.seen_before_quiet hsome⟩
    · rintro ⟨u, hut, htu, hseen⟩
      have hlt : Hunt.quiet (syncs s) t < t - u := by
        by_contra hge
        have hnone : syncs s u = false := Hunt.not_seen_of_quiet hut (by omega)
        exact Bool.false_ne_true (hnone.symm.trans hseen)
      omega

/-- A receiver as it starts, the open registers at zero. -/
def start : Regs where
  input_channel _ := ⟨⟨false, 0, 0⟩, ⟨0, false, 0, 0, 0, false, 0, 0, false⟩, false⟩
  framing := 0
  since_sync := 0
  synced := false

theorem powerUp_start : PowerUp start := ⟨fun _ => rfl, rfl, rfl, rfl⟩

/-- Three channels that are blank, from bit 0 on. -/
def blankInputs : Inputs where
  first _ := (TmdsDecode.token 0).extractLsb' 0 5
  second _ := (TmdsDecode.token 0).extractLsb' 5 5

theorem framing_policy_blank :
    let s := after cycle start fun _ => blankInputs
    Policy s ∧ syncs s 2 = false ∧ syncs s 3 = true ∧ (s 3).synced = false ∧ (s 4).synced = true :=
  ⟨framing_policy after_follows powerUp_start, by decide, by decide, by decide, by decide⟩

end DinoLight.DvidIn
