import DinoLight.DvidIn
/-!
# Finding the framing

Where the third channel sends a sync word often enough, and every so often a
vertical blanking long enough for the timer to run out, `dvid_in` ends at the
framing in which the words were sent, whatever state it is in and whatever
the picture looks like in the wrong ones.
-/
open Clocked SerialBits

namespace DinoLight.DvidLock
open DvidIn
open InputChannel (Carries Marks isSync)
open TmdsDecode (Symbol)

/-- The framing of words that start at bit `p` of the stream. -/
def aligned (every_other : Bool) (p : Nat) : Nat := (p + if every_other then 5 else 0) % 10

/-- What a framing shows in the third channel in a cycle. -/
def shows (w : Nat → Inputs) (every_other : Bool) (T f t : Nat) : Prop :=
  isSync (~~~windowAt 10 (received w .c2) (10 * (T + t) + f - Gearbox.lag every_other f)) = true

theorem lag_le (e : Bool) (f : Nat) : 10 ≤ Gearbox.lag e f ∧ Gearbox.lag e f ≤ 20 := by
  unfold Gearbox.lag
  split
  · omega
  · split <;> omega

section
variable {w : Nat → Inputs} {s : Nat → Regs} (hs : Follows cycle w s) (h0 : (s 0).framing.toNat < 10)
  {every_other : Bool}
include hs

/-- The word of a cycle in which the framing is held. -/
theorem word_run {ch : Channel} (he : ((s 0).input_channel ch).gearbox.every_other = every_other) {t p : Nat}
    (hf : (s t).framing.toNat < 10) (hsame : (s (t + 1)).framing = (s t).framing)
    (hp : p + Gearbox.lag every_other (s t).framing.toNat = 10 * t + (s t).framing.toNat) :
    ((s (t + 1)).input_channel ch).gearbox.data_out = ~~~windowAt 10 (received w ch) p := by
  have h := InputChannel.word_run (channel_follows hs ch) hf (t := t) (p := p) rfl hsame (by rwa [he])
  rwa [received_channel] at h

include h0 in
theorem reports (he : ((s 0).input_channel .c2).gearbox.every_other = every_other) (T : Nat) :
    Hunt.Reports 2 (shows w every_other T) (fun t => hunt (s (T + 2 + t))) fun t => sync_seen (s (T + 2 + t)) := by
  intro t f hheld
  have hfirst : (s (T + 2 + t)).framing.toNat = f := hheld t (Nat.le_refl t) (Nat.le_add_right t 2)
  have hsame : (s (T + 2 + t + 1)).framing = (s (T + 2 + t)).framing := by
    apply BitVec.eq_of_toNat_eq
    rw [hfirst]
    exact hheld (t + 1) (Nat.le_succ t) (Nat.le_succ _)
  have hlag := lag_le every_other f
  have hword := word_run hs he (p := 10 * (T + (t + 2)) + f - Gearbox.lag every_other f) (framing_run hs h0 _) hsame
    (by rw [hfirst]; omega)
  have hseen : sync_seen (s (T + 2 + (t + 2))) = isSync ((s (T + 2 + t + 1)).input_channel .c2).gearbox.data_out :=
    InputChannel.sync_seen_succ (channel_follows hs .c2) (T + 2 + t + 1)
  rw [shows, ← hword, ← hseen]

end

/-! ## What the framings show -/

/-- In the right framing a cycle shows a symbol, the next one in each. -/
theorem aligned_word (every_other : Bool) (p : Nat) : ∃ j₀, 0 < j₀ ∧ ∀ t,
    10 * (p / 10 + 3 + t) + aligned every_other p - Gearbox.lag every_other (aligned every_other p) =
      p + 10 * (j₀ + t) := by
  have hdiv := Nat.div_add_mod p 10
  have hmod := Nat.mod_lt p (by decide : 0 < 10)
  cases every_other with
  | true =>
    simp only [aligned, Gearbox.lag, if_true]
    by_cases h : p % 10 < 5
    · exact ⟨2, by decide, fun t => by omega⟩
    · exact ⟨1, by decide, fun t => by omega⟩
  | false =>
    simp only [aligned, Gearbox.lag, Bool.false_eq_true, if_false, Nat.add_zero]
    by_cases h : p % 10 < 5
    · exact ⟨2, by decide, fun t => by rw [if_pos h]; omega⟩
    · exact ⟨1, by decide, fun t => by rw [if_neg h]; omega⟩

/-- Any other framing shows the end of one symbol and the start of the next. -/
theorem straddles (every_other : Bool) {p f j₀ t : Nat} (hf : f < 10) (hne : f ≠ aligned every_other p) (hj : 0 < j₀)
    (hgood : 10 * (p / 10 + 3 + t) + aligned every_other p - Gearbox.lag every_other (aligned every_other p) =
      p + 10 * (j₀ + t)) :
    ∃ j o, j₀ + t ≤ j + 1 ∧ j ≤ j₀ + t ∧ 0 < o ∧ o < 10 ∧
      10 * (p / 10 + 3 + t) + f - Gearbox.lag every_other f = p + 10 * j + o := by
  have hmod : aligned every_other p < 10 := Nat.mod_lt _ (by decide)
  have hlow : ∃ d, 10 * (p / 10 + 3 + t) + f - Gearbox.lag every_other f + 10 = p + 10 * (j₀ + t) + d ∧
      0 < d ∧ d < 20 ∧ d ≠ 10 := by
    generalize aligned every_other p = g at *
    refine ⟨10 * (p / 10 + 3 + t) + f - Gearbox.lag every_other f + 10 - (p + 10 * (j₀ + t)), ?_⟩
    unfold Gearbox.lag at *
    cases every_other with
    | true =>
      simp only [if_true] at *
      omega
    | false =>
      simp only [Bool.false_eq_true, if_false] at *
      split at hgood <;> split <;> omega
  obtain ⟨d, hd, hpos, hlt, hten⟩ := hlow
  by_cases h : d < 10
  · exact ⟨j₀ + t - 1, d, by omega, by omega, hpos, h, by omega⟩
  · exact ⟨j₀ + t, d - 10, by omega, by omega, by omega, by omega, by omega⟩

/-! ## The lock -/

/-- The third channel keeps a receiver in sync, and lets a lost one move on:
sync words are at most `G` cycles apart, and within every `F` cycles control
bits that last begin. -/
structure Framed (sym : Nat → Symbol) (G F : Nat) : Prop where
  marks : ∀ k, ∃ j, k ≤ j ∧ j < k + G ∧ Marks (sym j)
  blanking : ∀ k, ∃ j, k ≤ j ∧ j < k + F ∧ ∃ c, ∀ i < 32772, sym (j + i) = .control c

section
variable {w : Nat → Inputs} {sym : Nat → Symbol} {p G F : Nat}
  (hcarries : Carries sym p (received w .c2)) (hframed : Framed sym G F)
include hcarries hframed

theorem marks_shown (every_other : Bool) (t : Nat) :
    ∃ u, t ≤ u ∧ u < t + G ∧ shows w every_other (p / 10 + 3) (aligned every_other p) u := by
  obtain ⟨j₀, -, hword⟩ := aligned_word every_other p
  obtain ⟨j, hj, hjG, hmarks⟩ := hframed.marks (j₀ + t)
  obtain ⟨u, rfl⟩ := Nat.exists_eq_add_of_le (Nat.le_trans (Nat.le_add_right j₀ t) hj)
  refine ⟨u, by omega, by omega, ?_⟩
  rw [shows, hword]
  exact (hcarries.marks _).2 hmarks

theorem blanking_hidden (every_other : Bool) (t : Nat) :
    ∃ u, t ≤ u ∧ u < t + F ∧ ∀ v, u ≤ v → v < u + 2 + 32768 → ∀ f < 10,
    f ≠ aligned every_other p → ¬ shows w every_other (p / 10 + 3) f v := by
  obtain ⟨j₀, hpos, hword⟩ := aligned_word every_other p
  obtain ⟨j, hj, hjF, c, hc⟩ := hframed.blanking (j₀ + t - 1)
  refine ⟨j + 1 - j₀, by omega, by omega, fun v h1 h2 f hf hne hshows => ?_⟩
  obtain ⟨j', o, hlow, hhigh, ho, ho', heq⟩ := straddles every_other hf hne hpos (hword v)
  obtain ⟨i, rfl⟩ := Nat.exists_eq_add_of_le (show j ≤ j' by omega)
  rw [shows, heq, hcarries.steady (hc i (by omega)) (hc (i + 1) (by omega)) ho ho'] at hshows
  exact Bool.false_ne_true hshows

end

/-- The framing is found within the time of ten blankings, and kept. -/
theorem framing_found {w : Nat → Inputs} {s : Nat → Regs} (hs : Follows cycle w s) (h0 : (s 0).framing.toNat < 10)
    {every_other : Bool} (he : ((s 0).input_channel .c2).gearbox.every_other = every_other) {sym : Nat → Symbol}
    {p G F : Nat} (hcarries : Carries sym p (received w .c2)) (hframed : Framed sym G F) (hG : G + 2 ≤ 32768) :
    ∃ T, T ≤ p / 10 + 5 + 10 * (F + 32770) ∧ ∀ t, T ≤ t → (s t).framing.toNat = aligned every_other p := by
  have hr : Follows (Hunt.step 10 32768) (fun t => sync_seen (s (p / 10 + 3 + 2 + t)))
      fun t => hunt (s (p / 10 + 3 + 2 + t)) := fun t => hunt_follows hs h0 (p / 10 + 3 + 2 + t)
  obtain ⟨u, -, hu, hlocked⟩ := Hunt.converges hr (reports hs h0 he (p / 10 + 3))
    (blanking_hidden hcarries hframed every_other) (marks_shown hcarries hframed every_other) (by omega)
    (Nat.mod_lt _ (by decide)) (fun _ => inRange_hunt (framing_run hs h0 _)) 0
  refine ⟨p / 10 + 5 + u, by omega, fun t ht => ?_⟩
  obtain ⟨v, rfl⟩ := Nat.exists_eq_add_of_le (Nat.le_trans (Nat.le_add_right _ u) ht)
  exact (hlocked v (by omega)).found

/-- Whatever state it starts in and whatever it has received before, the
receiver finds the framing, within the time of ten blankings, and keeps it. -/
theorem locks {w : Nat → Inputs} {s : Nat → Regs} (hs : Follows cycle w s) (h0 : (s 0).framing.toNat < 10)
    {every_other : Bool} (he : ((s 0).input_channel .c2).gearbox.every_other = every_other) {sym : Nat → Symbol}
    {p G F : Nat} (hcarries : Carries sym p (received w .c2)) (hframed : Framed sym G F) (hG : G + 2 ≤ 32768) :
    ∃ T, T ≤ p / 10 + 32773 + 10 * (F + 32770) ∧ ∀ t, T ≤ t →
      (s t).framing.toNat = aligned every_other p ∧ (s t).synced = true := by
  obtain ⟨T, hT, hframing⟩ := framing_found hs h0 he hcarries hframed hG
  -- the first sync word sets `synced`, and while the framing stays nothing clears it
  have hsets : ∃ v, T ≤ v ∧ v < max T (p / 10 + 5) + G + 3 ∧ (s v).synced = true := by
    obtain ⟨u, hu⟩ := Nat.exists_eq_add_of_le (Nat.le_max_right T (p / 10 + 5))
    obtain ⟨v, huv, hv, hshows⟩ := marks_shown hcarries hframed every_other (u + 2)
    have hseen := ((reports hs h0 he (p / 10 + 3)).held (a := u)
      (fun x h1 _ => hframing (t := p / 10 + 3 + 2 + x) (by omega)) huv).2 hshows
    refine ⟨p / 10 + 3 + 2 + v + 1, by omega, by omega, ?_⟩
    rw [hs _, synced_cycle, if_pos hseen]
  obtain ⟨v, hTv, hv, hset⟩ := hsets
  refine ⟨v, by omega, fun t ht => ⟨hframing t (by omega), ?_⟩⟩
  induction ht with
  | refl => exact hset
  | @step t ht ih =>
    have ht : v ≤ t := ht
    have hsame : (s (t + 1)).framing = (s t).framing := by
      apply BitVec.eq_of_toNat_eq
      rw [hframing _ (by omega), hframing _ (by omega)]
    rw [hs t] at hsame ⊢
    exact synced_held hsame ih

theorem carries_blank (ch : Channel) : Carries (fun _ => .control 0) 0 (received (fun _ => blankInputs) ch) :=
  ⟨fun _ => false, sends_halves (fun _ => rfl) fun _ => rfl⟩

theorem framed_blank : Framed (fun _ => .control 0) 1 1 where
  marks k := ⟨k, Nat.le_refl k, Nat.lt_succ_self k, .inl rfl⟩
  blanking k := ⟨k, Nat.le_refl k, Nat.lt_succ_self k, 0, fun _ _ => rfl⟩

/-- With its gearboxes in the other phase the receiver has to move by five bits. -/
def otherPhase : Regs := { start with input_channel := fun ch =>
  { start.input_channel ch with gearbox := ⟨true, 0, 0⟩ } }

theorem locks_blank : ∃ T, T ≤ 0 / 10 + 32773 + 10 * (1 + 32770) ∧ ∀ t, T ≤ t →
    (after cycle otherPhase (fun _ => blankInputs) t).framing.toNat = aligned true 0 ∧
      (after cycle otherPhase (fun _ => blankInputs) t).synced = true :=
  locks after_follows (by decide) rfl (carries_blank .c2) framed_blank (by decide)

/-! ## The symbols -/

/-- How many cycles after it was sent a symbol is decoded. -/
def latency (p : Nat) : Nat := (p + 15) / 10 + 4

theorem latency_eq (every_other : Bool) (p : Nat) :
    p + Gearbox.lag every_other (aligned every_other p) = 10 * ((p + 15) / 10) + aligned every_other p := by
  cases every_other with
  | true =>
    simp only [aligned, Gearbox.lag, if_true]
    omega
  | false =>
    simp only [aligned, Gearbox.lag, Bool.false_eq_true, if_false, Nat.add_zero]
    split <;> omega

/-- While the framing is right for a channel its symbols come out in order, one
in each cycle. -/
theorem symbol_run {w : Nat → Inputs} {s : Nat → Regs} (hs : Follows cycle w s) {ch : Channel} {every_other : Bool}
    (he : ((s 0).input_channel ch).gearbox.every_other = every_other) {sym : Nat → Symbol} {p : Nat}
    (hcarries : Carries sym p (received w ch)) {j : Nat}
    (h1 : (s (j + (p + 15) / 10)).framing.toNat = aligned every_other p)
    (h2 : (s (j + (p + 15) / 10 + 1)).framing.toNat = aligned every_other p) :
    ((s (j + latency p)).input_channel ch).tmds_decode.output = (sym j).decoded true := by
  have hlag := latency_eq every_other p
  have hword := word_run hs he (t := j + (p + 15) / 10) (p := p + 10 * j)
    (by rw [h1]; exact Nat.mod_lt _ (by decide)) (BitVec.eq_of_toNat_eq (h2.trans h1.symm)) (by rw [h1]; omega)
  rw [← received_channel w s ch] at hcarries hword
  exact InputChannel.symbol_run (channel_follows hs ch) hcarries hword

/-- The colour of a symbol, which is black in blanking. -/
def byte : Symbol → BitVec 8
  | .data d => d
  | .control _ => 0

def isControl : Symbol → Bool
  | .data _ => false
  | .control _ => true

/-- A control bit of a symbol, low where there is picture. -/
def controlBit (i : Nat) : Symbol → Bool
  | .data _ => false
  | .control c => c.getLsbD i

/-- From cycle `T` on the outputs are the symbols of the three channels, each
as many cycles late as its channel. -/
structure Delivers (sym : Channel → Nat → Symbol) (delay : Channel → Nat) (T : Nat) (s : Nat → Regs) : Prop where
  red : ∀ j, T ≤ j + delay .c2 → (outputs (s (j + delay .c2))).red_p = byte (sym .c2 j)
  green : ∀ j, T ≤ j + delay .c1 → (outputs (s (j + delay .c1))).green_p = byte (sym .c1 j)
  blue : ∀ j, T ≤ j + delay .c0 → (outputs (s (j + delay .c0))).blue_p = byte (sym .c0 j)
  blank : ∀ j, T ≤ j + delay .c2 → (outputs (s (j + delay .c2))).blank = isControl (sym .c2 j)
  vsync : ∀ j, T ≤ j + delay .c0 → (outputs (s (j + delay .c0))).vsync = controlBit 1 (sym .c0 j)
  hsync : ∀ j, T ≤ j + delay .c0 →
    (outputs (s (j + delay .c0))).hsync = (isControl (sym .c0 j) && !controlBit 0 (sym .c0 j))

theorem decoded_ports (sym : Symbol) : (sym.decoded true).data_out = byte sym ∧
    (!(sym.decoded true).active_data) = isControl sym ∧ (sym.decoded true).c.getLsbD 1 = controlBit 1 sym ∧
    (sym.decoded true).c.getLsbD 0 = (isControl sym && !controlBit 0 sym) := by
  cases sym with
  | data d => simp [TmdsDecode.Symbol.decoded, byte, isControl, controlBit]
  | control c =>
    refine ⟨rfl, rfl, ?_⟩
    simp only [TmdsDecode.Symbol.decoded, controlBit, isControl, if_true]
    revert c
    decide

/-- If the three channels start their words at the same bit of ten, the framing
of the third is right for all of them. -/
theorem delivers_of_framing {w : Nat → Inputs} {s : Nat → Regs} (hs : Follows cycle w s) {every_other : Bool}
    (he : ∀ ch, ((s 0).input_channel ch).gearbox.every_other = every_other) {sym : Channel → Nat → Symbol}
    {p : Channel → Nat} (hcarries : ∀ ch, Carries (sym ch) (p ch) (received w ch))
    (hskew : ∀ ch, p ch % 10 = p .c2 % 10) {T : Nat}
    (hfound : ∀ t, T ≤ t → (s t).framing.toNat = aligned every_other (p .c2)) :
    Delivers sym (fun ch => latency (p ch)) (T + 4) s := by
  have hframing (ch : Channel) {t : Nat} (ht : T ≤ t) : (s t).framing.toNat = aligned every_other (p ch) := by
    rw [hfound t ht, aligned, aligned, Nat.add_mod, ← hskew ch, ← Nat.add_mod]
  have hout (ch : Channel) {j : Nat} (hj : T + 4 ≤ j + latency (p ch)) :
      ((s (j + latency (p ch))).input_channel ch).tmds_decode.output = (sym ch j).decoded true := by
    unfold latency at hj
    exact symbol_run hs (he ch) (hcarries ch) (hframing ch (by omega)) (hframing ch (by omega))
  constructor <;> intro j hj
  · exact (congrArg TmdsDecode.Output.data_out (hout .c2 hj)).trans (decoded_ports _).1
  · exact (congrArg TmdsDecode.Output.data_out (hout .c1 hj)).trans (decoded_ports _).1
  · exact (congrArg TmdsDecode.Output.data_out (hout .c0 hj)).trans (decoded_ports _).1
  · exact (congrArg (fun o => !TmdsDecode.Output.active_data o) (hout .c2 hj)).trans (decoded_ports _).2.1
  · exact (congrArg (fun o => (TmdsDecode.Output.c o).getLsbD 1) (hout .c0 hj)).trans (decoded_ports _).2.2.1
  · exact (congrArg (fun o => (TmdsDecode.Output.c o).getLsbD 0) (hout .c0 hj)).trans (decoded_ports _).2.2.2

/-- Each channel is decoded with the delay of its own, and `hsync` comes out inverted. -/
theorem video_delivered {w : Nat → Inputs} {s : Nat → Regs} (hs : Follows cycle w s) (h0 : (s 0).framing.toNat < 10)
    {every_other : Bool} (he : ∀ ch, ((s 0).input_channel ch).gearbox.every_other = every_other)
    {sym : Channel → Nat → Symbol} {p : Channel → Nat} (hcarries : ∀ ch, Carries (sym ch) (p ch) (received w ch))
    (hskew : ∀ ch, p ch % 10 = p .c2 % 10) {G F : Nat} (hframed : Framed (sym .c2) G F) (hG : G + 2 ≤ 32768) :
    ∃ T, T ≤ p .c2 / 10 + 32777 + 10 * (F + 32770) ∧ Delivers sym (fun ch => latency (p ch)) T s := by
  obtain ⟨T, hT, hfound⟩ := framing_found hs h0 (he .c2) (hcarries .c2) hframed hG
  exact ⟨T + 4, by omega, delivers_of_framing hs he hcarries hskew hfound⟩

/-- Lines of 228 pixels with long blankings between them, in which both syncs are
high for 64 cycles. -/
def lines : Channel → Nat → Symbol
  | .c0, j => if j % 33000 < 32772 then .control (if j % 33000 < 64 then 3 else 0) else .data (BitVec.ofNat 8 j)
  | .c1, j => if j % 33000 < 32772 then .control 0 else .data 0x80
  | .c2, j => if j % 33000 < 32772 then .control 0 else .data (BitVec.ofNat 8 (3 * j))

/-- How many words late a channel starts. -/
def words : Channel → Nat
  | .c0 => 1
  | .c1 => 0
  | .c2 => 2

/-- The lines on the three channels, with every second word inverted. -/
def lineInputs (t : Nat) : Inputs where
  first ch := (TmdsDecode.encode (t % 2 = 0) (lines ch (t - words ch))).extractLsb' 0 5
  second ch := (TmdsDecode.encode (t % 2 = 0) (lines ch (t - words ch))).extractLsb' 5 5

theorem carries_lines (ch : Channel) : Carries (lines ch) (10 * words ch) (received lineInputs ch) := by
  refine ⟨fun j => (words ch + j) % 2 = 0, fun j => ?_⟩
  have hsends : Sends (fun t => TmdsDecode.encode (t % 2 = 0) (lines ch (t - words ch))) 0 (received lineInputs ch) :=
    sends_halves (fun _ => rfl) fun _ => rfl
  rw [← Nat.mul_add, ← Nat.zero_add (10 * (words ch + j)), hsends (words ch + j)]
  beta_reduce
  rw [Nat.add_sub_cancel_left]

theorem framed_lines : Framed (lines .c2) 229 33000 := by
  have hcontrol {j : Nat} (h : j % 33000 < 32772) : lines .c2 j = .control 0 := if_pos h
  have hnext (k : Nat) : ∃ j, k ≤ j ∧ j < k + 33000 ∧ j % 33000 = 0 ∧ (32772 ≤ k % 33000 → j < k + 229) :=
    ⟨(k + 32999) / 33000 * 33000, by omega, by omega, by omega, by omega⟩
  constructor
  · intro k
    rcases Nat.lt_or_ge (k % 33000) 32772 with h | h
    · exact ⟨k, Nat.le_refl k, by omega, by rw [hcontrol h]; exact .inl rfl⟩
    · obtain ⟨j, hj, -, hmod, hnear⟩ := hnext k
      exact ⟨j, hj, hnear h, by rw [hcontrol (by omega)]; exact .inl rfl⟩
  · intro k
    obtain ⟨j, hj, hlt, hmod, -⟩ := hnext k
    exact ⟨j, hj, hlt, 0, fun i hi => hcontrol (by omega)⟩

theorem lines_delivered : ∃ T, T ≤ 20 / 10 + 32777 + 10 * (33000 + 32770) ∧
    Delivers lines (fun ch => latency (10 * words ch)) T (after cycle otherPhase lineInputs) :=
  video_delivered after_follows (by decide) (fun _ => rfl) carries_lines (by rintro (_ | _ | _) <;> rfl) framed_lines
    (by decide)

end DinoLight.DvidLock
