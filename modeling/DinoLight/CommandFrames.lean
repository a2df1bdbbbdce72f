import DinoLight.CommandParser
/-!
# Streams of command frames

What the reference parser does with the bytes of well-formed frames, and with
every part of such a stream: it is between two frames or inside one.
-/
open Clocked

namespace DinoLight.CommandFrames
open CommandParser UartRxController

/-- A command with a payload of its size. -/
structure Frame (num_blocks : Nat) where
  cmd : BitVec 8
  payload : List (BitVec 8)
  known : cmd.toNat ≤ 2
  sized : payload.length = payloadSize num_blocks cmd

variable {num_blocks : Nat}

/-- The frame that selects `mode`. -/
def Frame.setMode (mode : BitVec 8) : Frame num_blocks := ⟨0, [mode], Nat.zero_le 2, rfl⟩

def Frame.encode (f : Frame num_blocks) : List (BitVec 8) := f.cmd :: f.payload

def encode (fs : List (Frame num_blocks)) : List (BitVec 8) := fs.flatMap Frame.encode

/-- The registers after the frames `fs`. -/
def writeAll (r : Registers) (fs : List (Frame num_blocks)) : Registers :=
  fs.foldl (fun r f => r.write f.cmd f.payload) r

@[simp] theorem encode_nil : encode ([] : List (Frame num_blocks)) = [] := rfl

@[simp] theorem encode_cons (f : Frame num_blocks) (fs : List (Frame num_blocks)) :
    encode (f :: fs) = f.cmd :: f.payload ++ encode fs := rfl

@[simp] theorem encode_append (fs gs : List (Frame num_blocks)) : encode (fs ++ gs) = encode fs ++ encode gs := by
  simp [encode]

theorem run_append (p : Parser) (as bs : List (BitVec 8)) :
    p.run num_blocks (as ++ bs) = (p.run num_blocks as).run num_blocks bs := by
  simp [Parser.run]

/-! ## Whole frames -/

/-- Inside a payload the parser collects. -/
theorem run_part (r : Registers) (cmd : BitVec 8) (part bs : List (BitVec 8))
    (h : part.length + bs.length < payloadSize num_blocks cmd) :
    Parser.run num_blocks ⟨some (cmd, part), r⟩ bs = ⟨some (cmd, part ++ bs), r⟩ := by
  induction bs generalizing part with
  | nil => simp [Parser.run]
  | cons b bs ih =>
    rw [List.length_cons] at h
    have hne : part.length + 1 ≠ payloadSize num_blocks cmd := by omega
    have := ih (part ++ [b]) (by simp; omega)
    simpa [Parser.run, Parser.feed, hne] using this

theorem run_open (r : Registers) (cmd : BitVec 8) (part : List (BitVec 8))
    (h : part.length < payloadSize num_blocks cmd) :
    Parser.run num_blocks ⟨none, r⟩ (cmd :: part) = ⟨some (cmd, part), r⟩ :=
  run_part r cmd [] part (by simpa using h)

/-- A frame's payload has a last byte. -/
theorem Frame.payload_last (hN : 0 < num_blocks) (f : Frame num_blocks) : ∃ part b,
    f.payload = part ++ [b] ∧ part.length + 1 = payloadSize num_blocks f.cmd := by
  have hlen : 0 < f.payload.length := by
    rw [f.sized]
    exact payloadSize_pos hN f.cmd
  have hp := (List.dropLast_concat_getLast (List.ne_nil_of_length_pos hlen)).symm
  refine ⟨_, _, hp, ?_⟩
  rw [← f.sized]
  exact (congrArg List.length hp).symm ▸ by simp

/-- The payload's last byte completes the frame. -/
theorem run_frame (hN : 0 < num_blocks) (r : Registers) (f : Frame num_blocks) :
    Parser.run num_blocks ⟨none, r⟩ f.encode = ⟨none, r.write f.cmd f.payload⟩ := by
  obtain ⟨part, b, hp, hl⟩ := f.payload_last hN
  rw [Frame.encode, hp, ← List.cons_append, run_append, run_open r f.cmd part (by omega)]
  simp [Parser.run, Parser.feed, hl]

theorem run_encode (hN : 0 < num_blocks) (r : Registers) (fs : List (Frame num_blocks)) :
    Parser.run num_blocks ⟨none, r⟩ (encode fs) = ⟨none, writeAll r fs⟩ := by
  induction fs generalizing r with
  | nil => rfl
  | cons f fs ih =>
    rw [show encode (f :: fs) = f.encode ++ encode fs from rfl, run_append, run_frame hN, ih]
    rfl

/-- The payload of the last frame with command `cmd`. -/
def lastPayload (fs : List (Frame num_blocks)) (cmd : BitVec 8) : Option (List (BitVec 8)) :=
  (fs.filter (·.cmd = cmd)).getLast?.map Frame.payload

theorem lastPayload_concat (fs : List (Frame num_blocks)) (f : Frame num_blocks) (cmd : BitVec 8) :
    lastPayload (fs ++ [f]) cmd = if f.cmd = cmd then some f.payload else lastPayload fs cmd := by
  by_cases h : f.cmd = cmd <;> simp [lastPayload, h]

/-- After any frames the registers are those of the last frame of each command. -/
theorem writeAll_last (r : Registers) (fs : List (Frame num_blocks)) : writeAll r fs =
    { mode := ((lastPayload fs 0).map fun p => (p.headD 0).extractLsb' 0 2).getD r.mode
      block_counts := (lastPayload fs 1).getD r.block_counts
      custom_block_values := (lastPayload fs 2).getD r.custom_block_values } := by
  induction fs using List.reverseRecOn with
  | nil => rfl
  | append_singleton fs f ih =>
    have hw : writeAll r (fs ++ [f]) = (writeAll r fs).write f.cmd f.payload := by simp [writeAll]
    rw [hw, ih]
    simp only [lastPayload_concat, Registers.write]
    rcases known_command f.known with h | h | h <;> simp [h]

/-! ## Parts of a stream -/

/-- A part of a stream ends between two frames or inside one. -/
theorem part_cases {fs : List (Frame num_blocks)} {q : List (BitVec 8)} (h : q <+: encode fs) :
    (∃ pre, pre <+: fs ∧ q = encode pre) ∨
      ∃ pre f part, pre ++ [f] <+: fs ∧ part <+: f.payload ∧ part.length < f.payload.length ∧
        q = encode pre ++ f.cmd :: part := by
  induction fs generalizing q with
  | nil => exact .inl ⟨[], List.nil_prefix, List.prefix_nil.1 h⟩
  | cons f fs ih =>
    rw [encode_cons] at h
    rcases List.prefix_or_prefix_of_prefix h (List.prefix_append (f.cmd :: f.payload) (encode fs)) with h | ⟨t, rfl⟩
    · rcases q with _ | ⟨b, part⟩
      · exact .inl ⟨[], List.nil_prefix, rfl⟩
      · obtain ⟨rfl, hpart⟩ := List.cons_prefix_cons.1 h
        rcases Nat.lt_or_eq_of_le hpart.length_le with hlt | heq
        · exact .inr ⟨[], f, part, by simp, hpart, hlt, rfl⟩
        · exact .inl ⟨[f], by simp, by simp [hpart.eq_of_length heq]⟩
    · rcases ih ((List.prefix_append_right_inj _).1 h) with ⟨pre, hpre, rfl⟩ | ⟨pre, g, part, hpre, hpart, hlt, rfl⟩
      · exact .inl ⟨f :: pre, List.cons_prefix_cons.2 ⟨rfl, hpre⟩, rfl⟩
      · exact .inr ⟨f :: pre, g, part, List.cons_prefix_cons.2 ⟨rfl, hpre⟩, hpart, hlt, by simp⟩

/-- The byte after a part that ends between frames is a command. -/
theorem next_known (hN : 0 < num_blocks) (r : Registers) {fs : List (Frame num_blocks)} {q : List (BitVec 8)}
    {b : BitVec 8} (h : q ++ [b] <+: encode fs) (hf : (Parser.run num_blocks ⟨none, r⟩ q).frame = none) :
    ∃ f ∈ fs, b = f.cmd := by
  rcases part_cases ((List.prefix_append q [b]).trans h) with ⟨pre, ⟨rest, rfl⟩, rfl⟩ | ⟨pre, f, part, -, -, hlt, rfl⟩
  · rw [encode_append, List.prefix_append_right_inj] at h
    rcases rest with _ | ⟨f, rest⟩
    · simp at h
    · exact ⟨f, by simp, (List.cons_prefix_cons.1 h).1⟩
  · rw [run_append, run_encode hN, run_open _ _ _ (by rw [← f.sized]; exact hlt)] at hf
    simp at hf

/-- The byte that completes a frame is its payload's last. -/
theorem completes_iff (hN : 0 < num_blocks) (r : Registers) {fs : List (Frame num_blocks)} {q : List (BitVec 8)}
    {b c : BitVec 8} (h : q ++ [b] <+: encode fs) :
    (Parser.run num_blocks ⟨none, r⟩ q).completes num_blocks = some c ↔
      ∃ pre f, pre ++ [f] <+: fs ∧ f.cmd = c ∧ q ++ [b] = encode (pre ++ [f]) := by
  constructor
  · intro hc
    rcases part_cases ((List.prefix_append q [b]).trans h) with ⟨pre, -, rfl⟩ | ⟨pre, f, part, hpre, -, hlt, rfl⟩
    · simp [run_encode hN, Parser.completes] at hc
    · rw [run_append, run_encode hN, run_open _ _ _ (by rw [← f.sized]; exact hlt)] at hc
      simp only [Parser.completes, ← f.sized] at hc
      split at hc
      case isTrue hl =>
        refine ⟨pre, f, hpre, Option.some.inj hc, ?_⟩
        obtain ⟨rest, rfl⟩ := hpre
        rw [encode_append] at h
        exact (List.prefix_of_prefix_length_le h (List.prefix_append _ _) (by simp; omega)).eq_of_length
          (by simp; omega)
      case isFalse => simp at hc
  · rintro ⟨pre, f, -, rfl, hq⟩
    obtain ⟨part, b', hp, hl⟩ := f.payload_last hN
    have hq' : q ++ [b] = encode pre ++ f.cmd :: part ++ [b'] := by rw [hq]; simp [hp]
    obtain rfl := List.append_inj_left' hq' rfl
    rw [run_append, run_encode hN, run_open _ _ _ (by omega)]
    simp [Parser.completes, hl]

/-! ## Strobed streams -/

section Streams
variable {w : Nat → UartRxController.Inputs} {s : Nat → UartRxController.Regs num_blocks}
  {fs : List (Frame num_blocks)}

theorem received_strobe {n : Nat} (hv : (w n).data_valid = true) :
    received w (n + 1) = received w n ++ [(w n).data_in] := by
  simp [received_succ, strobe, hv]

theorem stream_known (hN : 0 < num_blocks) (hw : ∀ n, received w n <+: encode fs) (r : Registers) :
    KnownCommands num_blocks ⟨none, r⟩ w := by
  intro n hv hf
  obtain ⟨f, -, hb⟩ := next_known hN r (received_strobe hv ▸ hw (n + 1)) hf
  rw [hb]
  exact f.known

/-- A strobe completes a frame when the bytes up to it are whole frames, of
which it ends the last. -/
theorem completed_iff (hN : 0 < num_blocks) (hw : ∀ n, received w n <+: encode fs) (r : Registers) (n : Nat)
    (c : BitVec 8) : completed num_blocks ⟨none, r⟩ w n = some c ↔ (w n).data_valid = true ∧
      ∃ pre f, pre ++ [f] <+: fs ∧ f.cmd = c ∧ received w (n + 1) = encode (pre ++ [f]) := by
  cases hv : (w n).data_valid
  · simp [completed, hv]
  · have hq := received_strobe hv
    have h := completes_iff hN r (c := c) (hq ▸ hw (n + 1))
    simp only [completed, hv, if_true, true_and, hq]
    exact h

/-- No later part of a stream is as long as one that a strobe ends. -/
theorem received_strobe_inj {m n : Nat} (hm : (w m).data_valid = true) (hn : (w n).data_valid = true)
    (h : received w (m + 1) = received w (n + 1)) : m = n := by
  have hlt {m n : Nat} (hn : (w n).data_valid = true) (h : m < n) :
      (received w (m + 1)).length < (received w (n + 1)).length := by
    have := (received_mono w (Nat.succ_le_of_lt h)).length_le
    rw [received_strobe hn, List.length_append, List.length_singleton]
    exact Nat.lt_succ_of_le this
  rcases Nat.lt_trichotomy m n with hmn | hmn | hmn
  · exact absurd (congrArg List.length h) (Nat.ne_of_lt (hlt hn hmn))
  · exact hmn
  · exact absurd (congrArg List.length h) (Nat.ne_of_gt (hlt hm hmn))

end Streams

/-! ## Sent bytes -/

section Sent
variable {w w' : Nat → UartRxController.Inputs}

/-- The bytes `bs`, one in every third cycle. -/
def send (bs : List (BitVec 8)) (n : Nat) : UartRxController.Inputs where
  reset_in := false
  data_in := bs.getD (n / 3) 0
  data_valid := n % 3 = 0 ∧ n < 3 * bs.length

theorem send_valid {bs : List (BitVec 8)} {n : Nat} :
    (send bs n).data_valid = true ↔ n % 3 = 0 ∧ n < 3 * bs.length := by
  simp [send]

theorem send_spaced (bs : List (BitVec 8)) : Spaced (send bs) := by
  intro m n hm hn hlt
  rw [send_valid] at hm hn
  omega

theorem received_send (bs : List (BitVec 8)) (n : Nat) : received (send bs) n = bs.take ((n + 2) / 3) := by
  induction n with
  | zero => simp [received]
  | succ n ih =>
    rw [received_succ, ih, strobe]
    by_cases hv : n % 3 = 0 ∧ n < 3 * bs.length
    · obtain ⟨hmod, hlt⟩ := hv
      have hk : n / 3 < bs.length := by omega
      rw [if_pos (send_valid.2 ⟨hmod, hlt⟩), show (n + 2) / 3 = n / 3 by omega,
        show (n + 1 + 2) / 3 = n / 3 + 1 by omega, List.take_succ_eq_append_getElem hk]
      simp [send, hk]
    · rw [if_neg fun h => hv (send_valid.1 h), List.append_nil]
      rcases Nat.lt_or_ge n (3 * bs.length) with hlt | hge
      · rw [show (n + 1 + 2) / 3 = (n + 2) / 3 by omega]
      · rw [List.take_of_length_le (by omega), List.take_of_length_le (by omega)]

/-- `w` before cycle `a`, and then `w'`. -/
def splice (a : Nat) (w w' : Nat → UartRxController.Inputs) (n : Nat) : UartRxController.Inputs :=
  if n < a then w n else w' (n - a)

theorem splice_lt {a n : Nat} (h : n < a) : splice a w w' n = w n := if_pos h

@[simp] theorem splice_add (a n : Nat) : splice a w w' (a + n) = w' n := by
  simp [splice]

theorem received_congr {n : Nat} (h : ∀ t < n, w t = w' t) : received w n = received w' n := by
  induction n with
  | zero => rfl
  | succ n ih => rw [received_succ, received_succ, ih fun t ht => h t (by omega), h n (by omega)]

theorem received_add (w : Nat → UartRxController.Inputs) (m n : Nat) :
    received w (m + n) = received w m ++ received (fun t => w (m + t)) n :=
  collect_add _ m n

theorem received_splice (a n : Nat) : received (splice a w w') (a + n) = received w a ++ received w' n := by
  rw [received_add, received_congr fun t ht => splice_lt ht]
  simp

theorem splice_spaced {a : Nat} (hw : Spaced w) (hw' : Spaced w')
    (hquiet : ∀ n, n < a → (w n).data_valid = true → n + 3 ≤ a) : Spaced (splice a w w') := by
  intro m n hm hn hlt
  rcases Nat.lt_or_ge m a with hma | hma
  · rw [splice_lt hma] at hm
    rcases Nat.lt_or_ge n a with hna | hna
    · rw [splice_lt hna] at hn
      exact hw m n hm hn hlt
    · have := hquiet m hma hm
      omega
  · obtain ⟨j, rfl⟩ := Nat.exists_eq_add_of_le hma
    obtain ⟨k, rfl⟩ := Nat.exists_eq_add_of_le (show a ≤ n by omega)
    rw [splice_add] at hm hn
    have := hw' j k hm hn (by omega)
    omega

end Sent

end DinoLight.CommandFrames
