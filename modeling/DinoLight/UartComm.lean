import DinoLight.Truncation
/-!
# `uart_comm.py`

The functions of the host that write to the serial port, all but `boot` and
`colorPulse`, with `n` for `numLEDs`. Each call or loop iteration writes one
frame, if its buffer has the size its command asks for. All of them do but that
of `shift`, which goes by three LEDs at a time.
-/
open Clocked

namespace DinoLight.UartComm
open UartRxController CommandParser CommandFrames

/-! ## The writers -/

/-- The list `xs * n` of the source. -/
def repeated (xs : List (BitVec 8)) (n : Nat) : List (BitVec 8) := (List.replicate n xs).flatten

def writeBlockCount (n : Nat) : List (BitVec 8) := 0x01 :: repeated [0x0A] n

/-- The first iteration, which ends with `break`. -/
def shift (n : Nat) : List (BitVec 8) :=
  0x02 :: repeated [0x00, 0x00, 0xFF, 0xFF, 0x00, 0x00, 0x00, 0xFF, 0x00] (n / 3)

def oneLED (n : Nat) : List (BitVec 8) := 0x02 :: [0x80, 0, 0] ++ repeated [0x00, 0x00, 0x00] (n - 1)

def setMode (mode : BitVec 8) : List (BitVec 8) := [0x00, mode]

/-- One iteration of `writeColor`. -/
def writeColor (n : Nat) (color : Vector (BitVec 8) 3) : List (BitVec 8) := 0x02 :: repeated color.toList n

/-- Iteration `k` of the loops of `grbCycle`. -/
def grbCycle (n k : Nat) : List (BitVec 8) :=
  0x02 :: if k % 3 = 0 then repeated [0xFF, 0x80, 0x80] n
    else if k % 3 = 1 then repeated [0x80, 0xFF, 0x80] n
    else repeated [0x80, 0x80, 0xFF] n

/-- `currentBuffer` of `rainbow` after `k` iterations. `hsv i` is
`colorsys.hsv_to_rgb(i / 100.0, 1, 1)`, each component as a byte. -/
def rainbowBuffer (n : Nat) (hsv : Nat → BitVec 8 × BitVec 8 × BitVec 8) : Nat → List (BitVec 8)
  | 0 => repeated [0x00] (n * 3)
  | k + 1 =>
    let currentColor := hsv (5 * (k % 20))
    let currentBuffer := rainbowBuffer n hsv k
    [currentColor.2.1, currentColor.1, currentColor.2.2] ++ currentBuffer.take (currentBuffer.length - 3)

/-- Iteration `k` of the loops of `rainbow`. -/
def rainbow (n : Nat) (hsv : Nat → BitVec 8 × BitVec 8 × BitVec 8) (k : Nat) : List (BitVec 8) :=
  0x02 :: rainbowBuffer n hsv (k + 1)

/-- A call, of a function with an endless loop for some iterations. -/
inductive Call where
  | writeBlockCount
  | setMode (mode : BitVec 8)
  | shift
  | oneLED
  | rainbow (iterations : Nat)
  | grbCycle (iterations : Nat)
  | writeColor (color : Vector (BitVec 8) 3) (iterations : Nat)
  deriving DecidableEq

section Writes
variable (n : Nat) (hsv : Nat → BitVec 8 × BitVec 8 × BitVec 8)

/-- The bytes of a call, iteration by iteration. -/
def Call.writes : Call → List (List (BitVec 8))
  | .writeBlockCount => [UartComm.writeBlockCount n]
  | .setMode mode => [UartComm.setMode mode]
  | .shift => [UartComm.shift n]
  | .oneLED => [UartComm.oneLED n]
  | .rainbow iterations => (List.range iterations).map (UartComm.rainbow n hsv)
  | .grbCycle iterations => (List.range iterations).map (UartComm.grbCycle n)
  | .writeColor color iterations => List.replicate iterations (UartComm.writeColor n color)

def writes (calls : List Call) : List (List (BitVec 8)) := calls.flatMap (Call.writes n hsv)

end Writes

/-! ## Frames -/

variable {n : Nat} {hsv : Nat → BitVec 8 × BitVec 8 × BitVec 8}

@[simp] theorem length_repeated (xs : List (BitVec 8)) (n : Nat) : (repeated xs n).length = n * xs.length := by
  simp [repeated]

/-- `q` is a command and a payload of its size. -/
def IsFrame (n : Nat) (q : List (BitVec 8)) : Prop := ∃ f : Frame n, q = f.encode

theorem isFrame_colours {payload : List (BitVec 8)} (h : payload.length = 3 * n) : IsFrame n (0x02 :: payload) :=
  ⟨⟨2, payload, by decide, h⟩, rfl⟩

theorem length_rainbowBuffer (hn : 0 < n) (k : Nat) : (rainbowBuffer n hsv k).length = 3 * n := by
  induction k with
  | zero => simp [rainbowBuffer, Nat.mul_comm]
  | succ k ih =>
    simp [rainbowBuffer, ih]
    omega

/-- Every call but `shift` writes frames. -/
theorem call_frames (hn : 0 < n) {call : Call} (h : 3 ∣ n ∨ call ≠ .shift) : ∀ q ∈ call.writes n hsv, IsFrame n q := by
  intro q hq
  cases call with
  | writeBlockCount =>
    obtain rfl := List.mem_singleton.1 hq
    exact ⟨⟨1, repeated [0x0A] n, by decide, by simp [payloadSize]⟩, rfl⟩
  | setMode mode =>
    obtain rfl := List.mem_singleton.1 hq
    exact ⟨.setMode mode, rfl⟩
  | shift =>
    obtain rfl := List.mem_singleton.1 hq
    apply isFrame_colours
    rw [length_repeated]
    rcases h with h | h
    · simp
      omega
    · exact absurd rfl h
  | oneLED =>
    obtain rfl := List.mem_singleton.1 hq
    apply isFrame_colours
    simp
    omega
  | rainbow iterations =>
    obtain ⟨k, -, rfl⟩ := List.mem_map.1 hq
    exact isFrame_colours (length_rainbowBuffer hn _)
  | grbCycle iterations =>
    obtain ⟨k, -, rfl⟩ := List.mem_map.1 hq
    apply isFrame_colours
    split
    · simp [Nat.mul_comm]
    · split <;> simp [Nat.mul_comm]
  | writeColor color iterations =>
    obtain rfl := List.eq_of_mem_replicate hq
    apply isFrame_colours
    simp [Nat.mul_comm]

/-- The frames of messages that are all frames. -/
theorem exists_frames {qs : List (List (BitVec 8))} (h : ∀ q ∈ qs, IsFrame n q) :
    ∃ fs : List (Frame n), qs = fs.map Frame.encode := by
  induction qs with
  | nil => exact ⟨[], rfl⟩
  | cons q qs ih =>
    obtain ⟨f, rfl⟩ := h q List.mem_cons_self
    obtain ⟨fs, rfl⟩ := ih fun q hq => h q (List.mem_cons_of_mem _ hq)
    exact ⟨f :: fs, rfl⟩

/-! ## What the controller makes of them -/

/-- The messages `qs`, strobed at any rate to a controller in any idle state:
after each of them the controller is idle again, as soon as it has had the time
for the last byte, and the next one's first byte is taken as a command. -/
def Understood (n : Nat) (qs : List (List (BitVec 8))) : Prop :=
  ∀ (s₀ : Regs n) (w : Nat → Inputs), Reachable step powerUp s₀ → s₀.state = .idle →
    (∀ t, (w t).reset_in = false) → Spaced w → (∀ t, received w t <+: qs.flatten) →
    ∀ pre m, pre <+: qs → received w m = pre.flatten →
      ((∀ t < m, (w t).data_valid = true → t + 3 ≤ m) → (after step s₀ w m).state = .idle) ∧
        ((w m).data_valid = true → nextStateDecode (after step s₀ w m) (w m) = .command)

theorem flatten_frames (fs : List (Frame n)) : (fs.map Frame.encode).flatten = encode fs :=
  (List.flatMap_def ..).symm

section Runs
variable {s₀ : Regs n} {w : Nat → Inputs}

/-- Between frames the controller is idle or has just taken the last byte. -/
theorem idle_or_recent (hn : 0 < n) (h₀ : AtRest s₀) (hr : ∀ t, (w t).reset_in = false) (hsp : Spaced w)
    {fs : List (Frame n)} (hw : ∀ t, received w t <+: encode fs) {m : Nat}
    (hp : (Parser.run n ⟨none, registers s₀⟩ (received w m)).frame = none) :
    (after step s₀ w m).state = .idle ∨ ∃ t < m, m < t + 3 ∧ (w t).data_valid = true := by
  have hstands := (tracks_run (s := after step s₀ w) hn after_follows h₀ hr hsp (stream_known hn hw _) m).stands
  have hrecent := recent (s := after step s₀ w) after_follows h₀.idle hr m
  unfold Stands at hstands
  unfold Recent at hrecent
  cases hst : (after step s₀ w m).state <;> simp only [hst] at hstands hrecent
  case idle => exact .inl rfl
  case payloadWait =>
    obtain ⟨cmd, payload, hparser, -, -, -⟩ := hstands
    rw [delayed_fed] at hparser
    have := (congrArg Parser.frame hparser).symm.trans hp
    cases this
  case command | payloadWrite =>
    obtain ⟨t, rfl, ht⟩ := hrecent
    exact .inr ⟨t, by omega, by omega, ht⟩
  case finish =>
    obtain ⟨t, rfl, ht⟩ := hrecent
    exact .inr ⟨t, by omega, by omega, ht⟩

/-- Inside a frame the controller is not idle. -/
theorem not_idle (hn : 0 < n) (h₀ : AtRest s₀) (hr : ∀ t, (w t).reset_in = false) (hsp : Spaced w)
    {fs : List (Frame n)} (hw : ∀ t, received w t <+: encode fs) {m : Nat}
    (hp : (Parser.run n ⟨none, registers s₀⟩ (received w m)).frame ≠ none) : (after step s₀ w m).state ≠ .idle := by
  intro hst
  have hstands := (tracks_run (s := after step s₀ w) hn after_follows h₀ hr hsp (stream_known hn hw _) m).stands
  simp only [Stands, hst] at hstands
  have hparser := hstands.1
  rw [delayed_fed] at hparser
  exact hp (congrArg Parser.frame hparser)

end Runs

theorem frames_understood (hn : 0 < n) (fs : List (Frame n)) : Understood n (fs.map Frame.encode) := by
  intro s₀ w h₀ hidle hr hsp hw pre m hpre hm
  have hrest := Truncation.atRest_of_idle h₀ hidle
  rw [flatten_frames] at hw
  obtain ⟨gs, -, rfl⟩ := List.prefix_map_iff.1 hpre
  have hp : (Parser.run n ⟨none, registers s₀⟩ (received w m)).frame = none := by
    rw [hm, flatten_frames, run_encode hn]
  have hstate := idle_or_recent hn hrest hr hsp hw hp
  constructor
  · intro hquiet
    rcases hstate with h | ⟨t, ht, hlt, hv⟩
    · exact h
    · have := hquiet t ht hv
      omega
  · intro hv
    rcases hstate with h | ⟨t, ht, hlt, hv'⟩
    · simp [nextStateDecode, hr m, h, hv]
    · have := hsp t m hv' hv ht
      omega

/-! ## The short frame of `shift` -/

theorem shift_short (h : ¬ 3 ∣ n) : (shift n).tail.length < 3 * n := by
  simp [shift]
  omega

/-- A message of `shift` between frames leaves the controller in its payload. -/
theorem shift_misunderstood (hn : 0 < n) (h : ¬ 3 ∣ n) {pre post : List (List (BitVec 8))}
    (hpre : ∀ q ∈ pre, IsFrame n q) : ¬ Understood n (pre ++ shift n :: post) := by
  intro hu
  obtain ⟨fs, rfl⟩ := exists_frames hpre
  have hshort := shift_short h
  -- a frame that the message begins
  let g : Frame n := ⟨2, (shift n).tail ++ List.replicate (3 * n - (shift n).tail.length) 0, by decide, by
    rw [List.length_append, List.length_replicate, Nat.add_sub_cancel' (Nat.le_of_lt hshort)]
    rfl⟩
  have hbytes : encode fs ++ shift n <+: encode (fs ++ [g]) := by
    rw [encode_append, List.prefix_append_right_inj]
    exact ⟨List.replicate (3 * n - (shift n).tail.length) 0, by simp [g, shift]⟩
  have hsent (t : Nat) : received (send (encode fs ++ shift n)) t <+: encode fs ++ shift n := by
    rw [received_send]
    exact List.take_prefix _ _
  have hall : received (send (encode fs ++ shift n)) (3 * (encode fs ++ shift n).length) = encode fs ++ shift n := by
    rw [received_send, List.take_of_length_le (by omega)]
  have hpart : encode fs ++ shift n <+: (fs.map Frame.encode ++ shift n :: post).flatten := by
    rw [List.flatten_append, flatten_frames, List.prefix_append_right_inj, List.flatten_cons]
    exact List.prefix_append _ _
  have hidle := (hu powerUp (send (encode fs ++ shift n)) ⟨fun _ => ⟨false, 0, false⟩, 0, rfl⟩ rfl (fun _ => rfl)
    (send_spaced _) (fun t => (hsent t).trans hpart) (fs.map Frame.encode ++ [shift n])
    (3 * (encode fs ++ shift n).length) ⟨post, by simp⟩ (by rw [hall]; simp [flatten_frames])).1
  refine not_idle hn powerUp_atRest (fun _ => rfl) (send_spaced _) (fun t => (hsent t).trans hbytes) ?_ (hidle ?_)
  · rw [hall, run_append, run_encode hn, show shift n = 2 :: (shift n).tail from rfl, run_open _ _ _ hshort]
    simp
  · intro t _ hv
    have := send_valid.1 hv
    omega

theorem shift_not_frame (h : ¬ 3 ∣ n) : ¬ IsFrame n (shift n) := by
  rintro ⟨f, hf⟩
  obtain ⟨hcmd, hpayload⟩ := List.cons.inj hf
  have hsized := f.sized
  rw [← hcmd, ← hpayload] at hsized
  exact absurd hsized (Nat.ne_of_lt (shift_short h))

/-- The calls write whole frames, and are understood, exactly if they leave out
`shift` or the number of LEDs is a multiple of three. -/
theorem writers_frames_iff (hn : 0 < n) (hsv : Nat → BitVec 8 × BitVec 8 × BitVec 8) (calls : List Call) :
    ((∃ fs : List (Frame n), writes n hsv calls = fs.map Frame.encode) ↔ 3 ∣ n ∨ .shift ∉ calls) ∧
      (Understood n (writes n hsv calls) ↔ 3 ∣ n ∨ .shift ∉ calls) := by
  have hframes (calls : List Call) (h : 3 ∣ n ∨ .shift ∉ calls) : ∀ q ∈ writes n hsv calls, IsFrame n q := by
    intro q hq
    obtain ⟨call, hcall, hq⟩ := List.mem_flatMap.1 hq
    exact call_frames hn (h.imp_right fun h hc => h (hc ▸ hcall)) q hq
  refine ⟨⟨?_, fun h => exists_frames (hframes calls h)⟩, ?_, ?_⟩
  · rintro ⟨fs, hfs⟩
    by_contra hc
    rw [not_or, not_not] at hc
    have hmem : shift n ∈ writes n hsv calls := List.mem_flatMap.2 ⟨.shift, hc.2, List.mem_singleton.2 rfl⟩
    rw [hfs] at hmem
    obtain ⟨f, -, hf⟩ := List.mem_map.1 hmem
    exact shift_not_frame hc.1 ⟨f, hf.symm⟩
  · intro hu
    by_contra hc
    rw [not_or, not_not] at hc
    obtain ⟨before, rest, rfl, hbefore⟩ := List.eq_append_cons_of_mem hc.2
    have hwrites : writes n hsv (before ++ .shift :: rest) = writes n hsv before ++ shift n :: writes n hsv rest := by
      simp [writes, Call.writes]
    rw [hwrites] at hu
    exact shift_misunderstood hn hc.1 (hframes before (.inr hbefore)) hu
  · intro h
    obtain ⟨fs, hfs⟩ := exists_frames (hframes calls h)
    rw [hfs]
    exact frames_understood hn fs

/-- Three LEDs, and a hue that is red throughout. -/
theorem three_leds_understood : Understood 3 (writes 3 (fun _ => (255, 0, 0)) [.shift, .setMode 2, .rainbow 7]) :=
  (writers_frames_iff (by decide) (fun _ => (255, 0, 0)) [.shift, .setMode 2, .rainbow 7]).2.2 (.inl ⟨1, rfl⟩)

/-- With the 32 LEDs of the source a call of `shift` ends inside a payload. -/
theorem shift_of_32 : ¬ Understood 32 (writes 32 (fun _ => (0, 0, 0)) [.shift]) :=
  @shift_misunderstood 32 (by decide) (by decide) [] [] nofun

end DinoLight.UartComm
