import DinoLight.Gearbox
import DinoLight.TmdsDecode
/-!
# `input_channel`

One TMDS channel, from the half-words of its serialiser to pixels. Every
second edge of `clk_fabric_x2` is also one of `clk_fabric`.
-/
open Clocked SerialBits

namespace DinoLight.InputChannel
open TmdsDecode (Symbol encode polarity)

structure Regs where
  gearbox : Gearbox.Regs
  tmds_decode : TmdsDecode.Regs
  sync_seen : Bool
  deriving DecidableEq

/-- "Is the TMDS data one of two special sync codewords?" -/
def isSync (raw_tmds_word : BitVec 10) : Bool :=
  raw_tmds_word = 0b1101010100#10 ∨ raw_tmds_word = 0b0010101011#10

/-- One rising edge of `clk_fabric_x2`; `clk_fabric` tells whether it rises too. -/
def step (clk_fabric : Bool) (s : Regs) (i : Gearbox.Inputs) : Regs where
  gearbox := Gearbox.step s.gearbox i
  tmds_decode := if clk_fabric then TmdsDecode.step s.tmds_decode s.gearbox.data_out else s.tmds_decode
  sync_seen := if clk_fabric then isSync s.gearbox.data_out else s.sync_seen

theorem isSync_iff (word : BitVec 10) :
    isSync word = true ↔ TmdsDecode.controlWord word = some 0 ∨ TmdsDecode.controlWord word = some 1 := by
  unfold isSync TmdsDecode.controlWord
  rw [decide_eq_true_iff]
  split
  case h_5 h1 h2 _ _ => exact ⟨fun h => h.elim (fun h => (h2 h).elim) fun h => (h1 h).elim, fun h => h.elim nofun nofun⟩
  all_goals decide

/-! ## Pixel cycles -/

/-- What a channel sees in a cycle of `clk_fabric`: the framing at either edge
of `clk_fabric_x2` and the half-words they take. -/
structure Pixel where
  framing : BitVec 4
  framing' : BitVec 4
  first : BitVec 5
  second : BitVec 5

/-- The two edges of a cycle, as `dvid_in` has them: the first is common to both
clocks, and `invert` is low. -/
def cycle (s : Regs) (i : Pixel) : Regs :=
  step false (step true s ⟨false, i.framing, i.first⟩) ⟨false, i.framing', i.second⟩

/-- The inputs of the gearbox, edge by edge. -/
def edges (w : Nat → Pixel) (n : Nat) : Gearbox.Inputs :=
  if n % 2 = 0 then ⟨false, (w (n / 2)).framing, (w (n / 2)).first⟩
  else ⟨false, (w (n / 2)).framing', (w (n / 2)).second⟩

/-- The bits of the channel in the order of arrival. -/
def received (w : Nat → Pixel) : Nat → Bool := stream fun n => (edges w n).data_in

/-- The gearbox, edge by edge. -/
def gears (w : Nat → Pixel) (s : Nat → Regs) (n : Nat) : Gearbox.Regs :=
  if n % 2 = 0 then (s (n / 2)).gearbox else Gearbox.step (s (n / 2)).gearbox (edges w (n - 1))

variable {w : Nat → Pixel} {s : Nat → Regs}

theorem gears_even (w : Nat → Pixel) (s : Nat → Regs) (t : Nat) : gears w s (2 * t) = (s t).gearbox := by
  rw [gears, if_pos (by omega), Nat.mul_div_cancel_left t (by decide)]

theorem edges_even (w : Nat → Pixel) (t : Nat) : edges w (2 * t) = ⟨false, (w t).framing, (w t).first⟩ := by
  rw [edges, if_pos (by omega), Nat.mul_div_cancel_left t (by decide)]

theorem edges_odd (w : Nat → Pixel) (t : Nat) : edges w (2 * t + 1) = ⟨false, (w t).framing', (w t).second⟩ := by
  rw [edges, if_neg (by omega), show (2 * t + 1) / 2 = t by omega]

theorem gears_follows (hs : Follows cycle w s) : Follows Gearbox.step (edges w) (gears w s) := by
  intro n
  obtain ⟨t, rfl | rfl⟩ := Nat.even_or_odd' n
  · rw [gears_even, gears, if_neg (by omega), show (2 * t + 1) / 2 = t by omega, Nat.add_sub_cancel]
  · rw [show 2 * t + 1 + 1 = 2 * (t + 1) by omega, gears_even, hs t, gears, if_neg (by omega),
      show (2 * t + 1) / 2 = t by omega, Nat.add_sub_cancel, edges_even, edges_odd]
    rfl

theorem every_other_run (hs : Follows cycle w s) (t : Nat) :
    (s t).gearbox.every_other = (s 0).gearbox.every_other := by
  have h := Gearbox.every_other_run (gears_follows hs) (2 * t)
  have h0 : gears w s 0 = (s 0).gearbox := rfl
  rwa [gears_even, Nat.mul_mod_right, h0, decide_eq_false Nat.zero_ne_one, Bool.xor_false] at h

theorem line_edges (w : Nat → Pixel) : Gearbox.line (edges w) = fun p => !received w p := by
  funext p
  have hmask : ∀ i < 5, (0b11111#5).getLsbD i = true := by decide
  have hinvert (n : Nat) : (edges w n).invert = false := by unfold edges; split <;> rfl
  rw [Gearbox.line, received, stream, stream, Gearbox.Inputs.half_word, hinvert, if_neg Bool.false_ne_true,
    BitVec.getLsbD_xor, hmask _ (Nat.mod_lt p (by decide)), Bool.xor_true]

/-- In a cycle with one of the ten framings the gearbox puts out the complement
of ten bits of the channel. -/
theorem word_run (hs : Follows cycle w s) {t p : Nat} {f : BitVec 4} (hf : f.toNat < 10) (h0 : (w t).framing = f)
    (h1 : (w t).framing' = f) (hp : p + Gearbox.lag (s 0).gearbox.every_other f.toNat = 10 * t + f.toNat) :
    (s (t + 1)).gearbox.data_out = ~~~windowAt 10 (received w) p := by
  have h := Gearbox.word_run (gears_follows hs) (n := 2 * t) (p := p) hf (by rw [edges_even, h0])
    (by rw [edges_odd, h1]) (by rw [gears_even, every_other_run hs]; omega)
  rwa [show 2 * t + 2 = 2 * (t + 1) by omega, gears_even, line_edges, windowAt_not] at h

theorem sync_seen_succ (hs : Follows cycle w s) (t : Nat) : (s (t + 1)).sync_seen = isSync (s t).gearbox.data_out := by
  rw [hs t]
  rfl

theorem decode_follows (hs : Follows cycle w s) :
    Follows TmdsDecode.step (fun t => (s t).gearbox.data_out) fun t => (s t).tmds_decode := by
  intro t
  simp only [hs t]
  rfl

/-! ## Symbols on the channel -/

/-- From bit `p` on the channel carries the symbols `sym`, one word each. -/
def Carries (sym : Nat → Symbol) (p : Nat) (b : Nat → Bool) : Prop :=
  ∃ invert : Nat → Bool, Sends (fun j => encode (invert j) (sym j)) p b

variable {sym : Nat → Symbol} {p : Nat}

/-- The symbols that keep the channel in sync: control bits of which the upper is low. -/
def Marks : Symbol → Prop
  | .data _ => False
  | .control c => c = 0 ∨ c = 1

theorem isSync_symbol (invert : Bool) (sym : Symbol) : isSync (~~~encode invert sym) = true ↔ Marks sym := by
  rw [isSync_iff, ← show polarity true (encode invert sym) = ~~~encode invert sym from rfl]
  cases sym with
  | data d =>
    rw [TmdsDecode.controlWord_data]
    exact ⟨fun h => h.elim nofun nofun, False.elim⟩
  | control c =>
    rw [encode, (TmdsDecode.controlWord_token c).2]
    unfold Marks
    revert c
    decide

/-- Nothing but the right alignment finds a sync word in steady control bits. -/
theorem isSync_rotated (c : BitVec 2) {o : Nat} (h0 : 0 < o) (ho : o < 10) :
    isSync (~~~(TmdsDecode.token c).rotateRight o) = false := by
  have hall : ∀ c : BitVec 2, ∀ o < 9, isSync (~~~(TmdsDecode.token c).rotateRight (o + 1)) = false := by decide
  obtain ⟨o, rfl⟩ := Nat.exists_eq_succ_of_ne_zero (Nat.ne_of_gt h0)
  exact hall c o (Nat.lt_of_succ_lt_succ ho)

theorem Carries.marks {b : Nat → Bool} (h : Carries sym p b) (j : Nat) :
    isSync (~~~windowAt 10 b (p + 10 * j)) = true ↔ Marks (sym j) := by
  obtain ⟨invert, hsends⟩ := h
  rw [hsends j]
  exact isSync_symbol _ _

theorem Carries.steady {b : Nat → Bool} (h : Carries sym p b) {j o : Nat} {c : BitVec 2} (h1 : sym j = .control c)
    (h2 : sym (j + 1) = .control c) (h0 : 0 < o) (ho : o < 10) :
    isSync (~~~windowAt 10 b (p + 10 * j + o)) = false := by
  obtain ⟨invert, hsends⟩ := h
  rw [hsends.window_repeated ho (x := TmdsDecode.token c) (by rw [h1]; rfl) (by rw [h2]; rfl)]
  exact isSync_rotated c h0 ho

/-- A word that is framed as it was sent comes out as its symbol. -/
theorem symbol_run (hs : Follows cycle w s) (h : Carries sym p (received w)) {t j : Nat}
    (hword : (s t).gearbox.data_out = ~~~windowAt 10 (received w) (p + 10 * j)) :
    (s (t + 3)).tmds_decode.output = (sym j).decoded true := by
  obtain ⟨invert, hsends⟩ := h
  rw [TmdsDecode.output_run (decode_follows hs) t, hword, hsends j]
  exact TmdsDecode.decode_encode true (invert j) (sym j)

end DinoLight.InputChannel
