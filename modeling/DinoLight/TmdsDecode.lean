import DinoLight.Lib.Clocked
import DinoLight.Lib.TransitionCode
import DinoLight.Lib.Vectors
/-!
# `tmds_decode`

A pipeline of three stages from ten-bit words to bytes and control bits. Its
author found the test of bit 8 to be the wrong way round and working. It is
right for the complement of what was sent, which is what it is given.
-/
open Clocked TransitionCode Vectors

namespace DinoLight.TmdsDecode

structure Regs where
  data_delayed : BitVec 10
  data_delayed_active : Bool
  data_delayed_c : BitVec 2
  sometimes_inverted : BitVec 9
  sometimes_inverted_c : BitVec 2
  sometimes_inverted_active : Bool
  data_out : BitVec 8
  c : BitVec 2
  active_data : Bool
  deriving DecidableEq

/-- The `case` of the first stage; the other words are data. -/
def controlWord (data_in : BitVec 10) : Option (BitVec 2) :=
  match data_in with
  | 0b0010101011#10 => some 0b01
  | 0b1101010100#10 => some 0b00
  | 0b0101010100#10 => some 0b10
  | 0b1010101011#10 => some 0b11
  | _ => none

/-- The `if` of the second stage. -/
def straighten (data_delayed : BitVec 10) : BitVec 9 :=
  if data_delayed.getLsbD 9 then data_delayed.extractLsb' 0 9 ^^^ 0b011111111#9
  else data_delayed.extractLsb' 0 9

/-- `data_out(0)` is bit 0 of the vector, `data_out(i)` its bit `i` XOR its bit
`i - 1`, or XNOR. -/
def undo (xor : Bool) (v : BitVec 9) : BitVec 8 := ofDownto 8 (unchain xor v.getLsbD)

/-- One rising edge of `clk`. -/
def step (s : Regs) (data_in : BitVec 10) : Regs where
  c := s.sometimes_inverted_c
  active_data := s.sometimes_inverted_active
  data_out :=
    if s.sometimes_inverted_active = false then 0
    else if s.sometimes_inverted.getLsbD 8 = false then undo true s.sometimes_inverted
    else undo false s.sometimes_inverted
  sometimes_inverted_active := s.data_delayed_active
  sometimes_inverted_c := s.data_delayed_c
  sometimes_inverted := straighten s.data_delayed
  data_delayed_c := (controlWord data_in).getD 0b00
  data_delayed_active := (controlWord data_in).isNone
  data_delayed := data_in

/-- The output ports. -/
structure Output where
  data_out : BitVec 8
  c : BitVec 2
  active_data : Bool
  deriving DecidableEq

def Regs.output (s : Regs) : Output := ⟨s.data_out, s.c, s.active_data⟩

/-- What comes out for a word. -/
def decode (word : BitVec 10) : Output :=
  match controlWord word with
  | some c => ⟨0, c, false⟩
  | none => ⟨undo (!(straighten word).getLsbD 8) (straighten word), 0, true⟩

/-- A word takes three edges. -/
theorem output_run {w : Nat → BitVec 10} {s : Nat → Regs} (hs : Follows step w s) (n : Nat) :
    (s (n + 3)).output = decode (w n) := by
  rw [hs (n + 2), hs (n + 1), hs n]
  unfold decode
  cases h : controlWord (w n) with
  | some c => simp [Regs.output, step, h]
  | none =>
    simp only [Regs.output, step, h, Option.isNone_none, Option.getD_none, Bool.true_eq_false, if_false]
    cases (straighten (w n)).getLsbD 8 with
    | true | false => rfl

/-! ## TMDS words -/

/-- What a channel sends in a pixel cycle. -/
inductive Symbol
  | data (d : BitVec 8)
  | control (c : BitVec 2)
  deriving DecidableEq

/-- The words of the control bits. -/
def token (c : BitVec 2) : BitVec 10 :=
  match c with
  | 0b00#2 => 0b1101010100
  | 0b01#2 => 0b0010101011
  | 0b10#2 => 0b0101010100
  | 0b11#2 => 0b1010101011

/-- The word of a symbol. Data is coded by the rule with fewer transitions,
which bit 8 names; whether the code is sent inverted, which bit 9 names, is
the transmitter's choice, by what balances the line. -/
def encode (invert : Bool) : Symbol → BitVec 10
  | .data d => ofDownto 10 fun i =>
      if i = 9 then invert
      else if i = 8 then prefersXor d.getLsbD 7
      else chain (prefersXor d.getLsbD 7) d.getLsbD i ^^ invert
  | .control c => token c

theorem getLsbD_encode_data (invert : Bool) (d : BitVec 8) {i : Nat} (hi : i < 8) :
    (encode invert (.data d)).getLsbD i = (chain (prefersXor d.getLsbD 7) d.getLsbD i ^^ invert) := by
  rw [encode, getLsbD_ofDownto _ (by omega), if_neg (by omega), if_neg (by omega)]

theorem getLsbD_encode_rule (invert : Bool) (d : BitVec 8) :
    (encode invert (.data d)).getLsbD 8 = prefersXor d.getLsbD 7 := by
  rw [encode, getLsbD_ofDownto _ (by decide)]
  rfl

theorem getLsbD_encode_invert (invert : Bool) (d : BitVec 8) : (encode invert (.data d)).getLsbD 9 = invert := by
  rw [encode, getLsbD_ofDownto _ (by decide)]
  rfl

/-- The words of control bits change more often than any word of data. -/
theorem changes_controlWord {word : BitVec 10} {c : BitVec 2} (h : controlWord word = some c) :
    changes word.getLsbD 7 = 6 := by
  unfold controlWord at h
  split at h
  case h_5 => cases h
  all_goals rfl

theorem changes_encode (invert : Bool) (d : BitVec 8) : 2 * changes (encode invert (.data d)).getLsbD 7 ≤ 7 := by
  have hsame : changes (encode invert (.data d)).getLsbD 7 = changes (chain (prefersXor d.getLsbD 7) d.getLsbD) 7 := by
    apply changes_congr
    intro i hi
    rw [getLsbD_encode_data _ _ (by omega), getLsbD_encode_data _ _ (by omega)]
    cases invert <;> simp
  rw [hsame]
  exact changes_minimised _ 7

/-- The word as the line carries it, or its complement. -/
def polarity (complement : Bool) (word : BitVec 10) : BitVec 10 := if complement then ~~~word else word

theorem getLsbD_polarity (complement : Bool) (word : BitVec 10) {i : Nat} (hi : i < 10) :
    (polarity complement word).getLsbD i = (word.getLsbD i ^^ complement) := by
  unfold polarity
  cases complement <;> simp [hi]

/-- Data is never taken for control bits. -/
theorem controlWord_data (complement invert : Bool) (d : BitVec 8) :
    controlWord (polarity complement (encode invert (.data d))) = none := by
  by_contra hne
  obtain ⟨c, hc⟩ := Option.ne_none_iff_exists'.1 hne
  have hmany := changes_controlWord hc
  have hfew := changes_encode invert d
  have hsame : changes (polarity complement (encode invert (.data d))).getLsbD 7 =
      changes (encode invert (.data d)).getLsbD 7 := by
    apply changes_congr
    intro i hi
    rw [getLsbD_polarity _ _ (by omega), getLsbD_polarity _ _ (by omega)]
    cases complement <;> simp
  omega

theorem controlWord_token (c : BitVec 2) : controlWord (polarity false (token c)) = some c ∧
    controlWord (polarity true (token c)) = some (c ^^^ 0b01#2) := by
  revert c
  decide

/-- What `tmds_decode` makes of a symbol: right in all but the lower control
bit from the complement of its word; from the word itself, with every bit of
a byte but the first inverted. -/
def Symbol.decoded (complement : Bool) : Symbol → Output
  | .data d => ⟨if complement then d else d ^^^ 0b11111110#8, 0, true⟩
  | .control c => ⟨0, if complement then c ^^^ 0b01#2 else c, false⟩

theorem getLsbD_straighten (word : BitVec 10) {i : Nat} (hi : i < 8) :
    (straighten word).getLsbD i = (word.getLsbD i ^^ word.getLsbD 9) := by
  have hmask : ∀ i < 8, (0b011111111#9).getLsbD i = true := by decide
  have hslice : (word.extractLsb' 0 9).getLsbD i = word.getLsbD i := by
    rw [BitVec.getLsbD_extractLsb', decide_eq_true (by omega), Bool.true_and, Nat.zero_add]
  unfold straighten
  cases word.getLsbD 9 with
  | true => rw [if_pos rfl, BitVec.getLsbD_xor, hmask i hi, hslice]
  | false => rw [if_neg Bool.false_ne_true, hslice, Bool.xor_false]

theorem getLsbD_straighten_rule (word : BitVec 10) : (straighten word).getLsbD 8 = word.getLsbD 8 := by
  unfold straighten
  cases word.getLsbD 9 <;> simp

/-- The straightened word is the code, whatever the transmitter's choice and
whichever the polarity. -/
theorem straighten_code (complement invert : Bool) (d : BitVec 8) {i : Nat} (hi : i < 8) :
    (straighten (polarity complement (encode invert (.data d)))).getLsbD i =
      chain (prefersXor d.getLsbD 7) d.getLsbD i := by
  rw [getLsbD_straighten _ hi, getLsbD_polarity _ _ (by omega), getLsbD_polarity _ _ (by decide),
    getLsbD_encode_data _ _ hi, getLsbD_encode_invert]
  cases complement <;> cases invert <;> simp

theorem undo_data (complement invert rule : Bool) (d : BitVec 8) {i : Nat} (hi : i < 8) :
    (undo rule (straighten (polarity complement (encode invert (.data d))))).getLsbD i =
      unchain rule (chain (prefersXor d.getLsbD 7) d.getLsbD) i := by
  rw [undo, getLsbD_ofDownto _ hi]
  exact unchain_congr rule fun j hj => straighten_code complement invert d (by omega)

/-- The rule that the decoder picks is the transmitter's for the complement
and the other one otherwise. -/
theorem rule_data (complement invert : Bool) (d : BitVec 8) :
    (!(straighten (polarity complement (encode invert (.data d)))).getLsbD 8) =
      if complement then prefersXor d.getLsbD 7 else !prefersXor d.getLsbD 7 := by
  rw [getLsbD_straighten_rule, getLsbD_polarity _ _ (by decide), getLsbD_encode_rule]
  cases complement <;> simp

theorem decode_data (complement invert : Bool) (d : BitVec 8) :
    decode (polarity complement (encode invert (.data d))) = (Symbol.data d).decoded complement := by
  rw [decode, controlWord_data, Symbol.decoded]
  simp only [Output.mk.injEq, and_true]
  apply BitVec.eq_of_getLsbD_eq
  intro i hi
  rw [rule_data, undo_data _ _ _ _ hi]
  cases complement with
  | true => rw [if_pos rfl, if_pos rfl, unchain_chain]
  | false =>
    rw [if_neg Bool.false_ne_true, if_neg Bool.false_ne_true, BitVec.getLsbD_xor]
    cases i with
    | zero => simp [unchain, chain]
    | succ i =>
      have hmask : ∀ i < 7, (0b11111110#8).getLsbD (i + 1) = true := by decide
      rw [unchain_other, unchain_chain, hmask i (by omega), Bool.xor_true]

theorem decode_encode (complement invert : Bool) (sym : Symbol) :
    decode (polarity complement (encode invert sym)) = sym.decoded complement := by
  cases sym with
  | data d => exact decode_data complement invert d
  | control c =>
    obtain ⟨hsent, hcomplement⟩ := controlWord_token c
    rw [encode, decode, Symbol.decoded]
    cases complement with
    | true => rw [hcomplement]; rfl
    | false => rw [hsent]; rfl

/-- Every stream of symbols is decoded three cycles later, whatever the
transmitter inverts: as it was sent, but for the lower control bit, from the
complement of the line, and never a byte right from the line itself. -/
theorem symbols_decoded (complement : Bool) (sym : Nat → Symbol) (invert : Nat → Bool) {s : Nat → Regs}
    (hs : Follows step (fun n => polarity complement (encode (invert n) (sym n))) s) (n : Nat) :
    (s (n + 3)).output = (sym n).decoded complement := by
  rw [output_run hs, decode_encode]

theorem symbols_decoded_zero : (after step
    ⟨0, false, 0, 0, 0, false, 0, 0, false⟩ (fun _ => polarity true (encode false (.data 0x10))) 3).output =
    ⟨0x10, 0, true⟩ :=
  symbols_decoded true (fun _ => .data 0x10) (fun _ => false) after_follows 0

end DinoLight.TmdsDecode
