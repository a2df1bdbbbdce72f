import DinoLight.UartRxController
/-!
# The command protocol

A reference parser reads a command byte and then 1, `num_blocks` or
`3 * num_blocks` payload bytes, and writes one register when the payload is
complete. The controller implements it with one cycle of delay: `Tracks`
relates the controller's state, shift register and index to the parser.
-/
open Clocked Vectors

namespace DinoLight.CommandParser
open UartRxController

/-! ## The reference parser -/

/-- What the protocol writes: the mode, and one byte list for each other command. -/
structure Registers where
  mode : BitVec 2
  block_counts : List (BitVec 8)
  custom_block_values : List (BitVec 8)
  deriving DecidableEq

/-- The command and the payload bytes read so far, if inside a frame. -/
structure Parser where
  frame : Option (BitVec 8 × List (BitVec 8))
  regs : Registers
  deriving DecidableEq

variable {num_blocks : Nat}

def payloadSize (num_blocks : Nat) (cmd : BitVec 8) : Nat :=
  if cmd = 0 then 1 else if cmd = 1 then num_blocks else 3 * num_blocks

/-- A complete frame writes its register: the mode is the low two bits of the
payload byte. -/
def Registers.write (r : Registers) (cmd : BitVec 8) (payload : List (BitVec 8)) : Registers :=
  if cmd = 0 then { r with mode := (payload.headD 0).extractLsb' 0 2 }
  else if cmd = 1 then { r with block_counts := payload }
  else { r with custom_block_values := payload }

def Parser.feed (num_blocks : Nat) (p : Parser) (b : BitVec 8) : Parser :=
  match p.frame with
  | none => { p with frame := some (b, []) }
  | some (cmd, payload) =>
    if payload.length + 1 = payloadSize num_blocks cmd then ⟨none, p.regs.write cmd (payload ++ [b])⟩
    else { p with frame := some (cmd, payload ++ [b]) }

/-- The command whose frame the next byte completes. -/
def Parser.completes (num_blocks : Nat) (p : Parser) : Option (BitVec 8) :=
  match p.frame with
  | none => none
  | some (cmd, payload) => if payload.length + 1 = payloadSize num_blocks cmd then some cmd else none

/-- The registers at power-up. -/
def Parser.start (num_blocks : Nat) : Parser where
  frame := none
  regs := ⟨0, List.replicate num_blocks 0, List.replicate (3 * num_blocks) 0⟩

/-- The parser after the bytes `bs`. -/
def Parser.run (num_blocks : Nat) (p : Parser) (bs : List (BitVec 8)) : Parser := bs.foldl (Parser.feed num_blocks) p

/-! ## The controller follows the parser -/

/-- The controller's registers as the protocol names them: bytes from the lower
index up, each with its most significant bit at the lower index. -/
def registers (s : UartRxController.Regs num_blocks) : Registers where
  mode := s.mode
  block_counts := bytes s.block_counts num_blocks
  custom_block_values := bytes s.custom_block_values (3 * num_blocks)

/-- The parser with the controller's delay: `shown` are the registers a cycle
ago, `due` the command completed in the last cycle and `fired` the one before. -/
structure Delayed where
  parser : Parser
  shown : Registers
  due : Option (BitVec 8)
  fired : Option (BitVec 8)

def Delayed.step (num_blocks : Nat) (d : Delayed) (i : UartRxController.Inputs) : Delayed where
  parser := d.parser.run num_blocks (strobe i)
  shown := d.parser.regs
  due := if i.data_valid then d.parser.completes num_blocks else none
  fired := d.due

/-- `s` holds the payload bytes read so far at the right end of its shift register. -/
structure Holds (s : UartRxController.Regs num_blocks) (cmd : BitVec 8) (payload : List (BitVec 8)) : Prop where
  command : s.currentCommand = cmd.toNat
  known : cmd.toNat ≤ 2
  index : s.currentIndex = payload.length
  shifted : payload <:+ bytes s.write_value_shift_in (3 * num_blocks)

/-- Where the parser is when the controller is in a state. -/
def Stands (s : UartRxController.Regs num_blocks) (d : Delayed) : Prop :=
  match s.state with
  | .idle => d.parser = ⟨none, d.shown⟩ ∧ d.due = none ∧ s.currentIndex = 0
  | .command => ∃ cmd, d.parser = ⟨some (cmd, []), d.shown⟩ ∧ d.due = none ∧ Holds s cmd []
  | .payloadWait => ∃ cmd payload, d.parser = ⟨some (cmd, payload), d.shown⟩ ∧ d.due = none ∧
      Holds s cmd payload ∧ payload.length < payloadSize num_blocks cmd
  | .payloadWrite => ∃ cmd payload b, d.parser = Parser.feed num_blocks ⟨some (cmd, payload), d.shown⟩ b ∧
      d.due = Parser.completes num_blocks ⟨some (cmd, payload), d.shown⟩ ∧
      Holds s cmd (payload ++ [b]) ∧ payload.length < payloadSize num_blocks cmd
  | .finish => d.parser = ⟨none, d.shown⟩ ∧ d.due = none
  | .timeout | .reset => False

structure Tracks (s : UartRxController.Regs num_blocks) (d : Delayed) : Prop where
  stands : Stands s d
  shown : registers s = d.shown
  mode_change : s.mode_value_change = true ↔ d.fired = some 0
  custom_change : s.custom_block_change = true ↔ d.fired = some 2

theorem known_command {cmd : BitVec 8} (hc : cmd.toNat ≤ 2) : cmd = 0 ∨ cmd = 1 ∨ cmd = 2 := by
  bv_omega

theorem payloadSizes_get {cmd : BitVec 8} (hc : cmd.toNat ≤ 2) :
    (payloadSizes num_blocks)[cmd.toNat]? = some (payloadSize num_blocks cmd) := by
  rcases known_command hc with rfl | rfl | rfl <;> rfl

theorem payloadSize_pos (hN : 0 < num_blocks) (cmd : BitVec 8) : 0 < payloadSize num_blocks cmd := by
  unfold payloadSize
  split
  · omega
  · split <;> omega

theorem payloadSize_le (hN : 0 < num_blocks) (cmd : BitVec 8) : payloadSize num_blocks cmd ≤ 3 * num_blocks := by
  unfold payloadSize
  split
  · omega
  · split <;> omega

/-- A complete frame's register write is what the reference parser writes. -/
theorem registers_write {s : UartRxController.Regs num_blocks} {cmd : BitVec 8}
    {payload : List (BitVec 8)} (h : Holds s cmd payload) (hl : payload.length = payloadSize num_blocks cmd) :
    registers (writeRegister (quiet s)) = (registers s).write cmd payload ∧
      ((writeRegister (quiet s)).mode_value_change = true ↔ cmd = 0) ∧
      ((writeRegister (quiet s)).custom_block_change = true ↔ cmd = 2) := by
  obtain ⟨hcmd, hk, -, hsuf⟩ := h
  have hw : num_blocks * 24 = 3 * num_blocks * 8 := by omega
  rcases known_command hk with rfl | rfl | rfl
  · -- the last byte's low two bits are the vector's
    have hb := bytes_of_suffix hw hsuf (show payload.length = 1 from hl)
    have hcur : (quiet s).currentCommand = 0 := hcmd
    simp only [writeRegister, hcur]
    refine ⟨?_, by simp, by simp [quiet]⟩
    have hmode : (slice (s.write_value_shift_in.extractLsb' 0 8) 0 8).extractLsb' 0 2 =
        s.write_value_shift_in.extractLsb' 0 2 := by
      ext i hi
      simp [slice, BitVec.getElem_extractLsb']
    rw [← hb]
    simp [registers, quiet, Registers.write, bytes, hmode]
  · have hb := bytes_of_suffix hw hsuf (show payload.length = num_blocks from hl)
    have hcur : (quiet s).currentCommand = 1 := hcmd
    simp only [writeRegister, hcur]
    exact ⟨by simp [registers, quiet, Registers.write, hb], by simp [quiet], by simp [quiet]⟩
  · -- the payload fills the vector
    have hb : payload = bytes s.write_value_shift_in (3 * num_blocks) :=
      hsuf.eq_of_length (by rw [length_bytes]; exact hl)
    have hcur : (quiet s).currentCommand = 2 := hcmd
    simp only [writeRegister, hcur]
    exact ⟨by simp [registers, quiet, Registers.write, hb], by simp [quiet], by simp⟩

/-- Without a strobe the parser stays. -/
theorem Delayed.step_silent {d : Delayed} {i : UartRxController.Inputs} (hv : i.data_valid = false) :
    d.step num_blocks i = ⟨d.parser, d.parser.regs, none, d.due⟩ := by
  simp [Delayed.step, hv, strobe, Parser.run]

theorem Delayed.step_strobe {d : Delayed} {i : UartRxController.Inputs} (hv : i.data_valid = true) :
    d.step num_blocks i =
      ⟨d.parser.feed num_blocks i.data_in, d.parser.regs, d.parser.completes num_blocks, d.due⟩ := by
  simp [Delayed.step, hv, strobe, Parser.run]

/-- One clock edge keeps the controller in step with the parser, if its strobe
comes when the controller looks and starts no unknown command. -/
theorem tracks_step (hN : 0 < num_blocks) {s : UartRxController.Regs num_blocks} {d : Delayed}
    {i : UartRxController.Inputs} (h : Tracks s d) (hr : i.reset_in = false)
    (hready : i.data_valid = true → s.state = .idle ∨ s.state = .payloadWait)
    (hcmd : i.data_valid = true → d.parser.frame = none → i.data_in.toNat ≤ 2) :
    Tracks (step s i) (d.step num_blocks i) := by
  obtain ⟨hst, hshown, -, -⟩ := h
  have he := edge_step s i
  generalize step s i = s' at he ⊢
  -- a strobe in any other state would be lost
  have hsilent : s.state ≠ .idle → s.state ≠ .payloadWait → i.data_valid = false := by
    intro h1 h2
    by_contra hv
    rcases hready (by simpa using hv) with h | h
    · exact h1 h
    · exact h2 h
  cases he with
  | reset hr' => simp [hr] at hr'
  | rest _ h hv =>
    simp only [Stands, h] at hst
    obtain ⟨hp, hdue, -⟩ := hst
    rw [Delayed.step_silent hv, hp, hdue]
    exact ⟨by simp [Stands, quiet, h], hshown, by simp [quiet], by simp [quiet]⟩
  | command _ h hv =>
    simp only [Stands, h] at hst
    obtain ⟨hp, hdue, hidx⟩ := hst
    rw [Delayed.step_strobe hv, hp, hdue]
    have hk := hcmd hv (by rw [hp])
    exact ⟨⟨i.data_in, rfl, rfl, rfl, hk, hidx, List.nil_suffix⟩, hshown, by simp [quiet], by simp [quiet]⟩
  | ready _ h =>
    have hv := hsilent (by simp [h]) (by simp [h])
    simp only [Stands, h] at hst
    obtain ⟨cmd, hp, hdue, hholds⟩ := hst
    rw [Delayed.step_silent hv, hp, hdue]
    exact ⟨⟨cmd, [], rfl, rfl, ⟨hholds.command, hholds.known, hholds.index, hholds.shifted⟩,
      payloadSize_pos hN cmd⟩, hshown, by simp [quiet], by simp [quiet]⟩
  | wait _ h hv =>
    simp only [Stands, h] at hst
    obtain ⟨cmd, payload, hp, hdue, hholds, hlt⟩ := hst
    rw [Delayed.step_silent hv, hp, hdue]
    refine ⟨?_, hshown, by simp [quiet], by simp [quiet]⟩
    simp only [Stands, quiet, h]
    exact ⟨cmd, payload, rfl, trivial, ⟨hholds.command, hholds.known, hholds.index, hholds.shifted⟩, hlt⟩
  | write _ h hv =>
    simp only [Stands, h] at hst
    obtain ⟨cmd, payload, hp, hdue, hholds, hlt⟩ := hst
    rw [Delayed.step_strobe hv, hp, hdue]
    have hsuf := suffix_shiftIn (b := i.data_in) (show num_blocks * 24 = 3 * num_blocks * 8 by omega) hholds.shifted
      (Nat.lt_of_lt_of_le hlt (payloadSize_le hN cmd))
    exact ⟨⟨cmd, payload, i.data_in, rfl, rfl, ⟨hholds.command, hholds.known, by simp [hholds.index], hsuf⟩, hlt⟩,
      hshown, by simp [quiet], by simp [quiet]⟩
  | more _ h hn =>
    have hv := hsilent (by simp [h]) (by simp [h])
    simp only [Stands, h] at hst
    obtain ⟨cmd, payload, b, hp, hdue, hholds, hlt⟩ := hst
    -- the byte did not complete the payload
    have hne : payload.length + 1 ≠ payloadSize num_blocks cmd := by
      rw [hholds.command, payloadSizes_get hholds.known, hholds.index] at hn
      simpa [eq_comm] using hn
    simp only [Parser.feed, Parser.completes, if_neg hne] at hp hdue
    rw [Delayed.step_silent hv, hp, hdue]
    exact ⟨⟨cmd, payload ++ [b], rfl, rfl, ⟨hholds.command, hholds.known, hholds.index, hholds.shifted⟩,
      by simp; omega⟩, hshown, by simp [quiet], by simp [quiet]⟩
  | finish _ h hn =>
    have hv := hsilent (by simp [h]) (by simp [h])
    simp only [Stands, h] at hst
    obtain ⟨cmd, payload, b, hp, hdue, hholds, hlt⟩ := hst
    have heq : payload.length + 1 = payloadSize num_blocks cmd := by
      rw [hholds.command, payloadSizes_get hholds.known, hholds.index] at hn
      simpa [eq_comm] using hn
    simp only [Parser.feed, Parser.completes, if_pos heq] at hp hdue
    obtain ⟨hregs, hmode, hcustom⟩ := registers_write hholds (by simpa using heq)
    rw [Delayed.step_silent hv, hp, hdue]
    exact ⟨⟨rfl, rfl⟩, by rw [← hshown]; exact hregs, by simpa using hmode, by simpa using hcustom⟩
  | done _ h =>
    have hv := hsilent (by rcases h with h | h | h <;> simp [h]) (by rcases h with h | h | h <;> simp [h])
    rcases h with h | h | h <;> simp only [Stands, h] at hst
    obtain ⟨hp, hdue⟩ := hst
    rw [Delayed.step_silent hv, hp, hdue]
    exact ⟨⟨rfl, rfl, rfl⟩, hshown, by simp [quiet], by simp [quiet]⟩

/-! ## Runs -/

section Runs
variable {w : Nat → UartRxController.Inputs} {s : Nat → UartRxController.Regs num_blocks}

/-- Every byte in command position is one of the three commands. -/
def KnownCommands (num_blocks : Nat) (p : Parser) (w : Nat → UartRxController.Inputs) : Prop :=
  ∀ n, (w n).data_valid = true → (p.run num_blocks (received w n)).frame = none → (w n).data_in.toNat ≤ 2

/-- The parser between frames, with the registers of `s`. -/
def parserOf (s : UartRxController.Regs num_blocks) : Parser := ⟨none, registers s⟩

def delayedOf (s : UartRxController.Regs num_blocks) : Delayed := ⟨parserOf s, registers s, none, none⟩

/-- The controller between frames, its change pulses low. -/
structure AtRest (s : UartRxController.Regs num_blocks) : Prop where
  idle : s.state = .idle
  index : s.currentIndex = 0
  mode_change : s.mode_value_change = false
  custom_change : s.custom_block_change = false

theorem powerUp_atRest : AtRest (powerUp : UartRxController.Regs num_blocks) := ⟨rfl, rfl, rfl, rfl⟩

theorem AtRest.tracks {s : UartRxController.Regs num_blocks} (h : AtRest s) : Tracks s (delayedOf s) := by
  refine ⟨?_, rfl, by simp [h.mode_change, delayedOf], by simp [h.custom_change, delayedOf]⟩
  simp [Stands, h.idle, h.index, delayedOf, parserOf]

theorem delayed_fed (d : Delayed) (n : Nat) :
    (after (Delayed.step num_blocks) d w n).parser = d.parser.run num_blocks (received w n) := by
  induction n with
  | zero => rfl
  | succ n ih =>
    simp only [after_succ, Delayed.step, ih, received_succ, Parser.run, List.foldl_append]

/-- A run of the controller tracks the parser, from any state between frames. -/
theorem tracks_run (hN : 0 < num_blocks) (hs : Follows step w s) (h0 : AtRest (s 0))
    (hr : ∀ n, (w n).reset_in = false) (hsp : Spaced w) (hcmd : KnownCommands num_blocks (parserOf (s 0)) w)
    (n : Nat) : Tracks (s n) (after (Delayed.step num_blocks) (delayedOf (s 0)) w n) := by
  induction n with
  | zero => exact h0.tracks
  | succ n ih =>
    rw [hs n, after_succ]
    exact tracks_step hN ih (hr n) (ready_of_strobe hs h0.idle hr hsp) fun hv hf =>
      hcmd n hv (by rwa [delayed_fed] at hf)

theorem registers_run (hN : 0 < num_blocks) (hs : Follows step w s) (h0 : AtRest (s 0))
    (hr : ∀ n, (w n).reset_in = false) (hsp : Spaced w) (hcmd : KnownCommands num_blocks (parserOf (s 0)) w)
    (n : Nat) : registers (s (n + 1)) = ((parserOf (s 0)).run num_blocks (received w n)).regs := by
  rw [(tracks_run hN hs h0 hr hsp hcmd (n + 1)).shown, after_succ, Delayed.step, delayed_fed]
  rfl

/-- The command that a strobe in cycle `n` completes. -/
def completed (num_blocks : Nat) (p : Parser) (w : Nat → UartRxController.Inputs) (n : Nat) : Option (BitVec 8) :=
  if (w n).data_valid then (p.run num_blocks (received w n)).completes num_blocks else none

theorem fired_run (d : Delayed) (hd : d.due = none ∧ d.fired = none) (t : Nat) (c : BitVec 8) :
    (after (Delayed.step num_blocks) d w t).fired = some c ↔
      ∃ n, t = n + 2 ∧ completed num_blocks d.parser w n = some c := by
  rcases t with _ | _ | t
  · simp [hd.2]
  · simp [after_succ, Delayed.step, hd.1]
  · rw [after_succ, after_succ, Delayed.step, Delayed.step, delayed_fed]
    exact ⟨fun h => ⟨t, rfl, h⟩, fun ⟨n, hn, h⟩ => by
      obtain rfl : t = n := by omega
      exact h⟩

/-- The change pulses are high two cycles after the strobe that completes their command. -/
theorem change_run (hN : 0 < num_blocks) (hs : Follows step w s) (h0 : AtRest (s 0))
    (hr : ∀ n, (w n).reset_in = false) (hsp : Spaced w) (hcmd : KnownCommands num_blocks (parserOf (s 0)) w)
    (t : Nat) :
    ((s t).mode_value_change = true ↔ ∃ n, t = n + 2 ∧ completed num_blocks (parserOf (s 0)) w n = some 0) ∧
      ((s t).custom_block_change = true ↔
        ∃ n, t = n + 2 ∧ completed num_blocks (parserOf (s 0)) w n = some 2) := by
  have h := tracks_run hN hs h0 hr hsp hcmd t
  exact ⟨h.mode_change.trans (fired_run _ ⟨rfl, rfl⟩ t 0), h.custom_change.trans (fired_run _ ⟨rfl, rfl⟩ t 2)⟩

/-- A completing strobe leaves the controller busy. -/
theorem busy_of_completed (hN : 0 < num_blocks) (hs : Follows step w s) (h0 : AtRest (s 0))
    (hr : ∀ n, (w n).reset_in = false) (hsp : Spaced w) (hcmd : KnownCommands num_blocks (parserOf (s 0)) w)
    {n : Nat} {c : BitVec 8} (hc : completed num_blocks (parserOf (s 0)) w n = some c) :
    (s (n + 1)).state ≠ .idle := by
  intro hst
  have h := (tracks_run hN hs h0 hr hsp hcmd (n + 1)).stands
  simp only [Stands, hst, after_succ, Delayed.step, delayed_fed] at h
  have hnone := h.2.1
  rw [show (delayedOf (s 0)).parser = parserOf (s 0) from rfl] at hnone
  simp [completed] at hc
  simp [hc] at hnone

/-- A strobed byte is taken, and only a strobed one. -/
theorem accepts_run (hs : Follows step w s) (h0 : (s 0).state = .idle) (hr : ∀ n, (w n).reset_in = false)
    (hsp : Spaced w) (n : Nat) : accepts (s n) (w n) = (w n).data_valid := by
  cases hv : (w n).data_valid
  · have he := edge_step (s n) (w n)
    have hst : (UartRxController.step (s n) (w n)).state = nextStateDecode (s n) (w n) := rfl
    rw [accepts, ← hst]
    generalize UartRxController.step (s n) (w n) = s' at he ⊢
    cases he with
    | command _ _ hv' | write _ _ hv' => simp [hv] at hv'
    | rest _ h | wait _ h => simp [quiet, h]
    | _ => simp
  · rcases ready_of_strobe hs h0 hr hsp hv with h | h <;> simp [accepts, nextStateDecode, hr n, h, hv]

end Runs

/-- From power-up, strobes at least three cycles apart deliver every byte once,
and from one cycle after a byte's the registers are those of the reference
parser. Each change pulse is high in the one cycle in which a completed frame's
value first shows. -/
theorem byte_protocol (hN : 0 < num_blocks) (w : Nat → UartRxController.Inputs)
    (hr : ∀ n, (w n).reset_in = false) (hsp : Spaced w) (hcmd : KnownCommands num_blocks (.start num_blocks) w) :
    let s := after step (powerUp : UartRxController.Regs num_blocks) w
    let p := Parser.start num_blocks
    (∀ n, accepts (s n) (w n) = (w n).data_valid) ∧
    registers (s 0) = p.regs ∧
    (∀ n, registers (s (n + 1)) = (p.run num_blocks (received w n)).regs) ∧
    (∀ t, (s t).mode_value_change = true ↔ ∃ n, t = n + 2 ∧ completed num_blocks p w n = some 0) ∧
    ∀ t, (s t).custom_block_change = true ↔ ∃ n, t = n + 2 ∧ completed num_blocks p w n = some 2 := by
  intro s p
  have hstart : parserOf (s 0) = p := by simp [s, parserOf, registers, p, Parser.start, powerUp]
  have hregs := registers_run hN (s := s) after_follows powerUp_atRest hr hsp (hstart ▸ hcmd)
  have hchange := change_run hN (s := s) after_follows powerUp_atRest hr hsp (hstart ▸ hcmd)
  rw [hstart] at hregs hchange
  exact ⟨accepts_run after_follows rfl hr hsp, congrArg Parser.regs hstart, hregs, fun t => (hchange t).1,
    fun t => (hchange t).2⟩

/-- The frame `00 03`, strobed in cycles 1 and 4. -/
def modeFrame (n : Nat) : UartRxController.Inputs where
  reset_in := false
  data_in := if n = 1 then 0 else 3
  data_valid := n = 1 ∨ n = 4

theorem mode_frame_spaced : Spaced modeFrame := by
  intro m n hm hn hlt
  simp only [modeFrame, decide_eq_true_eq] at hm hn
  omega

theorem mode_frame_known : KnownCommands 1 (.start 1) modeFrame := by
  intro n hn hf
  simp only [modeFrame, decide_eq_true_eq] at hn
  rcases hn with rfl | rfl
  · decide
  · exact absurd hf (by decide)

theorem mode_frame_shown :
    registers (after step (powerUp : UartRxController.Regs 1) modeFrame 6) = ⟨3, [0], [0, 0, 0]⟩ :=
  ((byte_protocol Nat.one_pos modeFrame (fun _ => rfl) mode_frame_spaced mode_frame_known).2.2.1 5).trans
    (by decide)

end DinoLight.CommandParser
