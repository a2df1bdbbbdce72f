import DinoLight.Lib.Clocked
import DinoLight.Lib.Vectors
/-!
# `blockToPixel`

The block sequencer latches the block colours and the number of LEDs of each
block, and offers one pixel at a time to the LED driver. We list what one
clock edge can do (`Edge`); every later result about the sequencer is a case
analysis over it.
-/
open Vectors

namespace DinoLight.BlockToPixel

inductive StateType where
  | idle | writeOutPixel | waitForAck | waitForLastAck | start | getCurrentInfo | blockCountDecide
  | ledCountDecide | shiftInPixel | incLEDCount | incBlockCount | shiftBlockRegister | finish
  deriving DecidableEq, Repr

/-- The registers. The counters are VHDL integers: their ranges are the
invariant `Inv`, not a wrap-around. -/
structure Regs (num_blocks : Nat) where
  state : StateType
  blockCounter : Nat
  currentBlockCount : Nat
  pixelWriteCounter : Nat
  pixelBlockRegister : BitVec (num_blocks * 24)
  blockCountRegister : BitVec (num_blocks * 8)
  last_pixel : Bool
  valid_pixel : Bool
  current_pixel : BitVec 24
  deriving DecidableEq

structure Inputs (num_blocks : Nat) where
  run : Bool
  pixelBlocks : BitVec (num_blocks * 24)
  pixelBlockCount : BitVec (num_blocks * 8)
  advance_pixel : Bool

variable {num_blocks : Nat}

def powerUp : Regs num_blocks where
  state := .idle
  blockCounter := 0
  currentBlockCount := 0
  pixelWriteCounter := 0
  pixelBlockRegister := 0
  blockCountRegister := 0
  last_pixel := false
  valid_pixel := false
  current_pixel := 0

/-! ## The processes -/

def nextStateDecode (s : Regs num_blocks) (i : Inputs num_blocks) : StateType :=
  match s.state with
  | .idle => if i.run then .start else s.state
  | .start => .getCurrentInfo
  | .getCurrentInfo => .ledCountDecide
  | .blockCountDecide => if s.blockCounter = num_blocks then .finish else .getCurrentInfo
  | .ledCountDecide =>
    if s.pixelWriteCounter = s.currentBlockCount then .incBlockCount else .writeOutPixel
  | .writeOutPixel => .waitForAck
  | .waitForAck => if i.advance_pixel then .incLEDCount else .waitForAck
  | .incLEDCount => .ledCountDecide
  | .incBlockCount => .shiftBlockRegister
  | .shiftBlockRegister => .blockCountDecide
  | .finish => .waitForLastAck
  | .waitForLastAck => if i.advance_pixel then .idle else .waitForLastAck
  | .shiftInPixel => s.state -- `when others`

def ledCountManager (s : Regs num_blocks) (nextState : StateType) : Nat :=
  if nextState = .incLEDCount then s.pixelWriteCounter + 1
  else if nextState = .blockCountDecide then 0
  else s.pixelWriteCounter

def blockCounterManager (s : Regs num_blocks) (nextState : StateType) : Nat :=
  if nextState = .idle then 0
  else if nextState = .incBlockCount then s.blockCounter + 1
  else s.blockCounter

/-- `for i in 0 to (num_blocks-1)*24-1 loop r(i) <= r(i+24)`: the last block stays. -/
def shiftBlocks (r : BitVec (num_blocks * 24)) : BitVec (num_blocks * 24) :=
  ofLeft _ fun i => if i < (num_blocks - 1) * 24 then r.getMsbD (i + 24) else r.getMsbD i

/-- `for i in num_blocks*8-9 downto 0 loop r(i+8) <= r(i)`: the last count stays. -/
def shiftCounts (r : BitVec (num_blocks * 8)) : BitVec (num_blocks * 8) :=
  ofDownto _ fun i => if 8 ≤ i then r.getLsbD (i - 8) else r.getLsbD i

def mangageBlockRegister (s : Regs num_blocks) (i : Inputs num_blocks) (nextState : StateType) :
    BitVec (num_blocks * 24) :=
  if nextState = .start then i.pixelBlocks
  else if nextState = .shiftBlockRegister then shiftBlocks s.pixelBlockRegister
  else s.pixelBlockRegister

def currentInfo (s : Regs num_blocks) (i : Inputs num_blocks) (nextState : StateType) : Regs num_blocks :=
  if nextState = .start then { s with blockCountRegister := i.pixelBlockCount }
  else if nextState = .getCurrentInfo then
    { s with
      currentBlockCount := (slice s.blockCountRegister 0 8).toNat
      current_pixel := slice s.pixelBlockRegister 0 24 }
  else if nextState = .shiftBlockRegister then
    { s with blockCountRegister := shiftCounts s.blockCountRegister }
  else s

def pixelRead (nextState : StateType) : Bool :=
  nextState = .writeOutPixel ∨ nextState = .finish ∨ nextState = .waitForAck ∨ nextState = .waitForLastAck

def outputProcess (nextState : StateType) : Bool :=
  nextState = .finish ∨ nextState = .waitForLastAck

/-- One rising edge of `clk`. -/
def step (s : Regs num_blocks) (i : Inputs num_blocks) : Regs num_blocks :=
  let nextState := nextStateDecode s i
  let info := currentInfo s i nextState
  { state := nextState
    blockCounter := blockCounterManager s nextState
    currentBlockCount := info.currentBlockCount
    pixelWriteCounter := ledCountManager s nextState
    pixelBlockRegister := mangageBlockRegister s i nextState
    blockCountRegister := info.blockCountRegister
    last_pixel := outputProcess nextState
    valid_pixel := pixelRead nextState
    current_pixel := info.current_pixel }

/-! ## What an edge does -/

/-- The colour of block `k`. -/
def blockAt (blocks : BitVec (num_blocks * 24)) (k : Nat) : BitVec 24 := slice blocks (k * 24) 24

/-- The number of LEDs of block `k`. -/
def countAt (counts : BitVec (num_blocks * 8)) (k : Nat) : Nat := (slice counts (k * 8) 8).toNat

/-- What a clock edge turns `s` into, one constructor for each transition. -/
inductive Edge (s : Regs num_blocks) (i : Inputs num_blocks) : Regs num_blocks → Prop
  | rest (h : s.state = .idle) (hr : i.run = false) :
      Edge s i { s with blockCounter := 0, last_pixel := false, valid_pixel := false }
  | load (h : s.state = .idle) (hr : i.run = true) :
      Edge s i { s with
        state := .start, pixelBlockRegister := i.pixelBlocks, blockCountRegister := i.pixelBlockCount,
        last_pixel := false, valid_pixel := false }
  | info (h : s.state = .start ∨ s.state = .blockCountDecide ∧ s.blockCounter ≠ num_blocks) :
      Edge s i { s with
        state := .getCurrentInfo, currentBlockCount := countAt s.blockCountRegister 0,
        current_pixel := blockAt s.pixelBlockRegister 0, last_pixel := false, valid_pixel := false }
  | toCount (h : s.state = .getCurrentInfo ∨ s.state = .incLEDCount) :
      Edge s i { s with state := .ledCountDecide, last_pixel := false, valid_pixel := false }
  | blockDone (h : s.state = .ledCountDecide) (hc : s.pixelWriteCounter = s.currentBlockCount) :
      Edge s i { s with
        state := .incBlockCount, blockCounter := s.blockCounter + 1, last_pixel := false, valid_pixel := false }
  | offer (h : s.state = .ledCountDecide) (hc : s.pixelWriteCounter ≠ s.currentBlockCount) :
      Edge s i { s with state := .writeOutPixel, last_pixel := false, valid_pixel := true }
  | wait (h : s.state = .writeOutPixel ∨ s.state = .waitForAck ∧ i.advance_pixel = false) :
      Edge s i { s with state := .waitForAck, last_pixel := false, valid_pixel := true }
  | taken (h : s.state = .waitForAck) (ha : i.advance_pixel = true) :
      Edge s i { s with
        state := .incLEDCount, pixelWriteCounter := s.pixelWriteCounter + 1,
        last_pixel := false, valid_pixel := false }
  | shift (h : s.state = .incBlockCount) :
      Edge s i { s with
        state := .shiftBlockRegister, pixelBlockRegister := shiftBlocks s.pixelBlockRegister,
        blockCountRegister := shiftCounts s.blockCountRegister, last_pixel := false, valid_pixel := false }
  | nextBlock (h : s.state = .shiftBlockRegister) :
      Edge s i { s with
        state := .blockCountDecide, pixelWriteCounter := 0, last_pixel := false, valid_pixel := false }
  | allDone (h : s.state = .blockCountDecide) (hc : s.blockCounter = num_blocks) :
      Edge s i { s with state := .finish, last_pixel := true, valid_pixel := true }
  | waitLast (h : s.state = .finish ∨ s.state = .waitForLastAck ∧ i.advance_pixel = false) :
      Edge s i { s with state := .waitForLastAck, last_pixel := true, valid_pixel := true }
  | finished (h : s.state = .waitForLastAck) (ha : i.advance_pixel = true) :
      Edge s i { s with state := .idle, blockCounter := 0, last_pixel := false, valid_pixel := false }
  | stuck (h : s.state = .shiftInPixel) :
      Edge s i { s with last_pixel := false, valid_pixel := false }

theorem edge_step (s : Regs num_blocks) (i : Inputs num_blocks) : Edge s i (step s i) := by
  obtain ⟨st, k, c, p, blocks, counts, last, valid, cur⟩ := s
  cases st <;> simp only [step, nextStateDecode]
  case idle =>
    cases hr : i.run
    · exact .rest rfl hr
    · exact .load rfl hr
  case start => exact .info (.inl rfl)
  case getCurrentInfo => exact .toCount (.inl rfl)
  case blockCountDecide =>
    by_cases hk : k = num_blocks
    · simp only [hk, if_true]; exact .allDone rfl rfl
    · simp only [hk, if_false]; exact .info (.inr ⟨rfl, hk⟩)
  case ledCountDecide =>
    by_cases hp : p = c
    · simp only [hp, if_true]; exact .blockDone rfl rfl
    · simp only [hp, if_false]; exact .offer rfl hp
  case writeOutPixel => exact .wait (.inl rfl)
  case waitForAck =>
    cases ha : i.advance_pixel
    · exact .wait (.inr ⟨rfl, ha⟩)
    · exact .taken rfl ha
  case incLEDCount => exact .toCount (.inr rfl)
  case incBlockCount => exact .shift rfl
  case shiftBlockRegister => exact .nextBlock rfl
  case finish => exact .waitLast (.inl rfl)
  case waitForLastAck =>
    cases ha : i.advance_pixel
    · exact .waitLast (.inr ⟨rfl, ha⟩)
    · exact .finished rfl ha
  case shiftInPixel => exact .stuck rfl

/-! ## The invariant -/

/-- How far the counters are in each state, and that the current block is the
one on top of the two registers. -/
def Counted (s : Regs num_blocks) : Prop :=
  let top := s.currentBlockCount = countAt s.blockCountRegister 0 ∧ s.current_pixel = blockAt s.pixelBlockRegister 0
  match s.state with
  | .idle | .start => s.blockCounter = 0 ∧ s.pixelWriteCounter = 0
  | .getCurrentInfo => s.blockCounter < num_blocks ∧ s.pixelWriteCounter = 0 ∧ top
  | .ledCountDecide | .incLEDCount =>
    s.blockCounter < num_blocks ∧ s.pixelWriteCounter ≤ s.currentBlockCount ∧ top
  | .writeOutPixel | .waitForAck =>
    s.blockCounter < num_blocks ∧ s.pixelWriteCounter < s.currentBlockCount ∧ top
  | .incBlockCount | .shiftBlockRegister =>
    0 < s.blockCounter ∧ s.blockCounter ≤ num_blocks ∧ s.pixelWriteCounter = s.currentBlockCount
  | .blockCountDecide => 0 < s.blockCounter ∧ s.blockCounter ≤ num_blocks ∧ s.pixelWriteCounter = 0
  | .finish | .waitForLastAck => s.blockCounter = num_blocks ∧ s.pixelWriteCounter = 0
  | .shiftInPixel => False

structure Inv (s : Regs num_blocks) : Prop where
  counted : Counted s
  valid : s.valid_pixel = pixelRead s.state
  last : s.last_pixel = outputProcess s.state

theorem powerUp_inv : Inv (powerUp : Regs num_blocks) :=
  ⟨⟨rfl, rfl⟩, rfl, rfl⟩

theorem step_inv (hN : 0 < num_blocks) {s : Regs num_blocks} (i : Inputs num_blocks) (h : Inv s) :
    Inv (step s i) := by
  have he := edge_step s i
  generalize step s i = s' at he ⊢
  obtain ⟨hc, -, -⟩ := h
  cases he with
  | rest h =>
    simp only [Counted, h] at hc
    exact ⟨by simp [Counted, h, hc], by simp [h, pixelRead], by simp [h, outputProcess]⟩
  | load h => simp only [Counted, h] at hc; exact ⟨hc, rfl, rfl⟩
  | info h =>
    refine ⟨?_, rfl, rfl⟩
    rcases h with h | ⟨h, hk⟩ <;> simp only [Counted, h] at hc
    · exact ⟨by simpa [hc.1] using hN, hc.2, rfl, rfl⟩
    · exact ⟨by simp only; omega, hc.2.2, rfl, rfl⟩
  | toCount h =>
    refine ⟨?_, rfl, rfl⟩
    rcases h with h | h <;> simp only [Counted, h] at hc
    · exact ⟨hc.1, by simp [hc.2.1], hc.2.2⟩
    · exact hc
  | blockDone h hp =>
    simp only [Counted, h] at hc
    exact ⟨⟨Nat.succ_pos _, hc.1, hp⟩, rfl, rfl⟩
  | offer h hp =>
    simp only [Counted, h] at hc
    exact ⟨⟨hc.1, Nat.lt_of_le_of_ne hc.2.1 hp, hc.2.2⟩, rfl, rfl⟩
  | wait h =>
    refine ⟨?_, rfl, rfl⟩
    rcases h with h | ⟨h, -⟩ <;> simp only [Counted, h] at hc <;> exact hc
  | taken h => simp only [Counted, h] at hc; exact ⟨⟨hc.1, hc.2.1, hc.2.2⟩, rfl, rfl⟩
  | shift h => simp only [Counted, h] at hc; exact ⟨hc, rfl, rfl⟩
  | nextBlock h => simp only [Counted, h] at hc; exact ⟨⟨hc.1, hc.2.1, rfl⟩, rfl, rfl⟩
  | allDone h hk => simp only [Counted, h] at hc; exact ⟨⟨hk, hc.2.2⟩, rfl, rfl⟩
  | waitLast h =>
    refine ⟨?_, rfl, rfl⟩
    rcases h with h | ⟨h, -⟩ <;> simp only [Counted, h] at hc <;> exact hc
  | finished h => simp only [Counted, h] at hc; exact ⟨⟨rfl, hc.2⟩, rfl, rfl⟩
  | stuck h => simp only [Counted, h] at hc

/-- The sequencer is idle after an edge only if it was not run, or if its last
pixel was acknowledged. -/
theorem idle_step (s : Regs num_blocks) (i : Inputs num_blocks) : (step s i).state = .idle ↔
    s.state = .idle ∧ i.run = false ∨ s.state = .waitForLastAck ∧ i.advance_pixel = true := by
  have he := edge_step s i
  generalize step s i = s' at he ⊢
  cases he with
  | info h => rcases h with h | ⟨h, -⟩ <;> simp [h]
  | toCount h => rcases h with h | h <;> simp [h]
  | wait h | waitLast h => rcases h with h | ⟨h, ha⟩ <;> simp [*]
  | _ => simp [*]

theorem start_step {s : Regs num_blocks} {i : Inputs num_blocks} (h : s.state = .idle) (hr : i.run = true) :
    (step s i).state = .start := by
  simp [step, nextStateDecode, h, hr]

theorem lastAck_keep {s : Regs num_blocks} {i : Inputs num_blocks} (h : s.state = .waitForLastAck)
    (ha : i.advance_pixel = false) : (step s i).state = .waitForLastAck := by
  simp [step, nextStateDecode, h, ha]

/-- An offered pixel, or the end of the strip, stays offered until it is
acknowledged. -/
theorem offer_step {s : Regs num_blocks} {i : Inputs num_blocks} (h : Inv s) (hv : s.valid_pixel = true)
    (ha : i.advance_pixel = false) :
    (step s i).state = .waitForAck ∧ (step s i).current_pixel = s.current_pixel ∨
      (step s i).state = .waitForLastAck := by
  rw [h.valid] at hv
  have he := edge_step s i
  generalize step s i = s' at he ⊢
  cases he with
  | info h => rcases h with h | ⟨h, -⟩ <;> simp [h, pixelRead] at hv
  | toCount h => rcases h with h | h <;> simp [h, pixelRead] at hv
  | wait h => exact .inl ⟨rfl, rfl⟩
  | waitLast h => exact .inr rfl
  | taken _ ha' | finished _ ha' => simp [ha] at ha'
  | rest h | load h | blockDone h | offer h | shift h | nextBlock h | allDone h | stuck h =>
    simp [h, pixelRead] at hv

/-! ## The pixels still to be acknowledged -/

/-- `m` blocks from block `lo` on, each repeated as often as its count says. -/
def pixelsFrom (blocks : BitVec (num_blocks * 24)) (counts : BitVec (num_blocks * 8)) (lo m : Nat) :
    List (BitVec 24) :=
  (List.range m).flatMap fun j => List.replicate (countAt counts (lo + j)) (blockAt blocks (lo + j))

/-- The LED strip that `blocks` and `counts` describe. -/
def expand (blocks : BitVec (num_blocks * 24)) (counts : BitVec (num_blocks * 8)) : List (BitVec 24) :=
  pixelsFrom blocks counts 0 num_blocks

theorem pixelsFrom_succ (blocks : BitVec (num_blocks * 24)) (counts : BitVec (num_blocks * 8)) (lo m : Nat) :
    pixelsFrom blocks counts lo (m + 1) =
      List.replicate (countAt counts lo) (blockAt blocks lo) ++ pixelsFrom blocks counts (lo + 1) m := by
  simp [pixelsFrom, List.range_succ_eq_map, List.flatMap_map, Nat.add_assoc, Nat.add_comm 1]

theorem blockAt_shift (r : BitVec (num_blocks * 24)) {k : Nat} (hk : k + 1 < num_blocks) :
    blockAt (shiftBlocks r) k = blockAt r (k + 1) := by
  apply slice_eq (by omega) (by omega)
  intro i hi
  rw [shiftBlocks, getMsbD_ofLeft _ (by omega), if_pos (by omega)]
  congr 1
  omega

theorem countAt_shift (r : BitVec (num_blocks * 8)) {k : Nat} (hk : k + 1 < num_blocks) :
    countAt (shiftCounts r) k = countAt r (k + 1) := by
  refine congrArg BitVec.toNat (slice_eq (by omega) (by omega) fun i hi => ?_)
  have hin : k * 8 + i < num_blocks * 8 := by omega
  have hout : (k + 1) * 8 + i < num_blocks * 8 := by omega
  simp only [BitVec.getMsbD_eq_getLsbD, hin, hout, decide_true, Bool.true_and]
  rw [shiftCounts, getLsbD_ofDownto _ (by omega), if_pos (by omega)]
  congr 1
  omega

/-- Shifting both registers drops the first block. -/
theorem pixelsFrom_shift (r : BitVec (num_blocks * 24)) (c : BitVec (num_blocks * 8)) {m : Nat}
    (hm : m + 1 ≤ num_blocks) :
    pixelsFrom (shiftBlocks r) (shiftCounts c) 0 m = pixelsFrom r c 1 m := by
  apply List.flatMap_congr
  intro j hj
  have hj : j < m := List.mem_range.1 hj
  rw [Nat.zero_add, countAt_shift c (by omega), blockAt_shift r (by omega), Nat.add_comm 1 j]

/-- The pixels the sequencer will still have acknowledged in this activation. -/
def remaining (s : Regs num_blocks) : List (BitVec 24) :=
  let blocks := s.pixelBlockRegister
  let counts := s.blockCountRegister
  match s.state with
  | .start | .getCurrentInfo | .ledCountDecide | .writeOutPixel | .waitForAck | .incLEDCount =>
    List.replicate (countAt counts 0 - s.pixelWriteCounter) (blockAt blocks 0) ++
      pixelsFrom blocks counts 1 (num_blocks - s.blockCounter - 1)
  | .incBlockCount => pixelsFrom blocks counts 1 (num_blocks - s.blockCounter)
  | .shiftBlockRegister | .blockCountDecide => pixelsFrom blocks counts 0 (num_blocks - s.blockCounter)
  | .idle | .finish | .waitForLastAck | .shiftInPixel => []

/-- An edge that loads makes the whole strip remain; one that takes an
acknowledgement for a pixel drops the offered pixel; any other edge keeps what
remains. -/
theorem remaining_step (hN : 0 < num_blocks) {s : Regs num_blocks} (i : Inputs num_blocks) (h : Inv s) :
    if s.state = .idle ∧ i.run = true then remaining (step s i) = expand i.pixelBlocks i.pixelBlockCount
    else if s.state = .waitForAck ∧ i.advance_pixel = true then
      remaining s = s.current_pixel :: remaining (step s i)
    else remaining (step s i) = remaining s := by
  have he := edge_step s i
  generalize step s i = s' at he ⊢
  obtain ⟨hc, -, -⟩ := h
  cases he with
  | rest h hr => simp [h, hr, remaining]
  | load h hr =>
    simp only [Counted, h] at hc
    obtain ⟨m, rfl⟩ : ∃ m, num_blocks = m + 1 := ⟨num_blocks - 1, by omega⟩
    simp [h, hr, remaining, hc, expand, pixelsFrom_succ]
  | info h =>
    rcases h with h | ⟨h, hk⟩ <;> simp only [Counted, h] at hc
    · simp [h, remaining]
    · -- the block on top becomes the current one
      obtain ⟨m, hm⟩ : ∃ m, num_blocks - s.blockCounter = m + 1 := ⟨num_blocks - s.blockCounter - 1, by omega⟩
      simp [h, remaining, hc, hm, pixelsFrom_succ]
  | toCount h => rcases h with h | h <;> simp [h, remaining]
  | blockDone h hp =>
    simp only [Counted, h] at hc
    have hz : countAt s.blockCountRegister 0 - s.pixelWriteCounter = 0 := by omega
    simp [h, remaining, hz, Nat.sub_sub]
  | offer h => simp [h, remaining]
  | wait h => rcases h with h | ⟨h, ha⟩ <;> simp [remaining, *]
  | taken h ha =>
    simp only [Counted, h] at hc
    obtain ⟨-, hp, hc, hcur⟩ := hc
    obtain ⟨m, hm⟩ : ∃ m, countAt s.blockCountRegister 0 - s.pixelWriteCounter = m + 1 :=
      ⟨countAt s.blockCountRegister 0 - s.pixelWriteCounter - 1, by omega⟩
    simp [h, ha, remaining, hm, Nat.sub_add_eq, List.replicate_succ, hcur]
  | shift h =>
    simp only [Counted, h] at hc
    simp [h, remaining, pixelsFrom_shift _ _ (show num_blocks - s.blockCounter + 1 ≤ num_blocks by omega)]
  | nextBlock h => simp [h, remaining]
  | allDone h hk => simp [h, hk, remaining, pixelsFrom]
  | waitLast h => rcases h with h | ⟨h, ha⟩ <;> simp [h, remaining]
  | finished h => simp [h, remaining]
  | stuck h => simp only [Counted, h] at hc

end DinoLight.BlockToPixel
