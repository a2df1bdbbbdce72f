import DinoLight.BlockToPixel
/-!
# What the sequencer has acknowledged

`blockToPixel` alone, with any consumer: whenever `advance_pixel` comes, the
pixels acknowledged in an activation are a front part of the expanded block
list, and all of it once the sequencer is idle again. What is still missing is
`remaining`, so every cycle is an instance of `remaining_step`.
-/
open Clocked

namespace DinoLight.Expansion
open BlockToPixel

variable {num_blocks : Nat}

/-- What an acknowledgement was for. -/
inductive Ack where
  | pixel (current_pixel : BitVec 24)
  | last
  deriving DecidableEq

/-- The acknowledgement in a cycle, if there is one. -/
def acks (s : Regs num_blocks) (i : Inputs num_blocks) : List Ack :=
  match s.state with
  | .waitForAck => if i.advance_pixel then [.pixel s.current_pixel] else []
  | .waitForLastAck => if i.advance_pixel then [.last] else []
  | _ => []

/-- `pixelBlocks` and `pixelBlockCount` expanded, and one acknowledgement more for the end of the strip. -/
def strip (i : Inputs num_blocks) : List Ack := (expand i.pixelBlocks i.pixelBlockCount).map Ack.pixel ++ [.last]

/-- The declared ranges of the counters; a block is not written more often than its count. -/
structure InRange (s : Regs num_blocks) : Prop where
  blockCounter : s.blockCounter ≤ num_blocks
  pixelWriteCounter : s.pixelWriteCounter ≤ s.currentBlockCount
  currentBlockCount : s.currentBlockCount ≤ 255

/-- The run under the waveform `w`. -/
def run (w : Nat → Inputs num_blocks) : Nat → Regs num_blocks := after step powerUp w

theorem run_succ (w : Nat → Inputs num_blocks) (n : Nat) : run w (n + 1) = step (run w n) (w n) := rfl

/-- The acknowledgements of the `n` cycles from cycle `a` on. -/
def acked (w : Nat → Inputs num_blocks) (a n : Nat) : List Ack :=
  collect (fun k => acks (run w (a + k)) (w (a + k))) n

/-- Every activation, entered with what cycle `L` latches, has had a front part
of its strip acknowledged, and all of it when it is over. -/
structure Exact (w : Nat → Inputs num_blocks) : Prop where
  range : ∀ n, InRange (run w n)
  unfinished : ∀ L n, (run w (L + 1)).state = .start → (∀ k ≤ n, (run w (L + 1 + k)).state ≠ .idle) →
    acked w (L + 1) n <+: strip (w L)
  finished : ∀ L n, (run w (L + 1)).state = .start → (∀ k ≤ n, (run w (L + 1 + k)).state ≠ .idle) →
    (run w (L + 1 + (n + 1))).state = .idle → acked w (L + 1) (n + 1) = strip (w L)

/-! ## Ranges -/

theorem countAt_le (counts : BitVec (num_blocks * 8)) (k : Nat) : countAt counts k ≤ 255 :=
  Nat.le_of_lt_succ (BitVec.isLt _)

theorem currentBlockCount_step {s : Regs num_blocks} (i : Inputs num_blocks) (h : s.currentBlockCount ≤ 255) :
    (step s i).currentBlockCount ≤ 255 := by
  have he := edge_step s i
  generalize step s i = s' at he ⊢
  cases he with
  | info => exact countAt_le _ 0
  | _ => exact h

theorem counters_le {s : Regs num_blocks} (h : Counted s) :
    s.blockCounter ≤ num_blocks ∧ s.pixelWriteCounter ≤ s.currentBlockCount := by
  cases hs : s.state <;> simp only [Counted, hs] at h <;> omega

theorem run_inv (hN : 0 < num_blocks) (w : Nat → Inputs num_blocks) (n : Nat) : Inv (run w n) :=
  after_inv powerUp_inv (fun _ i => step_inv hN i) n

theorem run_in_range (hN : 0 < num_blocks) (w : Nat → Inputs num_blocks) (n : Nat) : InRange (run w n) := by
  obtain ⟨hblock, hpixel⟩ := counters_le (run_inv hN w n).counted
  refine ⟨hblock, hpixel, ?_⟩
  exact after_inv (I := fun s : Regs num_blocks => s.currentBlockCount ≤ 255) (Nat.zero_le 255)
    (fun _ => currentBlockCount_step) n

/-! ## One cycle -/

/-- The sequencer starts only from idle, with what its inputs show. -/
theorem start_iff (s : Regs num_blocks) (i : Inputs num_blocks) :
    (step s i).state = .start ↔ s.state = .idle ∧ i.run = true := by
  have he := edge_step s i
  generalize step s i = s' at he ⊢
  cases he with
  | info h => rcases h with h | ⟨h, -⟩ <;> simp [h]
  | toCount h => rcases h with h | h <;> simp [h]
  | wait h | waitLast h => rcases h with h | ⟨h, ha⟩ <;> simp [*]
  | _ => simp [*]

/-- While the activation goes on, a cycle acknowledges what it takes off `remaining`. -/
theorem acks_step (hN : 0 < num_blocks) {s : Regs num_blocks} (i : Inputs num_blocks) (h : Inv s)
    (hbusy : s.state ≠ .idle) (hnext : (step s i).state ≠ .idle) :
    (remaining s).map Ack.pixel = acks s i ++ (remaining (step s i)).map Ack.pixel := by
  have hrem := remaining_step hN i h
  rw [if_neg fun hload => hbusy hload.1] at hrem
  by_cases htaken : s.state = .waitForAck ∧ i.advance_pixel = true
  · rw [if_pos htaken] at hrem
    rw [hrem, acks, htaken.1, htaken.2]
    rfl
  · rw [if_neg htaken] at hrem
    have hnone : acks s i = [] := by
      have hlast : ¬ (s.state = .waitForLastAck ∧ i.advance_pixel = true) :=
        fun hlast => hnext ((idle_step s i).2 (.inr hlast))
      unfold acks
      cases hs : s.state <;> simp_all
    rw [hnone, hrem]
    rfl

/-- The activation ends with the acknowledgement of `last_pixel`. -/
theorem acks_last {s : Regs num_blocks} {i : Inputs num_blocks} (hbusy : s.state ≠ .idle)
    (hnext : (step s i).state = .idle) : acks s i = [.last] ∧ remaining s = [] := by
  rcases (idle_step s i).1 hnext with ⟨hidle, -⟩ | ⟨hlast, ha⟩
  · exact absurd hidle hbusy
  · simp [acks, remaining, hlast, ha]

/-! ## One activation -/

variable {w : Nat → Inputs num_blocks}

/-- What has been acknowledged and what remains make up the strip. -/
theorem acked_remaining (hN : 0 < num_blocks) {L n : Nat} (hstart : (run w (L + 1)).state = .start)
    (hbusy : ∀ k ≤ n, (run w (L + 1 + k)).state ≠ .idle) :
    acked w (L + 1) n ++ ((remaining (run w (L + 1 + n))).map Ack.pixel ++ [.last]) = strip (w L) := by
  induction n with
  | zero =>
    have hload : (run w L).state = .idle ∧ (w L).run = true := (start_iff _ _).1 hstart
    have hrem := remaining_step hN (w L) (run_inv hN w L)
    rw [if_pos hload] at hrem
    rw [strip, ← hrem]
    rfl
  | succ n ih =>
    have hbefore := ih fun k hk => hbusy k (Nat.le_succ_of_le hk)
    have hstep := acks_step hN (w (L + 1 + n)) (run_inv hN w (L + 1 + n)) (hbusy n (Nat.le_succ n))
      (hbusy (n + 1) (Nat.le_refl _))
    rw [hstep, List.append_assoc] at hbefore
    rw [acked, collect_succ, List.append_assoc]
    exact hbefore

/-- Whatever the consumer does, an activation has the expanded block list
acknowledged in order, and then the end of the strip once. -/
theorem expands (hN : 0 < num_blocks) (w : Nat → Inputs num_blocks) : Exact w := by
  refine ⟨run_in_range hN w, fun L n hstart hbusy => ?_, fun L n hstart hbusy hidle => ?_⟩
  · exact ⟨_, acked_remaining hN hstart hbusy⟩
  · have hmade := acked_remaining hN hstart hbusy
    rw [← Nat.add_assoc, run_succ] at hidle
    obtain ⟨hlast, hrem⟩ := acks_last (hbusy n (Nat.le_refl n)) hidle
    rw [hrem] at hmade
    rw [acked, collect_succ, hlast]
    exact hmade

/-- One block of three LEDs, acknowledged as fast as possible. -/
def heldHigh (_ : Nat) : Inputs 1 where
  run := true
  pixelBlocks := 0xff0080
  pixelBlockCount := 3
  advance_pixel := true

theorem held_high_expands : Exact heldHigh := expands (by decide) heldHigh

end DinoLight.Expansion
