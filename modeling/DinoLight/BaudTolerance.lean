import DinoLight.LineReading
import Mathlib.Tactic.IntervalCases
/-!
# The tolerance of the receiver

The sender has a clock of its own. Its wave is a function of time in units so
fine that one of its bits is `P` units and one cycle of the receiver is `q`,
and the receiver sees one unit of every `q`. The bit times that it can follow
through any number of bytes are exactly those between `busy C / 10` and
`(half C + 8 * C) / 8` of its cycles.
-/
open Clocked

namespace DinoLight.BaudTolerance
open LineReading
open UartRx (Idle)
open SerialLink (Regs step powerUp bytesBefore wireBits)

/-- The bytes `b` on a wave, byte `i` from `start i` on, high before and between
them. -/
structure Sent (P : Nat) (wave : Nat → Bool) (quiet : Nat) (start : Nat → Nat) (b : Nat → BitVec 8) (N : Nat) :
    Prop where
  lead : ∀ x, quiet ≤ x → x < start 0 → wave x = true
  bit : ∀ i < N, ∀ k < 10, ∀ o < P, wave (start i + k * P + o) = (wireBits (b i)).getD k true
  rest : ∀ i < N, ∀ x, start i + 10 * P ≤ x → x < start (i + 1) → wave x = true
  apart : ∀ i < N, start i + 10 * P ≤ start (i + 1)

/-- What a receiver that starts at `u` sees of a wave. -/
def sampled (q u : Nat) (wave : Nat → Bool) (t : Nat) : Bool := wave (q * t + u)

/-- The first cycle of the receiver at or after `x`. -/
def firstCycle (q u x : Nat) : Nat := (x - u + q - 1) / q

/-! ## Cycles -/

section Cycles
variable {q u x : Nat}

theorem lt_firstCycle (hq : 0 < q) {t : Nat} : t < firstCycle q u x ↔ q * t + u < x := by
  unfold firstCycle
  rw [← Nat.succ_le_iff, Nat.le_div_iff_mul_le hq, Nat.succ_mul, Nat.mul_comm t q]
  omega

theorem firstCycle_le (hq : 0 < q) {t : Nat} : firstCycle q u x ≤ t ↔ x ≤ q * t + u := by
  rw [← Nat.not_lt, lt_firstCycle hq, Nat.not_lt]

theorem le_sample (hq : 0 < q) (u x : Nat) : x ≤ q * firstCycle q u x + u := (firstCycle_le hq).1 (Nat.le_refl _)

theorem sample_lt (hq : 0 < q) (hu : u ≤ x) : q * firstCycle q u x + u < x + q := by
  rcases Nat.eq_zero_or_pos (firstCycle q u x) with h | h
  · rw [h]
    omega
  · obtain ⟨f, hf⟩ := Nat.exists_eq_succ_of_ne_zero (Nat.ne_of_gt h)
    have hlt := (lt_firstCycle (u := u) (x := x) hq).1 (hf ▸ Nat.lt_succ_self f)
    rw [hf, Nat.mul_succ]
    omega

end Cycles

theorem wireBits_stop (b : BitVec 8) : (wireBits b).getD 9 true = true := rfl

theorem wireBits_data (b : BitVec 8) {k : Nat} (hk : k < 8) : (wireBits b).getD (k + 1) true = b.getLsbD k := by
  rw [wireBits, List.cons_append, List.getD_cons_succ, List.getD_append _ _ _ _ (by simpa using hk)]
  simp [List.getD_eq_getElem?_getD, hk]

/-! ## Within the tolerance -/

/-- The bit times that the receiver can follow. -/
structure Tolerated (C P q : Nat) : Prop where
  fast : q * busy C ≤ 10 * P
  slow : 8 * P ≤ q * (half C + 8 * C)

section Within
variable {C P q : Nat} {wave : Nat → Bool} {a u N : Nat} {start : Nat → Nat} {b : Nat → BitVec 8}

theorem Sent.bit_at (h : Sent P wave a start b N) {i k x : Nat} (hi : i < N) (hk : k < 10)
    (h1 : start i + k * P ≤ x) (h2 : x < start i + k * P + P) : wave x = (wireBits (b i)).getD k true := by
  obtain ⟨o, rfl⟩ := Nat.exists_eq_add_of_le h1
  exact h.bit i hi k hk o (Nat.lt_of_add_lt_add_left h2)

theorem Sent.high (h : Sent P wave a start b N) {i x : Nat} (hi : i < N) (h1 : start i + 9 * P ≤ x)
    (h2 : x < start (i + 1)) : wave x = true := by
  rcases Nat.lt_or_ge x (start i + 10 * P) with hx | hx
  · exact h.bit_at hi (by decide : 9 < 10) h1 (by omega)
  · exact h.rest i hi x hx h2

theorem mul_half_le (C q : Nat) : 2 * (q * half C) ≤ q * C + q * 2 := by
  rw [Nat.mul_left_comm, ← Nat.mul_add]
  apply Nat.mul_le_mul_left
  unfold half
  omega

theorem mul_busy (C q : Nat) : q * busy C = q * half C + 9 * (q * C) + q * 2 := by
  rw [busy, Nat.mul_add, Nat.mul_add, Nat.mul_left_comm]

/-- Of a wave in the tolerance the receiver sees what was sent. -/
theorem readable (hC : 7 ≤ C) (hq : 0 < q) (ht : Tolerated C P q) (h : Sent P wave a start b N)
    (hu : u ≤ start 0) : Readable C (sampled q u wave) (fun i => firstCycle q u (start i)) b N := by
  obtain ⟨hfast, hslow⟩ := ht
  have hbusy := mul_busy C q
  have hhalf := mul_half_le C q
  rw [Nat.mul_add, Nat.mul_left_comm] at hslow
  have hB : q * 7 ≤ q * C := Nat.mul_le_mul_left q hC
  have hstart (i : Nat) (hi : i ≤ N) : u ≤ start i := by
    induction i with
    | zero => exact hu
    | succ i ih => exact Nat.le_trans (ih (Nat.le_of_succ_le hi)) (Nat.le_trans (Nat.le_add_right _ _) (h.apart i hi))
  have hsee (i : Nat) (hi : i < N) (m : Nat) :
      ∃ d < q, q * (firstCycle q u (start i) + m) + u = start i + (d + q * m) := by
    have h1 := le_sample hq u (start i)
    have h2 := sample_lt hq (hstart i (Nat.le_of_lt hi))
    refine ⟨q * firstCycle q u (start i) + u - start i, by omega, ?_⟩
    rw [Nat.mul_add]
    omega
  have hnext (i : Nat) (hi : i < N) : firstCycle q u (start i) + busy C ≤ firstCycle q u (start (i + 1)) := by
    apply Nat.le_of_pred_lt
    rw [lt_firstCycle hq]
    have hap := h.apart i hi
    have h2 := sample_lt hq (hstart i (Nat.le_of_lt hi))
    have hpred : q * (firstCycle q u (start i) + busy C).pred + q = q * (firstCycle q u (start i) + busy C) := by
      rw [← Nat.mul_succ, Nat.succ_pred (by unfold busy; omega)]
    rw [Nat.mul_add] at hpred
    omega
  constructor
  · intro i hi
    have h2 := sample_lt hq (hstart i (Nat.le_of_lt hi))
    apply h.bit_at (k := 0) hi (by decide)
    · rw [Nat.zero_mul]
      exact le_sample hq u (start i)
    · omega
  · intro i hi
    obtain ⟨d, hd, hx⟩ := hsee i hi (half C)
    exact h.bit_at (k := 0) hi (by decide) (by omega) (by omega)
  · intro i hi k hk
    obtain ⟨d, hd, hx⟩ := hsee i hi (half C + (k + 1) * C)
    rw [← wireBits_data (b i) hk]
    rw [Nat.mul_add q (half C), Nat.mul_left_comm q (k + 1) C] at hx
    rw [sampled, Nat.add_assoc, hx]
    apply h.bit_at hi (by omega)
    · interval_cases k <;> omega
    · interval_cases k <;> omega
  · exact hnext
  · intro i hi v h1 h2 hv
    obtain ⟨m, rfl⟩ := Nat.exists_eq_add_of_le h1
    obtain ⟨d, hd, hx⟩ := hsee i hi (busy C + m)
    have hbefore := (lt_firstCycle hq).1 h2
    rw [sampled] at hv
    rw [← Nat.add_assoc, Nat.mul_add q (busy C) m] at hx
    have hlast : q * (firstCycle q u (start i) + busy C + m) + u < start i + 9 * P := by
      by_contra hge
      have hhigh := h.high hi (Nat.not_lt.1 hge) hbefore
      rw [hhigh] at hv
      cases hv
    have hap := h.apart i hi
    have hlater : q * (firstCycle q u (start i) + busy C + m + half C) + u < start (i + 1) := by
      rw [Nat.mul_add q _ (half C)]
      omega
    refine ⟨h.high hi ?_ hlater, (lt_firstCycle hq).2 hlater⟩
    rw [Nat.mul_add q _ (half C)]
    omega

/-- All that was sent is strobed, in order. -/
theorem sent_received {num_blocks : Nat} {s : Nat → Regs num_blocks} (hC : 7 ≤ C) (hq : 0 < q)
    (ht : Tolerated C P q) (hs : Follows (step C) (sampled q u wave) s) (h0 : s 0 = powerUp)
    (h : Sent P wave a start b N) (ha : a ≤ q * (half C - 4) + u) (hlead : q * C + u ≤ start 0) {n : Nat}
    (hn : n ≤ N) :
    Idle (s (firstCycle q u (start n) + 4)).uart_serial_rx ∧
      bytesBefore s (firstCycle q u (start n) + 4) = (List.range n).map b := by
  have hfirst : C ≤ firstCycle q u (start 0) := by
    apply Nat.le_of_pred_lt
    rw [lt_firstCycle hq]
    have hlt : q * C.pred < q * C := Nat.mul_lt_mul_of_pos_left (Nat.pred_lt (by omega)) hq
    omega
  obtain ⟨hidle, hnil⟩ := ready hC hs h0 hfirst fun v h1 h2 => by
    have hge := Nat.mul_le_mul_left q h1
    exact h.lead _ (by omega) ((lt_firstCycle hq).1 h2)
  have hread := bytes_read (by omega) hs hidle (Nat.le_refl _) (fun v h1 h2 => absurd h2 (Nat.not_lt.2 h1))
    (readable hC hq ht h (by omega)) hn
  rwa [hnil, List.nil_append] at hread

/-- So they are if the wave stays high, and nothing else is. -/
theorem sent_run {num_blocks : Nat} {s : Nat → Regs num_blocks} (hC : 7 ≤ C) (hq : 0 < q)
    (ht : Tolerated C P q) (hs : Follows (step C) (sampled q u wave) s) (h0 : s 0 = powerUp)
    (h : Sent P wave a start b N) (ha : a ≤ q * (half C - 4) + u) (hlead : q * C + u ≤ start 0)
    (hend : ∀ x, start N ≤ x → wave x = true) :
    (∀ t, firstCycle q u (start N) + 4 ≤ t → bytesBefore s t = (List.range N).map b) ∧
      ∀ t, bytesBefore s t <+: (List.range N).map b := by
  obtain ⟨hidle, hall⟩ := sent_received hC hq ht hs h0 h ha hlead (Nat.le_refl N)
  have hafter (t : Nat) (ht : firstCycle q u (start N) + 4 ≤ t) : bytesBefore s t = (List.range N).map b := by
    obtain ⟨v, rfl⟩ := Nat.exists_eq_add_of_le' (Nat.le_trans (Nat.le_add_left 4 _) ht)
    rw [← hall]
    refine (idle_through hs (Nat.le_of_add_le_add_right ht) hidle ?_).2
    exact quiet_of_high fun v h1 _ => hend _ ((firstCycle_le hq).1 h1)
  refine ⟨hafter, fun t => ?_⟩
  rw [← hafter (max t (firstCycle q u (start N) + 4)) (Nat.le_max_right _ _)]
  exact UartRxController.received_mono _ (Nat.le_max_left _ _)

end Within

/-! ## Out of the tolerance -/

/-- The bytes `b`, `N` of them without a break. -/
def burst (P first : Nat) (b : Nat → BitVec 8) (N x : Nat) : Bool :=
  if x < first ∨ first + N * (10 * P) ≤ x then true
  else (wireBits (b ((x - first) / (10 * P)))).getD ((x - first) % (10 * P) / P) true

section Burst
variable {P first N : Nat} {b : Nat → BitVec 8}

theorem burst_bit {i y : Nat} (hi : i < N) (hy : y < 10 * P) :
    burst P first b N (first + i * (10 * P) + y) = (wireBits (b i)).getD (y / P) true := by
  have hle : (i + 1) * (10 * P) ≤ N * (10 * P) := Nat.mul_le_mul_right _ hi
  rw [Nat.succ_mul] at hle
  unfold burst
  rw [if_neg (by omega), Nat.add_assoc, Nat.add_sub_cancel_left, Nat.mul_comm i, Nat.mul_add_mod,
    Nat.mod_eq_of_lt hy, Nat.mul_add_div (by omega), Nat.div_eq_of_lt hy, Nat.add_zero]

theorem burst_after {x : Nat} (h : first + N * (10 * P) ≤ x) : burst P first b N x = true := if_pos (.inr h)

theorem sent_burst (last : Nat) (hlast : first + N * (10 * P) ≤ last) :
    Sent P (burst P first b N) 0 (fun i => if i < N then first + i * (10 * P) else last) b N := by
  constructor
  · intro x _ hx
    beta_reduce at hx
    split at hx
    case isTrue h => exact if_pos (.inl (by omega))
    case isFalse h =>
      obtain rfl : N = 0 := by omega
      exact if_pos (by omega)
  · intro i hi k hk o ho
    have hk' : (k + 1) * P ≤ 10 * P := Nat.mul_le_mul_right P hk
    rw [Nat.succ_mul] at hk'
    rw [if_pos hi, Nat.add_assoc, burst_bit hi (by omega), Nat.mul_comm k, Nat.mul_add_div (by omega),
      Nat.div_eq_of_lt ho, Nat.add_zero]
  · intro i hi x h1 h2
    beta_reduce at h1 h2
    rw [if_pos hi] at h1
    split at h2
    case isTrue h =>
      rw [Nat.add_one_mul i] at h2
      omega
    case isFalse h =>
      obtain rfl : N = i + 1 := by omega
      apply burst_after
      rw [Nat.add_one_mul i]
      omega
  · intro i hi
    rw [if_pos hi]
    split
    case isTrue h =>
      rw [Nat.add_one_mul i]
      omega
    case isFalse h =>
      obtain rfl : N = i + 1 := by omega
      rw [Nat.add_one_mul i] at hlast
      omega

end Burst

/-- One byte again and again. -/
def repeats (P first : Nat) (b : BitVec 8) (N : Nat) : Nat → Bool := burst P first (fun _ => b) N

/-- Every wave of bytes is read, whenever it comes and however the bytes follow each other. -/
def Reads (num_blocks C P q : Nat) : Prop :=
  ∀ (u : Nat) (wave : Nat → Bool) (start : Nat → Nat) (b : Nat → BitVec 8) (N : Nat), Sent P wave u start b N →
    q * C + u ≤ start 0 →
      bytesBefore (after (step C) (powerUp : Regs num_blocks) (sampled q u wave)) (firstCycle q u (start N) + 4) =
        (List.range N).map b

section Without
variable {num_blocks C P q n : Nat} {b : BitVec 8} {line : Nat → Bool} {s : Nat → Regs num_blocks}

/-- A byte with another last bit is another byte, whatever comes later. -/
theorem misread (hC : 0 < C) (hs : Follows (step C) line s) {d last : Nat} (h : Idle (s (d + 4)).uart_serial_rx)
    (hbytes : bytesBefore s (d + 4) = List.replicate n b) (hfall : line d = false) (hlow : line (d + half C) = false)
    (hbit : line (d + half C + 8 * C) ≠ b.getLsbD 7) (hlast : d + busy C ≤ last) :
    bytesBefore s (last + 4) ≠ List.replicate (n + 1) b := by
  intro heq
  have hread := (byte_read hC hs h hfall hlow).2
  have hprefix : bytesBefore s (d + busy C + 4) <+: bytesBefore s (last + 4) :=
    UartRxController.received_mono _ (Nat.add_le_add_right hlast 4)
  rw [hread, hbytes, heq, List.replicate_succ', List.prefix_append_right_inj, List.cons_prefix_cons] at hprefix
  rw [← hprefix.1, readByte, Vectors.getLsbD_ofDownto _ (by decide)] at hbit
  exact hbit rfl

/-- What the receiver sees of the repeated byte, from its first fall on. -/
theorem repeats_seen (C q P : Nat) (b : BitVec 8) (N t : Nat) :
    sampled q 0 (repeats P (q * C) b N) (C + t) = repeats P (q * C) b N (q * C + q * t) := by
  rw [sampled, Nat.add_zero, Nat.mul_add]

theorem repeats_ready (hC : 7 ≤ C) (hs : Follows (step C) (sampled q 0 (repeats P (q * C) b N)) s)
    (h0 : s 0 = powerUp) (hq : 0 < q) :
    Idle (s (C + 4)).uart_serial_rx ∧ bytesBefore s (C + 4) = [] := by
  refine ready hC hs h0 (Nat.le_refl C) fun v _ hv => ?_
  exact if_pos (.inl (Nat.mul_lt_mul_of_pos_left hv hq))

/-- The last bit of a slow byte is not there yet. -/
theorem slow_of_reads (hC : 7 ≤ C) (hq : 0 < q) (h : Reads num_blocks C P q) : 8 * P ≤ q * (half C + 8 * C) := by
  by_contra hslow
  rw [Nat.mul_add, Nat.mul_left_comm] at hslow
  have hbusy := mul_busy C q
  let b : BitVec 8 := 0x80
  let s := after (step C) (powerUp : Regs num_blocks) (sampled q 0 (repeats P (q * C) b 1))
  have hs : Follows (step C) (sampled q 0 (repeats P (q * C) b 1)) s := after_follows
  obtain ⟨hidle, hnil⟩ := repeats_ready hC hs rfl hq
  have hlow {y : Nat} (hy : y < 8 * P) : repeats P (q * C) b 1 (q * C + y) = false := by
    have hbit : burst P (q * C) (fun _ => b) 1 (q * C + 0 * (10 * P) + y) = (wireBits b).getD (y / P) true :=
      burst_bit Nat.one_pos (by omega)
    rw [Nat.zero_mul, Nat.add_zero] at hbit
    rw [repeats, hbit]
    have hlt : y / P < 8 := Nat.div_lt_of_lt_mul (Nat.mul_comm 8 P ▸ hy)
    exact (by decide : ∀ j < 8, (wireBits 0x80).getD j true = false) _ hlt
  have hbits := h 0 (repeats P (q * C) b 1) _ _ 1 (sent_burst (q * C + q * busy C + 10 * P) (by omega))
    (by rw [if_pos Nat.one_pos, Nat.zero_mul])
  rw [if_neg (Nat.lt_irrefl 1)] at hbits
  refine misread (n := 0) (b := b) (by omega) hs hidle hnil ?_ ?_ ?_ ?_ hbits
  · exact (repeats_seen C q P b 1 0).trans (hlow (by omega))
  · exact (repeats_seen C q P b 1 (half C)).trans (hlow (by omega))
  · rw [Nat.add_assoc, repeats_seen, hlow (by rw [Nat.mul_add, Nat.mul_left_comm]; omega)]
    decide
  · apply Nat.le_of_pred_lt
    rw [lt_firstCycle hq]
    have hlt := Nat.mul_lt_mul_of_pos_left (Nat.pred_lt (by omega : C + busy C ≠ 0)) hq
    rw [Nat.mul_add] at hlt
    omega

theorem zeros_low {N i y : Nat} (hi : i < N) (hy : y < 9 * P) :
    repeats P (q * C) 0 N (q * C + i * (10 * P) + y) = false := by
  have hlt : y / P < 9 := Nat.div_lt_of_lt_mul (Nat.mul_comm 9 P ▸ hy)
  rw [repeats, burst_bit hi (by omega)]
  exact (by decide : ∀ j < 9, (wireBits 0).getD j true = false) _ hlt

theorem zeros_high {y : Nat} (hy : 9 * P ≤ y) :
    repeats P (q * C) b (n + 1) (q * C + n * (10 * P) + y) = true := by
  rcases Nat.lt_or_ge y (10 * P) with h | h
  · have hdiv : y / P = 9 := by
      apply Nat.div_eq_of_lt_le hy
      omega
    rw [repeats, burst_bit (Nat.lt_succ_self n) h, hdiv, wireBits_stop]
  · apply burst_after
    rw [Nat.add_one_mul n]
    omega

/-- The receiver `m` bytes behind a sender that is `L` a byte too fast. -/
theorem late_seen {L N : Nat} (hL : q * busy C = 10 * P + L) (m j : Nat) :
    sampled q 0 (repeats P (q * C) b N) (C + m * busy C + j) =
      repeats P (q * C) b N (q * C + m * (10 * P) + (m * L + q * j)) := by
  rw [Nat.add_assoc C, repeats_seen, Nat.mul_add, Nat.mul_left_comm, hL, Nat.mul_add m]
  congr 1
  omega

/-- It falls back from byte to byte, and reads them while the last bit is in time. -/
theorem behind (hC : 7 ≤ C) (hq : 0 < q) {L N : Nat} (hL : q * busy C = 10 * P + L)
    (hs : Follows (step C) (sampled q 0 (repeats P (q * C) 0 N)) s) (h0 : s 0 = powerUp) (hn : n < N)
    (hlate : ∀ m < n, m * L + (q * half C + 8 * (q * C)) < 9 * P) :
    Idle (s (C + n * busy C + 4)).uart_serial_rx ∧ bytesBefore s (C + n * busy C + 4) = List.replicate n 0 := by
  induction n with
  | zero =>
    rw [Nat.zero_mul]
    exact repeats_ready hC hs h0 hq
  | succ m ih =>
    obtain ⟨hidle, hbytes⟩ := ih (Nat.lt_of_succ_lt hn) fun m' hm => hlate m' (Nat.lt_succ_of_lt hm)
    have hm := hlate m (Nat.lt_succ_self m)
    have hlow {j : Nat} (hj : j ≤ half C + 8 * C) :
        sampled q 0 (repeats P (q * C) 0 N) (C + m * busy C + j) = false := by
      have hqj := Nat.mul_le_mul_left q hj
      rw [Nat.mul_add, Nat.mul_left_comm] at hqj
      rw [late_seen hL]
      exact zeros_low (Nat.lt_of_succ_lt hn) (by omega)
    have hzero : readByte C (sampled q 0 (repeats P (q * C) 0 N)) (C + m * busy C) = 0 := by
      apply readByte_eq
      intro k hk
      have hle : (k + 1) * C ≤ 8 * C := Nat.mul_le_mul_right C hk
      rw [Nat.add_assoc, hlow (Nat.add_le_add_left hle _), BitVec.ofNat_eq_ofNat, BitVec.getLsbD_zero]
    obtain ⟨hidle', hbyte⟩ := byte_read (by omega) hs hidle (hlow (j := 0) (Nat.zero_le _)) (hlow (by omega))
    rw [Nat.add_one_mul, ← Nat.add_assoc]
    exact ⟨hidle', by rw [hbyte, hbytes, hzero, List.replicate_succ']⟩

/-- A start bit that is over at its check. -/
theorem unread (hC : 7 ≤ C) (hq : 0 < q) (hP : 9 * P ≤ q * half C)
    (hs : Follows (step C) (sampled q 0 (repeats P (q * C) b 1)) s) (h0 : s 0 = powerUp) {last : Nat}
    (hlast : C + 2 * half C ≤ last) : bytesBefore s (last + 4) = [] := by
  obtain ⟨hidle, hnil⟩ := repeats_ready hC hs h0 hq
  have hhigh {t : Nat} (ht : 9 * P ≤ q * t) : sampled q 0 (repeats P (q * C) b 1) (C + t) = true := by
    have h := zeros_high (q := q) (C := C) (b := b) (n := 0) ht
    rw [Nat.zero_mul, Nat.add_zero] at h
    exact (repeats_seen C q P b 1 t).trans h
  refine (idle_through hs (by omega) hidle ?_).2.trans hnil
  intro v h1 h2 hv
  obtain ⟨t, rfl⟩ := Nat.exists_eq_add_of_le h1
  have ht : q * t < q * half C := by
    by_contra hge
    rw [hhigh (by omega)] at hv
    cases hv
  have ht' := Nat.lt_of_mul_lt_mul_left ht
  refine ⟨?_, by omega⟩
  rw [Nat.add_assoc]
  apply hhigh
  rw [Nat.mul_add]
  omega

theorem fast_of_reads (hC : 7 ≤ C) (hq : 0 < q) (h : Reads num_blocks C P q) : q * busy C ≤ 10 * P := by
  by_contra hfast
  obtain ⟨L, hL⟩ := Nat.exists_eq_add_of_le (Nat.le_of_lt (Nat.not_le.1 hfast))
  have hbusy := mul_busy C q
  have hB : q * 7 ≤ q * C := Nat.mul_le_mul_left q hC
  -- the first byte whose last bit the receiver takes from the stop bit
  have hex : ∃ n, 9 * P ≤ n * L + (q * half C + 8 * (q * C)) :=
    ⟨9 * P, Nat.le_add_right_of_le (Nat.le_mul_of_pos_right _ (by omega))⟩
  obtain ⟨n, hn, hmin⟩ : ∃ n, 9 * P ≤ n * L + (q * half C + 8 * (q * C)) ∧
      ∀ m < n, m * L + (q * half C + 8 * (q * C)) < 9 * P :=
    ⟨Nat.find hex, Nat.find_spec hex, fun m hm => Nat.not_le.1 (Nat.find_min hex hm)⟩
  let line := sampled q 0 (repeats P (q * C) 0 (n + 1))
  let s := after (step C) (powerUp : Regs num_blocks) line
  have hs : Follows (step C) line s := after_follows
  have hseen := late_seen (C := C) (b := 0) (N := n + 1) hL n
  obtain ⟨hidle, hbytes⟩ := behind hC hq hL hs rfl (Nat.lt_succ_self n) hmin
  have hend : q * (C + n * busy C + busy C) = q * C + (n + 1) * (q * busy C) := by
    rw [Nat.mul_add, Nat.mul_add, Nat.mul_left_comm, Nat.add_one_mul n, Nat.add_assoc]
  have hgap : (n + 1) * (10 * P) ≤ (n + 1) * (q * busy C) := Nat.mul_le_mul_left _ (by omega)
  have hbits := h 0 (repeats P (q * C) 0 (n + 1)) _ _ (n + 1)
    (sent_burst (q * (C + n * busy C + busy C)) (by omega)) (by rw [if_pos (Nat.succ_pos n), Nat.zero_mul])
  rw [if_neg (Nat.lt_irrefl _), List.map_const', List.length_range] at hbits
  have hlast : C + n * busy C + busy C ≤ firstCycle q 0 (q * (C + n * busy C + busy C)) := by
    apply Nat.le_of_mul_le_mul_left (le_sample hq 0 _) hq
  by_cases hstart : n * L + q * half C < 9 * P
  · refine misread (by omega) hs hidle hbytes ?_ ?_ ?_ hlast hbits
    · exact (hseen 0).trans (zeros_low (Nat.lt_succ_self n) (by omega))
    · exact (hseen (half C)).trans (zeros_low (Nat.lt_succ_self n) hstart)
    · have hlate := hseen (half C + 8 * C)
      rw [zeros_high (by rw [Nat.mul_add, Nat.mul_left_comm]; exact hn)] at hlate
      change line _ = true at hlate
      rw [Nat.add_assoc, hlate]
      decide
  · -- even the start bit is over at its check: no byte is read at all
    obtain rfl : n = 0 := by
      by_contra h0
      obtain ⟨m, rfl⟩ := Nat.exists_eq_succ_of_ne_zero h0
      have hm := hmin m (Nat.lt_succ_self m)
      rw [Nat.succ_mul] at hstart
      omega
    have hlong : 2 * half C ≤ busy C := by
      unfold busy half
      omega
    have hnone := unread (b := 0) hC hq (by omega) hs rfl
      (by omega : C + 2 * half C ≤ firstCycle q 0 (q * (C + 0 * busy C + busy C)))
    rw [hbits] at hnone
    cases hnone

end Without

/-- The receiver reads every wave of bytes exactly if its bit times are in the
tolerance. -/
theorem tolerance_iff {num_blocks C P q : Nat} (hC : 7 ≤ C) (hq : 0 < q) :
    Reads num_blocks C P q ↔ q * busy C ≤ 10 * P ∧ 8 * P ≤ q * (half C + 8 * C) := by
  constructor
  · intro h
    exact ⟨fast_of_reads hC hq h, slow_of_reads hC hq h⟩
  · rintro ⟨hfast, hslow⟩ u wave start b N hsent hlead
    exact (sent_received hC hq ⟨hfast, hslow⟩ after_follows rfl hsent (Nat.le_add_left u _) hlead (Nat.le_refl N)).2

/-- 115200 baud at 50 MHz with 435 clocks a bit; twice the speed is too fast. -/
theorem reads_115200 : Reads 32 435 15625 36 ∧ ¬ Reads 32 435 15625 72 :=
  ⟨(tolerance_iff (by decide) (by decide)).2 (by decide),
    fun h => absurd ((tolerance_iff (by decide) (by decide)).1 h) (by decide)⟩

end DinoLight.BaudTolerance
