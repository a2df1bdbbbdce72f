import DinoLight.NeoPixelDriver
/-!
# The wire, cycle by cycle

`NeoPixelDriver` alone, with any supplier of pixels. A pixel takes 24 slots of
64 cycles, and `InSlot` says where the driver is in each of them; outside the
slots the wire is low.
-/
open Clocked

namespace DinoLight.BitEncoder
open NeoPixelDriver

/-- The run under the waveform `w`. -/
def run (w : Nat → Inputs) : Nat → Regs := after step powerUp w

theorem run_succ (w : Nat → Inputs) (n : Nat) : run w (n + 1) = step (run w n) (w n) := rfl

/-- The edge that ends cycle `m` enters `ack` for a pixel, not for the end of the strip. -/
structure Granted (w : Nat → Inputs) (m : Nat) : Prop where
  ack : (run w (m + 1)).state = .ack
  pixel : (w (m + 1)).last_pixel = false

/-- Bit `k` of the pixel sampled by the edge that ends cycle `m`. -/
def bitAt (w : Nat → Inputs) (m k : Nat) : Bool := (gammaPixel (w m).data_in).getMsbD k

/-- Two cycles after its acknowledgement the first of 24 slots of 64 cycles
begins: the wire is high for the width of the bit and then low. -/
structure Encodes (w : Nat → Inputs) : Prop where
  slots : ∀ m, Granted w m → ∀ k < 24, ∀ j < 64,
    ((run w (m + 3 + 64 * k + j)).data_out = true ↔ j < width (bitAt w m k))
  only : ∀ n, (run w n).data_out = true →
    ∃ m k j, Granted w m ∧ k < 24 ∧ j < width (bitAt w m k) ∧ n = m + 3 + 64 * k + j
  apart : ∀ m n, Granted w m → m < n → (run w (n + 1)).state = .ack → m + 3 + 64 * 24 ≤ n
  counter : ∀ n, (run w n).counter.toNat ≤ 2500
  curPos : ∀ n, (run w n).curPos ≤ 24

/-! ## Ranges -/

theorem run_inv (w : Nat → Inputs) (n : Nat) : Inv (run w n) := after_inv powerUp_inv (fun _ => step_inv) n

theorem counter_le {s : Regs} (h : Timed s) : s.counter.toNat ≤ 2500 := by
  cases hs : s.state <;> simp only [Timed, hs] at h <;> first | omega | simp [h]

theorem curPos_step {s : Regs} (i : Inputs) (h : Inv s) (hp : s.curPos ≤ 24) : (step s i).curPos ≤ 24 := by
  have ht := h.timed
  have he := edge_step s i
  generalize step s i = s' at he ⊢
  cases he with
  | shift h => simp only [Timed, h] at ht; exact ht.2.2
  | grant | last | reset => exact Nat.zero_le 24
  | _ => exact hp

theorem curPos_le (w : Nat → Inputs) (n : Nat) : (run w n).curPos ≤ 24 := by
  induction n with
  | zero => exact Nat.zero_le 24
  | succ n ih => exact curPos_step (w n) (run_inv w n) ih

/-! ## What a cycle of a slot does -/

/-- `k` bits of `p` have left the register. -/
structure Left (p : BitVec 24) (k : Nat) (s : Regs) : Prop where
  curPos : s.curPos = k
  data : ∀ i, k + i < 24 → s.data_reg.getMsbD i = p.getMsbD (k + i)

/-- The driver `j` cycles into the slot of bit `k`. -/
def InSlot (p : BitVec 24) (k j : Nat) (s : Regs) : Prop :=
  if j < width (p.getMsbD k) then s.state = highState (p.getMsbD k) ∧ s.counter.toNat = j + 1 ∧ Left p k s
  else if j < 62 then s.state = .finishCycle ∧ s.counter.toNat = j + 1 ∧ Left p k s
  else s.state = (if j = 62 then .incCount else .writeState) ∧ Left p (k + 1) s

variable {s : Regs} {p : BitVec 24} {k j : Nat}

theorem Left.shift (h : Left p k s) {s' : Regs} (hp : s'.curPos = s.curPos + 1)
    (hd : s'.data_reg = shiftData s.data_reg) : Left p (k + 1) s' := by
  refine ⟨by rw [hp, h.curPos], fun i hi => ?_⟩
  rw [hd, shiftData, Vectors.getMsbD_ofLeft _ (by omega), if_pos (by omega), h.data _ (by omega)]
  congr 1
  omega

/-- The next bit rises, high from its first cycle on. -/
theorem write_step (i : Inputs) (hi : Inv s) (hs : s.state = .writeState) (hk : k < 24) (h : Left p k s) :
    InSlot p k 0 (step s i) := by
  have ht := hi.timed
  simp only [Timed, hs] at ht
  have hw := width_bounds (p.getMsbD k)
  rw [InSlot, if_pos (by omega)]
  have he := edge_step s i
  generalize step s i = s' at he ⊢
  cases he with
  | rise b _ _ hb =>
    rw [h.data 0 (by omega), Nat.add_zero] at hb
    obtain rfl := hb
    exact ⟨rfl, by simp [ht.1], h.curPos, h.data⟩
  | sent _ hp => exact absurd h.curPos (by omega)
  | high b h' | fall b h' => cases b <;> simp_all [highState]
  | _ => simp_all

theorem written_step (i : Inputs) (hs : s.state = .writeState) (h : Left p 24 s) :
    (step s i).state = .waitForValid := by
  simp [step, nextStateDecode, hs, h.curPos]

theorem high_step (i : Inputs) (hs : s.state = highState (p.getMsbD k)) (hc : s.counter.toNat = j + 1)
    (h : Left p k s) (hj : j < width (p.getMsbD k)) : InSlot p k (j + 1) (step s i) := by
  have hw := width_bounds (p.getMsbD k)
  have hn := counter_succ (c := s.counter) (by omega)
  have he := edge_step s i
  generalize step s i = s' at he ⊢
  cases he with
  | high b hb hlt =>
    obtain rfl := highState_inj (hb.symm.trans hs)
    rw [InSlot, if_pos (by omega)]
    exact ⟨hs, by simp only [hn]; omega, h.curPos, h.data⟩
  | fall b hb hle =>
    obtain rfl := highState_inj (hb.symm.trans hs)
    rw [InSlot, if_neg (by omega), if_pos (by omega)]
    exact ⟨rfl, by simp only [hn]; omega, h.curPos, h.data⟩
  | rise b h' | rest h' | wake h' | hold h' | grant h' | send h' | last h' | sent h' | low h' | shift h' | nextBit h'
  | reset h' | shown h' => rw [h'] at hs; exact absurd hs (highState_ne (by simp) (by simp) _)
  | other h' =>
    rcases h' with h' | h' | h' | h' <;> rw [h'] at hs <;> exact absurd hs (highState_ne (by simp) (by simp) _)

theorem low_step (i : Inputs) (hs : s.state = .finishCycle) (hc : s.counter.toNat = j + 1) (h : Left p k s)
    (hj : width (p.getMsbD k) ≤ j) (hj' : j < 62) : InSlot p k (j + 1) (step s i) := by
  have hn := counter_succ (c := s.counter) (by omega)
  rw [InSlot, if_neg (by omega)]
  have he := edge_step s i
  generalize step s i = s' at he ⊢
  cases he with
  | low _ hlt =>
    rw [if_pos (by omega)]
    exact ⟨hs, by simp only [hn]; omega, h.curPos, h.data⟩
  | shift _ hle =>
    rw [if_neg (by omega), if_pos (by omega)]
    exact ⟨rfl, h.shift rfl rfl⟩
  | high b h' | fall b h' => cases b <;> simp_all [highState]
  | _ => simp_all

theorem inc_step (i : Inputs) (hs : s.state = .incCount) (h : Left p k s) :
    (step s i).state = .writeState ∧ Left p k (step s i) := by
  have he := edge_step s i
  generalize step s i = s' at he ⊢
  cases he with
  | nextBit => exact ⟨rfl, h.curPos, h.data⟩
  | high b h' | fall b h' => cases b <;> simp_all [highState]
  | _ => simp_all

theorem slot_step (i : Inputs) (hj : j < 63) (h : InSlot p k j s) : InSlot p k (j + 1) (step s i) := by
  have hw := width_bounds (p.getMsbD k)
  unfold InSlot at h
  split at h
  next hlt => exact high_step i h.1 h.2.1 h.2.2 hlt
  next hge =>
    split at h
    next hlt => exact low_step i h.1 h.2.1 h.2.2 (Nat.not_lt.1 hge) hlt
    next hge' =>
      obtain rfl : j = 62 := by omega
      rw [InSlot, if_neg (by omega), if_neg (by omega), if_neg (by omega)]
      exact inc_step i h.1 h.2

theorem InSlot.over (h : InSlot p k 63 s) : s.state = .writeState ∧ Left p (k + 1) s := by
  have hw := width_bounds (p.getMsbD k)
  rw [InSlot, if_neg (by omega), if_neg (by omega), if_neg (by omega)] at h
  exact h

theorem InSlot.high_iff (h : InSlot p k j s) (hi : Inv s) : s.data_out = true ↔ j < width (p.getMsbD k) := by
  rw [hi.out]
  unfold InSlot at h
  split at h
  next hlt => rw [h.1, outputProcess_high]; exact ⟨fun _ => hlt, fun _ => rfl⟩
  next hge =>
    split at h <;> rw [h.1]
    · simp [outputProcess, hge]
    · split <;> simp [outputProcess, hge]

/-- The states between an acknowledgement and the next request. -/
def Sending (s : Regs) : Prop :=
  s.state = .writeState ∨ s.state = .t0H ∨ s.state = .t1H ∨ s.state = .finishCycle ∨ s.state = .incCount

theorem InSlot.sending (h : InSlot p k j s) : Sending s := by
  unfold InSlot at h
  split at h
  · rw [Sending, h.1]
    cases p.getMsbD k <;> simp [highState]
  · split at h <;> rw [Sending, h.1]
    · simp
    · split <;> simp

/-! ## A pixel -/

variable {w : Nat → Inputs} {m : Nat}

theorem granted_data (h : Granted w m) :
    Left (gammaPixel (w m).data_in) 0 (run w (m + 1)) := by
  have ht := (run_inv w (m + 1)).timed
  simp only [Timed, h.ack] at ht
  refine ⟨ht.2, fun i _ => ?_⟩
  have hack := h.ack
  rw [run_succ] at hack ⊢
  rw [(ack_step hack).2.2, Nat.zero_add]

/-- The pixel is in the register and its first bit has not risen yet. -/
theorem granted_step (h : Granted w m) :
    (run w (m + 2)).state = .writeState ∧ Left (gammaPixel (w m).data_in) 0 (run w (m + 2)) := by
  have hdata := granted_data h
  obtain ⟨hack, hpixel⟩ := h
  rw [run_succ w (m + 1)]
  have he := edge_step (run w (m + 1)) (w (m + 1))
  generalize step (run w (m + 1)) (w (m + 1)) = s' at he ⊢
  cases he with
  | send => exact ⟨rfl, hdata.curPos, hdata.data⟩
  | high b h' | fall b h' => cases b <;> simp_all [highState]
  | _ => simp_all

/-- Cycle `d` of the 24 slots. -/
theorem slot_run (h : Granted w m) {d : Nat} (hd : d < 64 * 24) :
    InSlot (gammaPixel (w m).data_in) (d / 64) (d % 64) (run w (m + 3 + d)) := by
  induction d with
  | zero =>
    obtain ⟨hs, hleft⟩ := granted_step h
    exact write_step _ (run_inv w (m + 2)) hs (by decide) hleft
  | succ d ih =>
    have hslot := ih (Nat.lt_of_succ_lt hd)
    rw [← Nat.add_assoc, run_succ]
    rcases Nat.lt_or_ge (d % 64) 63 with hj | hj
    · rw [show (d + 1) / 64 = d / 64 by omega, show (d + 1) % 64 = d % 64 + 1 by omega]
      exact slot_step _ hj hslot
    · -- the slot of the next bit follows at once
      rw [show d % 64 = 63 by omega] at hslot
      rw [show (d + 1) / 64 = d / 64 + 1 by omega, show (d + 1) % 64 = 0 by omega]
      exact write_step _ (run_inv w _) hslot.over.1 (by omega) hslot.over.2

/-- After the last slot the driver asks for the next pixel. -/
theorem slots_end (h : Granted w m) : (run w (m + 3 + 64 * 24)).state = .waitForValid := by
  have hslot := slot_run h (d := 64 * 24 - 1) (by decide)
  rw [show m + 3 + 64 * 24 = m + 3 + (64 * 24 - 1) + 1 by omega, run_succ]
  exact written_step _ hslot.over.1 hslot.over.2

theorem sending_step {s : Regs} {i : Inputs} (h : Sending (step s i)) :
    s.state = .ack ∧ i.last_pixel = false ∨ Sending s := by
  have he := edge_step s i
  generalize step s i = s' at he h
  cases he with
  | send h' hl => exact .inl ⟨h', hl⟩
  | rise b h' => exact .inr (.inl h')
  | high b h' | fall b h' => cases b <;> simp_all [highState, Sending]
  | _ => simp_all [Sending]

/-- The driver sends only in the slots of a pixel it was granted, or is about to. -/
theorem sending_run {n : Nat} (h : Sending (run w n)) :
    ∃ m, Granted w m ∧ m + 2 ≤ n ∧ n ≤ m + 2 + 64 * 24 := by
  induction n with
  | zero => simp [Sending, run, powerUp] at h
  | succ n ih =>
    rcases sending_step h with ⟨hack, hpixel⟩ | hbefore
    · cases n with
      | zero => exact absurd hack (by simp [powerUp])
      | succ m => exact ⟨m, ⟨hack, hpixel⟩, Nat.le_refl _, by omega⟩
    · obtain ⟨m, hgranted, hlow, hhigh⟩ := ih hbefore
      refine ⟨m, hgranted, by omega, ?_⟩
      rcases Nat.lt_or_ge n (m + 2 + 64 * 24) with hlt | hge
      · exact hlt
      · rw [show n + 1 = m + 3 + 64 * 24 by omega] at h
        simp [Sending, slots_end hgranted] at h

/-- A pixel is sent before the next acknowledgement. -/
theorem slots_apart {n : Nat} (h : Granted w m) (hmn : m < n) (hack : (run w (n + 1)).state = .ack) :
    m + 3 + 64 * 24 ≤ n := by
  by_contra hlt
  rcases Nat.eq_or_lt_of_le hmn with rfl | hmn
  · rw [(granted_step h).1] at hack
    exact StateType.noConfusion hack
  · obtain ⟨d, hd⟩ := Nat.exists_eq_add_of_le hmn
    rw [show n + 1 = m + 3 + d by omega] at hack
    rcases Nat.lt_or_ge d (64 * 24) with hd' | hd'
    · rcases (slot_run h hd').sending with hs | hs | hs | hs | hs <;> rw [hack] at hs <;>
        exact StateType.noConfusion hs
    · rw [show d = 64 * 24 by omega, slots_end h] at hack
      exact StateType.noConfusion hack

/-- Every pixel granted is on the wire bit by bit, and nothing else is. -/
theorem encodes (w : Nat → Inputs) : Encodes w := by
  refine ⟨fun m h k hk j hj => ?_, fun n hout => ?_, fun m n => slots_apart, fun n => counter_le (run_inv w n).timed,
    curPos_le w⟩
  · have hslot := slot_run h (d := 64 * k + j) (by omega)
    rw [show (64 * k + j) / 64 = k by omega, show (64 * k + j) % 64 = j by omega] at hslot
    rw [Nat.add_assoc]
    exact hslot.high_iff (run_inv w _)
  · have hhigh : (run w n).state = .t0H ∨ (run w n).state = .t1H := by
      rw [(run_inv w n).out] at hout
      exact of_decide_eq_true hout
    have hsending : Sending (run w n) := by
      rcases hhigh with h | h
      · exact .inr (.inl h)
      · exact .inr (.inr (.inl h))
    obtain ⟨m, h, hlow, hle⟩ := sending_run hsending
    rcases Nat.eq_or_lt_of_le hlow with rfl | hlow
    · rw [(granted_step h).1] at hhigh
      simp at hhigh
    · obtain ⟨d, rfl⟩ := Nat.exists_eq_add_of_le (show m + 3 ≤ n from hlow)
      have hj := ((slot_run h (d := d) (by omega)).high_iff (run_inv w _)).1 hout
      exact ⟨m, d / 64, d % 64, h, by omega, hj, by omega⟩

end DinoLight.BitEncoder
