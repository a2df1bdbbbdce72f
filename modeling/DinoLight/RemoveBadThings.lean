import DinoLight.Lib.Clocked
import DinoLight.Lib.Vectors
/-!
# `remove_bad_things`

A filter for one bit: the output switches when the last `clean_width` samples
agree. `remove_bad_things_byte` is eight of them, which switch independently.
-/
open Clocked Vectors

namespace DinoLight.RemoveBadThings

structure Regs (clean_width : Nat) where
  removeBuffer : BitVec clean_width
  signal_out : Bool
  deriving DecidableEq

variable {clean_width : Nat}

def powerUp : Regs clean_width where
  removeBuffer := 0
  signal_out := false

/-- Whether some element differs from element 0. -/
def xor_reduct (slv : BitVec clean_width) : Bool :=
  (List.range clean_width).foldl (fun res_v i => if (slv.getMsbD i ^^ slv.getMsbD 0) = true then true else res_v) false

/-- `signal_in & removeBuffer(0 to clean_width - 2)` -/
def shiftBuffer (v : BitVec clean_width) (signal_in : Bool) : BitVec clean_width :=
  ofLeft clean_width fun i => if i = 0 then signal_in else v.getMsbD (i - 1)

/-- One rising edge of `clk_in`. -/
def step (s : Regs clean_width) (signal_in : Bool) : Regs clean_width where
  removeBuffer := shiftBuffer s.removeBuffer signal_in
  signal_out := if xor_reduct s.removeBuffer = false then s.removeBuffer.getMsbD 0 else s.signal_out

/-! ## The byte filter -/

/-- The filters of `remove_bad_things_byte`. Its generic is not passed on: they
keep the default of `remove_bad_things`. -/
structure ByteRegs (_clean_width : Nat) where
  cleanSignal : Fin 8 → Regs 64

def bytePowerUp : ByteRegs clean_width := ⟨fun _ => powerUp⟩

def byteStep (s : ByteRegs clean_width) (signal_in : BitVec 8) : ByteRegs clean_width :=
  ⟨fun i => step (s.cleanSignal i) (signal_in.getLsbD i)⟩

def ByteRegs.signal_out (s : ByteRegs clean_width) : BitVec 8 :=
  ofDownto 8 fun i => (s.cleanSignal (Fin.ofNat 8 i)).signal_out

theorem signal_out_bit (s : ByteRegs clean_width) (i : Fin 8) :
    s.signal_out.getLsbD i = (s.cleanSignal i).signal_out := by
  rw [ByteRegs.signal_out, getLsbD_ofDownto _ i.isLt, Fin.ofNat_eq_cast, Fin.cast_val_eq_self]

/-! ## What an edge does -/

/-- All samples in the buffer are `b`. -/
def Holds (s : Regs clean_width) (b : Bool) : Prop := ∀ i < clean_width, s.removeBuffer.getMsbD i = b

theorem xor_reduct_eq_false (v : BitVec clean_width) :
    xor_reduct v = false ↔ ∀ i < clean_width, v.getMsbD i = v.getMsbD 0 := by
  have hfold (l : List Nat) (r : Bool) :
      l.foldl (fun res_v i => if (v.getMsbD i ^^ v.getMsbD 0) = true then true else res_v) r = false ↔
        r = false ∧ ∀ i ∈ l, v.getMsbD i = v.getMsbD 0 := by
    induction l generalizing r with
    | nil => simp
    | cons i l ih =>
      rw [List.foldl_cons, ih, List.forall_mem_cons]
      cases v.getMsbD i <;> cases v.getMsbD 0 <;> simp
  rw [xor_reduct, hfold]
  simp

theorem getMsbD_shiftBuffer (v : BitVec clean_width) (b : Bool) {i : Nat} (hi : i < clean_width) :
    (shiftBuffer v b).getMsbD i = if i = 0 then b else v.getMsbD (i - 1) :=
  getMsbD_ofLeft _ hi

/-- The output takes the value of a buffer that agrees, and else stays. -/
theorem signal_out_step (hW : 0 < clean_width) (s : Regs clean_width) (signal_in : Bool) :
    (∃ b, Holds s b ∧ (step s signal_in).signal_out = b) ∨
      (∀ b, ¬ Holds s b) ∧ (step s signal_in).signal_out = s.signal_out := by
  simp only [step]
  by_cases h : xor_reduct s.removeBuffer = false
  · exact .inl ⟨s.removeBuffer.getMsbD 0, (xor_reduct_eq_false _).1 h, if_pos h⟩
  · refine .inr ⟨?_, if_neg h⟩
    intro b hb
    apply h
    rw [xor_reduct_eq_false]
    intro i hi
    rw [hb i hi, hb 0 hW]

/-- The buffer holds the last samples, the newest first. -/
theorem sample_run {w : Nat → Bool} {r : Nat → Regs clean_width} (hr : Follows step w r) (n : Nat) {i : Nat}
    (hi : i < clean_width) : (r (n + i + 1)).removeBuffer.getMsbD i = w n := by
  induction i with
  | zero => simp only [hr (n + 0), step, getMsbD_shiftBuffer _ _ hi, if_true, Nat.add_zero]
  | succ i ih =>
    rw [hr (n + (i + 1))]
    simp only [step, getMsbD_shiftBuffer _ _ hi, Nat.add_one_ne_zero, if_false, Nat.add_sub_cancel]
    exact ih (Nat.lt_of_succ_lt hi)

/-- A level that lasts for `clean_width` samples gets through. -/
theorem settles (hW : 0 < clean_width) {w : Nat → Bool} {r : Nat → Regs clean_width} (hr : Follows step w r) {n : Nat}
    {b : Bool} (hw : ∀ t, n ≤ t → t < n + clean_width → w t = b) : (r (n + clean_width + 1)).signal_out = b := by
  have hb : Holds (r (n + clean_width)) b := by
    intro i hi
    have hsample := sample_run hr (n + clean_width - i - 1) hi
    rw [show n + clean_width - i - 1 + i + 1 = n + clean_width by omega] at hsample
    rw [hsample]
    exact hw _ (by omega) (by omega)
  rw [hr]
  rcases signal_out_step hW (r (n + clean_width)) (w (n + clean_width)) with ⟨c, hc, hs⟩ | ⟨hc, -⟩
  · rw [hs, ← hc 0 hW, hb 0 hW]
  · exact absurd hb (hc b)

/-! ## Two filters side by side -/

/-- Where the samples of `s` are high those of `s'` are low, and so with the outputs. -/
structure Excludes (s s' : Regs clean_width) : Prop where
  samples : ∀ i < clean_width, s.removeBuffer.getMsbD i = true → s'.removeBuffer.getMsbD i = false
  out : s.signal_out = true → s'.signal_out = false

theorem powerUp_excludes : Excludes (powerUp : Regs clean_width) powerUp :=
  ⟨by simp [powerUp], by simp [powerUp]⟩

/-- The filters switch at different times, but a buffer of one value shuts out
one of the other. -/
theorem excludes_step (hW : 0 < clean_width) {s s' : Regs clean_width} {b b' : Bool} (h : Excludes s s')
    (hb : b = true → b' = false) : Excludes (step s b) (step s' b') := by
  constructor
  · intro i hi
    simp only [step, getMsbD_shiftBuffer _ _ hi]
    split
    · exact hb
    · exact h.samples (i - 1) (by omega)
  · intro hout
    rcases signal_out_step hW s b with ⟨c, hc, hs⟩ | ⟨hc, hs⟩ <;> rw [hs] at hout
    · -- the other buffer is low throughout
      subst hout
      have hlow : Holds s' false := fun i hi => h.samples i hi (hc i hi)
      rcases signal_out_step hW s' b' with ⟨c', hc', hs'⟩ | ⟨hc', -⟩
      · rw [hs', ← hc' 0 hW, hlow 0 hW]
      · exact absurd hlow (hc' false)
    · rcases signal_out_step hW s' b' with ⟨c', hc', hs'⟩ | ⟨-, hs'⟩
      · -- a high buffer would have switched the first filter off
        rw [hs']
        by_contra hne
        obtain rfl := eq_true_of_ne_false hne
        refine hc false fun i hi => ?_
        by_contra hi'
        exact Bool.noConfusion ((hc' i hi).symm.trans (h.samples i hi (eq_true_of_ne_false hi')))
      · rw [hs']
        exact h.out hout

end DinoLight.RemoveBadThings
