import DinoLight.HostPath
import DinoLight.UartComm
/-!
# What the host's calls do

A call of one of the writers of `uart_comm.py` in `Call` means new registers: a
mode, the counts or a colour for each LED. The chip at the other end of the line
has the registers that the calls mean, and on the way there those of whole
messages only.
-/
open Clocked

namespace DinoLight.HostCalls
open BaudTolerance
open CommandFrames CommandParser
open Dinolight
open SerialLink (bytesBefore)
open UartComm (Call writes)

/-! ## The meaning of a call -/

/-- `n` LEDs, LED `i` with the bytes `colour i`. -/
def paint (n : Nat) (colour : Nat → List (BitVec 8)) : List (BitVec 8) := (List.range n).flatMap colour

/-- The bytes that `rainbow` prepends in iteration `k`. -/
def grb (hsv : Nat → BitVec 8 × BitVec 8 × BitVec 8) (k : Nat) : List (BitVec 8) :=
  [(hsv (5 * (k % 20))).2.1, (hsv (5 * (k % 20))).1, (hsv (5 * (k % 20))).2.2]

/-- The colours after a call, if it sends any. -/
def colours (hsv : Nat → BitVec 8 × BitVec 8 × BitVec 8) : Call → Option (Nat → List (BitVec 8))
  | .writeBlockCount | .setMode _ | .rainbow 0 | .grbCycle 0 | .writeColor _ 0 => none
  | .shift => some fun i =>
    if i % 3 = 0 then [0x00, 0x00, 0xFF] else if i % 3 = 1 then [0xFF, 0x00, 0x00] else [0x00, 0xFF, 0x00]
  | .oneLED => some fun i => if i = 0 then [0x80, 0x00, 0x00] else [0x00, 0x00, 0x00]
  | .rainbow (k + 1) => some fun i => if i < k + 1 then grb hsv (k - i) else [0x00, 0x00, 0x00]
  | .grbCycle (k + 1) => some fun _ =>
    if k % 3 = 0 then [0xFF, 0x80, 0x80] else if k % 3 = 1 then [0x80, 0xFF, 0x80] else [0x80, 0x80, 0xFF]
  | .writeColor color (_ + 1) => some fun _ => color.toList

/-- The registers after a call. -/
def effect (n : Nat) (hsv : Nat → BitVec 8 × BitVec 8 × BitVec 8) (r : Registers) (call : Call) : Registers where
  mode := match call with
    | .setMode mode => mode.extractLsb' 0 2
    | _ => r.mode
  block_counts := match call with
    | .writeBlockCount => List.replicate n 0x0A
    | _ => r.block_counts
  custom_block_values := ((colours hsv call).map (paint n)).getD r.custom_block_values

/-! ## Painting -/

section Paint
variable {n : Nat} {colour : Nat → List (BitVec 8)}

theorem paint_succ (n : Nat) (colour : Nat → List (BitVec 8)) :
    paint (n + 1) colour = colour 0 ++ paint n fun i => colour (i + 1) := by
  rw [paint, List.range_succ_eq_map, List.flatMap_cons, List.flatMap_map]
  rfl

theorem paint_last (n : Nat) (colour : Nat → List (BitVec 8)) : paint (n + 1) colour = paint n colour ++ colour n := by
  rw [paint, List.range_succ, List.flatMap_append, List.flatMap_singleton]
  rfl

theorem repeated_paint (xs : List (BitVec 8)) (n : Nat) : UartComm.repeated xs n = paint n fun _ => xs := by
  induction n with
  | zero => rfl
  | succ n ih =>
    rw [paint_succ, ← ih]
    rfl

theorem paint_congr {colour' : Nat → List (BitVec 8)} (h : ∀ i < n, colour i = colour' i) :
    paint n colour = paint n colour' := List.flatMap_congr fun i hi => h i (List.mem_range.1 hi)

theorem paint_thirds (n : Nat) (colour : Nat → List (BitVec 8)) :
    paint (3 * n) colour = paint n fun i => colour (3 * i) ++ colour (3 * i + 1) ++ colour (3 * i + 2) := by
  induction n with
  | zero => rfl
  | succ n ih =>
    rw [Nat.mul_succ, paint_last, paint_last, paint_last, paint_last, ih]
    simp only [List.append_assoc]

/-- Nine bytes are three LEDs. -/
theorem repeated_nine (a b c : List (BitVec 8)) (m : Nat) : UartComm.repeated (a ++ b ++ c) m =
    paint (3 * m) fun i => if i % 3 = 0 then a else if i % 3 = 1 then b else c := by
  rw [repeated_paint, paint_thirds]
  apply paint_congr
  intro i _
  have h0 : 3 * i % 3 = 0 := Nat.mul_mod_right 3 i
  have h1 : (3 * i + 1) % 3 = 1 := by omega
  have h2 : (3 * i + 2) % 3 = 2 := by omega
  simp [h0, h1, h2]

/-- The rainbow moves on by one LED in every iteration. -/
theorem rainbow_paint (hn : 0 < n) (hsv : Nat → BitVec 8 × BitVec 8 × BitVec 8) (k : Nat) :
    UartComm.rainbowBuffer n hsv k = paint n fun i => if i < k then grb hsv (k - 1 - i) else [0x00, 0x00, 0x00] := by
  obtain ⟨n, rfl⟩ := Nat.exists_eq_succ_of_ne_zero (Nat.ne_of_gt hn)
  induction k with
  | zero =>
    rw [UartComm.rainbowBuffer, repeated_paint, Nat.mul_comm, paint_thirds]
    exact paint_congr fun i _ => rfl
  | succ k ih =>
    have hlast : (if n < k then grb hsv (k - 1 - n) else [0x00, 0x00, 0x00]).length = 3 := by
      split <;> rfl
    rw [UartComm.rainbowBuffer, ih, paint_last, List.length_append, hlast, Nat.add_sub_cancel, List.take_left,
      paint_succ]
    congr 1
    apply paint_congr
    intro i _
    have hsub : k + 1 - 1 - (i + 1) = k - 1 - i := by omega
    simp only [hsub, Nat.add_lt_add_iff_right]

end Paint

/-! ## Messages -/

/-- A message of a command and its payload. -/
def message (r : Registers) (q : List (BitVec 8)) : Registers := r.write (q.headD 0) q.tail

/-- Of many colour messages the last counts. -/
theorem messages_colours (r : Registers) (f : Nat → List (BitVec 8)) (k : Nat) :
    ((List.range (k + 1)).map fun i => 0x02 :: f i).foldl message r = { r with custom_block_values := f k } := by
  induction k with
  | zero => rfl
  | succ k ih =>
    rw [List.range_succ, List.map_append, List.foldl_append, ih]
    rfl

section Calls
variable {n : Nat} {hsv : Nat → BitVec 8 × BitVec 8 × BitVec 8}

/-- The messages of a call write what it means. -/
theorem call_effect (hn : 0 < n) {call : Call} (h : 3 ∣ n ∨ call ≠ .shift) (r : Registers) :
    (call.writes n hsv).foldl message r = effect n hsv r call := by
  cases call with
  | writeBlockCount =>
    have hcounts : UartComm.repeated [0x0A] n = List.replicate n 0x0A := List.flatten_replicate_singleton
    change { r with block_counts := UartComm.repeated [0x0A] n } = _
    rw [hcounts]
    rfl
  | setMode mode => rfl
  | shift =>
    obtain ⟨m, rfl⟩ := h.resolve_right fun h => h rfl
    have hnine := repeated_nine [0x00, 0x00, 0xFF] [0xFF, 0x00, 0x00] [0x00, 0xFF, 0x00] m
    change { r with custom_block_values := UartComm.repeated _ (3 * m / 3) } = _
    rw [Nat.mul_div_cancel_left m (by decide)]
    exact congrArg (fun l => { r with custom_block_values := l }) hnine
  | oneLED =>
    obtain ⟨m, rfl⟩ := Nat.exists_eq_succ_of_ne_zero (Nat.ne_of_gt hn)
    have hone := paint_succ m fun i => if i = 0 then [0x80, 0x00, 0x00] else [0x00, 0x00, 0x00]
    have hrest := repeated_paint [0x00, 0x00, 0x00] m
    exact congrArg (fun l => { r with custom_block_values := l }) ((congrArg _ hrest).trans hone.symm)
  | rainbow iterations =>
    cases iterations with
    | zero => rfl
    | succ k =>
      refine (messages_colours r (fun i => UartComm.rainbowBuffer n hsv (i + 1)) k).trans ?_
      exact congrArg (fun l => { r with custom_block_values := l }) (rainbow_paint hn hsv (k + 1))
  | grbCycle iterations =>
    cases iterations with
    | zero => rfl
    | succ k =>
      refine (messages_colours r _ k).trans ?_
      refine congrArg (fun l => { r with custom_block_values := l }) ?_
      change _ = paint n fun _ => if k % 3 = 0 then _ else if k % 3 = 1 then _ else _
      rw [repeated_paint, repeated_paint, repeated_paint]
      split
      · rfl
      · split <;> rfl
  | writeColor color iterations =>
    cases iterations with
    | zero => rfl
    | succ k =>
      have hwrites : (Call.writeColor color (k + 1)).writes n hsv =
          (List.range (k + 1)).map fun _ => 0x02 :: UartComm.repeated color.toList n := by
        rw [List.map_const', List.length_range]
        rfl
      rw [hwrites, messages_colours, repeated_paint]
      rfl

theorem calls_effect (hn : 0 < n) {calls : List Call} (h : 3 ∣ n ∨ .shift ∉ calls) (r : Registers) :
    (writes n hsv calls).foldl message r = calls.foldl (effect n hsv) r := by
  induction calls generalizing r with
  | nil => rfl
  | cons call calls ih =>
    have hcall : 3 ∣ n ∨ call ≠ .shift := h.imp_right fun h hc => h (hc ▸ List.mem_cons_self)
    rw [writes, List.flatMap_cons, List.foldl_append, call_effect hn hcall]
    exact ih (h.imp_right fun h hc => h (List.mem_cons_of_mem _ hc)) _

theorem calls_frames (hn : 0 < n) (hsv : Nat → BitVec 8 × BitVec 8 × BitVec 8) {calls : List Call}
    (h : 3 ∣ n ∨ .shift ∉ calls) : ∀ q ∈ writes n hsv calls, UartComm.IsFrame n q := by
  intro q hq
  obtain ⟨call, hcall, hq⟩ := List.mem_flatMap.1 hq
  exact UartComm.call_frames hn (h.imp_right fun h hc => h (hc ▸ hcall)) q hq

theorem writeAll_messages (r : Registers) (fs : List (Frame n)) :
    writeAll r fs = (fs.map Frame.encode).foldl message r := by
  rw [List.foldl_map]
  rfl

end Calls

/-! ## The chip -/

/-- The registers behind `portC10`. -/
def portRegisters (s : Dinolight.Regs) : Registers := registers s.clk_50.leds.uart

variable {q a u N B : Nat} {wave : Nat → Bool} {start : Nat → Nat} {b : Nat → BitVec 8}

/-- From power-up, while the host's calls come in over the line, the registers
are those after some of their messages, and from some cycles after the last bit
those that the calls mean. -/
theorem calls_to_registers {clk : Nat → Clock} (hclk : Runs clk .clk_50) (hdmi_in : Nat → DvidIn.Inputs)
    (portC10 : Nat → Bool) (hline : ∀ t, portC10 t = sampled q u wave t) (hq : 0 < q) (ht : Tolerated 435 B q)
    (hsv : Nat → BitVec 8 × BitVec 8 × BitVec 8) (calls : List Call) (hshift : .shift ∉ calls)
    (h : Sent B wave a start b N) (hbytes : (List.range N).map b = (writes 32 hsv calls).flatten)
    (ha : a ≤ q * 214 + u) (hlead : q * 435 + u ≤ start 0) (hend : ∀ x, start N ≤ x → wave x = true) :
    let s := atEdge clk hdmi_in portC10
    (∀ j, ∃ qs, qs <+: writes 32 hsv calls ∧ portRegisters (s j) = qs.foldl message (portRegisters (s 0))) ∧
      ∀ j, firstCycle q u (start N) + 5 ≤ j →
        portRegisters (s j) = calls.foldl (effect 32 hsv) (portRegisters (s 0)) := by
  intro s
  have hs : Follows (Clk50.step 10000000 435) _ fun j => (s j).clk_50 := atEdge_follows hclk
  have h0 : (s 0).clk_50 = Clk50.powerUp := atEdge_start hclk
  have hlink := receiver_follows hs
  have hport : (fun t => (clk50Wave clk hdmi_in portC10 t).portC10) = sampled q u wave := funext hline
  rw [hport] at hlink
  have hlink0 : (s 0).clk_50.uart.receiver = SerialLink.powerUp := by
    rw [h0]
    rfl
  have hregs0 : portRegisters (s 0) = registers (UartRxController.powerUp : UartRxController.Regs 32) := by
    unfold portRegisters
    rw [h0]
    rfl
  obtain ⟨fs, hfs⟩ := UartComm.exists_frames (calls_frames (n := 32) (by decide) hsv (.inr hshift))
  obtain ⟨hall, hsofar⟩ := sent_run (by decide) hq ht hlink hlink0 h ha hlead hend
  rw [hbytes, hfs, UartComm.flatten_frames] at hall hsofar
  rw [hregs0]
  constructor
  · intro j
    cases j with
    | zero => exact ⟨[], List.nil_prefix, hregs0⟩
    | succ j =>
      obtain ⟨pre, hpre, hrun⟩ := HostPath.prefix_regs (by decide) (registers UartRxController.powerUp) (hsofar j)
      refine ⟨pre.map Frame.encode, hfs ▸ hpre.map _, ?_⟩
      rw [← writeAll_messages]
      exact (HostPath.registers_sent (by decide) hs h0 hsofar j).trans hrun
  · intro j hj
    obtain ⟨j, rfl⟩ := Nat.exists_eq_add_of_le' (Nat.le_trans (Nat.le_add_left 1 _) hj)
    have hrun := run_encode (by decide) (registers (UartRxController.powerUp : UartRxController.Regs 32)) fs
    have hregs := HostPath.registers_sent (by decide) hs h0 hsofar j
    rw [hall j (Nat.le_of_succ_le_succ hj), hrun] at hregs
    rw [← calls_effect (by decide) (.inr hshift), hfs, ← writeAll_messages]
    exact hregs

/-- The counts, custom mode and the three colours of `grbCycle`. -/
def cycleCalls : List Call := [.writeBlockCount, .setMode 2, .grbCycle 3]

def cycleBytes : List (BitVec 8) := (writes 32 (fun _ => (0, 0, 0)) cycleCalls).flatten

def cycleWave : Nat → Bool := burst 15625 15660 (fun i => cycleBytes.getD i 0) cycleBytes.length

/-- The LEDs end up in the last of them. -/
theorem cycle_to_registers :
    let s := atEdge turns (fun _ => ⟨fun _ => 0, fun _ => 0⟩) (sampled 36 0 cycleWave)
    ∀ j, firstCycle 36 0 (15660 + cycleBytes.length * (10 * 15625)) + 5 ≤ j → portRegisters (s j) =
      ⟨2, List.replicate 32 0x0A, paint 32 fun _ => [0x80, 0x80, 0xFF]⟩ := by
  have hpos : 0 < cycleBytes.length := by simp [cycleBytes, cycleCalls, writes, Call.writes, UartComm.setMode]
  have h := (calls_to_registers turns_runs (fun _ => ⟨fun _ => 0, fun _ => 0⟩) (sampled 36 0 cycleWave)
    (fun _ => rfl) (by decide) ⟨by decide, by decide⟩ (fun _ => (0, 0, 0)) cycleCalls (by decide)
    (sent_burst (15660 + cycleBytes.length * (10 * 15625)) (Nat.le_refl _)) (HostPath.map_getD_range cycleBytes)
    (Nat.zero_le _) (by rw [if_pos hpos, Nat.zero_mul]) fun x hx => by
      rw [if_neg (Nat.lt_irrefl _)] at hx
      exact burst_after hx).2
  intro s j hj
  exact h j (by rwa [if_neg (Nat.lt_irrefl _)])

end DinoLight.HostCalls
