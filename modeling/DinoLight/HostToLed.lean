import DinoLight.LedSwitch
/-!
# From the host's bytes to the LED wire

In custom mode the colours the host sends come out on the wire: the frame a
change pulse starts is that of the registers in the next cycle.
-/
open Clocked Pulses Vectors

namespace DinoLight.HostToLed
open LedSwitch NeopixelTop Frames
open NeoPixelDriver (Resting gammaLut gammaPixel pixelBits width)
open BlockToPixel (blockAt countAt expand pixelsFrom)
open CommandParser UartRxController CommandFrames

variable {num_blocks : Nat}

/-! ## The bits of a frame, from the host's bytes -/

/-- A byte on the wire: gamma mapped, most significant bit first. -/
def byteBits (b : BitVec 8) : List Bool := bits (gammaLut b) 8

/-- `count i` copies of the three colour bytes of block `i`, block after block. -/
def ledBits (num_blocks : Nat) (counts colours : List (BitVec 8)) : List Bool :=
  (List.range num_blocks).flatMap fun i =>
    (List.replicate (counts.getD i 0).toNat
      (byteBits (colours.getD (3 * i) 0) ++ byteBits (colours.getD (3 * i + 1) 0) ++
        byteBits (colours.getD (3 * i + 2) 0))).flatten

theorem pixelBits_bytes (p : BitVec 24) :
    pixelBits p = byteBits (slice p 0 8) ++ byteBits (slice p 8 8) ++ byteBits (slice p 16 8) := by
  rw [pixelBits, gammaPixel, byteBits, byteBits, byteBits, ← bits_append, ← bits_append]

/-- Byte `k` of block `i`. -/
theorem colour_byte (blocks : BitVec (num_blocks * 24)) {i k : Nat} (hi : i < num_blocks) (hk : k < 3) :
    (bytes blocks (3 * num_blocks)).getD (3 * i + k) 0 = slice (blockAt blocks i) (k * 8) 8 := by
  rw [getD_bytes _ (by omega), blockAt, slice_slice _ (by omega) (by omega)]
  congr 1
  omega

theorem pixelBits_block (blocks : BitVec (num_blocks * 24)) {i : Nat} (hi : i < num_blocks) :
    let colours := bytes blocks (3 * num_blocks)
    pixelBits (blockAt blocks i) = byteBits (colours.getD (3 * i) 0) ++ byteBits (colours.getD (3 * i + 1) 0) ++
      byteBits (colours.getD (3 * i + 2) 0) := by
  intro colours
  rw [pixelBits_bytes, colour_byte blocks hi (by omega), colour_byte blocks hi (by omega), ← Nat.add_zero (3 * i),
    colour_byte blocks hi (by omega)]

theorem frameBits_bytes (blocks : BitVec (num_blocks * 24)) (counts : BitVec (num_blocks * 8)) :
    frameBits blocks counts = ledBits num_blocks (bytes counts num_blocks) (bytes blocks (3 * num_blocks)) := by
  rw [frameBits, expand, pixelsFrom, List.flatMap_assoc, ledBits]
  apply List.flatMap_congr
  intro i hi
  have hi : i < num_blocks := List.mem_range.1 hi
  rw [Nat.zero_add, getD_bytes counts hi, ← pixelBits_block blocks hi, countAt, List.flatMap_replicate]

/-! ## The frame a change pulse starts -/

section Runs
variable {s : Nat → LedSwitch.Regs num_blocks} {w : Nat → LedSwitch.Inputs num_blocks}

/-- The LED wire in the cycles from `a` on. -/
def ledWire (s : Nat → LedSwitch.Regs num_blocks) (a n : Nat) : List Bool :=
  window (fun t => (s t).neoPixel.neopixel_drive.data_out) a n

/-- Without `vsync_50`, `run_neopixel` stays low until a change pulse. -/
theorem run_low (hs : Follows LedSwitch.step w s) (h0 : (s 0).run_neopixel = false) (hv : ∀ n, (w n).vsync_50 = false)
    {m : Nat} (hlow : ∀ t < m, (s t).uart.custom_block_change = false) {n : Nat} (hn : n ≤ m) :
    (s n).run_neopixel = false := by
  induction n with
  | zero => exact h0
  | succ n ih =>
    rw [hs n]
    simp only [LedSwitch.step, ledSwitch, hv n, hlow n (by omega)]
    split
    · rfl
    · split
      · rfl
      · split
        · rfl
        · exact ih (by omega)

/-- In custom mode a change pulse runs the LEDs in the next cycle, on the colours it announces. -/
theorem run_custom (hs : Follows LedSwitch.step w s) {n : Nat} (hm : (s n).uart.mode = 2) :
    (s (n + 1)).run_neopixel = (s n).uart.custom_block_change ∧
      (s (n + 1)).neopixel_select = (s n).uart.custom_block_values := by
  rw [hs n]
  simp [LedSwitch.step, ledSwitch, hm]

/-- Without `run` the LEDs rest. -/
theorem leds_rest (hN : 0 < num_blocks) (hs : Follows LedSwitch.step w s) (hi : LedSwitch.Inv (s 0))
    (hq : Quiet (s 0)) {n : Nat} (hlow : ∀ t < n, (s t).run_neopixel = false) :
    (s n).neoPixel.pixelGenerator.state = .idle ∧ (s n).neoPixel.neopixel_drive.state = .idle ∧
      (s n).neoPixel.neopixel_drive.data_out = false := by
  have hinv := (neoPixel_follows hs).inv hi.neoPixel (fun _ i => NeopixelTop.step_inv hN i)
  have hidle : (s n).neoPixel.pixelGenerator.state = .idle ∧ (s n).neoPixel.neopixel_drive.state = .idle := by
    induction n with
    | zero => exact ⟨hq.generator, hq.drive⟩
    | succ n ih =>
      obtain ⟨hg, hd⟩ := ih fun t ht => hlow t (by omega)
      have hrun := hlow n (by omega)
      rw [hs n]
      refine ⟨idle_keep hg fun hl => ?_, (NeoPixelDriver.idle_step _ _ hd).trans ?_⟩
      · simp [Loads, ledInputs, hrun] at hl
      · simp [driveInputs, ledInputs, hrun]
  refine ⟨hidle.1, hidle.2, ?_⟩
  rw [(hinv n).drive.out, hidle.2]
  rfl

/-- A driver run that starts with an idle sequencer sends the colours and
counts of its start. -/
theorem run_shows (hN : 0 < num_blocks) (hs : Follows LedSwitch.step w s) (hi : LedSwitch.Inv (s 0))
    (hq : Quiet (s 0)) {a e : Nat} (hr : DriverRun (fun n => (s n).neoPixel) a e)
    (hg : (s a).neoPixel.pixelGenerator.state = .idle) :
    pulses (ledWire s (a + 1) (e - a)) = framePulses (s a).neopixel_select (s a).uart.block_counts :=
  start_shows hN (neoPixel_follows hs) hi.neoPixel hq.generator hr hg

/-- The first change pulse in custom mode makes the driver send one frame: that
of the custom colours and the counts. -/
theorem frame_of_change (hN : 0 < num_blocks) (hs : Follows LedSwitch.step w s) (hi : LedSwitch.Inv (s 0))
    (hq : Quiet (s 0)) (hv : ∀ n, (w n).vsync_50 = false) {m : Nat}
    (hlow : ∀ t < m, (s t).uart.custom_block_change = false) (hhigh : (s m).uart.custom_block_change = true)
    (hmode : (s m).uart.mode = 2) :
    ∃ e, DriverRun (fun n => (s n).neoPixel) (m + 1) e ∧
      (∀ t ≤ m + 1, (s t).neoPixel.neopixel_drive.state = .idle) ∧
      pulses (ledWire s 0 (e + 1)) = framePulses (s m).uart.custom_block_values (s (m + 1)).uart.block_counts := by
  have hrest {n : Nat} (hn : n ≤ m + 1) := leds_rest hN hs hi hq (n := n) fun t ht =>
    run_low hs hq.run hv hlow (n := t) (by omega)
  obtain ⟨hrun, hsel⟩ := run_custom hs hmode
  have hgo : (s (m + 1)).run_neopixel = true := hrun.trans hhigh
  obtain ⟨e, hr⟩ := Progress.run_completes hN (neoPixel_follows hs) hi.neoPixel (hrest (Nat.le_refl _)).2.1 hgo
  refine ⟨e, hr, fun t ht => (hrest ht).2.1, ?_⟩
  have hshow := run_shows hN hs hi hq hr (hrest (Nat.le_refl _)).1
  have hlt := hr.lt
  rw [ledWire, show e + 1 = m + 1 + 1 + (e - (m + 1)) by omega, window_add, Nat.zero_add, pulses_low, ← hsel]
  · exact hshow
  · intro b hb
    obtain ⟨t, ht, rfl⟩ := List.mem_map.1 hb
    rw [Nat.zero_add]
    exact (hrest (Nat.lt_succ_iff.1 (List.mem_range.1 ht))).2.2

end Runs

/-! ## The three frames -/

/-- `00 02`, the counts and the colours. -/
def customFrames (counts colours : List (BitVec 8)) (hc : counts.length = num_blocks)
    (hb : colours.length = 3 * num_blocks) : List (Frame num_blocks) :=
  [⟨0, [2], by decide, rfl⟩, ⟨1, counts, by decide, hc⟩, ⟨2, colours, by decide, hb⟩]

theorem last_custom {counts colours : List (BitVec 8)} {hc : counts.length = num_blocks}
    {hb : colours.length = 3 * num_blocks} {pre : List (Frame num_blocks)} {f : Frame num_blocks}
    (h : pre ++ [f] <+: customFrames counts colours hc hb) (hf : f.cmd = 2) :
    pre ++ [f] = customFrames counts colours hc hb := by
  rcases pre with _ | ⟨g, _ | ⟨g', pre⟩⟩ <;>
    simp only [customFrames, List.nil_append, List.cons_append, List.cons_prefix_cons] at h
  · rw [h.1] at hf; simp at hf
  · rw [h.2.1] at hf; simp at hf
  · obtain ⟨rfl, rfl, h⟩ := h
    rcases pre with _ | ⟨g'', pre⟩
    · obtain rfl : f = ⟨2, colours, by decide, hb⟩ := by simpa using h
      rfl
    · simp [List.cons_prefix_cons] at h

section Custom
variable {s : Nat → LedSwitch.Regs num_blocks} {w : Nat → LedSwitch.Inputs num_blocks}

/-- The claim of `host_to_led` for a host that falls silent after the three frames. -/
theorem silent_host_to_led (hN : 0 < num_blocks) (hs : Follows LedSwitch.step w s) (hi : LedSwitch.Inv (s 0))
    (hq : Quiet (s 0)) {counts colours : List (BitVec 8)} (hc : counts.length = num_blocks)
    (hb : colours.length = 3 * num_blocks) (hr : ∀ n, (w n).uart.reset_in = false) (hv : ∀ n, (w n).vsync_50 = false)
    (hsp : Spaced fun n => (w n).uart) {K : Nat}
    (hbytes : ∀ n, received (fun n => (w n).uart) (K + n) = encode (customFrames counts colours hc hb)) :
    ∃ a e, DriverRun (fun n => (s n).neoPixel) a e ∧
      (∀ t ≤ a, (s t).neoPixel.neopixel_drive.state = .idle) ∧
      pulses (ledWire s 0 (e + 1)) = (ledBits num_blocks counts colours).map width := by
  have hu := uart_follows hs
  have hrest := hq.atRest hi
  have hstream (n : Nat) : received (fun n => (w n).uart) n <+: encode (customFrames counts colours hc hb) := by
    rw [← hbytes n]
    exact received_mono _ (by omega)
  have hknown := stream_known hN hstream (registers (s 0).uart)
  -- the strobe that ends the stream
  obtain ⟨m, hm, hmv, hmr⟩ := last_strobe (w := fun n => (w n).uart) (n := K) (by
    rw [← Nat.add_zero K, hbytes 0]
    simp [customFrames])
  rw [← Nat.add_zero K, hbytes 0] at hmr
  have hcompleted (n : Nat) := completed_iff hN hstream (registers (s 0).uart) n 2
  have hchange (t : Nat) := (change_run hN hu hrest hr hsp hknown t).2
  have hlow : ∀ t < m + 2, (s t).uart.custom_block_change = false := by
    intro t ht
    by_contra h
    obtain ⟨n, rfl, hn⟩ := (hchange t).1 (by simpa using h)
    obtain ⟨hnv, pre, f, hpre, hf, hq⟩ := (hcompleted n).1 hn
    rw [last_custom hpre hf, ← hmr] at hq
    have := received_strobe_inj hnv hmv hq
    omega
  have hhigh : (s (m + 2)).uart.custom_block_change = true :=
    (hchange _).2 ⟨m, rfl, (hcompleted m).2 ⟨hmv, (customFrames counts colours hc hb).take 2, _,
      List.prefix_refl _, rfl, hmr⟩⟩
  have hregs (n : Nat) (hn : received (fun n => (w n).uart) n = encode (customFrames counts colours hc hb)) :
      registers (s (n + 1)).uart = ⟨2, counts, colours⟩ := by
    rw [registers_run hN hu hrest hr hsp hknown n, hn, parserOf, run_encode hN]
    rfl
  have hnext : received (fun n => (w n).uart) (m + 2) = encode (customFrames counts colours hc hb) :=
    (hstream _).eq_of_length_le (by rw [← hmr]; exact (received_mono _ (by omega)).length_le)
  have hmode : (s (m + 2)).uart.mode = 2 := congrArg Registers.mode (hregs (m + 1) hmr)
  obtain ⟨e, hrun, hidle, hp⟩ := frame_of_change hN hs hi hq hv hlow hhigh hmode
  refine ⟨_, e, hrun, hidle, ?_⟩
  have hcol : bytes (s (m + 2)).uart.custom_block_values (3 * num_blocks) = colours :=
    congrArg Registers.custom_block_values (hregs (m + 1) hmr)
  have hcnt : bytes (s (m + 3)).uart.block_counts num_blocks = counts :=
    congrArg Registers.block_counts (hregs (m + 2) hnext)
  rw [hp, framePulses, frameBits_bytes, hcol, hcnt]

end Custom

/-- The waveform that strobes nothing from cycle `K` on. -/
def silenced (w : Nat → LedSwitch.Inputs num_blocks) (K n : Nat) : LedSwitch.Inputs num_blocks :=
  if n < K then w n else { w n with uart := { (w n).uart with data_valid := false } }

theorem silenced_uart (w : Nat → LedSwitch.Inputs num_blocks) (K n : Nat) :
    (silenced w K n).uart.reset_in = (w n).uart.reset_in ∧ (silenced w K n).vsync_50 = (w n).vsync_50 ∧
      ((silenced w K n).uart.data_valid = true → (w n).uart.data_valid = true) := by
  by_cases h : n < K <;> simp [silenced, h]

theorem silenced_eq {w : Nat → LedSwitch.Inputs num_blocks} {K n : Nat}
    (h : K ≤ n → (w n).uart.data_valid = false) : silenced w K n = w n := by
  by_cases hn : n < K
  · simp [silenced, hn]
  · rw [silenced, if_neg hn, ← h (Nat.le_of_not_lt hn)]

theorem received_silenced (w : Nat → LedSwitch.Inputs num_blocks) (K n : Nat) :
    received (fun n => (silenced w K n).uart) (K + n) = received (fun n => (w n).uart) K := by
  rw [received, collect_add]
  have h1 : collect (fun t => strobe (silenced w K t).uart) K = collect (fun t => strobe (w t).uart) K :=
    List.flatMap_congr fun t ht => by simp [silenced, List.mem_range.1 ht]
  have h2 : collect (fun t => strobe (silenced w K (K + t)).uart) n = [] := by
    simp [collect, silenced, strobe, Nat.not_lt_of_le (Nat.le_add_right K _)]
  rw [h1, h2, List.append_nil]
  rfl

/-- In custom mode the driver sends one frame for the three commands `00 02`,
the counts and the colours, and its bits are the gamma-mapped colours, each as
often as its count says. -/
theorem host_to_led (hN : 0 < num_blocks) {s₀ : LedSwitch.Regs num_blocks}
    (hreach : Reachable LedSwitch.step LedSwitch.powerUp s₀) (hq : Quiet s₀) (counts colours : List (BitVec 8))
    (hc : counts.length = num_blocks) (hb : colours.length = 3 * num_blocks)
    (w : Nat → LedSwitch.Inputs num_blocks) (hr : ∀ n, (w n).uart.reset_in = false)
    (hv : ∀ n, (w n).vsync_50 = false) (hsp : Spaced fun n => (w n).uart) (K : Nat)
    (hbytes : received (fun n => (w n).uart) K = [0, 2] ++ 1 :: counts ++ 2 :: colours)
    (hafter : ∀ t, K ≤ t → (w t).uart.data_valid = true →
      ∃ e ≤ t, (after LedSwitch.step s₀ w e).neoPixel.neopixel_drive.state = .display) :
    let s := after LedSwitch.step s₀ w
    ∃ a e, DriverRun (fun n => (s n).neoPixel) a e ∧
      (∀ t ≤ a, (s t).neoPixel.neopixel_drive.state = .idle) ∧
      pulses (ledWire s 0 (e + 1)) = (ledBits num_blocks counts colours).map width := by
  intro s
  let s' := after LedSwitch.step s₀ (silenced w K)
  have hstream (n : Nat) : received (fun n => (silenced w K n).uart) (K + n) =
      encode (customFrames counts colours hc hb) := by
    rw [received_silenced, hbytes]
    simp [customFrames]
  obtain ⟨a, e, hrun, hidle, hp⟩ := silent_host_to_led (s := s') hN after_follows (reachable_inv hN hreach) hq hc hb
    (fun n => (silenced_uart w K n).1.trans (hr n)) (fun n => (silenced_uart w K n).2.1.trans (hv n))
    (fun m n hm hn => hsp m n ((silenced_uart w K m).2.2 hm) ((silenced_uart w K n).2.2 hn)) hstream
  -- up to `e` the host is silent in both runs
  have hnot (t : Nat) (ht : t < e) : (s' t).neoPixel.neopixel_drive.state ≠ .display := by
    rcases Nat.lt_or_ge a t with h | h
    · exact hrun.within t h ht
    · simp [hidle t h]
  have hs : Follows LedSwitch.step w s := after_follows
  have hs' : Follows LedSwitch.step (silenced w K) s' := after_follows
  have hsame : ∀ t ≤ e, s t = s' t := by
    apply hs.agree hs' rfl
    intro n hn hbefore
    refine (silenced_eq fun hK => ?_).symm
    by_contra hvalid
    obtain ⟨e', he', hd⟩ := hafter n hK (eq_true_of_ne_false hvalid)
    exact hnot e' (Nat.lt_of_le_of_lt he' hn) (hbefore e' he' ▸ hd)
  refine ⟨a, e, hrun.congr fun t ht => congrArg LedSwitch.Regs.neoPixel (hsame t ht), fun t ht => ?_, ?_⟩
  · rw [hsame t (Nat.le_trans ht (Nat.le_of_lt hrun.lt))]
    exact hidle t ht
  · rw [← hp]
    refine congrArg pulses (List.map_congr_left fun t ht => ?_)
    have ht : t < e + 1 := List.mem_range.1 ht
    simp only [Nat.zero_add, hsame t (by omega)]

/-- The bytes `bs` from a host, and no video. -/
def fromHost (bs : List (BitVec 8)) (n : Nat) : LedSwitch.Inputs num_blocks where
  uart := send bs n
  vsync_50 := false
  framebuffer_50 := 0

/-- `00 02`, the counts of two blocks, and their colours. -/
def twoBlocks : List (BitVec 8) := [0x00, 0x02, 0x01, 0x02, 0x01, 0x02, 0xFF, 0x00, 0x80, 0x00, 0xFF, 0x00]

theorem two_blocks_lit :
    let s := after LedSwitch.step (LedSwitch.powerUp : LedSwitch.Regs 2) (fromHost twoBlocks)
    ∃ a e, DriverRun (fun n => (s n).neoPixel) a e ∧
      (∀ t ≤ a, (s t).neoPixel.neopixel_drive.state = .idle) ∧
      pulses (ledWire s 0 (e + 1)) = (ledBits 2 [0x02, 0x01] [0xFF, 0x00, 0x80, 0x00, 0xFF, 0x00]).map width := by
  refine host_to_led Nat.two_pos ⟨fromHost twoBlocks, 0, rfl⟩ ⟨rfl, rfl, rfl, rfl, rfl⟩ [0x02, 0x01]
    [0xFF, 0x00, 0x80, 0x00, 0xFF, 0x00] rfl rfl (fromHost twoBlocks) (fun _ => rfl) (fun _ => rfl)
    (send_spaced twoBlocks) 36 (received_send twoBlocks 36) fun t ht hv => ?_
  have := (send_valid.1 hv).2
  simp [twoBlocks] at this
  omega

end DinoLight.HostToLed
