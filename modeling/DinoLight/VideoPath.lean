import DinoLight.BlockAverages
import DinoLight.ByteFilters
import DinoLight.DvidLock
import DinoLight.VideoAverager
/-!
# From TMDS bits to the framebuffer

`video_averager` is `dvid_in`, the filters and the averager on one pixel clock.
Once the framing is found, the filters are the only part that can change the
picture, and they only delay a video whose bits move slowly.
-/
open Clocked Runs

namespace DinoLight.VideoPath
open BlockAverages (Blanking Frame rowSums)
open DvidIn (Channel)
open DvidLock
open InputChannel (Carries)
open TmdsDecode (Symbol)

structure Regs where
  dvid_in : DvidIn.Regs
  video_averager : VideoAverager.Regs

/-- The signals between `Inst_dvid_in` and the filters. -/
def video (o : DvidIn.Outputs) : VideoAverager.Inputs where
  dvid_red := o.red_p
  dvid_green := o.green_p
  dvid_blue := o.blue_p
  dvid_blank := o.blank
  dvid_vsync := o.vsync

/-- A cycle of `clk_pixel`. -/
def cycle (s : Regs) (i : DvidIn.Inputs) : Regs where
  dvid_in := DvidIn.cycle s.dvid_in i
  video_averager := VideoAverager.step s.video_averager (video (DvidIn.outputs s.dvid_in))

/-! ## Slow video -/

/-- No wire of the video changes twice within 64 cycles. -/
structure Slow (v : Nat → VideoAverager.Inputs) : Prop where
  vsync : Long 64 fun t => (v t).dvid_vsync
  blank : Long 64 fun t => (v t).dvid_blank
  colour : ∀ c, ByteFilters.LongBits 64 fun t => (v t).colour c

/-- The video as the averager takes it. -/
def pixel (i : VideoAverager.Inputs) : Averager.Inputs :=
  ⟨i.dvid_red, i.dvid_green, i.dvid_blue, i.dvid_blank, i.dvid_vsync⟩

/-- The same wires the other way. -/
def ports (i : Averager.Inputs) : VideoAverager.Inputs := ⟨i.i_red, i.i_green, i.i_blue, i.i_blank, i.i_vsync⟩

theorem inputs_ext {i i' : Averager.Inputs} (hcolour : ∀ c, i.colour c = i'.colour c)
    (hblank : i.i_blank = i'.i_blank) (hvsync : i.i_vsync = i'.i_vsync) : i = i' := by
  obtain ⟨r, g, b, k, v⟩ := i
  obtain ⟨r', g', b', k', v'⟩ := i'
  obtain rfl : r = r' := hcolour 0
  obtain rfl : g = g' := hcolour 1
  obtain rfl : b = b' := hcolour 2
  obtain rfl : k = k' := hblank
  obtain rfl : v = v' := hvsync
  rfl

/-- Whatever the filters hold, slow video comes out of them 65 cycles later,
all its wires in step. -/
theorem cleaned_run {v : Nat → VideoAverager.Inputs} {r : Nat → VideoAverager.Regs}
    (hr : Follows VideoAverager.step v r) (hv : Slow v) (t : Nat) :
    VideoAverager.cleaned (r (t + 65)) = pixel (v t) := by
  have hdepth : 0 < 64 := ByteFilters.depth_pos
  apply inputs_ext
  · intro c
    rw [VideoAverager.cleaned_colour]
    apply ByteFilters.byte_ext
    intro i
    rw [RemoveBadThings.signal_out_bit]
    have hfollows : Follows RemoveBadThings.step (fun t => ((v t).colour c).getLsbD i)
        fun t => ((r t).filters c).cleanSignal i := by
      intro t
      simp only [hr t, VideoAverager.filters_step]
      rfl
    exact FilterDelay.delays_run hdepth hfollows (hv.colour c i) t
  · have hfollows : Follows RemoveBadThings.step (fun t => (v t).dvid_blank) fun t => (r t).clean_blank :=
      fun t => congrArg VideoAverager.Regs.clean_blank (hr t)
    exact FilterDelay.delays_run hdepth hfollows hv.blank t
  · have hfollows : Follows RemoveBadThings.step (fun t => (v t).dvid_vsync) fun t => (r t).clean_vsync :=
      fun t => congrArg VideoAverager.Regs.clean_vsync (hr t)
    exact FilterDelay.delays_run hdepth hfollows hv.vsync t

/-! ## Video on the line -/

/-- The video that three symbols stand for. -/
def sent (sym : Channel → Nat → Symbol) (j : Nat) : VideoAverager.Inputs where
  dvid_red := byte (sym .c2 j)
  dvid_green := byte (sym .c1 j)
  dvid_blue := byte (sym .c0 j)
  dvid_blank := isControl (sym .c2 j)
  dvid_vsync := controlBit 1 (sym .c0 j)

variable {w : Nat → DvidIn.Inputs} {s : Nat → Regs}

theorem dvid_in_follows (hs : Follows cycle w s) : Follows DvidIn.cycle w fun t => (s t).dvid_in :=
  fun t => congrArg Regs.dvid_in (hs t)

theorem averager_follows (hs : Follows cycle w s) :
    Follows Averager.step (fun t => VideoAverager.cleaned (s t).video_averager) fun t =>
      (s t).video_averager.averager :=
  fun t => congrArg (fun s => s.video_averager.averager) (hs t)

theorem delivered {sym : Channel → Nat → Symbol} {D T : Nat}
    (h : Delivers sym (fun _ => D) T fun t => (s t).dvid_in) {j : Nat} (hj : T ≤ j + D) :
    video (DvidIn.outputs (s (j + D)).dvid_in) = sent sym j := by
  simp only [video, sent, h.red j hj, h.green j hj, h.blue j hj, h.blank j hj, h.vsync j hj]

/-- Slow video that arrives once the framing is found reaches the averager. -/
theorem cleaned_sent (hs : Follows cycle w s) {sym : Channel → Nat → Symbol} {D T J : Nat}
    (h : Delivers sym (fun _ => D) T fun t => (s t).dvid_in) (hJ : T ≤ J + D)
    (hslow : Slow fun t => sent sym (J + t)) (t : Nat) :
    VideoAverager.cleaned (s (J + D + 65 + t)).video_averager = pixel (sent sym (J + t)) := by
  have hfollows : Follows VideoAverager.step (fun t => sent sym (J + t)) fun t => (s (J + D + t)).video_averager := by
    intro t
    have hvideo := delivered h (j := J + t) (by omega)
    rw [show J + t + D = J + D + t by omega] at hvideo
    have hstep := congrArg Regs.video_averager (hs (J + D + t))
    rwa [cycle, hvideo] at hstep
  have hcleaned := cleaned_run hfollows hslow t
  rwa [show J + D + (t + 65) = J + D + 65 + t by omega] at hcleaned

/-! ## The framebuffer -/

/-- Vertical blanking, frames, and one more frame with the vsync edge that ends it. -/
def stream (b : Blanking) (fs : List Frame) (f : Frame) : List Averager.Inputs :=
  b.before ++ b.pulse ++ fs.flatMap Frame.cycles ++ (f.picture ++ [BlockAverages.blank true])

/-- Blanking and a vsync pulse put any averager at the start of a frame. -/
theorem fresh_after {s : Averager.Regs} (h : Averager.Rests s) {b : Blanking} (hb : 0 < b.front) :
    BlockAverages.Fresh (BlockAverages.run s (b.before ++ b.pulse)) := by
  obtain ⟨k, hk⟩ := Nat.exists_eq_succ_of_ne_zero (Nat.ne_of_gt hb)
  have hrests := Averager.rests_step s (BlockAverages.blank false) h
  obtain ⟨hx, hv⟩ := BlockAverages.before_run ⟨k, 0, 0⟩ (hrests rfl) rfl
  have hbefore : b.before = BlockAverages.blank false :: Blanking.before ⟨k, 0, 0⟩ := by
    rw [Blanking.before, hk, List.replicate_succ]
    rfl
  rw [BlockAverages.run_append, hbefore, BlockAverages.run_cons]
  exact BlockAverages.pulse_run b hx hv

/-- After the cycle `i` the vsync does not rise. -/
def Still (i : Averager.Inputs) (tail : List Averager.Inputs) : Prop :=
  List.IsChain (fun i i' => i'.i_vsync = true → i.i_vsync = true) (i :: tail)

/-- The framebuffer stays until the vsync rises. -/
theorem still_run {s : Averager.Regs} {i : Averager.Inputs} {tail : List Averager.Inputs} (hs : s.a_vsync = i.i_vsync)
    (h : Still i tail) : (BlockAverages.run s tail).framebuffer = s.framebuffer := by
  induction tail generalizing s i with
  | nil => rfl
  | cons i' tail ih =>
    obtain ⟨hi, h⟩ := List.isChain_cons_cons.1 h
    rw [BlockAverages.run_cons, ih rfl h]
    have hno : ¬ Averager.rises s i' := by
      rintro ⟨hne, hi'⟩
      rw [hs, hi', hi hi'] at hne
      exact hne rfl
    exact if_neg hno

theorem averages_from {s : Averager.Regs} (h : Averager.Rests s) {b : Blanking} (hb : 0 < b.front)
    (fs : List Frame) (f : Frame) {tail : List Averager.Inputs} (htail : Still (BlockAverages.blank true) tail)
    (n : Fin 32) (c : Fin 3) :
    (Averager.byteAt (BlockAverages.run s (stream b fs f ++ tail)).framebuffer n c).toNat =
      rowSums f 720 n c / 2 ^ 14 := by
  have hfresh : BlockAverages.Fresh (BlockAverages.run s (b.before ++ b.pulse ++ fs.flatMap Frame.cycles)) := by
    rw [BlockAverages.run_append]
    exact BlockAverages.frames_run fs (fresh_after h hb)
  have hlast : (BlockAverages.run s (stream b fs f)).a_vsync = true := by
    rw [stream, ← List.append_assoc, BlockAverages.run_append]
    rfl
  rw [BlockAverages.run_append, still_run hlast htail, stream, BlockAverages.run_append]
  exact BlockAverages.latched_run f hfresh n c

theorem rests_run (hs : Follows cycle w s) (h0 : Averager.Rests (s 0).video_averager.averager) (t : Nat) :
    Averager.Rests (s t).video_averager.averager :=
  (averager_follows hs).inv h0 Averager.rests_step t

/-- Behind a receiver that delivers, every frame leaves its own sums. -/
theorem framebuffer_sent (hs : Follows cycle w s) (hrests : Averager.Rests (s 0).video_averager.averager)
    {sym : Channel → Nat → Symbol} {D T : Nat} (h : Delivers sym (fun _ => D) T fun t => (s t).dvid_in) {J : Nat}
    (hJ : T ≤ J + D) {b : Blanking} (hb : 0 < b.front) {fs : List Frame} {f : Frame} {tail : List Averager.Inputs}
    (hslow : Slow fun t => sent sym (J + t)) (htail : Still (BlockAverages.blank true) tail)
    (hstream : window (fun j => pixel (sent sym j)) J (stream b fs f ++ tail).length = stream b fs f ++ tail)
    (n : Fin 32) (c : Fin 3) :
    (Averager.byteAt (s (J + D + 65 + (stream b fs f ++ tail).length)).video_averager.averager.framebuffer
      n c).toNat = rowSums f 720 n c / 2 ^ 14 := by
  have hinputs : window (fun t => VideoAverager.cleaned (s t).video_averager) (J + D + 65)
      (stream b fs f ++ tail).length = stream b fs f ++ tail := by
    refine Eq.trans ?_ hstream
    exact List.map_congr_left fun k _ => cleaned_sent hs h hJ hslow k
  have hrun := (averager_follows hs).foldl_window (J + D + 65) (stream b fs f ++ tail).length
  rw [hinputs] at hrun
  rw [← hrun]
  exact averages_from (rests_run hs hrests _) hb fs f htail n c

/-! ## The end of a frame -/

/-- What comes between the vsync edges that end `f` and `f'`. -/
def between (f f' : Frame) : List Averager.Inputs :=
  List.replicate f.vertical.sync (BlockAverages.blank true) ++
    (List.replicate (f.vertical.back + 1) (BlockAverages.blank false) ++ f'.picture)

theorem stream_snoc (b : Blanking) (fs : List Frame) (f f' : Frame) :
    stream b (fs ++ [f]) f' = stream b fs f ++ between f f' ++ [BlockAverages.blank true] := by
  simp only [stream, between, Frame.cycles, Blanking.pulse, List.flatMap_append, List.flatMap_singleton,
    List.replicate_succ, List.append_assoc, List.cons_append, List.nil_append]

theorem picture_low {f : Frame} {i : Averager.Inputs} (h : i ∈ f.picture) : i.i_vsync = false := by
  rcases List.mem_append.1 h with h | h
  · obtain ⟨r, -, h⟩ := List.mem_flatMap.1 h
    rcases List.mem_append.1 h with h | h
    · obtain ⟨c, -, rfl⟩ := List.mem_map.1 h
      rfl
    · rw [List.eq_of_mem_replicate h]
      rfl
  · rw [List.eq_of_mem_replicate h]
    rfl

theorem picture_length (f : Frame) : 720 * 1281 ≤ f.picture.length := by
  have hrows (k : Nat) : k * 1281 ≤ ((List.range k).flatMap f.line).length := by
    induction k with
    | zero => exact Nat.zero_le _
    | succ k ih =>
      have hline : 1281 ≤ (f.line k).length := by
        rw [Frame.line, List.length_append, List.length_map, List.length_range, List.length_replicate]
        exact Nat.add_le_add_left (Nat.le_add_left 1 _) 1280
      rw [List.range_succ, List.flatMap_append, List.flatMap_singleton, List.length_append, Nat.succ_mul]
      exact Nat.add_le_add ih hline
  rw [Frame.picture, List.length_append]
  exact Nat.le_add_right_of_le (hrows 720)

theorem stream_longer (b : Blanking) (fs : List Frame) (f f' : Frame) :
    (stream b fs f).length + f'.picture.length < (stream b (fs ++ [f]) f').length := by
  rw [stream_snoc, between]
  simp only [List.length_append, List.length_replicate, List.length_singleton]
  omega

section Ends
variable {sym : Channel → Nat → Symbol} {D T J : Nat} {b : Blanking} {fs : List Frame} {f f' : Frame}

/-- `vsync1Clock` sees the vsync two cycles after it changed. -/
theorem vsync_sent (hs : Follows cycle w s) (h : Delivers sym (fun _ => D) T fun t => (s t).dvid_in) (hJ : T ≤ J + D)
    (hslow : Slow fun t => sent sym (J + t)) (k : Nat) : (s (J + D + 65 + k + 2)).video_averager.vsync = true ↔
      (sent sym (J + k)).dvid_vsync ≠ (sent sym (J + (k + 1))).dvid_vsync := by
  have hlast := congrArg (fun s => s.video_averager.last_vsync_value) (hs (J + D + 65 + k))
  have hvsync := congrArg (fun s => s.video_averager.vsync) (hs (J + D + 65 + k + 1))
  simp only [cycle, VideoAverager.step, cleaned_sent hs h hJ hslow k] at hlast
  simp only [cycle, VideoAverager.step, hlast] at hvsync
  rw [hvsync, Nat.add_assoc, cleaned_sent hs h hJ hslow (k + 1), decide_eq_true_iff]
  rfl

/-- A frame ends with a vsync pulse; there is none in its picture, and none soon after. -/
theorem pulse_at_end (hs : Follows cycle w s) (h : Delivers sym (fun _ => D) T fun t => (s t).dvid_in)
    (hJ : T ≤ J + D) (hslow : Slow fun t => sent sym (J + t))
    (hstream : window (fun j => pixel (sent sym j)) J (stream b fs f).length = stream b fs f) :
    (s (J + D + 65 + (stream b fs f).length)).video_averager.vsync = true ∧
      ∀ t, J + D + 65 + (stream b fs f).length < t + f.picture.length →
        t < J + D + 65 + (stream b fs f).length + 64 → (s t).video_averager.vsync = true →
          t = J + D + 65 + (stream b fs f).length := by
  have hpicture := picture_length f
  unfold stream at hstream ⊢
  generalize b.before ++ b.pulse ++ fs.flatMap Frame.cycles = l at hstream ⊢
  have hsample {k : Nat} (hk : k < (l ++ (f.picture ++ [BlockAverages.blank true])).length) :
      (sent sym (J + k)).dvid_vsync = ((l ++ (f.picture ++ [BlockAverages.blank true]))[k]).i_vsync := by
    rw [← List.getElem_of_eq hstream (by rwa [hstream]), getElem_window]
    rfl
  have hlen : (l ++ (f.picture ++ [BlockAverages.blank true])).length = l.length + f.picture.length + 1 := by
    rw [List.length_append, List.length_append, List.length_singleton, Nat.add_assoc]
  have hlow {k : Nat} (h1 : l.length ≤ k) (h2 : k < l.length + f.picture.length) :
      (sent sym (J + k)).dvid_vsync = false := by
    rw [hsample (by omega), List.getElem_append_right h1, List.getElem_append_left (by omega)]
    exact picture_low (List.getElem_mem _)
  have hhigh : (sent sym (J + (l.length + f.picture.length))).dvid_vsync = true := by
    rw [hsample (by omega), List.getElem_append_right (Nat.le_add_right _ _)]
    simp [BlockAverages.blank]
  obtain ⟨m, hm⟩ := Nat.exists_eq_add_of_le (by omega : 1 ≤ l.length + f.picture.length)
  rw [Nat.add_comm 1] at hm
  have hrise : (sent sym (J + m)).dvid_vsync ≠ (sent sym (J + (m + 1))).dvid_vsync := by
    rw [hlow (by omega) (by omega), ← hm, hhigh]
    exact Bool.false_ne_true
  rw [hlen, hm]
  refine ⟨(vsync_sent hs h hJ hslow m).2 hrise, fun t h1 h2 ht => ?_⟩
  obtain ⟨k, hk⟩ := Nat.exists_eq_add_of_le (by omega : J + D + 65 + 2 ≤ t)
  obtain rfl : t = J + D + 65 + k + 2 := by omega
  have hchange := (vsync_sent hs h hJ hslow k).1 ht
  rcases Nat.lt_trichotomy k m with hlt | rfl | hlt
  · rw [hlow (by omega) (by omega), hlow (by omega) (by omega)] at hchange
    exact absurd rfl hchange
  · rfl
  · have hapart := hslow.vsync.apart hrise hchange hlt
    omega

end Ends

/-- From the bits of three TMDS channels to the framebuffer: there is a cycle
from which on every slow video that comes in after a vertical blanking is
averaged frame by frame, and each frame leaves its own sums until the next is over. -/
theorem framebuffer_of_bits (hs : Follows cycle w s) (h0 : (s 0).dvid_in.framing.toNat < 10)
    (hrests : Averager.Rests (s 0).video_averager.averager) {every_other : Bool}
    (he : ∀ ch, ((s 0).dvid_in.input_channel ch).gearbox.every_other = every_other)
    {sym : Channel → Nat → Symbol} {p : Nat} (hcarries : ∀ ch, Carries (sym ch) p (DvidIn.received w ch))
    {G F : Nat} (hframed : Framed (sym .c2) G F) (hG : G + 2 ≤ 32768) :
    ∃ T, T ≤ p / 10 + 32777 + 10 * (F + 32770) ∧
      ∀ (J : Nat) (b : Blanking) (fs : List Frame) (f : Frame) (tail : List Averager.Inputs),
      T ≤ J + latency p → 0 < b.front → (Slow fun t => sent sym (J + t)) → Still (BlockAverages.blank true) tail →
        window (fun j => pixel (sent sym j)) J (stream b fs f ++ tail).length = stream b fs f ++ tail → ∀ n c,
          (Averager.byteAt (s (J + latency p + 65 +
            (stream b fs f ++ tail).length)).video_averager.averager.framebuffer n c).toNat =
              rowSums f 720 n c / 2 ^ 14 := by
  obtain ⟨T, hT, hfound⟩ := framing_found (dvid_in_follows hs) h0 (he .c2) (hcarries .c2) hframed hG
  refine ⟨T + 4, by omega, fun J b fs f tail hJ hb hslow htail hstream n c => ?_⟩
  have hdelivers := delivers_of_framing (dvid_in_follows hs) he hcarries (fun _ => rfl) hfound
  exact framebuffer_sent hs hrests hdelivers hJ hb hslow htail hstream n c

/-! ## A transmitter -/

/-- The symbols of a cycle of video; `vsync` is sent in blanking. -/
def symbols (i : Averager.Inputs) : Channel → Symbol
  | .c0 => if i.i_blank then .control (if i.i_vsync then 0b10#2 else 0b00#2) else .data i.i_blue
  | .c1 => if i.i_blank then .control 0b00#2 else .data i.i_green
  | .c2 => if i.i_blank then .control 0b00#2 else .data i.i_red

/-- The half-words of the video `v` from bit 0 on. -/
def transmit (v : Nat → Averager.Inputs) (t : Nat) : DvidIn.Inputs where
  first ch := (TmdsDecode.encode false (symbols (v t) ch)).extractLsb' 0 5
  second ch := (TmdsDecode.encode false (symbols (v t) ch)).extractLsb' 5 5

theorem carries_transmit (v : Nat → Averager.Inputs) (ch : Channel) :
    Carries (fun j => symbols (v j) ch) 0 (DvidIn.received (transmit v) ch) :=
  ⟨fun _ => false, DvidIn.sends_halves (fun _ => rfl) fun _ => rfl⟩

/-- Black in blanking, and no vsync outside of it. -/
def Proper (i : Averager.Inputs) : Prop :=
  if i.i_blank then i.i_red = 0 ∧ i.i_green = 0 ∧ i.i_blue = 0 else i.i_vsync = false

theorem sent_symbols {v : Nat → Averager.Inputs} {j : Nat} (h : Proper (v j)) :
    sent (fun ch j => symbols (v j) ch) j = ports (v j) := by
  unfold Proper at h
  unfold sent symbols ports
  cases hb : (v j).i_blank with
  | true =>
    rw [if_pos hb] at h
    obtain ⟨hr, hg, hbl⟩ := h
    cases hv : (v j).i_vsync <;> simp [hb, hv, hr, hg, hbl, byte, isControl, controlBit]
  | false =>
    rw [if_neg (Bool.eq_false_iff.1 hb)] at h
    simp [hb, h, byte, isControl, controlBit]

/-! ## A white screen -/

/-- A frame of one grey level. -/
def plain (level : BitVec 8) : Frame where
  pixel _ _ _ := level
  hblank _ := 63
  vertical := ⟨64, 63, 63⟩

def white : Frame := plain 255

/-- A vertical blanking, a black frame, a white frame and its vsync pulse, which lasts. -/
@[irreducible] def screen : List Averager.Inputs := stream ⟨64, 63, 63⟩ [plain 0] white

/-- The screen after `lead` cycles of blanking. -/
def whiteVideo (lead j : Nat) : Averager.Inputs :=
  if j < lead then BlockAverages.blank false else screen.getD (j - lead) (BlockAverages.blank true)

theorem whiteVideo_lead {lead j : Nat} (hj : j < lead) : whiteVideo lead j = BlockAverages.blank false := if_pos hj

theorem whiteVideo_screen (lead t : Nat) : whiteVideo lead (lead + t) = screen.getD t (BlockAverages.blank true) := by
  rw [whiteVideo, if_neg (by omega), Nat.add_sub_cancel_left]

theorem mem_picture {level : BitVec 8} {i : Averager.Inputs} (h : i ∈ (plain level).picture) :
    i = (plain level).active 0 0 ∨ i = BlockAverages.blank false := by
  rcases List.mem_append.1 h with h | h
  · obtain ⟨r, -, h⟩ := List.mem_flatMap.1 h
    rcases List.mem_append.1 h with h | h
    · obtain ⟨j, -, rfl⟩ := List.mem_map.1 h
      exact .inl rfl
    · exact .inr (List.eq_of_mem_replicate h)
  · exact .inr (List.eq_of_mem_replicate h)

theorem mem_screen {i : Averager.Inputs} (h : i ∈ screen) :
    (∃ level, i = (plain level).active 0 0) ∨ ∃ v, i = BlockAverages.blank v := by
  have hpicture {level : BitVec 8} (h : i ∈ (plain level).picture) :
      (∃ level, i = (plain level).active 0 0) ∨ ∃ v, i = BlockAverages.blank v :=
    (mem_picture h).imp (fun h => ⟨level, h⟩) fun h => ⟨false, h⟩
  simp only [screen, stream, Blanking.before, Blanking.pulse, Frame.cycles, List.flatMap_singleton,
    List.mem_append, List.mem_replicate, List.mem_singleton] at h
  rcases h with ((⟨-, h⟩ | ⟨-, h⟩ | ⟨-, h⟩) | h | ⟨-, h⟩ | ⟨-, h⟩) | h | h
  · exact .inr ⟨_, h⟩
  · exact .inr ⟨_, h⟩
  · exact .inr ⟨_, h⟩
  · exact hpicture h
  · exact .inr ⟨_, h⟩
  · exact .inr ⟨_, h⟩
  · exact hpicture h
  · exact .inr ⟨_, h⟩

theorem proper_whiteVideo (lead j : Nat) : Proper (whiteVideo lead j) := by
  have hblank (v : Bool) : Proper (BlockAverages.blank v) := by simp [Proper, BlockAverages.blank]
  rcases Nat.lt_or_ge j lead with h | h
  · rw [whiteVideo_lead h]
    exact hblank false
  · obtain ⟨t, rfl⟩ := Nat.exists_eq_add_of_le h
    rw [whiteVideo_screen]
    rcases Nat.lt_or_ge t screen.length with h | h
    · rw [List.getD_eq_getElem _ _ h]
      rcases mem_screen (List.getElem_mem h) with ⟨level, h⟩ | ⟨v, h⟩ <;> rw [h]
      · simp [Proper, Frame.active, Averager.Inputs.active]
      · exact hblank v
    · rw [List.getD_eq_default _ _ h]
      exact hblank true

/-- Any wire of the screen moves slowly. -/
theorem long_screen {α : Type} (g : Averager.Inputs → α) :
    Long 64 fun t => g (screen.getD t (BlockAverages.blank true)) := by
  let Moves (l : List Averager.Inputs) : Prop := Long 64 fun t => g (l.getD t (BlockAverages.blank true))
  have hconst {n : Nat} {x : Averager.Inputs} : ∀ y ∈ List.replicate n x, g y = g x := fun y hy => by
    rw [List.eq_of_mem_replicate hy]
  have hblanks {n : Nat} (hn : 64 ≤ n) (v : Bool) {l : List Averager.Inputs} (h : Moves l) :
      Moves (List.replicate n (BlockAverages.blank v) ++ l) := Long.append (by simpa using hn) hconst h
  have hrows (level : BitVec 8) (k : Nat) {l : List Averager.Inputs} (h : Moves l) :
      Moves ((List.range k).flatMap (plain level).line ++ l) := by
    induction k generalizing l with
    | zero => exact h
    | succ k ih =>
      rw [List.range_succ, List.flatMap_append, List.append_assoc, List.flatMap_singleton, Frame.line,
        List.append_assoc]
      apply ih
      apply Long.append (v := g ((plain level).active 0 0)) (by simp) _ (hblanks (Nat.le_refl 64) false h)
      intro x hx
      obtain ⟨j, -, rfl⟩ := List.mem_map.1 hx
      rfl
  have hpicture (level : BitVec 8) {l : List Averager.Inputs} (h : Moves l) : Moves ((plain level).picture ++ l) := by
    rw [Frame.picture, List.append_assoc]
    exact hrows level 720 (hblanks (Nat.le_refl 64) false h)
  have hend : Moves [BlockAverages.blank true] := by
    have heq : (fun t => g ([BlockAverages.blank true].getD t (BlockAverages.blank true))) =
        fun _ => g (BlockAverages.blank true) := by
      funext t
      cases t <;> rfl
    unfold Moves
    rw [heq]
    exact long_const 64 _
  have hpulse {l : List Averager.Inputs} (h : Moves l) : Moves (Blanking.pulse ⟨64, 63, 63⟩ ++ l) := by
    rw [Blanking.pulse, List.append_assoc]
    exact hblanks (Nat.le_refl 64) true (hblanks (Nat.le_refl 64) false h)
  change Moves screen
  rw [screen, stream, List.flatMap_singleton, Frame.cycles, Blanking.before]
  simp only [List.append_assoc]
  exact hblanks (Nat.le_refl 64) false (hpulse (hpicture 0 (hpulse (hpicture 255 hend))))

/-- `P` holds within every `G` cycles. -/
def Often (G : Nat) (P : Nat → Prop) : Prop := ∀ k, ∃ j, k ≤ j ∧ j < k + G ∧ P j

theorem often_append {G : Nat} {P : Averager.Inputs → Prop} {l l' : List Averager.Inputs} {x tail : Averager.Inputs}
    (hl : l.length < G) (hx : P x) (h : Often G fun t => P (l'.getD t tail)) :
    Often G fun t => P ((l ++ x :: l').getD t tail) := by
  intro k
  rcases Nat.lt_or_ge l.length k with hk | hk
  · obtain ⟨m, rfl⟩ := Nat.exists_eq_add_of_lt hk
    obtain ⟨j, hj, hjG, hP⟩ := h m
    refine ⟨l.length + (j + 1), by omega, by omega, ?_⟩
    beta_reduce
    rwa [List.getD_append_right _ _ _ _ (Nat.le_add_right _ _), Nat.add_sub_cancel_left]
  · refine ⟨l.length, hk, by omega, ?_⟩
    beta_reduce
    rwa [List.getD_append_right _ _ _ _ (Nat.le_refl _), Nat.sub_self]

theorem blank_often : Often 1344 fun t => (screen.getD t (BlockAverages.blank true)).i_blank = true := by
  let Blanks (l : List Averager.Inputs) : Prop :=
    Often 1344 fun t => (l.getD t (BlockAverages.blank true)).i_blank = true
  have hblanks (n : Nat) (v : Bool) {l : List Averager.Inputs} (h : Blanks l) :
      Blanks (List.replicate n (BlockAverages.blank v) ++ l) := by
    induction n with
    | zero => exact h
    | succ n ih => exact often_append (P := fun i => i.i_blank = true) (l := []) (by decide) rfl ih
  have hrows (level : BitVec 8) (k : Nat) {l : List Averager.Inputs} (h : Blanks l) :
      Blanks ((List.range k).flatMap (plain level).line ++ l) := by
    induction k generalizing l with
    | zero => exact h
    | succ k ih =>
      rw [List.range_succ, List.flatMap_append, List.append_assoc, List.flatMap_singleton, Frame.line,
        List.append_assoc, List.replicate_succ]
      exact ih (often_append (P := fun i => i.i_blank = true) (by simp) rfl (hblanks 63 false h))
  have hpicture (level : BitVec 8) {l : List Averager.Inputs} (h : Blanks l) :
      Blanks ((plain level).picture ++ l) := by
    rw [Frame.picture, List.append_assoc]
    exact hrows level 720 (hblanks 64 false h)
  have hpulse {l : List Averager.Inputs} (h : Blanks l) : Blanks (Blanking.pulse ⟨64, 63, 63⟩ ++ l) := by
    rw [Blanking.pulse, List.append_assoc]
    exact hblanks 64 true (hblanks 64 false h)
  have hend : Blanks [BlockAverages.blank true] :=
    hblanks 1 true (l := []) fun k => ⟨k, Nat.le_refl k, Nat.lt_add_of_pos_right (by decide), rfl⟩
  change Blanks screen
  rw [screen, stream, List.flatMap_singleton, Frame.cycles, Blanking.before]
  simp only [List.append_assoc]
  exact hblanks 64 false (hpulse (hpicture 0 (hpulse (hpicture 255 hend))))

theorem framed_white (lead : Nat) :
    Framed (fun j => symbols (whiteVideo lead j) .c2) 1344 (screen.length + 32773) := by
  have hcontrol {j : Nat} (h : (whiteVideo lead j).i_blank = true) :
      symbols (whiteVideo lead j) .c2 = .control 0 := if_pos h
  constructor
  · intro k
    rcases Nat.lt_or_ge k lead with hk | hk
    · exact ⟨k, Nat.le_refl k, by omega, by rw [hcontrol (by rw [whiteVideo_lead hk]; rfl)]; exact .inl rfl⟩
    · obtain ⟨k, rfl⟩ := Nat.exists_eq_add_of_le hk
      obtain ⟨j, hj, hjG, hblank⟩ := blank_often k
      refine ⟨lead + j, by omega, by omega, ?_⟩
      rw [hcontrol (by rwa [whiteVideo_screen])]
      exact .inl rfl
  · intro k
    by_cases hk : k + 32772 ≤ lead
    · refine ⟨k, Nat.le_refl k, by omega, 0, fun i hi => hcontrol ?_⟩
      rw [whiteVideo_lead (by omega)]
      rfl
    · refine ⟨max k (lead + screen.length), Nat.le_max_left _ _, by omega, 0, fun i _ => hcontrol ?_⟩
      obtain ⟨m, hm⟩ := Nat.exists_eq_add_of_le (Nat.le_trans (Nat.le_max_right k (lead + screen.length))
        (Nat.le_add_right _ i))
      rw [hm, Nat.add_assoc, whiteVideo_screen, List.getD_eq_default _ _ (Nat.le_add_right _ _)]
      rfl

theorem slow_white (lead : Nat) : Slow fun t => sent (fun ch j => symbols (whiteVideo lead j) ch) (lead + t) := by
  have hsent (t : Nat) : sent (fun ch j => symbols (whiteVideo lead j) ch) (lead + t) =
      ports (screen.getD t (BlockAverages.blank true)) := by
    rw [sent_symbols (proper_whiteVideo lead _), whiteVideo_screen]
  simp only [hsent]
  exact ⟨long_screen fun i => (ports i).dvid_vsync, long_screen fun i => (ports i).dvid_blank,
    fun c k => long_screen fun i => ((ports i).colour c).getLsbD k⟩

theorem window_white (lead : Nat) :
    window (fun j => pixel (sent (fun ch j => symbols (whiteVideo lead j) ch) j)) lead screen.length = screen := by
  apply List.ext_getElem (by simp [window])
  intro t h1 h2
  simp only [window, List.getElem_map, List.getElem_range]
  rw [sent_symbols (proper_whiteVideo lead _), whiteVideo_screen, List.getD_eq_getElem _ _ h2]
  rfl

theorem screen_stream : screen = stream ⟨64, 63, 63⟩ ([] ++ [plain 0]) white := by rw [screen, List.nil_append]

theorem screen_long : 720 * 1281 ≤ screen.length := by
  rw [screen_stream]
  have hlonger := stream_longer ⟨64, 63, 63⟩ [] (plain 0) white
  exact Nat.le_trans (picture_length white) (Nat.le_trans (Nat.le_add_left _ _) (Nat.le_of_lt hlonger))

/-- The white picture ends with a vsync pulse, and there is none in it. -/
theorem white_end {lead E : Nat} (hlead : 0 / 10 + 32777 + 10 * (screen.length + 32773 + 32770) = lead)
    (hE : lead + latency 0 + 65 + screen.length = E) :
    let s := after cycle ⟨DvidIn.start, VideoAverager.powerUp⟩ (transmit (whiteVideo lead))
    (s E).video_averager.vsync = true ∧
      ∀ t, E < t + 720 * 1281 → t < E → (s t).video_averager.vsync = false := by
  intro s
  have hs : Follows cycle (transmit (whiteVideo lead)) s := after_follows
  obtain ⟨T, hT, hfound⟩ := framing_found (dvid_in_follows hs) (Nat.zero_lt_succ 9) rfl
    (carries_transmit (whiteVideo lead) .c2) (framed_white lead) (by decide)
  have hdelivers := delivers_of_framing (dvid_in_follows hs) (fun _ => rfl) (carries_transmit (whiteVideo lead))
    (fun _ => rfl) hfound
  have hwindow := window_white lead
  rw [screen_stream] at hwindow
  have hend := pulse_at_end hs hdelivers (by omega) (slow_white lead) hwindow
  rw [← screen_stream, hE] at hend
  refine ⟨hend.1, fun t h1 h2 => ?_⟩
  by_contra hne
  have heq := hend.2 t (Nat.lt_of_lt_of_le h1 (Nat.add_le_add_left (picture_length white) t)) (Nat.lt_add_right 64 h2)
    (eq_true_of_ne_false hne)
  exact Nat.ne_of_lt h2 heq

/-- Its bytes come out of the receiver. -/
theorem white_of_bits : ∃ lead t, ∀ n c,
    (Averager.byteAt (after cycle ⟨DvidIn.start, VideoAverager.powerUp⟩ (transmit (whiteVideo lead)) t
      ).video_averager.averager.framebuffer n c).toNat = rowSums white 720 n c / 2 ^ 14 := by
  refine ⟨0 / 10 + 32777 + 10 * (screen.length + 32773 + 32770), ?_⟩
  generalize hlead : 0 / 10 + 32777 + 10 * (screen.length + 32773 + 32770) = lead
  obtain ⟨T, hT, h⟩ := framebuffer_of_bits (w := transmit (whiteVideo lead)) (s := after cycle
    ⟨DvidIn.start, VideoAverager.powerUp⟩ (transmit (whiteVideo lead))) after_follows (Nat.zero_lt_succ 9)
    (fun _ => rfl) (fun _ => rfl) (carries_transmit (whiteVideo lead)) (framed_white lead) (by decide)
  rw [hlead] at hT
  have hwindow := window_white lead
  rw [screen_stream] at hwindow
  exact ⟨_, h lead ⟨64, 63, 63⟩ ([] ++ [plain 0]) white [] (Nat.le_trans hT (Nat.le_add_right lead _)) (by decide)
    (slow_white lead) (List.isChain_singleton _) (by rw [List.append_nil]; exact hwindow)⟩

end DinoLight.VideoPath
