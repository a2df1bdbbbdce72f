import Mathlib.Data.BitVec
import Mathlib.Tactic.Common
/-!
# Vectors with a leftmost bit

A hardware vector is a row of bits read from left to right; its leftmost bit
is the most significant, whatever way its indices run, and assignments match
bits by position. It is a `BitVec` whose index 0, counted from the left, is
`getMsbD 0`. For a vector declared `(0 to w - 1)` this is also the index
written in the source.
-/

namespace Vectors

variable {w : Nat}

/-- The `len` bits from position `lo` on, counted from the left. -/
def slice (v : BitVec w) (lo len : Nat) : BitVec len := v.extractLsb' (w - lo - len) len

/-- The vector whose bit at position `i`, counted from the left, is `f i`. -/
def ofLeft (w : Nat) (f : Nat → Bool) : BitVec w :=
  (BitVec.ofBoolListBE ((List.range w).map f)).cast (by simp)

/-- The vector declared `(w - 1 downto 0)` whose element at index `i` is `f i`. -/
def ofDownto (w : Nat) (f : Nat → Bool) : BitVec w :=
  (BitVec.ofBoolListLE ((List.range w).map f)).cast (by simp)

/-- The first `n` bits, left to right. -/
def bits (v : BitVec w) (n : Nat) : List Bool := (List.range n).map v.getMsbD

theorem getMsbD_ofLeft (f : Nat → Bool) {i : Nat} (hi : i < w) : (ofLeft w f).getMsbD i = f i := by
  simp [ofLeft, BitVec.getMsbD_ofBoolListBE, List.getD_eq_getElem?_getD, hi]

theorem getLsbD_ofDownto (f : Nat → Bool) {i : Nat} (hi : i < w) : (ofDownto w f).getLsbD i = f i := by
  rw [ofDownto, BitVec.getLsbD_cast, BitVec.getLsbD_ofBoolListLE]
  simp [List.getD_eq_getElem?_getD, hi]

theorem getMsbD_slice (v : BitVec w) {lo len i : Nat} (hi : i < len) (hw : lo + len ≤ w) :
    (slice v lo len).getMsbD i = v.getMsbD (lo + i) := by
  simp only [slice, BitVec.getMsbD_eq_getLsbD, BitVec.getLsbD_extractLsb', hi,
    show len - 1 - i < len by omega, show lo + i < w by omega, decide_true, Bool.true_and]
  congr 1
  omega

/-- Slices of two vectors agree if the bits under them do. -/
theorem slice_eq {w' : Nat} {v : BitVec w} {v' : BitVec w'} {lo lo' len : Nat} (hw : lo + len ≤ w)
    (hw' : lo' + len ≤ w') (h : ∀ i < len, v.getMsbD (lo + i) = v'.getMsbD (lo' + i)) :
    slice v lo len = slice v' lo' len := by
  apply BitVec.eq_of_getMsbD_eq
  intro i hi
  rw [getMsbD_slice v hi hw, getMsbD_slice v' hi hw', h i hi]

theorem slice_slice (v : BitVec w) {lo len lo' len' : Nat} (hin : lo' + len' ≤ len) (hw : lo + len ≤ w) :
    slice (slice v lo len) lo' len' = slice v (lo + lo') len' :=
  slice_eq hin (by omega) fun i hi => by rw [getMsbD_slice v (by omega) hw, Nat.add_assoc]

theorem bits_append {w' : Nat} (v : BitVec w) (v' : BitVec w') :
    bits (v ++ v') (w + w') = bits v w ++ bits v' w' := by
  apply List.ext_getElem (by simp [bits])
  intro i h1 _
  by_cases hi : i < w
  · simp [bits, BitVec.getMsbD_append, hi]
  · simp [bits, BitVec.getMsbD_append, Nat.le_of_not_lt hi]

/-! ## Bytes -/

/-- The first `m` bytes, left to right. -/
def bytes (v : BitVec w) (m : Nat) : List (BitVec 8) := (List.range m).map fun k => slice v (k * 8) 8

/-- `v(w - 9 downto 0) & b`: the byte enters on the right, the leftmost leaves. -/
def shiftIn (v : BitVec w) (b : BitVec 8) : BitVec w := (v.extractLsb' 0 (w - 8) ++ b).setWidth w

@[simp] theorem length_bytes (v : BitVec w) (m : Nat) : (bytes v m).length = m := by simp [bytes]

@[simp] theorem bytes_zero (m : Nat) : bytes 0#w m = List.replicate m 0#8 := by
  simp [bytes, slice, List.map_const']

theorem getMsbD_shiftIn (v : BitVec w) (b : BitVec 8) (hw : 8 ≤ w) {i : Nat} (hi : i < w) :
    (shiftIn v b).getMsbD i = if i + 8 < w then v.getMsbD (i + 8) else b.getMsbD (i + 8 - w) := by
  have hi' : w - 1 - i < w := by omega
  simp only [shiftIn, BitVec.getMsbD_eq_getLsbD, BitVec.getLsbD_setWidth, BitVec.getLsbD_append,
    BitVec.getLsbD_extractLsb', hi, hi', decide_true, Bool.true_and]
  by_cases h : i + 8 < w
  · simp only [h, if_true, show ¬ w - 1 - i < 8 by omega, show w - 1 - i - 8 < w - 8 by omega, if_false,
      decide_true, Bool.true_and]
    congr 1
    omega
  · simp only [h, if_false, show w - 1 - i < 8 by omega, if_true, show i + 8 - w < 8 by omega, decide_true,
      Bool.true_and]
    congr 1
    omega

theorem slice_shiftIn (v : BitVec w) (b : BitVec 8) {m k : Nat} (hw : w = (m + 1) * 8) (hk : k < m) :
    slice (shiftIn v b) (k * 8) 8 = slice v ((k + 1) * 8) 8 :=
  slice_eq (by omega) (by omega) fun i hi => by
    rw [getMsbD_shiftIn v b (by omega) (by omega), if_pos (by omega)]
    congr 1
    omega

theorem slice_shiftIn_last (v : BitVec w) (b : BitVec 8) {m : Nat} (hw : w = (m + 1) * 8) :
    slice (shiftIn v b) (m * 8) 8 = b := by
  apply BitVec.eq_of_getMsbD_eq
  intro i hi
  rw [getMsbD_slice _ hi (by omega), getMsbD_shiftIn v b (by omega) (by omega), if_neg (by omega)]
  congr 1
  omega

theorem bytes_shiftIn (v : BitVec w) (b : BitVec 8) {m : Nat} (hw : w = (m + 1) * 8) :
    bytes (shiftIn v b) (m + 1) = (bytes v (m + 1)).tail ++ [b] := by
  have hmap : (List.range m).map (fun k => slice (shiftIn v b) (k * 8) 8) =
      (List.range m).map (fun k => slice v ((k + 1) * 8) 8) :=
    List.map_congr_left fun k hk => slice_shiftIn v b hw (List.mem_range.1 hk)
  rw [bytes, List.range_succ, List.map_append, hmap, List.map_cons, List.map_nil, slice_shiftIn_last v b hw,
    bytes, List.range_succ_eq_map, List.map_cons, List.tail_cons, List.map_map]
  rfl

theorem getD_bytes (v : BitVec w) {m k : Nat} (hk : k < m) : (bytes v m).getD k 0 = slice v (k * 8) 8 := by
  simp [bytes, List.getD_eq_getElem?_getD, hk]

/-- A payload at the right end of the vector grows to the left as bytes enter. -/
theorem suffix_shiftIn {v : BitVec w} {b : BitVec 8} {m : Nat} {payload : List (BitVec 8)} (hw : w = m * 8)
    (hs : payload <:+ bytes v m) (hl : payload.length < m) : payload ++ [b] <:+ bytes (shiftIn v b) m := by
  obtain ⟨pre, hpre⟩ := hs
  have hlen := congrArg List.length hpre
  simp only [List.length_append, length_bytes] at hlen
  obtain ⟨n, rfl⟩ : ∃ n, m = n + 1 := ⟨m - 1, by omega⟩
  obtain ⟨x, pre, rfl⟩ : ∃ x xs, pre = x :: xs := List.exists_cons_of_length_pos (by omega)
  refine ⟨pre, ?_⟩
  rw [bytes_shiftIn v b hw, ← hpre, List.cons_append, List.tail_cons, List.append_assoc]

/-- The rightmost bytes of a vector are the bytes of its right part. -/
theorem bytes_right (v : BitVec w) {m n : Nat} (hw : w = m * 8) (hn : n ≤ m) :
    bytes (v.extractLsb' 0 (n * 8)) n = (bytes v m).drop (m - n) := by
  have hr : v.extractLsb' 0 (n * 8) = slice v ((m - n) * 8) (n * 8) := by
    rw [slice, show w - (m - n) * 8 - n * 8 = 0 by omega]
  apply List.ext_getElem (by simp; omega)
  intro k h1 _
  have hk : k < n := by simpa using h1
  simp only [bytes, List.getElem_drop, List.getElem_map, List.getElem_range, hr]
  rw [slice_slice v (by omega) (by omega), Nat.add_mul]

/-- A payload at the right end of a vector is what the rightmost bytes read. -/
theorem bytes_of_suffix {v : BitVec w} {m : Nat} {payload : List (BitVec 8)} (hw : w = m * 8)
    (hs : payload <:+ bytes v m) {n : Nat} (hl : payload.length = n) :
    bytes (v.extractLsb' 0 (n * 8)) n = payload := by
  have hle := hs.length_le
  rw [length_bytes] at hle
  rw [bytes_right v hw (by omega), List.suffix_iff_eq_drop.1 hs, length_bytes, hl]

end Vectors
