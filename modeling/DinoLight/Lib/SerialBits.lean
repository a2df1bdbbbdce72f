import DinoLight.Lib.Vectors
/-!
# Serial bits

A stream of bits that arrives a chunk at a time and is read back through a
shift register. The stream numbers the bits in the order of arrival, element 0
of a chunk first; the register always holds its latest ones, so every slice of
it is a window of the stream.
-/
open Vectors

namespace SerialBits

variable {w k : Nat}

/-- The stream that comes in as the chunks `h`. -/
def stream (h : Nat → BitVec k) (p : Nat) : Bool := (h (p / k)).getLsbD (p % k)

/-- The `n` bits of a stream from position `p` on, the first at index 0. -/
def windowAt (n : Nat) (b : Nat → Bool) (p : Nat) : BitVec n := ofDownto n fun i => b (p + i)

/-- `d & v(w - 1 downto k)`: a chunk enters at the high end, the oldest leaves. -/
def push (v : BitVec w) (d : BitVec k) : BitVec w := ofDownto w fun i =>
  if i + k < w then v.getLsbD (i + k) else d.getLsbD (i + k - w)

theorem stream_chunk (h : Nat → BitVec k) {n i : Nat} (hi : i < k) : stream h (k * n + i) = (h n).getLsbD i := by
  have hk : 0 < k := Nat.lt_of_le_of_lt (Nat.zero_le i) hi
  rw [stream, Nat.mul_add_div hk, Nat.div_eq_of_lt hi, Nat.mul_add_mod, Nat.mod_eq_of_lt hi, Nat.add_zero]

theorem getLsbD_windowAt (b : Nat → Bool) (p : Nat) {n i : Nat} (hi : i < n) :
    (windowAt n b p).getLsbD i = b (p + i) := getLsbD_ofDownto _ hi

theorem windowAt_not (b : Nat → Bool) (p n : Nat) : windowAt n (fun q => !b q) p = ~~~windowAt n b p := by
  apply BitVec.eq_of_getLsbD_eq
  intro i hi
  rw [BitVec.getLsbD_not, getLsbD_windowAt _ _ hi, getLsbD_windowAt _ _ hi, decide_eq_true hi, Bool.true_and]

theorem getLsbD_push (v : BitVec w) (d : BitVec k) {i : Nat} (hi : i < w) :
    (push v d).getLsbD i = if i + k < w then v.getLsbD (i + k) else d.getLsbD (i + k - w) := getLsbD_ofDownto _ hi

/-! ## The register -/

section
variable {h : Nat → BitVec k} {v : Nat → BitVec w}

/-- After `n` chunks the register ends with bit `k * n - 1` of the stream. -/
theorem getLsbD_run (hv : ∀ n, v (n + 1) = push (v n) (h n)) (n : Nat) {p i : Nat} (hi : i < w)
    (hp : p + w = k * n + i) : (v n).getLsbD i = stream h p := by
  induction n generalizing i with
  | zero => omega
  | succ n ih =>
    rw [hv n, getLsbD_push _ _ hi]
    rw [Nat.mul_add_one] at hp
    split
    next hlt => exact ih hlt (by omega)
    next hge =>
      rw [← stream_chunk h (by omega : i + k - w < k)]
      congr 1
      omega

/-- A slice of the register is a window of the stream. -/
theorem slice_run (hv : ∀ n, v (n + 1) = push (v n) (h n)) (n : Nat) {p lo m : Nat} (hlo : lo + m ≤ w)
    (hp : p + w = k * n + lo) : (v n).extractLsb' lo m = windowAt m (stream h) p := by
  apply BitVec.eq_of_getLsbD_eq
  intro i hi
  rw [getLsbD_windowAt _ _ hi, BitVec.getLsbD_extractLsb', decide_eq_true hi, Bool.true_and]
  exact getLsbD_run hv n (by omega) (by omega)

end

/-! ## Words on the line -/

/-- From bit `p` on the stream carries the words `u`, each from its index 0 on. -/
def Sends {n : Nat} (u : Nat → BitVec n) (p : Nat) (b : Nat → Bool) : Prop :=
  ∀ j, windowAt n b (p + n * j) = u j

/-- Words that are all the same look the same from every `n`-th bit, whichever
bit of the word that is. -/
theorem Sends.window_repeated {n : Nat} {u : Nat → BitVec n} {p : Nat} {b : Nat → Bool} (h : Sends u p b) {x : BitVec n}
    {j o : Nat} (ho : o < n) (h1 : u j = x) (h2 : u (j + 1) = x) : windowAt n b (p + n * j + o) = x.rotateRight o := by
  have hbit {j' i : Nat} (hi : i < n) : b (p + n * j' + i) = (u j').getLsbD i := by
    rw [← h j', getLsbD_windowAt _ _ hi]
  apply BitVec.eq_of_getLsbD_eq
  intro i hi
  rw [getLsbD_windowAt _ _ hi, BitVec.getLsbD_rotateRight, Nat.mod_eq_of_lt ho]
  rcases Nat.lt_or_ge i (n - o) with hlt | hge
  · rw [decide_eq_true hlt, Nat.add_assoc, hbit (by omega), h1, cond_true]
  · have hnext : p + n * j + o + i = p + n * (j + 1) + (i - (n - o)) := by rw [Nat.mul_add_one]; omega
    rw [decide_eq_false (Nat.not_lt.2 hge), hnext, hbit (by omega), h2, decide_eq_true hi, Bool.true_and, cond_false]

end SerialBits
