import Mathlib

/-!
# Little-endian bit streams

A sequence of `w`-bit words is a stream of bits, the low bit of the first word
first. `ofWords` lays words out, `word` cuts a stream into words, and `rechunk`
goes from words of one width to words of another. `Window` is the state of a
loop that moves a stream through an accumulator register: the register holds the
bits from `p` up to `q` and nothing else.
-/

namespace BitStream

variable {v w : ℕ}

/-- Bit `m` of the concatenation of the words `c 0, c 1, …`. -/
def ofWords (w : ℕ) (c : ℕ → BitVec w) (m : ℕ) : Bool := (c (m / w)).getLsbD (m % w)

/-- The `k`-th word of a stream. -/
def word (w : ℕ) (s : ℕ → Bool) (k : ℕ) : BitVec w := BitVec.ofFnLE fun t : Fin w => s (w * k + t)

/-- The same bits, cut into words of another width. -/
def rechunk (v w : ℕ) (c : ℕ → BitVec v) : ℕ → BitVec w := word w (ofWords v c)

theorem getLsbD_word (s : ℕ → Bool) (k : ℕ) {t : ℕ} (ht : t < w) :
    (word w s k).getLsbD t = s (w * k + t) := by
  rw [word, BitVec.getLsbD_ofFnLE, dif_pos ht]

theorem ofWords_add (c : ℕ → BitVec w) (k : ℕ) {t : ℕ} (ht : t < w) :
    ofWords w c (w * k + t) = (c k).getLsbD t := by
  have hw : 0 < w := by omega
  rw [ofWords, Nat.mul_add_div hw, Nat.div_eq_of_lt ht, Nat.mul_add_mod, Nat.mod_eq_of_lt ht,
    Nat.add_zero]

theorem word_ofWords (c : ℕ → BitVec w) (k : ℕ) : word w (ofWords w c) k = c k := by
  apply BitVec.eq_of_getLsbD_eq
  intro t ht
  rw [getLsbD_word _ _ ht, ofWords_add c k ht]

theorem ofWords_word (hw : 0 < w) (s : ℕ → Bool) : ofWords w (word w s) = s := by
  funext m
  rw [ofWords, getLsbD_word _ _ (Nat.mod_lt m hw), Nat.div_add_mod]

/-- Cutting a stream differently loses nothing. -/
theorem rechunk_rechunk (hw : 0 < w) (c : ℕ → BitVec v) (k : ℕ) :
    rechunk w v (rechunk v w c) k = c k := by
  rw [rechunk, rechunk, ofWords_word hw, word_ofWords]

/-- A word of the new width depends on the old words that overlap it. -/
theorem rechunk_congr {n : ℕ} {c c' : ℕ → BitVec v} (h : ∀ j < n, c j = c' j) {k : ℕ}
    (hk : w * (k + 1) ≤ v * n) : rechunk v w c k = rechunk v w c' k := by
  apply BitVec.eq_of_getLsbD_eq
  intro t ht
  have hlt : w * k + t < v * n := by
    have : w * (k + 1) = w * k + w := by ring
    omega
  have hj : (w * k + t) / v < n := Nat.div_lt_of_lt_mul hlt
  rw [rechunk, rechunk, getLsbD_word _ _ ht, getLsbD_word _ _ ht, ofWords, ofWords, h _ hj]

/-- Words read back from a buffer that holds the stream on its first `n` places. -/
theorem rechunk_of_eq {n : ℕ} {c : ℕ → BitVec v} {b : ℕ → BitVec w} (hw : 0 < w)
    (h : ∀ j < n, b j = rechunk v w c j) {k : ℕ} (hk : v * (k + 1) ≤ w * n) :
    rechunk w v b k = c k := by
  rw [rechunk_congr h hk, rechunk_rechunk hw]

/-- A word is recognised by its bits, counted inside a group of `m` old words that
make up `p` new ones. -/
theorem eq_rechunk_group {c : ℕ → BitVec v} {m p : ℕ} (hmp : v * m = w * p) (hv : 0 < v)
    (i t : ℕ) {x : BitVec w} (hx : ∀ u, u < w →
      x.getLsbD u = (c (m * i + (w * t + u) / v)).getLsbD ((w * t + u) % v)) :
    x = rechunk v w c (p * i + t) := by
  apply BitVec.eq_of_getLsbD_eq
  intro u hu
  have he : w * (p * i + t) + u = v * (m * i) + (w * t + u) := by
    calc w * (p * i + t) + u = w * p * i + (w * t + u) := by ring
      _ = v * (m * i) + (w * t + u) := by rw [← hmp]; ring
  rw [rechunk, getLsbD_word _ _ hu, hx u hu, ofWords, he, Nat.mul_add_div hv, Nat.mul_add_mod]

/-- A stream read from a word boundary on. -/
theorem rechunk_offset (c : ℕ → BitVec v) {m n : ℕ} (hmn : v * n = w * m) (hv : 0 < v) (k : ℕ) :
    rechunk v w (fun j => c (n + j)) k = rechunk v w c (m + k) := by
  apply BitVec.eq_of_getLsbD_eq
  intro t ht
  have he : w * (m + k) + t = v * n + (w * k + t) := by rw [hmn]; ring
  rw [rechunk, rechunk, getLsbD_word _ _ ht, getLsbD_word _ _ ht, ofWords, ofWords, he,
    Nat.mul_add_div hv, Nat.mul_add_mod]

/-- The register `x` holds the bits of `s` from `p` up to `q`, low bit first. -/
def Window (x : BitVec v) (s : ℕ → Bool) (p q : ℕ) : Prop :=
  ∀ t, x.getLsbD t = (decide (p + t < q) && s (p + t))

theorem window_zero (s : ℕ → Bool) (p : ℕ) : Window (0 : BitVec v) s p p := by
  intro t
  simp

/-- Or-ing a word above the window extends it by the width of that word. -/
theorem Window.push {x y : BitVec v} {s : ℕ → Bool} {p q n : ℕ} (hx : Window x s p q)
    (hy : Window y s q (q + n)) (hpq : p ≤ q) (hfit : q + n ≤ p + v) :
    Window (x ||| y <<< (q - p)) s p (q + n) := by
  intro t
  rw [BitVec.getLsbD_or, BitVec.getLsbD_shiftLeft, hx t]
  by_cases htv : t < v
  · by_cases htq : p + t < q
    · have h1 : t < q - p := by omega
      have h2 : p + t < q + n := by omega
      simp [h1, htq, h2]
    · have h1 : ¬ t < q - p := by omega
      have he : q + (t - (q - p)) = p + t := by omega
      rw [hy, he]
      simp [h1, htv, htq]
  · have h1 : ¬ p + t < q := by omega
    have h2 : ¬ p + t < q + n := by omega
    simp [htv, h1, h2]

/-- A right shift drops the low end of the window. -/
theorem Window.drop {x : BitVec v} {s : ℕ → Bool} {p q : ℕ} (hx : Window x s p q) (n : ℕ) :
    Window (x >>> n) s (p + n) q := by
  intro t
  rw [BitVec.getLsbD_ushiftRight, hx (n + t), Nat.add_assoc]

/-- The low bits of a long enough window are the next word of the stream. -/
theorem Window.setWidth {x : BitVec v} {s : ℕ → Bool} {p q : ℕ} (hx : Window x s p q)
    (h : p + w ≤ q) {t : ℕ} (ht : t < w) : (x.setWidth w).getLsbD t = s (p + t) := by
  have hq : p + t < q := by omega
  rw [BitVec.getLsbD_setWidth, hx t]
  simp [ht, hq]

/-- A word of the stream, widened, is a window of its own width. -/
theorem window_word (hv : w ≤ v) (c : ℕ → BitVec w) (k : ℕ) :
    Window ((c k).setWidth v) (ofWords w c) (w * k) (w * k + w) := by
  intro t
  rw [BitVec.getLsbD_setWidth]
  by_cases ht : t < w
  · have htv : t < v := by omega
    simp [ht, htv, ofWords_add c k ht]
  · rw [BitVec.getLsbD_of_ge _ _ (by omega)]
    simp [ht]

end BitStream
