import Mathlib.Tactic

/-!
# Numbers as strings of digits

The number that a string of `w`-bit digits spells, the most significant digit first,
the digits of a number, and the rule for algorithms that work through a string from its
last digit to its first and carry into the digit before.
-/

namespace BigEndian

variable {w : ℕ} {b b' : ℕ → BitVec w} {n : ℕ}

/-- The number that the first `n` digits spell. -/
def value (b : ℕ → BitVec w) : ℕ → ℕ
  | 0 => 0
  | n + 1 => value b n * 2 ^ w + (b n).toNat

/-- Digit `i` of the last `n` digits of `x`. -/
def digits (w : ℕ) (x n i : ℕ) : BitVec w := BitVec.ofNat w (x / (2 ^ w) ^ (n - 1 - i))

theorem value_congr (h : ∀ i < n, b i = b' i) : value b n = value b' n := by
  induction n with
  | zero => rfl
  | succ n ih =>
    rw [value, value, ih fun i hi => h i (hi.trans n.lt_succ_self), h n n.lt_succ_self]

theorem value_lt (b : ℕ → BitVec w) (n : ℕ) : value b n < (2 ^ w) ^ n := by
  induction n with
  | zero => exact Nat.one_pos
  | succ n ih =>
    have hdigit := (b n).isLt
    calc value b n * 2 ^ w + (b n).toNat < value b n * 2 ^ w + 2 ^ w := by omega
      _ = (value b n + 1) * 2 ^ w := (Nat.succ_mul _ _).symm
      _ ≤ (2 ^ w) ^ n * 2 ^ w := Nat.mul_le_mul_right _ ih
      _ = (2 ^ w) ^ (n + 1) := (pow_succ _ _).symm

/-- A string is determined by its number. -/
theorem eq_of_value_eq (h : value b n = value b' n) : ∀ i < n, b i = b' i := by
  induction n with
  | zero => exact fun i hi => absurd hi (Nat.not_lt_zero i)
  | succ n ih =>
    have hpos : 0 < 2 ^ w := Nat.two_pow_pos w
    rw [value, value, Nat.mul_comm, Nat.mul_comm (value b' n)] at h
    have hdiv := congrArg (· / 2 ^ w) h
    have hmod := congrArg (· % 2 ^ w) h
    simp only [Nat.mul_add_div hpos, Nat.div_eq_of_lt (b n).isLt, Nat.div_eq_of_lt (b' n).isLt,
      Nat.add_zero] at hdiv
    simp only [Nat.mul_add_mod, Nat.mod_eq_of_lt (b n).isLt, Nat.mod_eq_of_lt (b' n).isLt] at hmod
    intro i hi
    rcases Nat.lt_succ_iff_lt_or_eq.mp hi with hlt | rfl
    · exact ih hdiv i hlt
    · exact BitVec.eq_of_toNat_eq hmod

/-- One digit of an algorithm with a carry: what comes out of a digit and the carry into
the digits before it make up what was added to the two. -/
theorem value_carry {x c s : ℕ} (hhigh : value b n = (x + c) % (2 ^ w) ^ n)
    (hdigit : (b n).toNat + 2 ^ w * c = s) :
    value b (n + 1) = (x * 2 ^ w + s) % (2 ^ w) ^ (n + 1) := by
  have hsum : x * 2 ^ w + s = 2 ^ w * (x + c) + (b n).toNat := by
    rw [← hdigit]
    ring
  have hlt := (b n).isLt
  have hmod : (2 ^ w * (x + c) + (b n).toNat) % 2 ^ w = (b n).toNat := by
    rw [Nat.mul_add_mod, Nat.mod_eq_of_lt hlt]
  have hdiv : (2 ^ w * (x + c) + (b n).toNat) / 2 ^ w = x + c := by
    rw [Nat.mul_add_div (Nat.two_pow_pos w), Nat.div_eq_of_lt hlt, Nat.add_zero]
  rw [value, hhigh, hsum, pow_succ, Nat.mul_comm ((2 ^ w) ^ n), Nat.mod_mul, hmod, hdiv,
    Nat.add_comm, Nat.mul_comm]

theorem digits_succ (x : ℕ) {i : ℕ} (hi : i < n) :
    digits w x (n + 1) i = digits w (x / 2 ^ w) n i := by
  have hexp : n + 1 - 1 - i = n - 1 - i + 1 := by omega
  rw [digits, digits, hexp, pow_succ, Nat.mul_comm, Nat.div_div_eq_div_mul]

theorem value_digits (x n : ℕ) : value (digits w x n) n = x % (2 ^ w) ^ n := by
  induction n generalizing x with
  | zero => exact (Nat.mod_one x).symm
  | succ n ih =>
    have hlast : (digits w x (n + 1) n).toNat = x % 2 ^ w := by
      rw [digits, BitVec.toNat_ofNat, Nat.add_sub_cancel, Nat.sub_self, pow_zero, Nat.div_one]
    rw [value, value_congr fun i hi => digits_succ x hi, ih, hlast, pow_succ,
      Nat.mul_comm ((2 ^ w) ^ n), Nat.mod_mul, Nat.add_comm, Nat.mul_comm (2 ^ w)]

theorem digits_value (b : ℕ → BitVec w) (n : ℕ) : ∀ i < n, digits w (value b n) n i = b i :=
  eq_of_value_eq (by rw [value_digits, Nat.mod_eq_of_lt (value_lt b n)])

end BigEndian
