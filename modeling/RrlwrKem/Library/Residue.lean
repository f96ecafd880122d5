import Mathlib.Data.BitVec
import Mathlib.Data.ZMod.Basic
import Mathlib.Data.Int.ModEq
import Mathlib.Tactic

/-!
# Machine words as residues

A `w`-bit word stands for a residue modulo `2^k` for every `k ≤ w`. `residue k`
is that reading, and it carries the wrapping word operations to the ring
`ZMod (2^k)`. `Carries k x u` says that the word `x` agrees with the integer `u`
on its `k` low bits; its rules record how many bits survive each operation, the
right shifts included.
-/

namespace Word

variable {w v k n : ℕ}

/-- The residue modulo `2^k` of a word. -/
def residue (k : ℕ) (x : BitVec w) : ZMod (2 ^ k) := (x.toNat : ZMod (2 ^ k))

private theorem cast_mod (hk : k ≤ w) (a : ℕ) : ((a % 2 ^ w : ℕ) : ZMod (2 ^ k)) = a := by
  rw [ZMod.natCast_eq_natCast_iff, Nat.ModEq, Nat.mod_mod_of_dvd a (Nat.pow_dvd_pow 2 hk)]

theorem residue_eq_iff (x : BitVec w) (y : BitVec v) :
    residue k x = residue k y ↔ x.toNat % 2 ^ k = y.toNat % 2 ^ k :=
  ZMod.natCast_eq_natCast_iff ..

/-- The full residue of a word determines it. -/
theorem residue_injective : Function.Injective (residue w : BitVec w → ZMod (2 ^ w)) := by
  intro x y h
  rw [residue_eq_iff, Nat.mod_eq_of_lt x.isLt, Nat.mod_eq_of_lt y.isLt] at h
  exact BitVec.eq_of_toNat_eq h

@[simp] theorem residue_ofNat (hk : k ≤ w) (a : ℕ) :
    residue k (BitVec.ofNat w a) = (a : ZMod (2 ^ k)) := by
  rw [residue, BitVec.toNat_ofNat, cast_mod hk]

@[simp] theorem residue_zero : residue k (0 : BitVec w) = 0 := by
  simp [residue]

@[simp] theorem residue_add (hk : k ≤ w) (x y : BitVec w) :
    residue k (x + y) = residue k x + residue k y := by
  rw [residue, BitVec.toNat_add, cast_mod hk, Nat.cast_add]
  rfl

@[simp] theorem residue_mul (hk : k ≤ w) (x y : BitVec w) :
    residue k (x * y) = residue k x * residue k y := by
  rw [residue, BitVec.toNat_mul, cast_mod hk, Nat.cast_mul]
  rfl

@[simp] theorem residue_neg (hk : k ≤ w) (x : BitVec w) : residue k (-x) = -residue k x := by
  have h : residue k (-x) + residue k x = 0 := by
    rw [← residue_add hk, neg_add_cancel, residue_zero]
  exact eq_neg_of_add_eq_zero_left h

@[simp] theorem residue_sub (hk : k ≤ w) (x y : BitVec w) :
    residue k (x - y) = residue k x - residue k y := by
  rw [sub_eq_add_neg, residue_add hk, residue_neg hk, sub_eq_add_neg]

@[simp] theorem residue_shiftLeft (hk : k ≤ w) (x : BitVec w) (n : ℕ) :
    residue k (x <<< n) = 2 ^ n * residue k x := by
  rw [residue, BitVec.toNat_shiftLeft, cast_mod hk, Nat.shiftLeft_eq]
  push_cast
  rw [mul_comm]
  rfl

/-- Widening keeps every residue, truncation those that still fit. -/
@[simp] theorem residue_setWidth (hk : k ≤ v) (x : BitVec w) :
    residue k (x.setWidth v) = residue k x := by
  rw [residue, BitVec.toNat_setWidth, cast_mod hk]
  rfl

/-- Residues of a word are compatible with reduction to a smaller modulus. -/
theorem castHom_residue (h : 2 ^ k ∣ 2 ^ n) (x : BitVec w) :
    ZMod.castHom h (ZMod (2 ^ k)) (residue n x) = residue k x := by
  rw [residue, map_natCast]
  rfl

/-- The mask of the low `w` bits. -/
theorem mask_eq (v w : ℕ) : (1#v <<< w) - 1#v = BitVec.ofNat v (2 ^ w - 1) := by
  rw [← BitVec.twoPow_eq, sub_eq_iff_eq_add]
  apply BitVec.eq_of_toNat_eq
  have hpos := Nat.two_pow_pos w
  rw [BitVec.toNat_twoPow, BitVec.toNat_add, BitVec.toNat_ofNat, BitVec.toNat_ofNat,
    Nat.add_mod_mod, Nat.mod_add_mod, Nat.sub_add_cancel hpos]

/-- Masking the low bits truncates and widens again. -/
theorem and_mask (x : BitVec v) (hw : w < v) :
    x &&& BitVec.ofNat v (2 ^ w - 1) = (x.setWidth w).setWidth v := by
  have h1 := Nat.pow_lt_pow_right (a := 2) (by omega) hw
  have h2 : x.toNat % 2 ^ w < 2 ^ v := (Nat.mod_lt _ (Nat.two_pow_pos w)).trans h1
  apply BitVec.eq_of_toNat_eq
  rw [BitVec.toNat_and, BitVec.toNat_ofNat, Nat.mod_eq_of_lt (by omega),
    Nat.and_two_pow_sub_one_eq_mod, BitVec.toNat_setWidth, BitVec.toNat_setWidth,
    Nat.mod_eq_of_lt h2]

/-- Toggling the top bit is adding it. -/
theorem xor_twoPow_top (hw : 0 < w) (x : BitVec w) :
    x ^^^ BitVec.twoPow w (w - 1) = x + BitVec.twoPow w (w - 1) := by
  apply BitVec.eq_of_getLsbD_eq
  intro i hi
  have hadd : (x + BitVec.twoPow w (w - 1)).getLsbD i = (2 ^ (w - 1) + x.toNat).testBit i := by
    rw [BitVec.getLsbD, BitVec.toNat_add, BitVec.toNat_twoPow_of_lt (by omega),
      Nat.testBit_mod_two_pow, Nat.add_comm]
    simp [hi]
  rw [hadd, BitVec.getLsbD_xor, BitVec.getLsbD_twoPow]
  by_cases h : i = w - 1
  · subst h
    rw [Nat.testBit_two_pow_add_eq]
    simp [BitVec.getLsbD, hw]
  · have hlt : i < w - 1 := by omega
    rw [Nat.testBit_two_pow_add_gt hlt]
    simp [BitVec.getLsbD, Ne.symm h]

/-- Truncation of a difference forgets how the subtrahend was widened. -/
theorem setWidth_sub_setWidth (hk : k ≤ v) (h : BitVec v) (x : BitVec w) :
    (h - x.setWidth v).setWidth k = h.setWidth k - x.setWidth k := by
  apply residue_injective
  simp [hk]

/-- The word agrees with the integer on the `k` low bits. -/
def Carries (k : ℕ) (x : BitVec w) (u : ℤ) : Prop := (x.toNat : ℤ) ≡ u [ZMOD 2 ^ k]

theorem carries_iff_residue (x : BitVec w) (u : ℤ) :
    Carries k x u ↔ residue k x = (u : ZMod (2 ^ k)) := by
  have h := ZMod.intCast_eq_intCast_iff (x.toNat : ℤ) u (2 ^ k)
  rw [Int.cast_natCast] at h
  rw [Carries, residue, h]
  push_cast
  rfl

theorem Carries.residue_eq {x : BitVec w} {u : ℤ} (h : Carries k x u) :
    residue k x = (u : ZMod (2 ^ k)) :=
  (carries_iff_residue x u).mp h

theorem carries_self (k : ℕ) (x : BitVec w) : Carries k x x.toNat := Int.ModEq.refl _

theorem Carries.mono {x : BitVec w} {u : ℤ} (h : Carries n x u) (hk : k ≤ n) : Carries k x u :=
  h.of_dvd (pow_dvd_pow 2 hk)

theorem Carries.congr {x : BitVec w} {u u' : ℤ} (h : Carries k x u) (he : u = u') :
    Carries k x u' := he ▸ h

theorem Carries.setWidth {x : BitVec w} {u : ℤ} (h : Carries k x u) (hk : k ≤ v) :
    Carries k (x.setWidth v) u := by
  rw [carries_iff_residue, residue_setWidth hk]
  exact h.residue_eq

theorem Carries.add {x y : BitVec w} {u u' : ℤ} (hx : Carries k x u) (hy : Carries k y u')
    (hk : k ≤ w) : Carries k (x + y) (u + u') := by
  rw [carries_iff_residue, residue_add hk, hx.residue_eq, hy.residue_eq, Int.cast_add]

theorem Carries.sub {x y : BitVec w} {u u' : ℤ} (hx : Carries k x u) (hy : Carries k y u')
    (hk : k ≤ w) : Carries k (x - y) (u - u') := by
  rw [carries_iff_residue, residue_sub hk, hx.residue_eq, hy.residue_eq, Int.cast_sub]

theorem Carries.neg {x : BitVec w} {u : ℤ} (hx : Carries k x u) (hk : k ≤ w) :
    Carries k (-x) (-u) := by
  rw [carries_iff_residue, residue_neg hk, hx.residue_eq, Int.cast_neg]

/-- Words of the width that is carried are equal when the integers agree. -/
theorem Carries.word_eq {x y : BitVec w} {u u' : ℤ} (hx : Carries w x u) (hy : Carries w y u')
    (h : u ≡ u' [ZMOD 2 ^ w]) : x = y := by
  have hxy : Carries w x y.toNat := Int.ModEq.trans hx (h.trans (Int.ModEq.symm hy))
  exact residue_injective (hxy.residue_eq.trans (Int.cast_natCast _))

theorem carries_ofNat (hk : k ≤ w) (a : ℕ) : Carries k (BitVec.ofNat w a) a := by
  rw [carries_iff_residue, residue_ofNat hk, Int.cast_natCast]

/-- A product with a constant gains the bits of the powers of two in it. -/
theorem Carries.const_mul {x : BitVec w} {u : ℤ} (hx : Carries k x u) (n a : ℕ)
    (hk : k + n ≤ w) : Carries (k + n) (BitVec.ofNat w (2 ^ n * a) * x) (2 ^ n * a * u) := by
  have h : (2 ^ n * (a * (x.toNat : ℤ))) ≡ 2 ^ n * (a * u) [ZMOD 2 ^ n * 2 ^ k] :=
    (hx.mul_left a).mul_left' (c := 2 ^ n)
  have he : (2 : ℤ) ^ n * 2 ^ k = ((2 ^ (k + n) : ℕ) : ℤ) := by push_cast; ring
  rw [he, ← ZMod.intCast_eq_intCast_iff] at h
  rw [carries_iff_residue, residue_mul hk, residue_ofNat hk, residue, mul_assoc, ← h]
  push_cast
  ring

/-- A left shift gains as many bits as it shifts. -/
theorem Carries.shiftLeft {x : BitVec w} {u : ℤ} (hx : Carries k x u) (n : ℕ) (hk : k + n ≤ w) :
    Carries (k + n) (x <<< n) (2 ^ n * u) := by
  have h := hx.const_mul n 1 hk
  rw [carries_iff_residue] at h ⊢
  rw [residue_shiftLeft hk]
  rw [residue_mul hk, residue_ofNat hk] at h
  simpa using h

/-- Flooring division by `2^n` keeps congruences, with `n` bits less. -/
theorem div_pow_modEq {a u : ℤ} (h : a ≡ u [ZMOD 2 ^ (k + n)]) :
    a / 2 ^ n ≡ u / 2 ^ n [ZMOD 2 ^ k] := by
  obtain ⟨t, ht⟩ := h.dvd
  have hp : (2 : ℤ) ^ n ≠ 0 := by positivity
  have hu : u = a + 2 ^ n * (2 ^ k * t) := by rw [pow_add] at ht; linarith
  rw [hu, Int.add_mul_ediv_left _ _ hp]
  exact Int.modEq_iff_dvd.mpr ⟨t, by ring⟩

/-- A logical right shift divides and loses as many bits as it shifts. -/
theorem Carries.ushiftRight_floor {x : BitVec w} {u : ℤ} (h : Carries (k + n) x u) :
    Carries k (x >>> n) (u / 2 ^ n) := by
  rw [Carries, BitVec.toNat_ushiftRight, Nat.shiftRight_eq_div_pow]
  push_cast
  exact div_pow_modEq h

theorem Carries.ushiftRight {x : BitVec w} {u : ℤ} (h : Carries (k + n) x (2 ^ n * u)) :
    Carries k (x >>> n) u :=
  h.ushiftRight_floor.congr (Int.mul_ediv_cancel_left _ (by positivity))

/-- Exact division by `2^n * a`: a product with the inverse of the odd factor and
a logical right shift. -/
theorem Carries.div_exact {x : BitVec w} {u : ℤ} (inv a : ℕ)
    (h : Carries (k + n) x (2 ^ n * (a * u))) (hk : k + n ≤ w)
    (hinv : inv * a ≡ 1 [MOD 2 ^ (k + n)]) : Carries k ((x * BitVec.ofNat w inv) >>> n) u := by
  refine Carries.ushiftRight ?_
  rw [← ZMod.natCast_eq_natCast_iff] at hinv
  rw [carries_iff_residue, residue_mul hk, residue_ofNat hk, h.residue_eq]
  push_cast at hinv ⊢
  linear_combination (2 ^ n * (u : ZMod (2 ^ (k + n)))) * hinv

/-- The signed value of a word has the same residues. -/
theorem carries_iff_toInt (hk : k ≤ w) (x : BitVec w) (u : ℤ) :
    Carries k x u ↔ x.toInt ≡ u [ZMOD 2 ^ k] := by
  have h : (x.toNat : ℤ) ≡ x.toInt [ZMOD 2 ^ k] := by
    have h1 : (x.toNat : ℤ) ≡ x.toInt [ZMOD 2 ^ w] := by
      rw [BitVec.toInt_eq_toNat_bmod]
      exact (Int.ModEq.symm (by
        have := Int.bmod_emod (x := (x.toNat : ℤ)) (m := 2 ^ w)
        rw [Int.ModEq]
        exact_mod_cast this))
    exact h1.of_dvd (pow_dvd_pow 2 hk)
  exact ⟨fun hu => h.symm.trans hu, fun hu => h.trans hu⟩

/-- Sign extension keeps the residues of the narrow word. -/
theorem Carries.signExtend {x : BitVec w} {u : ℤ} (h : Carries k x u) (hk : k ≤ w) (hv : w ≤ v) :
    Carries k (x.signExtend v) u := by
  rw [carries_iff_toInt (by omega), BitVec.toInt_signExtend_of_le hv]
  exact (carries_iff_toInt hk x u).mp h

/-- An arithmetic right shift of a signed word divides with flooring. -/
theorem Carries.sshiftRight_floor {x : BitVec w} {u : ℤ} (h : Carries (k + n) x u)
    (hk : k + n ≤ w) : Carries k (x.sshiftRight n) (u / 2 ^ n) := by
  rw [carries_iff_toInt (by omega), BitVec.toInt_sshiftRight, Int.shiftRight_eq_div_pow]
  rw [carries_iff_toInt hk] at h
  exact_mod_cast div_pow_modEq h

theorem Carries.sshiftRight {x : BitVec w} {u : ℤ} (h : Carries (k + n) x (2 ^ n * u))
    (hk : k + n ≤ w) : Carries k (x.sshiftRight n) u :=
  (h.sshiftRight_floor hk).congr (Int.mul_ediv_cancel_left _ (by positivity))

/-- The bits of a word that carries an integer are its binary digits. -/
theorem Carries.getLsbD {x : BitVec w} {u : ℤ} (h : Carries k x u) {s : ℕ} (hs : s < k) :
    x.getLsbD s = decide (u / 2 ^ s % 2 = 1) := by
  have hbit : Carries 1 (x >>> s) (u / 2 ^ s) := (h.mono (by omega)).ushiftRight_floor
  rw [Carries, BitVec.toNat_ushiftRight, Nat.shiftRight_eq_div_pow, Int.ModEq] at hbit
  rw [BitVec.getLsbD, Nat.testBit_eq_decide_div_mod_eq, decide_eq_decide]
  omega

/-- The low bits of a word that carries an integer. -/
theorem Carries.toNat_setWidth {x : BitVec w} {u : ℤ} (h : Carries k x u) :
    ((x.setWidth k).toNat : ℤ) = u % 2 ^ k := by
  rw [BitVec.toNat_setWidth]
  push_cast
  exact h

end Word
