import Mathlib.RingTheory.AdjoinRoot
import Mathlib.Tactic

/-!
# Quotients of a polynomial ring by a binomial

For a commutative ring `A`, a constant `c` and a length `m`, elements of
`A[z]/(z^m - c)` are written by their `m` coefficients. `ofCoeffs` and `coeff`
pass between the two, `mulCoeffs` is the wrapped convolution that multiplies
coefficient vectors, and `map` changes the coefficient ring. The negacyclic
rings (`c = -1`) and towers of such quotients are instances.
-/

open Polynomial

namespace BinomialQuotient

variable {A B : Type*} [CommRing A] [CommRing B] {c : A} {d : B} {m : ℕ}

/-- The ring `A[z]/(z^m - c)`. -/
abbrev Quotient (c : A) (m : ℕ) : Type _ := AdjoinRoot (X ^ m - C c : A[X])

/-- The constants of the quotient. -/
noncomputable def scalar (c : A) (m : ℕ) : A →+* Quotient c m := AdjoinRoot.of _

/-- The class of the variable. -/
noncomputable def gen (c : A) (m : ℕ) : Quotient c m := AdjoinRoot.root _

/-- The defining relation of the quotient. -/
theorem gen_pow (c : A) (m : ℕ) : gen c m ^ m = scalar c m c := by
  have h := AdjoinRoot.eval₂_root (X ^ m - C c : A[X])
  rw [eval₂_sub, eval₂_pow, eval₂_X, eval₂_C] at h
  exact sub_eq_zero.mp h

/-- The element with the given coefficients. -/
noncomputable def ofCoeffs (c : A) (f : Fin m → A) : Quotient c m :=
  ∑ i, scalar c m (f i) * gen c m ^ i.val

theorem ofCoeffs_add (f g : Fin m → A) :
    ofCoeffs c (fun i => f i + g i) = ofCoeffs c f + ofCoeffs c g := by
  simp only [ofCoeffs, map_add, add_mul, Finset.sum_add_distrib]

theorem ofCoeffs_sub (f g : Fin m → A) :
    ofCoeffs c (fun i => f i - g i) = ofCoeffs c f - ofCoeffs c g := by
  simp only [ofCoeffs, map_sub, sub_mul, Finset.sum_sub_distrib]

theorem ofCoeffs_mul_left (a : A) (f : Fin m → A) :
    ofCoeffs c (fun i => a * f i) = scalar c m a * ofCoeffs c f := by
  simp only [ofCoeffs, map_mul, Finset.mul_sum, mul_assoc]

/-- The representative polynomial of a coefficient vector. -/
theorem ofCoeffs_eq_mk (f : Fin m → A) :
    ofCoeffs c f = AdjoinRoot.mk (X ^ m - C c) (∑ i, C (f i) * X ^ i.val) := by
  rw [map_sum]
  refine Finset.sum_congr rfl fun i _ => ?_
  rw [map_mul, map_pow, AdjoinRoot.mk_C, AdjoinRoot.mk_X]
  rfl

section Coefficients

variable [NeZero m]

/-- The coefficients of the reduced representative. -/
noncomputable def coeff (x : Quotient c m) (i : Fin m) : A :=
  (AdjoinRoot.modByMonicHom (monic_X_pow_sub_C c (NeZero.ne m)) x).coeff i

theorem coeff_add (x y : Quotient c m) (i : Fin m) : coeff (x + y) i = coeff x i + coeff y i := by
  simp [coeff]

theorem coeff_sub (x y : Quotient c m) (i : Fin m) : coeff (x - y) i = coeff x i - coeff y i := by
  simp [coeff]

omit [NeZero m] in
private theorem degree_sum_lt (f : Fin m → A) :
    (∑ i, C (f i) * X ^ i.val).degree < (m : WithBot ℕ) := by
  refine (degree_lt_iff_coeff_zero _ m).mpr fun k hk => ?_
  rw [finsetSum_coeff]
  refine Finset.sum_eq_zero fun i _ => ?_
  rw [coeff_C_mul_X_pow, if_neg (by omega)]

/-- A coefficient vector is read back from its element. -/
theorem coeff_ofCoeffs (f : Fin m → A) : coeff (ofCoeffs c f) = f := by
  nontriviality A
  funext k
  have hdeg : (∑ i, C (f i) * X ^ i.val).degree < (X ^ m - C c : A[X]).degree := by
    rw [degree_X_pow_sub_C (NeZero.pos m)]
    exact degree_sum_lt f
  rw [coeff, ofCoeffs_eq_mk, AdjoinRoot.modByMonicHom_mk,
    (modByMonic_eq_self_iff (monic_X_pow_sub_C c (NeZero.ne m))).mpr hdeg, finsetSum_coeff]
  rw [Finset.sum_eq_single k]
  · rw [coeff_C_mul_X_pow, if_pos rfl]
  · intro i _ hik
    rw [coeff_C_mul_X_pow, if_neg (fun h => hik (Fin.ext h.symm))]
  · intro h
    exact absurd (Finset.mem_univ k) h

/-- Every element is determined by its coefficients. -/
theorem ofCoeffs_coeff (x : Quotient c m) : ofCoeffs c (coeff x) = x := by
  rcases subsingleton_or_nontrivial A with hA | hA
  · exact (AdjoinRoot.mk_surjective.subsingleton).elim _ _
  have hmonic := monic_X_pow_sub_C c (NeZero.ne m)
  have hx := AdjoinRoot.mk_leftInverse hmonic x
  have hdeg : (AdjoinRoot.modByMonicHom hmonic x).natDegree < m := by
    obtain ⟨p, rfl⟩ := AdjoinRoot.mk_surjective x
    rw [AdjoinRoot.modByMonicHom_mk]
    have h := natDegree_modByMonic_lt p hmonic (by
      intro h1
      have := congrArg natDegree h1
      rw [natDegree_X_pow_sub_C, natDegree_one] at this
      exact NeZero.ne m this)
    rwa [natDegree_X_pow_sub_C] at h
  conv_rhs => rw [← hx, as_sum_range' _ m hdeg]
  rw [ofCoeffs_eq_mk, Finset.sum_range]
  simp only [coeff, C_mul_X_pow_eq_monomial]

theorem coeff_scalar_mul (a : A) (x : Quotient c m) (i : Fin m) :
    coeff (scalar c m a * x) i = a * coeff x i := by
  conv_lhs => rw [← ofCoeffs_coeff x, ← ofCoeffs_mul_left, coeff_ofCoeffs]

theorem coeff_natCast_mul (n : ℕ) (x : Quotient c m) (i : Fin m) :
    coeff ((n : Quotient c m) * x) i = (n : A) * coeff x i := by
  rw [← map_natCast (scalar c m), coeff_scalar_mul]

theorem ofCoeffs_injective : Function.Injective (ofCoeffs c : (Fin m → A) → Quotient c m) :=
  Function.LeftInverse.injective coeff_ofCoeffs

end Coefficients

section Product

/-- The wrapped convolution: `f i * g j` goes to place `i + j`, and to place
`i + j - m` with the factor `c` once `i + j` reaches `m`. -/
def mulCoeffs (c : A) (f g : Fin m → A) (k : Fin m) : A :=
  ∑ i : Fin m, ∑ j : Fin m,
    if i.val + j.val = k.val then f i * g j
    else if i.val + j.val = k.val + m then c * (f i * g j) else 0

/-- One product of two coefficients lands in exactly one place. -/
theorem sum_wrapped_term (a : A) (i j : Fin m) :
    ∑ k : Fin m, scalar c m (if i.val + j.val = k.val then a
      else if i.val + j.val = k.val + m then c * a else 0) * gen c m ^ k.val =
      scalar c m a * gen c m ^ (i.val + j.val) := by
  by_cases h : i.val + j.val < m
  · rw [Finset.sum_eq_single ⟨i.val + j.val, h⟩]
    · simp
    · intro k _ hk
      have h1 : ¬ i.val + j.val = k.val := fun he => hk (Fin.ext he.symm)
      have h2 : ¬ i.val + j.val = k.val + m := by omega
      simp [h1, h2]
    · intro hn
      exact absurd (Finset.mem_univ _) hn
  · have hlt : i.val + j.val - m < m := by omega
    rw [Finset.sum_eq_single ⟨i.val + j.val - m, hlt⟩]
    · have h1 : ¬ i.val + j.val = i.val + j.val - m := by omega
      have h2 : i.val + j.val = i.val + j.val - m + m := by omega
      rw [if_neg h1, if_pos h2, map_mul]
      conv_rhs => rw [h2, pow_add, gen_pow]
      ring
    · intro k _ hk
      have h1 : ¬ i.val + j.val = k.val := by omega
      have h2 : ¬ i.val + j.val = k.val + m := fun he => hk (Fin.ext (by simp; omega))
      simp [h1, h2]
    · intro hn
      exact absurd (Finset.mem_univ _) hn

/-- The wrapped convolution is the multiplication of the quotient. -/
theorem ofCoeffs_mulCoeffs (f g : Fin m → A) :
    ofCoeffs c (mulCoeffs c f g) = ofCoeffs c f * ofCoeffs c g := by
  have hswap : ofCoeffs c (mulCoeffs c f g) = ∑ i : Fin m, ∑ j : Fin m, ∑ k : Fin m,
      scalar c m (if i.val + j.val = k.val then f i * g j
        else if i.val + j.val = k.val + m then c * (f i * g j) else 0) * gen c m ^ k.val := by
    simp only [ofCoeffs, mulCoeffs, map_sum, Finset.sum_mul]
    rw [Finset.sum_comm]
    exact Finset.sum_congr rfl fun i _ => Finset.sum_comm
  rw [hswap, ofCoeffs, ofCoeffs, Finset.sum_mul_sum]
  refine Finset.sum_congr rfl fun i _ => Finset.sum_congr rfl fun j _ => ?_
  rw [sum_wrapped_term, map_mul, pow_add]
  ring

theorem coeff_mul [NeZero m] (f g : Fin m → A) :
    coeff (ofCoeffs c f * ofCoeffs c g) = mulCoeffs c f g := by
  rw [← ofCoeffs_mulCoeffs, coeff_ofCoeffs]

/-- The wrapped convolution by its second factor: each `g j` meets one coefficient
of `f`, and the ones that wrap around carry the factor `c`. -/
theorem mulCoeffs_eq_sum (f g : Fin m → A) (k : Fin m) :
    mulCoeffs c f g k = ∑ j : Fin m, if j.val ≤ k.val then f ⟨k.val - j.val, by omega⟩ * g j
      else c * (f ⟨(k.val + m - j.val) % m, Nat.mod_lt _ (by have := k.isLt; omega)⟩ * g j) := by
  rw [mulCoeffs, Finset.sum_comm]
  refine Finset.sum_congr rfl fun j _ => ?_
  by_cases h : j.val ≤ k.val
  · rw [if_pos h, Finset.sum_eq_single ⟨k.val - j.val, by omega⟩]
    · rw [if_pos (by simp only; omega)]
    · intro i _ hi
      have h1 : ¬ i.val + j.val = k.val := fun he => hi (Fin.ext (by simp only; omega))
      have h2 : ¬ i.val + j.val = k.val + m := by omega
      rw [if_neg h1, if_neg h2]
    · intro hn
      exact absurd (Finset.mem_univ _) hn
  · have hmod : (k.val + m - j.val) % m = k.val + m - j.val := Nat.mod_eq_of_lt (by omega)
    rw [if_neg h, Finset.sum_eq_single ⟨(k.val + m - j.val) % m, by omega⟩]
    · rw [if_neg (by simp only; omega), if_pos (by simp only; omega)]
    · intro i _ hi
      have h1 : ¬ i.val + j.val = k.val := by omega
      have h2 : ¬ i.val + j.val = k.val + m := fun he => hi (Fin.ext (by simp only; omega))
      rw [if_neg h1, if_neg h2]
    · intro hn
      exact absurd (Finset.mem_univ _) hn

/-- A coefficient of a product whose second factor has only two coefficients. -/
theorem coeff_mul_of_two [NeZero m] (x y : Quotient c m)
    (hy : ∀ j : Fin m, 2 ≤ j.val → coeff y j = 0) (k : Fin m) (hk : 1 ≤ k.val) :
    coeff (x * y) k = coeff x k * coeff y 0 + coeff x ⟨k.val - 1, by omega⟩ *
      coeff y ⟨1, by omega⟩ := by
  have hm : 1 < m := by omega
  have hzero : (0 : Fin m).val = 0 := rfl
  conv_lhs => rw [← ofCoeffs_coeff x, ← ofCoeffs_coeff y, coeff_mul, mulCoeffs_eq_sum]
  rw [Finset.sum_eq_add (0 : Fin m) ⟨1, hm⟩]
  · rw [if_pos (hzero ▸ Nat.zero_le _), if_pos hk]
    simp only [hzero, Nat.sub_zero]
  · intro h
    exact absurd (congrArg Fin.val h) Nat.zero_ne_one
  · rintro j - ⟨h0, h1⟩
    have hj : 2 ≤ j.val := by
      have h0' : j.val ≠ 0 := fun h => h0 (Fin.ext h)
      have h1' : j.val ≠ 1 := fun h => h1 (Fin.ext h)
      omega
    simp only [hy j hj, mul_zero, ite_self]
  · intro h
    exact absurd (Finset.mem_univ _) h
  · intro h
    exact absurd (Finset.mem_univ _) h

/-- The square of the sum of all powers, in the negacyclic ring. -/
theorem coeff_ones_sq [NeZero m] (k : Fin m) :
    coeff (ofCoeffs (-1 : A) (fun _ : Fin m => 1) * ofCoeffs (-1) fun _ => 1) k =
      2 * ((k.val : A) + 1) - (m : A) := by
  have hterm : ∀ j : Fin m, (if j.val ≤ k.val then (1 * 1 : A) else -1 * (1 * 1)) =
      2 * (if j ≤ k then 1 else 0) - 1 := by
    intro j
    by_cases h : j.val ≤ k.val
    · rw [if_pos h, if_pos (Fin.le_def.mpr h)]
      ring
    · rw [if_neg h, if_neg (fun hle => h (Fin.le_def.mp hle))]
      ring
  rw [coeff_mul, mulCoeffs_eq_sum, Finset.sum_congr rfl fun j _ => hterm j,
    Finset.sum_sub_distrib, ← Finset.mul_sum, Finset.sum_boole, Finset.filter_ge_eq_Iic,
    Fin.card_Iic, Finset.sum_const, Finset.card_univ, Fintype.card_fin, nsmul_one, Nat.cast_succ]

theorem ofCoeffs_one (hm : 0 < m) :
    ofCoeffs c (fun i : Fin m => if i.val = 0 then 1 else 0) = 1 := by
  rw [ofCoeffs, Finset.sum_eq_single ⟨0, hm⟩]
  · rw [if_pos rfl, map_one, pow_zero, one_mul]
  · intro i _ hi
    rw [if_neg fun h => hi (Fin.ext h), map_zero, zero_mul]
  · intro h
    exact absurd (Finset.mem_univ _) h

/-- Multiplication by the variable shifts the coefficients and wraps the last one. -/
theorem gen_mul_ofCoeffs (hm : 0 < m) (f : Fin m → A) :
    gen c m * ofCoeffs c f = ofCoeffs c fun i : Fin m =>
      if i.val = 0 then c * f ⟨m - 1, by omega⟩ else f ⟨i.val - 1, by omega⟩ := by
  obtain ⟨n, rfl⟩ : ∃ n, m = n + 1 := ⟨m - 1, by omega⟩
  rw [ofCoeffs, ofCoeffs, Fin.sum_univ_castSucc, Fin.sum_univ_succ, mul_add, Finset.mul_sum]
  refine (add_comm _ _).trans (congrArg₂ (· + ·) ?_ (Finset.sum_congr rfl fun i _ => ?_))
  · simp only [Fin.val_zero, if_pos, map_mul, ← gen_pow c (n + 1), pow_zero, Fin.val_last]
    change gen c (n + 1) * (scalar c (n + 1) (f (Fin.last n)) * _) =
      _ * scalar c (n + 1) (f (Fin.last n)) * 1
    ring
  · rw [if_neg (by simp)]
    change gen c (n + 1) * (scalar c (n + 1) (f i.castSucc) * gen c (n + 1) ^ i.val) =
      scalar c (n + 1) (f i.castSucc) * gen c (n + 1) ^ (i.val + 1)
    ring

end Product

section Map

/-- Change of coefficients along a ring homomorphism that carries `c` to `d`. -/
noncomputable def map (φ : A →+* B) (h : φ c = d) (m : ℕ) : Quotient c m →+* Quotient d m :=
  AdjoinRoot.lift ((scalar d m).comp φ) (gen d m) (by
    rw [eval₂_sub, eval₂_pow, eval₂_X, eval₂_C, gen_pow, RingHom.comp_apply, h, sub_self])

theorem map_scalar (φ : A →+* B) (h : φ c = d) (a : A) :
    map φ h m (scalar c m a) = scalar d m (φ a) :=
  AdjoinRoot.lift_of _

theorem map_gen (φ : A →+* B) (h : φ c = d) : map φ h m (gen c m) = gen d m :=
  AdjoinRoot.lift_root _

theorem map_ofCoeffs (φ : A →+* B) (h : φ c = d) (f : Fin m → A) :
    map φ h m (ofCoeffs c f) = ofCoeffs d (fun i => φ (f i)) := by
  simp only [ofCoeffs, map_sum, map_mul, map_pow, map_scalar, map_gen]

theorem coeff_map [NeZero m] (φ : A →+* B) (h : φ c = d) (x : Quotient c m) (i : Fin m) :
    coeff (map φ h m x) i = φ (coeff x i) := by
  conv_lhs => rw [← ofCoeffs_coeff x, map_ofCoeffs, coeff_ofCoeffs]

end Map

end BinomialQuotient
