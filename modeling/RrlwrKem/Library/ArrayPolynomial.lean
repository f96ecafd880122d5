import Mathlib

/-!
# Arrays as polynomials

A counted loop over an array is reasoned about through one invariant
(`fold_invariant`), and an array `v` through the element `eval φ z v`, the sum
of `φ (v.get i) * z^i`. A write changes that element by one monomial (`eval_set`), so
a loop that only adds into cells is a sum of monomials whatever the order and
the overlap of its writes. With `z = X` the entries are coefficients again.
-/

open Polynomial

namespace ArrayPolynomial

/-- The invariant rule of a counted loop. -/
theorem fold_invariant {α : Type*} {n : ℕ} {f : (i : ℕ) → i < n → α → α} {a : α}
    (P : ℕ → α → Prop) (h0 : P 0 a)
    (hstep : ∀ i (hi : i < n) s, P i s → P (i + 1) (f i hi s)) : P n (Nat.fold n f a) := by
  induction n with
  | zero => simpa using h0
  | succ n ih =>
    rw [Nat.fold_succ]
    exact hstep n (by omega) _ (ih fun i hi => hstep i (by omega))

/-- The invariant rule of a loop that counts down. -/
theorem foldRev_invariant {α : Type*} {n : ℕ} {f : (i : ℕ) → i < n → α → α} {a : α}
    (P : ℕ → α → Prop) (hn : P n a)
    (hstep : ∀ i (hi : i < n) s, P (i + 1) s → P i (f i hi s)) : P 0 (Nat.foldRev n f a) := by
  induction n generalizing a with
  | zero => simpa using hn
  | succ n ih =>
    rw [Nat.foldRev_succ]
    exact ih (hstep n (by omega) _ hn) fun i hi => hstep i (by omega)

/-- A loop that adds `Δ i` to an observed value in pass `i`, while `I` holds,
adds their sum. -/
theorem fold_sum {α M : Type*} [AddCommMonoid M] {n : ℕ} {f : (i : ℕ) → i < n → α → α} {a : α}
    (I : α → Prop) (F : α → M) (Δ : ℕ → M) (h0 : I a)
    (hstep : ∀ i (hi : i < n) s, I s → I (f i hi s) ∧ F (f i hi s) = F s + Δ i) :
    I (Nat.fold n f a) ∧ F (Nat.fold n f a) = F a + ∑ i ∈ Finset.range n, Δ i := by
  refine fold_invariant (fun i s => I s ∧ F s = F a + ∑ t ∈ Finset.range i, Δ t) ⟨h0, by simp⟩ ?_
  rintro i hi s ⟨hI, hF⟩
  obtain ⟨hI', hF'⟩ := hstep i hi s hI
  exact ⟨hI', by rw [hF', hF, Finset.sum_range_succ, add_assoc]⟩

section Fill

variable {α : Type*} {n m : ℕ} (idx : Fin n → Fin m) (v : Fin n → α)

/-- One pass stores in its own cell only. -/
theorem get_set_of_injective (hidx : Function.Injective idx) (y : Vector α m) (s i : Fin n) :
    (y.set (idx s) (v s) (idx s).isLt).get (idx i) = if s = i then v i else y.get (idx i) := by
  rw [Vector.get_eq_getElem, Vector.getElem_set]
  by_cases h : s = i
  · rw [if_pos h, h, if_pos rfl]
  · have hne : (idx s).val ≠ (idx i).val := fun hv => h (hidx (Fin.ext hv))
    rw [if_neg hne, if_neg h]
    rfl

/-- A loop that stores `v i` in cell `idx i`, where no two passes share a cell. What a
pass stores may be computed from the array, as long as it comes out as `v i`. -/
theorem fold_set_get (hidx : Function.Injective idx)
    {f : (i : ℕ) → i < n → Vector α m → Vector α m}
    (hf : ∀ i (hi : i < n) x, f i hi x = x.set (idx ⟨i, hi⟩) (v ⟨i, hi⟩) (idx ⟨i, hi⟩).isLt)
    (x : Vector α m) (i : Fin n) : (Nat.fold n f x).get (idx i) = v i := by
  refine fold_invariant (fun t (y : Vector α m) => ∀ i : Fin n, i.val < t →
    y.get (idx i) = v i) ?_ ?_ i i.isLt
  · intro i h0
    exact absurd h0 (Nat.not_lt_zero _)
  · intro t ht y h i hlt
    rw [hf, get_set_of_injective idx v hidx]
    by_cases he : ⟨t, ht⟩ = i
    · rw [if_pos he]
    · have hne : t ≠ i.val := fun hv => he (Fin.ext hv)
      rw [if_neg he]
      exact h i (by omega)

/-- The same for a loop that counts down. -/
theorem foldRev_set_get (hidx : Function.Injective idx)
    {f : (i : ℕ) → i < n → Vector α m → Vector α m}
    (hf : ∀ i (hi : i < n) x, f i hi x = x.set (idx ⟨i, hi⟩) (v ⟨i, hi⟩) (idx ⟨i, hi⟩).isLt)
    (x : Vector α m) (i : Fin n) : (Nat.foldRev n f x).get (idx i) = v i := by
  refine foldRev_invariant (fun t (y : Vector α m) => ∀ i : Fin n, t ≤ i.val →
    y.get (idx i) = v i) ?_ ?_ i (Nat.zero_le _)
  · intro i hn
    exact absurd i.isLt (Nat.not_lt.mpr hn)
  · intro t ht y h i hle
    rw [hf, get_set_of_injective idx v hidx]
    by_cases he : ⟨t, ht⟩ = i
    · rw [if_pos he]
    · have hne : t ≠ i.val := fun hv => he (Fin.ext hv)
      rw [if_neg he]
      exact h i (by omega)

/-- A loop that changes every cell in place. -/
theorem fold_set_map (h : α → α) (v : Vector α n) :
    Nat.fold n (fun i hi x => x.set i (h x[i])) v = v.map h := by
  obtain ⟨hdone, -⟩ := fold_invariant (n := n) (f := fun i hi (x : Vector α n) => x.set i (h x[i]))
    (a := v) (fun i x => (∀ j (hj : j < n), j < i → x[j] = h v[j]) ∧
      ∀ j (hj : j < n), i ≤ j → x[j] = v[j])
    ⟨fun j _ h0 => absurd h0 (Nat.not_lt_zero j), fun _ _ _ => rfl⟩ (by
      rintro i hi x ⟨hdone, htodo⟩
      refine ⟨fun j hj hlt => ?_, fun j hj hle => ?_⟩
      · rw [Vector.getElem_set]
        by_cases he : i = j
        · subst he
          rw [if_pos rfl, htodo i hi le_rfl]
        · rw [if_neg he]
          exact hdone j hj (by omega)
      · rw [Vector.getElem_set_ne _ _ (by omega)]
        exact htodo j hj (by omega))
  refine Vector.ext fun j hj => ?_
  rw [hdone j hj hj, Vector.getElem_map]

end Fill

section Eval

variable {α A : Type*} [CommRing A] {n : ℕ}

/-- The array read as a polynomial in `z`. -/
def eval (φ : α → A) (z : A) (v : Vector α n) : A := ∑ i : Fin n, φ (v.get i) * z ^ i.val

/-- One write changes the polynomial by one monomial. -/
theorem eval_set (φ : α → A) (z : A) (v : Vector α n) {i : ℕ} (hi : i < n) (x : α) :
    eval φ z (v.set i x hi) = eval φ z v + (φ x - φ v[i]) * z ^ i := by
  rw [← sub_eq_iff_eq_add', eval, eval, ← Finset.sum_sub_distrib,
    Finset.sum_eq_single (⟨i, hi⟩ : Fin n)]
  · simp [Vector.get_eq_getElem, sub_mul]
  · intro j _ hj
    have hne : i ≠ j.val := fun h => hj (Fin.ext h.symm)
    simp [Vector.get_eq_getElem, Vector.getElem_set_ne _ _ hne]
  · intro h
    exact absurd (Finset.mem_univ _) h

/-- Adding into a cell adds a monomial. -/
theorem eval_set_add [Add α] (φ : α → A) (hφ : ∀ x y, φ (x + y) = φ x + φ y) (z : A)
    (v : Vector α n) {i : ℕ} (hi : i < n) (x : α) :
    eval φ z (v.set i (v[i] + x) hi) = eval φ z v + φ x * z ^ i := by
  rw [eval_set, hφ, add_sub_cancel_left]

theorem eval_replicate_zero [Zero α] (φ : α → A) (hφ : φ 0 = 0) (z : A) :
    eval φ z (Vector.replicate n 0) = 0 := by
  simp [eval, Vector.get_eq_getElem, hφ]

theorem eval_ofFn (φ : α → A) (z : A) (f : Fin n → α) :
    eval φ z (Vector.ofFn f) = ∑ i, φ (f i) * z ^ i.val := by
  simp [eval, Vector.get_eq_getElem]

theorem map_eval {B : Type*} [CommRing B] (ψ : A →+* B) (φ : α → A) (z : A) (v : Vector α n) :
    ψ (eval φ z v) = eval (fun x => ψ (φ x)) (ψ z) v := by
  simp [eval, map_sum, map_mul, map_pow]

theorem block_lt {m k : ℕ} (hn : n = m * k) (s : Fin k) (j : Fin m) :
    m * s.val + j.val < n := by
  have h := Nat.mul_le_mul_left m (Nat.succ_le_of_lt s.isLt)
  rw [Nat.mul_succ] at h
  omega

/-- Block `s` of an array that is cut into `k` blocks of length `m`. -/
def blockEval {m k : ℕ} (hn : n = m * k) (φ : α → A) (z : A) (v : Vector α n) (s : Fin k) : A :=
  ∑ j : Fin m, φ (v.get ⟨m * s.val + j.val, block_lt hn s j⟩) * z ^ j.val

/-- Blocks of an array are the digits of its polynomial in `z^m`. -/
theorem eval_split {m k : ℕ} (hn : n = m * k) (φ : α → A) (z : A) (v : Vector α n) :
    eval φ z v = ∑ s : Fin k, z ^ (m * s.val) * blockEval hn φ z v s := by
  subst hn
  rw [eval, ← (finProdFinEquiv (m := k) (n := m)).trans (finCongr (Nat.mul_comm k m)) |>.sum_comp,
    Fintype.sum_prod_type]
  refine Finset.sum_congr rfl fun s _ => ?_
  rw [blockEval, Finset.mul_sum]
  refine Finset.sum_congr rfl fun j _ => ?_
  have he : ((finProdFinEquiv (m := k) (n := m)).trans (finCongr (Nat.mul_comm k m)) (s, j)).val =
      m * s.val + j.val := Nat.add_comm _ _
  simp only [Vector.get_eq_getElem, he, pow_add]
  change _ = z ^ (m * s.val) * (φ (v[m * s.val + j.val]) * z ^ j.val)
  ring

end Eval

section Coefficients

variable {α R : Type*} [CommRing R] {n : ℕ}

/-- The array read as a polynomial over `R`. -/
noncomputable def toPoly (ψ : α → R) (v : Vector α n) : R[X] := eval (fun x => C (ψ x)) X v

theorem toPoly_coeff (ψ : α → R) (v : Vector α n) {i : ℕ} (hi : i < n) :
    (toPoly ψ v).coeff i = ψ v[i] := by
  rw [toPoly, eval, finsetSum_coeff, Finset.sum_eq_single (⟨i, hi⟩ : Fin n)]
  · simp [Vector.get_eq_getElem]
  · intro j _ hj
    rw [coeff_C_mul_X_pow, if_neg (fun h => hj (Fin.ext h.symm))]
  · intro h
    exact absurd (Finset.mem_univ _) h

theorem toPoly_natDegree_lt (ψ : α → R) (v : Vector α n) (hn : 0 < n) :
    (toPoly ψ v).natDegree < n := by
  rw [Nat.lt_iff_le_pred hn, toPoly, eval]
  refine natDegree_sum_le_of_forall_le _ _ fun i _ => ?_
  exact (natDegree_C_mul_X_pow_le _ _).trans (by omega)

theorem blockEval_natDegree_lt {m k : ℕ} (hn : n = m * k) (hm : 0 < m) (ψ : α → R)
    (v : Vector α n) (s : Fin k) : (blockEval hn (fun x => C (ψ x)) X v s).natDegree < m := by
  rw [Nat.lt_iff_le_pred hm, blockEval]
  refine natDegree_sum_le_of_forall_le _ _ fun i _ => ?_
  exact (natDegree_C_mul_X_pow_le _ _).trans (by omega)

theorem blockEval_coeff {m k : ℕ} (hn : n = m * k) (ψ : α → R) (v : Vector α n) (s : Fin k)
    (i : Fin m) : (blockEval hn (fun x => C (ψ x)) X v s).coeff i.val =
      ψ (v.get ⟨m * s.val + i.val, block_lt hn s i⟩) := by
  rw [blockEval, finsetSum_coeff, Finset.sum_eq_single i]
  · simp
  · intro j _ hj
    rw [coeff_C_mul_X_pow, if_neg (fun h => hj (Fin.ext h.symm))]
  · intro h
    exact absurd (Finset.mem_univ _) h

/-- An array whose entries combine the blocks of another with fixed factors. -/
theorem toPoly_ofFn_blocks {m k : ℕ} (hn : n = m * k) (ψ : α → R) (v : Vector α n)
    (f : Fin m → α) (e : Fin k → R)
    (hf : ∀ j, ψ (f j) = ∑ s, e s * ψ (v.get ⟨m * s.val + j.val, block_lt hn s j⟩)) :
    toPoly ψ (Vector.ofFn f) = ∑ s, C (e s) * blockEval hn (fun x => C (ψ x)) X v s := by
  simp only [toPoly, eval_ofFn, blockEval, Finset.mul_sum]
  rw [Finset.sum_comm]
  refine Finset.sum_congr rfl fun j _ => ?_
  rw [hf j, map_sum, Finset.sum_mul]
  exact Finset.sum_congr rfl fun s _ => by rw [C_mul]; ring

/-- A coefficient of a product is a convolution of the entries. -/
theorem toPoly_mul_coeff (ψ : α → R) (v w : Vector α n) (t : ℕ) :
    (toPoly ψ v * toPoly ψ w).coeff t = ∑ i : Fin n, ∑ j : Fin n,
      if i.val + j.val = t then ψ (v.get i) * ψ (w.get j) else 0 := by
  rw [toPoly, toPoly, ArrayPolynomial.eval, ArrayPolynomial.eval, Finset.sum_mul_sum]
  simp only [finsetSum_coeff]
  refine Finset.sum_congr rfl fun i _ => Finset.sum_congr rfl fun j _ => ?_
  have hmul : (C (ψ (v.get i)) * X ^ i.val * (C (ψ (w.get j)) * X ^ j.val) : R[X]) =
      C (ψ (v.get i) * ψ (w.get j)) * X ^ (i.val + j.val) := by
    rw [C_mul, pow_add]
    ring
  rw [hmul, coeff_C_mul_X_pow]
  simp only [eq_comm]

/-- Evaluating the polynomial of an array. -/
theorem eval₂_toPoly {A : Type*} [CommRing A] (ψ : α → R) (φ : R →+* A) (z : A)
    (v : Vector α n) : (toPoly ψ v).eval₂ φ z = eval (fun x => φ (ψ x)) z v := by
  rw [toPoly, ← coe_eval₂RingHom, map_eval]
  simp

/-- The low part of a polynomial in two blocks. -/
theorem coeff_low {P Q : R[X]} {m t : ℕ} (ht : t < m) : (P + X ^ m * Q).coeff t = P.coeff t := by
  rw [coeff_add, coeff_X_pow_mul', if_neg (by omega), add_zero]

/-- The high part of a polynomial in two blocks. -/
theorem coeff_high {P Q : R[X]} {m t : ℕ} (hP : P.natDegree < m) :
    (P + X ^ m * Q).coeff (t + m) = Q.coeff t := by
  rw [coeff_add, coeff_eq_zero_of_natDegree_lt (by omega), zero_add, coeff_X_pow_mul]

/-- A polynomial is the sum of its monomials below any bound on its degree. -/
theorem sum_monomials {P : R[X]} {m : ℕ} (hP : P.natDegree < m) :
    ∑ t ∈ Finset.range m, C (P.coeff t) * X ^ t = P :=
  (as_sum_range_C_mul_X_pow' P hP).symm

/-- A product written out over all pairs of coefficients. -/
theorem mul_eq_sum_monomials {P Q : R[X]} {m : ℕ} (hP : P.natDegree < m) (hQ : Q.natDegree < m) :
    ∑ i ∈ Finset.range m, ∑ j ∈ Finset.range m, C (P.coeff i * Q.coeff j) * X ^ (i + j) =
      P * Q := by
  conv_rhs => rw [← sum_monomials hP, ← sum_monomials hQ, Finset.sum_mul_sum]
  refine Finset.sum_congr rfl fun i _ => Finset.sum_congr rfl fun j _ => ?_
  rw [C_mul, pow_add]
  ring

end Coefficients

end ArrayPolynomial
