import RrlwrKem.Library.ArrayPolynomial
import RrlwrKem.Library.Checked
import RrlwrKem.Library.Residue
import RrlwrKem.Parameters

/-!
# `karatsuba32_simple_u16`

The two-level Karatsuba product of two blocks of 32 words. Every pass of the C
function adds into cells, so its arrays are followed as polynomials over
`ZMod (2^16)`: the double loop leaves the nine partial products in overlapping
windows, and the correction passes turn them into the full product. A second
reading of the function, with every access checked, shows that no index leaves its
array.
-/

open Polynomial

namespace RrlwrKem

open ArrayPolynomial Word

/-- The arrays of `karatsuba32_simple_u16`. -/
structure KaratsubaState where
  out : Vector U16 63
  d01 : Vector U16 15
  d0123 : Vector U16 15
  d23 : Vector U16 15
  resultD01 : Vector U16 31

/-- The five `memset` calls. -/
def KaratsubaState.zero : KaratsubaState where
  out := Vector.replicate 63 0
  d01 := Vector.replicate 15 0
  d0123 := Vector.replicate 15 0
  d23 := Vector.replicate 15 0
  resultD01 := Vector.replicate 31 0

def karatsubaInner (a b : Vector U16 32) (i : ℕ) (hi : i < 8) (j : ℕ) (hj : j < 8)
    (s : KaratsubaState) : KaratsubaState :=
  let a0 := a[i]
  let a1 := a[i + 8]
  let a2 := a[i + 16]
  let a3 := a[i + 24]
  let b0 := b[j]
  let b1 := b[j + 8]
  let b2 := b[j + 16]
  let b3 := b[j + 24]
  let b01 := b0 + b1
  let a01 := a0 + a1
  let b23 := b2 + b3
  let a23 := a2 + a3
  let b02 := b0 + b2
  let a02 := a0 + a2
  let b13 := b1 + b3
  let a13 := a1 + a3
  let out := s.out.set (i + j) (s.out[i + j] + a0 * b0)
  let out := out.set (i + j + 16) (out[i + j + 16] + a1 * b1)
  let out := out.set (i + j + 32) (out[i + j + 32] + a2 * b2)
  let out := out.set (i + j + 48) (out[i + j + 48] + a3 * b3)
  let d01 := s.d01.set (i + j) (s.d01[i + j] + a01 * b01)
  let d23 := s.d23.set (i + j) (s.d23[i + j] + a23 * b23)
  let resultD01 := s.resultD01.set (i + j) (s.resultD01[i + j] + a02 * b02)
  let resultD01 := resultD01.set (i + j + 16) (resultD01[i + j + 16] + a13 * b13)
  let d0123 := s.d0123.set (i + j) (s.d0123[i + j] + (a02 + a13) * (b02 + b13))
  { out, d01, d0123, d23, resultD01 }

def karatsubaProducts (a b : Vector U16 32) : KaratsubaState :=
  Nat.fold 8 (fun i hi s => Nat.fold 8 (fun j hj s => karatsubaInner a b i hi j hj s) s) .zero

def karatsubaSubtractStep (i : ℕ) (hi : i < 15) (s : KaratsubaState) : KaratsubaState :=
  { s with
    d0123 := s.d0123.set i (s.d0123[i] - s.resultD01[i] - s.resultD01[i + 16])
    d01 := s.d01.set i (s.d01[i] - s.out[i] - s.out[i + 16])
    d23 := s.d23.set i (s.d23[i] - s.out[i + 32] - s.out[i + 48]) }

def karatsubaMergeStep (i : ℕ) (hi : i < 15) (s : KaratsubaState) : KaratsubaState :=
  let resultD01 := s.resultD01.set (i + 8) (s.resultD01[i + 8] + s.d0123[i])
  let out := s.out.set (i + 8) (s.out[i + 8] + s.d01[i])
  let out := out.set (i + 40) (out[i + 40] + s.d23[i])
  { s with resultD01, out }

def karatsubaCrossStep (i : ℕ) (hi : i < 31) (s : KaratsubaState) : KaratsubaState :=
  { s with resultD01 := s.resultD01.set i (s.resultD01[i] - s.out[i] - s.out[i + 32]) }

def karatsubaFinishStep (i : ℕ) (hi : i < 31) (s : KaratsubaState) : KaratsubaState :=
  { s with out := s.out.set (i + 16) (s.out[i + 16] + s.resultD01[i]) }

def karatsuba32SimpleU16 (a b : Vector U16 32) : Vector U16 63 :=
  let s := karatsubaProducts a b
  let s := Nat.fold 15 karatsubaSubtractStep s
  let s := Nat.fold 15 karatsubaMergeStep s
  let s := Nat.fold 31 karatsubaCrossStep s
  let s := Nat.fold 31 karatsubaFinishStep s
  s.out

/-- The array of words as a polynomial over `ZMod (2^16)`. -/
noncomputable abbrev wordPoly {n : ℕ} (v : Vector U16 n) : (ZMod (2 ^ 16))[X] :=
  toPoly (residue 16) v

theorem wordPoly_set_add {n : ℕ} (v : Vector U16 n) {i : ℕ} (hi : i < n) (x : U16) :
    wordPoly (v.set i (v[i] + x) hi) = wordPoly v + C (residue 16 x) * X ^ i :=
  eval_set_add _ (fun x y => by simp) X v hi x

theorem wordPoly_set_sub_sub {n : ℕ} (v : Vector U16 n) {i : ℕ} (hi : i < n) (x y : U16) :
    wordPoly (v.set i (v[i] - x - y) hi) =
      wordPoly v - C (residue 16 x + residue 16 y) * X ^ i := by
  have he : v[i] - x - y = v[i] + (-x - y) := by ring
  rw [he, wordPoly_set_add]
  simp
  ring

theorem wordPoly_replicate_zero (n : ℕ) : wordPoly (Vector.replicate n 0) = 0 :=
  eval_replicate_zero _ (by simp) X

/-- Block `s` of eight words. -/
noncomputable def block8 (a : Vector U16 32) (s : Fin 4) : (ZMod (2 ^ 16))[X] :=
  blockEval (m := 8) rfl (fun x => C (residue 16 x)) X a s

theorem wordPoly_eq_blocks (a : Vector U16 32) :
    wordPoly a = block8 a 0 + X ^ 8 * block8 a 1 + X ^ 16 * block8 a 2 + X ^ 24 * block8 a 3 := by
  rw [wordPoly, toPoly, eval_split (m := 8) (k := 4) rfl, Fin.sum_univ_four]
  simp [block8]

theorem block8_natDegree_lt (a : Vector U16 32) (s : Fin 4) : (block8 a s).natDegree < 8 :=
  blockEval_natDegree_lt _ (by decide) _ a s

theorem residue_eq_block8_coeff (a : Vector U16 32) (s : Fin 4) {i : ℕ} (hi : i < 8)
    (h : i + 8 * s.val < 32) : residue 16 a[i + 8 * s.val] = (block8 a s).coeff i := by
  have he := blockEval_coeff (m := 8) (k := 4) rfl (residue 16) a s ⟨i, hi⟩
  rw [block8, he]
  congr 1
  change _ = a[8 * s.val + i]
  congr 1
  omega

/-- The five arrays as polynomials. -/
noncomputable def KaratsubaState.polys (s : KaratsubaState) :
    (ZMod (2 ^ 16))[X] × (ZMod (2 ^ 16))[X] × (ZMod (2 ^ 16))[X] × (ZMod (2 ^ 16))[X] ×
      (ZMod (2 ^ 16))[X] :=
  (wordPoly s.out, wordPoly s.d01, wordPoly s.d0123, wordPoly s.d23, wordPoly s.resultD01)

/-- What pass `(i, j)` of the double loop adds to the five polynomials. -/
noncomputable def innerTerms (A B : Fin 4 → (ZMod (2 ^ 16))[X]) (i j : ℕ) :
    (ZMod (2 ^ 16))[X] × (ZMod (2 ^ 16))[X] × (ZMod (2 ^ 16))[X] × (ZMod (2 ^ 16))[X] ×
      (ZMod (2 ^ 16))[X] :=
  let term := fun P Q : (ZMod (2 ^ 16))[X] => C (P.coeff i * Q.coeff j) * X ^ (i + j)
  (term (A 0) (B 0) + X ^ 16 * term (A 1) (B 1) + X ^ 32 * term (A 2) (B 2) +
      X ^ 48 * term (A 3) (B 3),
    term (A 0 + A 1) (B 0 + B 1),
    term (A 0 + A 2 + (A 1 + A 3)) (B 0 + B 2 + (B 1 + B 3)),
    term (A 2 + A 3) (B 2 + B 3),
    term (A 0 + A 2) (B 0 + B 2) + X ^ 16 * term (A 1 + A 3) (B 1 + B 3))

theorem karatsubaInner_polys (a b : Vector U16 32) (i : ℕ) (hi : i < 8) (j : ℕ) (hj : j < 8)
    (s : KaratsubaState) : (karatsubaInner a b i hi j hj s).polys =
      s.polys + innerTerms (block8 a) (block8 b) i j := by
  let A := fun u : Fin 4 => (block8 a u).coeff i
  let B := fun u : Fin 4 => (block8 b u).coeff j
  have hA0 : residue 16 a[i] = A 0 := residue_eq_block8_coeff a 0 hi (by omega)
  have hA1 : residue 16 a[i + 8] = A 1 := residue_eq_block8_coeff a 1 hi (by simp; omega)
  have hA2 : residue 16 a[i + 16] = A 2 := residue_eq_block8_coeff a 2 hi (by simp; omega)
  have hA3 : residue 16 a[i + 24] = A 3 := residue_eq_block8_coeff a 3 hi (by simp; omega)
  have hB0 : residue 16 b[j] = B 0 := residue_eq_block8_coeff b 0 hj (by omega)
  have hB1 : residue 16 b[j + 8] = B 1 := residue_eq_block8_coeff b 1 hj (by simp; omega)
  have hB2 : residue 16 b[j + 16] = B 2 := residue_eq_block8_coeff b 2 hj (by simp; omega)
  have hB3 : residue 16 b[j + 24] = B 3 := residue_eq_block8_coeff b 3 hj (by simp; omega)
  simp only [karatsubaInner, KaratsubaState.polys, innerTerms, wordPoly_set_add, Prod.mk_add_mk,
    coeff_add, Nat.reduceLeDiff, residue_add, residue_mul, hA0, hA1, hA2, hA3, hB0, hB1, hB2, hB3]
  refine Prod.ext ?_ (Prod.ext ?_ (Prod.ext ?_ (Prod.ext ?_ ?_))) <;> simp only <;> ring

theorem natDegree_add_lt {P Q : (ZMod (2 ^ 16))[X]} {m : ℕ} (hP : P.natDegree < m)
    (hQ : Q.natDegree < m) : (P + Q).natDegree < m :=
  (natDegree_add_le P Q).trans_lt (max_lt hP hQ)

/-- The double loop leaves the nine partial products. -/
theorem karatsubaProducts_polys (a b : Vector U16 32) :
    let A := block8 a
    let B := block8 b
    (karatsubaProducts a b).polys =
      (A 0 * B 0 + X ^ 16 * (A 1 * B 1) + X ^ 32 * (A 2 * B 2) + X ^ 48 * (A 3 * B 3),
        (A 0 + A 1) * (B 0 + B 1),
        (A 0 + A 2 + (A 1 + A 3)) * (B 0 + B 2 + (B 1 + B 3)),
        (A 2 + A 3) * (B 2 + B 3),
        (A 0 + A 2) * (B 0 + B 2) + X ^ 16 * ((A 1 + A 3) * (B 1 + B 3))) := by
  intro A B
  have hzero : KaratsubaState.zero.polys = 0 := by
    simp only [KaratsubaState.polys, KaratsubaState.zero, wordPoly_replicate_zero]
    rfl
  -- a row of the double loop adds its terms whatever the arrays hold
  have hrow : ∀ i (hi : i < 8) s, True → True ∧
      (Nat.fold 8 (fun j hj s => karatsubaInner a b i hi j hj s) s).polys =
        s.polys + ∑ j ∈ Finset.range 8, innerTerms A B i j :=
    fun i hi s _ => fold_sum (fun _ => True) KaratsubaState.polys _ trivial
      fun j hj s _ => ⟨trivial, karatsubaInner_polys a b i hi j hj s⟩
  have hall := (fold_sum (a := KaratsubaState.zero) (fun _ => True) KaratsubaState.polys _
    trivial hrow).2
  rw [karatsubaProducts, hall, hzero, zero_add]
  have hA := block8_natDegree_lt a
  have hB := block8_natDegree_lt b
  refine Prod.ext ?_ (Prod.ext ?_ (Prod.ext ?_ (Prod.ext ?_ ?_))) <;>
    simp only [Prod.fst_sum, Prod.snd_sum, innerTerms, Finset.sum_add_distrib, ← Finset.mul_sum]
  · simp only [mul_eq_sum_monomials (hA _) (hB _), A, B]
  · rw [mul_eq_sum_monomials (natDegree_add_lt (hA 0) (hA 1)) (natDegree_add_lt (hB 0) (hB 1))]
  · rw [mul_eq_sum_monomials
      (natDegree_add_lt (natDegree_add_lt (hA 0) (hA 2)) (natDegree_add_lt (hA 1) (hA 3)))
      (natDegree_add_lt (natDegree_add_lt (hB 0) (hB 2)) (natDegree_add_lt (hB 1) (hB 3)))]
  · rw [mul_eq_sum_monomials (natDegree_add_lt (hA 2) (hA 3)) (natDegree_add_lt (hB 2) (hB 3))]
  · rw [mul_eq_sum_monomials (natDegree_add_lt (hA 0) (hA 2)) (natDegree_add_lt (hB 0) (hB 2)),
      mul_eq_sum_monomials (natDegree_add_lt (hA 1) (hA 3)) (natDegree_add_lt (hB 1) (hB 3))]

theorem wordPoly_coeff {n : ℕ} (v : Vector U16 n) {i : ℕ} (hi : i < n) :
    residue 16 v[i] = (wordPoly v).coeff i :=
  (toPoly_coeff _ v hi).symm

theorem wordPoly_natDegree_lt {n : ℕ} (hn : 0 < n) (v : Vector U16 n) :
    (wordPoly v).natDegree < n :=
  toPoly_natDegree_lt _ v hn

/-- Moving a whole array into another one at an offset. -/
theorem sum_shifted {n : ℕ} (hn : 0 < n) (v : Vector U16 n) (k : ℕ) :
    ∑ t ∈ Finset.range n, C ((wordPoly v).coeff t) * X ^ (t + k) = X ^ k * wordPoly v := by
  conv_rhs => rw [← sum_monomials (wordPoly_natDegree_lt hn v), Finset.mul_sum]
  exact Finset.sum_congr rfl fun t _ => by rw [pow_add]; ring

/-- Four disjoint windows of 16 coefficients. -/
theorem coeff_windows {P : (ZMod (2 ^ 16))[X]} {p0 p1 p2 p3 : (ZMod (2 ^ 16))[X]}
    (h0 : p0.natDegree < 16) (h1 : p1.natDegree < 16) (h2 : p2.natDegree < 16)
    (hP : P = p0 + X ^ 16 * (p1 + X ^ 16 * (p2 + X ^ 16 * p3))) (t : ℕ) (ht : t < 16) :
    P.coeff t = p0.coeff t ∧ P.coeff (t + 16) = p1.coeff t ∧
      P.coeff (t + 32) = p2.coeff t ∧ P.coeff (t + 48) = p3.coeff t := by
  have h32 : t + 32 = t + 16 + 16 := by omega
  have h48 : t + 48 = t + 16 + 16 + 16 := by omega
  rw [hP, h32, h48]
  refine ⟨coeff_low ht, ?_, ?_, ?_⟩
  · rw [coeff_high h0, coeff_low ht]
  · rw [coeff_high h0, coeff_high h1, coeff_low ht]
  · rw [coeff_high h0, coeff_high h1, coeff_high h2]

/-- The sum of the monomials taken out by one correction pass. -/
theorem sum_neg_monomials {P Q : (ZMod (2 ^ 16))[X]} {m : ℕ} (hP : P.natDegree < m)
    (hQ : Q.natDegree < m) :
    ∑ t ∈ Finset.range m, -(C (P.coeff t + Q.coeff t) * X ^ t) = -(P + Q) := by
  simp only [← coeff_add]
  rw [Finset.sum_neg_distrib, sum_monomials (natDegree_add_lt hP hQ)]

/-- The first correction pass takes the outer windows out of the middle ones. -/
theorem karatsubaSubtract_polys (s : KaratsubaState) {p0 p1 p2 p3 q0 q1 : (ZMod (2 ^ 16))[X]}
    (h0 : p0.natDegree < 15) (h1 : p1.natDegree < 15) (h2 : p2.natDegree < 15)
    (h3 : p3.natDegree < 15) (h4 : q0.natDegree < 15) (h5 : q1.natDegree < 15)
    (hout : wordPoly s.out = p0 + X ^ 16 * (p1 + X ^ 16 * (p2 + X ^ 16 * p3)))
    (hres : wordPoly s.resultD01 = q0 + X ^ 16 * q1) :
    let s' := Nat.fold 15 karatsubaSubtractStep s
    (s'.out = s.out ∧ s'.resultD01 = s.resultD01) ∧
      wordPoly s'.d01 = wordPoly s.d01 - (p0 + p1) ∧
      wordPoly s'.d0123 = wordPoly s.d0123 - (q0 + q1) ∧
      wordPoly s'.d23 = wordPoly s.d23 - (p2 + p3) := by
  have ho := coeff_windows (h0.trans (by omega)) (h1.trans (by omega)) (h2.trans (by omega)) hout
  have hr : ∀ t, t < 15 → (wordPoly s.resultD01).coeff t = q0.coeff t ∧
      (wordPoly s.resultD01).coeff (t + 16) = q1.coeff t := by
    intro t ht
    rw [hres]
    exact ⟨coeff_low (by omega), coeff_high (h4.trans (by omega))⟩
  obtain ⟨hkeep, hpass⟩ := fold_sum (fun s' => s'.out = s.out ∧ s'.resultD01 = s.resultD01)
    (fun s' => (wordPoly s'.d01, wordPoly s'.d0123, wordPoly s'.d23))
    (fun t => (-(C (p0.coeff t + p1.coeff t) * X ^ t), -(C (q0.coeff t + q1.coeff t) * X ^ t),
      -(C (p2.coeff t + p3.coeff t) * X ^ t)))
    (f := karatsubaSubtractStep) (a := s) ⟨rfl, rfl⟩ (by
      rintro t ht s' ⟨ho', hr'⟩
      obtain ⟨e0, e1, e2, e3⟩ := ho t (by omega)
      obtain ⟨f0, f1⟩ := hr t ht
      refine ⟨⟨ho', hr'⟩, ?_⟩
      simp only [karatsubaSubtractStep, wordPoly_set_sub_sub, wordPoly_coeff, ho', hr', e0, e1, e2,
        e3, f0, f1, Prod.mk_add_mk]
      simp only [sub_eq_add_neg])
  have hd01 := congrArg Prod.fst hpass
  have hd0123 := congrArg (fun d => d.2.1) hpass
  have hd23 := congrArg (fun d => d.2.2) hpass
  simp only [Prod.fst_add, Prod.snd_add, Prod.fst_sum, Prod.snd_sum, sum_neg_monomials h0 h1,
    sum_neg_monomials h4 h5, sum_neg_monomials h2 h3, ← sub_eq_add_neg] at hd01 hd0123 hd23
  exact ⟨hkeep, hd01, hd0123, hd23⟩

/-- The second correction pass adds the middle windows in. -/
theorem karatsubaMerge_polys (s : KaratsubaState) :
    let s' := Nat.fold 15 karatsubaMergeStep s
    wordPoly s'.out = wordPoly s.out + (X ^ 8 * wordPoly s.d01 + X ^ 40 * wordPoly s.d23) ∧
      wordPoly s'.resultD01 = wordPoly s.resultD01 + X ^ 8 * wordPoly s.d0123 := by
  obtain ⟨-, hpass⟩ := fold_sum
    (fun s' => s'.d01 = s.d01 ∧ s'.d0123 = s.d0123 ∧ s'.d23 = s.d23)
    (fun s' => (wordPoly s'.out, wordPoly s'.resultD01))
    (fun t => (C ((wordPoly s.d01).coeff t) * X ^ (t + 8) +
      C ((wordPoly s.d23).coeff t) * X ^ (t + 40), C ((wordPoly s.d0123).coeff t) * X ^ (t + 8)))
    (f := karatsubaMergeStep) ⟨rfl, rfl, rfl⟩ (by
      rintro t ht s' ⟨h1, h2, h3⟩
      refine ⟨⟨h1, h2, h3⟩, ?_⟩
      simp only [karatsubaMergeStep, wordPoly_set_add, wordPoly_coeff, h1, h2, h3,
        Prod.mk_add_mk, add_assoc])
  have hout := congrArg Prod.fst hpass
  have hres := congrArg Prod.snd hpass
  simp only [Prod.fst_add, Prod.snd_add, Prod.fst_sum, Prod.snd_sum, Finset.sum_add_distrib,
    sum_shifted (show 0 < 15 by omega)] at hout hres
  exact ⟨hout, hres⟩

/-- The third correction pass takes both halves of `out` out of the cross terms. -/
theorem karatsubaCross_polys (s : KaratsubaState) (l h : (ZMod (2 ^ 16))[X])
    (hl : l.natDegree < 31) (hh : h.natDegree < 31) (hout : wordPoly s.out = l + X ^ 32 * h) :
    let s' := Nat.fold 31 karatsubaCrossStep s
    s'.out = s.out ∧ wordPoly s'.resultD01 = wordPoly s.resultD01 - (l + h) := by
  have ho : ∀ t, t < 31 → (wordPoly s.out).coeff t = l.coeff t ∧
      (wordPoly s.out).coeff (t + 32) = h.coeff t := by
    intro t ht
    rw [hout]
    exact ⟨coeff_low (by omega), coeff_high (hl.trans (by omega))⟩
  obtain ⟨hkeep, hpass⟩ := fold_sum (fun s' => s'.out = s.out)
    (fun s' => wordPoly s'.resultD01) (fun t => -(C (l.coeff t + h.coeff t) * X ^ t))
    (f := karatsubaCrossStep) (a := s) rfl (by
      rintro t ht s' h1
      refine ⟨h1, ?_⟩
      obtain ⟨h2, h3⟩ := ho t ht
      simp only [karatsubaCrossStep, wordPoly_set_sub_sub, wordPoly_coeff, h1, h2, h3]
      rw [sub_eq_add_neg])
  refine ⟨hkeep, ?_⟩
  rw [hpass, sum_neg_monomials hl hh, ← sub_eq_add_neg]

/-- The last pass adds the cross terms in the middle. -/
theorem karatsubaFinish_polys (s : KaratsubaState) :
    wordPoly (Nat.fold 31 karatsubaFinishStep s).out =
      wordPoly s.out + X ^ 16 * wordPoly s.resultD01 := by
  obtain ⟨-, hpass⟩ := fold_sum (fun s' => s'.resultD01 = s.resultD01)
    (fun s' => wordPoly s'.out) (fun t => C ((wordPoly s.resultD01).coeff t) * X ^ (t + 16))
    (f := karatsubaFinishStep) (a := s) rfl (by
      rintro t ht s' h1
      refine ⟨h1, ?_⟩
      simp only [karatsubaFinishStep, wordPoly_set_add, wordPoly_coeff, h1])
  rw [hpass, sum_shifted (show 0 < 31 by omega)]

theorem natDegree_mul_lt {P Q : (ZMod (2 ^ 16))[X]} {m n : ℕ} (hP : P.natDegree < m)
    (hQ : Q.natDegree < n) : (P * Q).natDegree < m + n - 1 :=
  natDegree_mul_le.trans_lt (by omega)

/-- The two-level Karatsuba product is the product of the two polynomials. -/
theorem wordPoly_karatsuba32SimpleU16 (a b : Vector U16 32) :
    wordPoly (karatsuba32SimpleU16 a b) = wordPoly a * wordPoly b := by
  let A := block8 a
  let B := block8 b
  have hA : ∀ u, (A u).natDegree < 8 := block8_natDegree_lt a
  have hB : ∀ u, (B u).natDegree < 8 := block8_natDegree_lt b
  have hAB : ∀ {P Q : (ZMod (2 ^ 16))[X]}, P.natDegree < 8 → Q.natDegree < 8 →
      (P * Q).natDegree < 15 := fun hP hQ => natDegree_mul_lt hP hQ
  have hprod := karatsubaProducts_polys a b
  simp only [KaratsubaState.polys, Prod.mk.injEq] at hprod
  obtain ⟨ho0, hd01, hd0123, hd23, hr0⟩ := hprod
  -- after the first two passes each half of `out` is a full product of 16 words
  have hsub := karatsubaSubtract_polys (karatsubaProducts a b)
    (hAB (hA 0) (hB 0)) (hAB (hA 1) (hB 1)) (hAB (hA 2) (hB 2)) (hAB (hA 3) (hB 3))
    (hAB (natDegree_add_lt (hA 0) (hA 2)) (natDegree_add_lt (hB 0) (hB 2)))
    (hAB (natDegree_add_lt (hA 1) (hA 3)) (natDegree_add_lt (hB 1) (hB 3)))
    (by rw [ho0]; ring) hr0
  obtain ⟨⟨ho1, hr1⟩, hd01', hd0123', hd23'⟩ := hsub
  have hmerge := karatsubaMerge_polys (Nat.fold 15 karatsubaSubtractStep (karatsubaProducts a b))
  obtain ⟨ho2, hr2⟩ := hmerge
  rw [ho1, ho0, hd01', hd01, hd23', hd23] at ho2
  rw [hr1, hr0, hd0123', hd0123] at hr2
  let l := (A 0 + X ^ 8 * A 1) * (B 0 + X ^ 8 * B 1)
  let h := (A 2 + X ^ 8 * A 3) * (B 2 + X ^ 8 * B 3)
  have hlow : ∀ {P Q : (ZMod (2 ^ 16))[X]}, P.natDegree < 8 → Q.natDegree < 8 →
      (P + X ^ 8 * Q).natDegree < 16 := fun hP hQ =>
    natDegree_add_lt (by omega)
      ((natDegree_mul_le.trans (Nat.add_le_add_right (natDegree_X_pow_le 8) _)).trans_lt
        (by omega))
  have hcross := karatsubaCross_polys
    (Nat.fold 15 karatsubaMergeStep (Nat.fold 15 karatsubaSubtractStep (karatsubaProducts a b)))
    l h (natDegree_mul_lt (hlow (hA 0) (hA 1)) (hlow (hB 0) (hB 1)))
    (natDegree_mul_lt (hlow (hA 2) (hA 3)) (hlow (hB 2) (hB 3)))
    (by rw [ho2]; simp only [l, h, A, B]; ring)
  obtain ⟨ho3, hr3⟩ := hcross
  rw [karatsuba32SimpleU16, karatsubaFinish_polys, ho3, hr3, ho2, hr2, wordPoly_eq_blocks a,
    wordPoly_eq_blocks b]
  simp only [l, h, A, B]
  ring

section Bounds

open Checked

/-- `v[i] = (uint16_t)(v[i] + x)`. -/
def addAt {n : ℕ} (v : Vector U16 n) (i : ℕ) (x : U16) : Option (Vector U16 n) :=
  (load v i).bind fun y => store v i (y + x)

theorem addAt_eq {n : ℕ} {v : Vector U16 n} {i : ℕ} (hi : i < n) (x : U16) :
    addAt v i x = some (v.set i (v[i] + x) hi) := by
  rw [addAt, load_eq hi, Option.bind_some, store_eq hi]

/-- `v[i] = (uint16_t)(v[i] - x - y)`. -/
def subAt {n : ℕ} (v : Vector U16 n) (i : ℕ) (x y : U16) : Option (Vector U16 n) :=
  (load v i).bind fun z => store v i (z - x - y)

theorem subAt_eq {n : ℕ} {v : Vector U16 n} {i : ℕ} (hi : i < n) (x y : U16) :
    subAt v i x y = some (v.set i (v[i] - x - y) hi) := by
  rw [subAt, load_eq hi, Option.bind_some, store_eq hi]

/-- The body of the inner loop, from the four words of `a` that the outer loop holds. -/
def karatsubaInnerChecked (a0 a1 a2 a3 : U16) (b : Vector U16 32) (i j : ℕ)
    (s : KaratsubaState) : Option KaratsubaState := do
  let b0 ← load b j
  let b1 ← load b (j + 8)
  let b2 ← load b (j + 16)
  let b3 ← load b (j + 24)
  let b01 := b0 + b1
  let a01 := a0 + a1
  let b23 := b2 + b3
  let a23 := a2 + a3
  let b02 := b0 + b2
  let a02 := a0 + a2
  let b13 := b1 + b3
  let a13 := a1 + a3
  let out ← addAt s.out (i + j) (a0 * b0)
  let out ← addAt out (i + j + 16) (a1 * b1)
  let out ← addAt out (i + j + 32) (a2 * b2)
  let out ← addAt out (i + j + 48) (a3 * b3)
  let d01 ← addAt s.d01 (i + j) (a01 * b01)
  let d23 ← addAt s.d23 (i + j) (a23 * b23)
  let resultD01 ← addAt s.resultD01 (i + j) (a02 * b02)
  let resultD01 ← addAt resultD01 (i + j + 16) (a13 * b13)
  let d0123 ← addAt s.d0123 (i + j) ((a02 + a13) * (b02 + b13))
  some { out, d01, d0123, d23, resultD01 }

def karatsubaRowChecked (a b : Vector U16 32) (i : ℕ) (s : KaratsubaState) :
    Option KaratsubaState := do
  let a0 ← load a i
  let a1 ← load a (i + 8)
  let a2 ← load a (i + 16)
  let a3 ← load a (i + 24)
  loop 8 (fun j _ s => karatsubaInnerChecked a0 a1 a2 a3 b i j s) s

def karatsubaSubtractChecked (i : ℕ) (s : KaratsubaState) : Option KaratsubaState := do
  let x ← load s.resultD01 i
  let y ← load s.resultD01 (i + 16)
  let d0123 ← subAt s.d0123 i x y
  let x ← load s.out i
  let y ← load s.out (i + 16)
  let d01 ← subAt s.d01 i x y
  let x ← load s.out (i + 32)
  let y ← load s.out (i + 48)
  let d23 ← subAt s.d23 i x y
  some { s with d0123, d01, d23 }

def karatsubaMergeChecked (i : ℕ) (s : KaratsubaState) : Option KaratsubaState := do
  let x ← load s.d0123 i
  let resultD01 ← addAt s.resultD01 (i + 8) x
  let x ← load s.d01 i
  let out ← addAt s.out (i + 8) x
  let x ← load s.d23 i
  let out ← addAt out (i + 40) x
  some { s with resultD01, out }

def karatsubaCrossChecked (i : ℕ) (s : KaratsubaState) : Option KaratsubaState := do
  let x ← load s.out i
  let y ← load s.out (i + 32)
  let resultD01 ← subAt s.resultD01 i x y
  some { s with resultD01 }

def karatsubaFinishChecked (i : ℕ) (s : KaratsubaState) : Option KaratsubaState := do
  let x ← load s.resultD01 i
  let out ← addAt s.out (i + 16) x
  some { s with out }

/-- `karatsuba32_simple_u16`, which fails at the first index out of bounds. -/
def karatsuba32SimpleU16Checked (a b : Vector U16 32) : Option (Vector U16 63) := do
  let s ← loop 8 (fun i _ s => karatsubaRowChecked a b i s) .zero
  let s ← loop 15 (fun i _ s => karatsubaSubtractChecked i s) s
  let s ← loop 15 (fun i _ s => karatsubaMergeChecked i s) s
  let s ← loop 31 (fun i _ s => karatsubaCrossChecked i s) s
  let s ← loop 31 (fun i _ s => karatsubaFinishChecked i s) s
  some s.out

theorem karatsubaInnerChecked_eq (a b : Vector U16 32) (i : ℕ) (hi : i < 8) (j : ℕ) (hj : j < 8)
    (s : KaratsubaState) : karatsubaInnerChecked a[i] a[i + 8] a[i + 16] a[i + 24] b i j s =
      some (karatsubaInner a b i hi j hj s) := by
  simp (disch := omega) only [karatsubaInnerChecked, load_eq, addAt_eq, Option.bind_eq_bind,
    Option.bind_some]
  rfl

/-- The double loop stays in bounds: `i + j` is at most 14. -/
theorem karatsubaRowChecked_eq (a b : Vector U16 32) (i : ℕ) (hi : i < 8) (s : KaratsubaState) :
    karatsubaRowChecked a b i s =
      some (Nat.fold 8 (fun j hj s => karatsubaInner a b i hi j hj s) s) := by
  simp (disch := omega) only [karatsubaRowChecked, load_eq, Option.bind_eq_bind, Option.bind_some]
  exact loop_eq_fold fun j hj s => karatsubaInnerChecked_eq a b i hi j hj s

theorem karatsubaSubtractChecked_eq (i : ℕ) (hi : i < 15) (s : KaratsubaState) :
    karatsubaSubtractChecked i s = some (karatsubaSubtractStep i hi s) := by
  simp (disch := omega) only [karatsubaSubtractChecked, load_eq, subAt_eq, Option.bind_eq_bind,
    Option.bind_some]
  rfl

theorem karatsubaMergeChecked_eq (i : ℕ) (hi : i < 15) (s : KaratsubaState) :
    karatsubaMergeChecked i s = some (karatsubaMergeStep i hi s) := by
  simp (disch := omega) only [karatsubaMergeChecked, load_eq, addAt_eq, Option.bind_eq_bind,
    Option.bind_some]
  rfl

theorem karatsubaCrossChecked_eq (i : ℕ) (hi : i < 31) (s : KaratsubaState) :
    karatsubaCrossChecked i s = some (karatsubaCrossStep i hi s) := by
  simp (disch := omega) only [karatsubaCrossChecked, load_eq, subAt_eq, Option.bind_eq_bind,
    Option.bind_some]
  rfl

theorem karatsubaFinishChecked_eq (i : ℕ) (hi : i < 31) (s : KaratsubaState) :
    karatsubaFinishChecked i s = some (karatsubaFinishStep i hi s) := by
  simp (disch := omega) only [karatsubaFinishChecked, load_eq, addAt_eq, Option.bind_eq_bind,
    Option.bind_some]
  rfl

/-- No index leaves its array. -/
theorem karatsuba32SimpleU16Checked_eq (a b : Vector U16 32) :
    karatsuba32SimpleU16Checked a b = some (karatsuba32SimpleU16 a b) := by
  have hproducts : loop 8 (fun i _ s => karatsubaRowChecked a b i s) .zero =
      some (karatsubaProducts a b) := loop_eq_fold fun i hi s => karatsubaRowChecked_eq a b i hi s
  simp only [karatsuba32SimpleU16Checked, hproducts, Option.bind_eq_bind, Option.bind_some,
    loop_eq_fold karatsubaSubtractChecked_eq, loop_eq_fold karatsubaMergeChecked_eq,
    loop_eq_fold karatsubaCrossChecked_eq, loop_eq_fold karatsubaFinishChecked_eq]
  rfl

end Bounds

/-- Word `n` of the output is the sum of the products `a[i] * b[j]` with `i + j = n`, and
the run that computes it stays in bounds. -/
theorem karatsuba32SimpleU16_exact (a b : Vector U16 32) :
    ∃ out, karatsuba32SimpleU16Checked a b = some out ∧ ∀ n : Fin 63,
      (out.get n).toNat ≡ ∑ i : Fin 32, ∑ j : Fin 32,
        (if i.val + j.val = n.val then (a.get i).toNat * (b.get j).toNat else 0) [MOD 2 ^ 16] := by
  refine ⟨karatsuba32SimpleU16 a b, karatsuba32SimpleU16Checked_eq a b, fun n => ?_⟩
  have hcoeff : residue 16 ((karatsuba32SimpleU16 a b).get n) =
      (wordPoly (karatsuba32SimpleU16 a b)).coeff n := wordPoly_coeff _ n.isLt
  rw [wordPoly_karatsuba32SimpleU16, wordPoly, wordPoly, toPoly_mul_coeff] at hcoeff
  refine (ZMod.natCast_eq_natCast_iff _ _ _).mp (hcoeff.trans ?_)
  push_cast
  rfl

end RrlwrKem
