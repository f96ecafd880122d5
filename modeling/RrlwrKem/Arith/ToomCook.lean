import RrlwrKem.Arith.Karatsuba
import RrlwrKem.Library.BinomialQuotient

/-!
# `toom4_128_fold_u16`

Toom-Cook-4 in three stages: evaluation of the four blocks at seven points, seven
Karatsuba products, and interpolation with a fold modulo `x^128 + 1`. The
interpolation divides by 2, 4 and 8 in words of 16 bits and so keeps only 13 of
them; `toomInterpolate_carries` records the bits that survive in each register, and
`toomInterpolate_recovers` reads them as coefficients of the polynomial.
-/

open Polynomial

namespace RrlwrKem

open ArrayPolynomial BinomialQuotient Word

/-- One value at each of the points `∞, 2, 1, -1, 1/2, -1/2, 0`, as the arrays
`w1, …, w7` hold them. -/
structure ToomPoints (α : Type*) where
  w1 : α
  w2 : α
  w3 : α
  w4 : α
  w5 : α
  w6 : α
  w7 : α

/-- The registers of one interpolation step. -/
structure ToomRegisters where
  r0 : U16
  r1 : U16
  r2 : U16
  r3 : U16
  r4 : U16
  r5 : U16
  r6 : U16

def toomEvaluateAt (r0 r1 r2 r3 : U16) : ToomPoints U16 :=
  let r4 := r0 + r2
  let r5 := r1 + r3
  let w3 := r4 + r5
  let w4 := r4 - r5
  let r4 := ((r0 <<< 2) + r2) <<< 1
  let r5 := (r1 <<< 2) + r3
  let w5 := r4 + r5
  let w6 := r4 - r5
  let w2 := (r3 <<< 3) + (r2 <<< 2) + (r1 <<< 1) + r0
  { w1 := r3, w2, w3, w4, w5, w6, w7 := r0 }

/-- The first loop, for one of the two factors. -/
def toomEvaluate (a : Poly) : ToomPoints (Vector U16 32) :=
  let at_ := fun j : Fin 32 => toomEvaluateAt a[j.val] a[32 + j.val] a[64 + j.val] a[96 + j.val]
  { w1 := Vector.ofFn fun j => (at_ j).w1
    w2 := Vector.ofFn fun j => (at_ j).w2
    w3 := Vector.ofFn fun j => (at_ j).w3
    w4 := Vector.ofFn fun j => (at_ j).w4
    w5 := Vector.ofFn fun j => (at_ j).w5
    w6 := Vector.ofFn fun j => (at_ j).w6
    w7 := Vector.ofFn fun j => (at_ j).w7 }

def toomProducts (a b : ToomPoints (Vector U16 32)) : ToomPoints (Vector U16 63) where
  w1 := karatsuba32SimpleU16 a.w1 b.w1
  w2 := karatsuba32SimpleU16 a.w2 b.w2
  w3 := karatsuba32SimpleU16 a.w3 b.w3
  w4 := karatsuba32SimpleU16 a.w4 b.w4
  w5 := karatsuba32SimpleU16 a.w5 b.w5
  w6 := karatsuba32SimpleU16 a.w6 b.w6
  w7 := karatsuba32SimpleU16 a.w7 b.w7

def toomInterpolate (w : ToomPoints U16) : ToomRegisters :=
  let inv3 : U32 := 43691
  let inv9 : U32 := 36409
  let inv15 : U32 := 61167
  let r0 := w.w1
  let r1 := w.w2
  let r2 := w.w3
  let r3 := w.w4
  let r4 := w.w5
  let r5 := w.w6
  let r6 := w.w7
  let r1 := r1 + r4
  let r5 := r5 - r4
  -- the difference is a negative `int` as often as not: this shift is arithmetic
  let r3 := toU16 ((promote r3 - promote r2).sshiftRight 1)
  let r4 := r4 - r0
  let r4 := r4 - (r6 <<< 6)
  let r4 := (r4 <<< 1) + r5
  let r2 := r2 + r3
  let r1 := r1 - (r2 <<< 6) - r2
  let r2 := r2 - r6
  let r2 := r2 - r0
  let r1 := r1 + 45 * r2
  -- from here the factors are `uint32_t`, and the shifts logical
  let r4 := toU16 (((promote r4 - (promote r2 <<< 3)) * inv3) >>> 3)
  let r5 := r5 + r1
  let r1 := toU16 (((promote r1 + (promote r3 <<< 4)) * inv9) >>> 1)
  let r3 := -(r3 + r1)
  let r5 := toU16 (((30 * promote r1 - promote r5) * inv15) >>> 2)
  let r2 := r2 - r4
  let r1 := r1 - r5
  { r0, r1, r2, r3, r4, r5, r6 }

/-- One pass of the last loop, after the interpolation. -/
def toomFoldStep (i : ℕ) (hi : i < 63) (t : ToomRegisters) (r : Poly) : Poly :=
  let r := r.set i (r[i] + t.r6 - t.r2)
  let r := r.set (i + 32) (r[i + 32] + t.r5 - t.r1)
  let r := r.set (i + 64) (r[i + 64] + t.r4 - t.r0)
  if h : i < 32 then r.set (i + 96) (r[i + 96] + t.r3)
  else r.set (i - 32) (r[i - 32] - t.r3)

/-- The seven products at position `i`. -/
def ToomPoints.read (w : ToomPoints (Vector U16 63)) (i : ℕ) (hi : i < 63) : ToomPoints U16 where
  w1 := w.w1[i]
  w2 := w.w2[i]
  w3 := w.w3[i]
  w4 := w.w4[i]
  w5 := w.w5[i]
  w6 := w.w6[i]
  w7 := w.w7[i]

def toom4_128FoldU16 (a b r : Poly) (clear : Bool) : Poly :=
  let r := if clear then Vector.replicate 128 0 else r
  let w := toomProducts (toomEvaluate a) (toomEvaluate b)
  Nat.fold 63 (fun i hi r => toomFoldStep i hi (toomInterpolate (w.read i hi)) r) r

def polyMaccToom4U16 (r f g : Poly) : Poly := toom4_128FoldU16 f g r false

def polyMulToom4U16 (r f g : Poly) : Poly := toom4_128FoldU16 f g r true

/-- The local array `folded` is cleared before it is read. -/
def polyMulToom4 (f g : Poly) : Poly := polyMulToom4U16 (Vector.replicate 128 0) f g

def schoolbookStep (f g : Poly) (i : ℕ) (hi : i < 128) (j : ℕ) (hj : j < 128) (acc : Poly) : Poly :=
  let prod := f[i] * g[j]
  if h : i + j < 128 then acc.set (i + j) (acc[i + j] + prod)
  else
    have hd : i + j - 128 < 128 := by omega
    acc.set (i + j - 128) (acc[i + j - 128] - prod)

def polyMulSchoolbook (f g : Poly) : Poly :=
  Nat.fold 128 (fun i hi acc => Nat.fold 128 (fun j hj acc => schoolbookStep f g i hi j hj acc) acc)
    (Vector.replicate 128 0)

section Interpolation

/-- The precision of the interpolation: with inputs exact to 16 bits, each shift
to the right costs the register that it divides, and the ones computed from it,
as many bits as it shifts. -/
theorem toomInterpolate_carries (w : ToomPoints U16) (c0 c1 c2 c3 c4 c5 c6 : ℤ)
    (h1 : Carries 16 w.w1 c6)
    (h2 : Carries 16 w.w2 (c0 + 2 * c1 + 4 * c2 + 8 * c3 + 16 * c4 + 32 * c5 + 64 * c6))
    (h3 : Carries 16 w.w3 (c0 + c1 + c2 + c3 + c4 + c5 + c6))
    (h4 : Carries 16 w.w4 (c0 - c1 + c2 - c3 + c4 - c5 + c6))
    (h5 : Carries 16 w.w5 (64 * c0 + 32 * c1 + 16 * c2 + 8 * c3 + 4 * c4 + 2 * c5 + c6))
    (h6 : Carries 16 w.w6 (64 * c0 - 32 * c1 + 16 * c2 - 8 * c3 + 4 * c4 - 2 * c5 + c6))
    (h7 : Carries 16 w.w7 c0) :
    Carries 16 (toomInterpolate w).r6 c0 ∧ Carries 13 (toomInterpolate w).r5 c1 ∧
      Carries 13 (toomInterpolate w).r4 c2 ∧ Carries 14 (toomInterpolate w).r3 c3 ∧
      Carries 13 (toomInterpolate w).r2 c4 ∧ Carries 13 (toomInterpolate w).r1 c5 ∧
      Carries 16 (toomInterpolate w).r0 c6 := by
  -- 16-bit prefix: the even and odd parts at 1/2, and the odd part at 1
  have r1a := h2.add h5 (by omega)
  have r5a := h6.sub h5 (by omega)
  have r3a : Carries 15 (toU16 ((promote w.w4 - promote w.w3).sshiftRight 1))
      (-(c1 + c3 + c5)) :=
    ((((h4.setWidth (by omega)).sub (h3.setWidth (by omega)) (by omega)).congr
      (by ring)).sshiftRight (n := 1) (by omega)).setWidth (by omega)
  have r6s := (h7.mono (show 10 ≤ 16 by omega)).shiftLeft 6 (by omega)
  have r4a := (h5.sub h1 (by omega)).sub r6s (by omega)
  have r4b := (((r4a.mono (show 15 ≤ 16 by omega)).shiftLeft 1 (by omega)).add r5a
    (by omega)).congr (show _ = 32 * c2 + 8 * c4 by ring)
  -- 15 bits: what the first shift leaves
  have r2a := ((h3.mono (show 15 ≤ 16 by omega)).add r3a (by omega)).congr
    (show _ = c0 + c2 + c4 + c6 by ring)
  have r2s := (r2a.mono (show 9 ≤ 15 by omega)).shiftLeft 6 (by omega)
  have r1b := ((r1a.mono (show 15 ≤ 16 by omega)).sub r2s (by omega)).sub r2a (by omega)
  have r2b := ((r2a.sub (h7.mono (by omega)) (by omega)).sub (h1.mono (by omega))
    (by omega)).congr (show _ = c2 + c4 by ring)
  have r1c := (r1b.add (r2b.const_mul 0 45 (by omega)) (by omega)).congr
    (show _ = 34 * c1 + 16 * c3 + 34 * c5 by ring)
  -- division by 8 * 3, 2 * 9 and 4 * 15, and what is then left to subtract
  have r2t := ((r2b.mono (show 13 ≤ 15 by omega)).setWidth (v := 32) (by omega)).shiftLeft 3
    (by omega)
  have r4c := ((((r4b.setWidth (v := 32) (by omega)).sub r2t (by omega)).congr
    (show _ = 2 ^ 3 * (((3 : ℕ) : ℤ) * c2) by push_cast; ring)).div_exact (k := 13) (n := 3)
      43691 3 (by omega) (by decide)).setWidth (v := 16) (by omega)
  have r5b := ((r5a.mono (show 15 ≤ 16 by omega)).add r1c (by omega)).congr
    (show _ = -30 * c1 + 30 * c5 by ring)
  have r3s := ((r3a.mono (show 11 ≤ 15 by omega)).setWidth (v := 32) (by omega)).shiftLeft 4
    (by omega)
  have r1d := ((((r1c.setWidth (v := 32) (by omega)).add r3s (by omega)).congr
    (show _ = 2 ^ 1 * (((9 : ℕ) : ℤ) * (c1 + c5)) by push_cast; ring)).div_exact (k := 14) (n := 1)
      36409 9 (by omega) (by decide)).setWidth (v := 16) (by omega)
  have r3b := (((r3a.mono (show 14 ≤ 15 by omega)).add r1d (by omega)).neg (by omega)).congr
    (show _ = c3 by ring)
  have r1t := (r1d.setWidth (v := 32) (by omega)).const_mul 1 15 (by omega)
  have r5c := (((r1t.sub (r5b.setWidth (v := 32) (by omega)) (by omega)).congr
    (show _ = 2 ^ 2 * (((15 : ℕ) : ℤ) * c1) by push_cast; ring)).div_exact (k := 13) (n := 2)
      61167 15 (by omega) (by decide)).setWidth (v := 16) (by omega)
  have r2c := ((r2b.mono (show 13 ≤ 15 by omega)).sub r4c (by omega)).congr
    (show _ = c4 by ring)
  have r1e := ((r1d.mono (show 13 ≤ 14 by omega)).sub r5c (by omega)).congr
    (show _ = c5 by ring)
  exact ⟨h7, r5c, r4c, r3b, r2c, r1e, h1⟩

/-- The word agrees modulo `2^k` with a rational number, which is an integer. -/
def CarriesRat (k : ℕ) (x : U16) (q : ℚ) : Prop :=
  ∃ u : ℤ, (u : ℚ) = q ∧ x.toNat ≡ u [ZMOD 2 ^ k]

theorem CarriesRat.carries {k : ℕ} {x : U16} {q : ℚ} (h : CarriesRat k x q) {u : ℤ}
    (hu : q = u) : Carries k x u := by
  obtain ⟨v, hv, hx⟩ := h
  exact Carries.congr hx (Int.cast_injective (hv.trans hu))

/-- The words hold the values of `P` at `∞, 2, 1, -1, 1/2, -1/2, 0` modulo `2^16`, the
two at the halves scaled by 64. -/
structure ToomPoints.Hold (w : ToomPoints U16) (P : ℚ[X]) : Prop where
  w1 : CarriesRat 16 w.w1 (P.coeff 6)
  w2 : CarriesRat 16 w.w2 (P.eval 2)
  w3 : CarriesRat 16 w.w3 (P.eval 1)
  w4 : CarriesRat 16 w.w4 (P.eval (-1))
  w5 : CarriesRat 16 w.w5 (64 * P.eval (1 / 2))
  w6 : CarriesRat 16 w.w6 (64 * P.eval (-1 / 2))
  w7 : CarriesRat 16 w.w7 (P.coeff 0)

/-- `c0 + c1 x + … + c6 x^6`. -/
noncomputable def toomPolynomial (c : Fin 7 → ℤ) : ℚ[X] := ∑ n, C (c n : ℚ) * X ^ n.val

theorem toomPolynomial_coeff (c : Fin 7 → ℤ) (n : Fin 7) :
    (toomPolynomial c).coeff n.val = c n := by
  simp [toomPolynomial, finsetSum_coeff, coeff_X_pow, Fin.val_inj]

theorem toomPolynomial_eval (c : Fin 7 → ℤ) (x : ℚ) : (toomPolynomial c).eval x =
    c 0 + c 1 * x + c 2 * x ^ 2 + c 3 * x ^ 3 + c 4 * x ^ 4 + c 5 * x ^ 5 + c 6 * x ^ 6 := by
  simp [toomPolynomial, Fin.sum_univ_seven]

/-- From the values at the seven points the registers recover the coefficients: the
outermost two in full, the middle one but for two bits, the others modulo `2^13`. -/
theorem toomInterpolate_recovers (w : ToomPoints U16) (c : Fin 7 → ℤ)
    (h : w.Hold (toomPolynomial c)) :
    let r := toomInterpolate w
    (r.r6.toNat ≡ c 0 [ZMOD 2 ^ 16] ∧ r.r0.toNat ≡ c 6 [ZMOD 2 ^ 16]) ∧
      r.r3.toNat ≡ c 3 [ZMOD 2 ^ 14] ∧
      (r.r5.toNat ≡ c 1 [ZMOD 2 ^ 13] ∧ r.r4.toNat ≡ c 2 [ZMOD 2 ^ 13] ∧
        r.r2.toNat ≡ c 4 [ZMOD 2 ^ 13] ∧ r.r1.toNat ≡ c 5 [ZMOD 2 ^ 13]) := by
  obtain ⟨h1, h2, h3, h4, h5, h6, h7⟩ := h
  have hw := toomInterpolate_carries w (c 0) (c 1) (c 2) (c 3) (c 4) (c 5) (c 6)
    (h1.carries (toomPolynomial_coeff c 6))
    (h2.carries (by rw [toomPolynomial_eval]; push_cast; ring))
    (h3.carries (by rw [toomPolynomial_eval]; push_cast; ring))
    (h4.carries (by rw [toomPolynomial_eval]; push_cast; ring))
    (h5.carries (by rw [toomPolynomial_eval]; push_cast; ring))
    (h6.carries (by rw [toomPolynomial_eval]; push_cast; ring))
    (h7.carries (toomPolynomial_coeff c 0))
  obtain ⟨r6, r5, r4, r3, r2, r1, r0⟩ := hw
  exact ⟨⟨r6, r0⟩, r3, r5, r4, r2, r1⟩

/-- The words of `1 - 2x + 3x^2 - 4x^3 + 5x^4 - 6x^5 - 7x^6`. -/
theorem toomInterpolate_recovers_signed :
    let r := toomInterpolate ⟨65529, 64953, 65526, 14, 17, 233, 1⟩
    (r.r6.toNat ≡ 1 [ZMOD 2 ^ 16] ∧ r.r0.toNat ≡ -7 [ZMOD 2 ^ 16]) ∧
      r.r3.toNat ≡ -4 [ZMOD 2 ^ 14] ∧
      (r.r5.toNat ≡ -2 [ZMOD 2 ^ 13] ∧ r.r4.toNat ≡ 3 [ZMOD 2 ^ 13] ∧
        r.r2.toNat ≡ 5 [ZMOD 2 ^ 13] ∧ r.r1.toNat ≡ -6 [ZMOD 2 ^ 13]) :=
  toomInterpolate_recovers _ ![1, -2, 3, -4, 5, -6, -7]
    { w1 := ⟨-7, (toomPolynomial_coeff ![1, -2, 3, -4, 5, -6, -7] 6).symm, by decide⟩
      w2 := ⟨-583, by simp [toomPolynomial_eval]; norm_num, by decide⟩
      w3 := ⟨-10, by simp [toomPolynomial_eval]; norm_num, by decide⟩
      w4 := ⟨14, by simp [toomPolynomial_eval]; norm_num, by decide⟩
      w5 := ⟨17, by simp [toomPolynomial_eval]; norm_num, by decide⟩
      w6 := ⟨233, by simp [toomPolynomial_eval]; norm_num, by decide⟩
      w7 := ⟨1, (toomPolynomial_coeff ![1, -2, 3, -4, 5, -6, -7] 0).symm, by decide⟩ }

/-- The words of `2^13 x^4`: bit 13 of `r4`, where the coefficient is 0, is lost. -/
example : (toomInterpolate ⟨0, 0, 8192, 8192, 32768, 32768, 0⟩).r4.toNat % 2 ^ 14 = 2 ^ 13 := by
  decide

end Interpolation

section Blocks

/-- Block `s` of 32 words. -/
noncomputable def block32 (a : Poly) (s : Fin 4) : (ZMod (2 ^ 16))[X] :=
  blockEval (m := 32) rfl (fun x => C (residue 16 x)) X a s

theorem wordPoly_eq_block32 (a : Poly) : wordPoly a =
    block32 a 0 + X ^ 32 * block32 a 1 + X ^ 64 * block32 a 2 + X ^ 96 * block32 a 3 := by
  rw [wordPoly, toPoly, eval_split (m := 32) (k := 4) rfl, Fin.sum_univ_four]
  simp [block32]

theorem block32_natDegree_lt (a : Poly) (s : Fin 4) : (block32 a s).natDegree < 32 :=
  blockEval_natDegree_lt _ (by decide) _ a s

/-- An array of fixed combinations of the four blocks. -/
theorem wordPoly_ofFn_blocks (a : Poly) (f : Fin 32 → U16) (e : Fin 4 → ZMod (2 ^ 16))
    (hf : ∀ j : Fin 32, residue 16 (f j) = e 0 * residue 16 a[j.val] +
      e 1 * residue 16 a[32 + j.val] +
      e 2 * residue 16 a[64 + j.val] + e 3 * residue 16 a[96 + j.val]) :
    wordPoly (Vector.ofFn f) = C (e 0) * block32 a 0 + C (e 1) * block32 a 1 +
      C (e 2) * block32 a 2 + C (e 3) * block32 a 3 := by
  refine (toPoly_ofFn_blocks (m := 32) (k := 4) rfl (residue 16) a f e fun j => ?_).trans
    (Fin.sum_univ_four _)
  rw [hf j, Fin.sum_univ_four]
  have h0 : a.get ⟨32 * (0 : Fin 4).val + j.val, block_lt rfl 0 j⟩ = a[j.val] := by
    change a[32 * 0 + j.val] = a[j.val]
    congr 1
    omega
  rw [h0]
  rfl

/-- The arrays of the evaluation are the block polynomial at the seven points,
homogenised at `∞` and at `±1/2`. -/
theorem toomEvaluate_wordPoly (a : Poly) :
    let A := block32 a
    let e := toomEvaluate a
    wordPoly e.w1 = A 3 ∧ wordPoly e.w2 = A 0 + C 2 * A 1 + C 4 * A 2 + C 8 * A 3 ∧
      wordPoly e.w3 = A 0 + A 1 + A 2 + A 3 ∧ wordPoly e.w4 = A 0 - A 1 + A 2 - A 3 ∧
      wordPoly e.w5 = C 8 * A 0 + C 4 * A 1 + C 2 * A 2 + A 3 ∧
      wordPoly e.w6 = C 8 * A 0 - C 4 * A 1 + C 2 * A 2 - A 3 ∧ wordPoly e.w7 = A 0 := by
  intro A e
  refine ⟨?_, ?_, ?_, ?_, ?_, ?_, ?_⟩
  · refine (wordPoly_ofFn_blocks a _ ![0, 0, 0, 1] fun j => ?_).trans ?_
    · simp [toomEvaluateAt]
    · simp [A]
  · refine (wordPoly_ofFn_blocks a _ ![1, 2, 4, 8] fun j => ?_).trans ?_
    · simp [toomEvaluateAt]
      ring
    · simp [A]
  · refine (wordPoly_ofFn_blocks a _ ![1, 1, 1, 1] fun j => ?_).trans ?_
    · simp [toomEvaluateAt]
      ring
    · simp [A]
  · refine (wordPoly_ofFn_blocks a _ ![1, -1, 1, -1] fun j => ?_).trans ?_
    · simp [toomEvaluateAt]
      ring
    · simp [A, sub_eq_add_neg]
  · refine (wordPoly_ofFn_blocks a _ ![8, 4, 2, 1] fun j => ?_).trans ?_
    · simp [toomEvaluateAt]
      ring
    · simp [A]
  · refine (wordPoly_ofFn_blocks a _ ![8, -4, 2, -1] fun j => ?_).trans ?_
    · simp [toomEvaluateAt]
      ring
    · simp [A, sub_eq_add_neg]
  · refine (wordPoly_ofFn_blocks a _ ![1, 0, 0, 0] fun j => ?_).trans ?_
    · simp [toomEvaluateAt]
    · simp [A]

/-- Digit `n` in `x^32` of the product of two polynomials in four blocks. -/
noncomputable def productDigit (A B : Fin 4 → (ZMod (2 ^ 16))[X]) (n : Fin 7) :
    (ZMod (2 ^ 16))[X] :=
  ∑ s : Fin 4, ∑ t : Fin 4, if s.val + t.val = n.val then A s * B t else 0

/-- The seven digits, written out. -/
theorem productDigit_eq (A B : Fin 4 → (ZMod (2 ^ 16))[X]) : productDigit A B =
    ![A 0 * B 0, A 0 * B 1 + A 1 * B 0, A 0 * B 2 + A 1 * B 1 + A 2 * B 0,
      A 0 * B 3 + A 1 * B 2 + A 2 * B 1 + A 3 * B 0, A 1 * B 3 + A 2 * B 2 + A 3 * B 1,
      A 2 * B 3 + A 3 * B 2, A 3 * B 3] := by
  funext n
  fin_cases n <;> simp [productDigit, Fin.sum_univ_four, add_assoc]

theorem productDigit_natDegree_lt {A B : Fin 4 → (ZMod (2 ^ 16))[X]}
    (hA : ∀ s, (A s).natDegree < 32) (hB : ∀ s, (B s).natDegree < 32) (n : Fin 7) :
    (productDigit A B n).natDegree < 63 := by
  refine Nat.lt_succ_of_le (natDegree_sum_le_of_forall_le _ _ fun s _ =>
    natDegree_sum_le_of_forall_le _ _ fun t _ => ?_)
  by_cases h : s.val + t.val = n.val
  · rw [if_pos h]
    exact Nat.le_of_lt_succ (natDegree_mul_lt (hA s) (hB t))
  · rw [if_neg h, natDegree_zero]
    exact Nat.zero_le _

theorem wordPoly_mul_eq_digits (a b : Poly) : wordPoly a * wordPoly b =
    ∑ n : Fin 7, X ^ (32 * n.val) * productDigit (block32 a) (block32 b) n := by
  rw [wordPoly_eq_block32 a, wordPoly_eq_block32 b]
  simp [Fin.sum_univ_succ, productDigit_eq]
  ring

/-- The seven product arrays are the product polynomial at the seven points. -/
theorem toomProducts_wordPoly (a b : Poly) :
    let w := toomProducts (toomEvaluate a) (toomEvaluate b)
    let D := productDigit (block32 a) (block32 b)
    wordPoly w.w1 = D 6 ∧
      wordPoly w.w2 =
        D 0 + C 2 * D 1 + C 4 * D 2 + C 8 * D 3 + C 16 * D 4 + C 32 * D 5 + C 64 * D 6 ∧
      wordPoly w.w3 = D 0 + D 1 + D 2 + D 3 + D 4 + D 5 + D 6 ∧
      wordPoly w.w4 = D 0 - D 1 + D 2 - D 3 + D 4 - D 5 + D 6 ∧
      wordPoly w.w5 =
        C 64 * D 0 + C 32 * D 1 + C 16 * D 2 + C 8 * D 3 + C 4 * D 4 + C 2 * D 5 + D 6 ∧
      wordPoly w.w6 =
        C 64 * D 0 - C 32 * D 1 + C 16 * D 2 - C 8 * D 3 + C 4 * D 4 - C 2 * D 5 + D 6 ∧
      wordPoly w.w7 = D 0 := by
  intro w D
  obtain ⟨a1, a2, a3, a4, a5, a6, a7⟩ := toomEvaluate_wordPoly a
  obtain ⟨b1, b2, b3, b4, b5, b6, b7⟩ := toomEvaluate_wordPoly b
  -- powers of one constant, for `ring` to combine
  have hpow : ∀ k : ℕ, (C (2 ^ k : ZMod (2 ^ 16)) : (ZMod (2 ^ 16))[X]) = C 2 ^ k :=
    fun k => C_pow
  have h4 : (C 4 : (ZMod (2 ^ 16))[X]) = C 2 ^ 2 := by rw [← hpow]; norm_num
  have h8 : (C 8 : (ZMod (2 ^ 16))[X]) = C 2 ^ 3 := by rw [← hpow]; norm_num
  have h16 : (C 16 : (ZMod (2 ^ 16))[X]) = C 2 ^ 4 := by rw [← hpow]; norm_num
  have h32 : (C 32 : (ZMod (2 ^ 16))[X]) = C 2 ^ 5 := by rw [← hpow]; norm_num
  have h64 : (C 64 : (ZMod (2 ^ 16))[X]) = C 2 ^ 6 := by rw [← hpow]; norm_num
  rw [h4, h8, h16, h32, h64]
  rw [h4, h8] at a2 a5 a6 b2 b5 b6
  refine ⟨?_, ?_, ?_, ?_, ?_, ?_, ?_⟩ <;>
    refine (wordPoly_karatsuba32SimpleU16 _ _).trans ?_ <;>
    simp only [a1, a2, a3, a4, a5, a6, a7, b1, b2, b3, b4, b5, b6, b7, D, productDigit_eq,
      Matrix.cons_val] <;>
    ring

end Blocks

section Fold

/-- `Z_{2^k}[x]/(x^128 + 1)`. -/
abbrev PolyRing (k : ℕ) := BinomialQuotient.Quotient (-1 : ZMod (2 ^ k)) 128

/-- The class of a polynomial with its coefficients read modulo `2^k`. -/
noncomputable def polyClass (k : ℕ) (f : Poly) : PolyRing k :=
  ofCoeffs (-1) fun i => residue k (f.get i)

theorem polyClass_eq_eval (k : ℕ) (f : Poly) :
    polyClass k f = eval (fun x => scalar (-1) 128 (residue k x)) (gen (-1) 128) f := rfl

theorem polyClass_replicate_zero (k : ℕ) : polyClass k (Vector.replicate 128 0) = 0 := by
  rw [polyClass_eq_eval]
  exact eval_replicate_zero _ (by rw [residue_zero, map_zero]) _

/-- Adding into one coefficient adds a monomial. -/
theorem polyClass_set_add {k : ℕ} (hk : k ≤ 16) (f : Poly) {i : ℕ} (hi : i < 128) (x : U16) :
    polyClass k (f.set i (f[i] + x) hi) =
      polyClass k f + scalar (-1) 128 (residue k x) * gen (-1) 128 ^ i := by
  rw [polyClass_eq_eval, polyClass_eq_eval]
  exact eval_set_add _ (fun x y => by rw [residue_add hk, map_add]) _ f hi x

theorem polyClass_set_add_sub {k : ℕ} (hk : k ≤ 16) (f : Poly) {i : ℕ} (hi : i < 128)
    (x y : U16) : polyClass k (f.set i (f[i] + x - y) hi) =
      polyClass k f + scalar (-1) 128 (residue k x - residue k y) * gen (-1) 128 ^ i := by
  rw [add_sub_assoc, polyClass_set_add hk, residue_sub hk]

theorem polyClass_set_sub {k : ℕ} (hk : k ≤ 16) (f : Poly) {i : ℕ} (hi : i < 128)
    (x : U16) : polyClass k (f.set i (f[i] - x) hi) =
      polyClass k f - scalar (-1) 128 (residue k x) * gen (-1) 128 ^ i := by
  have hneg : scalar (-1 : ZMod (2 ^ k)) 128 (residue k (-x)) =
      -scalar (-1) 128 (residue k x) := by
    rw [residue_neg hk, map_neg]
  rw [sub_eq_add_neg, polyClass_set_add hk, hneg]
  ring

/-- Powers from `x^128` on wrap around with a sign. -/
theorem gen_pow_wrap (k : ℕ) {n : ℕ} (hn : 128 ≤ n) :
    (gen (-1) 128 : PolyRing k) ^ n = -gen (-1) 128 ^ (n - 128) := by
  have h128 : (gen (-1) 128 : PolyRing k) ^ 128 = -1 := by
    rw [gen_pow, map_neg, map_one]
  calc (gen (-1) 128 : PolyRing k) ^ n = gen (-1) 128 ^ 128 * gen (-1) 128 ^ (n - 128) := by
        rw [← pow_add, Nat.add_sub_cancel' hn]
    _ = -gen (-1) 128 ^ (n - 128) := by
        rw [h128, neg_one_mul]

/-- A pass of the fold adds the seven digits, those from `x^128` on with their sign. -/
theorem polyClass_toomFoldStep (i : ℕ) (hi : i < 63) (t : ToomRegisters) (r : Poly) :
    let σ := fun x : U16 => scalar (-1 : ZMod (2 ^ 13)) 128 (residue 13 x)
    let g : PolyRing 13 := gen (-1) 128
    polyClass 13 (toomFoldStep i hi t r) = polyClass 13 r +
      (σ t.r6 + σ t.r5 * g ^ 32 + σ t.r4 * g ^ 64 + σ t.r3 * g ^ 96 + σ t.r2 * g ^ 128 +
        σ t.r1 * g ^ 160 + σ t.r0 * g ^ 192) * g ^ i := by
  intro σ g
  have h128 : g ^ 128 = -1 := by
    have h := gen_pow_wrap 13 (le_refl 128)
    rwa [Nat.sub_self, pow_zero] at h
  have h160 : g ^ 160 = -g ^ 32 := gen_pow_wrap 13 (by decide)
  have h192 : g ^ 192 = -g ^ 64 := gen_pow_wrap 13 (by decide)
  rw [toomFoldStep, h160, h192, h128]
  by_cases h : i < 32
  · -- all four blocks start inside the array
    simp only [h, dif_pos]
    rw [polyClass_set_add (by omega), polyClass_set_add_sub (by omega),
      polyClass_set_add_sub (by omega), polyClass_set_add_sub (by omega)]
    simp only [map_sub, pow_add, σ]
    ring
  · -- the digit at `x^96` wraps around
    have hwrap : g ^ 96 * g ^ i = -g ^ (i - 32) := by
      have h := gen_pow_wrap 13 (show 128 ≤ 96 + i by omega)
      rwa [pow_add, show 96 + i - 128 = i - 32 by omega] at h
    simp only [h, dif_neg, not_false_eq_true]
    rw [polyClass_set_sub (by omega), polyClass_set_add_sub (by omega),
      polyClass_set_add_sub (by omega), polyClass_set_add_sub (by omega)]
    simp only [map_sub, pow_add, σ]
    linear_combination (-(scalar (-1 : ZMod (2 ^ 13)) 128 (residue 13 t.r3))) * hwrap

/-- The coefficient of `x^i` in digit `n` of the product, as a number. -/
noncomputable def digitAt (a b : Poly) (i : ℕ) (n : Fin 7) : ℕ :=
  ((productDigit (block32 a) (block32 b) n).coeff i).val

/-- The registers after the interpolation hold the digits of the product. -/
theorem toomInterpolate_residue (a b : Poly) (i : ℕ) (hi : i < 63) :
    let t := toomInterpolate ((toomProducts (toomEvaluate a) (toomEvaluate b)).read i hi)
    residue 13 t.r6 = digitAt a b i 0 ∧ residue 13 t.r5 = digitAt a b i 1 ∧
      residue 13 t.r4 = digitAt a b i 2 ∧ residue 13 t.r3 = digitAt a b i 3 ∧
      residue 13 t.r2 = digitAt a b i 4 ∧ residue 13 t.r1 = digitAt a b i 5 ∧
      residue 13 t.r0 = digitAt a b i 6 := by
  intro t
  let d := fun n => ((digitAt a b i n : ℕ) : ℤ)
  have hd : ∀ n, ((d n : ℤ) : ZMod (2 ^ 16)) =
      (productDigit (block32 a) (block32 b) n).coeff i := by
    intro n
    change (((digitAt a b i n : ℕ) : ℤ) : ZMod (2 ^ 16)) = _
    rw [Int.cast_natCast]
    exact ZMod.natCast_zmod_val _
  obtain ⟨w1, w2, w3, w4, w5, w6, w7⟩ := toomProducts_wordPoly a b
  obtain ⟨h6, h5, h4, h3, h2, h1, h0⟩ := toomInterpolate_carries
    ((toomProducts (toomEvaluate a) (toomEvaluate b)).read i hi)
    (d 0) (d 1) (d 2) (d 3) (d 4) (d 5) (d 6)
    (by rw [carries_iff_residue, hd]; simp only [ToomPoints.read, wordPoly_coeff, w1])
    (by rw [carries_iff_residue]
        simp only [ToomPoints.read, wordPoly_coeff, w2, Int.cast_add, Int.cast_mul,
          Int.cast_ofNat, hd, Polynomial.coeff_add, coeff_C_mul])
    (by rw [carries_iff_residue]
        simp only [ToomPoints.read, wordPoly_coeff, w3, Int.cast_add, hd, Polynomial.coeff_add])
    (by rw [carries_iff_residue]
        simp only [ToomPoints.read, wordPoly_coeff, w4, Int.cast_add, Int.cast_sub, hd,
          Polynomial.coeff_add, Polynomial.coeff_sub])
    (by rw [carries_iff_residue]
        simp only [ToomPoints.read, wordPoly_coeff, w5, Int.cast_add, Int.cast_mul,
          Int.cast_ofNat, hd, Polynomial.coeff_add, coeff_C_mul])
    (by rw [carries_iff_residue]
        simp only [ToomPoints.read, wordPoly_coeff, w6, Int.cast_add, Int.cast_sub, Int.cast_mul,
          Int.cast_ofNat, hd, Polynomial.coeff_add, Polynomial.coeff_sub, coeff_C_mul])
    (by rw [carries_iff_residue, hd]; simp only [ToomPoints.read, wordPoly_coeff, w7])
  refine ⟨?_, ?_, ?_, ?_, ?_, ?_, ?_⟩
  · exact (h6.mono (by omega)).residue_eq.trans (Int.cast_natCast _)
  · exact h5.residue_eq.trans (Int.cast_natCast _)
  · exact h4.residue_eq.trans (Int.cast_natCast _)
  · exact (h3.mono (by omega)).residue_eq.trans (Int.cast_natCast _)
  · exact h2.residue_eq.trans (Int.cast_natCast _)
  · exact h1.residue_eq.trans (Int.cast_natCast _)
  · exact (h0.mono (by omega)).residue_eq.trans (Int.cast_natCast _)

/-- Reduction modulo `2^13` followed by evaluation at the class of `x`. -/
noncomputable def reduceHom : (ZMod (2 ^ 16))[X] →+* PolyRing 13 :=
  eval₂RingHom ((scalar (-1) 128).comp (ZMod.castHom (by decide : 2 ^ 13 ∣ 2 ^ 16) _))
    (gen (-1) 128)

theorem reduceHom_wordPoly (f : Poly) : reduceHom (wordPoly f) = polyClass 13 f := by
  rw [reduceHom, coe_eval₂RingHom, eval₂_toPoly, polyClass_eq_eval]
  simp only [RingHom.comp_apply, castHom_residue]

theorem reduceHom_X : reduceHom X = gen (-1) 128 := by
  rw [reduceHom, coe_eval₂RingHom, eval₂_X]

/-- A short polynomial is evaluated coefficient by coefficient. -/
theorem reduceHom_eq_sum {P : (ZMod (2 ^ 16))[X]} {m : ℕ} (hP : P.natDegree < m) :
    reduceHom P = ∑ i ∈ Finset.range m,
      scalar (-1) 128 ((P.coeff i).val : ZMod (2 ^ 13)) * gen (-1) 128 ^ i := by
  rw [reduceHom, coe_eval₂RingHom, eval₂_eq_sum_range' _ hP]
  refine Finset.sum_congr rfl fun i _ => ?_
  rw [RingHom.comp_apply, ZMod.castHom_apply, ZMod.natCast_val]

/-- The product written by its digits. -/
theorem polyClass_mul_eq_digits (a b : Poly) : polyClass 13 a * polyClass 13 b =
    ∑ i ∈ Finset.range 63, ∑ n : Fin 7, gen (-1) 128 ^ (32 * n.val) *
      (scalar (-1) 128 (digitAt a b i n : ZMod (2 ^ 13)) * gen (-1) 128 ^ i) := by
  have hD := productDigit_natDegree_lt (block32_natDegree_lt a) (block32_natDegree_lt b)
  rw [← reduceHom_wordPoly a, ← reduceHom_wordPoly b, ← map_mul, wordPoly_mul_eq_digits, map_sum,
    Finset.sum_comm]
  refine Finset.sum_congr rfl fun n _ => ?_
  rw [map_mul, map_pow, reduceHom_X, reduceHom_eq_sum (hD n), Finset.mul_sum]
  rfl

/-- The fold leaves the starting value plus the negacyclic product, modulo `2^13`. -/
theorem polyClass_toom4_128FoldU16 (a b r : Poly) (clear : Bool) :
    polyClass 13 (toom4_128FoldU16 a b r clear) =
      polyClass 13 (if clear then Vector.replicate 128 0 else r) +
        polyClass 13 a * polyClass 13 b := by
  rw [polyClass_mul_eq_digits]
  refine (fold_sum (fun _ => True) (polyClass 13) _ trivial ?_).2
  rintro i hi r' -
  refine ⟨trivial, ?_⟩
  obtain ⟨h6, h5, h4, h3, h2, h1, h0⟩ := toomInterpolate_residue a b i hi
  rw [polyClass_toomFoldStep]
  simp only [h6, h5, h4, h3, h2, h1, h0, Fin.sum_univ_seven]
  simp only [Fin.isValue, Fin.coe_ofNat_eq_mod, Nat.reduceMod, Nat.reduceMul, pow_zero]
  ring

theorem polyClass_polyMaccToom4U16 (r f g : Poly) :
    polyClass 13 (polyMaccToom4U16 r f g) = polyClass 13 r + polyClass 13 f * polyClass 13 g := by
  rw [polyMaccToom4U16, polyClass_toom4_128FoldU16]
  rfl

theorem polyClass_polyMulToom4U16 (r f g : Poly) :
    polyClass 13 (polyMulToom4U16 r f g) = polyClass 13 f * polyClass 13 g := by
  rw [polyMulToom4U16, polyClass_toom4_128FoldU16, if_pos rfl, polyClass_replicate_zero, zero_add]

end Fold

section Schoolbook

theorem polyClass_schoolbookStep {k : ℕ} (hk : k ≤ 16) (f g : Poly) (i : ℕ) (hi : i < 128)
    (j : ℕ) (hj : j < 128) (acc : Poly) :
    polyClass k (schoolbookStep f g i hi j hj acc) = polyClass k acc +
      scalar (-1) 128 (residue k f[i]) * gen (-1) 128 ^ i *
        (scalar (-1) 128 (residue k g[j]) * gen (-1) 128 ^ j) := by
  rw [schoolbookStep]
  by_cases h : i + j < 128
  · simp only [h, dif_pos]
    rw [polyClass_set_add hk, residue_mul hk, RingHom.map_mul, pow_add]
    ring
  · have hwrap : (gen (-1) 128 : PolyRing k) ^ i * gen (-1) 128 ^ j =
        -gen (-1) 128 ^ (i + j - 128) := by
      rw [← pow_add, gen_pow_wrap k (by omega)]
    simp only [h, dif_neg, not_false_eq_true]
    rw [polyClass_set_sub hk, residue_mul hk, RingHom.map_mul]
    linear_combination (-(scalar (-1 : ZMod (2 ^ k)) 128 (residue k f[i]) *
      scalar (-1) 128 (residue k g[j]))) * hwrap

theorem polyClass_eq_range (k : ℕ) (f : Poly) : polyClass k f = ∑ i ∈ Finset.range 128,
    if h : i < 128 then scalar (-1) 128 (residue k f[i]) * gen (-1) 128 ^ i else 0 := by
  rw [polyClass, ofCoeffs, ← Fin.sum_univ_eq_sum_range]
  refine Finset.sum_congr rfl fun i _ => ?_
  rw [dif_pos i.isLt]
  rfl

/-- The schoolbook product loses no bit. -/
theorem polyClass_polyMulSchoolbook {k : ℕ} (hk : k ≤ 16) (f g : Poly) :
    polyClass k (polyMulSchoolbook f g) = polyClass k f * polyClass k g := by
  have hrow : ∀ i (hi : i < 128) acc, polyClass k
      (Nat.fold 128 (fun j hj acc => schoolbookStep f g i hi j hj acc) acc) =
      polyClass k acc +
        scalar (-1) 128 (residue k f[i]) * gen (-1) 128 ^ i * polyClass k g := by
    intro i hi acc
    rw [polyClass_eq_range k g, Finset.mul_sum]
    refine (fold_sum (fun _ => True) (polyClass k) _ trivial ?_).2
    rintro j hj acc' -
    rw [polyClass_schoolbookStep hk, dif_pos hj]
    exact ⟨trivial, rfl⟩
  rw [polyClass_eq_range k f, Finset.sum_mul]
  obtain ⟨-, hfold⟩ := fold_sum (a := Vector.replicate 128 0)
    (f := fun i hi acc =>
      Nat.fold 128 (fun j hj acc => schoolbookStep f g i hi j hj acc) acc)
    (fun _ => True) (polyClass k) (fun i => (if h : i < 128 then
      scalar (-1) 128 (residue k f[i]) * gen (-1) 128 ^ i else 0) * polyClass k g) trivial (by
      rintro i hi acc -
      rw [hrow, dif_pos hi]
      exact ⟨trivial, rfl⟩)
  rw [polyMulSchoolbook, hfold, polyClass_replicate_zero, zero_add]

end Schoolbook

section Integers

/-- The polynomial with its words read as integers, in `Z[x]/(x^128 + 1)`. -/
noncomputable def intPoly (f : Poly) : BinomialQuotient.Quotient (-1 : ℤ) 128 :=
  ofCoeffs (-1) fun i => ((f.get i).toNat : ℤ)

/-- Reduction of the integer ring modulo `2^k`. -/
noncomputable def reducePoly (k : ℕ) : BinomialQuotient.Quotient (-1 : ℤ) 128 →+* PolyRing k :=
  BinomialQuotient.map (Int.castRingHom _) (by simp) 128

theorem reducePoly_intPoly (k : ℕ) (f : Poly) : reducePoly k (intPoly f) = polyClass k f := by
  rw [reducePoly, intPoly, map_ofCoeffs, polyClass]
  congr 1
  funext i
  rw [eq_intCast, Int.cast_natCast]
  rfl

/-- A polynomial of words stands for an integer polynomial modulo `2^k`. -/
theorem polyClass_eq_reducePoly_iff (k : ℕ) (f : Poly)
    (x : BinomialQuotient.Quotient (-1 : ℤ) 128) :
    polyClass k f = reducePoly k x ↔
      ∀ i : Fin 128, ((f.get i).toNat : ℤ) ≡ BinomialQuotient.coeff x i [ZMOD 2 ^ k] := by
  have hx : reducePoly k x = ofCoeffs (-1) fun i =>
      ((BinomialQuotient.coeff x i : ℤ) : ZMod (2 ^ k)) := by
    conv_lhs => rw [← ofCoeffs_coeff x, reducePoly, map_ofCoeffs]
    rfl
  rw [hx, polyClass, ofCoeffs_injective.eq_iff, funext_iff]
  exact forall_congr' fun i => (carries_iff_residue _ _).symm

/-- Toom-Cook agrees with the schoolbook product modulo `2^13`, the schoolbook
product is the negacyclic one modulo `2^16`, and the accumulating form adds it. -/
theorem toom4_eq_schoolbook_eq_negacyclic (f g r0 : Poly) (k : Fin 128) :
    let product := BinomialQuotient.coeff (intPoly f * intPoly g)
    ((polyMulToom4 f g).get k).toNat ≡ ((polyMulSchoolbook f g).get k).toNat [MOD 2 ^ 13] ∧
      (((polyMulSchoolbook f g).get k).toNat : ℤ) ≡ product k [ZMOD 2 ^ 16] ∧
      (((polyMaccToom4U16 r0 f g).get k).toNat : ℤ) ≡ (r0.get k).toNat + product k
        [ZMOD 2 ^ 13] := by
  intro product
  have hmul : ∀ k, reducePoly k (intPoly f * intPoly g) = polyClass k f * polyClass k g := by
    intro k
    rw [map_mul, reducePoly_intPoly, reducePoly_intPoly]
  have htoom := (polyClass_eq_reducePoly_iff 13 (polyMulToom4 f g) _).mp
    ((polyClass_polyMulToom4U16 _ f g).trans (hmul 13).symm) k
  have hschool : ∀ n ≤ 16, (((polyMulSchoolbook f g).get k).toNat : ℤ) ≡ product k [ZMOD 2 ^ n] :=
    fun n hn => (polyClass_eq_reducePoly_iff n _ _).mp
      ((polyClass_polyMulSchoolbook hn f g).trans (hmul n).symm) k
  have hmacc := (polyClass_eq_reducePoly_iff 13 (polyMaccToom4U16 r0 f g)
    (intPoly r0 + intPoly f * intPoly g)).mp (by
      rw [polyClass_polyMaccToom4U16, map_add, reducePoly_intPoly, hmul]) k
  refine ⟨?_, hschool 16 le_rfl, ?_⟩
  · have h := htoom.trans (hschool 13 (by omega)).symm
    exact_mod_cast h
  · rwa [BinomialQuotient.coeff_add, intPoly, coeff_ofCoeffs] at hmacc

end Integers

end RrlwrKem
