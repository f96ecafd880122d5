import RrlwrKem.Arith.FusedPaths

/-!
# Arithmetic modulo a power of two

The remaining operations of `poly.c` and `ring.c`. Words carry more bits than the ring
has, so the laws of the ring hold after `poly_reduce_pow2`, whose results stand for the
classes one to one; and rounding undoes decompression.
-/

namespace RrlwrKem

open ArrayPolynomial BinomialQuotient Word

variable {K : ℕ}

section Definitions

def polyAdd (f g : Poly) : Poly := Vector.ofFn fun i => f.get i + g.get i

def polySub (f g : Poly) : Poly := Vector.ofFn fun i => f.get i - g.get i

def polyReducePow2 (f : Poly) (d : ℕ) : Poly :=
  let pow2 := (1 : U32) <<< d
  f.map fun c => toU16 (promote c &&& (pow2 - 1))

def ringRoundXtoy (f : RingElement K) (x y : ℕ) : RingElement K := f.map (polyRoundXtoy · x y)

/-- An operation on the polynomials of two ring elements. -/
def rows (op : Poly → Poly → Poly) (a b : RingElement K) : RingElement K :=
  Vector.ofFn fun i => op (a.get i) (b.get i)

/-- A ring element with its coefficients in `[0, q)`. -/
def reduceModulus (a : RingElement K) : RingElement K := a.map (polyReducePow2 · 13)

/-- The one of the ring. -/
def ringOne (K : ℕ) : RingElement K :=
  Vector.ofFn fun i => Vector.ofFn fun j => if i.val = 0 ∧ j.val = 0 then 1 else 0

end Definitions

section Classes

variable {k : ℕ}

theorem polyClass_polyAdd (hk : k ≤ 16) (f g : Poly) :
    polyClass k (polyAdd f g) = polyClass k f + polyClass k g := by
  rw [polyClass, polyClass, polyClass, ← ofCoeffs_add]
  refine congrArg (ofCoeffs (-1)) (funext fun i => ?_)
  rw [polyAdd, Vector.get_ofFn, residue_add hk]

theorem polyClass_polySub (hk : k ≤ 16) (f g : Poly) :
    polyClass k (polySub f g) = polyClass k f - polyClass k g := by
  rw [polyClass, polyClass, polyClass, ← ofCoeffs_sub]
  refine congrArg (ofCoeffs (-1)) (funext fun i => ?_)
  rw [polySub, Vector.get_ofFn, residue_sub hk]

theorem polyReducePow2_toNat {d : ℕ} (hd : d ≤ 16) (f : Poly) (i : Fin 128) :
    ((polyReducePow2 f d).get i).toNat = (f.get i).toNat % 2 ^ d := by
  have h := toNat_masked hd ((carries_self d (f.get i)).setWidth (v := 32) (by omega))
  rw [← mask_eq] at h
  rw [Vector.get_eq_getElem, polyReducePow2, Vector.getElem_map]
  exact_mod_cast h

/-- Reduced polynomials are the same exactly when the classes are. -/
theorem polyReducePow2_eq_iff {d : ℕ} (hd : d ≤ 16) (f g : Poly) :
    polyReducePow2 f d = polyReducePow2 g d ↔ polyClass d f = polyClass d g := by
  have hcoeff : (∀ i : Fin 128, (f.get i).toNat % 2 ^ d = (g.get i).toNat % 2 ^ d) ↔
      polyClass d f = polyClass d g := by
    rw [polyClass, polyClass, (ofCoeffs_injective (c := -1)).eq_iff, funext_iff]
    exact forall_congr' fun i => (residue_eq_iff _ _).symm
  rw [← hcoeff]
  constructor
  · intro h i
    rw [← polyReducePow2_toNat hd, ← polyReducePow2_toNat hd, h]
  · intro h
    refine Vector.ext fun i hi => BitVec.eq_of_toNat_eq ?_
    have hi' := h ⟨i, hi⟩
    rw [← polyReducePow2_toNat hd, ← polyReducePow2_toNat hd] at hi'
    exact hi'

theorem polyClass_polyReducePow2 {d : ℕ} (hd : d ≤ 16) (f : Poly) :
    polyClass d (polyReducePow2 f d) = polyClass d f := by
  refine (polyReducePow2_eq_iff hd _ _).mp (Vector.ext fun i hi => BitVec.eq_of_toNat_eq ?_)
  have hget : ∀ g : Poly, (polyReducePow2 g d)[i].toNat = g[i].toNat % 2 ^ d :=
    fun g => polyReducePow2_toNat hd g ⟨i, hi⟩
  rw [hget, hget, Nat.mod_mod]

end Classes

section Laws

theorem reduceModulus_eq_iff [NeZero K] (a b : RingElement K) :
    reduceModulus a = reduceModulus b ↔ ringClass 13 a = ringClass 13 b := by
  rw [ringClass, ringClass, (ofCoeffs_injective (c := xPlus2 13)).eq_iff, funext_iff]
  constructor
  · intro h i
    refine (polyReducePow2_eq_iff (by decide) _ _).mp ?_
    have hi := congrArg (fun v : RingElement K => v.get i) h
    simpa only [reduceModulus, Vector.get_eq_getElem, Vector.getElem_map] using hi
  · intro h
    refine Vector.ext fun i hi => ?_
    rw [reduceModulus, reduceModulus, Vector.getElem_map, Vector.getElem_map]
    exact (polyReducePow2_eq_iff (by decide) _ _).mpr (h ⟨i, hi⟩)

theorem ringClass_reduceModulus (a : RingElement K) :
    ringClass 13 (reduceModulus a) = ringClass 13 a := by
  refine congrArg (ofCoeffs _) (funext fun i => ?_)
  rw [reduceModulus, Vector.get_eq_getElem, Vector.getElem_map]
  exact polyClass_polyReducePow2 (by decide) _

theorem ringClass_rows_polyAdd (a b : RingElement K) :
    ringClass 13 (rows polyAdd a b) = ringClass 13 a + ringClass 13 b := by
  rw [ringClass, ringClass, ringClass, ← ofCoeffs_add]
  refine congrArg (ofCoeffs _) (funext fun i => ?_)
  rw [rows, Vector.get_ofFn, polyClass_polyAdd (by decide)]

theorem ringClass_rows_polySub (a b : RingElement K) :
    ringClass 13 (rows polySub a b) = ringClass 13 a - ringClass 13 b := by
  rw [ringClass, ringClass, ringClass, ← ofCoeffs_sub]
  refine congrArg (ofCoeffs _) (funext fun i => ?_)
  rw [rows, Vector.get_ofFn, polyClass_polySub (by decide)]

/-- All rows of the product together are the product of the classes. -/
theorem ringClass_ringMul (r : RingElement K) (a b : RingElement K) :
    ringClass 13 (ringMul r a b le_rfl) = ringClass 13 a * ringClass 13 b := by
  rw [ringClass, ringClass, ringClass, ← ofCoeffs_mulCoeffs]
  refine congrArg (ofCoeffs _) (funext fun i => ?_)
  have hidx : K - K + i.val = i.val := by omega
  have hrow := polyClass_awinRow (ringToAwin_isWindow
    (Vector.replicate _ (Vector.replicate 128 0)) a) b i i.isLt
  rw [← hrow, Vector.get_eq_getElem, ringMul, ringMulAwin_getElem]
  simp only [hidx]

/-- Every row of the result array is overwritten. -/
theorem ringMul_result (r r' a b : RingElement K) :
    ringMul r a b le_rfl = ringMul r' a b le_rfl := by
  refine Vector.ext fun i hi => ?_
  rw [ringMul, ringMul, ringMulAwin_getElem, ringMulAwin_getElem]

theorem ringClass_ringOne [NeZero K] : ringClass 13 (ringOne K) = 1 := by
  have hzero : ∀ i : Fin K, polyClass 13 ((ringOne K).get i) = if i.val = 0 then 1 else 0 := by
    intro i
    rw [ringOne, Vector.get_ofFn, polyClass]
    simp only [Vector.get_ofFn]
    by_cases hi : i.val = 0
    · rw [if_pos hi, ← ofCoeffs_one (by decide)]
      refine congrArg (ofCoeffs (-1)) (funext fun j => ?_)
      by_cases hj : j.val = 0
      · rw [if_pos ⟨hi, hj⟩, if_pos hj]
        rfl
      · rw [if_neg fun h => hj h.2, if_neg hj, residue_zero]
    · rw [if_neg hi]
      simp only [hi, false_and, if_false, residue_zero, ofCoeffs, map_zero, zero_mul,
        Finset.sum_const_zero]
  rw [ringClass, funext hzero, ofCoeffs_one (NeZero.pos K)]

/-- The ring of the scheme. The product of `ring_mul` and the sums and differences of
`poly_add` and `poly_sub`, taken modulo `q`, obey the laws of a commutative ring, whatever
is left in the high bits of the operands and in the result array. -/
theorem ringMul_laws (P : SecurityLevel) (r a b c : RingElement P.k) :
    let mul := fun a b : RingElement P.k => ringMul r a b le_rfl
    let red := reduceModulus (K := P.k)
    (∀ r' : RingElement P.k, ringMul r' a b le_rfl = mul a b) ∧
    red (mul a b) = red (mul b a) ∧
    red (mul (mul a b) c) = red (mul a (mul b c)) ∧
    red (mul a (rows polyAdd b c)) = red (rows polyAdd (mul a b) (mul a c)) ∧
    red (mul a (rows polySub b c)) = red (rows polySub (mul a b) (mul a c)) ∧
    red (mul (ringOne P.k) a) = red a ∧
    red (mul (red a) (red b)) = red (mul a b) ∧
    red (rows polySub (rows polyAdd a b) b) = red a := by
  intro mul red
  have hmul : ∀ a b, ringClass 13 (mul a b) = ringClass 13 a * ringClass 13 b :=
    ringClass_ringMul r
  refine ⟨fun r' => ringMul_result r' r a b, ?_, ?_, ?_, ?_, ?_, ?_, ?_⟩ <;>
    refine (reduceModulus_eq_iff _ _).mpr ?_
  · rw [hmul, hmul, mul_comm]
  · rw [hmul, hmul, hmul, hmul, mul_assoc]
  · rw [hmul, ringClass_rows_polyAdd, ringClass_rows_polyAdd, hmul, hmul, mul_add]
  · rw [hmul, ringClass_rows_polySub, ringClass_rows_polySub, hmul, hmul, mul_sub]
  · rw [hmul, ringClass_ringOne, one_mul]
  · rw [hmul, hmul, ringClass_reduceModulus, ringClass_reduceModulus]
  · rw [ringClass_rows_polySub, ringClass_rows_polyAdd, add_sub_cancel_right]

end Laws

section Rounding

theorem roundXtoy_lt {x y : ℕ} (hy : y < x) (hx : x ≤ 16) (f : U16) :
    (roundXtoy x y f).toNat < 2 ^ y := by
  have h := roundXtoy_toNat hy hx f
  have hlt := Int.emod_lt_of_pos ((f.toNat + 2 ^ (x - (y + 1))) / 2 ^ (x - y) : ℤ)
    (show (0 : ℤ) < 2 ^ y by positivity)
  rw [← h] at hlt
  exact_mod_cast hlt

/-- `poly_decompress` on one coefficient. -/
theorem decompress_toNat {x y : ℕ} (hy : y < x) (hx : x ≤ 16) {c : U16} (hc : c.toNat < 2 ^ y) :
    (toU16 (promote c <<< (x - y))).toNat = 2 ^ (x - y) * c.toNat := by
  have hpow : 2 ^ (x - y) * 2 ^ y = 2 ^ x := by
    rw [← pow_add]
    congr 1
    omega
  have hlt : 2 ^ (x - y) * c.toNat < 2 ^ 16 :=
    calc 2 ^ (x - y) * c.toNat < 2 ^ (x - y) * 2 ^ y :=
          Nat.mul_lt_mul_of_pos_left hc (by positivity)
      _ = 2 ^ x := hpow
      _ ≤ 2 ^ 16 := Nat.pow_le_pow_right (by decide) hx
  rw [BitVec.toNat_setWidth, BitVec.toNat_shiftLeft, BitVec.toNat_setWidth_of_le (by decide),
    Nat.shiftLeft_eq, Nat.mul_comm]
  omega

/-- Rounding sees a coefficient modulo `2^x`. -/
theorem roundXtoy_congr {x y : ℕ} (hy : y < x) (hx : x ≤ 16) {f f' : U16}
    (h : f.toNat % 2 ^ x = f'.toNat % 2 ^ x) : roundXtoy x y f = roundXtoy x y f' := by
  have hpow : 2 ^ (x - y) * 2 ^ y = 2 ^ x := by
    rw [← pow_add]
    congr 1
    omega
  have hnat : ∀ f : U16, (roundXtoy x y f).toNat =
      (f.toNat + 2 ^ (x - (y + 1))) % 2 ^ x / 2 ^ (x - y) := by
    intro f
    rw [← hpow, Nat.mod_mul_right_div_self]
    exact_mod_cast roundXtoy_toNat hy hx f
  refine BitVec.eq_of_toNat_eq ?_
  rw [hnat, hnat, Nat.add_mod, h, ← Nat.add_mod]

/-- What rounding and decompressing change: less than half a unit, half a unit at most
upwards. -/
theorem round_error {x y : ℕ} (hy : y < x) (hx : x ≤ 16) (f : U16) : ∃ e : ℤ,
    -2 ^ (x - (y + 1)) < e ∧ e ≤ 2 ^ (x - (y + 1)) ∧
      2 ^ (x - y) * ((roundXtoy x y f).toNat : ℤ) ≡ f.toNat + e [ZMOD 2 ^ x] := by
  have hunit : (2 : ℤ) ^ (x - y) = 2 * 2 ^ (x - (y + 1)) := by
    rw [← pow_succ']
    congr 1
    omega
  have hpow : (2 : ℤ) ^ x = 2 ^ (x - y) * 2 ^ y := by
    rw [← pow_add]
    congr 1
    omega
  let s : ℤ := f.toNat + 2 ^ (x - (y + 1))
  have hpos : (0 : ℤ) < 2 ^ (x - y) := by positivity
  have hnonneg := Int.emod_nonneg s hpos.ne'
  have hlt := Int.emod_lt_of_pos s hpos
  refine ⟨2 ^ (x - (y + 1)) - s % 2 ^ (x - y), by linarith, by linarith, ?_⟩
  have hdiv := Int.mul_ediv_add_emod s (2 ^ (x - y))
  have he : (f.toNat : ℤ) + (2 ^ (x - (y + 1)) - s % 2 ^ (x - y)) =
      2 ^ (x - y) * (s / 2 ^ (x - y)) := by linarith
  rw [he, roundXtoy_toNat hy hx, hpow]
  exact (Int.mod_modEq _ _).mul_left'

/-- Rounding takes a decompressed value back. -/
theorem roundXtoy_decompress {x y : ℕ} (hy : y < x) (hx : x ≤ 16) {c : U16}
    (hc : c.toNat < 2 ^ y) : roundXtoy x y (toU16 (promote c <<< (x - y))) = c := by
  have hunit : (2 : ℤ) ^ (x - y) = 2 * 2 ^ (x - (y + 1)) := by
    rw [← pow_succ']
    congr 1
    omega
  have hhalf : (0 : ℤ) < 2 ^ (x - (y + 1)) := by positivity
  have hfloor : ((2 : ℤ) ^ (x - y) * c.toNat + 2 ^ (x - (y + 1))) / 2 ^ (x - y) = c.toNat := by
    rw [add_comm, Int.add_mul_ediv_left _ _ (by positivity),
      Int.ediv_eq_zero_of_lt hhalf.le (by linarith), zero_add]
  have h := roundXtoy_toNat hy hx (toU16 (promote c <<< (x - y)))
  rw [decompress_toNat hy hx hc] at h
  push_cast at h
  rw [hfloor, Int.emod_eq_of_lt (Int.natCast_nonneg _) (by exact_mod_cast hc)] at h
  exact BitVec.eq_of_toNat_eq (by exact_mod_cast h)

/-- Rounding from `x` to `y` bits reads a coefficient modulo `2^x` only, and takes it to the
nearest of the values that decompression gives back: these are `2^(x-y)` apart, the one
that is chosen is half of that away at most, and rounding it again changes nothing. -/
theorem ringRoundXtoy_nearest (f : RingElement K) {x y : ℕ} (hy : y < x) (hx : x ≤ 16) :
    let g := ringRoundXtoy f x y
    (∀ f' : RingElement K, f.map (polyReducePow2 · x) = f'.map (polyReducePow2 · x) →
      ringRoundXtoy f' x y = g) ∧
    ∀ i : Fin K, let d := polyDecompress (g.get i) (x - y)
      polyRoundXtoy d x y = g.get i ∧
      ∀ k : Fin 128, ((g.get i).get k).toNat < 2 ^ y ∧
        (d.get k).toNat = 2 ^ (x - y) * ((g.get i).get k).toNat ∧
        ∃ e : ℤ, -2 ^ (x - (y + 1)) < e ∧ e ≤ 2 ^ (x - (y + 1)) ∧
          ((d.get k).toNat : ℤ) ≡ ((f.get i).get k).toNat + e [ZMOD 2 ^ x] := by
  intro g
  have hg : ∀ (f : RingElement K) (i : Fin K) (k : Fin 128),
      ((ringRoundXtoy f x y).get i).get k = roundXtoy x y ((f.get i).get k) := by
    intro f i k
    simp only [ringRoundXtoy, polyRoundXtoy, Vector.get_eq_getElem, Vector.getElem_map]
  have hd : ∀ (i : Fin K) (k : Fin 128), (polyDecompress (g.get i) (x - y)).get k =
      toU16 (promote (roundXtoy x y ((f.get i).get k)) <<< (x - y)) := by
    intro i k
    rw [polyDecompress, Vector.get_eq_getElem, Vector.getElem_map, ← hg]
    rfl
  refine ⟨fun f' h => ?_, fun i => ?_⟩
  · have hmod : ∀ (i : Fin K) (k : Fin 128),
        ((f.get i).get k).toNat % 2 ^ x = ((f'.get i).get k).toNat % 2 ^ x := by
      intro i k
      have hi := congrArg (fun v : RingElement K => (v.get i).get k) h
      simp only [Vector.get_eq_getElem, Vector.getElem_map] at hi
      rw [← polyReducePow2_toNat hx, ← polyReducePow2_toNat hx]
      exact congrArg BitVec.toNat hi
    refine Vector.ext fun i hi => Vector.ext fun k hk => ?_
    have hcoeff := roundXtoy_congr hy hx (hmod ⟨i, hi⟩ ⟨k, hk⟩)
    rw [← hg, ← hg] at hcoeff
    exact hcoeff.symm
  · intro d
    have hlt : ∀ k : Fin 128, (roundXtoy x y ((f.get i).get k)).toNat < 2 ^ y :=
      fun k => roundXtoy_lt hy hx _
    refine ⟨Vector.ext fun k hk => ?_, fun k => ⟨?_, ?_, ?_⟩⟩
    · have hback := roundXtoy_decompress hy hx (hlt ⟨k, hk⟩)
      rw [← hd, ← hg] at hback
      rw [polyRoundXtoy, Vector.getElem_map]
      exact hback
    · rw [hg]
      exact hlt k
    · rw [hd, hg, decompress_toNat hy hx (hlt k)]
    · obtain ⟨e, hlow, hhigh, hmod⟩ := round_error hy hx ((f.get i).get k)
      refine ⟨e, hlow, hhigh, ?_⟩
      rw [hd, decompress_toNat hy hx (hlt k)]
      push_cast
      exact hmod

/-- The rounding of the products, from `q` to `p`. -/
theorem ringRoundXtoy_nearest_q_to_p :
    let f : RingElement 5 := Vector.replicate 5 (Vector.replicate 128 8191)
    let g := ringRoundXtoy f 13 11
    let d := polyDecompress (g.get 0) (13 - 11)
    polyRoundXtoy d 13 11 = g.get 0 ∧
      ∀ k : Fin 128, ∃ e : ℤ, -2 ^ (13 - (11 + 1)) < e ∧ e ≤ 2 ^ (13 - (11 + 1)) ∧
        ((d.get k).toNat : ℤ) ≡ ((f.get 0).get k).toNat + e [ZMOD 2 ^ 13] := by
  intro f g d
  obtain ⟨hback, hcoeff⟩ :=
    (ringRoundXtoy_nearest f (show 11 < 13 by decide) (show 13 ≤ 16 by decide)).2 0
  exact ⟨hback, fun k => (hcoeff k).2.2⟩

end Rounding

end RrlwrKem
