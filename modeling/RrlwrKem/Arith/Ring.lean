import RrlwrKem.Arith.MessageCodec
import RrlwrKem.Arith.ToomCook

/-!
# Multiplication of ring elements

The window of `2K-1` rows, its builders from a ring element and from bytes, and
the multiplications that slide along it. A row of the product is a sum of `K`
polynomial products over neighbouring window entries; the entries past the
middle carry the factor `x + 2` of the relation `y^K = x + 2`.
-/

namespace RrlwrKem

open ArrayPolynomial BinomialQuotient Word

variable {K : ℕ}

section Definitions

def polyMulXPlus2 (f : Poly) : Poly := Vector.ofFn fun i : Fin 128 =>
  let xterm := if i.val = 0 then -f[127] else f[i.val - 1]
  2 * f.get i + xterm

/-- The second loop of the window builders. -/
def awinWrap (aw : RingElementAwin K) : RingElementAwin K :=
  Nat.fold (K - 1) (fun t ht aw =>
    let u := t + 1
    aw.set (2 * K - 1 - u) (polyMulXPlus2 aw[K - 1 - u])) aw

def ringToAwin (aw : RingElementAwin K) (a : RingElement K) : RingElementAwin K :=
  awinWrap (Nat.fold K (fun u hu aw => aw.set (K - 1 - u) a[u]) aw)

def ringUnpackAwin (aw : RingElementAwin K) (b : Buf) (bitlen : ℕ) : RingElementAwin K :=
  let offset := bitlen * 16
  awinWrap (Nat.fold K (fun u hu aw =>
    aw.set (K - 1 - u) (polyUnpack aw[K - 1 - u] (b.offset (u * offset)) bitlen)) aw)

/-- The accumulator of row `i`, as the four multiplications compute it. Its former
contents are cleared by the first product. -/
def awinRow (a : RingElementAwin K) (b : RingElement K) (i : ℕ) (hi : i < K) : Poly :=
  let acc := polyMulToom4U16 (Vector.replicate 128 0) a[K - 1 - i] b[0]
  Nat.fold (K - 1) (fun t ht acc =>
    polyMaccToom4U16 acc a[K - 1 - i + (t + 1)] b[t + 1]) acc

theorem row_lt {n o : ℕ} (hn : n ≤ K) (ho : o < n) : K - n + o < K := by omega

def ringMulAwin {n : ℕ} (r : Vector Poly n) (a : RingElementAwin K) (b : RingElement K)
    (hn : n ≤ K) : Vector Poly n :=
  Nat.foldRev n (fun out hout r => r.set out (awinRow a b (K - n + out) (row_lt hn hout))) r

def ringMulAwinRoundP {n : ℕ} (r : Vector Poly n) (a : RingElementAwin K) (b : RingElement K)
    (hn : n ≤ K) : Vector Poly n :=
  Nat.foldRev n (fun out hout r =>
    r.set out ((awinRow a b (K - n + out) (row_lt hn hout)).map roundQToPFromU16)) r

def ringMulAwinAddMsgPackT (P : SecurityLevel) (ct : Buf) (a : RingElementAwin P.k)
    (b : RingElement P.k) (msg : Buf) : Buf :=
  Nat.foldRev P.ell (fun out hout ct =>
    have hrow := row_lt P.ell_le_k hout
    ct.writeAt (out * P.packedPolyTLen) fun p =>
      polyPackCiphertextTFromAccMsg P.logt p (awinRow a b (P.k - P.ell + out) hrow) msg out) ct

def ringMulAwinSubCmPackMsg (P : SecurityLevel) (m : Buf) (a : RingElementAwin P.k)
    (b : RingElement P.k) (ct : Buf) : Buf :=
  Nat.foldRev P.ell (fun out hout m =>
    have hrow := row_lt P.ell_le_k hout
    m.writeAt (out * 16) fun p =>
      polyPackMessageFromAccCm P.logt p (awinRow a b (P.k - P.ell + out) hrow)
        (ct.offset (out * P.packedPolyTLen))) m

def ringMul {n : ℕ} (r : Vector Poly n) (a b : RingElement K) (hn : n ≤ K) : Vector Poly n :=
  let aw := ringToAwin (Vector.replicate _ (Vector.replicate 128 0)) a
  ringMulAwin r aw b hn

end Definitions

section Window

/-- The window of `a`: its coefficients in reverse, then again times `x + 2`. -/
def IsWindow (aw : RingElementAwin K) (a : RingElement K) : Prop :=
  (∀ u (hu : u < K), aw[K - 1 - u] = a[u]) ∧
    ∀ u (_ : 1 ≤ u) (hu : u < K), aw[2 * K - 1 - u] = polyMulXPlus2 a[u]

theorem awinWrap_isWindow {aw : RingElementAwin K} {a : RingElement K}
    (h : ∀ u (hu : u < K), aw[K - 1 - u] = a[u]) : IsWindow (awinWrap aw) a := by
  obtain ⟨hbase, hwrap⟩ := fold_invariant (n := K - 1)
    (f := fun t ht (aw : RingElementAwin K) =>
      aw.set (2 * K - 1 - (t + 1)) (polyMulXPlus2 aw[K - 1 - (t + 1)])) (a := aw)
    (fun t aw' => (∀ u (hu : u < K), aw'[K - 1 - u] = a[u]) ∧
      ∀ u (_ : 1 ≤ u) (hu : u < K), u ≤ t → aw'[2 * K - 1 - u] = polyMulXPlus2 a[u])
    ⟨h, by intro u h1 hu h0; omega⟩ (by
      rintro t ht aw' ⟨hb, hw⟩
      refine ⟨fun u hu => ?_, fun u h1 hu hle => ?_⟩
      · -- writes behind the middle leave the base entries alone
        rw [Vector.getElem_set_ne _ _ (by omega)]
        exact hb u hu
      · by_cases he : u = t + 1
        · subst he
          rw [Vector.getElem_set_self, hb (t + 1) hu]
        · rw [Vector.getElem_set_ne _ _ (by omega)]
          exact hw u h1 hu (by omega))
  exact ⟨hbase, fun u h1 hu => hwrap u h1 hu (by omega)⟩

theorem ringToAwin_isWindow (aw : RingElementAwin K) (a : RingElement K) :
    IsWindow (ringToAwin aw a) a := by
  refine awinWrap_isWindow fun u hu => ?_
  have hcell : ∀ u : Fin K, K - 1 - u.val < 2 * K - 1 := by omega
  exact fold_set_get (fun u => ⟨K - 1 - u.val, hcell u⟩) (fun u => a.get u)
    (fun u v h => by
      have hv : K - 1 - u.val = K - 1 - v.val := congrArg Fin.val h
      omega) (fun _ _ _ => rfl) aw ⟨u, hu⟩

/-- A window is read from bytes as if the element were unpacked first. -/
theorem ringUnpackAwin_eq (aw : RingElementAwin K) (r : RingElement K) (b : Buf) {w : ℕ}
    (hw : w ≤ 16) : ringUnpackAwin aw b w = ringToAwin aw (ringUnpack r b w) := by
  have hrow : ∀ u (hu : u < K) (f : Poly),
      polyUnpack f (b.offset (u * (w * 16))) w = (ringUnpack r b w)[u] := by
    intro u hu f
    rw [ringUnpack_eq r b hw, Vector.getElem_ofFn, polyUnpack_eq _ _ hw,
      show u * (w * 16) = 16 * w * u by ring]
  refine congrArg (fun f => awinWrap (Nat.fold K f aw)) (funext fun u => funext fun hu =>
    funext fun aw' => ?_)
  rw [hrow u hu]

/-- A window read from bytes is the window of the unpacked element. -/
theorem ringUnpackAwin_isWindow (aw : RingElementAwin K) (r : RingElement K) (b : Buf) {w : ℕ}
    (hw : w ≤ 16) : IsWindow (ringUnpackAwin aw b w) (ringUnpack r b w) := by
  rw [ringUnpackAwin_eq aw r b hw]
  exact ringToAwin_isWindow aw _

end Window

section Product

/-- The constant of the relation `y^K = x + 2`. -/
noncomputable abbrev xPlus2 (k : ℕ) : PolyRing k := gen (-1) 128 + 2

/-- `Z_{2^k}[x,y]/(x^128 + 1, y^K - (x + 2))`. -/
abbrev RingClass (k K : ℕ) := BinomialQuotient.Quotient (xPlus2 k) K

/-- The class of a ring element with its coefficients read modulo `2^k`. -/
noncomputable def ringClass (k : ℕ) (a : RingElement K) : RingClass k K :=
  ofCoeffs (xPlus2 k) fun i => polyClass k (a.get i)

theorem polyClass_polyMulXPlus2 {k : ℕ} (hk : k ≤ 16) (f : Poly) :
    polyClass k (polyMulXPlus2 f) = xPlus2 k * polyClass k f := by
  have htwo : residue k (2 : U16) = 2 := by
    rw [show (2 : U16) = BitVec.ofNat 16 2 from rfl, residue_ofNat hk]
    rfl
  have hdouble : (2 : PolyRing k) * polyClass k f =
      ofCoeffs (-1) fun i : Fin 128 => 2 * residue k (f.get i) := by
    rw [ofCoeffs_mul_left, map_ofNat]
    rfl
  rw [xPlus2, add_mul, hdouble, polyClass, polyClass, gen_mul_ofCoeffs (by decide), ← ofCoeffs_add]
  refine congrArg (ofCoeffs (-1)) (funext fun i => ?_)
  rw [Vector.get_eq_getElem, polyMulXPlus2, Vector.getElem_ofFn, residue_add hk, residue_mul hk,
    htwo, add_comm]
  refine congrArg (· + 2 * residue k (f.get i)) ?_
  by_cases h0 : i.val = 0
  · rw [if_pos h0, if_pos h0, residue_neg hk, neg_one_mul]
    rfl
  · rw [if_neg h0, if_neg h0]
    rfl

/-- Row `i` of the window multiplication is row `i` of the wrapped convolution. -/
theorem polyClass_awinRow {aw : RingElementAwin K} {a : RingElement K} (h : IsWindow aw a)
    (b : RingElement K) (i : ℕ) (hi : i < K) :
    polyClass 13 (awinRow aw b i hi) =
      mulCoeffs (xPlus2 13) (fun u : Fin K => polyClass 13 (a.get u))
        (fun j => polyClass 13 (b.get j))
        ⟨i, hi⟩ := by
  let G : ℕ → PolyRing 13 := fun j => if hj : j < K then
    polyClass 13 aw[K - 1 - i + j] * polyClass 13 b[j] else 0
  have hfold := (fold_sum (n := K - 1)
    (f := fun t ht acc => polyMaccToom4U16 acc aw[K - 1 - i + (t + 1)] b[t + 1])
    (a := polyMulToom4U16 (Vector.replicate 128 0) aw[K - 1 - i] b[0])
    (fun _ => True) (polyClass 13) (fun t => G (t + 1)) trivial (by
      rintro t ht acc -
      refine ⟨trivial, ?_⟩
      have hlt : t + 1 < K := by omega
      rw [polyClass_polyMaccToom4U16]
      simp only [G, hlt, dif_pos])).2
  have hfirst : polyClass 13 aw[K - 1 - i] * polyClass 13 b[0] = G 0 := by
    have h0 : 0 < K := by omega
    simp only [G, h0, dif_pos, Nat.add_zero]
  have hsum : polyClass 13 (awinRow aw b i hi) = ∑ j ∈ Finset.range K, G j := by
    rw [awinRow, hfold, polyClass_polyMulToom4U16, hfirst, add_comm, ← Finset.sum_range_succ',
      Nat.sub_add_cancel (by omega)]
  rw [hsum, mulCoeffs_eq_sum, Finset.sum_range]
  refine Finset.sum_congr rfl fun j _ => ?_
  obtain ⟨hbase, hwrap⟩ := h
  have hj := j.isLt
  simp only [G, hj, dif_pos]
  by_cases hle : j.val ≤ i
  · -- up to the middle of the window: coefficient `i - j` of `a`
    have hidx : K - 1 - i + j.val = K - 1 - (i - j.val) := by omega
    simp only [hidx, hbase (i - j.val) (by omega), hle, if_pos]
    rfl
  · -- past the middle: coefficient `K + i - j` times `x + 2`
    have hidx : K - 1 - i + j.val = 2 * K - 1 - (K + i - j.val) := by omega
    have hmod : (i + K - j.val) % K = K + i - j.val := by
      rw [Nat.mod_eq_of_lt (by omega)]
      omega
    simp only [hidx, hwrap (K + i - j.val) (by omega) (by omega), hle, if_neg, not_false_eq_true,
      polyClass_polyMulXPlus2 (show 13 ≤ 16 by decide), hmod, mul_assoc]
    rfl

theorem ringMulAwin_getElem {n : ℕ} (r : Vector Poly n) (aw : RingElementAwin K)
    (b : RingElement K) (hn : n ≤ K) {o : ℕ} (ho : o < n) :
    (ringMulAwin r aw b hn)[o] = awinRow aw b (K - n + o) (row_lt hn ho) := by
  exact foldRev_set_get id (fun out => awinRow aw b (K - n + out) (row_lt hn out.isLt))
    Function.injective_id (fun _ _ _ => rfl) r ⟨o, ho⟩

end Product

section Integers

/-- The constant of the relation over the integers. -/
noncomputable abbrev intXPlus2 : BinomialQuotient.Quotient (-1 : ℤ) 128 := gen (-1) 128 + 2

/-- The ring element over the integers, in `Z[x,y]/(x^128 + 1, y^K - (x + 2))`. -/
noncomputable def intRing (a : RingElement K) : BinomialQuotient.Quotient intXPlus2 K :=
  ofCoeffs intXPlus2 fun i => intPoly (a.get i)

theorem reducePoly_intXPlus2 (k : ℕ) : reducePoly k intXPlus2 = xPlus2 k := by
  rw [map_add, reducePoly, map_gen, map_ofNat]

/-- Reduction of the integer ring modulo `2^k`. -/
noncomputable def reduceRing (k K : ℕ) :
    BinomialQuotient.Quotient intXPlus2 K →+* RingClass k K :=
  BinomialQuotient.map (reducePoly k) (reducePoly_intXPlus2 k) K

theorem reduceRing_intRing (k : ℕ) (a : RingElement K) :
    reduceRing k K (intRing a) = ringClass k a := by
  rw [reduceRing, intRing, map_ofCoeffs, ringClass]
  exact congrArg (ofCoeffs _) (funext fun i => reducePoly_intPoly k (a.get i))

theorem coeff_ringClass_mul [NeZero K] (k : ℕ) (a b : RingElement K) (i : Fin K) :
    BinomialQuotient.coeff (ringClass k a * ringClass k b) i =
      mulCoeffs (xPlus2 k) (fun u : Fin K => polyClass k (a.get u))
        (fun j => polyClass k (b.get j)) i := by
  rw [ringClass, ringClass, BinomialQuotient.coeff_mul]

theorem coeff_ringClass [NeZero K] (k : ℕ) (a : RingElement K) (i : Fin K) (j : Fin 128) :
    BinomialQuotient.coeff (BinomialQuotient.coeff (ringClass k a) i) j =
      residue k ((a.get i).get j) := by
  rw [ringClass, coeff_ofCoeffs, polyClass, coeff_ofCoeffs]

/-- The coefficients of a row of the window multiplication. -/
theorem residue_awinRow [NeZero K] {aw : RingElementAwin K} {a : RingElement K}
    (h : IsWindow aw a) (b : RingElement K) (i : ℕ) (hi : i < K) (j : Fin 128) :
    residue 13 ((awinRow aw b i hi).get j) = BinomialQuotient.coeff
      (BinomialQuotient.coeff (ringClass 13 a * ringClass 13 b) ⟨i, hi⟩) j := by
  rw [coeff_ringClass_mul, ← polyClass_awinRow h, polyClass, coeff_ofCoeffs]

theorem reducePoly_coeff_mul [NeZero K] (k : ℕ) (a b : RingElement K) (i : Fin K) :
    reducePoly k (BinomialQuotient.coeff (intRing a * intRing b) i) =
      BinomialQuotient.coeff (ringClass k a * ringClass k b) i := by
  rw [← reduceRing_intRing, ← reduceRing_intRing, ← map_mul, reduceRing, BinomialQuotient.coeff_map]

/-- The rows of the window multiplication are the coefficients of the product. -/
theorem awinRow_modEq [NeZero K] {aw : RingElementAwin K} {a : RingElement K} (h : IsWindow aw a)
    (b : RingElement K) (i : ℕ) (hi : i < K) (k : Fin 128) :
    (((awinRow aw b i hi).get k).toNat : ℤ) ≡
      BinomialQuotient.coeff (BinomialQuotient.coeff (intRing a * intRing b) ⟨i, hi⟩) k
        [ZMOD 2 ^ 13] := by
  refine (polyClass_eq_reducePoly_iff 13 _ _).mp ?_ k
  rw [polyClass_awinRow h, reducePoly_coeff_mul, coeff_ringClass_mul]

/-- Ring multiplication computes the top rows of the product in the quotient ring,
which are the rows of the wrapped double loop. -/
theorem ring_mul_eq_quotient_product (P : SecurityLevel) {n : ℕ} (a b : RingElement P.k)
    (aw : RingElementAwin P.k) (r : Vector Poly n) (hn : n ≤ P.k) (o : Fin n) :
    let row : Fin P.k := ⟨P.k - n + o, row_lt hn o.isLt⟩
    let product := BinomialQuotient.coeff (intRing a * intRing b) row
    (∀ k : Fin 128, ((((ringMul r a b hn).get o).get k).toNat : ℤ) ≡
      BinomialQuotient.coeff product k [ZMOD 2 ^ 13]) ∧
    (∀ k : Fin 128, ((((ringMulAwin r (ringToAwin aw a) b hn).get o).get k).toNat : ℤ) ≡
      BinomialQuotient.coeff product k [ZMOD 2 ^ 13]) ∧
    product = ∑ i : Fin P.k, ∑ j : Fin P.k,
      if i.val + j.val = row.val then intPoly (a.get i) * intPoly (b.get j)
      else if i.val + j.val = row.val + P.k then
        (gen (-1) 128 + 2) * (intPoly (a.get i) * intPoly (b.get j)) else 0 := by
  intro row product
  have hrow : ∀ aw : RingElementAwin P.k, ∀ k : Fin 128,
      ((((ringMulAwin r (ringToAwin aw a) b hn).get o).get k).toNat : ℤ) ≡
        BinomialQuotient.coeff product k [ZMOD 2 ^ 13] := by
    intro aw k
    have hget : (ringMulAwin r (ringToAwin aw a) b hn).get o = awinRow (ringToAwin aw a) b row _ :=
      ringMulAwin_getElem r _ b hn o.isLt
    rw [hget]
    exact awinRow_modEq (ringToAwin_isWindow aw a) b _ _ k
  refine ⟨hrow _, hrow aw, ?_⟩
  change BinomialQuotient.coeff (intRing a * intRing b) row = _
  rw [intRing, intRing, BinomialQuotient.coeff_mul]
  rfl

/-- The constant coefficient of a square at the lowest level. -/
theorem ring_mul_eq_quotient_product_level128 :
    ((((ringMul (Vector.replicate 5 (Vector.replicate 128 0))
      (Vector.replicate 5 (Vector.replicate 128 1) : RingElement 5)
      (Vector.replicate 5 (Vector.replicate 128 1)) le_rfl).get 0).get 0).toNat : ℤ) ≡
      BinomialQuotient.coeff (BinomialQuotient.coeff
        (intRing (Vector.replicate 5 (Vector.replicate 128 1) : RingElement 5) *
          intRing (Vector.replicate 5 (Vector.replicate 128 1))) (0 : Fin 5)) 0 [ZMOD 2 ^ 13] :=
  (ring_mul_eq_quotient_product .level128 (Vector.replicate 5 (Vector.replicate 128 1))
    (Vector.replicate 5 (Vector.replicate 128 1)) (Vector.replicate _ (Vector.replicate 128 0))
    (Vector.replicate 5 (Vector.replicate 128 0)) le_rfl 0).1 0

end Integers

end RrlwrKem
