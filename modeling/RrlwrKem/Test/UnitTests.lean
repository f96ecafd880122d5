import RrlwrKem.Arith.PolyOperations
import RrlwrKem.Program

/-!
# The unit tests

`test/unit_tests_KEM.c`: random inputs from the generator, a reference multiplication of
ring elements by two nested loops, and the round trips of the packers and of the
encryption. A test is the conjunction of its assertions and the context after its draws;
the assertions are those of a build without `NDEBUG`, which the `Makefile` defines.
-/

namespace RrlwrKem

open ArrayPolynomial BinomialQuotient Word

variable {K : ℕ}

section Reference

def refPolyMulSchoolbook (f g : Poly) : Poly := polyMulSchoolbook f g

def polyAddto (r f : Poly) : Poly := polyAdd r f

/-- The body of the loops of `ref_ring_mul`. -/
def refRingStep (a s : RingElement K) (i : ℕ) (hi : i < K) (j : ℕ) (hj : j < K)
    (h : RingElement K) : RingElement K :=
  let t := refPolyMulSchoolbook a[i] s[j]
  if hlt : i + j < K then h.set (i + j) (polyAddto h[i + j] t)
  else
    have hd : i + j - K < K := by omega
    let wrapped := polyMulXPlus2 t
    h.set (i + j - K) (polyAddto h[i + j - K] wrapped)

def refRingMul (a s : RingElement K) : RingElement K :=
  Nat.fold K (fun i hi h => Nat.fold K (fun j hj h => refRingStep a s i hi j hj h) h)
    (Vector.replicate K (Vector.replicate 128 0))

variable {k : ℕ}

theorem polyClass_set_polyAddto (hk : k ≤ 16) (h : RingElement K) {n : ℕ} (hn : n < K) (t : Poly)
    (o : Fin K) : polyClass k ((h.set n (polyAddto h[n] t) hn).get o) =
      polyClass k (h.get o) + if n = o.val then polyClass k t else 0 := by
  rw [Vector.get_eq_getElem, Vector.getElem_set]
  by_cases he : n = o.val
  · rw [if_pos he, if_pos he, polyAddto, polyClass_polyAdd hk]
    simp only [he]
    rfl
  · rw [if_neg he, if_neg he, add_zero]
    rfl

/-- One pass adds one term of the wrapped convolution to its row. -/
theorem polyClass_refRingStep (hk : k ≤ 16) (a s : RingElement K) (i j o : Fin K)
    (h : RingElement K) : polyClass k ((refRingStep a s i i.isLt j j.isLt h).get o) =
      polyClass k (h.get o) +
        if i.val + j.val = o.val then polyClass k (a.get i) * polyClass k (s.get j)
        else if i.val + j.val = o.val + K then
          xPlus2 k * (polyClass k (a.get i) * polyClass k (s.get j)) else 0 := by
  have ho := o.isLt
  have hproduct : polyClass k (refPolyMulSchoolbook a[i.val] s[j.val]) =
      polyClass k (a.get i) * polyClass k (s.get j) := polyClass_polyMulSchoolbook hk _ _
  rw [refRingStep]
  by_cases hlt : i.val + j.val < K
  · have hne : ¬ i.val + j.val = o.val + K := by omega
    rw [dif_pos hlt, polyClass_set_polyAddto hk, hproduct, if_neg hne]
  · have hne : ¬ i.val + j.val = o.val := by omega
    have hiff : i.val + j.val - K = o.val ↔ i.val + j.val = o.val + K := by omega
    rw [dif_neg hlt, polyClass_set_polyAddto hk, polyClass_polyMulXPlus2 hk, hproduct, if_neg hne]
    simp only [hiff]

/-- The reference multiplication loses no bit. -/
theorem polyClass_refRingMul (hk : k ≤ 16) (a s : RingElement K) (o : Fin K) :
    polyClass k ((refRingMul a s).get o) = mulCoeffs (xPlus2 k) (fun i => polyClass k (a.get i))
      (fun j => polyClass k (s.get j)) o := by
  let term : Fin K → Fin K → PolyRing k := fun i j =>
    if i.val + j.val = o.val then polyClass k (a.get i) * polyClass k (s.get j)
    else if i.val + j.val = o.val + K then
      xPlus2 k * (polyClass k (a.get i) * polyClass k (s.get j)) else 0
  have hrow : ∀ (i : Fin K) (h : RingElement K), polyClass k ((Nat.fold K
      (fun j hj h => refRingStep a s i i.isLt j hj h) h).get o) =
      polyClass k (h.get o) + ∑ j, term i j := by
    intro i h
    have hfold := (fold_sum (n := K) (f := fun j hj h => refRingStep a s i i.isLt j hj h) (a := h)
      (fun _ => True) (fun h => polyClass k (h.get o))
      (fun j => if hj : j < K then term i ⟨j, hj⟩ else 0) trivial (by
        rintro j hj h -
        refine ⟨trivial, ?_⟩
        rw [dif_pos hj]
        exact polyClass_refRingStep hk a s i ⟨j, hj⟩ o h)).2
    rw [hfold, Finset.sum_range]
    simp only [Fin.is_lt, dif_pos]
  have hfold := (fold_sum (n := K)
    (f := fun i hi h => Nat.fold K (fun j hj h => refRingStep a s i hi j hj h) h)
    (a := Vector.replicate K (Vector.replicate 128 0))
    (fun _ => True) (fun h => polyClass k (h.get o))
    (fun i => if hi : i < K then ∑ j, term ⟨i, hi⟩ j else 0) trivial (by
      rintro i hi h -
      refine ⟨trivial, ?_⟩
      rw [dif_pos hi]
      exact hrow ⟨i, hi⟩ h)).2
  have hzero : (Vector.replicate K (Vector.replicate 128 0) : RingElement K).get o =
      Vector.replicate 128 0 := Vector.getElem_replicate _
  rw [refRingMul, hfold, hzero, polyClass_replicate_zero, zero_add, Finset.sum_range]
  simp only [Fin.is_lt, dif_pos]
  rfl

end Reference

section Comparison

def polyEqualModQ (a b : Poly) : Bool := (List.finRange 128).all fun i =>
  (promote (a.get i) ^^^ promote (b.get i)) &&& (8192 - 1) == 0

def ringEqualModQ (a b : RingElement K) : Bool := (List.finRange K).all fun i =>
  polyEqualModQ (a.get i) (b.get i)

theorem polyEqualModQ_iff (a b : Poly) :
    polyEqualModQ a b = true ↔ polyClass 13 a = polyClass 13 b := by
  have hcoeff : ∀ x y : U16, (promote x ^^^ promote y) &&& (8192 - 1) = 0 ↔
      residue 13 x = residue 13 y := by
    intro x y
    have hwiden : ∀ z : BitVec 13, z.setWidth 32 = (0 : U32) ↔ z = 0 := by
      intro z
      rw [← BitVec.toNat_inj, ← BitVec.toNat_inj, BitVec.toNat_setWidth_of_le (by decide)]
      rfl
    have hxor : (promote x ^^^ promote y).setWidth 13 = x.setWidth 13 ^^^ y.setWidth 13 := by
      rw [BitVec.setWidth_xor, BitVec.setWidth_setWidth_of_le _ (by decide),
        BitVec.setWidth_setWidth_of_le _ (by decide)]
    rw [show (8192 - 1 : U32) = BitVec.ofNat 32 (2 ^ 13 - 1) from rfl, and_mask _ (by decide),
      hwiden, hxor, residue_eq_iff, ← BitVec.toNat_setWidth, ← BitVec.toNat_setWidth,
      BitVec.toNat_inj]
    exact BitVec.xor_eq_zero_iff
  rw [polyClass, polyClass, (ofCoeffs_injective (c := -1)).eq_iff, funext_iff, polyEqualModQ,
    List.all_eq_true]
  simp only [List.mem_finRange, true_imp_iff, beq_iff_eq, hcoeff]

theorem ringEqualModQ_iff [NeZero K] (a b : RingElement K) :
    ringEqualModQ a b = true ↔ ringClass 13 a = ringClass 13 b := by
  rw [ringClass, ringClass, (ofCoeffs_injective (c := xPlus2 13)).eq_iff, funext_iff,
    ringEqualModQ, List.all_eq_true]
  simp only [List.mem_finRange, true_imp_iff, polyEqualModQ_iff]

end Comparison

section Tests

def generateRandomInt32 (drng : DrngCtx) : U32 × DrngCtx :=
  let draw := getRandomNumber programSha3_256 drng emptyBuf 32
  let x := draw.2.2
  (promoteByte (x 0) ||| promoteByte (x 1) <<< 8 ||| promoteByte (x 2) <<< 16 |||
    promoteByte (x 3) <<< 24, draw.2.1)

def reduceModQ (x : U32) : U16 := toU16 (x &&& (8192 - 1))

/-- The loops that draw a number for each coefficient. -/
def fillPoly (coeff : U32 → U16) (r : Poly) (drng : DrngCtx) : Poly × DrngCtx :=
  Nat.fold 128 (fun i hi s =>
    let draw := generateRandomInt32 s.2
    (s.1.set i (coeff draw.1), draw.2)) (r, drng)

def fillRing (coeff : U32 → U16) (r : RingElement K) (drng : DrngCtx) : RingElement K × DrngCtx :=
  Nat.fold K (fun j hj s =>
    let f := fillPoly coeff s.1[j] s.2
    (s.1.set j f.1, f.2)) (r, drng)

def randomPolyModQ (r : Poly) (drng : DrngCtx) : Poly × DrngCtx := fillPoly reduceModQ r drng

def testPolyMulToom4 (drng : DrngCtx) : Bool × DrngCtx :=
  let f := randomPolyModQ (Vector.replicate 128 0) drng
  let g := randomPolyModQ (Vector.replicate 128 0) f.2
  let hp := polyMulToom4 f.1 g.1
  let hs := refPolyMulSchoolbook f.1 g.1
  (polyEqualModQ hp hs, g.2)

/-- The inputs of `test_ring_mul`, drawn in turn. -/
def randomFactors (K : ℕ) (drng : DrngCtx) : RingElement K × RingElement K × DrngCtx :=
  Nat.fold K (fun i hi (t : RingElement K × RingElement K × DrngCtx) =>
    let a := randomPolyModQ t.1[i] t.2.2
    let s := randomPolyModQ t.2.1[i] a.2
    (t.1.set i a.1, t.2.1.set i s.1, s.2)) (emptyRing K, emptyRing K, drng)

def testRingMul (K : ℕ) (drng : DrngCtx) : Bool × DrngCtx :=
  let inputs := randomFactors K drng
  let a := inputs.1
  let s := inputs.2.1
  let r := ringMul (emptyRing K) a s le_rfl
  let h := refRingMul a s
  let aw := ringToAwin (emptyAwin K) a
  let r' := ringMulAwin r aw s le_rfl
  (ringEqualModQ r h && ringEqualModQ r' h, inputs.2.2)

/-- The coefficients of the first round trip of `test_packing`. -/
def packingCoeff2 (x : U32) : U16 :=
  let q := (1 : U32) <<< 2
  toU16 ((1 - (x.srem q + q).srem q) &&& (8192 - 1))

/-- The coefficients of the others. -/
def packingCoeff (bitlen : ℕ) (x : U32) : U16 :=
  let q := (1 : U32) <<< bitlen
  toU16 ((q.sdiv 2 - 1 - (x.srem q + q).srem q) &&& (q - 1))

/-- A round trip of `test_packing`, from what the last one left in its arrays. -/
def packingRound (bitlen : ℕ) (coeff : U32 → U16) (s : RingElement K × RingElement K × DrngCtx) :
    Bool × RingElement K × RingElement K × DrngCtx :=
  let r := fillRing coeff s.1 s.2.2
  let rc1 := r.1
  let buffer := ringPack emptyBuf r.1 bitlen
  let rc2 := ringUnpack s.2.1 buffer bitlen
  (decide (rc1 = rc2), r.1, rc2, r.2)

variable (P : SecurityLevel)

def testPacking (drng : DrngCtx) : Bool × DrngCtx :=
  let t2 := packingRound 2 packingCoeff2 (emptyRing P.k, emptyRing P.k, drng)
  let tq := packingRound 13 (packingCoeff 13) t2.2
  let tp := packingRound 11 (packingCoeff 11) tq.2
  let tt := packingRound P.logt (packingCoeff P.logt) tp.2
  (t2.1 && tq.1 && tp.1 && tt.1, tt.2.2.2)

def testPke (drng : DrngCtx) : Bool × DrngCtx :=
  let seedA := generateRandomBytes drng 64
  let seedS := generateRandomBytes seedA.2 64
  let seedSp := generateRandomBytes seedS.2 64
  let m := generateRandomBytes seedSp.2 P.messageLen
  let keys := pkeKeygen P programXof emptyBuf emptyBuf seedA.1 seedS.1
  let ct := pkeEncrypt P programXof emptyBuf keys.1 (bufOf m.1) seedSp.1
  let mp := pkeDecrypt P emptyBuf ct keys.2
  (decide (m.1 = bytesOf P.messageLen mp), m.2)

/-- The loop of `main`. -/
def unitTests : (todo : ℕ) → DrngCtx → Bool × DrngCtx
  | 0, drng => (true, drng)
  | todo + 1, drng =>
    let mul := testPolyMulToom4 drng
    let ring := testRingMul P.k mul.2
    let packing := testPacking P ring.2
    let pke := testPke P packing.2
    let rest := unitTests todo pke.2
    (mul.1 && ring.1 && packing.1 && pke.1 && rest.1, rest.2)

end Tests

section Draws

theorem generateRandomInt32_ctx (drng : DrngCtx) :
    (generateRandomInt32 drng).2 = after 1 drng := rfl

theorem fillPoly_spec (coeff : U32 → U16) (r : Poly) (drng : DrngCtx) :
    (∀ k : Fin 128, ∃ x, (fillPoly coeff r drng).1.get k = coeff x) ∧
      (fillPoly coeff r drng).2 = after 128 drng := by
  have hinv := fold_invariant (n := 128) (f := fun i hi (s : Poly × DrngCtx) =>
    let draw := generateRandomInt32 s.2
    (s.1.set i (coeff draw.1), draw.2)) (a := (r, drng))
    (fun t s => (∀ k : Fin 128, k.val < t → ∃ x, s.1.get k = coeff x) ∧ s.2 = after t drng)
    ⟨fun k h0 => absurd h0 (Nat.not_lt_zero _), rfl⟩ (by
      rintro i hi s ⟨hdone, hctx⟩
      refine ⟨fun k hk => ?_, ?_⟩
      · simp only [Vector.get_eq_getElem, Vector.getElem_set]
        by_cases he : i = k.val
        · exact ⟨_, if_pos he⟩
        · rw [if_neg he]
          exact hdone k (by omega)
      · rw [generateRandomInt32_ctx, hctx, after_after])
  exact ⟨fun k => hinv.1 k k.isLt, hinv.2⟩

theorem fillRing_spec (coeff : U32 → U16) (r : RingElement K) (drng : DrngCtx) :
    (∀ (j : Fin K) (k : Fin 128), ∃ x, ((fillRing coeff r drng).1.get j).get k = coeff x) ∧
      (fillRing coeff r drng).2 = after (K * 128) drng := by
  have hinv := fold_invariant (n := K) (f := fun j hj (s : RingElement K × DrngCtx) =>
    let f := fillPoly coeff s.1[j] s.2
    (s.1.set j f.1, f.2)) (a := (r, drng))
    (fun t s => (∀ j : Fin K, j.val < t → ∀ k : Fin 128, ∃ x, (s.1.get j).get k = coeff x) ∧
      s.2 = after (t * 128) drng)
    ⟨fun j h0 => absurd h0 (Nat.not_lt_zero _), by rw [Nat.zero_mul]; rfl⟩ (by
      rintro i hi s ⟨hdone, hctx⟩
      obtain ⟨hfill, hnext⟩ := fillPoly_spec coeff s.1[i] s.2
      refine ⟨fun j hj k => ?_, ?_⟩
      · have hget : (s.1.set i (fillPoly coeff s.1[i] s.2).1 hi).get j =
            if i = j.val then (fillPoly coeff s.1[i] s.2).1 else s.1.get j := Vector.getElem_set ..
        change ∃ x, ((s.1.set i (fillPoly coeff s.1[i] s.2).1 hi).get j).get k = coeff x
        rw [hget]
        split
        · exact hfill k
        · exact hdone j (by omega) k
      · rw [hnext, hctx, after_after, Nat.succ_mul])
  exact ⟨fun j => hinv.1 j j.isLt, hinv.2⟩

theorem randomFactors_ctx (K : ℕ) (drng : DrngCtx) :
    (randomFactors K drng).2.2 = after (K * 256) drng := by
  refine fold_invariant (fun t (s : RingElement K × RingElement K × DrngCtx) =>
    s.2.2 = after (t * 256) drng) (by rw [Nat.zero_mul]; rfl) ?_
  intro i hi s hctx
  have hnext : ∀ r drng, (randomPolyModQ r drng).2 = after 128 drng :=
    fun r drng => (fillPoly_spec reduceModQ r drng).2
  simp only [hnext, hctx, after_after]
  rw [Nat.succ_mul]

end Draws

section RoundTrips

/-- Reduction leaves a coefficient alone that it has produced. -/
theorem Reduced.eq {w : ℕ} {x y : U16} (hx : Reduced w x x) (h : Reduced w x y) : x = y := by
  rw [Reduced] at hx h
  refine BitVec.eq_of_toNat_eq ?_
  by_cases h2 : w = 2
  · rw [if_pos h2] at hx h
    obtain ⟨hx, -⟩ := hx
    obtain ⟨hy, hmod⟩ := h
    simp only [Finset.mem_insert, Finset.mem_singleton] at hx hy
    omega
  · rw [if_neg h2] at hx h
    exact hx.trans h.symm

theorem reduced_packingCoeff2 (x : U32) : Reduced 2 (packingCoeff2 x) (packingCoeff2 x) := by
  have hrem : (x.srem 4).toInt = x.toInt.tmod 4 := BitVec.toInt_srem x 4
  have hm : x.srem 4 = BitVec.ofInt 32 (x.toInt.tmod 4) := by rw [← hrem, BitVec.ofInt_toInt]
  have hlt := Int.tmod_lt_of_pos x.toInt (show (0 : ℤ) < 4 by decide)
  have hgt := Int.lt_tmod_of_pos x.toInt (show (0 : ℤ) < 4 by decide)
  have hmem : (packingCoeff2 x).toNat ∈ ({0, 1, 8191, 8190} : Finset ℕ) := by
    rw [packingCoeff2, show (1 : U32) <<< 2 = 4 from rfl, hm]
    generalize x.toInt.tmod 4 = t at hlt hgt
    interval_cases t <;> decide
  exact ⟨hmem, rfl⟩

theorem reduced_packingCoeff {w : ℕ} (h2 : w ≠ 2) (hw : w ≤ 16) (x : U32) :
    Reduced w (packingCoeff w x) (packingCoeff w x) := by
  let z := ((1 : U32) <<< w).sdiv 2 - 1 - (x.srem (1 <<< w) + 1 <<< w).srem (1 <<< w)
  have h := toNat_masked hw (carries_self w z)
  rw [← mask_eq] at h
  have hcoeff : (packingCoeff w x).toNat = z.toNat % 2 ^ w := by exact_mod_cast h
  rw [Reduced, if_neg h2, hcoeff, Nat.mod_mod]

/-- A round trip succeeds on coefficients that are reduced. -/
theorem packingRound_spec {w : ℕ} (hw1 : 1 ≤ w) (hw : w ≤ 16) {coeff : U32 → U16}
    (hcoeff : ∀ x, Reduced w (coeff x) (coeff x))
    (s : RingElement K × RingElement K × DrngCtx) :
    (packingRound w coeff s).1 = true ∧
      (packingRound w coeff s).2.2.2 = after (K * 128) s.2.2 := by
  obtain ⟨hfill, hctx⟩ := fillRing_spec coeff s.1 s.2.2
  refine ⟨decide_eq_true (Vector.ext fun j hj => Vector.ext fun k hk => ?_), hctx⟩
  obtain ⟨x, hx⟩ := hfill ⟨j, hj⟩ ⟨k, hk⟩
  have hred := hcoeff x
  rw [← hx] at hred
  exact hred.eq ((ringPack_isCodec hw1 hw).unpack_pack emptyBuf _ s.2.1 ⟨j, hj⟩ ⟨k, hk⟩)

end RoundTrips

section Outcomes

variable (P : SecurityLevel)

theorem testPolyMulToom4_eq (drng : DrngCtx) :
    testPolyMulToom4 drng = (true, after 256 drng) := by
  have hnext : ∀ r drng, (randomPolyModQ r drng).2 = after 128 drng :=
    fun r drng => (fillPoly_spec reduceModQ r drng).2
  refine Prod.ext ((polyEqualModQ_iff _ _).mpr ?_) ?_
  · rw [polyMulToom4, polyClass_polyMulToom4U16, refPolyMulSchoolbook,
      polyClass_polyMulSchoolbook (by decide)]
  · rw [testPolyMulToom4, hnext, hnext, after_after]

/-- The fast products and the reference agree modulo `q` on all inputs. -/
theorem ringClass_refRingMul (a s : RingElement K) :
    ringClass 13 (refRingMul a s) = ringClass 13 a * ringClass 13 s := by
  rw [ringClass, ringClass, ringClass, ← ofCoeffs_mulCoeffs]
  exact congrArg (ofCoeffs _) (funext fun o => polyClass_refRingMul (by decide) a s o)

theorem testRingMul_eq [NeZero K] (drng : DrngCtx) :
    testRingMul K drng = (true, after (K * 256) drng) := by
  refine Prod.ext ?_ (randomFactors_ctx K drng)
  refine Bool.and_eq_true_iff.mpr ⟨?_, ?_⟩ <;> refine (ringEqualModQ_iff _ _).mpr ?_
  · rw [ringClass_ringMul, ringClass_refRingMul]
  · rw [ringClass_refRingMul]
    exact ringClass_ringMul (ringMul (emptyRing K) _ _ le_rfl) _ _

theorem testPacking_eq (drng : DrngCtx) :
    testPacking P drng = (true, after (P.k * 512) drng) := by
  have hlogt : P.logt ≠ 2 ∧ 1 ≤ P.logt ∧ P.logt ≤ 16 := by
    cases P <;> decide
  have hround : ∀ w, w ≠ 2 → 1 ≤ w → w ≤ 16 → ∀ s : RingElement P.k × RingElement P.k × DrngCtx,
      (packingRound w (packingCoeff w) s).1 = true ∧
        (packingRound w (packingCoeff w) s).2.2.2 = after (P.k * 128) s.2.2 :=
    fun w h2 hw1 hw => packingRound_spec hw1 hw (reduced_packingCoeff h2 hw)
  let t2 := packingRound 2 packingCoeff2 (emptyRing P.k, emptyRing P.k, drng)
  let tq := packingRound 13 (packingCoeff 13) t2.2
  let tp := packingRound 11 (packingCoeff 11) tq.2
  obtain ⟨h2, hctx2⟩ := packingRound_spec (by decide) (by decide) reduced_packingCoeff2
    (emptyRing P.k, emptyRing P.k, drng)
  obtain ⟨hq, hctxq⟩ := hround 13 (by decide) (by decide) (by decide) t2.2
  obtain ⟨hp, hctxp⟩ := hround 11 (by decide) (by decide) (by decide) tq.2
  obtain ⟨ht, hctxt⟩ := hround P.logt hlogt.1 hlogt.2.1 hlogt.2.2 tp.2
  refine Prod.ext ?_ ?_
  · have hall : (t2.1 && tq.1 && tp.1 &&
        (packingRound P.logt (packingCoeff P.logt) tp.2).1) = true := by
      rw [show t2.1 = true from h2, show tq.1 = true from hq, show tp.1 = true from hp, ht]
      rfl
    exact hall
  · have hctx : (packingRound P.logt (packingCoeff P.logt) tp.2).2.2.2 =
        after (P.k * 128 + (P.k * 128 + (P.k * 128 + P.k * 128))) drng := by
      rw [hctxt, hctxp, hctxq, hctx2, after_after, after_after, after_after]
    refine hctx.trans (congrArg (after · drng) ?_)
    ring

/-- The draws of one round. -/
def roundDraws : ℕ := 256 + (P.k * 256 + (P.k * 512 + 4))

/-- The number of the first draw of `test_pke` in a round. -/
def pkeDraw (i : ℕ) : ℕ := i * roundDraws P + (256 + (P.k * 256 + P.k * 512))

theorem testPke_ctx (drng : DrngCtx) : (testPke P drng).2 = after 4 drng := by
  rw [testPke, generateRandomBytes_state, generateRandomBytes_state, generateRandomBytes_state,
    generateRandomBytes_state]
  rfl

/-- The round trip of `test_pke` succeeds on seeds of tolerable noise. -/
theorem testPke_passes (n : ℕ) (drng : DrngCtx)
    (h : Recovers P programXof (drawn drng n 64) (drawn drng (n + 1) 64) (drawn drng (n + 2) 64)) :
    (testPke P (after n drng)).1 = true := by
  have hctx : ∀ i len, (generateRandomBytes (after i drng) len).2 = after (i + 1) drng := by
    intro i len
    rw [generateRandomBytes_state]
    exact after_after 1 i drng
  have hdraw : ∀ i len, (generateRandomBytes (after i drng) len).1 = drawn drng i len :=
    generateRandomBytes_iterate drng
  have hrun := pkeDecrypt_pkeEncrypt programXof h (drawn drng (n + 3) P.messageLen) emptyBuf
    emptyBuf emptyBuf emptyBuf
  refine decide_eq_true ?_
  simp only [hctx, hdraw]
  exact hrun.symm

/-- A run is decided by its tests of the encryption. -/
theorem unitTests_iff (n : ℕ) (drng : DrngCtx) :
    (unitTests P n drng).2 = after (n * roundDraws P) drng ∧
      ((unitTests P n drng).1 = true ↔
        ∀ i < n, (testPke P (after (pkeDraw P i) drng)).1 = true) := by
  induction n generalizing drng with
  | zero =>
    refine ⟨?_, fun _ i hi => absurd hi (Nat.not_lt_zero i), fun _ => rfl⟩
    rw [Nat.zero_mul]
    rfl
  | succ n ih =>
    let pke := testPke P (after (pkeDraw P 0) drng)
    have hpke : pke.2 = after (roundDraws P) drng := by
      rw [testPke_ctx, after_after]
      refine congrArg (after · drng) ?_
      rw [pkeDraw, roundDraws]
      ring
    have hstep : unitTests P (n + 1) drng =
        (pke.1 && (unitTests P n pke.2).1, (unitTests P n pke.2).2) := by
      have hstart : pkeDraw P 0 = 256 + P.k * 256 + P.k * 512 := by
        rw [pkeDraw]
        ring
      simp only [unitTests, testPolyMulToom4_eq, testRingMul_eq, testPacking_eq, after_after,
        Bool.true_and, pke, hstart]
    have hlater : ∀ i, after (pkeDraw P i) pke.2 = after (pkeDraw P (i + 1)) drng := by
      intro i
      rw [hpke, after_after]
      refine congrArg (after · drng) ?_
      rw [pkeDraw, pkeDraw]
      ring
    obtain ⟨hctx, hrest⟩ := ih pke.2
    rw [hstep]
    refine ⟨?_, ?_⟩
    · rw [hctx, hpke, after_after, Nat.succ_mul, Nat.add_comm]
    · rw [Bool.and_eq_true_iff, hrest, Nat.forall_lt_succ_left]
      simp only [hlater, pke]

/-- From any context the multiplications agree with the reference and the packers invert one
another, so a run of any number of rounds fails exactly when a round trip of `test_pke` does,
which needs seeds out of tolerance, and these are draws at known positions. -/
theorem unitTests_outcome (n : ℕ) (drng : DrngCtx) :
    let pke := fun i => testPke P (after (pkeDraw P i) drng)
    let seed := fun i j => drawn drng (pkeDraw P i + j) 64
    (∀ ctx, testPolyMulToom4 ctx = (true, after 256 ctx) ∧
      testRingMul P.k ctx = (true, after (P.k * 256) ctx) ∧
      testPacking P ctx = (true, after (P.k * 512) ctx)) ∧
    (unitTests P n drng).2 = after (n * roundDraws P) drng ∧
    ((unitTests P n drng).1 = true ↔ ∀ i < n, (pke i).1 = true) ∧
    ∀ i, Recovers P programXof (seed i 0) (seed i 1) (seed i 2) → (pke i).1 = true := by
  intro pke seed
  obtain ⟨hctx, hiff⟩ := unitTests_iff P n drng
  refine ⟨fun ctx => ⟨testPolyMulToom4_eq ctx, testRingMul_eq ctx, testPacking_eq P ctx⟩, hctx,
    hiff, fun i h => testPke_passes P (pkeDraw P i) drng ?_⟩
  simpa only [seed, Nat.add_zero] using h

end Outcomes

end RrlwrKem
