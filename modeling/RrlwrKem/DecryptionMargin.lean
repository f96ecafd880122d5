import RrlwrKem.Pke

/-!
# The decryption margin

When does `pke_decrypt` return the encrypted message? The exact condition on the
noise is read off the message codec, one coefficient at a time. The noise itself
is a number computed from `a`, `s` and `s'` over the integers. Adding `p/(2t)`
where the flooring of the ciphertext calls for a subtraction moves the tolerated
window off its centre: within the margin of the design, decryption fails exactly
when the noise of a coefficient is below the lower end of that window.
-/

namespace RrlwrKem

open ArrayPolynomial BinomialQuotient BitStream Word

section Decoding

variable {P : SecurityLevel}

/-- One message bit through encryption and decryption, for any public and secret key. -/
theorem bitAt_decrypt_encrypt (m ct pk sk msg : Buf) (a : RingElementAwin P.k)
    (sp : RingElement P.k) (out : Fin P.ell) (k : Fin 128) :
    let ct' := encryptSampled P ct pk msg a sp
    let accp := (((encryptAcc P pk sp out).get k).toNat : ℤ)
    let acc := (((decryptAcc P ct' sk out).get k).toNat : ℤ)
    bitAt (pkeDecrypt P m ct' sk) (128 * out + k) = bitAt msg (128 * out + k) ↔
      ((accp + 2) % (2048 / 2 ^ P.logt) - (accp - acc) % 2048 +
        (2048 / (2 * 2 ^ P.logt) - 4) + 512) % 2048 < 1024 := by
  intro ct' accp acc
  have hdiv : (128 * out.val + k.val) / 8 = out.val * 16 + k.val / 8 := by omega
  have hmod : (128 * out.val + k.val) % 8 = k.val % 8 := by omega
  have hrow : bitAt (pkeDecrypt P m ct' sk) (128 * out + k) = bitAt
      (polyPackMessageFromAccCm P.logt m (decryptAcc P ct' sk out)
        (ct'.offset (out * P.packedPolyTLen))) k := by
    rw [bitAt, hdiv, hmod, pkeDecrypt_block m ct' sk out m (by omega)]
    rfl
  have hblock : ∀ j < 16 * P.logt, ct'.offset (out * P.packedPolyTLen) j =
      polyPackCiphertextTFromAccMsg P.logt ct (encryptAcc P pk sp out) msg out j := by
    intro j hj
    have hlen := P.packedPolyTLen_eq
    exact encryptSampled_block ct pk msg a sp out ct (by omega)
  rw [hrow, polyPackMessage_congr P.logt_cases m _ hblock]
  exact bitAt_roundtrip P.logt_cases ct m _ _ msg out k.isLt

/-- Two byte arrays agree when their bits do. -/
theorem bytesOf_eq_iff_bitAt {n : ℕ} (b : Buf) (v : Bytes n) :
    bytesOf n b = v ↔ ∀ i < 8 * n, bitAt b i = bitAt (bufOf v) i := by
  constructor
  · intro h i hi
    have hj : i / 8 < n := by omega
    rw [bitAt, bitAt, bufOf_apply v hj, ← h, bytesOf_getElem]
  · intro h
    rw [← bytesOf_bufOf v]
    exact bytesOf_congr fun j hj => byte_eq_of_bitAt fun t ht => h (8 * j + t) (by omega)

end Decoding

section Noise

variable (P : SecurityLevel)

/-- `round(p/q * x * y)` over the integers, each coefficient in `[0, p)`. -/
noncomputable def roundedProduct {K : ℕ} [NeZero K] (x y : RingElement K) :
    BinomialQuotient.Quotient intXPlus2 K :=
  ofCoeffs intXPlus2 fun i => ofCoeffs (-1) fun k : Fin 128 =>
    (BinomialQuotient.coeff (BinomialQuotient.coeff (intRing x * intRing y) i) k + 2) / 4 % 2 ^ 11

/-- A coefficient of message row `out` of `round(a * x) * y`. -/
noncomputable def sharedCoeff (a x y : RingElement P.k) (out : Fin P.ell) (k : Fin 128) : ℤ :=
  BinomialQuotient.coeff (BinomialQuotient.coeff (roundedProduct a x * intRing y)
    ⟨P.k - P.ell + out, P.row_lt out⟩) k

/-- The centred difference modulo `p` of what the two sides share. -/
noncomputable def noise (a s sp : RingElement P.k) (out : Fin P.ell) (k : Fin 128) : ℤ :=
  Int.bmod (sharedCoeff P a s sp out k - sharedCoeff P a sp s out k) 2048

/-- What the compression of the ciphertext drops. -/
noncomputable def floored (a s sp : RingElement P.k) (out : Fin P.ell) (k : Fin 128) : ℤ :=
  (sharedCoeff P a s sp out k + 2) % (2048 / 2 ^ P.logt)

/-- `p/4 - p/(2t)`. -/
def margin : ℤ := 2048 / 4 - 2048 / (2 * 2 ^ P.logt)

/-- Noise within the margin is also above the lower end of the tolerated window. -/
def WithinWindow (a s sp : RingElement P.k) : Prop :=
  (∀ out k, |noise P a s sp out k| < margin P) →
    ∀ out k, floored P a s sp out k - noise P a s sp out k <
      2048 / 4 - (2048 / (2 * 2 ^ P.logt) - 4)

theorem margin_pos : 0 < margin P := by
  cases P <;> decide

/-- Equal secrets make no noise. -/
theorem noise_self (a s : RingElement P.k) (out : Fin P.ell) (k : Fin 128) :
    noise P a s s out k = 0 := by
  rw [noise, sub_self]
  rfl

theorem withinWindow_self (a s : RingElement P.k) : WithinWindow P a s s := by
  intro _ out k
  rw [noise_self, sub_zero, floored]
  rcases P.logt_cases with h | h <;> rw [h] <;> omega

/-- Encryption and decryption after sampling, from any initial memory: if the centred
difference of the two accumulators is within the margin, the message comes back. -/
def DecryptsWithinMargin (a s sp : RingElement P.k) (msg : Bytes P.messageLen) : Prop :=
  ∀ (seedA : Bytes 64) (pk₀ sk₀ ct₀ m₀ : Buf),
    let aw := ringToAwin (emptyAwin P.k) a
    let keys := keygenSampled P pk₀ sk₀ seedA aw s
    let ct := encryptSampled P ct₀ keys.1 (bufOf msg) aw sp
    (∀ out (k : Fin 128), |Int.bmod (((encryptAcc P keys.1 sp out).get k).toNat -
      ((decryptAcc P ct keys.2 out).get k).toNat) 2048| < margin P) →
      bytesOf P.messageLen (pkeDecrypt P m₀ ct keys.2) = msg

theorem round_eq_of_modEq {x y : ℤ} (h : x ≡ y [ZMOD 2 ^ 13]) :
    (x + 2) / 4 % 2 ^ 11 = (y + 2) / 4 % 2 ^ 11 := by
  have hdvd := Int.modEq_iff_dvd.mp h
  omega

/-- The code rounds its product as the integers do. -/
theorem intRing_ringMulAwinRoundP {K : ℕ} [NeZero K] {aw : RingElementAwin K}
    {a : RingElement K} (h : IsWindow aw a) (r s : RingElement K) :
    intRing (ringMulAwinRoundP r aw s le_rfl) = roundedProduct a s := by
  refine congrArg (ofCoeffs intXPlus2)
    (funext fun i => congrArg (ofCoeffs (-1)) (funext fun k => ?_))
  rw [ringMulAwinRoundP_coeff, roundQToPFromU16_toNat]
  exact round_eq_of_modEq (awinRow_modEq h s i i.isLt k)

variable {P}

/-- Both accumulators stand for coefficients of the integer products. -/
theorem accumulators_modEq {a : RingElement P.k} {aw : RingElementAwin P.k} (h : IsWindow aw a)
    {s : RingElement P.k} (hs : IsSecret s) (sp : RingElement P.k) (seedA : Bytes 64)
    (pk₀ sk₀ ct₀ msg : Buf) {keys : Buf × Buf} {ct : Buf}
    (hkeys : keys = keygenSampled P pk₀ sk₀ seedA aw s)
    (hct : ct = encryptSampled P ct₀ keys.1 msg aw sp) (out : Fin P.ell) (k : Fin 128) :
    (((encryptAcc P keys.1 sp out).get k).toNat : ℤ) ≡ sharedCoeff P a s sp out k [ZMOD 2 ^ 13] ∧
      (((decryptAcc P ct keys.2 out).get k).toNat : ℤ) ≡ sharedCoeff P a sp s out k
        [ZMOD 2 ^ 13] := by
  have hrow := P.row_lt out
  have hsecret : ringUnpack (emptyRing P.k) keys.2 2 = s := by
    rw [hkeys, keygenSampled_secret _ _ _ _ _ _ hs]
  have hb : IsWindow (ringUnpackAwin (emptyAwin P.k) (keys.1.offset 64) 11) _ :=
    hkeys ▸ keygenSampled_window (emptyAwin P.k) pk₀ sk₀ seedA aw s
  have hbp : IsWindow (ringUnpackAwin (emptyAwin P.k)
      (ct.offset (P.ell * P.packedPolyTLen)) 11) _ :=
    hct ▸ encryptSampled_window (emptyAwin P.k) ct₀ keys.1 msg aw sp
  have hacc := awinRow_modEq hb sp (P.k - P.ell + out) hrow k
  have haccp := awinRow_modEq hbp s (P.k - P.ell + out) hrow k
  rw [intRing_ringMulAwinRoundP h] at hacc haccp
  rw [decryptAcc, hsecret]
  exact ⟨hacc, haccp⟩

theorem bmod_sub_congr {x y x' y' : ℤ} (hx : x ≡ x' [ZMOD 2 ^ 13]) (hy : y ≡ y' [ZMOD 2 ^ 13]) :
    Int.bmod (x - y) 2048 = Int.bmod (x' - y') 2048 := by
  have hdvd := Int.modEq_iff_dvd.mp hx
  have hdvd' := Int.modEq_iff_dvd.mp hy
  have hmod : (x - y) % 2048 = (x' - y') % 2048 := by omega
  simp only [Int.bmod, Nat.cast_ofNat, hmod]

/-- The window of the decoder, for noise within the margin. -/
theorem window_iff {t x y accp acc : ℤ} (ht : t = 2 ^ 3 ∨ t = 2 ^ 8)
    (hx : accp ≡ x [ZMOD 2 ^ 13]) (hy : acc ≡ y [ZMOD 2 ^ 13])
    (hmargin : |Int.bmod (x - y) 2048| < 2048 / 4 - 2048 / (2 * t)) :
    ((accp + 2) % (2048 / t) - (accp - acc) % 2048 + (2048 / (2 * t) - 4) + 512) % 2048 < 1024 ↔
      (x + 2) % (2048 / t) - Int.bmod (x - y) 2048 < 2048 / 4 - (2048 / (2 * t) - 4) := by
  have hmod : Int.bmod (x - y) 2048 % 2048 = (x - y) % 2048 := Int.bmod_emod
  have hdvd := Int.modEq_iff_dvd.mp hx
  have hdvd' := Int.modEq_iff_dvd.mp hy
  obtain ⟨hlo, hhi⟩ := abs_lt.mp hmargin
  generalize Int.bmod (x - y) 2048 = d at *
  rcases ht with rfl | rfl <;> omega

/-- One message bit of a run with noise within the margin. -/
theorem run_bit_iff {a : RingElement P.k} {aw : RingElementAwin P.k} (h : IsWindow aw a)
    {s : RingElement P.k} (hs : IsSecret s) (sp : RingElement P.k) (seedA : Bytes 64)
    (pk₀ sk₀ ct₀ m₀ msg : Buf) {keys : Buf × Buf} {ct : Buf}
    (hkeys : keys = keygenSampled P pk₀ sk₀ seedA aw s)
    (hct : ct = encryptSampled P ct₀ keys.1 msg aw sp) (out : Fin P.ell) (k : Fin 128)
    (hmargin : |noise P a s sp out k| < margin P) :
    bitAt (pkeDecrypt P m₀ ct keys.2) (128 * out + k) = bitAt msg (128 * out + k) ↔
      floored P a s sp out k - noise P a s sp out k < 2048 / 4 - (2048 / (2 * 2 ^ P.logt) - 4) := by
  have ht : (2 ^ P.logt : ℤ) = 2 ^ 3 ∨ (2 ^ P.logt : ℤ) = 2 ^ 8 := by
    rcases P.logt_cases with h | h <;> rw [h] <;> decide
  obtain ⟨hx, hy⟩ := accumulators_modEq h hs sp seedA pk₀ sk₀ ct₀ msg hkeys hct out k
  have hbit := bitAt_decrypt_encrypt m₀ ct₀ keys.1 keys.2 msg aw sp out k
  rw [← hct] at hbit
  exact hbit.trans (window_iff ht hx hy hmargin)

/-- The centred difference of the accumulators is the noise. -/
theorem bmod_accumulators {a : RingElement P.k} {aw : RingElementAwin P.k} (h : IsWindow aw a)
    {s : RingElement P.k} (hs : IsSecret s) (sp : RingElement P.k) (seedA : Bytes 64)
    (pk₀ sk₀ ct₀ msg : Buf) {keys : Buf × Buf} {ct : Buf}
    (hkeys : keys = keygenSampled P pk₀ sk₀ seedA aw s)
    (hct : ct = encryptSampled P ct₀ keys.1 msg aw sp) (out : Fin P.ell) (k : Fin 128) :
    Int.bmod (((encryptAcc P keys.1 sp out).get k).toNat -
      ((decryptAcc P ct keys.2 out).get k).toNat) 2048 =
      noise P a s sp out k := by
  obtain ⟨hx, hy⟩ := accumulators_modEq h hs sp seedA pk₀ sk₀ ct₀ msg hkeys hct out k
  exact bmod_sub_congr hx hy

/-- A run that decrypts within the margin shows the window condition. -/
theorem withinWindow_of_decrypts {a s sp : RingElement P.k} (hs : IsSecret s)
    {msg : Bytes P.messageLen} (h : DecryptsWithinMargin P a s sp msg) : WithinWindow P a s sp := by
  intro hmargin out k
  have haw := ringToAwin_isWindow (emptyAwin P.k) a
  -- one choice of seed and memory is enough, the noise does not depend on it
  have hall := h (Vector.replicate 64 0) (fun _ => 0) (fun _ => 0) (fun _ => 0) (fun _ => 0)
    (fun out k => by
      rw [bmod_accumulators haw hs sp _ _ _ _ _ rfl rfl]
      exact hmargin out k)
  have hlt : 128 * out.val + k.val < 8 * P.messageLen := by
    have hout := out.isLt
    rw [SecurityLevel.messageLen]
    omega
  exact (run_bit_iff haw hs sp _ _ _ _ _ _ rfl rfl out k (hmargin out k)).mp
    ((bytesOf_eq_iff_bitAt _ msg).mp hall _ hlt)

/-- The window condition makes every run decrypt. -/
theorem decrypts_of_withinWindow {a s sp : RingElement P.k} (hs : IsSecret s)
    (msg : Bytes P.messageLen) (h : WithinWindow P a s sp) : DecryptsWithinMargin P a s sp msg := by
  intro seedA pk₀ sk₀ ct₀ m₀ aw keys ct hacc
  have haw := ringToAwin_isWindow (emptyAwin P.k) a
  have hmargin : ∀ out k, |noise P a s sp out k| < margin P := by
    intro out k
    rw [← bmod_accumulators haw hs sp seedA pk₀ sk₀ ct₀ (bufOf msg) rfl rfl out k]
    exact hacc out k
  refine (bytesOf_eq_iff_bitAt _ msg).mpr fun i hi => ?_
  have hout : i / 128 < P.ell := by
    rw [SecurityLevel.messageLen] at hi
    omega
  have hidx : 128 * (i / 128) + i % 128 = i := Nat.div_add_mod i 128
  have hbit := (run_bit_iff haw hs sp seedA pk₀ sk₀ ct₀ m₀ (bufOf msg) rfl rfl ⟨i / 128, hout⟩
    ⟨i % 128, by omega⟩ (hmargin _ _)).mpr (h hmargin _ _)
  simp only [hidx] at hbit
  exact hbit

/-- Decryption is correct up to the margin exactly when noise within the margin is
also within the window of the decoder. -/
theorem decrypts_within_margin_iff (P : SecurityLevel) (a s sp : RingElement P.k)
    (hs : IsSecret s) (msg : Bytes P.messageLen) :
    DecryptsWithinMargin P a s sp msg ↔ WithinWindow P a s sp :=
  ⟨withinWindow_of_decrypts hs, decrypts_of_withinWindow hs msg⟩

end Noise

section OffCentre

/-- Residues of `-2`, and of `6` as the constant coefficient of the top row. -/
def offCentreA : RingElement SecurityLevel.level128.k :=
  Vector.ofFn fun i => Vector.ofFn fun k => if i.val = 4 ∧ k.val = 0 then 6 else 8190

/-- The secret `1`. -/
def offCentreS : RingElement SecurityLevel.level128.k :=
  Vector.ofFn fun i => Vector.ofFn fun k => if i.val = 0 ∧ k.val = 0 then 1 else 0

/-- A secret with two rows of residues of `-2`. -/
def offCentreSp : RingElement SecurityLevel.level128.k :=
  Vector.ofFn fun i => Vector.ofFn fun _ => if i.val < 2 then 8190 else 0

theorem offCentreA_lt (i : Fin SecurityLevel.level128.k) (k : Fin 128) :
    ((offCentreA.get i).get k).toNat < 2 ^ 13 := by
  simp only [offCentreA, Vector.get_eq_getElem, Vector.getElem_ofFn]
  by_cases h : i.val = 4 ∧ k.val = 0
  · rw [if_pos h]
    decide
  · rw [if_neg h]
    decide

theorem offCentreS_isSecret : IsSecret offCentreS := by
  intro i k
  simp only [offCentreS, Vector.get_eq_getElem, Vector.getElem_ofFn]
  by_cases h : i.val = 0 ∧ k.val = 0
  · rw [if_pos h]
    decide
  · rw [if_neg h]
    decide

theorem offCentreSp_isSecret : IsSecret offCentreSp := by
  intro i k
  simp only [offCentreSp, Vector.get_eq_getElem, Vector.getElem_ofFn]
  by_cases h : i.val < 2
  · rw [if_pos h]
    decide
  · rw [if_neg h]
    decide

/-- The polynomial with all coefficients one. -/
noncomputable abbrev ones : BinomialQuotient.Quotient (-1 : ℤ) 128 := ofCoeffs (-1) fun _ => 1

theorem coeff_intRing {K : ℕ} [NeZero K] (a : RingElement K) (i : Fin K) :
    BinomialQuotient.coeff (intRing a) i = intPoly (a.get i) := by
  rw [intRing, coeff_ofCoeffs]

theorem intPoly_offCentreA (i : Fin SecurityLevel.level128.k) : intPoly (offCentreA.get i) =
    scalar (-1) 128 8190 * ones - scalar (-1) 128 (if i.val = 4 then 8184 else 0) := by
  have hcoeff : ∀ k : Fin 128, (((offCentreA.get i).get k).toNat : ℤ) =
      8190 * 1 - (if i.val = 4 then 8184 else 0) * (if k.val = 0 then 1 else 0) := by
    intro k
    simp only [offCentreA, Vector.get_eq_getElem, Vector.getElem_ofFn]
    by_cases hi : i.val = 4 <;> by_cases hk : k.val = 0 <;> simp [hi, hk]
  rw [intPoly, funext hcoeff, ofCoeffs_sub, ofCoeffs_mul_left, ofCoeffs_mul_left,
    ofCoeffs_one (by decide), mul_one]

theorem intPoly_offCentreS (i : Fin SecurityLevel.level128.k) :
    intPoly (offCentreS.get i) = scalar (-1) 128 (if i.val = 0 then 1 else 0) := by
  have hcoeff : ∀ k : Fin 128, (((offCentreS.get i).get k).toNat : ℤ) =
      (if i.val = 0 then 1 else 0) * (if k.val = 0 then 1 else 0) := by
    intro k
    simp only [offCentreS, Vector.get_eq_getElem, Vector.getElem_ofFn]
    by_cases hi : i.val = 0 <;> by_cases hk : k.val = 0 <;> simp [hi, hk]
  rw [intPoly, funext hcoeff, ofCoeffs_mul_left, ofCoeffs_one (by decide), mul_one]

theorem intPoly_offCentreSp (i : Fin SecurityLevel.level128.k) :
    intPoly (offCentreSp.get i) = scalar (-1) 128 (if i.val < 2 then 8190 else 0) * ones := by
  have hcoeff : ∀ k : Fin 128, (((offCentreSp.get i).get k).toNat : ℤ) =
      (if i.val < 2 then 8190 else 0) * 1 := by
    intro k
    simp only [offCentreSp, Vector.get_eq_getElem, Vector.getElem_ofFn]
    by_cases hi : i.val < 2 <;> simp [hi]
  rw [intPoly, funext hcoeff, ofCoeffs_mul_left]

/-- Multiplication by the secret `1`, above the constant row. -/
theorem coeff_mul_offCentreS (x : BinomialQuotient.Quotient intXPlus2 SecurityLevel.level128.k)
    (i : Fin SecurityLevel.level128.k) (hi : 1 ≤ i.val) :
    BinomialQuotient.coeff (x * intRing offCentreS) i = BinomialQuotient.coeff x i := by
  have hrow : ∀ j : Fin SecurityLevel.level128.k, 1 ≤ j.val →
      BinomialQuotient.coeff (intRing offCentreS) j = 0 := by
    intro j hj
    rw [coeff_intRing, intPoly_offCentreS, if_neg (by omega), map_zero]
  have hzero : BinomialQuotient.coeff (intRing offCentreS) 0 = 1 := by
    rw [coeff_intRing, intPoly_offCentreS,
      if_pos (show (0 : Fin SecurityLevel.level128.k).val = 0 from rfl), map_one]
  rw [coeff_mul_of_two x _ (fun j hj => hrow j (by omega)) i hi, hzero, hrow ⟨1, _⟩ le_rfl,
    mul_one, mul_zero, add_zero]

/-- The top row of a product with the other secret. -/
theorem coeff_mul_offCentreSp (x : BinomialQuotient.Quotient intXPlus2 SecurityLevel.level128.k) :
    BinomialQuotient.coeff (x * intRing offCentreSp) ⟨4, by decide⟩ =
      (BinomialQuotient.coeff x ⟨4, by decide⟩ + BinomialQuotient.coeff x ⟨3, by decide⟩) *
        (scalar (-1) 128 8190 * ones) := by
  have hrow : ∀ j : Fin SecurityLevel.level128.k, 2 ≤ j.val →
      BinomialQuotient.coeff (intRing offCentreSp) j = 0 := by
    intro j hj
    rw [coeff_intRing, intPoly_offCentreSp, if_neg (by omega), map_zero, zero_mul]
  have hlow : ∀ j : Fin SecurityLevel.level128.k, j.val < 2 →
      BinomialQuotient.coeff (intRing offCentreSp) j = scalar (-1) 128 8190 * ones := by
    intro j hj
    rw [coeff_intRing, intPoly_offCentreSp, if_pos hj]
  rw [coeff_mul_of_two x _ hrow ⟨4, by decide⟩ (by decide), hlow 0 (by decide),
    hlow ⟨1, _⟩ (by decide), ← add_mul]
  rfl

theorem coeff_roundedProduct {K : ℕ} [NeZero K] (x y : RingElement K) (i : Fin K) :
    BinomialQuotient.coeff (roundedProduct x y) i = ofCoeffs (-1) fun k : Fin 128 =>
      (BinomialQuotient.coeff (BinomialQuotient.coeff (intRing x * intRing y) i) k + 2) / 4 %
        2 ^ 11 := by
  rw [roundedProduct, coeff_ofCoeffs]

/-- The rounded product of `a` with the secret `1` is `2 * y^4`, above the constant row. -/
theorem roundedProduct_offCentreS (i : Fin SecurityLevel.level128.k) (hi : 1 ≤ i.val) :
    BinomialQuotient.coeff (roundedProduct offCentreA offCentreS) i =
      scalar (-1) 128 (if i.val = 4 then 2 else 0) := by
  have hcoeff : ∀ k : Fin 128, ((((offCentreA.get i).get k).toNat : ℤ) + 2) / 4 % 2 ^ 11 =
      (if i.val = 4 then 2 else 0) * (if k.val = 0 then 1 else 0) := by
    intro k
    simp only [offCentreA, Vector.get_eq_getElem, Vector.getElem_ofFn]
    by_cases hi : i.val = 4 <;> by_cases hk : k.val = 0 <;> simp [hi, hk]
  rw [coeff_roundedProduct, coeff_mul_offCentreS _ i hi, coeff_intRing, intPoly, coeff_ofCoeffs,
    funext hcoeff, ofCoeffs_mul_left, ofCoeffs_one (by decide), mul_one]

/-- The only message row is the top row. -/
theorem messageRow_level128 (out : Fin SecurityLevel.level128.ell) :
    (⟨_, SecurityLevel.row_lt _ out⟩ : Fin SecurityLevel.level128.k) = ⟨4, by decide⟩ := by
  have hout : out.val < 1 := out.isLt
  apply Fin.ext
  change 5 - 1 + out.val = 4
  omega

theorem sharedCoeff_offCentreS (out : Fin SecurityLevel.level128.ell) (k : Fin 128) :
    sharedCoeff .level128 offCentreA offCentreS offCentreSp out k = 16380 := by
  rw [sharedCoeff, messageRow_level128, coeff_mul_offCentreSp,
    roundedProduct_offCentreS _ (by decide),
    roundedProduct_offCentreS _ (by decide), if_pos rfl, if_neg (by decide), map_zero, add_zero,
    coeff_scalar_mul, coeff_scalar_mul, coeff_ofCoeffs]
  norm_num

theorem sharedCoeff_offCentreSp (out : Fin SecurityLevel.level128.ell) (k : Fin 128) :
    sharedCoeff .level128 offCentreA offCentreSp offCentreS out k =
      (134152200 * (2 * ((k.val : ℤ) + 1) - 128) - 67026960 + 2) / 4 % 2 ^ 11 := by
  have hproduct : BinomialQuotient.coeff (intRing offCentreA * intRing offCentreSp)
      ⟨4, by decide⟩ = scalar (-1) 128 134152200 * (ones * ones) -
        scalar (-1) 128 67026960 * ones := by
    rw [coeff_mul_offCentreSp, coeff_intRing, coeff_intRing, intPoly_offCentreA,
      intPoly_offCentreA, if_pos rfl, if_neg (by decide), map_zero, sub_zero,
      show (134152200 : ℤ) = 8190 * 8190 + 8190 * 8190 by norm_num,
      show (67026960 : ℤ) = 8184 * 8190 by norm_num, map_add, map_mul, map_mul]
    ring
  rw [sharedCoeff, messageRow_level128, coeff_mul_offCentreS _ _ (by decide), coeff_roundedProduct,
    coeff_ofCoeffs, hproduct, BinomialQuotient.coeff_sub, coeff_scalar_mul, coeff_scalar_mul,
    coeff_ones_sq, coeff_ofCoeffs]
  norm_num

theorem noise_offCentre (out : Fin SecurityLevel.level128.ell) (k : Fin 128) :
    noise .level128 offCentreA offCentreS offCentreSp out k = 252 - 4 * k.val := by
  have hk := k.isLt
  rw [noise, sharedCoeff_offCentreS, sharedCoeff_offCentreSp, Int.bmod]
  simp only [Nat.cast_ofNat]
  split <;> omega

theorem floored_offCentre (out : Fin SecurityLevel.level128.ell) (k : Fin 128) :
    floored .level128 offCentreA offCentreS offCentreSp out k = 254 := by
  rw [floored, sharedCoeff_offCentreS]
  decide

/-- All noise of the input is within two thirds of the margin, and the last bits are
outside the window. -/
theorem not_withinWindow_offCentre :
    ¬ WithinWindow .level128 offCentreA offCentreS offCentreSp := by
  intro h
  have hmargin : margin .level128 = 384 := by decide
  have hlast := h (fun out k => by
    have hk := k.isLt
    rw [noise_offCentre, hmargin, abs_lt]
    omega) ⟨0, by decide⟩ ⟨127, by decide⟩
  rw [floored_offCentre, noise_offCentre] at hlast
  exact absurd hlast (by decide)

/-- Decryption is not correct up to the margin, already for residues and secrets. -/
theorem decrypts_within_margin_fails : ¬ ∀ (P : SecurityLevel) (a s sp : RingElement P.k)
    (msg : Bytes P.messageLen), (∀ (i : Fin P.k) (k : Fin 128), ((a.get i).get k).toNat < 2 ^ 13) →
      IsSecret s → IsSecret sp → DecryptsWithinMargin P a s sp msg := by
  intro h
  have hrun := h .level128 offCentreA offCentreS offCentreSp (Vector.replicate _ 0)
    offCentreA_lt offCentreS_isSecret offCentreSp_isSecret
  exact not_withinWindow_offCentre (withinWindow_of_decrypts offCentreS_isSecret hrun)

/-- The equivalence at the same input, where the message does not come back, and with the secret
`1` on both sides, where it does. -/
theorem decrypts_within_margin_iff_offCentre :
    (DecryptsWithinMargin .level128 offCentreA offCentreS offCentreSp (Vector.replicate _ 0) ↔
      WithinWindow .level128 offCentreA offCentreS offCentreSp) ∧
    (∀ out k, |noise .level128 offCentreA offCentreS offCentreS out k| < margin .level128) ∧
    DecryptsWithinMargin .level128 offCentreA offCentreS offCentreS (Vector.replicate _ 0) := by
  refine ⟨decrypts_within_margin_iff .level128 offCentreA offCentreS offCentreSp
    offCentreS_isSecret _, fun out k => ?_, ?_⟩
  · rw [noise_self, abs_zero]
    exact margin_pos _
  · exact (decrypts_within_margin_iff .level128 offCentreA offCentreS offCentreS
      offCentreS_isSecret _).mpr (withinWindow_self _ _ _)

end OffCentre

end RrlwrKem
