import RrlwrKem.Arith.FusedPaths
import RrlwrKem.Arith.Uniform

/-!
# The public-key encryption scheme

`pke_keygen`, `pke_encrypt` and `pke_decrypt` over memory, each split at the point
where sampling ends. All three return 0 and their callers ignore it. The
accumulators of the message rows are named, since decryption is about their
difference.
-/

namespace RrlwrKem

open ArrayPolynomial BinomialQuotient BitStream Word

variable (P : SecurityLevel)

section Definitions

/-- A local `ring_element` before it is filled. -/
def emptyRing (K : ℕ) : RingElement K := Vector.replicate K (Vector.replicate 128 0)

/-- A local `ring_element_Awin` before it is filled. -/
def emptyAwin (K : ℕ) : RingElementAwin K := Vector.replicate _ (Vector.replicate 128 0)

/-- `pke_keygen` after the sampling of `a` and `s`. -/
def keygenSampled (pk sk : Buf) (seedA : Bytes 64) (a : RingElementAwin P.k)
    (s : RingElement P.k) : Buf × Buf :=
  let sk := ringPack sk s 2
  let b := ringMulAwinRoundP (emptyRing P.k) a s le_rfl
  let pk := pk.copy seedA
  let pk := pk.writeAt 64 fun p => ringPack p b 11
  (pk, sk)

def pkeKeygen (xof : Xof) (pk sk : Buf) (seedA seedS : Bytes 64) : Buf × Buf :=
  let a := ringUniformAwin P xof (emptyAwin P.k) 13 seedA.toList
  let s := ringUniform P xof (emptyRing P.k) 2 seedS.toList
  keygenSampled P pk sk seedA a s

/-- `pke_encrypt` after the sampling of `a` and `s'`. -/
def encryptSampled (ct pk m : Buf) (a : RingElementAwin P.k) (sp : RingElement P.k) : Buf :=
  let bp := ringMulAwinRoundP (emptyRing P.k) a sp le_rfl
  let bw := ringUnpackAwin (emptyAwin P.k) (pk.offset 64) 11
  let ct := ringMulAwinAddMsgPackT P ct bw sp m
  ct.writeAt (P.ell * P.packedPolyTLen) fun p => ringPack p bp 11

def pkeEncrypt (xof : Xof) (ct pk m : Buf) (seedSp : Bytes 64) : Buf :=
  let seedA := bytesOf 64 pk
  let a := ringUniformAwin P xof (emptyAwin P.k) 13 seedA.toList
  let sp := ringUniform P xof (emptyRing P.k) 2 seedSp.toList
  encryptSampled P ct pk m a sp

def pkeDecrypt (m ct sk : Buf) : Buf :=
  let s := ringUnpack (emptyRing P.k) sk 2
  let bpw := ringUnpackAwin (emptyAwin P.k) (ct.offset (P.ell * P.packedPolyTLen)) 11
  ringMulAwinSubCmPackMsg P m bpw s ct

/-- The accumulator `b * s'` of message row `out`, from the bytes of the public key. -/
def encryptAcc (pk : Buf) (sp : RingElement P.k) (out : Fin P.ell) : Poly :=
  awinRow (ringUnpackAwin (emptyAwin P.k) (pk.offset 64) 11) sp (P.k - P.ell + out)
    (P.row_lt out)

/-- The accumulator `b' * s` of message row `out`, from the bytes of the ciphertext
and the secret key. -/
def decryptAcc (ct sk : Buf) (out : Fin P.ell) : Poly :=
  awinRow (ringUnpackAwin (emptyAwin P.k) (ct.offset (P.ell * P.packedPolyTLen)) 11)
    (ringUnpack (emptyRing P.k) sk 2) (P.k - P.ell + out) (P.row_lt out)

end Definitions

section Layout

variable {P}

/-- The bytes of `s` in the secret key. -/
theorem keygenSampled_sk (pk sk : Buf) (seedA : Bytes 64) (a : RingElementAwin P.k)
    (s : RingElement P.k) : (keygenSampled P pk sk seedA a s).2 = ringPack sk s 2 := rfl

/-- The seed at the start of the public key. -/
theorem keygenSampled_seed (pk sk : Buf) (seedA : Bytes 64) (a : RingElementAwin P.k)
    (s : RingElement P.k) : bytesOf 64 (keygenSampled P pk sk seedA a s).1 = seedA := by
  refine Vector.ext fun j hj => (bytesOf_getElem _ _ hj).trans ?_
  refine (Buf.writeAt_below _ _ hj).trans ?_
  rw [(copy_written pk seedA).inside (Nat.zero_le _) hj, bufOf_apply seedA hj]

/-- The bytes of `b` after the seed. -/
theorem keygenSampled_offset (pk sk : Buf) (seedA : Bytes 64) (a : RingElementAwin P.k)
    (s : RingElement P.k) : (keygenSampled P pk sk seedA a s).1.offset 64 =
      ringPack ((pk.copy seedA).offset 64) (ringMulAwinRoundP (emptyRing P.k) a s le_rfl) 11 :=
  Buf.offset_writeAt _ _ _

/-- The bytes of `b'` after the message blocks. -/
theorem encryptSampled_offset (ct pk m : Buf) (a : RingElementAwin P.k) (sp : RingElement P.k) :
    (encryptSampled P ct pk m a sp).offset (P.ell * P.packedPolyTLen) = ringPack
      ((ringMulAwinAddMsgPackT P ct (ringUnpackAwin (emptyAwin P.k) (pk.offset 64) 11) sp m).offset
        (P.ell * P.packedPolyTLen)) (ringMulAwinRoundP (emptyRing P.k) a sp le_rfl) 11 :=
  Buf.offset_writeAt _ _ _

/-- The message block of row `out` is packed from its accumulator. -/
theorem encryptSampled_block (ct pk m : Buf) (a : RingElementAwin P.k) (sp : RingElement P.k)
    (out : Fin P.ell) (p : Buf) {j : ℕ} (hj : j < P.packedPolyTLen) :
    encryptSampled P ct pk m a sp (out * P.packedPolyTLen + j) =
      polyPackCiphertextTFromAccMsg P.logt p (encryptAcc P pk sp out) m out j := by
  have hle := Written.block_le out P.packedPolyTLen
  have hblock := (ringMulAwinAddMsgPackT_written P ct
    (ringUnpackAwin (emptyAwin P.k) (pk.offset 64) 11) sp m
    (Vector.replicate _ (Vector.replicate 128 0))).block out hj
  have hpack := polyPackCiphertext_written P.logt_cases p (encryptAcc P pk sp out) m out
  have hlen := P.packedPolyTLen_eq
  refine (Buf.writeAt_below _ _ (by omega)).trans (hblock.trans ?_)
  rw [hpack.inside (Nat.zero_le _) (by omega), plainCiphertext, Vector.get_eq_getElem,
    polyAddMsg_getElem, ringMulAwin_getElem]
  rfl

/-- The message bytes of row `out` are decoded from its accumulator and its block. -/
theorem pkeDecrypt_block (m ct sk : Buf) (out : Fin P.ell) (p : Buf) {j : ℕ} (hj : j < 16) :
    pkeDecrypt P m ct sk (out * 16 + j) =
      polyPackMessageFromAccCm P.logt p (decryptAcc P ct sk out)
        (ct.offset (out * P.packedPolyTLen)) j := by
  have hblock := (ringMulAwinSubCmPackMsg_written P m
    (ringUnpackAwin (emptyAwin P.k) (ct.offset (P.ell * P.packedPolyTLen)) 11)
    (ringUnpack (emptyRing P.k) sk 2) ct (Vector.replicate _ (Vector.replicate 128 0))
    (Vector.replicate 128 0)).block out hj
  have hpack := polyPackMessage_written P.logt_cases p (decryptAcc P ct sk out)
    (ct.offset (out * P.packedPolyTLen)) (Vector.replicate 128 0)
  refine hblock.trans ?_
  rw [hpack.inside (Nat.zero_le _) hj, plainMessage, Vector.get_eq_getElem, ringMulAwin_getElem]
  rfl

/-- Nothing is written beyond the public key. -/
theorem keygenSampled_pk_above (pk sk : Buf) (seedA : Bytes 64) (a : RingElementAwin P.k)
    (s : RingElement P.k) {j : ℕ} (hj : P.pkLen ≤ j) :
    (keygenSampled P pk sk seedA a s).1 j = pk j := by
  rw [SecurityLevel.pkLen] at hj
  have hidx : 64 + (j - 64) = j := by omega
  have h := congrFun (keygenSampled_offset pk sk seedA a s) (j - 64)
  rw [(ringPack_isCodec (by decide) (by decide)).frame _ _ _ (by omega), Buf.offset_copy,
    Buf.offset, Buf.offset, hidx] at h
  exact h

/-- Nothing is written beyond the secret. -/
theorem keygenSampled_sk_above (pk sk : Buf) (seedA : Bytes 64) (a : RingElementAwin P.k)
    (s : RingElement P.k) {j : ℕ} (hj : P.skLen ≤ j) :
    (keygenSampled P pk sk seedA a s).2 j = sk j := by
  rw [SecurityLevel.skLen] at hj
  rw [keygenSampled_sk]
  exact (ringPack_isCodec (by decide) (by decide)).frame _ _ _ (by omega)

/-- Nothing is written beyond the ciphertext. -/
theorem encryptSampled_above (ct pk m : Buf) (a : RingElementAwin P.k) (sp : RingElement P.k)
    {j : ℕ} (hj : P.ctLen ≤ j) : encryptSampled P ct pk m a sp j = ct j := by
  rw [SecurityLevel.ctLen] at hj
  have hidx : P.ell * P.packedPolyTLen + (j - P.ell * P.packedPolyTLen) = j := by omega
  have hblocks := ringMulAwinAddMsgPackT_written P ct
    (ringUnpackAwin (emptyAwin P.k) (pk.offset 64) 11) sp m
    (Vector.replicate _ (Vector.replicate 128 0))
  have h := congrFun (encryptSampled_offset ct pk m a sp) (j - P.ell * P.packedPolyTLen)
  rw [(ringPack_isCodec (by decide) (by decide)).frame _ _ _ (by omega), Buf.offset, Buf.offset,
    hidx, hblocks.above (by omega)] at h
  exact h

end Layout

section Reads

variable {P : SecurityLevel} {K : ℕ}

theorem ringUnpack_congr {w : ℕ} (hw1 : 1 ≤ w) (hw : w ≤ 16) (r : RingElement K) {b b' : Buf}
    (h : ∀ j < 16 * w * K, b j = b' j) : ringUnpack r b w = ringUnpack r b' w :=
  ((ringPack_isCodec hw1 hw).reads b b' r r).mpr h

theorem ringUnpackAwin_congr {w : ℕ} (hw1 : 1 ≤ w) (hw : w ≤ 16) (aw : RingElementAwin K)
    {b b' : Buf} (h : ∀ j < 16 * w * K, b j = b' j) :
    ringUnpackAwin aw b w = ringUnpackAwin aw b' w := by
  rw [ringUnpackAwin_eq aw (emptyRing K) b hw, ringUnpackAwin_eq aw (emptyRing K) b' hw,
    ringUnpack_congr hw1 hw _ h]

/-- The message depends on the bytes of the ciphertext and of the secret key only. -/
theorem pkeDecrypt_congr (m m' : Buf) {ct ct' sk sk' : Buf} (hct : ∀ j < P.ctLen, ct j = ct' j)
    (hsk : ∀ j < P.skLen, sk j = sk' j) {j : ℕ} (hj : j < P.messageLen) :
    pkeDecrypt P m ct sk j = pkeDecrypt P m' ct' sk' j := by
  rw [SecurityLevel.messageLen] at hj
  rw [SecurityLevel.ctLen] at hct
  rw [SecurityLevel.skLen] at hsk
  have hout : j / 16 < P.ell := by omega
  have hidx : j / 16 * 16 + j % 16 = j := Nat.div_add_mod' j 16
  have hsecret : ringUnpack (emptyRing P.k) sk 2 = ringUnpack (emptyRing P.k) sk' 2 :=
    ringUnpack_congr (by decide) (by decide) _ fun j hj => hsk j (by omega)
  have hwindow : ringUnpackAwin (emptyAwin P.k) (ct.offset (P.ell * P.packedPolyTLen)) 11 =
      ringUnpackAwin (emptyAwin P.k) (ct'.offset (P.ell * P.packedPolyTLen)) 11 :=
    ringUnpackAwin_congr (by decide) (by decide) _ fun j hj => hct _ (by omega)
  have hblock : ∀ i < 16 * P.logt, ct.offset (j / 16 * P.packedPolyTLen) i =
      ct'.offset (j / 16 * P.packedPolyTLen) i := by
    intro i hi
    have hle : j / 16 * P.packedPolyTLen + P.packedPolyTLen ≤ P.ell * P.packedPolyTLen :=
      Written.block_le ⟨j / 16, hout⟩ _
    have hlen := P.packedPolyTLen_eq
    exact hct _ (by omega)
  have hacc : decryptAcc P ct sk ⟨j / 16, hout⟩ = decryptAcc P ct' sk' ⟨j / 16, hout⟩ := by
    rw [decryptAcc, decryptAcc, hsecret, hwindow]
  have h := pkeDecrypt_block m ct sk ⟨j / 16, hout⟩ m (show j % 16 < 16 by omega)
  have h' := pkeDecrypt_block m' ct' sk' ⟨j / 16, hout⟩ m (show j % 16 < 16 by omega)
  rw [hacc, polyPackMessage_congr P.logt_cases m _ hblock, ← h'] at h
  simpa only [hidx] using h

/-- The ciphertext depends on the bytes of the public key and of the message only. -/
theorem pkeEncrypt_congr (xof : Xof) (ct ct' : Buf) {pk pk' m m' : Buf} (seedSp : Bytes 64)
    (hpk : ∀ j < P.pkLen, pk j = pk' j) (hm : ∀ j < P.messageLen, m j = m' j) {j : ℕ}
    (hj : j < P.ctLen) :
    pkeEncrypt P xof ct pk m seedSp j = pkeEncrypt P xof ct' pk' m' seedSp j := by
  rw [SecurityLevel.pkLen] at hpk
  rw [SecurityLevel.messageLen] at hm
  rw [SecurityLevel.ctLen] at hj
  have hseed : bytesOf 64 pk = bytesOf 64 pk' := bytesOf_congr fun j hj => hpk j (by omega)
  have hwindow : ringUnpackAwin (emptyAwin P.k) (pk.offset 64) 11 =
      ringUnpackAwin (emptyAwin P.k) (pk'.offset 64) 11 :=
    ringUnpackAwin_congr (by decide) (by decide) _ fun j hj => hpk _ (by omega)
  rw [pkeEncrypt, pkeEncrypt, hseed]
  generalize ringUniformAwin P xof (emptyAwin P.k) 13 _ = a
  generalize ringUniform P xof (emptyRing P.k) 2 _ = sp
  by_cases hlt : j < P.ell * P.packedPolyTLen
  · -- a byte of a message block
    have hpos : 0 < P.packedPolyTLen :=
      Nat.pos_of_mul_pos_left (by omega : 0 < P.ell * P.packedPolyTLen)
    have hout : j / P.packedPolyTLen < P.ell := Nat.div_lt_of_lt_mul (by rwa [Nat.mul_comm])
    have hidx : j / P.packedPolyTLen * P.packedPolyTLen + j % P.packedPolyTLen = j :=
      Nat.div_add_mod' j _
    have hacc : encryptAcc P pk sp ⟨_, hout⟩ = encryptAcc P pk' sp ⟨_, hout⟩ := by
      rw [encryptAcc, encryptAcc, hwindow]
    have h := encryptSampled_block ct pk m a sp ⟨_, hout⟩ ct (Nat.mod_lt j hpos)
    have h' := encryptSampled_block ct' pk' m' a sp ⟨_, hout⟩ ct (Nat.mod_lt j hpos)
    rw [hacc, polyPackCiphertext_congr P.logt_cases ct _ _ fun i hi => hm _ (by omega), ← h'] at h
    simpa only [hidx] using h
  · -- a byte of `b'`, which does not depend on the key or the message
    have hidx : P.ell * P.packedPolyTLen + (j - P.ell * P.packedPolyTLen) = j := by omega
    have h := congrFun (encryptSampled_offset ct pk m a sp) (j - P.ell * P.packedPolyTLen)
    have h' := congrFun (encryptSampled_offset ct' pk' m' a sp) (j - P.ell * P.packedPolyTLen)
    rw [Buf.offset, hidx] at h h'
    rw [h, h']
    exact (ringPack_isCodec (by decide) (by decide)).total _ _ _ _ (by omega)

end Reads

section Serialisation

variable {K : ℕ}

theorem roundQToPFromU16_lt (x : U16) : (roundQToPFromU16 x).toNat < 2 ^ 11 := by
  have h := roundQToPFromU16_toNat x
  omega

theorem ringMulAwinRoundP_lt (r : RingElement K) (aw : RingElementAwin K) (s : RingElement K)
    (i : Fin K) (k : Fin 128) :
    (((ringMulAwinRoundP r aw s le_rfl).get i).get k).toNat < 2 ^ 11 := by
  rw [ringMulAwinRoundP_coeff]
  exact roundQToPFromU16_lt _

/-- Rounded elements survive eleven bits. -/
theorem ringUnpack_ringPack_rounded (r' b : RingElement K) (p : Buf)
    (hb : ∀ (i : Fin K) (k : Fin 128), ((b.get i).get k).toNat < 2 ^ 11) :
    ringUnpack r' (ringPack p b 11) 11 = b := by
  have h := (ringPack_isCodec (w := 11) (by decide) (by decide)).unpack_pack p b r'
  refine Vector.ext fun i hi => Vector.ext fun k hk => BitVec.eq_of_toNat_eq ?_
  have hik := h ⟨i, hi⟩ ⟨k, hk⟩
  rw [Reduced, if_neg (by decide), Nat.mod_eq_of_lt (hb ⟨i, hi⟩ ⟨k, hk⟩)] at hik
  exact hik

/-- The window of a rounded element that was packed. -/
theorem ringUnpackAwin_ringPack_rounded (aw' : RingElementAwin K) (b : RingElement K) (p : Buf)
    (hb : ∀ (i : Fin K) (k : Fin 128), ((b.get i).get k).toNat < 2 ^ 11) :
    IsWindow (ringUnpackAwin aw' (ringPack p b 11) 11) b := by
  have h := ringUnpackAwin_isWindow aw' (emptyRing K) (ringPack p b 11) (show 11 ≤ 16 by decide)
  rwa [ringUnpack_ringPack_rounded _ _ _ hb] at h

/-- The residues of the secret coefficients `-2, …, 1`. -/
def IsSecret (s : RingElement K) : Prop :=
  ∀ (i : Fin K) (k : Fin 128), ((s.get i).get k).toNat ∈ ({0, 1, 8191, 8190} : Finset ℕ)

/-- Secret elements survive two bits. -/
theorem ringUnpack_ringPack_secret (r' s : RingElement K) (p : Buf) (hs : IsSecret s) :
    ringUnpack r' (ringPack p s 2) 2 = s := by
  have h := (ringPack_isCodec (w := 2) (by decide) (by decide)).unpack_pack p s r'
  refine Vector.ext fun i hi => Vector.ext fun k hk => BitVec.eq_of_toNat_eq ?_
  obtain ⟨hmem, hmod⟩ := h ⟨i, hi⟩ ⟨k, hk⟩
  have hmem' := hs ⟨i, hi⟩ ⟨k, hk⟩
  simp only [Vector.get_eq_getElem, Finset.mem_insert, Finset.mem_singleton] at hmem hmod hmem'
  omega

theorem ringUniform_isSecret (P : SecurityLevel) (xof : Xof) (r : RingElement P.k)
    (seed : List Byte) : IsSecret (ringUniform P xof r 2 seed) := by
  intro i k
  simp only [Vector.get_eq_getElem, ringUniform_getElem P xof r (show 2 ≤ 16 by decide) seed i.isLt,
    Vector.getElem_ofFn]
  exact unpackCode_two_mem _

end Serialisation

section Noise

variable {K : ℕ} [NeZero K]

/-- Rounding to a quarter, scaled back, is off by at most two. -/
theorem rounding_error (x : U16) : ∃ v ∈ ({-1, 0, 1, 2} : Finset ℤ),
    4 * residue 13 (roundQToPFromU16 x) - residue 13 x = (v : ZMod (2 ^ 13)) := by
  have h := roundQToPFromU16_toNat x
  refine ⟨2 - (x.toNat + 2) % 4, ?_, ?_⟩
  · simp only [Finset.mem_insert, Finset.mem_singleton]
    omega
  · have hcast : (4 * residue 13 (roundQToPFromU16 x) - residue 13 x : ZMod (2 ^ 13)) =
        ((4 * (roundQToPFromU16 x).toNat - x.toNat : ℤ) : ZMod (2 ^ 13)) := by
      rw [residue, residue]
      push_cast
      rfl
    rw [hcast]
    refine (ZMod.intCast_eq_intCast_iff _ _ _).mpr (Int.modEq_iff_dvd.mpr ?_)
    rw [h]
    push_cast
    omega

/-- The noise of a rounded product is the rounding error of its coefficients. -/
theorem rounded_noise {aw : RingElementAwin K} {a : RingElement K} (h : IsWindow aw a)
    (r s : RingElement K) (i : Fin K) (k : Fin 128) : ∃ v ∈ ({-1, 0, 1, 2} : Finset ℤ),
      BinomialQuotient.coeff (BinomialQuotient.coeff
        (4 * ringClass 13 (ringMulAwinRoundP r aw s le_rfl) - ringClass 13 a * ringClass 13 s)
        i) k = (v : ZMod (2 ^ 13)) := by
  obtain ⟨v, hv, hround⟩ := rounding_error ((awinRow aw s i i.isLt).get k)
  refine ⟨v, hv, Eq.trans ?_ hround⟩
  have hfour : (4 : RingClass 13 K) = ((4 : ℕ) : RingClass 13 K) := (Nat.cast_ofNat).symm
  rw [BinomialQuotient.coeff_sub, BinomialQuotient.coeff_sub, hfour, coeff_natCast_mul,
    coeff_natCast_mul, coeff_ringClass, ringMulAwinRoundP_coeff, ← residue_awinRow h s i i.isLt k,
    Nat.cast_ofNat]

/-- The secret products cancel from the difference of the two accumulators. -/
theorem accumulator_difference {bw bpw : RingElementAwin K} {b bp : RingElement K}
    (hb : IsWindow bw b) (hbp : IsWindow bpw bp) (a s sp : RingElement K) (i : ℕ) (hi : i < K)
    (k : Fin 128) :
    4 * (residue 13 ((awinRow bw sp i hi).get k) - residue 13 ((awinRow bpw s i hi).get k)) =
      BinomialQuotient.coeff (BinomialQuotient.coeff
        ((4 * ringClass 13 b - ringClass 13 a * ringClass 13 s) * ringClass 13 sp -
          (4 * ringClass 13 bp - ringClass 13 a * ringClass 13 sp) * ringClass 13 s)
        ⟨i, hi⟩) k := by
  -- `a * s * s'` is in both products
  have hcancel : (4 * ringClass 13 b - ringClass 13 a * ringClass 13 s) * ringClass 13 sp -
      (4 * ringClass 13 bp - ringClass 13 a * ringClass 13 sp) * ringClass 13 s =
      ((4 : ℕ) : RingClass 13 K) *
        (ringClass 13 b * ringClass 13 sp - ringClass 13 bp * ringClass 13 s) := by
    push_cast
    ring
  rw [hcancel, coeff_natCast_mul, coeff_natCast_mul, BinomialQuotient.coeff_sub,
    BinomialQuotient.coeff_sub, residue_awinRow hb, residue_awinRow hbp, Nat.cast_ofNat]

variable {P : SecurityLevel}

/-- The rounded element that is read back from the public key. -/
theorem keygenSampled_rounded (r' : RingElement P.k) (pk sk : Buf) (seedA : Bytes 64)
    (a : RingElementAwin P.k) (s : RingElement P.k) :
    ringUnpack r' ((keygenSampled P pk sk seedA a s).1.offset 64) 11 =
      ringMulAwinRoundP (emptyRing P.k) a s le_rfl := by
  rw [keygenSampled_offset, ringUnpack_ringPack_rounded _ _ _ (ringMulAwinRoundP_lt _ _ _)]

theorem keygenSampled_window (aw' : RingElementAwin P.k) (pk sk : Buf) (seedA : Bytes 64)
    (a : RingElementAwin P.k) (s : RingElement P.k) :
    IsWindow (ringUnpackAwin aw' ((keygenSampled P pk sk seedA a s).1.offset 64) 11)
      (ringMulAwinRoundP (emptyRing P.k) a s le_rfl) := by
  rw [keygenSampled_offset]
  exact ringUnpackAwin_ringPack_rounded _ _ _ (ringMulAwinRoundP_lt _ _ _)

/-- The rounded element that is read back from the ciphertext. -/
theorem encryptSampled_rounded (r' : RingElement P.k) (ct pk m : Buf) (a : RingElementAwin P.k)
    (sp : RingElement P.k) :
    ringUnpack r' ((encryptSampled P ct pk m a sp).offset (P.ell * P.packedPolyTLen)) 11 =
      ringMulAwinRoundP (emptyRing P.k) a sp le_rfl := by
  rw [encryptSampled_offset, ringUnpack_ringPack_rounded _ _ _ (ringMulAwinRoundP_lt _ _ _)]

theorem encryptSampled_window (aw' : RingElementAwin P.k) (ct pk m : Buf)
    (a : RingElementAwin P.k) (sp : RingElement P.k) :
    IsWindow (ringUnpackAwin aw'
        ((encryptSampled P ct pk m a sp).offset (P.ell * P.packedPolyTLen)) 11)
      (ringMulAwinRoundP (emptyRing P.k) a sp le_rfl) := by
  rw [encryptSampled_offset]
  exact ringUnpackAwin_ringPack_rounded _ _ _ (ringMulAwinRoundP_lt _ _ _)

/-- The secret that is read back from the secret key. -/
theorem keygenSampled_secret (r' : RingElement P.k) (pk sk : Buf) (seedA : Bytes 64)
    (a : RingElementAwin P.k) (s : RingElement P.k) (hs : IsSecret s) :
    ringUnpack r' (keygenSampled P pk sk seedA a s).2 2 = s := by
  rw [keygenSampled_sk, ringUnpack_ringPack_secret _ _ _ hs]

/-- Encryption samples the window of the key generation again. -/
theorem pkeEncrypt_pkeKeygen (xof : Xof) (pk sk ct m : Buf) (seedA seedS seedSp : Bytes 64) :
    pkeEncrypt P xof ct (pkeKeygen P xof pk sk seedA seedS).1 m seedSp =
      encryptSampled P ct (pkeKeygen P xof pk sk seedA seedS).1 m
        (ringUniformAwin P xof (emptyAwin P.k) 13 seedA.toList)
        (ringUniform P xof (emptyRing P.k) 2 seedSp.toList) := by
  have hseed : bytesOf 64 (pkeKeygen P xof pk sk seedA seedS).1 = seedA :=
    keygenSampled_seed pk sk seedA _ _
  rw [pkeEncrypt, hseed]

/-- Key agreement: what is read back from the keys and the ciphertext is what was
computed, encryption packs the message blocks from one accumulator and decryption decodes
its bytes from another, and the two accumulators differ by the noise of the rounded products. -/
theorem key_agreement_noise (P : SecurityLevel) (xof : Xof) (seedA seedS seedSp : Bytes 64)
    (m pk₀ sk₀ ct₀ : Buf) :
    let a := ringUniform P xof (emptyRing P.k) 13 seedA.toList
    let aw := ringUniformAwin P xof (emptyAwin P.k) 13 seedA.toList
    let s := ringUniform P xof (emptyRing P.k) 2 seedS.toList
    let sp := ringUniform P xof (emptyRing P.k) 2 seedSp.toList
    let b := ringMulAwinRoundP (emptyRing P.k) aw s le_rfl
    let bp := ringMulAwinRoundP (emptyRing P.k) aw sp le_rfl
    let keys := pkeKeygen P xof pk₀ sk₀ seedA seedS
    let ct := pkeEncrypt P xof ct₀ keys.1 m seedSp
    let e := 4 * ringClass 13 b - ringClass 13 a * ringClass 13 s
    let ep := 4 * ringClass 13 bp - ringClass 13 a * ringClass 13 sp
    IsWindow aw a ∧
    ringUnpack (emptyRing P.k) (keys.1.offset 64) 11 = b ∧
    ringUnpack (emptyRing P.k) (ct.offset (P.ell * P.packedPolyTLen)) 11 = bp ∧
    (∀ (i : Fin P.k) (k : Fin 128), ∃ v ∈ ({-1, 0, 1, 2} : Finset ℤ),
      BinomialQuotient.coeff (BinomialQuotient.coeff e i) k = (v : ZMod (2 ^ 13))) ∧
    (∀ (i : Fin P.k) (k : Fin 128), ∃ v ∈ ({-1, 0, 1, 2} : Finset ℤ),
      BinomialQuotient.coeff (BinomialQuotient.coeff ep i) k = (v : ZMod (2 ^ 13))) ∧
    (∀ (out : Fin P.ell) (p : Buf) j, j < P.packedPolyTLen →
      ct (out * P.packedPolyTLen + j) =
        polyPackCiphertextTFromAccMsg P.logt p (encryptAcc P keys.1 sp out) m out j) ∧
    (∀ (m' : Buf) (out : Fin P.ell) (p : Buf) j, j < 16 →
      pkeDecrypt P m' ct keys.2 (out * 16 + j) =
        polyPackMessageFromAccCm P.logt p (decryptAcc P ct keys.2 out)
          (ct.offset (out * P.packedPolyTLen)) j) ∧
    ∀ (out : Fin P.ell) (k : Fin 128),
      4 * (residue 13 ((encryptAcc P keys.1 sp out).get k) -
          residue 13 ((decryptAcc P ct keys.2 out).get k)) =
        BinomialQuotient.coeff (BinomialQuotient.coeff
          (e * ringClass 13 sp - ep * ringClass 13 s)
          ⟨P.k - P.ell + out, P.row_lt out⟩) k := by
  intro a aw s sp b bp keys ct e ep
  have hwindow : IsWindow aw a := ringUniformAwin_isWindow P xof _ _ (by decide) _
  have hct : ct = encryptSampled P ct₀ keys.1 m aw sp := pkeEncrypt_pkeKeygen _ _ _ _ _ _ _ _
  have hsecret : ringUnpack (emptyRing P.k) keys.2 2 = s :=
    keygenSampled_secret _ _ _ _ _ _ (ringUniform_isSecret P xof _ _)
  refine ⟨hwindow, keygenSampled_rounded _ _ _ _ _ _, ?_, rounded_noise hwindow _ s,
    rounded_noise hwindow _ sp, ?_, fun m' out p j hj => pkeDecrypt_block m' ct keys.2 out p hj, ?_⟩
  · rw [hct]
    exact encryptSampled_rounded _ _ _ _ _ _
  · intro out p j hj
    rw [hct]
    exact encryptSampled_block _ _ _ _ _ out p hj
  · intro out k
    have hb : IsWindow (ringUnpackAwin (emptyAwin P.k) (keys.1.offset 64) 11) b :=
      keygenSampled_window _ _ _ _ _ _
    have hbp : IsWindow (ringUnpackAwin (emptyAwin P.k)
        (ct.offset (P.ell * P.packedPolyTLen)) 11) bp := by
      rw [hct]
      exact encryptSampled_window _ _ _ _ _ _
    have hdiff := accumulator_difference hb hbp a s sp (P.k - P.ell + out)
      (P.row_lt out) k
    rw [decryptAcc, hsecret]
    exact hdiff

end Noise

end RrlwrKem
