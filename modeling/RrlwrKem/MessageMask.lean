import RrlwrKem.Kem

/-!
# Masking a message through its ciphertext

A message bit sits alone in the top bit of a field of the ciphertext: toggling it
before the encryption toggles that bit and nothing else, and toggling that bit of
any ciphertext, valid or not, toggles the decrypted message bit.
-/

namespace RrlwrKem

open ArrayPolynomial BitStream Word

/-- Bytewise exclusive or. -/
def xorBytes {n : ℕ} (a b : Bytes n) : Bytes n := Vector.ofFn fun j => a.get j ^^^ b.get j

/-- Bytewise exclusive or in memory. -/
def xorBuf (a b : Buf) : Buf := fun j => a j ^^^ b j

/-- The bits of a ciphertext block in which message polynomial `i` is added: bit
`LOGT*k + LOGT-1` for every coefficient `k` whose message bit is set. -/
def maskStream (logt : ℕ) (mu : Buf) (i q : ℕ) : Bool :=
  decide (q % logt = logt - 1) && bitAt mu (128 * i + q / logt)

/-- The mask in memory, one block after another. -/
def maskBuf (P : SecurityLevel) (mu : Buf) : Buf :=
  Written.blocks P.packedPolyTLen fun i : Fin P.ell => word 8 (maskStream P.logt mu i)

/-- The ciphertext mask of a message mask. -/
def messageMask (P : SecurityLevel) (mu : Bytes P.messageLen) : Bytes P.ctLen :=
  bytesOf P.ctLen (maskBuf P (bufOf mu))

section Bits

theorem bitAt_xorBuf (a b : Buf) (k : ℕ) :
    bitAt (xorBuf a b) k = (bitAt a k ^^ bitAt b k) := BitVec.getLsbD_xor

theorem bufOf_xorBytes {n : ℕ} (a b : Bytes n) :
    bufOf (xorBytes a b) = xorBuf (bufOf a) (bufOf b) := by
  funext j
  by_cases hj : j < n
  · rw [bufOf_apply _ hj, xorBuf, bufOf_apply _ hj, bufOf_apply _ hj, xorBytes,
      Vector.getElem_ofFn]
    rfl
  · simp [bufOf, xorBuf, hj]

theorem bytesOf_xorBuf (n : ℕ) (a b : Buf) :
    bytesOf n (xorBuf a b) = xorBytes (bytesOf n a) (bytesOf n b) := by
  refine Vector.ext fun j hj => ?_
  rw [bytesOf_getElem _ _ hj, xorBytes, Vector.getElem_ofFn, Vector.get_eq_getElem,
    Vector.get_eq_getElem, bytesOf_getElem _ _ hj, bytesOf_getElem _ _ hj]
  rfl

theorem xorBytes_xorBytes {n : ℕ} (a b : Bytes n) : xorBytes a (xorBytes a b) = b := by
  refine Vector.ext fun j hj => ?_
  simp only [xorBytes, Vector.get_eq_getElem, Vector.getElem_ofFn]
  rw [← BitVec.xor_assoc, BitVec.xor_self, BitVec.zero_xor]

theorem xorBytes_self {n : ℕ} (a b : Bytes n) : xorBytes a (xorBytes b b) = a := by
  refine Vector.ext fun j hj => ?_
  simp only [xorBytes, Vector.get_eq_getElem, Vector.getElem_ofFn]
  rw [BitVec.xor_self, BitVec.xor_zero]

/-- The mask has nothing behind the message blocks. -/
theorem maskBuf_above (P : SecurityLevel) (mu : Buf) {j : ℕ}
    (hj : P.ell * P.packedPolyTLen ≤ j) : maskBuf P mu j = 0 := by
  have hpos : 0 < P.packedPolyTLen := by
    have h := P.logt_cases
    rw [P.packedPolyTLen_eq]
    omega
  have hdiv : ¬ j / P.packedPolyTLen < P.ell := by
    rw [Nat.div_lt_iff_lt_mul hpos]
    omega
  rw [maskBuf, Written.blocks, dif_neg hdiv]

theorem maskBuf_block (P : SecurityLevel) (mu : Buf) (out : Fin P.ell) {j : ℕ}
    (hj : j < P.packedPolyTLen) :
    maskBuf P mu (out * P.packedPolyTLen + j) = word 8 (maskStream P.logt mu out) j :=
  Written.blocks_apply _ out hj

end Bits

section Codec

variable {logt : ℕ}

/-- The toggle of one field. -/
def topBit (logt : ℕ) (μ : Bool) : BitVec logt := if μ then BitVec.twoPow logt (logt - 1) else 0

theorem getLsbD_topBit {s : ℕ} (hs : s < logt) (μ : Bool) :
    (topBit logt μ).getLsbD s = (decide (s = logt - 1) && μ) := by
  rw [topBit]
  cases μ with
  | false => simp
  | true =>
    have hlt : logt - 1 < logt := by omega
    rw [if_pos rfl, BitVec.getLsbD_twoPow, decide_eq_true hlt, Bool.true_and, Bool.and_true,
      decide_eq_decide]
    exact eq_comm

/-- The mask of a block, field by field. -/
theorem maskStream_field (mu : Buf) (out q : ℕ) (hlogt : 0 < logt) :
    maskStream logt mu out q =
      (topBit logt (bitAt mu (128 * out + q / logt))).getLsbD (q % logt) := by
  rw [getLsbD_topBit (Nat.mod_lt q hlogt), maskStream]

/-- Toggling is adding the mask. -/
theorem carries_xor_topBit (hlogt : 0 < logt) (c : BitVec logt) (μ : Bool) :
    Carries logt (c ^^^ topBit logt μ) (c.toNat + 2 ^ (logt - 1) * μ.toNat) := by
  have hc := carries_self logt c
  rw [topBit]
  cases μ with
  | false =>
    rw [if_neg (by simp), show c ^^^ 0 = c from BitVec.xor_zero]
    exact hc.congr (by simp)
  | true =>
    have htop : Carries logt (BitVec.twoPow logt (logt - 1)) ((2 ^ (logt - 1) : ℕ) : ℤ) :=
      (carries_self logt _).congr (by rw [BitVec.toNat_twoPow_of_lt (by omega)])
    rw [if_pos rfl, xor_twoPow_top hlogt]
    exact (hc.add htop le_rfl).congr (by simp)

/-- A toggled message bit toggles the top bit of the packed field. -/
theorem packCode_addMsgCoeff_xor (hlogt : logt = 3 ∨ logt = 8) (x : U16) (β μ : Bool) :
    packCode logt (toU16 (promote (addMsgCoeff (bitWord (β ^^ μ)) x) >>> (11 - logt))) =
      packCode logt (toU16 (promote (addMsgCoeff (bitWord β) x) >>> (11 - logt))) ^^^
        topBit logt μ := by
  have hfield : ∀ γ, ((packCode logt (toU16 (promote (addMsgCoeff (bitWord γ) x) >>>
      (11 - logt)))).toNat : ℤ) = ((2 ^ (logt - 1) - 1 : ℕ) -
        ((x.toNat + 2 + 1024 * γ.toNat) % 2048 / 2 ^ (11 - logt) : ℕ)) % 2 ^ logt := by
    intro γ
    have h := (carries_packCode logt
      (toU16 (promote (addMsgCoeff (bitWord γ) x) >>> (11 - logt)))).toNat_setWidth
    rwa [compress_toNat, addMsgCoeff_toNat, BitVec.setWidth_eq] at h
  refine (carries_self logt _).word_eq (carries_xor_topBit (by omega) _ μ) ?_
  rw [hfield, hfield]
  refine Int.modEq_iff_dvd.mpr ?_
  rcases hlogt with rfl | rfl <;> cases β <;> cases μ <;>
    simp only [Bool.toNat_true, Bool.toNat_false, Bool.xor_true, Bool.xor_false, Bool.not_true,
      Bool.not_false] <;> omega

/-- Toggling the top bit of a field toggles the bit that is decoded from it. -/
theorem decodeBit_xor (hlogt : logt = 3 ∨ logt = 8) (x : U16) (c : BitVec logt) (μ : Bool) :
    decide (decodeBit logt x (c ^^^ topBit logt μ).toNat = 1) =
      (decide (decodeBit logt x c.toNat = 1) ^^ μ) := by
  have hxor := (carries_xor_topBit (by omega) c μ).toNat_setWidth
  have hc := c.isLt
  rw [BitVec.setWidth_eq] at hxor
  generalize (c ^^^ topBit logt μ).toNat = c' at hxor ⊢
  rw [Bool.eq_iff_iff]
  cases μ with
  | false =>
    have hsame : c' = c.toNat := by
      rw [Bool.toNat_false, Nat.cast_zero, mul_zero, add_zero] at hxor
      exact_mod_cast hxor.trans (Int.emod_eq_of_lt (by omega) (by exact_mod_cast hc))
    rw [hsame, Bool.xor_false]
  | true =>
    rw [Bool.xor_true, Bool.not_eq_true', decide_eq_true_eq, decide_eq_false_iff_not, decodeBit,
      decodeBit, decodeValue, decodeValue]
    rcases hlogt with rfl | rfl <;> simp only [Bool.toNat_true] at hxor <;> omega

/-- The fields of a message block, one toggled for every bit of the mask. -/
theorem polyCodes_ciphertextPoly_xor (hlogt : logt = 3 ∨ logt = 8) (acc : Poly) (m mu : Buf)
    (out : ℕ) {k : ℕ} (hk : k < 128) :
    polyCodes logt (ciphertextPoly logt acc (xorBuf m mu) out) k =
      polyCodes logt (ciphertextPoly logt acc m out) k ^^^
        topBit logt (bitAt mu (128 * out + k)) := by
  have hbit : ofWords 8 (xorBuf m mu) (128 * out + k) =
      (ofWords 8 m (128 * out + k) ^^ bitAt mu (128 * out + k)) := bitAt_xorBuf m mu _
  simp only [polyCodes_apply _ _ hk, ciphertextPoly, polyCompress, Vector.getElem_map, messagePoly,
    Vector.getElem_ofFn, selectBit_eq, hbit]
  exact packCode_addMsgCoeff_xor hlogt _ _ _

/-- The bytes of a message block. -/
theorem rechunk_ciphertextPoly_xor (hlogt : logt = 3 ∨ logt = 8) (acc : Poly) (m mu : Buf)
    (out : ℕ) {j : ℕ} (hj : j < 16 * logt) :
    rechunk logt 8 (polyCodes logt (ciphertextPoly logt acc (xorBuf m mu) out)) j =
      rechunk logt 8 (polyCodes logt (ciphertextPoly logt acc m out)) j ^^^
        word 8 (maskStream logt mu out) j := by
  apply BitVec.eq_of_getLsbD_eq
  intro t ht
  have hk : (8 * j + t) / logt < 128 := by
    rw [Nat.div_lt_iff_lt_mul (by omega)]
    omega
  rw [BitVec.getLsbD_xor, rechunk, rechunk, getLsbD_word _ _ ht, getLsbD_word _ _ ht,
    getLsbD_word _ _ ht, ofWords, ofWords, polyCodes_ciphertextPoly_xor hlogt acc m mu out hk,
    BitVec.getLsbD_xor, maskStream_field _ _ _ (by omega)]

end Codec

section Blocks

variable (P : SecurityLevel)

/-- The fields that are read back from a masked block. -/
theorem rechunk_maskBuf (ct mu : Buf) (out : Fin P.ell) {k : ℕ} (hk : k < 128) :
    rechunk 8 P.logt ((xorBuf ct (maskBuf P mu)).offset (out * P.packedPolyTLen)) k =
      rechunk 8 P.logt (ct.offset (out * P.packedPolyTLen)) k ^^^
        topBit P.logt (bitAt mu (128 * out + k)) := by
  apply BitVec.eq_of_getLsbD_eq
  intro s hs
  have hpos : 0 < P.logt := by omega
  have hq : (P.logt * k + s) / 8 < P.packedPolyTLen := by
    have h := Nat.mul_le_mul_left P.logt (show k + 1 ≤ 128 by omega)
    rw [Nat.mul_succ] at h
    rw [P.packedPolyTLen_eq]
    omega
  have hmod : (P.logt * k + s) % 8 < 8 := Nat.mod_lt _ (by decide)
  have hmask := maskBuf_block P mu out hq
  have hbit : (maskBuf P mu (out * P.packedPolyTLen + (P.logt * k + s) / 8)).getLsbD
      ((P.logt * k + s) % 8) = (topBit P.logt (bitAt mu (128 * out + k))).getLsbD s := by
    rw [hmask, getLsbD_word _ _ hmod, Nat.div_add_mod, maskStream_field _ _ _ hpos,
      Nat.mul_add_div hpos, Nat.div_eq_of_lt hs, Nat.add_zero, Nat.mul_add_mod,
      Nat.mod_eq_of_lt hs]
  rw [BitVec.getLsbD_xor, rechunk, rechunk, getLsbD_word _ _ hs, getLsbD_word _ _ hs, ofWords,
    ofWords, ← hbit]
  exact BitVec.getLsbD_xor

/-- Masking the message masks the ciphertext. -/
theorem pkeEncrypt_xorBuf (xof : Xof) (ct pk m mu : Buf) (seedSp : Bytes 64) {j : ℕ}
    (hj : j < P.ctLen) : pkeEncrypt P xof ct pk (xorBuf m mu) seedSp j =
      pkeEncrypt P xof ct pk m seedSp j ^^^ maskBuf P mu j := by
  rw [SecurityLevel.ctLen] at hj
  rw [pkeEncrypt, pkeEncrypt]
  generalize ringUniformAwin P xof (emptyAwin P.k) 13 _ = a
  generalize ringUniform P xof (emptyRing P.k) 2 _ = sp
  by_cases hlt : j < P.ell * P.packedPolyTLen
  · -- a byte of a message block
    have hpos : 0 < P.packedPolyTLen :=
      Nat.pos_of_mul_pos_left (by omega : 0 < P.ell * P.packedPolyTLen)
    let out : Fin P.ell := ⟨j / P.packedPolyTLen, Nat.div_lt_of_lt_mul (by rwa [Nat.mul_comm])⟩
    have hmod := Nat.mod_lt j hpos
    have hidx : out * P.packedPolyTLen + j % P.packedPolyTLen = j := Nat.div_add_mod' j _
    have hlen : j % P.packedPolyTLen < 16 * P.logt := by rwa [← P.packedPolyTLen_eq]
    have hpack := fun msg => (polyPackCiphertext_written P.logt_cases ct (encryptAcc P pk sp out)
      msg out).inside (Nat.zero_le _) hlen
    have hxor := rechunk_ciphertextPoly_xor P.logt_cases (encryptAcc P pk sp out) m mu out hlen
    rw [← hpack, ← hpack, ← encryptSampled_block ct pk _ a sp out ct hmod,
      ← encryptSampled_block ct pk m a sp out ct hmod, ← maskBuf_block P mu out hmod, hidx] at hxor
    exact hxor
  · -- a byte of `b'`, which does not depend on the message
    have hge : P.ell * P.packedPolyTLen ≤ j := by omega
    have hidx : P.ell * P.packedPolyTLen + (j - P.ell * P.packedPolyTLen) = j := by omega
    have h := congrFun (encryptSampled_offset ct pk (xorBuf m mu) a sp)
      (j - P.ell * P.packedPolyTLen)
    have h' := congrFun (encryptSampled_offset ct pk m a sp) (j - P.ell * P.packedPolyTLen)
    rw [Buf.offset, hidx] at h h'
    rw [maskBuf_above P mu hge, h, h', (ringPack_isCodec (by omega) (by omega)).total _
      (ringMulAwinAddMsgPackT P ct (ringUnpackAwin (emptyAwin P.k) (pk.offset 64) 11) sp m |>.offset
        (P.ell * P.packedPolyTLen)) _ _ (by omega)]
    exact BitVec.xor_zero.symm

/-- Masking a ciphertext masks the decrypted message. -/
theorem pkeDecrypt_xorBuf (m ct sk mu : Buf) {j : ℕ} (hj : j < P.messageLen) :
    pkeDecrypt P m (xorBuf ct (maskBuf P mu)) sk j = pkeDecrypt P m ct sk j ^^^ mu j := by
  rw [SecurityLevel.messageLen] at hj
  let out : Fin P.ell := ⟨j / 16, by omega⟩
  have hmod : j % 16 < 16 := by omega
  have hidx : out * 16 + j % 16 = j := Nat.div_add_mod' j 16
  -- the mask leaves the bytes of `b'` alone
  have hwindow : ringUnpackAwin (emptyAwin P.k)
      ((xorBuf ct (maskBuf P mu)).offset (P.ell * P.packedPolyTLen)) 11 =
      ringUnpackAwin (emptyAwin P.k) (ct.offset (P.ell * P.packedPolyTLen)) 11 := by
    refine ringUnpackAwin_congr (by omega) (by omega) _ fun i _ => ?_
    rw [Buf.offset, Buf.offset, xorBuf, maskBuf_above P mu (by omega)]
    exact BitVec.xor_zero
  have hacc : decryptAcc P (xorBuf ct (maskBuf P mu)) sk out = decryptAcc P ct sk out := by
    rw [decryptAcc, decryptAcc, hwindow]
  have hleft := pkeDecrypt_block m (xorBuf ct (maskBuf P mu)) sk out m hmod
  have hright := pkeDecrypt_block m ct sk out m hmod
  rw [hidx] at hleft hright
  rw [hleft, hright, hacc]
  apply BitVec.eq_of_getLsbD_eq
  intro t ht
  have hk : 8 * (j % 16) + t < 128 := by omega
  have hmessage := fun cm => bitAt_message P.logt_cases m (decryptAcc P ct sk out) cm hk
  have hdiv : (8 * (j % 16) + t) / 8 = j % 16 := by omega
  have hmod8 : (8 * (j % 16) + t) % 8 = t := by omega
  have hmu : bitAt mu (128 * out + (8 * (j % 16) + t)) = (mu j).getLsbD t := by
    have hbyte : (128 * out + (8 * (j % 16) + t)) / 8 = j := by omega
    have hbit : (128 * out + (8 * (j % 16) + t)) % 8 = t := by omega
    rw [bitAt, hbyte, hbit]
  have hfield := rechunk_maskBuf P ct mu out hk
  simp only [bitAt, hdiv, hmod8] at hmessage
  rw [BitVec.getLsbD_xor, hmessage, hmessage, hfield, decodeBit_xor P.logt_cases, hmu]

end Blocks

section Law

variable (P : SecurityLevel) (xof : Xof)

theorem encryptBytes_xor (pk : Bytes P.pkLen) (m mu : Bytes P.messageLen) (seedSp : Bytes 64) :
    encryptBytes P xof pk (xorBytes m mu) seedSp =
      xorBytes (encryptBytes P xof pk m seedSp) (messageMask P mu) := by
  rw [encryptBytes, encryptBytes, messageMask, ← bytesOf_xorBuf, bufOf_xorBytes]
  exact bytesOf_congr fun j hj => pkeEncrypt_xorBuf P xof emptyBuf (bufOf pk) _ _ seedSp hj

theorem decryptBytes_xor (ct : Bytes P.ctLen) (sk : Bytes P.skLen) (mu : Bytes P.messageLen) :
    decryptBytes P (xorBytes ct (messageMask P mu)) sk = xorBytes (decryptBytes P ct sk) mu := by
  have hmask : ∀ j < P.ctLen, bufOf (xorBytes ct (messageMask P mu)) j =
      xorBuf (bufOf ct) (maskBuf P (bufOf mu)) j := by
    intro j hj
    rw [bufOf_xorBytes, xorBuf, messageMask, bufOf_bytesOf _ hj, xorBuf]
  rw [decryptBytes, decryptBytes, ← bytesOf_bufOf mu, ← bytesOf_xorBuf, bytesOf_bufOf]
  refine bytesOf_congr fun j hj => ?_
  rw [pkeDecrypt_congr emptyBuf emptyBuf hmask (fun _ _ => rfl) hj]
  exact pkeDecrypt_xorBuf P emptyBuf (bufOf ct) (bufOf sk) (bufOf mu) hj

/-- Masking a message is masking its ciphertext, in both directions, and a ciphertext
under a fixed key and seed determines its message. -/
theorem message_mask_law (mu : Bytes P.messageLen) :
    (∀ (pk : Bytes P.pkLen) (m : Bytes P.messageLen) (seedSp : Bytes 64),
      encryptBytes P xof pk (xorBytes m mu) seedSp =
        xorBytes (encryptBytes P xof pk m seedSp) (messageMask P mu)) ∧
    (∀ (ct : Bytes P.ctLen) (sk : Bytes P.skLen),
      decryptBytes P (xorBytes ct (messageMask P mu)) sk = xorBytes (decryptBytes P ct sk) mu) ∧
    ∀ (pk : Bytes P.pkLen) (seedSp : Bytes 64),
      Function.Injective fun m => encryptBytes P xof pk m seedSp := by
  refine ⟨fun pk m seedSp => encryptBytes_xor P xof pk m mu seedSp,
    fun ct sk => decryptBytes_xor P ct sk mu, fun pk seedSp m m' h => ?_⟩
  -- a mask that the ciphertext does not show would not show in its decryption either
  let δ := xorBytes m m'
  let ct := encryptBytes P xof pk m seedSp
  let msg := decryptBytes P ct (bytesOf P.skLen emptyBuf)
  have hmask : xorBytes ct (messageMask P δ) = ct := by
    rw [← encryptBytes_xor, xorBytes_xorBytes]
    exact h.symm
  have hmsg : xorBytes msg δ = msg := by
    rw [← decryptBytes_xor, hmask]
  calc m = xorBytes m (xorBytes msg msg) := (xorBytes_self m msg).symm
    _ = xorBytes m (xorBytes msg (xorBytes msg δ)) := by rw [hmsg]
    _ = m' := by rw [xorBytes_xorBytes, xorBytes_xorBytes]

end Law

end RrlwrKem
