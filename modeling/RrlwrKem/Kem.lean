import RrlwrKem.Pke

/-!
# The key encapsulation mechanism

`kem_keygen`, `kem_enc` and `kem_dec` over memory, and what they compute on byte
strings: the secret key is `s || pk || F(pk) || z`, the message and the hash of
the public key determine both the shared secret and the coins of the encryption,
and decapsulation re-encrypts to decide between the shared secret and the
rejection value. SHAKE256 and the random number generator are arbitrary maps with
outputs of the requested length.
-/

namespace RrlwrKem

section Definitions

/-- `shake256(out, outlen, in, inlen)`. -/
abbrev Shake256 := (outlen : ℕ) → List Byte → Bytes outlen

/-- `get_random_number` on whole bytes, with `DRNG_ctx` as its state. -/
abbrev Drng (σ : Type) := σ → (len : ℕ) → Bytes len × σ

variable (P : SecurityLevel)

def kemGetPkLenBytes : ℕ := P.pkLen

def kemGetSkLenBytes : ℕ := P.kemSkLen

def kemGetSsLenBytes : ℕ := P.ssLen

def kemGetCtLenBytes : ℕ := P.ctLen

/-- A local array before it is filled. -/
def emptyBuf : Buf := fun _ => 0

/-- `r |= (c1[i] ^ c2[i])` over the ciphertext, then `-((-(uint32_t)r) >> 31)`. -/
def ctCmp (c1 c2 : Buf) : Byte :=
  let r : Byte := Nat.fold P.ctLen (fun i _ r =>
    toByte (promoteByte r ||| (promoteByte (c1 i) ^^^ promoteByte (c2 i)))) 0
  toByte (-((-(promoteByte r)) >>> 31))

structure KeygenOut (σ : Type) where
  ret : ℤ
  pk : Buf
  pkLenBytes : ℕ
  sk : Buf
  skLenBytes : ℕ
  drng : σ

def kemKeygen {σ : Type} (drng : Drng σ) (xof : Xof) (shake256 : Shake256) (st : σ)
    (pk sk : Buf) : KeygenOut σ :=
  let (seedA, st) := drng st 64
  let (seedS, st) := drng st 64
  let (pk, sk) := pkeKeygen P xof pk sk seedA seedS
  let sk := sk.writeAt P.skLen fun p => p.copy (bytesOf P.pkLen pk)
  let sk := sk.writeAt (P.skLen + P.pkLen) fun p =>
    p.copy (shake256 P.hpkLen (bytesOf P.pkLen pk).toList)
  let (z, st) := drng st P.seedZLen
  let sk := sk.writeAt (P.skLen + P.pkLen + P.hpkLen) fun p => p.copy z
  { ret := 0, pk, pkLenBytes := P.pkLen, sk, skLenBytes := P.kemSkLen, drng := st }

/-- What `kem_enc` writes through its pointers. -/
structure EncOut where
  ss : Buf
  ssLenBytes : ℕ
  ct : Buf
  ctLenBytes : ℕ

def kemEnc {σ : Type} (drng : Drng σ) (xof : Xof) (shake256 : Shake256) (st : σ) (pk : Buf)
    (pkLenBytes : ℕ) (out : EncOut) : ℤ × EncOut × σ :=
  if pkLenBytes ≠ P.pkLen then (-1, out, st)
  else
    let (m, st) := drng st P.messageLen
    let hpkM := emptyBuf.writeAt P.hpkLen fun p => p.copy m
    let hpkM := hpkM.copy (shake256 P.hpkLen (bytesOf P.pkLen pk).toList)
    let kSeedSp := emptyBuf.copy
      (shake256 (P.ssLen + 64) (bytesOf (P.hpkLen + P.messageLen) hpkM).toList)
    let seedSp := bytesOf 64 (kSeedSp.offset P.ssLen)
    let ct := pkeEncrypt P xof out.ct pk (hpkM.offset P.hpkLen) seedSp
    let ss := out.ss.copy (bytesOf P.ssLen kSeedSp)
    (0, { ss, ssLenBytes := P.ssLen, ct, ctLenBytes := P.ctLen }, st)

/-- What `kem_dec` writes through its pointers. -/
structure DecOut where
  ss : Buf
  ssLenBytes : ℕ

/-- `K[i] ^ ((K[i] ^ Kb[i]) & compare)`. -/
def selectByte (K Kb compare : Byte) : Byte :=
  toByte (promoteByte K ^^^ ((promoteByte K ^^^ promoteByte Kb) &&& promoteByte compare))

def kemDec (xof : Xof) (shake256 : Shake256) (sk : Buf) (skLenBytes : ℕ) (ct : Buf)
    (ctLenBytes : ℕ) (out : DecOut) : ℤ × DecOut :=
  if skLenBytes ≠ P.kemSkLen ∨ ctLenBytes ≠ P.ctLen then (-1, out)
  else
    let hpkMp := emptyBuf.copy (bytesOf P.hpkLen (sk.offset (P.skLen + P.pkLen)))
    let hpkMp := hpkMp.writeAt P.hpkLen fun p => pkeDecrypt P p ct sk
    let K := emptyBuf.copy
      (shake256 (P.ssLen + 64) (bytesOf (P.hpkLen + P.messageLen) hpkMp).toList)
    let seedSp := bytesOf 64 (K.offset P.ssLen)
    let ctp := pkeEncrypt P xof emptyBuf (sk.offset P.skLen) (hpkMp.offset P.hpkLen) seedSp
    let ctZ := emptyBuf.copy (bytesOf P.ctLen ct)
    let ctZ := ctZ.writeAt P.ctLen fun p =>
      p.copy (bytesOf P.seedZLen (sk.offset (P.skLen + P.pkLen + P.hpkLen)))
    let Kb := emptyBuf.copy (shake256 P.ssLen (bytesOf (P.ctLen + P.seedZLen) ctZ).toList)
    let compare := ctCmp P ct ctp
    let ss := Nat.fold P.ssLen (fun i _ ss => ss.set i (selectByte (K i) (Kb i) compare)) out.ss
    (0, { ss, ssLenBytes := P.ssLen })

end Definitions

section Compare

variable (P : SecurityLevel)

theorem ctCmp_mask (r : Byte) :
    toByte (-((-(promoteByte r)) >>> 31)) = if r = 0 then 0 else 0xff := by
  revert r
  decide

/-- The selection needs no more than eight bits. -/
theorem selectByte_eq (K Kb compare : Byte) :
    selectByte K Kb compare = K ^^^ ((K ^^^ Kb) &&& compare) := by
  apply BitVec.eq_of_getLsbD_eq
  intro i hi
  interval_cases i <;> simp [selectByte]

theorem selectByte_zero (K Kb : Byte) : selectByte K Kb 0 = K := by
  simp [selectByte_eq]

theorem selectByte_ones (K Kb : Byte) : selectByte K Kb 0xff = Kb := by
  rw [selectByte_eq, show (0xff : Byte) = BitVec.allOnes 8 from rfl, BitVec.and_allOnes,
    ← BitVec.xor_assoc, BitVec.xor_self, BitVec.zero_xor]

/-- The accumulated difference is zero when all bytes so far agree. -/
theorem ctCmp_or (r x y : Byte) :
    toByte (promoteByte r ||| (promoteByte x ^^^ promoteByte y)) = 0 ↔ r = 0 ∧ x = y := by
  have h : toByte (promoteByte r ||| (promoteByte x ^^^ promoteByte y)) = r ||| (x ^^^ y) := by
    apply BitVec.eq_of_getLsbD_eq
    intro i hi
    interval_cases i <;> simp
  exact h ▸ BitVec.or_eq_zero_iff.trans (and_congr_right' BitVec.xor_eq_zero_iff)

/-- The comparison is zero exactly on equal ciphertexts. -/
theorem ctCmp_eq (c1 c2 : Buf) :
    ctCmp P c1 c2 = if bytesOf P.ctLen c1 = bytesOf P.ctLen c2 then 0 else 0xff := by
  let r : Byte := Nat.fold P.ctLen (fun i _ r =>
    toByte (promoteByte r ||| (promoteByte (c1 i) ^^^ promoteByte (c2 i)))) 0
  have hfold : r = 0 ↔ ∀ j < P.ctLen, c1 j = c2 j := by
    refine ArrayPolynomial.fold_invariant (n := P.ctLen)
      (f := fun i _ r => toByte (promoteByte r ||| (promoteByte (c1 i) ^^^ promoteByte (c2 i))))
      (a := (0 : Byte)) (fun i r => r = 0 ↔ ∀ j < i, c1 j = c2 j) ?_ ?_
    · simp
    · intro i hi r h
      rw [ctCmp_or, h, Nat.forall_lt_succ_right]
  have hbytes : bytesOf P.ctLen c1 = bytesOf P.ctLen c2 ↔ r = 0 := by
    rw [hfold]
    refine ⟨fun h j hj => ?_, bytesOf_congr⟩
    rw [← bytesOf_getElem P.ctLen c1 hj, h, bytesOf_getElem]
  refine (ctCmp_mask r).trans ?_
  by_cases h : r = 0
  · rw [if_pos h, if_pos (hbytes.mpr h)]
  · rw [if_neg h, if_neg (mt hbytes.mp h)]

end Compare

section ByteStrings

variable (P : SecurityLevel) (xof : Xof) (shake256 : Shake256)

/-- The parts of the secret key, `s || pk || hpk || z`. -/
structure SecretKey where
  s : Bytes P.skLen
  pk : Bytes P.pkLen
  hpk : Bytes P.hpkLen
  z : Bytes P.seedZLen

def SecretKey.read (sk : Buf) : SecretKey P where
  s := bytesOf P.skLen sk
  pk := bytesOf P.pkLen (sk.offset P.skLen)
  hpk := bytesOf P.hpkLen (sk.offset (P.skLen + P.pkLen))
  z := bytesOf P.seedZLen (sk.offset (P.skLen + P.pkLen + P.hpkLen))

/-- `pke_decrypt` on byte strings. -/
def decryptBytes (ct : Bytes P.ctLen) (s : Bytes P.skLen) : Bytes P.messageLen :=
  bytesOf P.messageLen (pkeDecrypt P emptyBuf (bufOf ct) (bufOf s))

/-- `pke_encrypt` on byte strings. -/
def encryptBytes (pk : Bytes P.pkLen) (m : Bytes P.messageLen) (seedSp : Bytes 64) :
    Bytes P.ctLen :=
  bytesOf P.ctLen (pkeEncrypt P xof emptyBuf (bufOf pk) (bufOf m) seedSp)

/-- `(K, seedSp) = G(hpk || m)`. -/
def hashG (hpk : Bytes P.hpkLen) (m : Bytes P.messageLen) : Bytes P.ssLen × Bytes 64 :=
  let g := bufOf (shake256 (P.ssLen + 64) (hpk.toList ++ m.toList))
  (bytesOf P.ssLen g, bytesOf 64 (g.offset P.ssLen))

/-- The ciphertext that decapsulation compares with. -/
def reencrypt (sk : SecretKey P) (ct : Bytes P.ctLen) : Bytes P.ctLen :=
  let m := decryptBytes P ct sk.s
  encryptBytes P xof sk.pk m (hashG P shake256 sk.hpk m).2

/-- The shared secret of decapsulation. -/
def decapsulate (sk : SecretKey P) (ct : Bytes P.ctLen) : Bytes P.ssLen :=
  if ct = reencrypt P xof shake256 sk ct then (hashG P shake256 sk.hpk (decryptBytes P ct sk.s)).1
  else shake256 P.ssLen (ct.toList ++ sk.z.toList)

/-- The parts are the whole secret key, in this order. -/
theorem SecretKey.toList_read (sk : Buf) : (bytesOf P.kemSkLen sk).toList =
    (SecretKey.read P sk).s.toList ++ (SecretKey.read P sk).pk.toList ++
      (SecretKey.read P sk).hpk.toList ++ (SecretKey.read P sk).z.toList := by
  rw [SecurityLevel.kemSkLen, bytesOf_add_toList, bytesOf_add_toList, bytesOf_add_toList]
  rfl

variable {P}

theorem bytesOf_pkeDecrypt (m ct sk : Buf) : bytesOf P.messageLen (pkeDecrypt P m ct sk) =
    decryptBytes P (bytesOf P.ctLen ct) (bytesOf P.skLen sk) :=
  bytesOf_congr fun _ hj => pkeDecrypt_congr m emptyBuf (fun _ h => (bufOf_bytesOf ct h).symm)
    (fun _ h => (bufOf_bytesOf sk h).symm) hj

theorem bytesOf_pkeEncrypt (ct pk m : Buf) (seedSp : Bytes 64) :
    bytesOf P.ctLen (pkeEncrypt P xof ct pk m seedSp) =
      encryptBytes P xof (bytesOf P.pkLen pk) (bytesOf P.messageLen m) seedSp :=
  bytesOf_congr fun _ hj => pkeEncrypt_congr xof ct emptyBuf seedSp
    (fun _ h => (bufOf_bytesOf pk h).symm) (fun _ h => (bufOf_bytesOf m h).symm) hj

/-- Decapsulation on well-sized input. -/
theorem kemDec_eq (sk ct : Buf) (out : DecOut) :
    kemDec P xof shake256 sk P.kemSkLen ct P.ctLen out =
      (0, { ss := out.ss.copy (decapsulate P xof shake256 (SecretKey.read P sk)
              (bytesOf P.ctLen ct)),
            ssLenBytes := P.ssLen }) := by
  -- the local arrays of the function, one after another
  let key := SecretKey.read P sk
  let m := decryptBytes P (bytesOf P.ctLen ct) key.s
  let hpkMp := (emptyBuf.copy key.hpk).writeAt P.hpkLen fun p => pkeDecrypt P p ct sk
  let K := emptyBuf.copy
    (shake256 (P.ssLen + 64) (bytesOf (P.hpkLen + P.messageLen) hpkMp).toList)
  let ctp := pkeEncrypt P xof emptyBuf (sk.offset P.skLen) (hpkMp.offset P.hpkLen)
    (bytesOf 64 (K.offset P.ssLen))
  let ctZ := (emptyBuf.copy (bytesOf P.ctLen ct)).writeAt P.ctLen fun p => p.copy key.z
  let Kb := emptyBuf.copy (shake256 P.ssLen (bytesOf (P.ctLen + P.seedZLen) ctZ).toList)
  have hmessage : bytesOf P.messageLen (hpkMp.offset P.hpkLen) = m :=
    (congrArg (bytesOf P.messageLen) (Buf.offset_writeAt _ _ _)).trans (bytesOf_pkeDecrypt _ ct sk)
  have hhashed : (bytesOf (P.hpkLen + P.messageLen) hpkMp).toList = key.hpk.toList ++ m.toList := by
    rw [bytesOf_add_toList, hmessage, bytesOf_writeAt _ _ le_rfl, bytesOf_copy]
  have hsecret : (bytesOf P.ssLen K, bytesOf 64 (K.offset P.ssLen)) =
      hashG P shake256 key.hpk m := by
    rw [hashG, ← hhashed]
    rfl
  have hct : bytesOf P.ctLen ctp = reencrypt P xof shake256 key (bytesOf P.ctLen ct) := by
    rw [bytesOf_pkeEncrypt, hmessage, reencrypt, ← hsecret]
    rfl
  have hreject : (bytesOf (P.ctLen + P.seedZLen) ctZ).toList =
      (bytesOf P.ctLen ct).toList ++ key.z.toList := by
    rw [bytesOf_add_toList, bytesOf_writeAt _ _ le_rfl, bytesOf_copy, Buf.offset_writeAt,
      bytesOf_copy]
  have hselect : bytesOf P.ssLen (fun i => selectByte (K i) (Kb i) (ctCmp P ct ctp)) =
      decapsulate P xof shake256 key (bytesOf P.ctLen ct) := by
    rw [ctCmp_eq, hct, decapsulate]
    by_cases h : bytesOf P.ctLen ct = reencrypt P xof shake256 key (bytesOf P.ctLen ct)
    · simp only [if_pos h, selectByte_zero]
      exact congrArg Prod.fst hsecret
    · simp only [if_neg h, selectByte_ones]
      exact (bytesOf_copy emptyBuf _).trans (by rw [hreject])
  rw [kemDec, if_neg (by simp), ← hselect]
  exact congrArg (fun ss => ((0 : ℤ), ({ ss, ssLenBytes := P.ssLen } : DecOut)))
    (Written.fold_set_eq_copy P.ssLen _ out.ss)

/-- Encapsulation on a well-sized public key: the ciphertext and the shared secret of
the drawn message. -/
theorem kemEnc_eq {σ : Type} (drng : Drng σ) (st : σ) (pk : Buf) (out : EncOut) :
    let pkBytes := bytesOf P.pkLen pk
    let m := (drng st P.messageLen).1
    let secret := hashG P shake256 (shake256 P.hpkLen pkBytes.toList) m
    let r := kemEnc P drng xof shake256 st pk P.pkLen out
    r.1 = 0 ∧ r.2.1.ss = out.ss.copy secret.1 ∧ r.2.1.ssLenBytes = P.ssLen ∧
      bytesOf P.ctLen r.2.1.ct = encryptBytes P xof pkBytes m secret.2 ∧
      r.2.1.ctLenBytes = P.ctLen := by
  intro pkBytes m secret r
  let hpk := shake256 P.hpkLen pkBytes.toList
  let hpkM := (emptyBuf.writeAt P.hpkLen fun p => p.copy m).copy hpk
  let kSeedSp := emptyBuf.copy
    (shake256 (P.ssLen + 64) (bytesOf (P.hpkLen + P.messageLen) hpkM).toList)
  let ct := pkeEncrypt P xof out.ct pk (hpkM.offset P.hpkLen)
    (bytesOf 64 (kSeedSp.offset P.ssLen))
  have hr : r = (0, ⟨out.ss.copy (bytesOf P.ssLen kSeedSp), P.ssLen, ct, P.ctLen⟩,
      (drng st P.messageLen).2) := if_neg (by simp)
  have hmessage : bytesOf P.messageLen (hpkM.offset P.hpkLen) = m := by
    rw [Buf.offset_copy, Buf.offset_writeAt, bytesOf_copy]
  have hhashed : (bytesOf (P.hpkLen + P.messageLen) hpkM).toList = hpk.toList ++ m.toList := by
    rw [bytesOf_add_toList, hmessage, bytesOf_copy]
  have hsecret : (bytesOf P.ssLen kSeedSp, bytesOf 64 (kSeedSp.offset P.ssLen)) = secret := by
    change _ = hashG P shake256 hpk m
    rw [hashG, ← hhashed]
    rfl
  rw [hr, ← hsecret]
  refine ⟨rfl, rfl, rfl, ?_, rfl⟩
  rw [bytesOf_pkeEncrypt, hmessage]

/-- The layout that key generation writes is the one that decapsulation reads. -/
theorem SecretKey.read_layout (b : Buf) (pk : Bytes P.pkLen) (hpk : Bytes P.hpkLen)
    (z : Bytes P.seedZLen) :
    SecretKey.read P (((b.writeAt P.skLen fun p => p.copy pk).writeAt (P.skLen + P.pkLen)
      fun p => p.copy hpk).writeAt (P.skLen + P.pkLen + P.hpkLen) fun p => p.copy z) =
      { s := bytesOf P.skLen b, pk, hpk, z } := by
  have hle : P.skLen ≤ P.skLen + P.pkLen := Nat.le_add_right _ _
  have hle' : P.skLen + P.pkLen ≤ P.skLen + P.pkLen + P.hpkLen := Nat.le_add_right _ _
  rw [SecretKey.read, SecretKey.mk.injEq]
  refine ⟨?_, ?_, ?_, ?_⟩
  · rw [bytesOf_writeAt _ _ (hle.trans hle'), bytesOf_writeAt _ _ hle, bytesOf_writeAt _ _ le_rfl]
  · rw [bytesOf_offset_writeAt _ _ hle', bytesOf_offset_writeAt _ _ le_rfl, Buf.offset_writeAt,
      bytesOf_copy]
  · rw [bytesOf_offset_writeAt _ _ le_rfl, Buf.offset_writeAt, bytesOf_copy]
  · rw [Buf.offset_writeAt, bytesOf_copy]

/-- Key generation: the public key and its hash are in the secret key. -/
theorem kemKeygen_eq {σ : Type} (drng : Drng σ) (st : σ) (pk sk : Buf) :
    let r := kemKeygen P drng xof shake256 st pk sk
    let key := SecretKey.read P r.sk
    r.ret = 0 ∧ r.pkLenBytes = P.pkLen ∧ r.skLenBytes = P.kemSkLen ∧
      key.pk = bytesOf P.pkLen r.pk ∧
      key.hpk = shake256 P.hpkLen (bytesOf P.pkLen r.pk).toList := by
  intro r key
  have hkey := SecretKey.read_layout (P := P)
    (pkeKeygen P xof pk sk (drng st 64).1 (drng (drng st 64).2 64).1).2 (bytesOf P.pkLen r.pk)
    (shake256 P.hpkLen (bytesOf P.pkLen r.pk).toList) (drng (drng (drng st 64).2 64).2 P.seedZLen).1
  exact ⟨rfl, rfl, rfl, congrArg SecretKey.pk hkey, congrArg SecretKey.hpk hkey⟩

/-- `kem_dec` takes the ciphertext for the encryption of its own message. -/
def Accepts (sk : SecretKey P) (ct : Bytes P.ctLen) : Prop := ct = reencrypt P xof shake256 sk ct

theorem decapsulate_of_accepts {sk : SecretKey P} {ct : Bytes P.ctLen}
    (h : Accepts xof shake256 sk ct) : decapsulate P xof shake256 sk ct =
      (hashG P shake256 sk.hpk (decryptBytes P ct sk.s)).1 := if_pos h

theorem decapsulate_of_not_accepts {sk : SecretKey P} {ct : Bytes P.ctLen}
    (h : ¬ Accepts xof shake256 sk ct) :
    decapsulate P xof shake256 sk ct = shake256 P.ssLen (ct.toList ++ sk.z.toList) := if_neg h

/-- An accepted ciphertext is determined by its message. -/
theorem accepts_unique {sk : SecretKey P} {ct₁ ct₂ : Bytes P.ctLen}
    (h₁ : Accepts xof shake256 sk ct₁) (h₂ : Accepts xof shake256 sk ct₂)
    (hm : decryptBytes P ct₁ sk.s = decryptBytes P ct₂ sk.s) : ct₁ = ct₂ := by
  rw [h₁, h₂, reencrypt, reencrypt, hm]

end ByteStrings

section Main

variable (P : SecurityLevel) (xof : Xof) (shake256 : Shake256)

/-- The round trip of the mechanism: the shared secret comes back with the message,
and another message leads to the rejection value unless it encrypts to the same bytes. -/
theorem kem_round_trip {σ : Type} (drng : Drng σ) (st st' : σ) (pk₀ sk₀ : Buf)
    (encOut : EncOut) (decOut : DecOut) :
    let keys := kemKeygen P drng xof shake256 st pk₀ sk₀
    let enc := kemEnc P drng xof shake256 st' keys.pk keys.pkLenBytes encOut
    let dec := kemDec P xof shake256 keys.sk keys.skLenBytes enc.2.1.ct enc.2.1.ctLenBytes decOut
    let pk := bytesOf P.pkLen keys.pk
    let ct := bytesOf P.ctLen enc.2.1.ct
    let z := bytesOf P.seedZLen (keys.sk.offset (P.skLen + P.pkLen + P.hpkLen))
    let m := (drng st' P.messageLen).1
    let m' := decryptBytes P ct (bytesOf P.skLen keys.sk)
    let seed' := (hashG P shake256 (shake256 P.hpkLen pk.toList) m').2
    (keys.ret = 0 ∧ enc.1 = 0 ∧ dec.1 = 0) ∧
    (keys.pkLenBytes = P.pkLen ∧ keys.skLenBytes = P.kemSkLen ∧ enc.2.1.ssLenBytes = P.ssLen ∧
      enc.2.1.ctLenBytes = P.ctLen ∧ dec.2.ssLenBytes = P.ssLen) ∧
    (m' = m → bytesOf P.ssLen dec.2.ss = bytesOf P.ssLen enc.2.1.ss) ∧
    (m' ≠ m → encryptBytes P xof pk m' seed' ≠ ct →
      bytesOf P.ssLen dec.2.ss = shake256 P.ssLen (ct.toList ++ z.toList)) := by
  intro keys enc dec pk ct z m m' seed'
  obtain ⟨hret, hpkLen, hskLen, hkeyPk, hkeyHpk⟩ := kemKeygen_eq xof shake256 drng st pk₀ sk₀
  have hencEq : enc = kemEnc P drng xof shake256 st' keys.pk P.pkLen encOut := by rw [← hpkLen]
  obtain ⟨hencRet, hencSs, hencSsLen, hencCt, hencCtLen⟩ :=
    kemEnc_eq xof shake256 drng st' keys.pk encOut
  rw [← hencEq] at hencRet hencSs hencSsLen hencCt hencCtLen
  have hdec : dec = kemDec P xof shake256 keys.sk P.kemSkLen enc.2.1.ct P.ctLen decOut := by
    rw [← hskLen, ← hencCtLen]
  rw [kemDec_eq] at hdec
  have hreencrypt : reencrypt P xof shake256 (SecretKey.read P keys.sk) ct =
      encryptBytes P xof pk m' seed' := by
    rw [reencrypt, hkeyPk, hkeyHpk]
    rfl
  have hss : bytesOf P.ssLen dec.2.ss =
      decapsulate P xof shake256 (SecretKey.read P keys.sk) ct := by
    rw [hdec]
    exact bytesOf_copy _ _
  refine ⟨⟨hret, hencRet, by rw [hdec]⟩,
    ⟨hpkLen, hskLen, hencSsLen, hencCtLen, by rw [hdec]⟩, fun hm => ?_, fun _ hne => ?_⟩
  · -- the same message gives the same coins, so re-encryption repeats the bytes
    have haccepts : Accepts xof shake256 (SecretKey.read P keys.sk) ct := by
      rw [Accepts, hreencrypt]
      exact hencCt.trans (congrArg (fun m => encryptBytes P xof pk m
        (hashG P shake256 (shake256 P.hpkLen pk.toList) m).2) hm.symm)
    rw [hss, decapsulate_of_accepts _ _ haccepts, hkeyHpk, hencSs, bytesOf_copy]
    exact congrArg (fun m => (hashG P shake256 (shake256 P.hpkLen pk.toList) m).1) hm
  · have hrejects : ¬ Accepts xof shake256 (SecretKey.read P keys.sk) ct := by
      rw [Accepts, hreencrypt]
      exact fun h => hne h.symm
    rw [hss, decapsulate_of_not_accepts _ _ hrejects]
    rfl

/-- Decapsulation of arbitrary bytes, and what acceptance and rejection say about
several ciphertexts and several keys. -/
theorem implicit_rejection :
    (∀ (sk : Bytes P.kemSkLen) (ct : Bytes P.ctLen) (out : DecOut),
      let key := SecretKey.read P (bufOf sk)
      let m := decryptBytes P ct key.s
      let secret := hashG P shake256 key.hpk m
      let ct' := encryptBytes P xof key.pk m secret.2
      let r := kemDec P xof shake256 (bufOf sk) P.kemSkLen (bufOf ct) P.ctLen out
      sk.toList = key.s.toList ++ key.pk.toList ++ key.hpk.toList ++ key.z.toList ∧
        r.1 = 0 ∧ r.2.ssLenBytes = P.ssLen ∧
        (ct = ct' → bytesOf P.ssLen r.2.ss = secret.1) ∧
        (ct ≠ ct' → bytesOf P.ssLen r.2.ss = shake256 P.ssLen (ct.toList ++ key.z.toList))) ∧
    (∀ (sk : Bytes P.kemSkLen) (ct₁ ct₂ : Bytes P.ctLen),
      let key := SecretKey.read P (bufOf sk)
      Accepts xof shake256 key ct₁ → Accepts xof shake256 key ct₂ → ct₁ ≠ ct₂ →
        decryptBytes P ct₁ key.s ≠ decryptBytes P ct₂ key.s) ∧
    ∀ (sk₁ sk₂ : Bytes P.kemSkLen) (ct : Bytes P.ctLen) (out₁ out₂ : DecOut),
      let key₁ := SecretKey.read P (bufOf sk₁)
      let key₂ := SecretKey.read P (bufOf sk₂)
      key₁.z = key₂.z → ¬ Accepts xof shake256 key₁ ct → ¬ Accepts xof shake256 key₂ ct →
        bytesOf P.ssLen
            (kemDec P xof shake256 (bufOf sk₁) P.kemSkLen (bufOf ct) P.ctLen out₁).2.ss =
          bytesOf P.ssLen
            (kemDec P xof shake256 (bufOf sk₂) P.kemSkLen (bufOf ct) P.ctLen out₂).2.ss := by
  have hss : ∀ (sk : Bytes P.kemSkLen) (ct : Bytes P.ctLen) (out : DecOut),
      bytesOf P.ssLen (kemDec P xof shake256 (bufOf sk) P.kemSkLen (bufOf ct) P.ctLen out).2.ss =
        decapsulate P xof shake256 (SecretKey.read P (bufOf sk)) ct := by
    intro sk ct out
    rw [kemDec_eq, bytesOf_copy, bytesOf_bufOf]
  refine ⟨?_, ?_, ?_⟩
  · intro sk ct out key m secret ct' r
    have hparts := SecretKey.toList_read P (bufOf sk)
    rw [bytesOf_bufOf] at hparts
    have hr : r = (0, _) := kemDec_eq xof shake256 (bufOf sk) (bufOf ct) out
    refine ⟨hparts, by rw [hr], by rw [hr], fun h => ?_, fun h => ?_⟩
    · exact (hss sk ct out).trans (decapsulate_of_accepts xof shake256 h)
    · exact (hss sk ct out).trans (decapsulate_of_not_accepts xof shake256 h)
  · intro sk ct₁ ct₂ key h₁ h₂ hne hm
    exact hne (accepts_unique xof shake256 h₁ h₂ hm)
  · intro sk₁ sk₂ ct out₁ out₂ key₁ key₂ hz h₁ h₂
    rw [hss, hss, decapsulate_of_not_accepts xof shake256 h₁,
      decapsulate_of_not_accepts xof shake256 h₂, hz]

end Main

end RrlwrKem
