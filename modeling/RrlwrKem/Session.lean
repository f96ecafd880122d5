import RrlwrKem.Arith.Window
import RrlwrKem.DecryptionMargin
import RrlwrKem.Kem
import RrlwrKem.Library.Machine

/-!
# Sessions of the mechanism

All calls of the interface of `kem.h` share one random number generator and nothing else.
A session is a list of calls in any order, with any arguments; what a key generation, an
encapsulation and a decapsulation far apart in it have to do with one another is decided
by the positions of their draws.
-/

namespace RrlwrKem

section Definitions

/-- A call, with the memory that it is given. -/
inductive KemCall where
  | keygen (pk sk : Buf)
  | enc (pk : Buf) (pkLenBytes : ℕ) (out : EncOut)
  | dec (sk : Buf) (skLenBytes : ℕ) (ct : Buf) (ctLenBytes : ℕ) (out : DecOut)

/-- The return value of a call, and what it leaves in memory. -/
inductive KemResult where
  | keygen (ret : ℤ) (pk : Buf) (pkLenBytes : ℕ) (sk : Buf) (skLenBytes : ℕ)
  | enc (ret : ℤ) (out : EncOut)
  | dec (ret : ℤ) (out : DecOut)

variable (P : SecurityLevel) {σ : Type} (drng : Drng σ) (xof : Xof) (shake256 : Shake256)

def kemStep (st : σ) : KemCall → KemResult × σ
  | .keygen pk sk =>
    let keys := kemKeygen P drng xof shake256 st pk sk
    (.keygen keys.ret keys.pk keys.pkLenBytes keys.sk keys.skLenBytes, keys.drng)
  | .enc pk pkLenBytes out =>
    let (ret, out, st) := kemEnc P drng xof shake256 st pk pkLenBytes out
    (.enc ret out, st)
  | .dec sk skLenBytes ct ctLenBytes out =>
    let (ret, out) := kemDec P xof shake256 sk skLenBytes ct ctLenBytes out
    (.dec ret out, st)

/-- How often a call draws. -/
def KemCall.draws : KemCall → ℕ
  | .keygen _ _ => 3
  | .enc _ pkLenBytes _ => if pkLenBytes = P.pkLen then 1 else 0
  | .dec _ _ _ _ _ => 0

/-- The keys of a key generation as byte strings. -/
def keyBytes (st : σ) : Bytes P.pkLen × Bytes P.kemSkLen :=
  let keys := kemKeygen P drng xof shake256 st emptyBuf emptyBuf
  (bytesOf P.pkLen keys.pk, bytesOf P.kemSkLen keys.sk)

/-- The shared secret and the ciphertext of a message. -/
def encapsulate (pk : Bytes P.pkLen) (m : Bytes P.messageLen) : Bytes P.ssLen × Bytes P.ctLen :=
  let secret := hashG P shake256 (shake256 P.hpkLen pk.toList) m
  (secret.1, encryptBytes P xof pk m secret.2)

/-- The noise of three seeds is within what the decoder tolerates. -/
def Recovers (seedA seedS seedSp : Bytes 64) : Prop :=
  let a := ringUniform P xof (emptyRing P.k) 13 seedA.toList
  let s := ringUniform P xof (emptyRing P.k) 2 seedS.toList
  let sp := ringUniform P xof (emptyRing P.k) 2 seedSp.toList
  (∀ out k, |noise P a s sp out k| < margin P) ∧ WithinWindow P a s sp

/-- A secret that is used on both sides makes no noise. -/
theorem recovers_self (seedA seedS : Bytes 64) : Recovers P xof seedA seedS seedS := by
  refine ⟨fun out k => ?_, withinWindow_self P _ _⟩
  rw [noise_self, abs_zero]
  exact margin_pos P

end Definitions

section Recovery

variable {P : SecurityLevel} (xof : Xof)

/-- Decryption inverts encryption for sampled elements of tolerable noise. -/
theorem decrypt_encryptSampled {a s sp : RingElement P.k} (hs : IsSecret s)
    (hnoise : ∀ out k, |noise P a s sp out k| < margin P) (hwindow : WithinWindow P a s sp)
    (m : Bytes P.messageLen) (seedA : Bytes 64) (pk₀ sk₀ ct₀ m₀ : Buf) :
    let aw := ringToAwin (emptyAwin P.k) a
    let keys := keygenSampled P pk₀ sk₀ seedA aw s
    bytesOf P.messageLen
      (pkeDecrypt P m₀ (encryptSampled P ct₀ keys.1 (bufOf m) aw sp) keys.2) = m := by
  intro aw keys
  have hacc : ∀ out (k : Fin 128), |Int.bmod (((encryptAcc P keys.1 sp out).get k).toNat -
      ((decryptAcc P (encryptSampled P ct₀ keys.1 (bufOf m) aw sp) keys.2 out).get k).toNat)
        2048| < margin P := by
    intro out k
    rw [bmod_accumulators (ringToAwin_isWindow _ a) hs sp seedA pk₀ sk₀ ct₀ (bufOf m) rfl rfl]
    exact hnoise out k
  exact decrypts_of_withinWindow hs m hwindow seedA pk₀ sk₀ ct₀ m₀ hacc

/-- `pke_decrypt` inverts `pke_encrypt` on seeds of tolerable noise, from any memory. -/
theorem pkeDecrypt_pkeEncrypt {seedA seedS seedSp : Bytes 64}
    (h : Recovers P xof seedA seedS seedSp) (m : Bytes P.messageLen) (pk₀ sk₀ ct₀ m₀ : Buf) :
    let keys := pkeKeygen P xof pk₀ sk₀ seedA seedS
    bytesOf P.messageLen
      (pkeDecrypt P m₀ (pkeEncrypt P xof ct₀ keys.1 (bufOf m) seedSp) keys.2) = m := by
  intro keys
  have haw : ringUniformAwin P xof (emptyAwin P.k) 13 seedA.toList =
      ringToAwin (emptyAwin P.k) (ringUniform P xof (emptyRing P.k) 13 seedA.toList) :=
    (ringUniformAwin_isWindow P xof _ _ (by decide) _).unique (ringToAwin_isWindow _ _)
  have hrun := decrypt_encryptSampled (ringUniform_isSecret P xof (emptyRing P.k) seedS.toList)
    h.1 h.2 m seedA pk₀ sk₀ ct₀ m₀
  rw [← haw] at hrun
  rw [pkeEncrypt_pkeKeygen]
  exact hrun

theorem SecretKey.read_congr {sk sk' : Buf}
    (h : bytesOf P.kemSkLen sk = bytesOf P.kemSkLen sk') :
    SecretKey.read P sk = SecretKey.read P sk' := by
  have hj : ∀ j < P.kemSkLen, sk j = sk' j := fun j hj => by
    rw [← bytesOf_getElem P.kemSkLen sk hj, h, bytesOf_getElem]
  rw [SecurityLevel.kemSkLen] at hj
  rw [SecretKey.read, SecretKey.read, SecretKey.mk.injEq]
  exact ⟨bytesOf_congr fun j hlt => hj _ (by omega), bytesOf_congr fun j hlt => hj _ (by omega),
    bytesOf_congr fun j hlt => hj _ (by omega), bytesOf_congr fun j hlt => hj _ (by omega)⟩

/-- The keys do not depend on what was in memory. -/
theorem keygenSampled_congr (pk₀ sk₀ pk₁ sk₁ : Buf) (seedA : Bytes 64) (a : RingElementAwin P.k)
    (s : RingElement P.k) :
    bytesOf P.pkLen (keygenSampled P pk₀ sk₀ seedA a s).1 =
        bytesOf P.pkLen (keygenSampled P pk₁ sk₁ seedA a s).1 ∧
      bytesOf P.skLen (keygenSampled P pk₀ sk₀ seedA a s).2 =
        bytesOf P.skLen (keygenSampled P pk₁ sk₁ seedA a s).2 := by
  refine ⟨bytesOf_congr fun j hj => ?_, bytesOf_congr fun j hj => ?_⟩
  · rw [SecurityLevel.pkLen] at hj
    by_cases hlt : j < 64
    · have hseed : ∀ pk sk, (keygenSampled P pk sk seedA a s).1 j = seedA[j] := fun pk sk => by
        rw [← bytesOf_getElem 64 (keygenSampled P pk sk seedA a s).1 hlt]
        simp only [keygenSampled_seed]
      rw [hseed, hseed]
    · have hidx : 64 + (j - 64) = j := by omega
      have hpack := congrFun (keygenSampled_offset pk₀ sk₀ seedA a s) (j - 64)
      have hpack' := congrFun (keygenSampled_offset pk₁ sk₁ seedA a s) (j - 64)
      rw [Buf.offset, hidx] at hpack hpack'
      rw [hpack, hpack']
      exact (ringPack_isCodec (by decide) (by decide)).total _ _ _ _ (by omega)
  · rw [SecurityLevel.skLen] at hj
    rw [keygenSampled_sk, keygenSampled_sk]
    exact (ringPack_isCodec (by decide) (by decide)).total _ _ _ _ (by omega)

variable {σ : Type} (drng : Drng σ) (shake256 : Shake256)

/-- The secret of the public-key scheme is at the start of the secret key. -/
theorem kemKeygen_secret (st : σ) (pk₀ sk₀ : Buf) :
    (SecretKey.read P (kemKeygen P drng xof shake256 st pk₀ sk₀).sk).s =
      bytesOf P.skLen (pkeKeygen P xof pk₀ sk₀ (drng st 64).1 (drng (drng st 64).2 64).1).2 :=
  congrArg SecretKey.s (SecretKey.read_layout _ _ _ _)

theorem kemKeygen_congr (st : σ) (pk₀ sk₀ pk₁ sk₁ : Buf) :
    let keys := kemKeygen P drng xof shake256 st pk₀ sk₀
    let keys' := kemKeygen P drng xof shake256 st pk₁ sk₁
    bytesOf P.pkLen keys.pk = bytesOf P.pkLen keys'.pk ∧
      bytesOf P.kemSkLen keys.sk = bytesOf P.kemSkLen keys'.sk := by
  intro keys keys'
  obtain ⟨hpk, hsk⟩ := keygenSampled_congr (P := P) pk₀ sk₀ pk₁ sk₁ (drng st 64).1
    (ringUniformAwin P xof (emptyAwin P.k) 13 (drng st 64).1.toList)
    (ringUniform P xof (emptyRing P.k) 2 (drng (drng st 64).2 64).1.toList)
  have hread : SecretKey.read P keys.sk = SecretKey.read P keys'.sk := by
    refine (SecretKey.read_layout (P := P) _ _ _ _).trans
      (Eq.trans ?_ (SecretKey.read_layout _ _ _ _).symm)
    rw [SecretKey.mk.injEq]
    exact ⟨hsk, hpk, congrArg (fun b => shake256 P.hpkLen (Vector.toList b)) hpk, rfl⟩
  refine ⟨hpk, Vector.toList_inj.mp ?_⟩
  rw [SecretKey.toList_read, SecretKey.toList_read, hread]

/-- Decapsulation finds the drawn message when the noise of the seeds allows it. -/
theorem decryptBytes_encryptBytes (st : σ) (pk₀ sk₀ : Buf) (m : Bytes P.messageLen)
    {seedSp : Bytes 64}
    (h : Recovers P xof (drng st 64).1 (drng (drng st 64).2 64).1 seedSp) :
    let keys := kemKeygen P drng xof shake256 st pk₀ sk₀
    decryptBytes P (encryptBytes P xof (bytesOf P.pkLen keys.pk) m seedSp)
      (SecretKey.read P keys.sk).s = m := by
  intro keys
  have hct := bytesOf_pkeEncrypt (P := P) xof emptyBuf keys.pk (bufOf m) seedSp
  rw [bytesOf_bufOf] at hct
  rw [kemKeygen_secret, ← hct, ← bytesOf_pkeDecrypt emptyBuf]
  exact pkeDecrypt_pkeEncrypt xof h m pk₀ sk₀ emptyBuf emptyBuf

/-- A key generation writes its keys over any memory, and nothing else. -/
theorem kemKeygen_effect (st : σ) (pk sk : Buf) :
    let keys := keyBytes P drng xof shake256 st
    kemKeygen P drng xof shake256 st pk sk =
      { ret := 0, pk := pk.copy keys.1, pkLenBytes := P.pkLen, sk := sk.copy keys.2,
        skLenBytes := P.kemSkLen, drng := (drng (drng (drng st 64).2 64).2 P.seedZLen).2 } := by
  intro keys
  obtain ⟨hpk, hsk⟩ := kemKeygen_congr (P := P) xof drng shake256 st pk sk emptyBuf emptyBuf
  have hkeys : keys = (bytesOf P.pkLen (kemKeygen P drng xof shake256 st pk sk).pk,
      bytesOf P.kemSkLen (kemKeygen P drng xof shake256 st pk sk).sk) := by
    rw [hpk, hsk]
    rfl
  have hpkAbove : ∀ j, P.pkLen ≤ j → (kemKeygen P drng xof shake256 st pk sk).pk j = pk j :=
    fun j hj => keygenSampled_pk_above pk sk _ _ _ hj
  have hskAbove : ∀ j, P.kemSkLen ≤ j → (kemKeygen P drng xof shake256 st pk sk).sk j = sk j := by
    intro j hj
    rw [SecurityLevel.kemSkLen] at hj
    refine (Buf.writeAt_copy_above _ _ _ (by omega)).trans ?_
    refine (Buf.writeAt_copy_above _ _ _ (by omega)).trans ?_
    refine (Buf.writeAt_copy_above _ _ _ (by omega)).trans ?_
    exact keygenSampled_sk_above pk sk (drng st 64).1
      (ringUniformAwin P xof (emptyAwin P.k) 13 (drng st 64).1.toList) _ (by omega)
  rw [hkeys]
  dsimp only
  rw [← Buf.eq_copy hpkAbove, ← Buf.eq_copy hskAbove]
  rfl

/-- An encapsulation writes its shared secret and its ciphertext over any memory. -/
theorem kemEnc_effect (st : σ) (pk : Buf) (out : EncOut) :
    let e := encapsulate P xof shake256 (bytesOf P.pkLen pk) (drng st P.messageLen).1
    kemEnc P drng xof shake256 st pk P.pkLen out =
      (0, { ss := out.ss.copy e.1, ssLenBytes := P.ssLen, ct := out.ct.copy e.2,
            ctLenBytes := P.ctLen }, (drng st P.messageLen).2) := by
  intro e
  obtain ⟨hret, hss, hssLen, hct, hctLen⟩ := kemEnc_eq (P := P) xof shake256 drng st pk out
  have hctAbove : ∀ j, P.ctLen ≤ j →
      (kemEnc P drng xof shake256 st pk P.pkLen out).2.1.ct j = out.ct j := by
    intro j hj
    rw [kemEnc, if_neg (not_not.mpr rfl)]
    exact encryptSampled_above _ _ _ _ _ hj
  have hstate : (kemEnc P drng xof shake256 st pk P.pkLen out).2.2 =
      (drng st P.messageLen).2 := by
    rw [kemEnc, if_neg (not_not.mpr rfl)]
  refine Prod.ext hret (Prod.ext ?_ hstate)
  refine (EncOut.mk.injEq ..).mpr ⟨hss, hssLen, ?_, hctLen⟩
  rw [Buf.eq_copy hctAbove, hct]
  rfl

/-- The parts of the secret key of a key generation. -/
theorem read_keyBytes (st : σ) :
    let keys := keyBytes P drng xof shake256 st
    let key := SecretKey.read P (bufOf keys.2)
    key.pk = keys.1 ∧ key.hpk = shake256 P.hpkLen keys.1.toList ∧
      key.z = (drng (drng (drng st 64).2 64).2 P.seedZLen).1 := by
  intro keys key
  obtain ⟨-, -, -, hpk, hhpk⟩ := kemKeygen_eq (P := P) xof shake256 drng st emptyBuf emptyBuf
  have hread : key = SecretKey.read P (kemKeygen P drng xof shake256 st emptyBuf emptyBuf).sk :=
    SecretKey.read_congr (bytesOf_bufOf _)
  rw [hread]
  exact ⟨hpk, hhpk, congrArg SecretKey.z (SecretKey.read_layout _ _ _ _)⟩

/-- Decapsulation inverts encapsulation on the byte strings. -/
theorem decapsulate_encapsulate (st : σ) (m : Bytes P.messageLen) :
    let keys := keyBytes P drng xof shake256 st
    let e := encapsulate P xof shake256 keys.1 m
    Recovers P xof (drng st 64).1 (drng (drng st 64).2 64).1
        (hashG P shake256 (shake256 P.hpkLen keys.1.toList) m).2 →
      decapsulate P xof shake256 (SecretKey.read P (bufOf keys.2)) e.2 = e.1 := by
  intro keys e hrecovers
  obtain ⟨hpk, hhpk, -⟩ := read_keyBytes (P := P) xof drng shake256 st
  have hread : SecretKey.read P (bufOf keys.2) =
      SecretKey.read P (kemKeygen P drng xof shake256 st emptyBuf emptyBuf).sk :=
    SecretKey.read_congr (bytesOf_bufOf _)
  have hmessage : decryptBytes P e.2 (SecretKey.read P (bufOf keys.2)).s = m := by
    rw [hread]
    exact decryptBytes_encryptBytes xof drng shake256 st emptyBuf emptyBuf m hrecovers
  have haccepts : Accepts xof shake256 (SecretKey.read P (bufOf keys.2)) e.2 := by
    rw [Accepts, reencrypt, hmessage, hpk, hhpk]
    rfl
  rw [decapsulate_of_accepts _ _ haccepts, hmessage, hhpk]
  rfl

/-- An encapsulation and a decapsulation under the keys of one key generation agree. -/
theorem kemDec_kemEnc (st st' : σ) (pk₀ sk₀ pk sk ct : Buf) (encOut : EncOut) (decOut : DecOut) :
    let keys := kemKeygen P drng xof shake256 st pk₀ sk₀
    let m := (drng st' P.messageLen).1
    let secret := hashG P shake256 (shake256 P.hpkLen (bytesOf P.pkLen keys.pk).toList) m
    let e := kemEnc P drng xof shake256 st' pk P.pkLen encOut
    let d := kemDec P xof shake256 sk P.kemSkLen ct P.ctLen decOut
    bytesOf P.pkLen pk = bytesOf P.pkLen keys.pk →
    bytesOf P.kemSkLen sk = bytesOf P.kemSkLen keys.sk →
    bytesOf P.ctLen ct = bytesOf P.ctLen e.2.1.ct →
    Recovers P xof (drng st 64).1 (drng (drng st 64).2 64).1 secret.2 →
      bytesOf P.ssLen e.2.1.ss = secret.1 ∧ bytesOf P.ssLen d.2.ss = secret.1 := by
  intro keys m secret e d hpk hsk hct hrecovers
  let K := keyBytes P drng xof shake256 st
  have hkeys : keys = _ := kemKeygen_effect xof drng shake256 st pk₀ sk₀
  have he : e = _ := kemEnc_effect xof drng shake256 st' pk encOut
  have hd : d = _ := kemDec_eq xof shake256 sk ct decOut
  have hpkBytes : bytesOf P.pkLen keys.pk = K.1 := by rw [hkeys, bytesOf_copy]
  have hskBytes : bytesOf P.kemSkLen keys.sk = K.2 := by rw [hkeys, bytesOf_copy]
  have hread : SecretKey.read P sk = SecretKey.read P (bufOf K.2) :=
    SecretKey.read_congr (by rw [hsk, hskBytes, bytesOf_bufOf])
  have hsecret : secret = hashG P shake256 (shake256 P.hpkLen K.1.toList) m := by
    rw [← hpkBytes]
  rw [hpk, hpkBytes] at he
  rw [he, bytesOf_copy] at hct
  rw [hsecret] at hrecovers
  rw [he, hd, bytesOf_copy, bytesOf_copy, hread, hct, hsecret]
  exact ⟨rfl, decapsulate_encapsulate (P := P) xof drng shake256 st m hrecovers⟩

end Recovery

section Runs

variable {P : SecurityLevel} {σ : Type} {drng : Drng σ} {next : σ → σ} (xof : Xof)
  (shake256 : Shake256)

/-- A call moves the generator by as many draws as it makes. -/
theorem kemStep_state (hdrng : ∀ st len, (drng st len).2 = next st) (st : σ) (call : KemCall) :
    (kemStep P drng xof shake256 st call).2 = next^[call.draws P] st := by
  cases call with
  | keygen pk sk =>
    change (drng (drng (drng st 64).2 64).2 P.seedZLen).2 = next (next (next st))
    rw [hdrng, hdrng, hdrng]
  | enc pk pkLenBytes out =>
    by_cases h : pkLenBytes = P.pkLen
    · rw [KemCall.draws, if_pos h, kemStep, kemEnc, if_neg (not_not.mpr h)]
      exact hdrng st P.messageLen
    · rw [KemCall.draws, if_neg h, kemStep, kemEnc, if_pos h]
      rfl
  | dec sk skLenBytes ct ctLenBytes out => rfl

/-- The result of a call is the one that it has after the draws of the calls before it. -/
theorem session_result (hdrng : ∀ st len, (drng st len).2 = next st) (st : σ)
    {calls : List KemCall} {k : ℕ} {call : KemCall} (hk : calls[k]? = some call) :
    (Machine.run (kemStep P drng xof shake256) st calls).1[k]? = some (kemStep P drng xof shake256
      (next^[((calls.take k).map (KemCall.draws P)).sum] st) call).1 := by
  obtain ⟨hlt, rfl⟩ := List.getElem?_eq_some_iff.mp hk
  exact Machine.run_getElem_of_paced (kemStep_state xof shake256 hdrng) st calls hlt

/-- The results of the three calls, one after the other. -/
theorem run_keygen_enc_dec (drng : Drng σ) (st : σ) (pk₀ sk₀ pk sk ct : Buf)
    (pkLenBytes skLenBytes ctLenBytes : ℕ) (encOut : EncOut) (decOut : DecOut) :
    let keys := kemKeygen P drng xof shake256 st pk₀ sk₀
    let enc := kemEnc P drng xof shake256 keys.drng pk pkLenBytes encOut
    let dec := kemDec P xof shake256 sk skLenBytes ct ctLenBytes decOut
    (Machine.run (kemStep P drng xof shake256) st [.keygen pk₀ sk₀, .enc pk pkLenBytes encOut,
      .dec sk skLenBytes ct ctLenBytes decOut]).1 =
        [.keygen keys.ret keys.pk keys.pkLenBytes keys.sk keys.skLenBytes, .enc enc.1 enc.2.1,
          .dec dec.1 dec.2] := rfl

/-- A call with a wrong length is refused: it returns -1 and leaves everything alone. -/
theorem kemStep_refused (st : σ) :
    (∀ pk pkLenBytes out, pkLenBytes ≠ P.pkLen →
      kemStep P drng xof shake256 st (.enc pk pkLenBytes out) = (.enc (-1) out, st)) ∧
    ∀ sk skLenBytes ct ctLenBytes out, skLenBytes ≠ P.kemSkLen ∨ ctLenBytes ≠ P.ctLen →
      kemStep P drng xof shake256 st (.dec sk skLenBytes ct ctLenBytes out) =
        (.dec (-1) out, st) := by
  refine ⟨fun pk pkLenBytes out h => ?_, fun sk skLenBytes ct ctLenBytes out h => ?_⟩
  · rw [kemStep, kemEnc, if_pos h]
  · rw [kemStep, kemDec, if_pos h]

end Runs

end RrlwrKem
