import RrlwrKem.Arith.Sampling
import RrlwrKem.Session
import RrlwrKem.Utils.Drng
import RrlwrKem.Utils.Fips202

/-!
# The program

The mechanism with the functions that `parameters.h` chooses for it: SHAKE128 for the
sampling, SHAKE256 for its hashes, and the generator on SHA3-256 that all its calls
share.
-/

namespace RrlwrKem

section Definitions

/-- The output of `shake128_absorb_once` and `shake128_squeezeblocks`. -/
def programXof : Xof := fun inp nblocks =>
  bytesOf (nblocks * 168) (((shake128AbsorbOnce inp).bind fun state =>
    shake128Squeezeblocks emptyBuf 0 nblocks state).elim emptyBuf Prod.fst)

/-- `RRLWR_KEM_HASH_F`, `RRLWR_KEM_HASH_G` and `RRLWR_KEM_HASH_H`. -/
def programShake256 : Shake256 := fun outlen inp =>
  bytesOf outlen ((shake256 emptyBuf outlen inp).getD emptyBuf)

def programSha3_256 : Sha3_256 := fun inp => bytesOf 32 ((sha3_256 emptyBuf inp).getD emptyBuf)

/-- `GENERATE_RANDOM_BYTES`. -/
def generateRandomBytes : Drng DrngCtx := fun drng len =>
  let (_, drng, out) := getRandomNumber programSha3_256 drng emptyBuf (8 * len)
  (bytesOf len out, drng)

/-- `squeeze_seed_nonce`, with its local array of `RRLWR_MAX_SEED_LEN + 1` bytes. -/
def programSqueezeSeedNonce (out : Buf) (nblocks : ℕ) (seed : List Byte) (nonce : Byte) :
    Option Buf :=
  if seed.length < 128 + 1 then
    let seedBuffer := seed ++ [nonce]
    (shake128AbsorbOnce seedBuffer).bind fun state =>
    (shake128Squeezeblocks out 0 nblocks state).map Prod.fst
  else none

/-- `poly_uniform`, as far as its two buffers go. -/
def polyUniform (r : Poly) (bitlen : ℕ) (seed : List Byte) (coeff : Byte) : Option Poly :=
  if seed.length ≤ 128 ∧ bitlen ≤ 24 then
    let seedBuffer := seed ++ [coeff]
    (shake128 emptyBuf (bitlen * 16) seedBuffer).map fun xofBytesBuffer =>
      polyUnpack r xofBytesBuffer bitlen
  else none

/-- A call of the interface on `drng_algorithm`. -/
abbrev programStep (P : SecurityLevel) : DrngCtx → KemCall → KemResult × DrngCtx :=
  kemStep P generateRandomBytes programXof programShake256

end Definitions

section Hashes

theorem squeezeblocks_absorbed (out : Buf) (nblocks : ℕ) (inp : List Byte) :
    ((shake128AbsorbOnce inp).bind fun state => shake128Squeezeblocks out 0 nblocks state).map
      Prod.fst = some (out.copy (bytesOf (nblocks * 168)
        (keccakHash Shake.shake128.isRate 0x1f inp))) := by
  obtain ⟨out', state', hcalls, hwritten⟩ := squeezeCalls_absorbed .shake128 inp
    [.squeezeblocks nblocks] out ⟨Nat.dvd_zero _, trivial⟩
  have hsum : (([.squeezeblocks nblocks] : List SqueezeCall).map (·.length .shake128)).sum =
      nblocks * 168 := Nat.mul_comm _ _
  rw [hsum] at hwritten
  obtain ⟨⟨out₁, state₁⟩, hblocks, hend⟩ := Option.bind_eq_some_iff.mp hcalls
  cases hend
  rw [← hwritten.eq_copy, show shake128AbsorbOnce inp = _ from shakeAbsorbOnce_eq .shake128 inp,
    Option.bind_some]
  exact congrArg (Option.map Prod.fst) hblocks

theorem programXof_eq (inp : List Byte) (nblocks : ℕ) : programXof inp nblocks =
    bytesOf (nblocks * 168) (keccakHash Shake.shake128.isRate 0x1f inp) := by
  obtain ⟨⟨out, state⟩, hrun, hout⟩ :=
    Option.map_eq_some_iff.mp (squeezeblocks_absorbed emptyBuf nblocks inp)
  rw [programXof, hrun, Option.elim_some, hout, bytesOf_copy]

theorem shake256_eq (out : Buf) (outlen : ℕ) (inp : List Byte) : shake256 out outlen inp =
    some (out.copy (bytesOf outlen (keccakHash Shake.shake256.isRate 0x1f inp))) :=
  shake_eq .shake256 out outlen inp

theorem programShake256_eq (outlen : ℕ) (inp : List Byte) : programShake256 outlen inp =
    bytesOf outlen (keccakHash Shake.shake256.isRate 0x1f inp) := by
  rw [programShake256, shake256_eq, Option.getD_some, bytesOf_copy]

theorem programSha3_256_eq (inp : List Byte) :
    programSha3_256 inp = bytesOf 32 (keccakHash isRate_sha3_256 0x06 inp) := by
  rw [programSha3_256, sha3_256, sha3_eq isRate_sha3_256 (by decide), Option.getD_some,
    bytesOf_copy]

theorem generateRandomBytes_eq (drng : DrngCtx) (len : ℕ) : generateRandomBytes drng len =
    (bytesOf len (hashStream programSha3_256 drng.state.v), nextCtx programSha3_256 drng) := by
  rw [generateRandomBytes, getRandomNumber_bytes]
  exact congrArg (fun b => (b, nextCtx programSha3_256 drng)) (bytesOf_copy _ _)

/-- The functions that the mechanism is given leave none of their arrays, whatever they are
given (the streams of the sampling, as long as the seed fits in its buffer); each writes as
many bytes as it is asked for, and they are those of the sponges and of the generator. -/
theorem program_functions (out : Buf) (outlen nblocks : ℕ) (inp : List Byte) (nonce : Byte)
    (drng : DrngCtx) :
    programSqueezeSeedNonce out nblocks inp nonce = (if inp.length ≤ 128 then
      some (squeezeSeedNonce programXof out nblocks inp nonce) else none) ∧
    programXof inp nblocks =
      bytesOf (nblocks * 168) (keccakHash Shake.shake128.isRate 0x1f inp) ∧
    shake256 out outlen inp = some (out.copy (programShake256 outlen inp)) ∧
    programShake256 outlen inp = bytesOf outlen (keccakHash Shake.shake256.isRate 0x1f inp) ∧
    sha3_256 out inp = some (out.copy (programSha3_256 inp)) ∧
    programSha3_256 inp = bytesOf 32 (keccakHash isRate_sha3_256 0x06 inp) ∧
    getRandomNumber programSha3_256 drng out (8 * outlen) =
      (0, (generateRandomBytes drng outlen).2, out.copy (generateRandomBytes drng outlen).1) := by
  refine ⟨?_, programXof_eq inp nblocks, ?_, programShake256_eq outlen inp, ?_,
    programSha3_256_eq inp, ?_⟩
  · have hrun := squeezeblocks_absorbed out nblocks (inp ++ [nonce])
    rw [Option.map_bind] at hrun
    rw [squeezeSeedNonce, programXof_eq, ← hrun, programSqueezeSeedNonce]
    exact if_congr Nat.lt_succ_iff rfl rfl
  · rw [programShake256_eq, shake256_eq]
  · rw [programSha3_256_eq, sha3_256, sha3_eq isRate_sha3_256 (by decide)]
  · rw [generateRandomBytes_eq, getRandomNumber_bytes]

/-- The polynomial that `poly_uniform` samples for the index 0 is the first one of the ring
element that `ring_uniform` samples, at every security level and every width that the buffer
of `ring_uniform` is made for, in either build of the packing layer. -/
theorem polyUniform_zero (bld : CBuild.Build) (P : SecurityLevel) (r : Poly) (a : RingElement P.k)
    {bitlen : ℕ} (hb1 : 1 ≤ bitlen) (hb : bitlen ≤ 13) {seed : List Byte}
    (hs : seed.length ≤ 128) :
    ∃ f : RingElement P.k, ringUniformOnce bld P programXof a bitlen seed = some f ∧
      f = ringUniform P programXof a bitlen seed ∧
      polyUniform r bitlen seed 0 = some (f.get ⟨0, P.k_pos⟩) := by
  let stream := keccakHash Shake.shake128.isRate 0x1f (seed ++ [0])
  have hstream : ∀ j < bitlen * 16, emptyBuf.copy (bytesOf (bitlen * 16) stream) j =
      bufOf (programXof (seed ++ [0]) (uniformBlocks P.k bitlen)) j := by
    intro j hj
    have hlt := hj.trans_le (piece_le_stream P bitlen)
    rw [programXof_eq, bufOf_bytesOf _ hlt,
      (copy_written emptyBuf (bytesOf _ stream)).inside (Nat.zero_le j) hj, bufOf_bytesOf _ hj]
  have hfirst := ringUniform_first P programXof r a hb1 (by omega) seed hstream
  refine ⟨_, ringUniformOnce_eq bld P programXof a hb1 hb hs, rfl, ?_⟩
  rw [hfirst, polyUniform, if_pos ⟨hs, by omega⟩]
  exact congrArg (Option.map fun b => polyUnpack r b bitlen)
    (shake_eq .shake128 emptyBuf (bitlen * 16) (seed ++ [0]))

/-- Thirteen bits from 64 zero bytes. -/
theorem polyUniform_zero_thirteen :
    let seed : List Byte := List.replicate 64 0
    ∃ f : RingElement 5,
      ringUniformOnce .scalar16 .level128 programXof (emptyRing 5) 13 seed = some f ∧
      f = ringUniform .level128 programXof (emptyRing 5) 13 seed ∧
      polyUniform (Vector.replicate 128 0) 13 seed 0 = some (f.get 0) := by
  intro seed
  exact polyUniform_zero .scalar16 .level128 _ _ (by decide) (by decide)
    (by rw [List.length_replicate]; decide)

end Hashes

section Sessions

theorem generateRandomBytes_state (drng : DrngCtx) (len : ℕ) :
    (generateRandomBytes drng len).2 = nextCtx programSha3_256 drng := by
  rw [generateRandomBytes_eq]

/-- The context after a number of draws. -/
abbrev after (n : ℕ) (drng : DrngCtx) : DrngCtx := (nextCtx programSha3_256)^[n] drng

theorem after_after (m n : ℕ) (drng : DrngCtx) : after m (after n drng) = after (n + m) drng := by
  rw [Nat.add_comm]
  exact (Function.iterate_add_apply _ m n drng).symm

/-- The first bytes of draw `n` of a generator. -/
def drawn (drng : DrngCtx) (n len : ℕ) : Bytes len :=
  bytesOf len (hashStream programSha3_256
    ((HashGenerator.next (seedHash programSha3_256))^[n] drng.state).v)

theorem generateRandomBytes_iterate (drng : DrngCtx) (n len : ℕ) :
    (generateRandomBytes ((nextCtx programSha3_256)^[n] drng) len).1 = drawn drng n len := by
  rw [generateRandomBytes_eq, iterate_nextCtx_state]
  rfl

variable (P : SecurityLevel) (drng : DrngCtx)

/-- The keys of a key generation after `n` draws. -/
def keysAt (n : ℕ) : Bytes P.pkLen × Bytes P.kemSkLen :=
  keyBytes P generateRandomBytes programXof programShake256 ((nextCtx programSha3_256)^[n] drng)

/-- The parts of the secret key that is drawn after `n` draws. -/
theorem read_keysAt (n : ℕ) :
    let keys := keysAt P drng n
    let key := SecretKey.read P (bufOf keys.2)
    key.pk = keys.1 ∧ key.hpk = programShake256 P.hpkLen keys.1.toList ∧
      key.z = drawn drng (n + 2) P.seedZLen := by
  intro keys key
  obtain ⟨hpk, hhpk, hz⟩ := read_keyBytes (P := P) programXof generateRandomBytes programShake256
    ((nextCtx programSha3_256)^[n] drng)
  refine ⟨hpk, hhpk, hz.trans ?_⟩
  rw [generateRandomBytes_state, generateRandomBytes_state, ← generateRandomBytes_iterate,
    Function.iterate_succ_apply', Function.iterate_succ_apply']

/-- The secret of a message that is encapsulated to these keys comes back. -/
theorem decapsulate_keysAt (n : ℕ) (m : Bytes P.messageLen) :
    let keys := keysAt P drng n
    let e := encapsulate P programXof programShake256 keys.1 m
    Recovers P programXof (drawn drng n 64) (drawn drng (n + 1) 64)
        (hashG P programShake256 (programShake256 P.hpkLen keys.1.toList) m).2 →
      decapsulate P programXof programShake256 (SecretKey.read P (bufOf keys.2)) e.2 = e.1 := by
  have hagree := decapsulate_encapsulate (P := P) programXof generateRandomBytes programShake256
    (after n drng) m
  have hnext : (generateRandomBytes (after n drng) 64).2 = after (n + 1) drng := by
    rw [generateRandomBytes_state]
    exact after_after 1 n drng
  rw [hnext, generateRandomBytes_iterate, generateRandomBytes_iterate] at hagree
  exact hagree

variable (calls : List KemCall)

/-- The number of draws before call `k`. -/
def drawsBefore (k : ℕ) : ℕ := ((calls.take k).map (KemCall.draws P)).sum

/-- Anywhere in a session of the program, a decapsulation of the ciphertext of an
encapsulation, under the keys of a key generation, returns the secret of the encapsulation
if the noise of the seeds at the three positions is tolerable; whatever was called before,
in between and in which order. -/
theorem session_agreement {i j l : ℕ} {pk₀ sk₀ pk sk ct : Buf} {encOut : EncOut} {decOut : DecOut}
    (hi : calls[i]? = some (.keygen pk₀ sk₀)) (hj : calls[j]? = some (.enc pk P.pkLen encOut))
    (hl : calls[l]? = some (.dec sk P.kemSkLen ct P.ctLen decOut)) :
    let results := (Machine.run (programStep P) drng calls).1
    let m := drawn drng (drawsBefore P calls j) P.messageLen
    ∃ pk' sk' e d, results[i]? = some (.keygen 0 pk' P.pkLen sk' P.kemSkLen) ∧
      results[j]? = some (.enc 0 e) ∧ results[l]? = some (.dec 0 d) ∧
      (let secret :=
        hashG P programShake256 (programShake256 P.hpkLen (bytesOf P.pkLen pk').toList) m
      bytesOf P.pkLen pk = bytesOf P.pkLen pk' →
      bytesOf P.kemSkLen sk = bytesOf P.kemSkLen sk' →
      bytesOf P.ctLen ct = bytesOf P.ctLen e.ct →
      Recovers P programXof (drawn drng (drawsBefore P calls i) 64)
        (drawn drng (drawsBefore P calls i + 1) 64) secret.2 →
      bytesOf P.ssLen e.ss = secret.1 ∧ bytesOf P.ssLen d.ss = secret.1) := by
  intro results m
  let st := (nextCtx programSha3_256)^[drawsBefore P calls i] drng
  let st' := (nextCtx programSha3_256)^[drawsBefore P calls j] drng
  have hresult : ∀ {k : ℕ} {call : KemCall}, calls[k]? = some call → results[k]? =
      some (programStep P ((nextCtx programSha3_256)^[drawsBefore P calls k] drng) call).1 :=
    fun hk => session_result programXof programShake256 generateRandomBytes_state drng hk
  have hagree := kemDec_kemEnc (P := P) programXof generateRandomBytes programShake256 st st' pk₀
    sk₀ pk sk ct encOut decOut
  have hnext : (generateRandomBytes st 64).2 =
      (nextCtx programSha3_256)^[drawsBefore P calls i + 1] drng := by
    rw [generateRandomBytes_state, Function.iterate_succ_apply']
  rw [generateRandomBytes_iterate, hnext, generateRandomBytes_iterate,
    generateRandomBytes_iterate] at hagree
  refine ⟨_, _, _, _, hresult hi, ?_, ?_, hagree⟩
  · have hret := (kemEnc_eq (P := P) programXof programShake256 generateRandomBytes st' pk encOut).1
    rw [hresult hj]
    exact congrArg (fun ret => some (KemResult.enc ret _)) hret
  · have hret := congrArg Prod.fst (kemDec_eq (P := P) programXof programShake256 sk ct decOut)
    rw [hresult hl]
    exact congrArg (fun ret => some (KemResult.dec ret _)) hret

/-- Key generation, encapsulation and decapsulation on the same context, each with the bytes
that the calls before it left. -/
theorem session_agreement_three_calls :
    let P := SecurityLevel.level128
    let keys := kemKeygen P generateRandomBytes programXof programShake256 DrngCtx.zero emptyBuf
      emptyBuf
    let encOut : EncOut := ⟨emptyBuf, 0, emptyBuf, 0⟩
    let enc := kemEnc P generateRandomBytes programXof programShake256 keys.drng keys.pk P.pkLen
      encOut
    let decOut : DecOut := ⟨emptyBuf, 0⟩
    let dec := kemDec P programXof programShake256 keys.sk P.kemSkLen enc.2.1.ct P.ctLen decOut
    let calls : List KemCall := [.keygen emptyBuf emptyBuf, .enc keys.pk P.pkLen encOut,
      .dec keys.sk P.kemSkLen enc.2.1.ct P.ctLen decOut]
    let results := (Machine.run (programStep P) DrngCtx.zero calls).1
    let secret := hashG P programShake256 (programShake256 P.hpkLen
      (bytesOf P.pkLen keys.pk).toList) (drawn DrngCtx.zero 3 P.messageLen)
    results = [.keygen 0 keys.pk P.pkLen keys.sk P.kemSkLen, .enc 0 enc.2.1, .dec 0 dec.2] ∧
    (Recovers P programXof (drawn DrngCtx.zero 0 64) (drawn DrngCtx.zero 1 64) secret.2 →
      bytesOf P.ssLen enc.2.1.ss = secret.1 ∧ bytesOf P.ssLen dec.2.ss = secret.1) := by
  intro P keys encOut enc decOut dec calls results secret
  have hkeys : keys = kemKeygen P generateRandomBytes programXof programShake256 DrngCtx.zero
    emptyBuf emptyBuf := rfl
  have henc : enc = kemEnc P generateRandomBytes programXof programShake256 keys.drng keys.pk
    P.pkLen encOut := rfl
  have hdec : dec = kemDec P programXof programShake256 keys.sk P.kemSkLen enc.2.1.ct P.ctLen
    decOut := rfl
  clear_value dec enc keys
  have hresults := run_keygen_enc_dec (P := P) programXof programShake256
    generateRandomBytes DrngCtx.zero emptyBuf emptyBuf keys.pk keys.sk enc.2.1.ct P.pkLen P.kemSkLen
    P.ctLen encOut decOut
  dsimp only at hresults
  rw [← hkeys, ← henc, ← hdec] at hresults
  obtain ⟨pk', sk', e, d, hfirst, hsecond, hthird, hagree⟩ :=
    session_agreement P DrngCtx.zero calls (i := 0) (j := 1) (l := 2) rfl rfl rfl
  have hbefore : drawsBefore P calls 0 = 0 := rfl
  have hbefore' : drawsBefore P calls 1 = 3 := rfl
  have hcalls : calls = [.keygen emptyBuf emptyBuf, .enc keys.pk P.pkLen encOut,
    .dec keys.sk P.kemSkLen enc.2.1.ct P.ctLen decOut] := rfl
  rw [hbefore, hbefore'] at hagree
  rw [hcalls, hresults] at hfirst hsecond hthird
  simp only [List.getElem?_cons_zero, List.getElem?_cons_succ, Option.some.injEq,
    KemResult.keygen.injEq, KemResult.enc.injEq, KemResult.dec.injEq] at hfirst hsecond hthird
  obtain ⟨hret, rfl, hpkLen, rfl, hskLen⟩ := hfirst
  obtain ⟨hencRet, rfl⟩ := hsecond
  obtain ⟨hdecRet, rfl⟩ := hthird
  refine ⟨hresults.trans ?_, hagree rfl rfl rfl⟩
  rw [hret, hpkLen, hskLen, hencRet, hdecRet]

/-- Refused calls return -1 with their memory as it was, and neither they nor any
decapsulation can be seen by the other calls of a session: without them these have the
same results, and the generator ends in the same context, as many draws on. -/
theorem session_without_silent_calls (P : SecurityLevel) (drng : DrngCtx) (calls : List KemCall) :
    let r := Machine.run (programStep P) drng calls
    let loud : KemCall → Bool := fun call => decide (call.draws P ≠ 0)
    Machine.run (programStep P) drng (calls.filter loud) =
      (((calls.zip r.1).filter fun c => loud c.1).map Prod.snd, r.2) ∧
    r.2.state = (HashGenerator.next (seedHash programSha3_256))^[(calls.map (KemCall.draws P)).sum]
      drng.state ∧
    (∀ (k : ℕ) pk pkLenBytes out, calls[k]? = some (.enc pk pkLenBytes out) →
      pkLenBytes ≠ P.pkLen → r.1[k]? = some (.enc (-1) out)) ∧
    ∀ (k : ℕ) sk skLenBytes ct ctLenBytes out,
      calls[k]? = some (.dec sk skLenBytes ct ctLenBytes out) →
      skLenBytes ≠ P.kemSkLen ∨ ctLenBytes ≠ P.ctLen → r.1[k]? = some (.dec (-1) out) := by
  intro r loud
  have hstate := kemStep_state (P := P) programXof programShake256 generateRandomBytes_state
  have hresult : ∀ {k : ℕ} {call : KemCall}, calls[k]? = some call → r.1[k]? =
      some (programStep P ((nextCtx programSha3_256)^[drawsBefore P calls k] drng) call).1 :=
    fun hk => session_result programXof programShake256 generateRandomBytes_state drng hk
  refine ⟨?_, ?_, ?_, ?_⟩
  · refine Machine.run_filter (fun st call hsilent => ?_) drng calls
    have hdraws : call.draws P = 0 := by simpa [loud] using hsilent
    rw [hstate, hdraws]
    rfl
  · have hrun := Machine.run_state_of_paced hstate drng calls
    rw [← iterate_nextCtx_state, ← hrun]
  · intro k pk pkLenBytes out hk hlen
    rw [hresult hk, programStep,
      (kemStep_refused programXof programShake256 _).1 pk pkLenBytes out hlen]
  · intro k sk skLenBytes ct ctLenBytes out hk hlen
    rw [hresult hk, programStep, (kemStep_refused programXof programShake256 _).2 _ _ _ _ out hlen]

end Sessions

end RrlwrKem
