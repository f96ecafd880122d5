import RrlwrKem.SharedMemory

/-!
# The tests of the interface

`test/test_KEM.c`: round trips, decapsulations after one bit of the ciphertext or of the
secret key was flipped, and the lengths. A test is the conjunction of its assertions and the
context after its draws; the assertions are those of a build without `NDEBUG`, which the
`Makefile` defines.
-/

namespace RrlwrKem

section Definitions

/-- `!memcmp(s1, s2, n)`. -/
def memEqual (n : ℕ) (s1 s2 : Buf) : Bool := decide (bytesOf n s1 = bytesOf n s2)

/-- `x[i >> 3] ^= (unsigned char)1 << (i & 7)`. -/
def flipBit (x : Buf) (i : ℕ) : Buf :=
  x.set (i >>> 3) (toByte (promoteByte (x (i >>> 3)) ^^^ (1 : U32) <<< (i &&& 7)))

variable (P : SecurityLevel)

def testKem (drng : DrngCtx) : Bool × DrngCtx :=
  let keys := kemKeygen P generateRandomBytes programXof programShake256 drng emptyBuf emptyBuf
  let enc := kemEnc P generateRandomBytes programXof programShake256 keys.drng keys.pk
    keys.pkLenBytes ⟨emptyBuf, 0, emptyBuf, 0⟩
  let dec := kemDec P programXof programShake256 keys.sk keys.skLenBytes enc.2.1.ct
    enc.2.1.ctLenBytes ⟨emptyBuf, 0⟩
  (decide (keys.pkLenBytes = P.pkLen) && decide (keys.skLenBytes = P.kemSkLen) &&
    decide (enc.2.1.ctLenBytes = P.ctLen) && decide (enc.2.1.ssLenBytes = P.ssLen) &&
    decide (dec.2.ssLenBytes = P.ssLen) && memEqual P.ssLen enc.2.1.ss dec.2.ss, enc.2.2)

/-- The arrays that the loops of `test_kem_negative` write. -/
structure NegativeArrays where
  sk : Buf
  ct : Buf
  ss2 : Buf
  cz : Buf
  ss3 : Buf

/-- The body of a loop that flips a bit of the ciphertext or of the secret key, and undoes it. -/
def negativePass (ss1 : Buf) (skLenBytes ctLenBytes : ℕ) (flipSk flipCt : Buf → Buf)
    (s : NegativeArrays) : Bool × NegativeArrays :=
  let dec (sk ct ss2 : Buf) : Buf :=
    (kemDec P programXof programShake256 sk skLenBytes ct ctLenBytes ⟨ss2, 0⟩).2.ss
  let ss2 := dec s.sk s.ct s.ss2
  let agrees := memEqual P.ssLen ss1 ss2
  let sk := flipSk s.sk
  let ct := flipCt s.ct
  let ss2 := dec sk ct ss2
  let differs := !memEqual P.ssLen ss1 ss2
  let cz := Nat.fold P.ctLen (fun j _ cz => cz.set j (ct j)) s.cz
  let cz := Nat.fold P.seedZLen (fun j _ cz =>
    cz.set (P.ctLen + j) (sk (P.skLen + P.pkLen + P.hpkLen + j))) cz
  let ss3 := s.ss3.copy
    (programShake256 P.ssLen (bytesOf (P.ctLen + P.seedZLen) cz).toList)
  let rejects := memEqual P.ssLen ss2 ss3
  (agrees && differs && rejects, { sk := flipSk sk, ct := flipCt ct, ss2, cz, ss3 })

/-- A loop over the bits, where `flipSk` and `flipCt` say which array is changed. -/
def negativeLoop (ss1 : Buf) (skLenBytes ctLenBytes : ℕ) (flipSk flipCt : ℕ → Buf → Buf) (n : ℕ)
    (s : NegativeArrays) : Bool × NegativeArrays :=
  Nat.fold n (fun i _ (r : Bool × NegativeArrays) =>
    let pass := negativePass P ss1 skLenBytes ctLenBytes (flipSk i) (flipCt i) r.2
    (r.1 && pass.1, pass.2)) (true, s)

/-- The first loop of `test_kem_negative`. -/
def flipCtLoop (ss1 : Buf) (skLenBytes ctLenBytes : ℕ) (s : NegativeArrays) :
    Bool × NegativeArrays :=
  negativeLoop P ss1 skLenBytes ctLenBytes (fun _ sk => sk) (fun i ct => flipBit ct i) P.ctLen s

/-- The second loop. -/
def flipSkLoop (ss1 : Buf) (skLenBytes ctLenBytes : ℕ) (s : NegativeArrays) :
    Bool × NegativeArrays :=
  negativeLoop P ss1 skLenBytes ctLenBytes (fun i sk => flipBit sk i) (fun _ ct => ct) P.kemSkLen s

def testKemNegative (drng : DrngCtx) : Bool × DrngCtx :=
  let keys := kemKeygen P generateRandomBytes programXof programShake256 drng emptyBuf emptyBuf
  let enc := kemEnc P generateRandomBytes programXof programShake256 keys.drng keys.pk
    keys.pkLenBytes ⟨emptyBuf, 0, emptyBuf, 0⟩
  let out := enc.2.1
  let s : NegativeArrays := ⟨keys.sk, out.ct, emptyBuf, emptyBuf, emptyBuf⟩
  let ct := flipCtLoop P out.ss keys.skLenBytes out.ctLenBytes s
  let sk := flipSkLoop P out.ss keys.skLenBytes out.ctLenBytes ct.2
  (ct.1 && sk.1, enc.2.2)

/-- `test_kem_lengths`, whose variable `l` is an `int`. -/
def testKemLengths (drng : DrngCtx) : Bool × DrngCtx :=
  let toInt (n : ℕ) : ℤ := Int.bmod n (2 ^ 32)
  (decide (toInt (kemGetPkLenBytes P) = P.pkLen) &&
    decide (toInt (kemGetSkLenBytes P) = P.kemSkLen) &&
    decide (toInt (kemGetSsLenBytes P) = P.ssLen) &&
    decide (toInt (kemGetCtLenBytes P) = P.ctLen), drng)

/-- A loop of `main`. -/
def repeatTest (test : DrngCtx → Bool × DrngCtx) : (todo : ℕ) → DrngCtx → Bool × DrngCtx
  | 0, drng => (true, drng)
  | todo + 1, drng =>
    let first := test drng
    let rest := repeatTest test todo first.2
    (first.1 && rest.1, rest.2)

/-- `main` after the generator is initialised, with its numbers of tests. -/
def kemTests (positive negative : ℕ) (drng : DrngCtx) : Bool × DrngCtx :=
  let pos := repeatTest (testKem P) positive drng
  let neg := repeatTest (testKemNegative P) negative pos.2
  let lengths := repeatTest (testKemLengths P) positive neg.2
  (pos.1 && neg.1 && lengths.1, lengths.2)

end Definitions

section Bits

theorem flipBit_apply (x : Buf) (i j : ℕ) : flipBit x i j =
    if j = i >>> 3 then x j ^^^ toByte ((1 : U32) <<< (i &&& 7)) else x j := by
  have hbyte : ∀ (b : Byte) (m : U32), toByte (promoteByte b ^^^ m) = b ^^^ toByte m := by
    intro b m
    rw [toByte, BitVec.setWidth_xor, BitVec.setWidth_setWidth_of_le _ (by decide),
      BitVec.setWidth_eq]
  rw [flipBit, Buf.set, Function.update_apply, hbyte]
  by_cases hj : j = i >>> 3
  · rw [if_pos hj, if_pos hj, hj]
  · rw [if_neg hj, if_neg hj]

/-- A bit that is flipped twice is back. -/
theorem flipBit_flipBit (x : Buf) (i : ℕ) : flipBit (flipBit x i) i = x := by
  funext j
  rw [flipBit_apply, flipBit_apply]
  by_cases hj : j = i >>> 3
  · rw [if_pos hj, if_pos hj, BitVec.xor_assoc, BitVec.xor_self, BitVec.xor_zero]
  · rw [if_neg hj, if_neg hj]

/-- A byte string with one bit flipped. -/
def flipBytes {n : ℕ} (v : Bytes n) (i : ℕ) : Bytes n := bytesOf n (flipBit (bufOf v) i)

theorem bytesOf_flipBit (n : ℕ) (x : Buf) (i : ℕ) :
    bytesOf n (flipBit x i) = flipBytes (bytesOf n x) i :=
  bytesOf_congr fun j hj => by rw [flipBit_apply, flipBit_apply, bufOf_bytesOf x hj]

theorem flipBytes_ne {n : ℕ} (v : Bytes n) {i : ℕ} (hi : i >>> 3 < n) : flipBytes v i ≠ v := by
  have hmask : ∀ k ≤ 7, toByte ((1 : U32) <<< k) ≠ 0 := by decide
  intro h
  have hbyte : (flipBytes v i)[i >>> 3] = v[i >>> 3] := by rw [h]
  rw [flipBytes, bytesOf_getElem _ _ hi, flipBit_apply, if_pos rfl, bufOf_apply v hi] at hbyte
  refine hmask (i &&& 7) Nat.and_le_right ?_
  calc toByte ((1 : U32) <<< (i &&& 7))
    _ = v[i >>> 3] ^^^ (v[i >>> 3] ^^^ toByte ((1 : U32) <<< (i &&& 7))) := by
      rw [← BitVec.xor_assoc, BitVec.xor_self, BitVec.zero_xor]
    _ = 0 := by
      rw [hbyte]
      exact BitVec.xor_self

end Bits

section Passes

variable (P : SecurityLevel)

/-- The array `(ct, z)` that the test hashes. -/
theorem cz_eq (ct z cz : Buf) :
    (bytesOf (P.ctLen + P.seedZLen) (Nat.fold P.seedZLen (fun j _ cz => cz.set (P.ctLen + j) (z j))
      (Nat.fold P.ctLen (fun j _ cz => cz.set j (ct j)) cz))).toList =
      (bytesOf P.ctLen ct).toList ++ (bytesOf P.seedZLen z).toList := by
  let first := Nat.fold P.ctLen (fun j _ (cz : Buf) => cz.set j (ct j)) cz
  have hz : Written P.ctLen (P.ctLen + P.seedZLen) (fun j => z (j - P.ctLen)) first
      (Nat.fold P.seedZLen (fun j _ (cz : Buf) => cz.set (P.ctLen + j) (z j)) first) := by
    refine ArrayPolynomial.fold_invariant (fun j b => Written P.ctLen (P.ctLen + j)
      (fun j => z (j - P.ctLen)) first b) (Written.refl _ _ _) fun j hj b h => ?_
    exact h.set (Nat.le_add_right _ _) (congrArg z (Nat.add_sub_cancel_left ..).symm)
  have hctBytes : bytesOf P.ctLen first = bytesOf P.ctLen ct := by
    rw [show first = cz.copy (bytesOf P.ctLen ct) from Written.fold_set_eq_copy P.ctLen ct cz,
      bytesOf_copy]
  rw [bytesOf_add_toList, ← hctBytes]
  refine congrArg₂ (fun a b => Vector.toList a ++ Vector.toList b)
    (bytesOf_congr fun j hj => ?_) (bytesOf_congr fun j hj => ?_)
  · rw [hz j, if_neg (by omega)]
  · rw [Buf.offset, hz.inside (by omega) (by omega), Nat.add_sub_cancel_left]

/-- A decapsulation returns the rejection value, and this is not the right secret. -/
def Rejects (secret : Bytes P.ssLen) (key : SecretKey P) (c : Bytes P.ctLen) : Prop :=
  decapsulate P programXof programShake256 key c ≠ secret ∧
    decapsulate P programXof programShake256 key c =
      programShake256 P.ssLen (c.toList ++ key.z.toList)

/-- A pass undoes its change, and its assertions are about the arrays before and after it. -/
theorem negativePass_spec (ss1 : Buf) {flipSk flipCt : Buf → Buf} (s : NegativeArrays)
    (hsk : flipSk (flipSk s.sk) = s.sk) (hct : flipCt (flipCt s.ct) = s.ct) :
    let r := negativePass P ss1 P.kemSkLen P.ctLen flipSk flipCt s
    let secret := bytesOf P.ssLen ss1
    (r.2.sk = s.sk ∧ r.2.ct = s.ct) ∧
      (r.1 = true ↔ decapsulate P programXof programShake256 (SecretKey.read P s.sk)
          (bytesOf P.ctLen s.ct) = secret ∧
        Rejects P secret (SecretKey.read P (flipSk s.sk)) (bytesOf P.ctLen (flipCt s.ct))) := by
  intro r secret
  have hcz := cz_eq P (flipCt s.ct) ((flipSk s.sk).offset (P.skLen + P.pkLen + P.hpkLen)) s.cz
  refine ⟨⟨hsk, hct⟩, ?_⟩
  simp only [r, negativePass, kemDec_eq, memEqual, bytesOf_copy, Bool.and_eq_true,
    Bool.not_eq_true', decide_eq_true_eq, decide_eq_false_iff_not]
  rw [and_assoc, eq_comm, Rejects, ne_comm]
  refine and_congr_right fun _ => and_congr_right fun _ => ?_
  exact Eq.congr_right (congrArg (programShake256 P.ssLen) hcz)

/-- A loop passes when all its passes do, each on the arrays that the loop was given. -/
theorem negativeLoop_spec (ss1 : Buf) (flipSk flipCt : ℕ → Buf → Buf)
    (hsk : ∀ i sk, flipSk i (flipSk i sk) = sk) (hct : ∀ i ct, flipCt i (flipCt i ct) = ct) (n : ℕ)
    (s : NegativeArrays) :
    let r := negativeLoop P ss1 P.kemSkLen P.ctLen flipSk flipCt n s
    let secret := bytesOf P.ssLen ss1
    (r.2.sk = s.sk ∧ r.2.ct = s.ct) ∧
      (r.1 = true ↔ ∀ i < n, decapsulate P programXof programShake256 (SecretKey.read P s.sk)
          (bytesOf P.ctLen s.ct) = secret ∧
        Rejects P secret (SecretKey.read P (flipSk i s.sk))
          (bytesOf P.ctLen (flipCt i s.ct))) := by
  intro r secret
  refine ArrayPolynomial.fold_invariant (n := n) (a := (true, s)) (fun t r =>
    (r.2.sk = s.sk ∧ r.2.ct = s.ct) ∧ (r.1 = true ↔ ∀ i < t, decapsulate P programXof
        programShake256 (SecretKey.read P s.sk) (bytesOf P.ctLen s.ct) = secret ∧
      Rejects P secret (SecretKey.read P (flipSk i s.sk)) (bytesOf P.ctLen (flipCt i s.ct))))
    ⟨⟨rfl, rfl⟩, fun _ i hi => absurd hi (Nat.not_lt_zero i), fun _ => rfl⟩ ?_
  rintro t ht r ⟨⟨hrSk, hrCt⟩, hall⟩
  obtain ⟨hback, hpass⟩ := negativePass_spec P ss1 r.2 (hsk t r.2.sk) (hct t r.2.ct)
  rw [hrSk, hrCt] at hback hpass
  refine ⟨hback, ?_⟩
  dsimp only
  rw [Bool.and_eq_true, hall, hpass, Nat.forall_lt_succ_right]

/-- Both loops of `test_kem_negative` leave the secret key and the ciphertext as they were. -/
theorem flipLoops_restore (ss1 : Buf) (s : NegativeArrays) :
    let ct := flipCtLoop P ss1 P.kemSkLen P.ctLen s
    let sk := flipSkLoop P ss1 P.kemSkLen P.ctLen s
    (ct.2.sk = s.sk ∧ ct.2.ct = s.ct) ∧ (sk.2.sk = s.sk ∧ sk.2.ct = s.ct) :=
  ⟨(negativeLoop_spec P ss1 (fun _ sk => sk) (fun i ct => flipBit ct i) (fun _ _ => rfl)
      (fun i ct => flipBit_flipBit ct i) P.ctLen s).1,
    (negativeLoop_spec P ss1 (fun i sk => flipBit sk i) (fun _ ct => ct)
      (fun i sk => flipBit_flipBit sk i) (fun _ _ => rfl) P.kemSkLen s).1⟩

end Passes

section Outcomes

variable (P : SecurityLevel) (drng : DrngCtx)

/-- The secret key of a test whose draws start with number `n`. -/
def testKey (n : ℕ) : SecretKey P := SecretKey.read P (bufOf (keysAt P drng n).2)

/-- Its shared secret and its ciphertext. -/
def testEnc (n : ℕ) : Bytes P.ssLen × Bytes P.ctLen :=
  encapsulate P programXof programShake256 (keysAt P drng n).1 (drawn drng (n + 3) P.messageLen)

/-- After every flipped bit, of the ciphertext or of the secret key, its decapsulation rejects. -/
def FlipsRejected (n : ℕ) : Prop :=
  let key := testKey P drng n
  let e := testEnc P drng n
  (∀ b < P.ctLen, Rejects P e.1 key (flipBytes e.2 b)) ∧
    ∀ b < P.kemSkLen, Rejects P e.1 { key with s := flipBytes key.s b } e.2

theorem kemKeygen_after (n : ℕ) (pk sk : Buf) :
    kemKeygen P generateRandomBytes programXof programShake256 (after n drng) pk sk =
      { ret := 0, pk := pk.copy (keysAt P drng n).1, pkLenBytes := P.pkLen,
        sk := sk.copy (keysAt P drng n).2, skLenBytes := P.kemSkLen,
        drng := after (n + 3) drng } := by
  rw [kemKeygen_effect, generateRandomBytes_state, generateRandomBytes_state,
    generateRandomBytes_state]
  have hnext : nextCtx programSha3_256 (nextCtx programSha3_256 (nextCtx programSha3_256
      (after n drng))) = after (n + 3) drng := after_after 3 n drng
  rw [hnext]
  rfl

theorem kemEnc_after (n : ℕ) {pk : Buf} (hpk : bytesOf P.pkLen pk = (keysAt P drng n).1)
    (out : EncOut) :
    kemEnc P generateRandomBytes programXof programShake256 (after (n + 3) drng) pk P.pkLen out =
      (0, { ss := out.ss.copy (testEnc P drng n).1, ssLenBytes := P.ssLen,
            ct := out.ct.copy (testEnc P drng n).2, ctLenBytes := P.ctLen },
        after (n + 4) drng) := by
  have hnext : nextCtx programSha3_256 (after (n + 3) drng) = after (n + 4) drng :=
    after_after 1 (n + 3) drng
  rw [kemEnc_effect, generateRandomBytes_state, generateRandomBytes_iterate, hpk, hnext]
  rfl

theorem testKem_eq (n : ℕ) : testKem P (after n drng) =
    (decide ((testEnc P drng n).1 = decapsulate P programXof programShake256 (testKey P drng n)
      (testEnc P drng n).2), after (n + 4) drng) := by
  have hread : SecretKey.read P (emptyBuf.copy (keysAt P drng n).2) = testKey P drng n :=
    SecretKey.read_congr (by rw [bytesOf_copy, bytesOf_bufOf])
  simp only [testKem, kemKeygen_after, kemEnc_after P drng n (bytesOf_copy _ _), kemDec_eq,
    memEqual, bytesOf_copy, hread, decide_true, Bool.true_and]

theorem read_flipBit (sk : Buf) {i : ℕ} (hi : i < P.kemSkLen) :
    SecretKey.read P (flipBit sk i) =
      { SecretKey.read P sk with s := flipBytes (SecretKey.read P sk).s i } := by
  have hsecret : P.kemSkLen ≤ 8 * P.skLen := by cases P <;> decide
  have hbyte : i >>> 3 < P.skLen := by
    rw [Nat.shiftRight_eq_div_pow]
    omega
  have hrest : ∀ j, P.skLen ≤ j → flipBit sk i j = sk j := fun j hj => by
    rw [flipBit_apply, if_neg (by omega)]
  refine (SecretKey.mk.injEq ..).mpr ⟨bytesOf_flipBit _ sk i, ?_, ?_, ?_⟩ <;>
  exact bytesOf_congr fun j _ => hrest _ (by omega)

theorem testKemNegative_spec (n : ℕ) :
    let key := testKey P drng n
    let e := testEnc P drng n
    (testKemNegative P (after n drng)).2 = after (n + 4) drng ∧
    ((testKemNegative P (after n drng)).1 = true ↔
      decapsulate P programXof programShake256 key e.2 = e.1 ∧ FlipsRejected P drng n) := by
  intro key e
  let ss1 := emptyBuf.copy e.1
  let s : NegativeArrays := ⟨emptyBuf.copy (keysAt P drng n).2, emptyBuf.copy e.2, emptyBuf,
    emptyBuf, emptyBuf⟩
  let ct := flipCtLoop P ss1 P.kemSkLen P.ctLen s
  let sk := flipSkLoop P ss1 P.kemSkLen P.ctLen ct.2
  have hrun : testKemNegative P (after n drng) = (ct.1 && sk.1, after (n + 4) drng) := by
    simp only [testKemNegative, kemKeygen_after, kemEnc_after P drng n (bytesOf_copy _ _)]
    rfl
  have hkey : SecretKey.read P s.sk = key :=
    SecretKey.read_congr (by rw [bytesOf_copy, bytesOf_bufOf])
  obtain ⟨⟨hsk, hct⟩, -⟩ := flipLoops_restore P ss1 s
  have hctPass := (negativeLoop_spec P ss1 (fun _ sk => sk) (fun i ct => flipBit ct i)
    (fun _ _ => rfl) (fun i ct => flipBit_flipBit ct i) P.ctLen s).2
  have hskPass := (negativeLoop_spec P ss1 (fun i sk => flipBit sk i) (fun _ ct => ct)
    (fun i sk => flipBit_flipBit sk i) (fun _ _ => rfl) P.kemSkLen ct.2).2
  have hctBytes : bytesOf P.ctLen s.ct = e.2 := bytesOf_copy _ _
  have hss1 : bytesOf P.ssLen ss1 = e.1 := bytesOf_copy _ _
  rw [hsk, hct] at hskPass
  simp only [bytesOf_flipBit, hkey, hctBytes, hss1] at hctPass hskPass
  rw [hrun]
  refine ⟨rfl, ?_⟩
  rw [Bool.and_eq_true, show ct.1 = true ↔ _ from hctPass, show sk.1 = true ↔ _ from hskPass]
  have hpos : 0 < P.ctLen := by cases P <;> decide
  refine ⟨fun h => ⟨(h.1 0 hpos).1, fun b hb => (h.1 b hb).2, fun b hb => ?_⟩,
    fun h => ⟨fun b hb => ⟨h.1, h.2.1 b hb⟩, fun b hb => ⟨h.1, ?_⟩⟩⟩
  · have hpass := (h.2 b hb).2
    rwa [read_flipBit P _ hb, hkey] at hpass
  · rw [read_flipBit P _ hb, hkey]
    exact h.2.2 b hb

/-- The lengths of the interface are those of the parameters. -/
theorem testKemLengths_eq (ctx : DrngCtx) : testKemLengths P ctx = (true, ctx) := by
  cases P <;> rfl

/-- Repeated tests, when each makes the same number of draws. -/
theorem repeatTest_spec {test : DrngCtx → Bool × DrngCtx} {d : ℕ}
    (htest : ∀ n, (test (after n drng)).2 = after (n + d) drng) (k n : ℕ) :
    (repeatTest test k (after n drng)).2 = after (n + k * d) drng ∧
      ((repeatTest test k (after n drng)).1 = true ↔
        ∀ i < k, (test (after (n + i * d) drng)).1 = true) := by
  induction k generalizing n with
  | zero =>
    refine ⟨?_, fun _ i hi => absurd hi (Nat.not_lt_zero i), fun _ => rfl⟩
    rw [Nat.zero_mul]
    rfl
  | succ k ih =>
    obtain ⟨hctx, hrest⟩ := ih (n + d)
    have hlater : ∀ i, n + d + i * d = n + (i + 1) * d := fun i => by ring
    rw [repeatTest, htest, hctx, hlater]
    refine ⟨rfl, ?_⟩
    rw [Bool.and_eq_true, hrest, Nat.forall_lt_succ_left, Nat.zero_mul, Nat.add_zero]
    simp only [hlater]

/-- The message that a test encapsulates. -/
abbrev testMessage (n : ℕ) : Bytes P.messageLen := drawn drng (n + 3) P.messageLen

/-- The coins of its encryption. -/
abbrev testSeed (n : ℕ) : Bytes 64 :=
  (hashG P programShake256 (programShake256 P.hpkLen (keysAt P drng n).1.toList)
    (testMessage P drng n)).2

/-- A round trip succeeds on seeds of tolerable noise. -/
theorem testKem_recovers (n : ℕ)
    (h : Recovers P programXof (drawn drng n 64) (drawn drng (n + 1) 64) (testSeed P drng n)) :
    decapsulate P programXof programShake256 (testKey P drng n) (testEnc P drng n).2 =
      (testEnc P drng n).1 :=
  decapsulate_keysAt P drng n (testMessage P drng n) h

/-- A key whose first part is damaged still takes the ciphertext if it finds the message. -/
theorem decapsulate_damaged (n : ℕ) (s : Bytes P.skLen)
    (hm : decryptBytes P (testEnc P drng n).2 s = testMessage P drng n) :
    decapsulate P programXof programShake256 { testKey P drng n with s := s }
      (testEnc P drng n).2 = (testEnc P drng n).1 := by
  obtain ⟨hpk, hhpk, -⟩ := read_keysAt P drng n
  have haccepts : Accepts programXof programShake256 { testKey P drng n with s := s }
      (testEnc P drng n).2 := by
    rw [Accepts, reencrypt, hm, testKey, hpk, hhpk]
    rfl
  rw [decapsulate_of_accepts _ _ haccepts, hm, testKey, hhpk]
  rfl

/-- Another ciphertext is rejected if it has the same message. -/
theorem decapsulate_other (n : ℕ) {c : Bytes P.ctLen} (hne : c ≠ (testEnc P drng n).2)
    (hm : decryptBytes P c (testKey P drng n).s = testMessage P drng n) :
    decapsulate P programXof programShake256 (testKey P drng n) c =
      programShake256 P.ssLen (c.toList ++ (testKey P drng n).z.toList) := by
  obtain ⟨hpk, hhpk, -⟩ := read_keysAt P drng n
  refine decapsulate_of_not_accepts _ _ fun haccepts => hne ?_
  rw [Accepts, reencrypt, hm, testKey, hpk, hhpk] at haccepts
  exact haccepts

/-- From any context the tests of the lengths pass, and the loops over the bits leave the key and
the ciphertext as they were. A run of any number of tests is free of failures exactly when every
round trip succeeds, which they do on seeds of tolerable noise at known positions, and every
decapsulation after a flipped bit gives the rejection value and not the secret. A flipped
ciphertext that still has the message is always rejected; a flipped key that still finds it is
always accepted, so that the test relies on every such bit changing the message. -/
theorem kemTests_outcome (P : SecurityLevel) (drng : DrngCtx) (positive negative : ℕ) :
    let D := decapsulate P programXof programShake256
    let key := fun i => testKey P drng (i * 4)
    let e := fun i => testEnc P drng (i * 4)
    let m := fun i => testMessage P drng (i * 4)
    let r := kemTests P positive negative drng
    (∀ ctx, testKemLengths P ctx = (true, ctx)) ∧
    (∀ ss1 s, let ct := flipCtLoop P ss1 P.kemSkLen P.ctLen s
      let sk := flipSkLoop P ss1 P.kemSkLen P.ctLen s
      (ct.2.sk = s.sk ∧ ct.2.ct = s.ct) ∧ (sk.2.sk = s.sk ∧ sk.2.ct = s.ct)) ∧
    r.2 = after ((positive + negative) * 4) drng ∧
    (r.1 = true ↔ (∀ i < positive + negative, D (key i) (e i).2 = (e i).1) ∧
      ∀ i, positive ≤ i → i < positive + negative → FlipsRejected P drng (i * 4)) ∧
    (∀ i, Recovers P programXof (drawn drng (i * 4) 64) (drawn drng (i * 4 + 1) 64)
        (testSeed P drng (i * 4)) → D (key i) (e i).2 = (e i).1) ∧
    (∀ i b, b >>> 3 < P.ctLen → decryptBytes P (flipBytes (e i).2 b) (key i).s = m i →
      D (key i) (flipBytes (e i).2 b) =
        programShake256 P.ssLen ((flipBytes (e i).2 b).toList ++ (key i).z.toList)) ∧
    (∀ i b, decryptBytes P (e i).2 (flipBytes (key i).s b) = m i →
      D { key i with s := flipBytes (key i).s b } (e i).2 = (e i).1) ∧
    (r.1 = true → ∀ i, positive ≤ i → i < positive + negative → ∀ b < P.kemSkLen,
      decryptBytes P (e i).2 (flipBytes (key i).s b) ≠ m i) := by
  intro D key e m r
  have hdraws : ∀ n, (testKem P (after n drng)).2 = after (n + 4) drng := fun n =>
    congrArg Prod.snd (testKem_eq P drng n)
  obtain ⟨hposCtx, hpos⟩ := repeatTest_spec drng hdraws positive 0
  obtain ⟨hnegCtx, hneg⟩ := repeatTest_spec drng (fun n => (testKemNegative_spec P drng n).1)
    negative (positive * 4)
  obtain ⟨hlenCtx, hlen⟩ := repeatTest_spec drng (d := 0)
    (fun n => congrArg Prod.snd (testKemLengths_eq P (after n drng))) positive
    (positive * 4 + negative * 4)
  rw [Nat.zero_add] at hposCtx
  have hlenPass := hlen.mpr fun i _ => congrArg Prod.fst (testKemLengths_eq P _)
  have hrun : r = ((repeatTest (testKem P) positive (after 0 drng)).1 &&
      (repeatTest (testKemNegative P) negative (after (positive * 4) drng)).1,
      after (positive * 4 + negative * 4) drng) := by
    refine Prod.ext (Eq.trans ?_ (Bool.and_true _)) (Eq.trans ?_ hlenCtx)
    · rw [← hlenPass, ← hnegCtx, ← hposCtx]
      rfl
    · rw [← hnegCtx, ← hposCtx]
      rfl
  have hposPass : ∀ i, (testKem P (after (0 + i * 4) drng)).1 = true ↔
      D (key i) (e i).2 = (e i).1 := by
    intro i
    rw [testKem_eq, decide_eq_true_iff, Nat.zero_add]
    exact eq_comm
  have hnegPass : ∀ i, (testKemNegative P (after (positive * 4 + i * 4) drng)).1 = true ↔
      D (key (positive + i)) (e (positive + i)).2 = (e (positive + i)).1 ∧
        FlipsRejected P drng ((positive + i) * 4) := by
    intro i
    rw [← Nat.add_mul]
    exact (testKemNegative_spec P drng ((positive + i) * 4)).2
  have hiff : r.1 = true ↔ (∀ i < positive + negative, D (key i) (e i).2 = (e i).1) ∧
      ∀ i, positive ≤ i → i < positive + negative → FlipsRejected P drng (i * 4) := by
    rw [hrun, Bool.and_eq_true, hpos, hneg]
    simp only [hposPass, hnegPass]
    refine ⟨fun h => ⟨fun i hi => ?_, fun i hle hi => ?_⟩,
      fun h => ⟨fun i hi => h.1 i (by omega),
        fun i hi => ⟨h.1 _ (by omega), h.2 _ (by omega) (by omega)⟩⟩⟩
    · by_cases hlt : i < positive
      · exact h.1 i hlt
      · obtain ⟨j, rfl⟩ := Nat.exists_eq_add_of_le (not_lt.mp hlt)
        exact (h.2 j (by omega)).1
    · obtain ⟨j, rfl⟩ := Nat.exists_eq_add_of_le hle
      exact (h.2 j (by omega)).2
  have hdamaged : ∀ i b, decryptBytes P (e i).2 (flipBytes (key i).s b) = m i →
      D { key i with s := flipBytes (key i).s b } (e i).2 = (e i).1 :=
    fun i b => decapsulate_damaged P drng (i * 4) _
  refine ⟨testKemLengths_eq P, flipLoops_restore P, ?_, hiff,
    fun i => testKem_recovers P drng (i * 4), fun i b hb => ?_, hdamaged,
    fun hr i hle hi b hb hm => ?_⟩
  · rw [hrun, Nat.add_mul]
  · exact decapsulate_other P drng (i * 4) (flipBytes_ne _ hb)
  · exact (((hiff.mp hr).2 i hle hi).2 b hb).1 (hdamaged i b hm)

end Outcomes

end RrlwrKem
