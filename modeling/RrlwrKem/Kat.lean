import RrlwrKem.Program

/-!
# The known-answer tests

The driver of `KAT/KAT_KEM.c`: ten rounds, each on a seed of one generator and with a
generator of its own, in memory that is allocated once. Its file is a function of the
seeds, and its exit code says which of the steps that can fail did. It does not look at
what `calloc` returns: a null pointer is `none`, and so is what comes of its use.
-/

namespace RrlwrKem

section Definitions

/-- The allocations of `main` that succeed. -/
structure KatCalloc where
  (nonce pk sk ss ss1 ct seed : Bool)

/-- What the driver finds in its environment: the file operations that succeed, the
allocations of `main`, and those of each call of `init_random_number`. -/
structure KatEnv where
  mkdir : Bool
  eexist : Bool
  access : Bool
  fopen : Bool
  fclose : Bool
  calloc : KatCalloc
  malloc : ℕ → Malloc

/-- `isalnum(c) || '-' == c || '_' == c`. -/
def isNameChar (c : Char) : Bool := c.isAlphanum || c == '-' || c == '_'

/-- `validate_algorithm_instance_name`. -/
def validateAlgorithmInstanceName (algorithm : List Char) : ℤ :=
  let rt : ℤ := 0
  let rt := if algorithm.length > 64 then -1 else rt
  algorithm.foldl (fun rt c => if !isNameChar c then -1 else rt) rt

def createDirectory (env : KatEnv) : ℤ :=
  if env.mkdir then 0 else if env.eexist then if env.access then 0 else 1 else 1

/-- The two digits of `%02X`. -/
def hexDigits (b : Byte) : List Char :=
  let digit (n : ℕ) : Char := "0123456789ABCDEF".toList.getD n '0'
  [digit (b.toNat / 16), digit (b.toNat % 16)]

/-- `fprintlen`, which prints no number when `OUTPUT_BLANK_TEST_VECTORS` is set. -/
def fprintlen (blank : Bool) (identifier : String) (len : ℕ) : String :=
  if blank then identifier ++ "\n" else identifier ++ toString len ++ "\n"

def fprintstr (identifier : String) (msg : List Byte) : String :=
  identifier ++ String.ofList (msg.flatMap hexDigits) ++ "\n"

/-- The memory that `calloc` returns, if it does. -/
def calloc (succeeds : Bool) : Option Buf := if succeeds then some fun _ => 0 else none

/-- The variables of `main` that outlive a round, with the memory that its pointers point to. -/
structure KatState where
  drngSeed : DrngCtx
  (seed pk sk ss ss1 ct : Option Buf)
  (pkLenBytes skLenBytes ssLenBytes ctLenBytes : ℕ)

variable (P : SecurityLevel) (blank : Bool)

/-- One pass of the loop of `main`: what it returns early, what it prints, and the
variables after it. Each call writes through its pointers, none of which may be null. -/
def katRound (malloc : ℕ → Malloc) (i : ℕ) (s : KatState) : Option (ℤ × List String × KatState) :=
  s.seed.bind fun seed =>
  let draw := getRandomNumber programSha3_256 s.drngSeed seed (64 * 8)
  let seed := draw.2.2
  let s := { s with drngSeed := draw.2.1, seed := some seed }
  let out := ["Count = " ++ toString i ++ "\n", "Seed_Len = " ++ toString 64 ++ "\n",
    fprintstr "Seed = " (bytesOf 64 seed).toList]
  let drngAlgorithm := (initRandomNumber programSha3_256 (malloc (i + 1)) (bytesOf 64 seed)).2
  s.pk.bind fun pk => s.sk.bind fun sk =>
  let keys := kemKeygen P generateRandomBytes programXof programShake256 drngAlgorithm pk sk
  let pk := keys.pk
  let sk := keys.sk
  let s := { s with
    pk := some pk, pkLenBytes := keys.pkLenBytes, sk := some sk, skLenBytes := keys.skLenBytes }
  if keys.ret ≠ 0 then some (-3, out, s) else
  let out := out ++ [fprintlen blank "PK_Len = " s.pkLenBytes,
    fprintstr "PK = " (bytesOf s.pkLenBytes pk).toList,
    fprintlen blank "SK_Len = " s.skLenBytes,
    fprintstr "SK = " (bytesOf s.skLenBytes sk).toList]
  s.ss.bind fun ss => s.ct.bind fun ct =>
  let enc := kemEnc P generateRandomBytes programXof programShake256 keys.drng pk s.pkLenBytes
    ⟨ss, s.ssLenBytes, ct, s.ctLenBytes⟩
  let ss := enc.2.1.ss
  let ct := enc.2.1.ct
  let s := { s with
    ss := some ss, ssLenBytes := enc.2.1.ssLenBytes, ct := some ct,
    ctLenBytes := enc.2.1.ctLenBytes }
  if enc.1 ≠ 0 then some (-3, out, s) else
  let out := out ++ [fprintlen blank "CT_Len = " s.ctLenBytes,
    fprintstr "CT = " (bytesOf s.ctLenBytes ct).toList,
    fprintlen blank "SS_Len = " s.ssLenBytes,
    fprintstr "SS = " (bytesOf s.ssLenBytes ss).toList]
  s.ss1.bind fun ss1 =>
  let dec := kemDec P programXof programShake256 sk s.skLenBytes ct s.ctLenBytes
    ⟨ss1, s.ssLenBytes⟩
  let ss1 := dec.2.ss
  let s := { s with ss1 := some ss1, ssLenBytes := dec.2.ssLenBytes }
  if dec.1 ≠ 0 then some (-3, out, s) else
  if bytesOf s.ssLenBytes ss ≠ bytesOf s.ssLenBytes ss1 then some (-5, out, s) else
  some (0, out ++ ["\n"], s)

/-- The loop of `main` from round `i` on. -/
def katRounds (malloc : ℕ → Malloc) : (todo : ℕ) → (i : ℕ) → KatState → Option (ℤ × List String)
  | 0, _, _ => some (0, [])
  | todo + 1, i, s =>
    (katRound P blank malloc i s).bind fun (rtn, out, s) =>
    if rtn ≠ 0 then some (rtn, out)
    else (katRounds malloc todo (i + 1) s).map fun rest => (rest.1, out ++ rest.2)

/-- The nonce of `drng_seed`: the word `seed` sixteen times. -/
def katNonce (nonce : Buf) : Bytes 64 :=
  bytesOf 64 (Nat.fold 16 (fun i _ (nonce : Buf) => nonce.writeAt (4 * i) fun p =>
    p.copy (#v[0x73, 0x65, 0x65, 0x64] : Bytes 4)) nonce)

/-- The variables before the first round. -/
def katInit (alloc : KatCalloc) (drngSeed : DrngCtx) : KatState where
  drngSeed := drngSeed
  seed := calloc alloc.seed
  pk := calloc alloc.pk
  sk := calloc alloc.sk
  ss := calloc alloc.ss
  ss1 := calloc alloc.ss1
  ct := calloc alloc.ct
  pkLenBytes := kemGetPkLenBytes P
  skLenBytes := kemGetSkLenBytes P
  ssLenBytes := kemGetSsLenBytes P
  ctLenBytes := kemGetCtLenBytes P

/-- `main`, with its exit code and the lines of its file, or nothing when it writes through a
null pointer. -/
def katMain (algorithm : List Char) (env : KatEnv) : Option (ℤ × List String) :=
  if validateAlgorithmInstanceName algorithm ≠ 0 then some (-1, [])
  else
    (calloc env.calloc.nonce).bind fun nonce =>
    let drngSeed := (initRandomNumber programSha3_256 (env.malloc 0) (katNonce nonce)).2
    if createDirectory env ≠ 0 then some (-2, [])
    else if !env.fopen then some (-2, [])
    else
      (katRounds P blank env.malloc 10 0 (katInit P env.calloc drngSeed)).map fun rounds =>
      if rounds.1 ≠ 0 then rounds
      else if !env.fclose then (-2, rounds.2)
      else (0, rounds.2)

end Definitions

section Rounds

variable (P : SecurityLevel) (blank : Bool)

/-- The byte strings of a round. -/
structure KatRecord where
  (seed pk sk ct ss ss1 : List Byte)
  deriving DecidableEq

/-- The record of a seed: keys, an encapsulation and its decapsulation, with the generator
that is made from the seed. -/
def katRecord (malloc : Malloc) (seed : Bytes 64) : KatRecord :=
  let drng := (initRandomNumber programSha3_256 malloc seed).2
  let keys := kemKeygen P generateRandomBytes programXof programShake256 drng emptyBuf emptyBuf
  let pk := bytesOf P.pkLen keys.pk
  let m := (generateRandomBytes keys.drng P.messageLen).1
  let secret := hashG P programShake256 (programShake256 P.hpkLen pk.toList) m
  let ct := encryptBytes P programXof pk m secret.2
  { seed := seed.toList, pk := pk.toList, sk := (bytesOf P.kemSkLen keys.sk).toList,
    ct := ct.toList, ss := secret.1.toList,
    ss1 := (decapsulate P programXof programShake256 (SecretKey.read P keys.sk) ct).toList }

/-- What a round prints before it compares the secrets. -/
def KatRecord.lines (r : KatRecord) (i : ℕ) : List String :=
  ["Count = " ++ toString i ++ "\n", "Seed_Len = " ++ toString 64 ++ "\n",
    fprintstr "Seed = " r.seed, fprintlen blank "PK_Len = " P.pkLen, fprintstr "PK = " r.pk,
    fprintlen blank "SK_Len = " P.kemSkLen, fprintstr "SK = " r.sk,
    fprintlen blank "CT_Len = " P.ctLen, fprintstr "CT = " r.ct,
    fprintlen blank "SS_Len = " P.ssLen, fprintstr "SS = " r.ss]

/-- The two secrets of a record are the same. -/
def KatRecord.Agrees (r : KatRecord) : Prop := r.ss = r.ss1

instance (r : KatRecord) : Decidable r.Agrees := inferInstanceAs (Decidable (r.ss = r.ss1))

/-- What a round prints that does not return early. -/
def KatRecord.text (r : KatRecord) (i : ℕ) : List String := r.lines P blank i ++ ["\n"]

/-- The message of a round is the fourth draw of its generator. -/
theorem kemKeygen_message (drng : DrngCtx) (pk sk : Buf) :
    (generateRandomBytes (kemKeygen P generateRandomBytes programXof programShake256 drng pk
      sk).drng P.messageLen).1 = drawn drng 3 P.messageLen := by
  rw [← generateRandomBytes_iterate, kemKeygen_effect, generateRandomBytes_state,
    generateRandomBytes_state, generateRandomBytes_state]
  rfl

theorem katRecord_eq (malloc : Malloc) (seed : Bytes 64) :
    let drng := (initRandomNumber programSha3_256 malloc seed).2
    let keys := keyBytes P generateRandomBytes programXof programShake256 drng
    let e := encapsulate P programXof programShake256 keys.1 (drawn drng 3 P.messageLen)
    katRecord P malloc seed = ⟨seed.toList, keys.1.toList, keys.2.toList, e.2.toList, e.1.toList,
      (decapsulate P programXof programShake256 (SecretKey.read P (bufOf keys.2)) e.2).toList⟩ := by
  intro drng keys e
  have hread : SecretKey.read P (kemKeygen P generateRandomBytes programXof programShake256 drng
      emptyBuf emptyBuf).sk = SecretKey.read P (bufOf keys.2) :=
    SecretKey.read_congr (bytesOf_bufOf _).symm
  rw [katRecord, kemKeygen_message, hread]
  rfl

/-- No pointer is null. -/
def KatState.Allocated (s : KatState) : Prop :=
  s.seed.isSome ∧ s.pk.isSome ∧ s.sk.isSome ∧ s.ss.isSome ∧ s.ct.isSome ∧ s.ss1.isSome

/-- A round returns early when its two secrets differ and for no other reason, and does
not depend on what the rounds before it left in memory. -/
theorem katRound_eq (malloc : ℕ → Malloc) (i : ℕ) {s : KatState} (hs : s.Allocated) :
    let r := katRecord P (malloc (i + 1))
      (bytesOf 64 (hashStream programSha3_256 s.drngSeed.state.v))
    ∃ s' : KatState, s'.Allocated ∧ s'.drngSeed = nextCtx programSha3_256 s.drngSeed ∧
      katRound P blank malloc i s = if r.Agrees then some (0, r.text P blank i, s')
        else some (-5, r.lines P blank i, s') := by
  intro r
  simp only [KatState.Allocated, Option.isSome_iff_exists] at hs
  obtain ⟨⟨seed₀, hseed₀⟩, ⟨pk, hpk⟩, ⟨sk, hsk⟩, ⟨ss, hss⟩, ⟨ct, hct⟩, ⟨ss1, hss1⟩⟩ := hs
  have hdraw : getRandomNumber programSha3_256 s.drngSeed seed₀ (64 * 8) =
      (0, nextCtx programSha3_256 s.drngSeed, seed₀.copy
        (bytesOf 64 (hashStream programSha3_256 s.drngSeed.state.v))) :=
    getRandomNumber_bytes programSha3_256 s.drngSeed seed₀ 64
  obtain ⟨seed, hseed⟩ :
      ∃ seed, bytesOf 64 (hashStream programSha3_256 s.drngSeed.state.v) = seed := ⟨_, rfl⟩
  obtain ⟨drng, hdrng⟩ : ∃ drng,
      (initRandomNumber programSha3_256 (malloc (i + 1)) seed).2 = drng := ⟨_, rfl⟩
  -- the three calls of the interface write byte strings over the variables
  let keys := keyBytes P generateRandomBytes programXof programShake256 drng
  have hr : r = katRecord P (malloc (i + 1)) seed := by rw [← hseed]
  rw [katRecord_eq, hdrng] at hr
  have hm := kemKeygen_message P drng pk sk
  have hkeys := kemKeygen_effect (P := P) programXof generateRandomBytes programShake256 drng pk sk
  rw [hkeys] at hm
  have hread : SecretKey.read P (sk.copy keys.2) = SecretKey.read P (bufOf keys.2) :=
    SecretKey.read_congr (by rw [bytesOf_copy, bytesOf_bufOf])
  rw [katRound, hseed₀, Option.bind_some, hdraw, hseed]
  dsimp only
  rw [hpk, Option.bind_some, hsk, Option.bind_some, bytesOf_copy, hdrng, hkeys]
  dsimp only
  rw [if_neg (not_not.mpr rfl), hss, Option.bind_some, hct, Option.bind_some, kemEnc_effect, hm,
    bytesOf_copy]
  dsimp only
  rw [if_neg (not_not.mpr rfl), hss1, Option.bind_some, kemDec_eq, hread]
  dsimp only
  rw [if_neg (not_not.mpr rfl)]
  clear_value r
  subst hr
  simp only [KatRecord.Agrees, ne_eq, ite_not, Vector.toList_inj, bytesOf_copy]
  split
  · refine ⟨_, ?_, ?_, rfl⟩
    · exact ⟨rfl, rfl, rfl, rfl, rfl, rfl⟩
    · rfl
  · refine ⟨_, ?_, ?_, rfl⟩
    · exact ⟨rfl, rfl, rfl, rfl, rfl, rfl⟩
    · rfl

/-- A round that ends has written through all its pointers. -/
theorem allocated_of_katRound (malloc : ℕ → Malloc) (i : ℕ) {s : KatState}
    (h : (katRound P blank malloc i s).isSome) : s.Allocated := by
  obtain ⟨_, hround⟩ := Option.isSome_iff_exists.mp h
  rw [katRound] at hround
  obtain ⟨seed, hseed, hround⟩ := Option.bind_eq_some_iff.mp hround
  obtain ⟨pk, hpk, hround⟩ := Option.bind_eq_some_iff.mp hround
  obtain ⟨sk, hsk, hround⟩ := Option.bind_eq_some_iff.mp hround
  rw [kemKeygen_effect] at hround
  dsimp only at hround
  rw [if_neg (not_not.mpr rfl)] at hround
  obtain ⟨ss, hss, hround⟩ := Option.bind_eq_some_iff.mp hround
  obtain ⟨ct, hct, hround⟩ := Option.bind_eq_some_iff.mp hround
  rw [kemEnc_effect] at hround
  dsimp only at hround
  rw [if_neg (not_not.mpr rfl)] at hround
  obtain ⟨ss1, hss1, -⟩ := Option.bind_eq_some_iff.mp hround
  exact ⟨Option.isSome_of_mem hseed, Option.isSome_of_mem hpk, Option.isSome_of_mem hsk,
    Option.isSome_of_mem hss, Option.isSome_of_mem hct, Option.isSome_of_mem hss1⟩

/-- The record of round `j` of a driver whose seeds are drawn from `drng`. -/
def katRecords (malloc : ℕ → Malloc) (drng : DrngCtx) (j : ℕ) : KatRecord :=
  katRecord P (malloc (j + 1)) (drawn drng j 64)

/-- The loop ends with the first round whose secrets differ, or after the last round. -/
theorem katRounds_eq (malloc : ℕ → Malloc) (drng : DrngCtx) (todo i : ℕ) (s : KatState)
    (halloc : s.Allocated) (hs : s.drngSeed = (nextCtx programSha3_256)^[i] drng) :
    let record := katRecords P malloc drng
    ∃ d ≤ todo, (∀ j, i ≤ j → j < i + d → (record j).Agrees) ∧
      (d = todo ∧ katRounds P blank malloc todo i s =
          some (0, (List.range' i d).flatMap fun j => (record j).text P blank j) ∨
        d < todo ∧ ¬ (record (i + d)).Agrees ∧ katRounds P blank malloc todo i s =
          some (-5, ((List.range' i d).flatMap fun j => (record j).text P blank j) ++
            (record (i + d)).lines P blank (i + d))) := by
  intro record
  induction todo generalizing i s with
  | zero => exact ⟨0, le_rfl, fun j h h' => by omega, .inl ⟨rfl, rfl⟩⟩
  | succ todo ih =>
    have hseed : bytesOf 64 (hashStream programSha3_256 s.drngSeed.state.v) = drawn drng i 64 := by
      rw [hs, iterate_nextCtx_state]
      rfl
    obtain ⟨s', halloc', hnext, hround⟩ := katRound_eq P blank malloc i halloc
    rw [hseed] at hround
    change _ = if (record i).Agrees then some (0, (record i).text P blank i, s')
      else some (-5, (record i).lines P blank i, s') at hround
    by_cases h : (record i).Agrees
    · -- the round is printed and the loop goes on
      rw [if_pos h] at hround
      have hs' : s'.drngSeed = (nextCtx programSha3_256)^[i + 1] drng := by
        rw [hnext, hs, Function.iterate_succ_apply']
      obtain ⟨d, hd, hagrees, hend⟩ := ih (i + 1) s' halloc' hs'
      have hidx : i + 1 + d = i + (d + 1) := by omega
      have hrounds : katRounds P blank malloc (todo + 1) i s =
          (katRounds P blank malloc todo (i + 1) s').map fun rest =>
            (rest.1, (record i).text P blank i ++ rest.2) := by
        rw [katRounds, hround]
        rfl
      refine ⟨d + 1, by omega, fun j hj hlt => ?_, ?_⟩
      · rcases Nat.eq_or_lt_of_le hj with rfl | hj
        · exact h
        · exact hagrees j hj (by omega)
      · rw [hrounds, List.range'_succ, List.flatMap_cons, ← hidx]
        rcases hend with ⟨rfl, hend⟩ | ⟨hlt, hdiffer, hend⟩
        · exact .inl ⟨rfl, by rw [hend, Option.map_some]⟩
        · exact .inr ⟨by omega, hdiffer, by rw [hend, Option.map_some, List.append_assoc]⟩
    · rw [if_neg h] at hround
      refine ⟨0, by omega, fun j h h' => by omega, .inr ⟨by omega, h, ?_⟩⟩
      rw [katRounds, hround]
      rfl

/-- The first round already writes through all pointers. -/
theorem katRounds_null (malloc : ℕ → Malloc) (todo i : ℕ) {s : KatState} (h : ¬ s.Allocated) :
    katRounds P blank malloc (todo + 1) i s = none := by
  have hround : katRound P blank malloc i s = none :=
    Option.not_isSome_iff_eq_none.mp fun hsome => h (allocated_of_katRound P blank malloc i hsome)
  rw [katRounds, hround, Option.bind_none]

/-- The secrets of a record agree when the noise of its seeds is tolerable. -/
theorem katRecord_agrees (malloc : Malloc) (seed : Bytes 64) :
    let drng := (initRandomNumber programSha3_256 malloc seed).2
    let r := katRecord P malloc seed
    let secret :=
      hashG P programShake256 (programShake256 P.hpkLen r.pk) (drawn drng 3 P.messageLen)
    Recovers P programXof (drawn drng 0 64) (drawn drng 1 64) secret.2 → r.Agrees := by
  intro drng r secret hrecovers
  have hr : r = _ := katRecord_eq P malloc seed
  rw [KatRecord.Agrees, hr]
  refine congrArg Vector.toList (decapsulate_keysAt P drng 0 (drawn drng 3 P.messageLen) ?_).symm
  have hpk : r.pk = (keysAt P drng 0).1.toList := congrArg KatRecord.pk hr
  rwa [← hpk]

end Rounds

section Main

variable (P : SecurityLevel) (blank : Bool)

/-- The names that the driver accepts. -/
def ValidName (algorithm : List Char) : Prop :=
  algorithm.length ≤ 64 ∧ ∀ c ∈ algorithm, isNameChar c

theorem validate_foldl (algorithm : List Char) (rt : ℤ) :
    algorithm.foldl (fun rt c => if !isNameChar c then -1 else rt) rt =
      if ∀ c ∈ algorithm, isNameChar c then rt else -1 := by
  induction algorithm generalizing rt with
  | nil => simp
  | cons c algorithm ih =>
    rw [List.foldl_cons, ih]
    cases h : isNameChar c <;> simp [h]

theorem validateAlgorithmInstanceName_eq_zero (algorithm : List Char) :
    validateAlgorithmInstanceName algorithm = 0 ↔ ValidName algorithm := by
  rw [validateAlgorithmInstanceName, validate_foldl, ValidName]
  by_cases h : ∀ c ∈ algorithm, isNameChar c
  · rw [if_pos h]
    by_cases hlen : algorithm.length > 64
    · rw [if_pos hlen]
      exact ⟨fun h => absurd h (by decide), fun h => absurd h.1 (by omega)⟩
    · rw [if_neg hlen]
      exact ⟨fun _ => ⟨by omega, h⟩, fun _ => rfl⟩
  · rw [if_neg h]
    exact ⟨fun h => absurd h (by decide), fun h' => absurd h'.2 h⟩

/-- The arrays of the rounds are all allocated. -/
def KatCalloc.Rounds (alloc : KatCalloc) : Prop :=
  alloc.seed ∧ alloc.pk ∧ alloc.sk ∧ alloc.ss ∧ alloc.ct ∧ alloc.ss1

theorem calloc_isSome (succeeds : Bool) : (calloc succeeds).isSome = succeeds := by
  cases succeeds <;> rfl

theorem katInit_allocated (alloc : KatCalloc) (drngSeed : DrngCtx) :
    (katInit P alloc drngSeed).Allocated ↔ alloc.Rounds := by
  simp only [KatState.Allocated, katInit, calloc_isSome, KatCalloc.Rounds]

/-- The driver as far as its file is opened. -/
theorem katMain_opened {algorithm : List Char} {env : KatEnv} (hname : ValidName algorithm)
    (hnonce : env.calloc.nonce = true) :
    let drng := (initRandomNumber programSha3_256 (env.malloc 0) (katNonce emptyBuf)).2
    katMain P blank algorithm env =
      if createDirectory env ≠ 0 ∨ env.fopen = false then some (-2, [])
      else (katRounds P blank env.malloc 10 0 (katInit P env.calloc drng)).map fun rounds =>
        if rounds.1 ≠ 0 then rounds else (if env.fclose then 0 else -2, rounds.2) := by
  intro drng
  have hcalloc : calloc env.calloc.nonce = some emptyBuf := by
    rw [hnonce]
    rfl
  rw [katMain, if_neg (not_not.mpr ((validateAlgorithmInstanceName_eq_zero _).mpr hname)), hcalloc,
    Option.bind_some]
  dsimp only
  by_cases hdir : createDirectory env ≠ 0
  · rw [if_pos hdir, if_pos (.inl hdir)]
  · rw [if_neg hdir]
    cases hopen : env.fopen with
    | false => exact (if_pos (Or.inr rfl)).symm
    | true =>
      refine Eq.trans ?_ (if_neg (not_or.mpr ⟨hdir, by decide⟩)).symm
      cases env.fclose <;> rfl

/-- The exit code and the file of the driver. It refuses other names, writes through a null
pointer when an allocation of its own fails that it gets to use, and stops without its file.
Else it prints the records of its rounds, each a function of the bytes drawn for it, up to the
first one whose secrets differ; none does as long as the noise of its seeds is tolerable. No
round fails for another reason. -/
theorem katMain_run (algorithm : List Char) (env : KatEnv) :
    let drng := (initRandomNumber programSha3_256 (env.malloc 0) (katNonce emptyBuf)).2
    let record := katRecords P env.malloc drng
    let text := fun n => (List.range' 0 n).flatMap fun j => (record j).text P blank j
    let r := katMain P blank algorithm env
    (¬ ValidName algorithm → r = some (-1, [])) ∧
    (ValidName algorithm → env.calloc.nonce = false → r = none) ∧
    (ValidName algorithm → env.calloc.nonce = true →
      createDirectory env ≠ 0 ∨ env.fopen = false → r = some (-2, [])) ∧
    (ValidName algorithm → env.calloc.nonce = true → createDirectory env = 0 →
      env.fopen = true →
      (¬ env.calloc.Rounds → r = none) ∧
      (env.calloc.Rounds →
        ((∀ j < 10, (record j).Agrees) → r = some (if env.fclose then 0 else -2, text 10)) ∧
        ∀ d < 10, (∀ j < d, (record j).Agrees) → ¬ (record d).Agrees →
          r = some (-5, text d ++ (record d).lines P blank d))) ∧
    ∀ j, (let drng' := (initRandomNumber programSha3_256 (env.malloc (j + 1)) (drawn drng j 64)).2
      let secret := hashG P programShake256 (programShake256 P.hpkLen (record j).pk)
        (drawn drng' 3 P.messageLen)
      Recovers P programXof (drawn drng' 0 64) (drawn drng' 1 64) secret.2) →
        (record j).Agrees := by
  intro drng record text r
  refine ⟨fun hname => ?_, fun hname hnonce => ?_, fun hname hnonce hfile => ?_,
    fun hname hnonce hdir hopen => ?_, fun j hnoise => ?_⟩
  · exact if_pos (mt (validateAlgorithmInstanceName_eq_zero algorithm).mp hname)
  · have hr : r = _ :=
      if_neg (not_not.mpr ((validateAlgorithmInstanceName_eq_zero algorithm).mpr hname))
    rw [hr, hnonce]
    rfl
  · exact (katMain_opened P blank hname hnonce).trans (if_pos hfile)
  · have hfile : ¬ (createDirectory env ≠ 0 ∨ env.fopen = false) := by simp [hdir, hopen]
    have hr : r = _ := (katMain_opened P blank hname hnonce).trans (if_neg hfile)
    refine ⟨fun hnull => ?_, fun halloc => ?_⟩
    · rw [hr, katRounds_null P blank env.malloc 9 0 (mt (katInit_allocated P _ _).mp hnull),
        Option.map_none]
    · obtain ⟨n, hn, hagrees, hend⟩ := katRounds_eq P blank env.malloc drng 10 0
        (katInit P env.calloc drng) ((katInit_allocated P _ _).mpr halloc) rfl
      simp only [Nat.zero_add, Nat.zero_le, true_imp_iff] at hagrees hend
      refine ⟨fun hall => ?_, fun d hd hbefore hdiffer => ?_⟩
      · rcases hend with ⟨rfl, hend⟩ | ⟨hlt, hdiffer, -⟩
        · rw [hr, hend]
          rfl
        · exact absurd (hall n hlt) hdiffer
      · rcases hend with ⟨rfl, -⟩ | ⟨hlt, hdiffer', hend⟩
        · exact absurd (hagrees d hd) hdiffer
        · -- both are the first round whose secrets differ
          have hnd : n = d := by
            rcases Nat.lt_trichotomy n d with h | h | h
            · exact absurd (hbefore n h) hdiffer'
            · exact h
            · exact absurd (hagrees d h) hdiffer
          subst hnd
          rw [hr, hend]
          rfl
  · exact katRecord_agrees P (env.malloc (j + 1)) (drawn drng j 64) hnoise

end Main

end RrlwrKem
