import RrlwrKem.Library.Region
import RrlwrKem.Program

/-!
# The interface on one memory

The arrays of a program lie in one memory, the lengths among them, and the calls of the
interface write to it through pointers. What they compute is stated on byte strings, and a
run of the calls with pointers is a run on these; keys and ciphertexts that nobody overwrites
then stay what they were until they are used, whatever else the program does in between.
-/

namespace RrlwrKem

open BitStream Region

section Lengths

/-- The bytes of an `unsigned long long`, the low one first. -/
def ullBytes (n : ℕ) : Bytes 8 := bytesOf 8 (rechunk 64 8 fun _ => BitVec.ofNat 64 n)

/-- The `unsigned long long` in eight bytes. -/
def ullOf (v : Bytes 8) : ℕ := (rechunk 8 64 (bufOf v) 0).toNat

theorem ullOf_ullBytes {n : ℕ} (hn : n < 2 ^ 64) : ullOf (ullBytes n) = n := by
  have hword : rechunk 8 64 (bufOf (ullBytes n)) 0 = BitVec.ofNat 64 n :=
    rechunk_of_eq (n := 8) (by decide) (fun j hj => bufOf_bytesOf _ hj) (by decide)
  rw [ullOf, hword, BitVec.toNat_ofNat, Nat.mod_eq_of_lt hn]

theorem ullBytes_ullOf (v : Bytes 8) : ullBytes (ullOf v) = v := by
  refine Vector.ext fun j hj => ?_
  have hfirst : ∀ k < 1, BitVec.ofNat 64 (ullOf v) = rechunk 8 64 (bufOf v) k := by
    intro k hk
    obtain rfl : k = 0 := by omega
    rw [ullOf, BitVec.ofNat_toNat, BitVec.setWidth_eq]
  rw [ullBytes, bytesOf_getElem _ _ hj, rechunk_congr hfirst (by omega),
    rechunk_rechunk (by decide), bufOf_apply v hj]

end Lengths

section Definitions

variable (P : SecurityLevel) {σ : Type} (drng : Drng σ) (xof : Xof) (shake256 : Shake256)

/-- A call with pointers to its arrays, where those that it writes are apart from each other and
from those that it reads; or a byte that the program around it assigns. The lengths that are
returned are written through pointers, too. -/
inductive MemCall where
  | keygen (pk : Region P.pkLen) (pkLen : Region 8) (sk : Region P.kemSkLen) (skLen : Region 8)
      (apart : AllApart [⟨_, pk⟩, ⟨_, sk⟩, ⟨_, skLen⟩, ⟨_, pkLen⟩])
  | enc (pk : Region P.pkLen) (pkLenBytes : ℕ) (ss : Region P.ssLen) (ssLen : Region 8)
      (ct : Region P.ctLen) (ctLen : Region 8)
      (apart : AllApart [⟨_, pk⟩, ⟨_, ct⟩, ⟨_, ss⟩, ⟨_, ssLen⟩, ⟨_, ctLen⟩])
  | dec (sk : Region P.kemSkLen) (skLenBytes : ℕ) (ct : Region P.ctLen) (ctLenBytes : ℕ)
      (ss : Region P.ssLen) (ssLen : Region 8)
      (apart : AllApart [⟨_, sk⟩, ⟨_, ss⟩, ⟨_, ssLen⟩] ∧ AllApart [⟨_, ct⟩, ⟨_, ss⟩, ⟨_, ssLen⟩])
  | assign (addr : ℕ) (x : Byte)

variable {P}

/-- How often a call draws. -/
def MemCall.draws : MemCall P → ℕ
  | .keygen .. => 3
  | .enc _ pkLenBytes .. => if pkLenBytes = P.pkLen then 1 else 0
  | .dec .. => 0
  | .assign .. => 0

/-- The arrays that a call writes, in the order of its writes. -/
def MemCall.writes : MemCall P → List (Σ n, Region n)
  | .keygen pk pkLen sk skLen _ => [⟨_, pk⟩, ⟨_, sk⟩, ⟨_, skLen⟩, ⟨_, pkLen⟩]
  | .enc _ pkLenBytes ss ssLen ct ctLen _ =>
    if pkLenBytes = P.pkLen then [⟨_, ct⟩, ⟨_, ss⟩, ⟨_, ssLen⟩, ⟨_, ctLen⟩] else []
  | .dec _ skLenBytes _ ctLenBytes ss ssLen _ =>
    if skLenBytes = P.kemSkLen ∧ ctLenBytes = P.ctLen then [⟨_, ss⟩, ⟨_, ssLen⟩] else []
  | .assign addr _ => [⟨1, ⟨addr⟩⟩]

/-- A call writes nothing to an array. -/
def MemCall.Spares {n : ℕ} (r : Region n) (call : MemCall P) : Prop :=
  ∀ r' ∈ call.writes, r'.2.Apart r

instance {n : ℕ} (r : Region n) (call : MemCall P) : Decidable (call.Spares r) :=
  inferInstanceAs (Decidable (∀ r' ∈ call.writes, r'.2.Apart r))

/-- The lengths that a call returns are those of its arrays. -/
def MemCall.ReturnsLengths (mem : Buf) : MemCall P → Prop
  | .keygen _ pkLen _ skLen _ =>
    ullOf (pkLen.load mem) = P.pkLen ∧ ullOf (skLen.load mem) = P.kemSkLen
  | .enc _ pkLenBytes _ ssLen _ ctLen _ =>
    pkLenBytes = P.pkLen → ullOf (ssLen.load mem) = P.ssLen ∧ ullOf (ctLen.load mem) = P.ctLen
  | .dec _ skLenBytes _ ctLenBytes _ ssLen _ =>
    skLenBytes = P.kemSkLen → ctLenBytes = P.ctLen → ullOf (ssLen.load mem) = P.ssLen
  | .assign .. => True

/-- A call of the functions of `kem.c`, each of which writes through its pointers. A call that is
refused leaves a length as it found it. -/
def memStep (st : Buf × σ) : MemCall P → ℤ × Buf × σ
  | .keygen pk pkLen sk skLen _ =>
    let keys (pk sk : Buf) := kemKeygen P drng xof shake256 st.2 pk sk
    let r := keys (st.1.offset pk.addr) (st.1.offset sk.addr)
    let mem := st.1.writeAt pk.addr fun p => (keys p (st.1.offset sk.addr)).pk
    let mem := mem.writeAt sk.addr fun p => (keys (st.1.offset pk.addr) p).sk
    let mem := skLen.store mem (ullBytes r.skLenBytes)
    let mem := pkLen.store mem (ullBytes r.pkLenBytes)
    (r.ret, mem, r.drng)
  | .enc pk pkLenBytes ss ssLen ct ctLen _ =>
    let run (ss ct : Buf) := kemEnc P drng xof shake256 st.2 (st.1.offset pk.addr) pkLenBytes
      ⟨ss, ullOf (ssLen.load st.1), ct, ullOf (ctLen.load st.1)⟩
    let r := run (st.1.offset ss.addr) (st.1.offset ct.addr)
    let mem := st.1.writeAt ct.addr fun p => (run (st.1.offset ss.addr) p).2.1.ct
    let mem := mem.writeAt ss.addr fun p => (run p (st.1.offset ct.addr)).2.1.ss
    let mem := ssLen.store mem (ullBytes r.2.1.ssLenBytes)
    let mem := ctLen.store mem (ullBytes r.2.1.ctLenBytes)
    (r.1, mem, r.2.2)
  | .dec sk skLenBytes ct ctLenBytes ss ssLen _ =>
    let run (ss : Buf) := kemDec P xof shake256 (st.1.offset sk.addr) skLenBytes
      (st.1.offset ct.addr) ctLenBytes ⟨ss, ullOf (ssLen.load st.1)⟩
    let r := run (st.1.offset ss.addr)
    let mem := st.1.writeAt ss.addr fun p => (run p).2.ss
    let mem := ssLen.store mem (ullBytes r.2.ssLenBytes)
    (r.1, mem, st.2)
  | .assign addr x => (0, st.1.set addr x, st.2)

/-- What a call does to the memory and to the generator, without pointers: arrays are loaded,
byte strings are computed and stored. -/
def specStep (st : Buf × σ) : MemCall P → ℤ × Buf × σ
  | .keygen pk pkLen sk skLen _ =>
    let keys := keyBytes P drng xof shake256 st.2
    let drngSt := (drng (drng (drng st.2 64).2 64).2 P.seedZLen).2
    (0, storeAll st.1 [⟨pk, keys.1⟩, ⟨sk, keys.2⟩, ⟨skLen, ullBytes P.kemSkLen⟩,
      ⟨pkLen, ullBytes P.pkLen⟩], drngSt)
  | .enc pk pkLenBytes ss ssLen ct ctLen _ =>
    if pkLenBytes = P.pkLen then
      let (m, drngSt) := drng st.2 P.messageLen
      let e := encapsulate P xof shake256 (pk.load st.1) m
      (0, storeAll st.1 [⟨ct, e.2⟩, ⟨ss, e.1⟩, ⟨ssLen, ullBytes P.ssLen⟩,
        ⟨ctLen, ullBytes P.ctLen⟩], drngSt)
    else (-1, st)
  | .dec sk skLenBytes ct ctLenBytes ss ssLen _ =>
    if skLenBytes = P.kemSkLen ∧ ctLenBytes = P.ctLen then
      let key := SecretKey.read P (bufOf (sk.load st.1))
      (0, storeAll st.1 [⟨ss, decapsulate P xof shake256 key (ct.load st.1)⟩,
        ⟨ssLen, ullBytes P.ssLen⟩], st.2)
    else (-1, st)
  | .assign addr x => (0, storeAll st.1 [⟨⟨addr⟩, (#v[x] : Bytes 1)⟩], st.2)

end Definitions

section Refinement

variable {P : SecurityLevel} {xof : Xof} {shake256 : Shake256} {σ : Type} {drng : Drng σ}

/-- `memcpy` through a pointer. -/
theorem writeAt_copy {n : ℕ} (mem : Buf) (r : Region n) (v : Bytes n) :
    mem.writeAt r.addr (fun p => p.copy v) = r.store mem v := by
  funext a
  rw [Buf.writeAt, Region.store]
  by_cases hlt : a < r.addr
  · rw [if_pos hlt, dif_neg (by omega)]
  · rw [if_neg hlt, Buf.copy]
    by_cases hin : a - r.addr < n
    · rw [dif_pos hin, dif_pos ⟨by omega, hin⟩]
    · rw [dif_neg hin, dif_neg (by omega), Buf.offset, Nat.add_sub_cancel' (by omega)]

theorem writeAt_id (mem : Buf) (q : ℕ) : mem.writeAt q (fun p => p) = mem := by
  funext a
  rw [Buf.writeAt]
  by_cases hlt : a < q
  · rw [if_pos hlt]
  · rw [if_neg hlt, Buf.offset, Nat.add_sub_cancel' (by omega)]

/-- One byte is an array of its own. -/
theorem set_eq_store (mem : Buf) (addr : ℕ) (x : Byte) :
    mem.set addr x = Region.store mem ⟨addr⟩ (#v[x] : Bytes 1) := by
  funext a
  rw [Buf.set, Function.update_apply, Region.store]
  by_cases ha : a = addr
  · subst ha
    rw [if_pos rfl, dif_pos ⟨le_rfl, by simp⟩]
    simp
  · have hout : ¬ (addr ≤ a ∧ a - addr < 1) := by omega
    rw [if_neg ha, dif_neg hout]

theorem read_load (mem : Buf) (sk : Region P.kemSkLen) :
    SecretKey.read P (mem.offset sk.addr) = SecretKey.read P (bufOf (sk.load mem)) :=
  SecretKey.read_congr (bytesOf_bufOf _).symm

/-- The functions with their pointers do what is stated on byte strings. -/
theorem memStep_eq_specStep (st : Buf × σ) (call : MemCall P) :
    memStep drng xof shake256 st call = specStep drng xof shake256 st call := by
  cases call with
  | keygen pk pkLen sk skLen apart =>
    simp only [memStep, specStep, kemKeygen_effect, writeAt_copy, storeAll]
  | enc pk pkLenBytes ss ssLen ct ctLen apart =>
    by_cases h : pkLenBytes = P.pkLen
    · subst h
      simp only [memStep, specStep, kemEnc_effect, writeAt_copy, if_pos, storeAll]
      rfl
    · simp only [memStep, specStep, kemEnc, if_neg h, if_pos h, writeAt_id, ullBytes_ullOf,
        store_load]
  | dec sk skLenBytes ct ctLenBytes ss ssLen apart =>
    by_cases h : skLenBytes = P.kemSkLen ∧ ctLenBytes = P.ctLen
    · obtain ⟨rfl, rfl⟩ := h
      simp only [memStep, specStep, kemDec_eq, writeAt_copy, read_load, and_self, if_pos, storeAll]
      rfl
    · have hrefused : skLenBytes ≠ P.kemSkLen ∨ ctLenBytes ≠ P.ctLen := not_and_or.mp h
      simp only [memStep, specStep, kemDec, if_neg h, if_pos hrefused, writeAt_id, ullBytes_ullOf,
        store_load]
  | assign addr x => rw [memStep, specStep, set_eq_store, storeAll, storeAll]

/-- A call leaves alone what it spares. -/
theorem load_memStep {n : ℕ} {r : Region n} {call : MemCall P} (h : call.Spares r)
    (st : Buf × σ) : r.load (memStep drng xof shake256 st call).2.1 = r.load st.1 := by
  rw [memStep_eq_specStep]
  cases call with
  | keygen pk pkLen sk skLen apart => exact load_storeAll_of_apart _ h
  | enc pk pkLenBytes ss ssLen ct ctLen apart =>
    rw [MemCall.Spares, MemCall.writes] at h
    rw [specStep]
    split
    · rename_i hlen
      rw [if_pos hlen] at h
      exact load_storeAll_of_apart _ h
    · rfl
  | dec sk skLenBytes ct ctLenBytes ss ssLen apart =>
    rw [MemCall.Spares, MemCall.writes] at h
    rw [specStep]
    split
    · rename_i hlen
      rw [if_pos hlen] at h
      exact load_storeAll_of_apart _ h
    · rfl
  | assign addr x => exact load_storeAll_of_apart _ h

/-- A call moves the generator by as many draws as it makes. -/
theorem memStep_drng {next : σ → σ} (hdrng : ∀ st len, (drng st len).2 = next st)
    (st : Buf × σ) (call : MemCall P) :
    (memStep drng xof shake256 st call).2.2 = next^[call.draws] st.2 := by
  rw [memStep_eq_specStep]
  cases call with
  | keygen pk pkLen sk skLen apart =>
    change (drng (drng (drng st.2 64).2 64).2 P.seedZLen).2 = next (next (next st.2))
    rw [hdrng, hdrng, hdrng]
  | enc pk pkLenBytes ss ssLen ct ctLen apart =>
    rw [specStep, MemCall.draws]
    split
    · exact hdrng st.2 P.messageLen
    · rfl
  | dec sk skLenBytes ct ctLenBytes ss ssLen apart =>
    rw [specStep]
    split <;> rfl
  | assign addr x => rfl

end Refinement

section Runs

variable (P : SecurityLevel)

/-- A call of the program on its memory and on `drng_algorithm`. -/
abbrev programMemStep : Buf × DrngCtx → MemCall P → ℤ × Buf × DrngCtx :=
  memStep generateRandomBytes programXof programShake256

/-- The memory before call `k`. -/
def memBefore (mem : Buf) (drng : DrngCtx) (calls : List (MemCall P)) (k : ℕ) : Buf :=
  (Machine.stateAt (programMemStep P) (mem, drng) calls k).1

variable {P}

/-- The number of draws before call `k`. -/
def memDrawsBefore (calls : List (MemCall P)) (k : ℕ) : ℕ :=
  ((calls.take k).map MemCall.draws).sum

/-- No call from number `i` up to number `j` writes to an array. -/
def AtRest {n : ℕ} (calls : List (MemCall P)) (i j : ℕ) (r : Region n) : Prop :=
  ∀ k call, i ≤ k → k < j → calls[k]? = some call → call.Spares r

variable {mem : Buf} {drng : DrngCtx} {calls : List (MemCall P)}

theorem load_memBefore {n : ℕ} {r : Region n} {i j : ℕ} (hij : i ≤ j) (h : AtRest calls i j r) :
    r.load (memBefore P mem drng calls j) = r.load (memBefore P mem drng calls i) :=
  Machine.obs_stateAt_eq (fun st => r.load st.1) (mem, drng) hij
    fun k call hi hj hk => load_memStep (h k call hi hj hk)

theorem stateAt_memStep (k : ℕ) :
    Machine.stateAt (programMemStep P) (mem, drng) calls k =
      (memBefore P mem drng calls k, (nextCtx programSha3_256)^[memDrawsBefore calls k] drng) :=
  Prod.ext rfl (Machine.obs_run_of_paced Prod.snd (memStep_drng generateRandomBytes_state)
    (mem, drng) (calls.take k))

/-- The memory after a call. -/
theorem memBefore_succ {k : ℕ} {call : MemCall P} (hk : calls[k]? = some call) :
    memBefore P mem drng calls (k + 1) =
      (specStep generateRandomBytes programXof programShake256 (memBefore P mem drng calls k,
        (nextCtx programSha3_256)^[memDrawsBefore calls k] drng) call).2.1 := by
  rw [memBefore, Machine.stateAt_succ _ hk, stateAt_memStep, programMemStep, memStep_eq_specStep]

/-- The keys that a key generation leaves at its addresses, and their lengths. -/
theorem load_keygen {i : ℕ} {pk : Region P.pkLen} {sk : Region P.kemSkLen} {pkLen skLen : Region 8}
    {apart : AllApart [⟨_, pk⟩, ⟨_, sk⟩, ⟨_, skLen⟩, ⟨_, pkLen⟩]}
    (hi : calls[i]? = some (.keygen pk pkLen sk skLen apart)) :
    let keys := keysAt P drng (memDrawsBefore calls i)
    let mem' := memBefore P mem drng calls (i + 1)
    (pk.load mem' = keys.1 ∧ sk.load mem' = keys.2) ∧
      pkLen.load mem' = ullBytes P.pkLen ∧ skLen.load mem' = ullBytes P.kemSkLen := by
  intro keys mem'
  let ws : List (Write Byte) := [⟨pk, keys.1⟩, ⟨sk, keys.2⟩, ⟨skLen, ullBytes P.kemSkLen⟩,
    ⟨pkLen, ullBytes P.pkLen⟩]
  have hmem : mem' = storeAll (memBefore P mem drng calls i) ws := memBefore_succ hi
  have hapart : AllApart (arrays ws) := apart
  have hload : ∀ w ∈ ws, w.region.load mem' = w.value := fun w hw => by
    rw [hmem, load_storeAll _ hapart hw]
  exact ⟨⟨hload _ (.head _), hload _ (.tail _ (.head _))⟩,
    hload _ (.tail _ (.tail _ (.tail _ (.head _)))), hload _ (.tail _ (.tail _ (.head _)))⟩

/-- The shared secret and the ciphertext that an encapsulation leaves at their addresses, and
their lengths. -/
theorem load_enc {j : ℕ} {pk : Region P.pkLen} {ss : Region P.ssLen} {ct : Region P.ctLen}
    {ssLen ctLen : Region 8}
    {apart : AllApart [⟨_, pk⟩, ⟨_, ct⟩, ⟨_, ss⟩, ⟨_, ssLen⟩, ⟨_, ctLen⟩]}
    (hj : calls[j]? = some (.enc pk P.pkLen ss ssLen ct ctLen apart)) :
    let e := encapsulate P programXof programShake256 (pk.load (memBefore P mem drng calls j))
      (drawn drng (memDrawsBefore calls j) P.messageLen)
    let mem' := memBefore P mem drng calls (j + 1)
    (ss.load mem' = e.1 ∧ ct.load mem' = e.2) ∧
      ssLen.load mem' = ullBytes P.ssLen ∧ ctLen.load mem' = ullBytes P.ctLen := by
  intro e mem'
  let ws : List (Write Byte) := [⟨ct, e.2⟩, ⟨ss, e.1⟩, ⟨ssLen, ullBytes P.ssLen⟩,
    ⟨ctLen, ullBytes P.ctLen⟩]
  have hmem : mem' = storeAll (memBefore P mem drng calls j) ws := by
    rw [show mem' = _ from memBefore_succ hj, specStep, if_pos rfl]
    dsimp only
    rw [generateRandomBytes_iterate]
  have hapart : AllApart (arrays ws) := (List.pairwise_cons.mp apart).2
  have hload : ∀ w ∈ ws, w.region.load mem' = w.value := fun w hw => by
    rw [hmem, load_storeAll _ hapart hw]
  exact ⟨⟨hload _ (.tail _ (.head _)), hload _ (.head _)⟩,
    hload _ (.tail _ (.tail _ (.head _))), hload _ (.tail _ (.tail _ (.tail _ (.head _))))⟩

/-- The shared secret that a decapsulation leaves at its address, and its length. -/
theorem load_dec {l : ℕ} {sk : Region P.kemSkLen} {ct : Region P.ctLen} {ss : Region P.ssLen}
    {ssLen : Region 8}
    {apart : AllApart [⟨_, sk⟩, ⟨_, ss⟩, ⟨_, ssLen⟩] ∧ AllApart [⟨_, ct⟩, ⟨_, ss⟩, ⟨_, ssLen⟩]}
    (hl : calls[l]? = some (.dec sk P.kemSkLen ct P.ctLen ss ssLen apart)) :
    let mem' := memBefore P mem drng calls (l + 1)
    ss.load mem' = decapsulate P programXof programShake256
      (SecretKey.read P (bufOf (sk.load (memBefore P mem drng calls l))))
      (ct.load (memBefore P mem drng calls l)) ∧
    ssLen.load mem' = ullBytes P.ssLen := by
  intro mem'
  let secret := decapsulate P programXof programShake256
    (SecretKey.read P (bufOf (sk.load (memBefore P mem drng calls l))))
    (ct.load (memBefore P mem drng calls l))
  let ws : List (Write Byte) := [⟨ss, secret⟩, ⟨ssLen, ullBytes P.ssLen⟩]
  have hmem : mem' = storeAll (memBefore P mem drng calls l) ws := by
    rw [show mem' = _ from memBefore_succ hl, specStep, if_pos ⟨rfl, rfl⟩]
  have hapart : AllApart (arrays ws) := (List.pairwise_cons.mp apart.1).2
  have hload : ∀ w ∈ ws, w.region.load mem' = w.value := fun w hw => by
    rw [hmem, load_storeAll _ hapart hw]
  exact ⟨hload _ (.head _), hload _ (.tail _ (.head _))⟩

variable (P) (mem) (drng) (calls)

/-- The lengths fit in an `unsigned long long`. -/
theorem ullOf_lengths (P : SecurityLevel) :
    ullOf (ullBytes P.pkLen) = P.pkLen ∧ ullOf (ullBytes P.kemSkLen) = P.kemSkLen ∧
      ullOf (ullBytes P.ctLen) = P.ctLen ∧ ullOf (ullBytes P.ssLen) = P.ssLen := by
  refine ⟨ullOf_ullBytes ?_, ullOf_ullBytes ?_, ullOf_ullBytes ?_, ullOf_ullBytes ?_⟩ <;>
    cases P <;> decide

/-- Every run of the functions with their pointers, over any memory and with anything that the
program assigns in between, is the run on byte strings; what its calls spare, it leaves as it
was; the lengths that a call returns are those of its arrays; and its draws are those of the
calls. -/
theorem memory_run :
    Machine.run (programMemStep P) (mem, drng) calls = Machine.run
      (specStep generateRandomBytes programXof programShake256) (mem, drng) calls ∧
    (∀ {n : ℕ} (r : Region n) (i j : ℕ), i ≤ j → AtRest calls i j r →
      r.load (memBefore P mem drng calls j) = r.load (memBefore P mem drng calls i)) ∧
    (∀ (k : ℕ) call, calls[k]? = some call →
      call.ReturnsLengths (memBefore P mem drng calls (k + 1))) ∧
    ∀ k, (Machine.stateAt (programMemStep P) (mem, drng) calls k).2.state =
      (HashGenerator.next (seedHash programSha3_256))^[memDrawsBefore calls k] drng.state := by
  obtain ⟨hpkLen, hskLen, hctLen, hssLen⟩ := ullOf_lengths P
  refine ⟨?_, fun r i j hij h => load_memBefore hij h, fun k call hk => ?_, fun k => ?_⟩
  · rw [programMemStep, show memStep (P := P) generateRandomBytes programXof programShake256 =
      specStep generateRandomBytes programXof programShake256 from
        funext fun st => funext fun call => memStep_eq_specStep st call]
  · cases call with
    | keygen pk pkLen sk skLen apart =>
      obtain ⟨-, hpk, hsk⟩ := load_keygen hk
      exact ⟨(congrArg ullOf hpk).trans hpkLen, (congrArg ullOf hsk).trans hskLen⟩
    | enc pk pkLenBytes ss ssLen ct ctLen apart =>
      rintro rfl
      obtain ⟨-, hss, hct⟩ := load_enc hk
      exact ⟨(congrArg ullOf hss).trans hssLen, (congrArg ullOf hct).trans hctLen⟩
    | dec sk skLenBytes ct ctLenBytes ss ssLen apart =>
      rintro rfl rfl
      exact (congrArg ullOf (load_dec hk).2).trans hssLen
    | assign addr x => trivial
  · rw [stateAt_memStep, iterate_nextCtx_state]

/-- A secret key that nobody overwrites decapsulates what lies at any address to the same secret
at any time: the one of the message that it decrypts to, if that encrypts to the same bytes, and
else the hash of the ciphertext and of the third draw of the key generation. -/
theorem memory_decapsulation {i l : ℕ} {pk : Region P.pkLen} {sk : Region P.kemSkLen}
    {ct : Region P.ctLen} {ss : Region P.ssLen} {pkLen skLen ssLen : Region 8}
    {apart : AllApart [⟨_, pk⟩, ⟨_, sk⟩, ⟨_, skLen⟩, ⟨_, pkLen⟩]}
    {apart' : AllApart [⟨_, sk⟩, ⟨_, ss⟩, ⟨_, ssLen⟩] ∧ AllApart [⟨_, ct⟩, ⟨_, ss⟩, ⟨_, ssLen⟩]}
    (hil : i < l) (hi : calls[i]? = some (.keygen pk pkLen sk skLen apart))
    (hl : calls[l]? = some (.dec sk P.kemSkLen ct P.ctLen ss ssLen apart'))
    (hsk : AtRest calls (i + 1) l sk) :
    let n := memDrawsBefore calls i
    let keys := keysAt P drng n
    let s := (SecretKey.read P (bufOf keys.2)).s
    let c := ct.load (memBefore P mem drng calls l)
    let m := decryptBytes P c s
    let e := encapsulate P programXof programShake256 keys.1 m
    ss.load (memBefore P mem drng calls (l + 1)) = if c = e.2 then e.1
      else programShake256 P.ssLen (c.toList ++ (drawn drng (n + 2) P.seedZLen).toList) := by
  intro n keys s c m e
  obtain ⟨hpk, hhpk, hz⟩ := read_keysAt P drng n
  rw [(load_dec hl).1, load_memBefore hil hsk, (load_keygen hi).1.2, decapsulate, reencrypt, hpk,
    hhpk, hz]
  rfl

/-- The secret key of the first call, after the secret before it was overwritten. -/
theorem memory_decapsulation_two_calls :
    let P := SecurityLevel.level128
    let pk : Region P.pkLen := ⟨0⟩
    let sk : Region P.kemSkLen := ⟨944⟩
    let ct : Region P.ctLen := ⟨2080⟩
    let ss : Region P.ssLen := ⟨3008⟩
    let calls : List (MemCall P) := [.keygen pk ⟨3024⟩ sk ⟨3032⟩ (by decide), .assign 3008 1,
      .dec sk P.kemSkLen ct P.ctLen ss ⟨3040⟩ (by decide)]
    let keys := keysAt P DrngCtx.zero 0
    let c := ct.load (memBefore P emptyBuf DrngCtx.zero calls 2)
    let e := encapsulate P programXof programShake256 keys.1
      (decryptBytes P c (SecretKey.read P (bufOf keys.2)).s)
    ss.load (memBefore P emptyBuf DrngCtx.zero calls 3) = if c = e.2 then e.1
      else programShake256 P.ssLen (c.toList ++ (drawn DrngCtx.zero 2 P.seedZLen).toList) := by
  intro P pk sk ct ss calls
  refine memory_decapsulation P emptyBuf DrngCtx.zero calls (i := 0) (l := 2) (by decide) rfl rfl ?_
  intro k call hi hl hk
  obtain rfl : k = 1 := by omega
  obtain rfl := Option.some.inj hk
  decide

/-- In every run, with anything else called and assigned in between, a key generation, an
encapsulation with its public key and a decapsulation of the ciphertext with its secret key
leave the same secret at the two addresses, if nobody overwrites the arrays that are passed on
and the noise of the three seeds is tolerable. -/
theorem memory_agreement {i j l t : ℕ} {pk : Region P.pkLen} {sk : Region P.kemSkLen}
    {ct : Region P.ctLen} {ss ss' : Region P.ssLen} {pkLen skLen ssLen ctLen ssLen' : Region 8}
    {hkeys : AllApart [⟨_, pk⟩, ⟨_, sk⟩, ⟨_, skLen⟩, ⟨_, pkLen⟩]}
    {henc : AllApart [⟨_, pk⟩, ⟨_, ct⟩, ⟨_, ss⟩, ⟨_, ssLen⟩, ⟨_, ctLen⟩]}
    {hdec : AllApart [⟨_, sk⟩, ⟨_, ss'⟩, ⟨_, ssLen'⟩] ∧ AllApart [⟨_, ct⟩, ⟨_, ss'⟩, ⟨_, ssLen'⟩]}
    (hij : i < j) (hjl : j < l) (hlt : l < t)
    (hi : calls[i]? = some (.keygen pk pkLen sk skLen hkeys))
    (hj : calls[j]? = some (.enc pk P.pkLen ss ssLen ct ctLen henc))
    (hl : calls[l]? = some (.dec sk P.kemSkLen ct P.ctLen ss' ssLen' hdec))
    (hpk : AtRest calls (i + 1) j pk) (hsk : AtRest calls (i + 1) l sk)
    (hct : AtRest calls (j + 1) l ct) (hss : AtRest calls (j + 1) t ss)
    (hss' : AtRest calls (l + 1) t ss') :
    let n := memDrawsBefore calls i
    let keys := keysAt P drng n
    let m := drawn drng (memDrawsBefore calls j) P.messageLen
    let secret := hashG P programShake256 (programShake256 P.hpkLen keys.1.toList) m
    ss.load (memBefore P mem drng calls t) = secret.1 ∧
    (Recovers P programXof (drawn drng n 64) (drawn drng (n + 1) 64) secret.2 →
      ss'.load (memBefore P mem drng calls t) = secret.1) := by
  intro n keys m secret
  obtain ⟨hsecret, hcipher⟩ : ss.load (memBefore P mem drng calls (j + 1)) = _ ∧
    ct.load (memBefore P mem drng calls (j + 1)) = _ := (load_enc hj).1
  rw [load_memBefore hij hpk, (load_keygen hi).1.1] at hsecret hcipher
  refine ⟨(load_memBefore (by omega) hss).trans hsecret, fun hrecovers => ?_⟩
  rw [load_memBefore (by omega) hss', (load_dec hl).1, load_memBefore (by omega) hsk,
    (load_keygen hi).1.2, load_memBefore (by omega) hct, hcipher]
  exact decapsulate_keysAt P drng n m hrecovers

/-- The three calls one after the other, on arrays that lie next to each other. -/
theorem memory_agreement_three_calls :
    let P := SecurityLevel.level128
    let pk : Region P.pkLen := ⟨0⟩
    let sk : Region P.kemSkLen := ⟨944⟩
    let ct : Region P.ctLen := ⟨2080⟩
    let ss : Region P.ssLen := ⟨3008⟩
    let ss' : Region P.ssLen := ⟨3024⟩
    let calls : List (MemCall P) := [.keygen pk ⟨3040⟩ sk ⟨3048⟩ (by decide),
      .enc pk P.pkLen ss ⟨3056⟩ ct ⟨3064⟩ (by decide),
      .dec sk P.kemSkLen ct P.ctLen ss' ⟨3056⟩ (by decide)]
    let keys := keysAt P DrngCtx.zero 0
    let secret := hashG P programShake256 (programShake256 P.hpkLen keys.1.toList)
      (drawn DrngCtx.zero 3 P.messageLen)
    ss.load (memBefore P emptyBuf DrngCtx.zero calls 3) = secret.1 ∧
    (Recovers P programXof (drawn DrngCtx.zero 0 64) (drawn DrngCtx.zero 1 64) secret.2 →
      ss'.load (memBefore P emptyBuf DrngCtx.zero calls 3) = secret.1) := by
  intro P pk sk ct ss ss' calls
  refine memory_agreement P emptyBuf DrngCtx.zero calls (i := 0) (j := 1) (l := 2) (t := 3)
    (by decide) (by decide) (by decide) rfl rfl rfl ?_ ?_ ?_ ?_ ?_
  · intro k call hi hj
    omega
  · intro k call hi hl hk
    obtain rfl : k = 1 := by omega
    obtain rfl := Option.some.inj hk
    decide
  · intro k call hj hl
    omega
  · intro k call hj ht hk
    obtain rfl : k = 2 := by omega
    obtain rfl := Option.some.inj hk
    decide
  · intro k call hl ht
    omega

end Runs

end RrlwrKem
