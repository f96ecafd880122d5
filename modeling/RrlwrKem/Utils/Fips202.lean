import RrlwrKem.Utils.KeccakSponge

/-!
# SHAKE and SHA-3

The functions of `fips202.h`. Their specification is the sponge on Keccak-f with a
domain byte, of which `keccakHash` gives the bytes: absorption may be cut into pieces,
and so may the output, as long as whole blocks are asked for at the start of a block.
-/

namespace RrlwrKem

open Checked

section Definitions

structure KeccakState where
  s : KeccakLanes
  pos : ℕ

/-- The two extendable-output functions, which differ in the rate. -/
inductive Shake where
  | shake128
  | shake256
  deriving DecidableEq, Repr

/-- `SHAKE128_RATE` and `SHAKE256_RATE`. -/
def Shake.rate : Shake → ℕ
  | shake128 => 168
  | shake256 => 136

variable (v : Shake)

def shakeInit : KeccakState where
  s := keccakInit
  pos := 0

def shakeAbsorb (state : KeccakState) (inp : List Byte) : Option KeccakState :=
  (keccakAbsorb v.rate (inp.length + 1) state.s state.pos inp).map fun (s, pos) => { s, pos }

def shakeFinalize (state : KeccakState) : Option KeccakState :=
  (keccakFinalize state.s state.pos v.rate 0x1f).map fun s => { s, pos := v.rate }

/-- `shake_squeeze` to `out + o`. -/
def shakeSqueeze (out : Buf) (o outlen : ℕ) (state : KeccakState) : Option (Buf × KeccakState) :=
  (keccakSqueeze v.rate outlen out o outlen state.s state.pos).map fun (out, s, pos) =>
    (out, { s, pos })

def shakeAbsorbOnce (inp : List Byte) : Option KeccakState :=
  (keccakAbsorbOnce v.rate inp 0x1f).map fun s => { s, pos := v.rate }

/-- `shake_squeezeblocks` to `out + o`, which leaves the position alone. -/
def shakeSqueezeblocks (out : Buf) (o nblocks : ℕ) (state : KeccakState) :
    Option (Buf × KeccakState) :=
  (keccakSqueezeblocks v.rate out o nblocks state.s).map fun (out, s) =>
    (out, { state with s })

def shake (out : Buf) (outlen : ℕ) (inp : List Byte) : Option Buf :=
  (shakeAbsorbOnce v inp).bind fun state =>
  let nblocks := outlen / v.rate
  (shakeSqueezeblocks v out 0 nblocks state).bind fun (out, state) =>
  let outlen := outlen - nblocks * v.rate
  (shakeSqueeze v out (nblocks * v.rate) outlen state).map fun (out, _) => out

/-- `sha3_256` with `r = SHA3_256_RATE` and four lanes of output, `sha3_512` with
`r = SHA3_512_RATE` and eight. -/
def sha3 (r lanes : ℕ) (h : Buf) (inp : List Byte) : Option Buf :=
  (keccakAbsorbOnce r inp 0x06).bind fun s =>
  let s := keccakF1600StatePermute s
  loop lanes (fun i _ h => (load s i).map fun x => store64 h (8 * i) x) h

abbrev shake128Init := shakeInit
abbrev shake128Absorb := shakeAbsorb .shake128
abbrev shake128Finalize := shakeFinalize .shake128
abbrev shake128Squeeze := shakeSqueeze .shake128
abbrev shake128AbsorbOnce := shakeAbsorbOnce .shake128
abbrev shake128Squeezeblocks := shakeSqueezeblocks .shake128
abbrev shake128 := shake .shake128

abbrev shake256Init := shakeInit
abbrev shake256Absorb := shakeAbsorb .shake256
abbrev shake256Finalize := shakeFinalize .shake256
abbrev shake256Squeeze := shakeSqueeze .shake256
abbrev shake256AbsorbOnce := shakeAbsorbOnce .shake256
abbrev shake256Squeezeblocks := shakeSqueezeblocks .shake256
abbrev shake256 := shake .shake256

def sha3_256 : Buf → List Byte → Option Buf := sha3 136 4

def sha3_512 : Buf → List Byte → Option Buf := sha3 72 8

/-- Byte `i` of the sponge on Keccak-f with rate `r` and domain byte `p`. -/
def keccakHash {r : ℕ} (hr : IsRate r) (p : Byte) (msg : List Byte) (i : ℕ) : Byte :=
  (keccakSponge r hr.pos).hash keccakInit p msg i

theorem isRate_sha3_512 : IsRate 72 := ⟨by decide, by decide, by decide⟩

theorem isRate_sha3_256 : IsRate 136 := ⟨by decide, by decide, by decide⟩

theorem Shake.isRate (v : Shake) : IsRate v.rate := by
  cases v <;> exact ⟨by decide, by decide, by decide⟩

/-- A call that writes output. -/
inductive SqueezeCall where
  | squeeze (outlen : ℕ)
  | squeezeblocks (nblocks : ℕ)

/-- The bytes that a call writes. -/
def SqueezeCall.length : SqueezeCall → ℕ
  | squeeze outlen => outlen
  | squeezeblocks nblocks => v.rate * nblocks

def SqueezeCall.run (out : Buf) (o : ℕ) (state : KeccakState) :
    SqueezeCall → Option (Buf × KeccakState)
  | squeeze outlen => shakeSqueeze v out o outlen state
  | squeezeblocks nblocks => shakeSqueezeblocks v out o nblocks state

/-- Calls whose output is written end to end. -/
def squeezeCalls : List SqueezeCall → Buf → (o : ℕ) → KeccakState → Option (Buf × KeccakState)
  | [], out, _, state => some (out, state)
  | c :: calls, out, o, state =>
    (c.run v out o state).bind fun (out, state) => squeezeCalls calls out (o + c.length v) state

/-- Whole blocks are asked for at the start of a block only. -/
def BlockAligned : (k : ℕ) → List SqueezeCall → Prop
  | _, [] => True
  | k, .squeeze outlen :: calls => BlockAligned (k + outlen) calls
  | k, .squeezeblocks nblocks :: calls => v.rate ∣ k ∧ BlockAligned (k + v.rate * nblocks) calls

end Definitions

section Absorb

variable (v : Shake)

theorem shakeAbsorb_eq (state : KeccakState) (hpos : state.pos < v.rate) (inp : List Byte) :
    shakeAbsorb v state inp =
      let st := (keccakSponge v.rate v.isRate.pos).absorb (state.s, state.pos) inp
      some { s := st.1, pos := st.2 } := by
  rw [shakeAbsorb, keccakAbsorb_eq v.isRate _ _ _ _ hpos (Nat.lt_succ_self _)]
  rfl

/-- Calls that absorb one piece of a message after another. -/
theorem foldlM_shakeAbsorb (state : KeccakState) (hpos : state.pos < v.rate)
    (chunks : List (List Byte)) : chunks.foldlM (shakeAbsorb v) state =
      let st := (keccakSponge v.rate v.isRate.pos).absorb (state.s, state.pos) chunks.flatten
      some { s := st.1, pos := st.2 } := by
  induction chunks generalizing state with
  | nil => rfl
  | cons l chunks ih =>
    have hlt := (keccakSponge v.rate v.isRate.pos).absorb_pos_lt (state.s, state.pos) l hpos
    rw [List.foldlM_cons, shakeAbsorb_eq v state hpos, List.flatten_cons, Sponge.absorb_append]
    exact ih _ hlt

theorem shakeAbsorbOnce_eq (inp : List Byte) : shakeAbsorbOnce v inp = some
    { s := (keccakSponge v.rate v.isRate.pos).finish 0x1f
        ((keccakSponge v.rate v.isRate.pos).absorb (keccakInit, 0) inp),
      pos := v.rate } := by
  rw [shakeAbsorbOnce, keccakAbsorbOnce_eq v.isRate]
  rfl

/-- However a message is cut into pieces, absorbing them and finalising succeeds and
leaves the same state as absorbing the message at once. -/
theorem shake_absorb_incremental (chunks : List (List Byte)) :
    ∃ state, (chunks.foldlM (shakeAbsorb v) shakeInit).bind (shakeFinalize v) = some state ∧
      shakeAbsorbOnce v chunks.flatten = some state := by
  have hlt := (keccakSponge v.rate v.isRate.pos).absorb_pos_lt (keccakInit, 0) chunks.flatten
    v.isRate.pos
  refine ⟨_, ?_, shakeAbsorbOnce_eq v _⟩
  rw [foldlM_shakeAbsorb v shakeInit v.isRate.pos, Option.bind_some, shakeFinalize]
  exact congrArg (Option.map fun s => ({ s, pos := v.rate } : KeccakState))
    (keccakFinalize_eq v.isRate _ _ hlt)

end Absorb

section Squeeze

variable {v : Shake} {s₀ : KeccakLanes} {k : ℕ} {state : KeccakState}

/-- The state after `k` bytes of output; the position is never at the start of a block. -/
structure HasSqueezed (v : Shake) (s₀ : KeccakLanes) (k : ℕ) (state : KeccakState) : Prop where
  reached : (keccakSponge v.rate v.isRate.pos).SqueezedTo s₀ k state.s state.pos
  pos : 0 < state.pos

/-- At the end of a block the position is the rate. -/
theorem HasSqueezed.pos_eq (h : HasSqueezed v s₀ k state) (hk : v.rate ∣ k) :
    state.pos = v.rate := by
  obtain ⟨⟨hle, n, -, hn⟩, hpos⟩ := h
  have hdvd : v.rate ∣ state.pos := by
    refine (Nat.dvd_add_right (Dvd.intro n rfl)).mp ?_
    exact hn ▸ Dvd.dvd.add hk dvd_rfl
  exact Nat.le_antisymm hle (Nat.le_of_dvd hpos hdvd)

theorem SqueezeCall.run_spec (c : SqueezeCall) (out : Buf) (o : ℕ)
    (h : HasSqueezed v s₀ k state) (hc : BlockAligned v k [c]) : ∃ out' state',
      c.run v out o state = some (out', state') ∧
      Written o (o + c.length v) (fun j => (keccakSponge v.rate v.isRate.pos).squeezed
        (keccakF1600StatePermute s₀) (k + (j - o))) out out' ∧
      HasSqueezed v s₀ (k + c.length v) state' := by
  cases c with
  | squeeze outlen =>
    obtain ⟨out', s', pos', heq, hwritten, hto, hpos⟩ := keccakSqueeze_spec v.isRate outlen out o
      outlen state.s k state.pos h.reached le_rfl
    exact ⟨out', ⟨s', pos'⟩, by rw [run, shakeSqueeze, heq]; rfl, hwritten, hto, hpos h.pos⟩
  | squeezeblocks nblocks =>
    have hend := h.pos_eq hc.1
    obtain ⟨out', s', heq, hwritten, hto⟩ := keccakSqueezeblocks_spec v.isRate out o nblocks
      state.s k (hend ▸ h.reached)
    refine ⟨out', ⟨s', state.pos⟩, by rw [run, shakeSqueezeblocks, heq]; rfl, hwritten, ?_, h.pos⟩
    exact hend.symm ▸ hto

theorem squeezeCalls_spec (calls : List SqueezeCall) (out : Buf) (o : ℕ)
    (h : HasSqueezed v s₀ k state) (hcalls : BlockAligned v k calls) : ∃ out' state',
      squeezeCalls v calls out o state = some (out', state') ∧
      Written o (o + (calls.map (·.length v)).sum) (fun j =>
        (keccakSponge v.rate v.isRate.pos).squeezed (keccakF1600StatePermute s₀) (k + (j - o)))
        out out' := by
  induction calls generalizing out o k state with
  | nil => exact ⟨out, state, rfl, Written.refl _ _ _⟩
  | cons c calls ih =>
    have hsplit : BlockAligned v k [c] ∧ BlockAligned v (k + c.length v) calls := by
      cases c with
      | squeeze outlen => exact ⟨trivial, hcalls⟩
      | squeezeblocks nblocks => exact ⟨⟨hcalls.1, trivial⟩, hcalls.2⟩
    obtain ⟨out₁, state₁, heq, hwritten, h₁⟩ := c.run_spec out o h hsplit.1
    obtain ⟨out', state', heq', hwritten'⟩ := ih out₁ (o + c.length v) h₁ hsplit.2
    refine ⟨out', state', ?_, ?_⟩
    · rw [squeezeCalls, heq]
      exact heq'
    · rw [List.map_cons, List.sum_cons, ← Nat.add_assoc]
      refine hwritten.append (hwritten'.congr fun j hj _ => ?_) (Nat.le_add_right _ _)
        (Nat.le_add_right _ _)
      have hidx : k + c.length v + (j - (o + c.length v)) = k + (j - o) := by omega
      rw [hidx]

theorem keccakHash_eq {r : ℕ} (hr : IsRate r) (p : Byte) (msg : List Byte) (i : ℕ) :
    keccakHash hr p msg i = (keccakSponge r hr.pos).squeezed (keccakF1600StatePermute
      ((keccakSponge r hr.pos).finish p
        ((keccakSponge r hr.pos).absorb (keccakInit, 0) msg))) i := by
  rw [keccakHash, Sponge.hash, ← Sponge.permute_finish_absorb]
  rfl

theorem hasSqueezed_start (v : Shake) (s₀ : KeccakLanes) :
    HasSqueezed v s₀ 0 { s := s₀, pos := v.rate } := ⟨.start s₀, v.isRate.pos⟩

/-- The calls that follow absorption write the bytes of the sponge. -/
theorem squeezeCalls_absorbed (v : Shake) (msg : List Byte) (calls : List SqueezeCall) (out : Buf)
    (hcalls : BlockAligned v 0 calls) : ∃ out' state',
      squeezeCalls v calls out 0
        { s := (keccakSponge v.rate v.isRate.pos).finish 0x1f
            ((keccakSponge v.rate v.isRate.pos).absorb (keccakInit, 0) msg),
          pos := v.rate } = some (out', state') ∧
      Written 0 (calls.map (·.length v)).sum (keccakHash v.isRate 0x1f msg) out out' := by
  obtain ⟨out', state', heq, hwritten⟩ := squeezeCalls_spec calls out 0
    (hasSqueezed_start v ((keccakSponge v.rate v.isRate.pos).finish 0x1f
      ((keccakSponge v.rate v.isRate.pos).absorb (keccakInit, 0) msg))) hcalls
  refine ⟨out', state', heq, ?_⟩
  rw [Nat.zero_add] at hwritten
  refine hwritten.congr fun j _ _ => ?_
  rw [keccakHash_eq, Nat.sub_zero, Nat.zero_add]

/-- However the output is cut into calls, each written where the one before it ended, it is
the output of the sponge. -/
theorem shake_squeeze_calls (v : Shake) (msg : List Byte) (calls : List SqueezeCall) (out : Buf)
    (hcalls : BlockAligned v 0 calls) : ∃ state out' state',
      shakeAbsorbOnce v msg = some state ∧
      squeezeCalls v calls out 0 state = some (out', state') ∧
      Written 0 (calls.map (·.length v)).sum (keccakHash v.isRate 0x1f msg) out out' := by
  obtain ⟨out', state', heq, hwritten⟩ := squeezeCalls_absorbed v msg calls out hcalls
  exact ⟨_, out', state', shakeAbsorbOnce_eq v msg, heq, hwritten⟩

/-- A block at once, a byte that starts the next one, the rest of it, and another block. -/
theorem shake_squeeze_calls_shake128 : ∃ state out' state',
    shakeAbsorbOnce .shake128 [] = some state ∧
    squeezeCalls .shake128 [.squeezeblocks 1, .squeeze 1, .squeeze 167, .squeezeblocks 1]
      (fun _ => 0) 0 state = some (out', state') ∧
    Written 0 504 (keccakHash Shake.shake128.isRate 0x1f []) (fun _ => 0) out' :=
  shake_squeeze_calls .shake128 [] _ _ ⟨by decide, by decide, trivial⟩

end Squeeze

section OneShot

theorem shake_eq (v : Shake) (out : Buf) (outlen : ℕ) (inp : List Byte) :
    shake v out outlen inp =
      some (out.copy (bytesOf outlen (keccakHash v.isRate 0x1f inp))) := by
  let n := outlen / v.rate
  let calls : List SqueezeCall := [.squeezeblocks n, .squeeze (outlen - n * v.rate)]
  have hsum : (calls.map (·.length v)).sum = outlen := by
    have hle : n * v.rate ≤ outlen := Nat.div_mul_le_self _ _
    simp only [calls, List.map_cons, List.map_nil, List.sum_cons, List.sum_nil, SqueezeCall.length]
    rw [Nat.mul_comm v.rate, Nat.add_zero]
    exact Nat.add_sub_of_le hle
  obtain ⟨out', state', hcalls, hwritten⟩ := squeezeCalls_absorbed v inp calls out
    ⟨Nat.dvd_zero _, trivial⟩
  rw [hsum] at hwritten
  -- the function makes these two calls
  obtain ⟨⟨out₁, state₁⟩, hblocks, hrest⟩ := Option.bind_eq_some_iff.mp hcalls
  obtain ⟨st, hsqueeze, hend⟩ := Option.bind_eq_some_iff.mp hrest
  cases hend
  have hoff : 0 + (SqueezeCall.squeezeblocks n).length v = n * v.rate := by
    rw [Nat.zero_add, SqueezeCall.length, Nat.mul_comm]
  rw [hoff] at hsqueeze
  rw [← hwritten.eq_copy, shake, shakeAbsorbOnce_eq, Option.bind_some]
  change (shakeSqueezeblocks v out 0 n _).bind _ = _
  change shakeSqueezeblocks v out 0 n _ = _ at hblocks
  change shakeSqueeze v out₁ (n * v.rate) (outlen - n * v.rate) state₁ = _ at hsqueeze
  rw [hblocks, Option.bind_some]
  dsimp only
  rw [hsqueeze]
  rfl

theorem sha3_eq {r lanes : ℕ} (hr : IsRate r) (hl : 8 * lanes ≤ r) (h : Buf) (inp : List Byte) :
    sha3 r lanes h inp =
      some (h.copy (bytesOf (8 * lanes) (keccakHash hr 0x06 inp))) := by
  have hle := hr.le
  let s := keccakF1600StatePermute ((keccakSponge r hr.pos).finish 0x06
    ((keccakSponge r hr.pos).absorb (keccakInit, 0) inp))
  obtain ⟨h', hloop, hwritten⟩ := storeLanes_spec h 0 s (n := lanes) (by omega)
  rw [Nat.zero_add] at hwritten
  have hhash : Written 0 (8 * lanes) (keccakHash hr 0x06 inp) h h' := by
    refine hwritten.congr fun j _ hj => ?_
    have hlt : j < r := by omega
    rw [keccakHash_eq, Sponge.squeezed, show (keccakSponge r hr.pos).rate = r from rfl,
      Nat.mod_eq_of_lt hlt, Nat.div_eq_of_lt hlt, Nat.sub_zero]
    rfl
  rw [← hhash.eq_copy, ← hloop, sha3, keccakAbsorbOnce_eq hr]
  simp only [Nat.zero_add]
  rfl

/-- Each function with a single call writes the first bytes of its sponge and nothing
else, for every message and every length. -/
theorem fips202_oneshot (out : Buf) (outlen : ℕ) (inp : List Byte) :
    (∃ out', shake128 out outlen inp = some out' ∧
      Written 0 outlen (keccakHash Shake.shake128.isRate 0x1f inp) out out') ∧
    (∃ out', shake256 out outlen inp = some out' ∧
      Written 0 outlen (keccakHash Shake.shake256.isRate 0x1f inp) out out') ∧
    (∃ out', sha3_256 out inp = some out' ∧
      Written 0 32 (keccakHash isRate_sha3_256 0x06 inp) out out') ∧
    ∃ out', sha3_512 out inp = some out' ∧
      Written 0 64 (keccakHash isRate_sha3_512 0x06 inp) out out' := by
  have hcopy : ∀ (n : ℕ) (W : ℕ → Byte), Written 0 n W out (out.copy (bytesOf n W)) := fun n W =>
    (copy_written out (bytesOf n W)).congr fun j _ hj => bufOf_bytesOf W hj
  exact ⟨⟨_, shake_eq .shake128 out outlen inp, hcopy _ _⟩,
    ⟨_, shake_eq .shake256 out outlen inp, hcopy _ _⟩,
    ⟨_, sha3_eq isRate_sha3_256 (by decide) out inp, hcopy 32 _⟩,
    ⟨_, sha3_eq isRate_sha3_512 (by decide) out inp, hcopy 64 _⟩⟩

end OneShot

section Distinct

/-- Messages that agree up to the start of a block and end in different short pieces lead
to different states, and so do different domain bytes; the states never meet again. -/
theorem absorbOnce_states_distinct {r : ℕ} (hr : IsRate r) {pre l l' : List Byte} {p p' : Byte}
    (hpre : r ∣ pre.length) (hl : l.length < r) (hl' : l'.length < r) (hp : p ≠ 0) (hp' : p' ≠ 0)
    (hne : (l, p) ≠ (l', p')) : ∃ s s', keccakAbsorbOnce r (pre ++ l) p = some s ∧
      keccakAbsorbOnce r (pre ++ l') p' = some s' ∧
      ∀ n, keccakF1600StatePermute^[n] s ≠ keccakF1600StatePermute^[n] s' := by
  obtain ⟨n, hn⟩ := hpre
  have hblocks := (keccakSponge r hr.pos).absorb_blocks n pre keccakInit hn
  refine ⟨_, _, keccakAbsorbOnce_eq hr _ p, keccakAbsorbOnce_eq hr _ p', fun m h => hne ?_⟩
  have hs := (keccakF1600StatePermute_injective.iterate m) h
  rw [Sponge.absorb_append, Sponge.absorb_append, hblocks] at hs
  obtain ⟨rfl, rfl⟩ := finish_absorb_injective hr _ hl hl' hp hp' hs
  rfl

/-- A seed with the nonces 0 and 1. -/
theorem absorbOnce_states_distinct_nonces : ∃ s s',
    keccakAbsorbOnce 168 ([] ++ [0x2a, 0]) 0x1f = some s ∧
    keccakAbsorbOnce 168 ([] ++ [0x2a, 1]) 0x1f = some s' ∧
    ∀ n, keccakF1600StatePermute^[n] s ≠ keccakF1600StatePermute^[n] s' :=
  absorbOnce_states_distinct Shake.shake128.isRate ⟨0, rfl⟩ (by decide) (by decide) (by decide)
    (by decide) (by decide)

end Distinct

end RrlwrKem
