import RrlwrKem.Library.BigEndian
import RrlwrKem.Library.HashGenerator
import RrlwrKem.Library.Machine
import RrlwrKem.Memory

/-!
# The random number generator

`drng.c` with its numbers of 55 bytes, the most significant byte first. Seen as
residues, the three arrays of the context are a hash generator: a draw reads bytes off
the hashes of consecutive numbers and takes one step, whatever its length. SHA3-256 is an
arbitrary map, and `malloc` is the sequence of its outcomes.
-/

namespace RrlwrKem

open BigEndian

section Definitions

/-- `sha3_256`. -/
abbrev Sha3_256 := List Byte → Bytes 32

/-- `malloc`: whether the call with this number returns memory. -/
abbrev Malloc := ℕ → Bool

structure DrngCtx where
  V : Bytes 55
  C : Bytes 55
  reseedCounter : Bytes 55
  deriving DecidableEq

/-- `DIVISION_ROUND_UP`. -/
def divisionRoundUp (dividend divisor : ℕ) : ℕ :=
  let result := dividend / divisor
  if dividend % divisor ≠ 0 then result + 1 else result

/-- `HIGH_N_BIT_MASK(N)`. -/
def highNBitMask (n : ℕ) : Byte := toByte (~~~(0 : U32) <<< (8 - n))

def u32ToU8BigEndian (u32 : U32) : Bytes 4 :=
  #v[toByte ((u32 >>> 24) &&& 0xff), toByte ((u32 >>> 16) &&& 0xff),
    toByte ((u32 >>> 8) &&& 0xff), toByte ((u32 >>> 0) &&& 0xff)]

def incBigNumber (BN : Buf) : (lenBytes : ℕ) → Buf
  | 0 => BN
  | len + 1 =>
    let BN := BN.set len (BN len + 1)
    if BN len ≠ 0 then BN else incBigNumber BN len

/-- The loop of `plus_Big_Number`, which adds three numbers to the first one. -/
def plusBigNumberLoop (BN2 BN3 BN4 : Buf) : (lenBytes : ℕ) → Buf → (carry : Byte) → Buf
  | 0, BN1, _ => BN1
  | len + 1, BN1, carry =>
    let sum := promoteByte (BN1 len) + promoteByte (BN2 len) + promoteByte (BN3 len) +
      promoteByte (BN4 len) + promoteByte carry
    let carry := toByte (sum / (0xff + 1))
    let BN1 := BN1.set len (toByte (sum &&& 0xff))
    plusBigNumberLoop BN2 BN3 BN4 len BN1 carry

def plusBigNumber (BN1 BN2 BN3 BN4 : Buf) (lenBytes : ℕ) : Buf :=
  plusBigNumberLoop BN2 BN3 BN4 lenBytes BN1 0

variable (sha3_256 : Sha3_256) (malloc : Malloc)

/-- What `SHA3_df` hashes for one block. -/
def dataToSha3 (counter : Byte) (inputString : List Byte) : List Byte :=
  counter :: (u32ToU8BigEndian (8 * 55)).toList ++ inputString

/-- The loop of `SHA3_df` from block `i` on; it ends early when there is no memory. The
calls of `malloc` are counted. -/
def sha3DfLoop (inputString : List Byte) :
    (todo : ℕ) → (i : ℕ) → (temp : Buf) → (counter : Byte) → (calls : ℕ) → Option Buf × ℕ
  | 0, _, temp, _, calls => (some temp, calls)
  | todo + 1, i, temp, counter, calls =>
    if malloc calls then
      let sha3Dgst := sha3_256 (dataToSha3 counter inputString)
      let temp := temp.writeAt (i * 32) fun p => p.copy sha3Dgst
      sha3DfLoop inputString todo (i + 1) temp (counter + 1) (calls + 1)
    else (none, calls + 1)

def sha3Df (inputString : Buf) (lenBytes calls : ℕ) : ℤ × Buf × ℕ :=
  let len := divisionRoundUp 55 32
  match sha3DfLoop sha3_256 malloc (bytesOf lenBytes inputString).toList len 0 (fun _ => 0) 1
    calls with
  | (none, calls) => (-2, inputString, calls)
  | (some temp, calls) => (0, inputString.copy (bytesOf 55 temp), calls)

/-- The context after `memset(drng, 0, sizeof(*drng))`. -/
def DrngCtx.zero : DrngCtx where
  V := Vector.replicate 55 0
  C := Vector.replicate 55 0
  reseedCounter := Vector.replicate 55 0

/-- The array `padded_V`: a byte and `V`. -/
def paddedV (x : Byte) (V : Bytes 55) : Buf :=
  let paddedV : Buf := fun _ => 0
  let paddedV := paddedV.set 0 x
  paddedV.writeAt 1 fun p => p.copy V

/-- `SHA3_DRNG_Instantiate`, which ignores what `SHA3_df` returns. -/
def sha3DrngInstantiate {len : ℕ} (nonce : Bytes len) : ℤ × DrngCtx :=
  let drng := DrngCtx.zero
  if malloc 0 then
    let seedMaterial : Buf := fun _ => 0
    let seedMaterial := seedMaterial.copy nonce
    let (_, seedMaterial, calls) := sha3Df sha3_256 malloc seedMaterial len 1
    let drng := { drng with V := bytesOf 55 seedMaterial }
    let (_, paddedV, _) := sha3Df sha3_256 malloc (paddedV 0x00 drng.V) 56 calls
    let drng := { drng with C := bytesOf 55 paddedV }
    let drng := { drng with
      reseedCounter := bytesOf 55 (incBigNumber (bufOf drng.reseedCounter) 55) }
    (0, drng)
  else (-2, drng)

/-- The inner loop of `SHA3_DRNG_Generate` from byte `j` of the digest on; it ends with
the last byte that was asked for. -/
def copyRemainder (w : Buf) (o : ℕ) : (todo j remainderByte : ℕ) → Buf → Buf × ℕ
  | 0, _, remainderByte, returnBits => (returnBits, remainderByte)
  | todo + 1, j, remainderByte, returnBits =>
    let returnBits := returnBits.set (o + j) (w j)
    let remainderByte := (remainderByte + (2 ^ 64 - 1)) % 2 ^ 64
    if remainderByte = 0 then (returnBits, remainderByte)
    else copyRemainder w o todo (j + 1) remainderByte returnBits

/-- One pass of the loop of `SHA3_DRNG_Generate` on `data`, `remainder_Byte` and
`return_bits`. -/
def generateBlock (i : ℕ) : Buf × ℕ × Buf → Buf × ℕ × Buf
  | (data, remainderByte, returnBits) =>
    let w := sha3_256 (bytesOf 55 data).toList
    let (returnBits, remainderByte) :=
      if remainderByte ≥ 32 then
        (returnBits.writeAt (32 * i) fun p => p.copy w, remainderByte - 32)
      else copyRemainder (bufOf w) (32 * i) 32 0 remainderByte returnBits
    (incBigNumber data 55, remainderByte, returnBits)

def sha3DrngGenerate (drng : DrngCtx) (requestedNoOfBits : ℕ) (returnBits : Buf) :
    ℤ × DrngCtx × Buf :=
  let m := divisionRoundUp requestedNoOfBits (32 * 8)
  let requestedNoOfByte := divisionRoundUp requestedNoOfBits 8
  let (_, _, returnBits) := Nat.fold m (fun i _ => generateBlock sha3_256 i)
    (bufOf drng.V, requestedNoOfByte, returnBits)
  let returnBits :=
    if requestedNoOfByte ≥ 1 then
      returnBits.set (requestedNoOfByte - 1) (returnBits (requestedNoOfByte - 1) &&&
        highNBitMask (8 - (8 * requestedNoOfByte - requestedNoOfBits)))
    else returnBits
  let H : Buf := fun _ => 0
  let H := H.writeAt (55 - 32) fun p => p.copy (sha3_256 (bytesOf 56 (paddedV 0x03 drng.V)).toList)
  let V := bytesOf 55 (plusBigNumber (bufOf drng.V) H (bufOf drng.C) (bufOf drng.reseedCounter) 55)
  let reseedCounter := bytesOf 55 (incBigNumber (bufOf drng.reseedCounter) 55)
  (0, { drng with V, reseedCounter }, returnBits)

def initRandomNumber {len : ℕ} (seed : Bytes len) : ℤ × DrngCtx :=
  sha3DrngInstantiate sha3_256 malloc seed

def getRandomNumber (drng : DrngCtx) (randomNumber : Buf) (lenBits : ℕ) : ℤ × DrngCtx × Buf :=
  sha3DrngGenerate sha3_256 drng lenBits randomNumber

end Definitions

section BigNumbers

theorem Buf.set_self (b : Buf) (n : ℕ) (x : Byte) : b.set n x n = x := Function.update_self _ _ _

theorem Buf.set_ne (b : Buf) {n j : ℕ} (x : Byte) (h : j ≠ n) : b.set n x j = b j :=
  Function.update_of_ne h _ _

theorem incBigNumber_above (BN : Buf) (n : ℕ) : ∀ j, n ≤ j → incBigNumber BN n j = BN j := by
  induction n generalizing BN with
  | zero => exact fun j _ => rfl
  | succ n ih =>
    intro j hj
    have hset := BN.set_ne (BN n + 1) (show j ≠ n by omega)
    rw [incBigNumber]
    split
    · exact hset
    · exact (ih _ j (by omega)).trans hset

/-- Bytes are incremented from the last one on while they become zero. -/
theorem value_incBigNumber (BN : Buf) (n : ℕ) :
    value (incBigNumber BN n) n = (value BN n + 1) % (2 ^ 8) ^ n := by
  induction n generalizing BN with
  | zero => exact (Nat.mod_one _).symm
  | succ n ih =>
    have hlow : ∀ i < n, BN.set n (BN n + 1) i = BN i := fun i hi => BN.set_ne _ hi.ne
    have hbyte := (BN n).isLt
    have hsucc : (BN n + 1).toNat = ((BN n).toNat + 1) % 256 := by
      rw [BitVec.toNat_add]
      rfl
    have hcarry : value BN (n + 1) + 1 = value BN n * 2 ^ 8 + ((BN n).toNat + 1) :=
      Nat.add_assoc _ _ _
    rw [hcarry, incBigNumber, Buf.set_self]
    by_cases h : BN n + 1 = 0
    · -- the byte wraps around and the carry goes on
      rw [if_neg (not_not.mpr h)]
      have hn : incBigNumber (BN.set n (BN n + 1)) n n = 0 := by
        rw [incBigNumber_above _ _ n le_rfl, Buf.set_self, h]
      rw [h] at hsucc
      refine value_carry (c := 1) ?_ ?_
      · rw [ih, value_congr hlow]
      · have hzero : (0 : Byte).toNat = 0 := rfl
        rw [hzero] at hsucc
        rw [hn, hzero]
        omega
    · rw [if_pos h]
      have hne : (BN n + 1).toNat ≠ 0 := fun h0 => h (BitVec.eq_of_toNat_eq h0)
      refine value_carry (c := 0) ?_ ?_
      · rw [value_congr hlow, Nat.add_zero, Nat.mod_eq_of_lt (value_lt _ _)]
      · rw [Buf.set_self]
        omega

theorem plusBigNumberLoop_above (BN2 BN3 BN4 : Buf) (n : ℕ) (BN1 : Buf) (carry : Byte) :
    ∀ j, n ≤ j → plusBigNumberLoop BN2 BN3 BN4 n BN1 carry j = BN1 j := by
  induction n generalizing BN1 carry with
  | zero => exact fun j _ => rfl
  | succ n ih =>
    intro j hj
    rw [plusBigNumberLoop]
    exact (ih _ _ j (by omega)).trans (BN1.set_ne _ (by omega))

/-- The sum of four bytes and a carry, cut into a byte and the next carry. -/
theorem sum_bytes (a b c d carry : Byte) :
    let sum := promoteByte a + promoteByte b + promoteByte c + promoteByte d + promoteByte carry
    (toByte (sum &&& 0xff)).toNat + 2 ^ 8 * (toByte (sum / (0xff + 1))).toNat =
      a.toNat + b.toNat + c.toNat + d.toNat + carry.toNat := by
  intro sum
  have ha := a.isLt
  have hb := b.isLt
  have hc := c.isLt
  have hd := d.isLt
  have hcarry := carry.isLt
  have hsum : sum.toNat = a.toNat + b.toNat + c.toNat + d.toNat + carry.toNat := by
    simp only [sum, promoteByte, BitVec.toNat_add, BitVec.toNat_setWidth]
    omega
  have hlow : (toByte (sum &&& 0xff)).toNat = sum.toNat % 256 := by
    rw [BitVec.toNat_setWidth, BitVec.toNat_and]
    exact (congrArg (· % 2 ^ 8) (Nat.and_two_pow_sub_one_eq_mod sum.toNat 8)).trans
      (Nat.mod_mod _ _)
  have hhigh : (toByte (sum / (0xff + 1))).toNat = sum.toNat / 256 := by
    rw [BitVec.toNat_setWidth, BitVec.toNat_udiv]
    exact Nat.mod_eq_of_lt (by
      change sum.toNat / 256 < 256
      omega)
  rw [hlow, hhigh, hsum]
  omega

theorem value_plusBigNumberLoop (BN2 BN3 BN4 : Buf) (n : ℕ) (BN1 : Buf) (carry : Byte) :
    value (plusBigNumberLoop BN2 BN3 BN4 n BN1 carry) n =
      (value BN1 n + value BN2 n + value BN3 n + value BN4 n + carry.toNat) % (2 ^ 8) ^ n := by
  induction n generalizing BN1 carry with
  | zero => exact (Nat.mod_one _).symm
  | succ n ih =>
    let sum := promoteByte (BN1 n) + promoteByte (BN2 n) + promoteByte (BN3 n) +
      promoteByte (BN4 n) + promoteByte carry
    have hsum := sum_bytes (BN1 n) (BN2 n) (BN3 n) (BN4 n) carry
    have hlow : ∀ i < n, BN1.set n (toByte (sum &&& 0xff)) i = BN1 i :=
      fun i hi => BN1.set_ne _ hi.ne
    have hdigits : value BN1 (n + 1) + value BN2 (n + 1) + value BN3 (n + 1) + value BN4 (n + 1) +
        carry.toNat = (value BN1 n + value BN2 n + value BN3 n + value BN4 n) * 2 ^ 8 +
          ((BN1 n).toNat + (BN2 n).toNat + (BN3 n).toNat + (BN4 n).toNat + carry.toNat) := by
      simp only [value]
      ring
    rw [hdigits, plusBigNumberLoop]
    refine value_carry (c := (toByte (sum / (0xff + 1))).toNat) ?_ ?_
    · rw [ih, value_congr hlow]
    · rw [plusBigNumberLoop_above _ _ _ _ _ _ n le_rfl, Buf.set_self]
      exact hsum

end BigNumbers

section Residues

variable (sha3_256 : Sha3_256)

/-- The residues that 55 bytes stand for. -/
abbrev SeedNumber := ZMod ((2 ^ 8) ^ 55)

/-- The number in an array of 55 bytes. -/
def seedNumber (b : Buf) : SeedNumber := (value b 55 : ℕ)

/-- The array with a number. -/
def seedBytes (x : SeedNumber) : Bytes 55 := bytesOf 55 (digits 8 x.val 55)

theorem seedBytes_seedNumber (b : Buf) : seedBytes (seedNumber b) = bytesOf 55 b := by
  refine bytesOf_congr fun j hj => ?_
  rw [seedNumber, ZMod.val_natCast, Nat.mod_eq_of_lt (value_lt b 55), digits_value b 55 j hj]

theorem value_zeros (n : ℕ) : value (fun _ => (0 : Byte)) n = 0 := by
  induction n with
  | zero => rfl
  | succ n ih =>
    rw [value, ih, Nat.zero_mul, Nat.zero_add]
    rfl

theorem seedNumber_bytesOf (b : Buf) : seedNumber (bufOf (bytesOf 55 b)) = seedNumber b :=
  congrArg Nat.cast (value_congr fun _ hj => bufOf_bytesOf b hj)

theorem seedNumber_injective {V V' : Bytes 55} (h : seedNumber (bufOf V) = seedNumber (bufOf V')) :
    V = V' := by
  have hbytes := congrArg seedBytes h
  rwa [seedBytes_seedNumber, seedBytes_seedNumber, bytesOf_bufOf, bytesOf_bufOf] at hbytes

theorem seedNumber_incBigNumber (b : Buf) :
    seedNumber (incBigNumber b 55) = seedNumber b + 1 := by
  rw [seedNumber, value_incBigNumber, ZMod.natCast_mod, Nat.cast_add, Nat.cast_one, seedNumber]

theorem seedNumber_plusBigNumber (b c d e : Buf) : seedNumber (plusBigNumber b c d e 55) =
    seedNumber b + seedNumber c + seedNumber d + seedNumber e := by
  have hcarry : (0 : Byte).toNat = 0 := rfl
  rw [seedNumber, plusBigNumber, value_plusBigNumberLoop, ZMod.natCast_mod, hcarry, Nat.add_zero,
    Nat.cast_add, Nat.cast_add, Nat.cast_add]
  rfl

/-- The context as the state of a hash generator. -/
def DrngCtx.state (drng : DrngCtx) : HashGenerator.State SeedNumber where
  v := seedNumber (bufOf drng.V)
  c := seedNumber (bufOf drng.C)
  counter := seedNumber (bufOf drng.reseedCounter)

/-- The hash that is added to the seed: 32 bytes at the end of an array of zeros. -/
def seedHash (x : SeedNumber) : SeedNumber :=
  seedNumber (Buf.writeAt (fun _ => 0) (55 - 32) fun p =>
    p.copy (sha3_256 (0x03 :: (seedBytes x).toList)))

/-- Byte `j` of the hashes of `x`, `x + 1` and so on. -/
def hashStream (x : SeedNumber) (j : ℕ) : Byte :=
  bufOf (sha3_256 (seedBytes (x + (j / 32 : ℕ))).toList) (j % 32)

theorem bytesOf_paddedV (x : Byte) (V : Bytes 55) :
    (bytesOf 56 (paddedV x V)).toList = x :: V.toList := by
  have hlist := bytesOf_add_toList 1 55 (paddedV x V)
  rw [show paddedV x V = (Buf.set (fun _ => 0) 0 x).writeAt 1 fun p => p.copy V from rfl,
    Buf.offset_writeAt, bytesOf_copy, bytesOf_writeAt _ _ le_rfl] at hlist
  exact hlist

end Residues

section Draws

variable (sha3_256 : Sha3_256)

theorem divisionRoundUp_eq (a : ℕ) {b : ℕ} (hb : 0 < b) :
    divisionRoundUp a b = (a + (b - 1)) / b := by
  have hdiv := Nat.div_add_mod a b
  have hlt := Nat.mod_lt a hb
  rw [divisionRoundUp]
  symm
  split
  case isTrue h =>
    refine Nat.div_eq_of_lt_le ?_ ?_
    · rw [Nat.succ_mul, Nat.mul_comm]
      omega
    · rw [Nat.succ_mul, Nat.succ_mul, Nat.mul_comm]
      omega
  case isFalse h =>
    refine Nat.div_eq_of_lt_le ?_ ?_
    · rw [Nat.mul_comm]
      omega
    · rw [Nat.succ_mul, Nat.mul_comm]
      omega

/-- The copy of the last digest ends with the last byte that was asked for. -/
theorem copyRemainder_spec {w : Buf} {o lo : ℕ} {W : ℕ → Byte} {out₀ : Buf} (todo j rem : ℕ)
    (out : Buf) (hpos : 0 < rem) (hle : rem ≤ todo) (hlt : rem < 2 ^ 64) (hlo : lo ≤ o)
    (hW : ∀ i < todo, w (j + i) = W (o + (j + i))) (h : Written lo (o + j) W out₀ out) :
    ∃ out', copyRemainder w o todo j rem out = (out', 0) ∧
      Written lo (o + (j + rem)) W out₀ out' := by
  induction todo generalizing j rem out with
  | zero => omega
  | succ todo ih =>
    have hset : Written lo (o + j + 1) W out₀ (out.set (o + j) (w j)) :=
      h.set (by omega) (hW 0 (Nat.succ_pos todo))
    have hrem : (rem + (2 ^ 64 - 1)) % 2 ^ 64 = rem - 1 := by omega
    rw [copyRemainder]
    simp only [hrem]
    by_cases hlast : rem - 1 = 0
    · rw [if_pos hlast, hlast]
      exact ⟨_, rfl, hset.of_eq (by omega)⟩
    · rw [if_neg hlast]
      obtain ⟨out', heq, hwritten⟩ := ih (j + 1) (rem - 1) _ (by omega) (by omega) (by omega)
        (fun i hi => by
          have hidx : j + 1 + i = j + (i + 1) := by omega
          rw [hidx]
          exact hW (i + 1) (by omega)) (hset.of_eq (by omega))
      exact ⟨out', heq, hwritten.of_eq (by omega)⟩

/-- The digest of block `i` is the next piece of the stream. -/
theorem digest_eq_hashStream {x : SeedNumber} {data : Buf} {i : ℕ} (hdata : seedNumber data = x + i)
    {j : ℕ} (hj : j < 32) :
    bufOf (sha3_256 (bytesOf 55 data).toList) j = hashStream sha3_256 x (32 * i + j) := by
  have hdiv : (32 * i + j) / 32 = i := by omega
  have hmod : (32 * i + j) % 32 = j := by omega
  rw [hashStream, hdiv, hmod, ← hdata, seedBytes_seedNumber]

/-- The passes of the loop write the stream as far as it was asked for. -/
theorem generateBlocks_spec (V : Bytes 55) (bits : ℕ) (out : Buf) : ∃ data out',
    Nat.fold (divisionRoundUp bits (32 * 8)) (fun i _ => generateBlock sha3_256 i)
      (bufOf V, divisionRoundUp bits 8, out) = (data, 0, out') ∧
    Written 0 (divisionRoundUp bits 8) (hashStream sha3_256 (seedNumber (bufOf V))) out out' := by
  let B := divisionRoundUp bits 8
  let x := seedNumber (bufOf V)
  have hB : B = (bits + 7) / 8 := divisionRoundUp_eq bits (by decide)
  have hm : divisionRoundUp bits (32 * 8) = (bits + 255) / 256 :=
    divisionRoundUp_eq bits (by decide)
  have hinv := ArrayPolynomial.fold_invariant (n := divisionRoundUp bits (32 * 8))
    (f := fun i _ => generateBlock sha3_256 i) (a := (bufOf V, B, out)) (fun i s =>
      seedNumber s.1 = x + i ∧ s.2.1 = B - 32 * i ∧
        Written 0 (min (32 * i) B) (hashStream sha3_256 x) out s.2.2) ?_ ?_
  · obtain ⟨-, hrem, hwritten⟩ := hinv
    have hend : B - 32 * divisionRoundUp bits (32 * 8) = 0 := by omega
    refine ⟨_, _, Prod.ext rfl (Prod.ext (hrem.trans hend) rfl), ?_⟩
    exact hwritten.of_eq (by omega)
  · refine ⟨by simp [x], rfl, ?_⟩
    rw [Nat.mul_zero, Nat.zero_min]
    exact Written.refl _ _ _
  · rintro i hi ⟨data, rem, out'⟩ ⟨hdata, hrem, hwritten⟩
    dsimp only at hdata hrem hwritten
    have hlt : 32 * i < B := by omega
    have hnext : seedNumber (incBigNumber data 55) = x + (i + 1 : ℕ) := by
      rw [seedNumber_incBigNumber, hdata, Nat.cast_succ, add_assoc]
    rw [Nat.min_eq_left hlt.le] at hwritten
    refine ⟨hnext, ?_⟩
    rw [generateBlock]
    by_cases hfull : rem ≥ 32
    · -- a whole digest
      simp only [if_pos hfull]
      refine ⟨by omega, ?_⟩
      have hmin : min (32 * (i + 1)) B = 32 * i + 32 := by omega
      rw [hmin]
      exact hwritten.writeAt_above (Nat.zero_le _) (copy_written _ _)
        fun j hj => digest_eq_hashStream sha3_256 hdata hj
    · -- the last bytes
      simp only [if_neg hfull]
      obtain ⟨out'', heq, hwritten'⟩ := copyRemainder_spec (o := 32 * i)
        (w := bufOf (sha3_256 (bytesOf 55 data).toList)) 32 0 rem out' (by omega) (by omega)
        (by omega) (Nat.zero_le _) (fun j hj => by
          rw [Nat.zero_add]
          exact digest_eq_hashStream sha3_256 hdata hj) hwritten
      rw [heq]
      have hmin : min (32 * (i + 1)) B = 32 * i + (0 + rem) := by omega
      exact ⟨by omega, hmin ▸ hwritten'⟩

/-- Bit `i` of a byte string, the most significant bit of each byte first. -/
def drawnBit (b : ℕ → Byte) (i : ℕ) : Bool := (b (i / 8)).getLsbD (7 - i % 8)

theorem highNBitMask_getLsbD {n k : ℕ} (hn : n ≤ 8) (hk : k < 8) :
    (highNBitMask n).getLsbD k = decide (8 - n ≤ k) := by
  have h : ∀ (n : Fin 9) (k : Fin 8), (highNBitMask n).getLsbD k = decide (8 - n.val ≤ k.val) := by
    decide
  exact h ⟨n, Nat.lt_succ_of_le hn⟩ ⟨k, hk⟩

/-- What the mask at the end leaves of a byte string of the right length. -/
theorem drawnBit_masked {bits : ℕ} {b stream out : Buf}
    (hwritten : Written 0 (divisionRoundUp bits 8) stream b out) :
    let B := divisionRoundUp bits 8
    let out' := if B ≥ 1 then out.set (B - 1) (out (B - 1) &&& highNBitMask (8 - (8 * B - bits)))
      else out
    (∀ j, B ≤ j → out' j = b j) ∧
      ∀ i < 8 * B, drawnBit out' i = (decide (i < bits) && drawnBit stream i) := by
  intro B out'
  have hB : B = (bits + 7) / 8 := divisionRoundUp_eq bits (by decide)
  by_cases hpos : B ≥ 1
  · have hout' : out' = out.set (B - 1) (out (B - 1) &&& highNBitMask (8 - (8 * B - bits))) :=
      if_pos hpos
    refine ⟨fun j hj => ?_, fun i hi => ?_⟩
    · rw [hout', Buf.set_ne _ _ (by omega), hwritten.above hj]
    · have hbyte : out (i / 8) = stream (i / 8) := hwritten.inside (Nat.zero_le _) (by omega)
      by_cases hlast : i / 8 = B - 1
      · rw [drawnBit, drawnBit, hout', hlast, Buf.set_self, BitVec.getLsbD_and, ← hlast, hbyte,
          highNBitMask_getLsbD (by omega) (by omega), Bool.and_comm]
        congr 1
        exact decide_eq_decide.mpr (by omega)
      · have hin : i < bits := by omega
        rw [drawnBit, drawnBit, hout', Buf.set_ne _ _ hlast, hbyte, decide_eq_true hin,
          Bool.true_and]
  · have hout' : out' = out := if_neg hpos
    refine ⟨fun j hj => ?_, fun i hi => absurd hi (by omega)⟩
    rw [hout', hwritten.above hj]

/-- The context after a draw, which does not depend on the length. -/
def nextCtx (drng : DrngCtx) : DrngCtx where
  V := bytesOf 55 (plusBigNumber (bufOf drng.V) (Buf.writeAt (fun _ => 0) (55 - 32) fun p =>
    p.copy (sha3_256 (bytesOf 56 (paddedV 0x03 drng.V)).toList)) (bufOf drng.C)
    (bufOf drng.reseedCounter) 55)
  C := drng.C
  reseedCounter := bytesOf 55 (incBigNumber (bufOf drng.reseedCounter) 55)

theorem nextCtx_state (drng : DrngCtx) :
    (nextCtx sha3_256 drng).state = HashGenerator.next (seedHash sha3_256) drng.state := by
  have hhash : (bytesOf 56 (paddedV 0x03 drng.V)).toList =
      0x03 :: (seedBytes (seedNumber (bufOf drng.V))).toList := by
    rw [bytesOf_paddedV, seedBytes_seedNumber, bytesOf_bufOf]
  rw [DrngCtx.state, DrngCtx.state, HashGenerator.next, nextCtx, HashGenerator.State.mk.injEq]
  refine ⟨?_, rfl, ?_⟩
  · rw [seedNumber_bytesOf, seedNumber_plusBigNumber, hhash]
    rfl
  · exact (seedNumber_bytesOf _).trans (seedNumber_incBigNumber _)

theorem iterate_nextCtx_state (n : ℕ) (drng : DrngCtx) : ((nextCtx sha3_256)^[n] drng).state =
    (HashGenerator.next (seedHash sha3_256))^[n] drng.state := by
  have hsemi : Function.Semiconj DrngCtx.state (nextCtx sha3_256)
      (HashGenerator.next (seedHash sha3_256)) := nextCtx_state sha3_256
  exact (hsemi.iterate_right n) drng

/-- A draw writes as many bits of the stream as it was asked for and clears the bits that
are left of the last byte. -/
theorem getRandomNumber_spec (drng : DrngCtx) (out : Buf) (bits : ℕ) : ∃ out',
    getRandomNumber sha3_256 drng out bits = (0, nextCtx sha3_256 drng, out') ∧
    (∀ j, divisionRoundUp bits 8 ≤ j → out' j = out j) ∧
    ∀ i < 8 * divisionRoundUp bits 8,
      drawnBit out' i = (decide (i < bits) && drawnBit (hashStream sha3_256 drng.state.v) i) := by
  obtain ⟨data, out₁, hfold, hwritten⟩ := generateBlocks_spec sha3_256 drng.V bits out
  refine ⟨_, ?_, drawnBit_masked hwritten⟩
  rw [getRandomNumber, sha3DrngGenerate, hfold]
  rfl

theorem eq_of_drawnBit_eq {b b' : Buf} {j : ℕ}
    (h : ∀ i, 8 * j ≤ i → i < 8 * (j + 1) → drawnBit b i = drawnBit b' i) : b j = b' j := by
  refine BitVec.eq_of_getLsbD_eq fun t ht => ?_
  have hbit := h (8 * j + (7 - t)) (by omega) (by omega)
  have hdiv : (8 * j + (7 - t)) / 8 = j := by omega
  have hmod : 7 - (8 * j + (7 - t)) % 8 = t := by omega
  rwa [drawnBit, drawnBit, hdiv, hmod] at hbit

/-- A draw of whole bytes. -/
theorem getRandomNumber_bytes (drng : DrngCtx) (out : Buf) (len : ℕ) :
    getRandomNumber sha3_256 drng out (8 * len) = (0, nextCtx sha3_256 drng,
      out.copy (bytesOf len (hashStream sha3_256 drng.state.v))) := by
  obtain ⟨out', heq, habove, hbits⟩ := getRandomNumber_spec sha3_256 drng out (8 * len)
  have hlen : divisionRoundUp (8 * len) 8 = len := by
    rw [divisionRoundUp_eq _ (by decide)]
    omega
  rw [hlen] at habove hbits
  have hwritten : Written 0 len (hashStream sha3_256 drng.state.v) out out' := by
    intro j
    by_cases hj : j < len
    · rw [if_pos ⟨Nat.zero_le j, hj⟩]
      refine eq_of_drawnBit_eq fun i _ hi => ?_
      have hlt : i < 8 * len := by omega
      rw [hbits i hlt, decide_eq_true hlt, Bool.true_and]
    · rw [if_neg (by omega), habove j (by omega)]
  rw [heq, hwritten.eq_copy]

/-- A call of `get_random_number` with its length and its memory. -/
def drawStep (drng : DrngCtx) (call : ℕ × Buf) : (ℤ × Buf) × DrngCtx :=
  let (ret, drng, out) := getRandomNumber sha3_256 drng call.2 call.1
  ((ret, out), drng)

theorem drawStep_ctx (drng : DrngCtx) (call : ℕ × Buf) :
    (drawStep sha3_256 drng call).2 = nextCtx sha3_256 drng := rfl

/-- In every sequence of draws, each one reads its bits off the stream of the seed that
the generator has after as many steps, whatever was asked for before. -/
theorem getRandomNumber_run (drng : DrngCtx) (calls : List (ℕ × Buf)) :
    let r := Machine.run (drawStep sha3_256) drng calls
    let state := fun k => (HashGenerator.next (seedHash sha3_256))^[k] drng.state
    r.1.length = calls.length ∧ r.2.state = state calls.length ∧
    ∀ k (hk : k < calls.length), ∃ out, r.1[k]? = some (0, out) ∧
      (∀ j, divisionRoundUp calls[k].1 8 ≤ j → out j = calls[k].2 j) ∧
      ∀ i < 8 * divisionRoundUp calls[k].1 8, drawnBit out i =
        (decide (i < calls[k].1) && drawnBit (hashStream sha3_256 (state k).v) i) := by
  intro r state
  refine ⟨Machine.length_run _ _, ?_, fun k hk => ?_⟩
  · have hctx := Machine.run_state_of_autonomous (drawStep_ctx sha3_256) drng calls
    exact (congrArg DrngCtx.state hctx).trans (iterate_nextCtx_state sha3_256 _ _)
  · obtain ⟨out, hdraw, habove, hbits⟩ := getRandomNumber_spec sha3_256
      ((nextCtx sha3_256)^[k] drng) calls[k].2 calls[k].1
    rw [iterate_nextCtx_state] at hbits
    refine ⟨out, ?_, habove, hbits⟩
    refine (Machine.run_getElem_of_autonomous (drawStep_ctx sha3_256) drng calls hk).trans ?_
    rw [drawStep, hdraw]

/-- After any draws the counter has gone up by their number and the seed has grown by the
hashes, the constants and the counters; the contexts of two sequences of draws, none of which
makes the counter overflow, agree exactly when the sequences have the same length. -/
theorem getRandomNumber_contexts (drng : DrngCtx) (calls calls' : List (ℕ × Buf)) :
    let ctx := (Machine.run (drawStep sha3_256) drng calls).2
    let ctx' := (Machine.run (drawStep sha3_256) drng calls').2
    let n := calls.length
    let V : ℕ → SeedNumber := fun i =>
      ((HashGenerator.next (seedHash sha3_256))^[i] drng.state).v
    ctx.C = drng.C ∧
    seedNumber (bufOf ctx.reseedCounter) = seedNumber (bufOf drng.reseedCounter) + n ∧
    seedNumber (bufOf ctx.V) = seedNumber (bufOf drng.V) +
      (∑ i ∈ Finset.range n, seedHash sha3_256 (V i)) + n * seedNumber (bufOf drng.C) +
      n * seedNumber (bufOf drng.reseedCounter) + (n.choose 2 : ℕ) ∧
    (calls.length < (2 ^ 8) ^ 55 → calls'.length < (2 ^ 8) ^ 55 →
      (ctx = ctx' ↔ calls.length = calls'.length)) := by
  intro ctx ctx' n V
  have hctx : ctx = (nextCtx sha3_256)^[n] drng :=
    Machine.run_state_of_autonomous (drawStep_ctx sha3_256) drng calls
  have hctx' : ctx' = (nextCtx sha3_256)^[calls'.length] drng :=
    Machine.run_state_of_autonomous (drawStep_ctx sha3_256) drng calls'
  have hstate : ctx.state = (HashGenerator.next (seedHash sha3_256))^[n] drng.state := by
    rw [hctx, iterate_nextCtx_state]
  have hstate' : ctx'.state =
      (HashGenerator.next (seedHash sha3_256))^[calls'.length] drng.state := by
    rw [hctx', iterate_nextCtx_state]
  refine ⟨seedNumber_injective ?_, ?_, ?_, fun h h' => ⟨fun heq => ?_, fun hlen => ?_⟩⟩
  · exact (congrArg HashGenerator.State.c hstate).trans (HashGenerator.iterate_c _ n _)
  · exact (congrArg HashGenerator.State.counter hstate).trans
      (HashGenerator.iterate_counter _ n _)
  · exact (congrArg HashGenerator.State.v hstate).trans (HashGenerator.iterate_v _ n _)
  · rw [heq, hstate'] at hstate
    exact (HashGenerator.iterate_injective _ _ h' h hstate).symm
  · rw [hctx, hctx', show n = calls'.length from hlen]

/-- One draw and none, with a hash that is always zero. -/
theorem getRandomNumber_contexts_one_draw :
    (Machine.run (drawStep fun _ => Vector.replicate 32 0) DrngCtx.zero [(256, fun _ => 0)]).2 ≠
      (Machine.run (drawStep fun _ => Vector.replicate 32 0) DrngCtx.zero []).2 := by
  obtain ⟨-, -, -, hiff⟩ := getRandomNumber_contexts (fun _ => Vector.replicate 32 0) DrngCtx.zero
    [(256, fun _ => 0)] []
  exact fun heq => absurd ((hiff (by norm_num) (by norm_num)).mp heq) (by decide)

end Draws

section Instantiate

variable (sha3_256 : Sha3_256) (malloc : Malloc)

/-- What `SHA3_df` makes of a string: the first bytes of its hashes with the counters 1
and 2. -/
def hashDf (inputString : List Byte) : Bytes 55 := bytesOf 55 fun j =>
  bufOf (sha3_256 (dataToSha3 (BitVec.ofNat 8 (1 + j / 32)) inputString)) (j % 32)

/-- `SHA3_df` replaces the first bytes of its input, or leaves it alone when one of its
two allocations fails. -/
theorem sha3Df_eq (inputString : Buf) (len calls : ℕ) :
    sha3Df sha3_256 malloc inputString len calls =
      if malloc calls ∧ malloc (calls + 1) then
        (0, inputString.copy (hashDf sha3_256 (bytesOf len inputString).toList), calls + 2)
      else (-2, inputString, if malloc calls then calls + 2 else calls + 1) := by
  let msg := (bytesOf len inputString).toList
  let digest : Fin 2 → Buf := fun i =>
    bufOf (sha3_256 (dataToSha3 (BitVec.ofNat 8 (1 + i)) msg))
  have hloop : Written 0 (2 * 32) (Written.blocks 32 digest) (fun _ => 0)
      (Nat.fold 2 (fun i hi (b : Buf) => b.writeAt (i * 32) fun p =>
        p.copy (sha3_256 (dataToSha3 (BitVec.ofNat 8 (1 + i)) msg))) fun _ => 0) :=
    Written.fold_blocks (fun i hi b => copy_written b _) _
  have htemp : bytesOf 55 (Nat.fold 2 (fun i hi (b : Buf) => b.writeAt (i * 32) fun p =>
      p.copy (sha3_256 (dataToSha3 (BitVec.ofNat 8 (1 + i)) msg))) fun _ => 0) =
      hashDf sha3_256 msg := by
    refine bytesOf_congr fun j hj => ?_
    have hlt : j / 32 < 2 := by omega
    rw [hloop.inside (Nat.zero_le _) (by omega), Written.blocks, dif_pos hlt]
  rw [← htemp, sha3Df, show divisionRoundUp 55 32 = 2 from rfl]
  cases h : malloc calls
  · simp [sha3DfLoop, h]
  · cases h' : malloc (calls + 1)
    · simp [sha3DfLoop, h, h']
    · simp only [sha3DfLoop, h, h', and_self, if_true]
      rfl

/-- Instantiation fails only when its own allocation does. Where an allocation of
`SHA3_df` fails it still returns 0, and the seed, or the constant, is the padded input
instead of its hash. -/
theorem initRandomNumber_outcomes {len : ℕ} (seed : Bytes len) :
    let raw := Buf.copy (fun _ => 0) seed
    let V := if malloc 1 ∧ malloc 2 then hashDf sha3_256 seed.toList else bytesOf 55 raw
    let calls := if malloc 1 then 3 else 2
    let C := if malloc calls ∧ malloc (calls + 1) then hashDf sha3_256 (0x00 :: V.toList)
      else bytesOf 55 (paddedV 0x00 V)
    let r := initRandomNumber sha3_256 malloc seed
    if malloc 0 then r.1 = 0 ∧ r.2.V = V ∧ r.2.C = C ∧ r.2.state.counter = 1
    else r = (-2, DrngCtx.zero) := by
  intro raw V calls C r
  by_cases h0 : malloc 0
  · rw [if_pos h0]
    have hseed : sha3Df sha3_256 malloc raw len 1 =
        if malloc 1 ∧ malloc 2 then (0, raw.copy (hashDf sha3_256 seed.toList), 3)
        else (-2, raw, calls) := by
      rw [sha3Df_eq, bytesOf_copy]
    have hV : bytesOf 55 (sha3Df sha3_256 malloc raw len 1).2.1 = V := by
      rw [hseed]
      by_cases h : malloc 1 ∧ malloc 2
      · rw [if_pos h, bytesOf_copy]
        exact (if_pos h).symm
      · rw [if_neg h]
        exact (if_neg h).symm
    have hcalls : (sha3Df sha3_256 malloc raw len 1).2.2 = calls := by
      rw [hseed]
      by_cases h : malloc 1 ∧ malloc 2
      · rw [if_pos h]
        exact (if_pos h.1).symm
      · rw [if_neg h]
    have hC : bytesOf 55 (sha3Df sha3_256 malloc (paddedV 0x00 V) 56 calls).2.1 = C := by
      rw [sha3Df_eq, bytesOf_paddedV]
      by_cases h : malloc calls ∧ malloc (calls + 1)
      · rw [if_pos h, bytesOf_copy]
        exact (if_pos h).symm
      · rw [if_neg h]
        exact (if_neg h).symm
    have hr : r = (0, ⟨V, C, bytesOf 55 (incBigNumber (bufOf DrngCtx.zero.reseedCounter) 55)⟩) := by
      rw [← hC, ← hcalls, ← hV]
      exact if_pos h0
    have hzero : seedNumber (bufOf DrngCtx.zero.reseedCounter) = 0 := by
      have hbytes : ∀ i < 55, bufOf DrngCtx.zero.reseedCounter i = 0 := fun i hi => by
        rw [bufOf_apply _ hi, DrngCtx.zero, Vector.getElem_replicate]
      rw [seedNumber, value_congr hbytes, value_zeros, Nat.cast_zero]
    rw [hr]
    refine ⟨rfl, rfl, rfl, (seedNumber_bytesOf _).trans ?_⟩
    rw [seedNumber_incBigNumber, hzero, zero_add]
  · rw [if_neg h0]
    exact if_neg h0

end Instantiate

end RrlwrKem
