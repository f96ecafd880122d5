import RrlwrKem.Arith.MessageCodec
import RrlwrKem.Library.CArith
import RrlwrKem.Library.Checked

/-!
# The two builds of the packing layer

The packing functions with the types that the C compiler gives to their operands:
with `RRLWR_PACKING_16BIT_SCALAR=1` almost everything is promoted to `int`, with
`RRLWR_PACKING_16BIT_SCALAR=0` it is `uint32_t`. Each function is evaluated with
every operation checked, and so are the bytes that it loads; where it succeeds it is
the function of the plain model.
-/

namespace RrlwrKem.CBuild

open ArrayPolynomial BitStream CArith CArith.Expr Checked

/-- The values of `RRLWR_PACKING_16BIT_SCALAR`. -/
inductive Build where
  | scalar16
  | scalar32
  deriving DecidableEq, Repr

/-- What a `pack_scalar_t` is promoted to. -/
def Build.type : Build → CType
  | .scalar16 => .int
  | .scalar32 => .uint

section Definitions

section Scalars

variable {ρ : Reading} (bld : Build)

/-- `PACK_SCALAR(x)`, and the conversion of a value stored in a `pack_scalar_t`. -/
def packScalar (e : Expr ρ) : Expr ρ :=
  match bld with
  | .scalar16 => Option.bind e.toU16 fun x => (ofU16 x : Expr ρ)
  | .scalar32 => e.toUint

/-- `PACK_ACC(x)`. -/
def packAcc (x : U16) : Expr ρ :=
  match bld with
  | .scalar16 => ofU16 x
  | .scalar32 => (ofU16 x).toUint

/-- `PACK_BYTE(x)`. -/
def packByte (x : Option Byte) : Expr ρ :=
  match bld with
  | .scalar16 => ofU8 x
  | .scalar32 => (ofU8 x).toUint

/-- `r->coeffs[p]`. -/
def loadCoeff (r : Poly) (p : ℕ) : Expr ρ := (Checked.load r p).bind fun x => (ofU16 x : Expr ρ)

/-- The assignment `b[p] = (unsigned char)e`. -/
def storeByte (b : Option Buf) (p : ℕ) (e : Expr ρ) : Option Buf :=
  b.bind fun b => e.toU8.map fun x => b.set p x

/-- The assignment `r->coeffs[p] = (uint16_t)e`. -/
def storeCoeff (r : Option Poly) (p : ℕ) (e : Expr ρ) : Option Poly :=
  r.bind fun r => e.toU16.bind fun x => Checked.store r p x

end Scalars

variable (ρ : Reading) (bld : Build)

theorem octet_lt {i : ℕ} (hi : i < 16) (t : Fin 8) : 8 * i + t.val < 128 := by omega

theorem pass_lt {block i : ℕ} (hb : block < 4) (hi : i < 32) : 32 * block + i < 128 := by omega

/-- `acc[8 * i + t]`. -/
def octet (acc : Poly) {i : ℕ} (hi : i < 16) (t : Fin 8) : U16 :=
  acc.get ⟨8 * i + t.val, octet_lt hi t⟩

def polyPack2 (b : Buf) (r : Poly) : Option Buf :=
  loop 32 (fun i _ b =>
    let c0 : Expr ρ := packScalar bld ((1 - loadCoeff r (4 * i)) &&& 0x3)
    let c1 := packScalar bld ((1 - loadCoeff r (4 * i + 1)) &&& 0x3)
    let c2 := packScalar bld ((1 - loadCoeff r (4 * i + 2)) &&& 0x3)
    let c3 := packScalar bld ((1 - loadCoeff r (4 * i + 3)) &&& 0x3)
    storeByte (some b) i (c0 ||| c1 <<< 2 ||| c2 <<< 4 ||| c3 <<< 6)) b

def polyPack11 (b : Buf) (r : Poly) : Option Buf :=
  loop 16 (fun i _ b =>
    let c0 : Expr ρ := packScalar bld ((1023 - loadCoeff r (8 * i)) &&& 0x7ff)
    let c1 := packScalar bld ((1023 - loadCoeff r (8 * i + 1)) &&& 0x7ff)
    let c2 := packScalar bld ((1023 - loadCoeff r (8 * i + 2)) &&& 0x7ff)
    let c3 := packScalar bld ((1023 - loadCoeff r (8 * i + 3)) &&& 0x7ff)
    let c4 := packScalar bld ((1023 - loadCoeff r (8 * i + 4)) &&& 0x7ff)
    let c5 := packScalar bld ((1023 - loadCoeff r (8 * i + 5)) &&& 0x7ff)
    let c6 := packScalar bld ((1023 - loadCoeff r (8 * i + 6)) &&& 0x7ff)
    let c7 := packScalar bld ((1023 - loadCoeff r (8 * i + 7)) &&& 0x7ff)
    let p := 11 * i
    let b := storeByte (some b) p c0
    let b := storeByte b (p + 1) (c0 >>> 8 ||| c1 <<< 3)
    let b := storeByte b (p + 2) (c1 >>> 5 ||| c2 <<< 6)
    let b := storeByte b (p + 3) (c2 >>> 2)
    let b := storeByte b (p + 4) (c2 >>> 10 ||| c3 <<< 1)
    let b := storeByte b (p + 5) (c3 >>> 7 ||| c4 <<< 4)
    let b := storeByte b (p + 6) (c4 >>> 4 ||| c5 <<< 7)
    let b := storeByte b (p + 7) (c5 >>> 1)
    let b := storeByte b (p + 8) (c5 >>> 9 ||| c6 <<< 2)
    let b := storeByte b (p + 9) (c6 >>> 6 ||| c7 <<< 5)
    storeByte b (p + 10) (c7 >>> 3)) b

/-- One pass of the loop that makes the coefficients positive. -/
def complementCode (bitlen : ℕ) (c : U16) : Option U16 :=
  ((((1 : Expr ρ) <<< ((bitlen : ℤ) - 1)) - 1 - ofU16 c) &&&
    (((1 : Expr ρ) <<< (bitlen : ℤ)) - 1)).toU16

/-- One pass of the packing loop. Only the shift count can be wrong: `acc` and
`acc_shift` are unsigned. -/
def packStep (bitlen : ℕ) (c : U16) (s : PackState) : Option PackState :=
  (ofU32 s.acc ||| (ofU16 c).toUint <<< s.accShift : Expr ρ).toU32.map fun acc =>
    packFlush { s with acc, accShift := (s.accShift + bitlen) % 2 ^ 32 }

def polyPackLoop (b : Buf) (r : Poly) (bitlen : ℕ) : Option Buf :=
  (loop 128 (fun i hi rp => (complementCode ρ bitlen (r.get ⟨i, hi⟩)).map fun x => rp.set i x)
    (Vector.replicate 128 0 : Poly)).bind fun rp =>
  (loop 4 (fun block hb s => loop 32 (fun i hi s =>
      packStep ρ bitlen (rp.get ⟨32 * block + i, pass_lt hb hi⟩) s) s)
    { b, acc := 0, accShift := 0, bpos := 0 }).map PackState.b

def polyPack (b : Buf) (r : Poly) (bitlen : ℕ) : Option Buf :=
  if bitlen = 2 then polyPack2 ρ bld b r
  else if bitlen = 11 then polyPack11 ρ bld b r
  else polyPackLoop ρ b r bitlen

def polyUnpack2 (r : Poly) (b : ℕ → Option Byte) : Option Poly :=
  let qmask : Expr ρ := packScalar bld 8191
  loop 32 (fun i _ r =>
    let x : Expr ρ := packScalar bld (ofU8 (b i))
    let r := storeCoeff (some r) (4 * i) (((1 : Expr ρ) - (x &&& 0x3)) &&& qmask)
    let r := storeCoeff r (4 * i + 1) (((1 : Expr ρ) - (x >>> 2 &&& 0x3)) &&& qmask)
    let r := storeCoeff r (4 * i + 2) (((1 : Expr ρ) - (x >>> 4 &&& 0x3)) &&& qmask)
    storeCoeff r (4 * i + 3) (((1 : Expr ρ) - x >>> 6) &&& qmask)) r

def polyUnpack11 (r : Poly) (b : ℕ → Option Byte) : Option Poly :=
  loop 16 (fun i _ r =>
    let p : ℕ → Expr ρ := fun j => packByte bld (b (11 * i + j))
    let c0 := packScalar bld ((p 0 ||| p 1 <<< 8) &&& 0x7ff)
    let c1 := packScalar bld ((p 1 >>> 3 ||| p 2 <<< 5) &&& 0x7ff)
    let c2 := packScalar bld ((p 2 >>> 6 ||| p 3 <<< 2 ||| p 4 <<< 10) &&& 0x7ff)
    let c3 := packScalar bld ((p 4 >>> 1 ||| p 5 <<< 7) &&& 0x7ff)
    let c4 := packScalar bld ((p 5 >>> 4 ||| p 6 <<< 4) &&& 0x7ff)
    let c5 := packScalar bld ((p 6 >>> 7 ||| p 7 <<< 1 ||| p 8 <<< 9) &&& 0x7ff)
    let c6 := packScalar bld ((p 8 >>> 2 ||| p 9 <<< 6) &&& 0x7ff)
    let c7 := packScalar bld ((p 9 >>> 5 ||| p 10 <<< 3) &&& 0x7ff)
    let r := storeCoeff (some r) (8 * i) ((1023 - c0) &&& 0x7ff)
    let r := storeCoeff r (8 * i + 1) ((1023 - c1) &&& 0x7ff)
    let r := storeCoeff r (8 * i + 2) ((1023 - c2) &&& 0x7ff)
    let r := storeCoeff r (8 * i + 3) ((1023 - c3) &&& 0x7ff)
    let r := storeCoeff r (8 * i + 4) ((1023 - c4) &&& 0x7ff)
    let r := storeCoeff r (8 * i + 5) ((1023 - c5) &&& 0x7ff)
    let r := storeCoeff r (8 * i + 6) ((1023 - c6) &&& 0x7ff)
    storeCoeff r (8 * i + 7) ((1023 - c7) &&& 0x7ff)) r

def polyUnpack13 (r : Poly) (b : ℕ → Option Byte) : Option Poly :=
  loop 16 (fun i _ r =>
    let p : ℕ → Expr ρ := fun j => packByte bld (b (13 * i + j))
    let c0 := packScalar bld ((p 0 ||| p 1 <<< 8) &&& 0x1fff)
    let c1 := packScalar bld ((p 1 >>> 5 ||| p 2 <<< 3 ||| p 3 <<< 11) &&& 0x1fff)
    let c2 := packScalar bld ((p 3 >>> 2 ||| p 4 <<< 6) &&& 0x1fff)
    let c3 := packScalar bld ((p 4 >>> 7 ||| p 5 <<< 1 ||| p 6 <<< 9) &&& 0x1fff)
    let c4 := packScalar bld ((p 6 >>> 4 ||| p 7 <<< 4 ||| p 8 <<< 12) &&& 0x1fff)
    let c5 := packScalar bld ((p 8 >>> 1 ||| p 9 <<< 7) &&& 0x1fff)
    let c6 := packScalar bld ((p 9 >>> 6 ||| p 10 <<< 2 ||| p 11 <<< 10) &&& 0x1fff)
    let c7 := packScalar bld ((p 11 >>> 3 ||| p 12 <<< 5) &&& 0x1fff)
    let r := storeCoeff (some r) (8 * i) ((4095 - c0) &&& 0x1fff)
    let r := storeCoeff r (8 * i + 1) ((4095 - c1) &&& 0x1fff)
    let r := storeCoeff r (8 * i + 2) ((4095 - c2) &&& 0x1fff)
    let r := storeCoeff r (8 * i + 3) ((4095 - c3) &&& 0x1fff)
    let r := storeCoeff r (8 * i + 4) ((4095 - c4) &&& 0x1fff)
    let r := storeCoeff r (8 * i + 5) ((4095 - c5) &&& 0x1fff)
    let r := storeCoeff r (8 * i + 6) ((4095 - c6) &&& 0x1fff)
    storeCoeff r (8 * i + 7) ((4095 - c7) &&& 0x1fff)) r

/-- The variables of the unpacking loop; `acc_shift` is an `int32_t`. -/
structure UnpackState where
  r : Poly
  acc : U32
  accShift : ℤ
  bpos : ℕ

/-- `while (acc_shift < bitlen)`. -/
def unpackRefill (bitlen : ℤ) (b : ℕ → Option Byte) (s : UnpackState) : Option UnpackState :=
  if s.accShift < bitlen then
    (ofU32 s.acc ||| (ofU8 (b s.bpos)).toUint <<< s.accShift : Expr ρ).toU32.bind fun acc =>
      if s.accShift + 8 < 2 ^ 31 then
        unpackRefill bitlen b
          { s with acc, accShift := s.accShift + 8, bpos := s.bpos + 1 }
      else none
  else some s
termination_by (bitlen - s.accShift).toNat

def unpackStep (bitlen : ℤ) (b : ℕ → Option Byte) (i : ℕ) (s : UnpackState) :
    Option UnpackState :=
  (unpackRefill ρ bitlen b s).bind fun s =>
    (storeCoeff (some s.r) i (ofU32 s.acc &&& ((1 : Expr ρ) <<< bitlen - 1))).bind fun r =>
      (ofU32 s.acc >>> bitlen : Expr ρ).toU32.bind fun acc =>
        if -2 ^ 31 ≤ s.accShift - bitlen then
          some { s with r, acc, accShift := s.accShift - bitlen }
        else none

def polyUnpackLoop (r : Poly) (b : ℕ → Option Byte) (bitlen : ℕ) : Option Poly :=
  (loop 4 (fun block _ s => loop 32 (fun i _ s => unpackStep ρ bitlen b (32 * block + i) s) s)
    { r, acc := 0, accShift := 0, bpos := 0 }).bind fun s =>
  loop 128 (fun i hi r => (complementCode ρ bitlen (r.get ⟨i, hi⟩)).map fun x => r.set i x) s.r

def polyUnpack (r : Poly) (b : ℕ → Option Byte) (bitlen : ℕ) : Option Poly :=
  if bitlen = 2 then polyUnpack2 ρ bld r b
  else if bitlen = 13 then polyUnpack13 ρ bld r b
  else if bitlen = 11 then polyUnpack11 ρ bld r b
  else polyUnpackLoop ρ r b bitlen

variable {ρ}

/-- `(half - (((PACK_ACC(x) + 2) & 0x7ff) >> drop) - (mj << top)) & mask`. -/
def ciphertextField (half mask drop top : ℕ) (x : U16) (mj : Expr ρ) : Expr ρ :=
  (lit half - ((packAcc bld x + 2) &&& 0x7ff) >>> drop - mj <<< top) &&& lit mask

/-- `PACK_SCALAR((((((PACK_ACC(x) & 0x7ff) - ((half - c) << drop) + h2) & 0x7ff) + 512)
>> 10) & 1)`. -/
def messageField (half h2 drop : ℕ) (x : U16) (c : Expr ρ) : Expr ρ :=
  let cm : Expr ρ := (lit half - c) <<< drop
  let d : Expr ρ := (((packAcc bld x &&& 0x7ff) - cm + lit h2) &&& 0x7ff) + 512
  packScalar bld (d >>> 10 &&& 1)

variable (ρ)

def polyPackCiphertext3 (ct : Buf) (acc : Poly) (msg : ℕ → Option Byte) (out : ℕ) : Option Buf :=
  loop (128 / 8) (fun i hi ct =>
    let m : Expr ρ := packScalar bld (ofU8 (msg (out * 128 / 8 + i)))
    let c0 := packScalar bld (ciphertextField bld 3 7 8 2 (octet acc hi 0) (m &&& 1))
    let c1 := packScalar bld (ciphertextField bld 3 7 8 2 (octet acc hi 1) (m >>> 1 &&& 1))
    let c2 := packScalar bld (ciphertextField bld 3 7 8 2 (octet acc hi 2) (m >>> 2 &&& 1))
    let c3 := packScalar bld (ciphertextField bld 3 7 8 2 (octet acc hi 3) (m >>> 3 &&& 1))
    let c4 := packScalar bld (ciphertextField bld 3 7 8 2 (octet acc hi 4) (m >>> 4 &&& 1))
    let c5 := packScalar bld (ciphertextField bld 3 7 8 2 (octet acc hi 5) (m >>> 5 &&& 1))
    let c6 := packScalar bld (ciphertextField bld 3 7 8 2 (octet acc hi 6) (m >>> 6 &&& 1))
    let c7 := packScalar bld (ciphertextField bld 3 7 8 2 (octet acc hi 7) (m >>> 7))
    let p := 3 * i
    let ct := storeByte (some ct) p (c0 ||| c1 <<< 3 ||| c2 <<< 6)
    let ct := storeByte ct (p + 1) (c2 >>> 2 ||| c3 <<< 1 ||| c4 <<< 4 ||| c5 <<< 7)
    storeByte ct (p + 2) (c5 >>> 1 ||| c6 <<< 2 ||| c7 <<< 5)) ct

def polyPackCiphertext8 (ct : Buf) (acc : Poly) (msg : ℕ → Option Byte) (out : ℕ) : Option Buf :=
  loop (128 / 8) (fun i hi ct =>
    let k := 8 * i
    let m : Expr ρ := packScalar bld (ofU8 (msg (out * 128 / 8 + i)))
    let ct := storeByte (some ct) k (ciphertextField bld 127 0xff 3 7 (octet acc hi 0) (m &&& 1))
    let ct := storeByte ct (k + 1)
      (ciphertextField bld 127 0xff 3 7 (octet acc hi 1) (m >>> 1 &&& 1))
    let ct := storeByte ct (k + 2)
      (ciphertextField bld 127 0xff 3 7 (octet acc hi 2) (m >>> 2 &&& 1))
    let ct := storeByte ct (k + 3)
      (ciphertextField bld 127 0xff 3 7 (octet acc hi 3) (m >>> 3 &&& 1))
    let ct := storeByte ct (k + 4)
      (ciphertextField bld 127 0xff 3 7 (octet acc hi 4) (m >>> 4 &&& 1))
    let ct := storeByte ct (k + 5)
      (ciphertextField bld 127 0xff 3 7 (octet acc hi 5) (m >>> 5 &&& 1))
    let ct := storeByte ct (k + 6)
      (ciphertextField bld 127 0xff 3 7 (octet acc hi 6) (m >>> 6 &&& 1))
    storeByte ct (k + 7) (ciphertextField bld 127 0xff 3 7 (octet acc hi 7) (m >>> 7))) ct

def polyPackCiphertextTFromAccMsg (logt : ℕ) (ct : Buf) (acc : Poly) (msg : ℕ → Option Byte)
    (out : ℕ) : Option Buf :=
  if logt = 3 then polyPackCiphertext3 ρ bld ct acc msg out
  else polyPackCiphertext8 ρ bld ct acc msg out

def polyPackMessage3 (m : Buf) (acc : Poly) (cm : ℕ → Option Byte) : Option Buf :=
  loop (128 / 8) (fun i hi m =>
    let cm0 : Expr ρ := ofU8 (cm (3 * i))
    let cm1 : Expr ρ := ofU8 (cm (3 * i + 1))
    let cm2 : Expr ρ := ofU8 (cm (3 * i + 2))
    let c0 := packScalar bld (cm0 &&& 0x7)
    let c1 := packScalar bld (cm0 >>> 3 &&& 0x7)
    let c2 := packScalar bld ((cm0 >>> 6 ||| cm1 <<< 2) &&& 0x7)
    let c3 := packScalar bld (cm1 >>> 1 &&& 0x7)
    let c4 := packScalar bld (cm1 >>> 4 &&& 0x7)
    let c5 := packScalar bld ((cm1 >>> 7 ||| cm2 <<< 1) &&& 0x7)
    let c6 := packScalar bld (cm2 >>> 2 &&& 0x7)
    let c7 := packScalar bld (cm2 >>> 5)
    let b0 := messageField bld 3 126 8 (octet acc hi 0) c0
    let b1 := messageField bld 3 126 8 (octet acc hi 1) c1
    let b2 := messageField bld 3 126 8 (octet acc hi 2) c2
    let b3 := messageField bld 3 126 8 (octet acc hi 3) c3
    let b4 := messageField bld 3 126 8 (octet acc hi 4) c4
    let b5 := messageField bld 3 126 8 (octet acc hi 5) c5
    let b6 := messageField bld 3 126 8 (octet acc hi 6) c6
    let b7 := messageField bld 3 126 8 (octet acc hi 7) c7
    storeByte (some m) i (b0 ||| b1 <<< 1 ||| b2 <<< 2 ||| b3 <<< 3 |||
      b4 <<< 4 ||| b5 <<< 5 ||| b6 <<< 6 ||| b7 <<< 7)) m

def polyPackMessage8 (m : Buf) (acc : Poly) (cm : ℕ → Option Byte) : Option Buf :=
  loop (128 / 8) (fun i hi m =>
    let k := 8 * i
    let c : ℕ → Expr ρ := fun j => packScalar bld (ofU8 (cm (k + j)))
    let b0 := messageField bld 127 2 3 (octet acc hi 0) (c 0)
    let b1 := messageField bld 127 2 3 (octet acc hi 1) (c 1)
    let b2 := messageField bld 127 2 3 (octet acc hi 2) (c 2)
    let b3 := messageField bld 127 2 3 (octet acc hi 3) (c 3)
    let b4 := messageField bld 127 2 3 (octet acc hi 4) (c 4)
    let b5 := messageField bld 127 2 3 (octet acc hi 5) (c 5)
    let b6 := messageField bld 127 2 3 (octet acc hi 6) (c 6)
    let b7 := messageField bld 127 2 3 (octet acc hi 7) (c 7)
    storeByte (some m) i (b0 ||| b1 <<< 1 ||| b2 <<< 2 ||| b3 <<< 3 |||
      b4 <<< 4 ||| b5 <<< 5 ||| b6 <<< 6 ||| b7 <<< 7)) m

def polyPackMessageFromAccCm (logt : ℕ) (m : Buf) (acc : Poly) (cm : ℕ → Option Byte) :
    Option Buf :=
  if logt = 3 then polyPackMessage3 ρ bld m acc cm else polyPackMessage8 ρ bld m acc cm

end Definitions

section Scalars

variable {ρ : Reading} (bld : Build) {t : CType} {e : Expr ρ} {x : U32} {n : ℕ}

/-- A `pack_scalar_t` keeps sixteen bits in both builds. -/
theorem packScalar_narrow (hn : n ≤ 16) (h : Narrow t e x n) :
    Narrow bld.type (packScalar bld e) x n := by
  cases bld with
  | scalar16 =>
    have hx : (x.setWidth 16).setWidth 32 = x := by
      have hlt : x.toNat < 2 ^ 16 := h.lt.trans_le (Nat.pow_le_pow_right (by norm_num) hn)
      apply BitVec.eq_of_toNat_eq
      rw [BitVec.toNat_setWidth, BitVec.toNat_setWidth]
      omega
    refine ⟨?_, h.lt, fun _ => by omega⟩
    rw [packScalar, h.toU16]
    exact congrArg (fun y => some (Value.mk .int y)) hx
  | scalar32 => exact h.toUint

theorem packAcc_narrow (x : U16) : Narrow bld.type (packAcc bld x : Expr ρ) (promote x) 16 := by
  cases bld with
  | scalar16 => exact narrow_ofU16 x
  | scalar32 => exact (narrow_ofU16 x).toUint

theorem packByte_narrow {o : Option Byte} {x : Byte} (ho : o = some x) :
    Narrow bld.type (packByte bld o : Expr ρ) (promoteByte x) 8 := by
  subst ho
  cases bld with
  | scalar16 => exact narrow_ofU8 x
  | scalar32 => exact (narrow_ofU8 x).toUint

theorem packScalar_byte {o : Option Byte} {x : Byte} (ho : o = some x) :
    Narrow bld.type (packScalar bld (ofU8 o : Expr ρ)) (promoteByte x) 8 := by
  subst ho
  exact packScalar_narrow bld (by omega) (narrow_ofU8 x)

theorem loadCoeff_narrow (r : Poly) {p : ℕ} (hp : p < 128) :
    Narrow .int (loadCoeff r p : Expr ρ) (promote r[p]) 16 := by
  rw [loadCoeff, load_eq hp]
  exact narrow_ofU16 r[p]

theorem storeByte_eq {b : Option Buf} {b' : Buf} (hb : b = some b') (h : Narrow t e x n) (p : ℕ) :
    storeByte b p e = some (b'.set p (toByte x)) := by
  rw [storeByte, hb, h.toU8]
  rfl

theorem storeCoeff_eq {r : Option Poly} {r' : Poly} (hr : r = some r') (h : Narrow t e x n) {p : ℕ}
    (hp : p < 128) : storeCoeff r p e = some (r'.set p (toU16 x)) := by
  rw [storeCoeff, hr, h.toU16]
  exact Checked.store_eq hp _

end Scalars

section Unrolled

variable (ρ : Reading) (bld : Build)

theorem polyPack2_eq (b : Buf) (r : Poly) :
    polyPack2 ρ bld b r = some (RrlwrKem.polyPack2 b r) := by
  refine loop_eq_fold fun i hi b => ?_
  have c : ∀ k (hk : k < 128), Narrow bld.type
      (packScalar bld (((1 : Expr ρ) - loadCoeff r k) &&& 0x3))
      ((1 - promote r[k]) &&& 0x3) 2 := fun k hk =>
    packScalar_narrow bld (by omega)
      ((loadCoeff_narrow r hk).sub_masked 1 (by omega) (narrow_lit 3 2 (by omega)))
  have c0 := c (4 * i) (by omega)
  have c1 := c (4 * i + 1) (by omega)
  have c2 := c (4 * i + 2) (by omega)
  have c3 := c (4 * i + 3) (by omega)
  exact storeByte_eq rfl
    (((c0.or (c1.shl 2 (by omega))).or (c2.shl 4 (by omega))).or (c3.shl 6 (by omega))) i

theorem polyPack11_eq (b : Buf) (r : Poly) :
    polyPack11 ρ bld b r = some (RrlwrKem.polyPack11 b r) := by
  refine loop_eq_fold fun i hi b => ?_
  have c : ∀ k (hk : k < 128), Narrow bld.type
      (packScalar bld (((1023 : Expr ρ) - loadCoeff r k) &&& 0x7ff))
      ((1023 - promote r[k]) &&& 0x7ff) 11 := fun k hk =>
    packScalar_narrow bld (by omega)
      ((loadCoeff_narrow r hk).sub_masked 1023 (by omega) (narrow_lit 0x7ff 11 (by omega)))
  have c0 := c (8 * i) (by omega)
  have c1 := c (8 * i + 1) (by omega)
  have c2 := c (8 * i + 2) (by omega)
  have c3 := c (8 * i + 3) (by omega)
  have c4 := c (8 * i + 4) (by omega)
  have c5 := c (8 * i + 5) (by omega)
  have c6 := c (8 * i + 6) (by omega)
  have c7 := c (8 * i + 7) (by omega)
  have h0 := storeByte_eq (b := some b) rfl c0 (11 * i)
  have h1 := storeByte_eq h0 (c0.shr_or_shl c1 8 3 (by omega)) (11 * i + 1)
  have h2 := storeByte_eq h1 (c1.shr_or_shl c2 5 6 (by omega)) (11 * i + 2)
  have h3 := storeByte_eq h2 (c2.shr 2 (by omega)) (11 * i + 3)
  have h4 := storeByte_eq h3 (c2.shr_or_shl c3 10 1 (by omega)) (11 * i + 4)
  have h5 := storeByte_eq h4 (c3.shr_or_shl c4 7 4 (by omega)) (11 * i + 5)
  have h6 := storeByte_eq h5 (c4.shr_or_shl c5 4 7 (by omega)) (11 * i + 6)
  have h7 := storeByte_eq h6 (c5.shr 1 (by omega)) (11 * i + 7)
  have h8 := storeByte_eq h7 (c5.shr_or_shl c6 9 2 (by omega)) (11 * i + 8)
  have h9 := storeByte_eq h8 (c6.shr_or_shl c7 6 5 (by omega)) (11 * i + 9)
  exact storeByte_eq h9 (c7.shr 3 (by omega)) (11 * i + 10)

theorem polyUnpack2_eq (r : Poly) {b : ℕ → Option Byte} {b' : Buf}
    (hb : ∀ j < 32, b j = some (b' j)) :
    polyUnpack2 ρ bld r b = some (RrlwrKem.polyUnpack2 r b') := by
  have qmask : Narrow bld.type (packScalar bld (8191 : Expr ρ)) 8191 13 :=
    packScalar_narrow bld (by omega) (narrow_lit 8191 13 (by omega))
  rw [polyUnpack2, RrlwrKem.polyUnpack2]
  refine loop_eq_fold fun i hi r => ?_
  have x : Narrow bld.type (packScalar bld (ofU8 (b i) : Expr ρ)) (promoteByte (b' i)) 8 :=
    packScalar_byte bld (hb i hi)
  have two : Narrow .int (3 : Expr ρ) 3 2 := narrow_lit 3 2 (by omega)
  have h0 := storeCoeff_eq (r := some r) rfl ((x.and two).sub_masked 1 (by omega) qmask)
    (show 4 * i < 128 by omega)
  have h1 := storeCoeff_eq h0 (((x.shr 2 (by omega)).and two).sub_masked 1 (by omega) qmask)
    (show 4 * i + 1 < 128 by omega)
  have h2 := storeCoeff_eq h1 (((x.shr 4 (by omega)).and two).sub_masked 1 (by omega) qmask)
    (show 4 * i + 2 < 128 by omega)
  exact storeCoeff_eq h2 ((x.shr 6 (by omega)).sub_masked 1 (by omega) qmask)
    (show 4 * i + 3 < 128 by omega)

theorem polyUnpack11_eq (r : Poly) {b : ℕ → Option Byte} {b' : Buf}
    (hb : ∀ j < 176, b j = some (b' j)) :
    polyUnpack11 ρ bld r b = some (RrlwrKem.polyUnpack11 r b') := by
  refine loop_eq_fold fun i hi r => ?_
  have p : ∀ j, j < 11 → Narrow bld.type (packByte bld (b (11 * i + j)) : Expr ρ)
      (promoteByte (b' (11 * i + j))) 8 := fun j hj =>
    packByte_narrow bld (hb (11 * i + j) (by omega))
  have p0 := p 0 (by omega)
  have p1 := p 1 (by omega)
  have p2 := p 2 (by omega)
  have p3 := p 3 (by omega)
  have p4 := p 4 (by omega)
  have p5 := p 5 (by omega)
  have p6 := p 6 (by omega)
  have p7 := p 7 (by omega)
  have p8 := p 8 (by omega)
  have p9 := p 9 (by omega)
  have p10 := p 10 (by omega)
  have mask : Narrow .int (0x7ff : Expr ρ) 0x7ff 11 := narrow_lit 0x7ff 11 (by omega)
  have c0 := packScalar_narrow bld (by omega) ((p0.or (p1.shl 8 (by omega))).and mask)
  have c1 := packScalar_narrow bld (by omega) ((p1.shr_or_shl p2 3 5 (by omega)).and mask)
  have c2 := packScalar_narrow bld (by omega)
    (((p2.shr_or_shl p3 6 2 (by omega)).or (p4.shl 10 (by omega))).and mask)
  have c3 := packScalar_narrow bld (by omega) ((p4.shr_or_shl p5 1 7 (by omega)).and mask)
  have c4 := packScalar_narrow bld (by omega) ((p5.shr_or_shl p6 4 4 (by omega)).and mask)
  have c5 := packScalar_narrow bld (by omega)
    (((p6.shr_or_shl p7 7 1 (by omega)).or (p8.shl 9 (by omega))).and mask)
  have c6 := packScalar_narrow bld (by omega) ((p8.shr_or_shl p9 2 6 (by omega)).and mask)
  have c7 := packScalar_narrow bld (by omega) ((p9.shr_or_shl p10 5 3 (by omega)).and mask)
  have h0 := storeCoeff_eq (r := some r) rfl (c0.sub_masked 1023 (by omega) mask)
    (show 8 * i < 128 by omega)
  have h1 := storeCoeff_eq h0 (c1.sub_masked 1023 (by omega) mask) (show 8 * i + 1 < 128 by omega)
  have h2 := storeCoeff_eq h1 (c2.sub_masked 1023 (by omega) mask) (show 8 * i + 2 < 128 by omega)
  have h3 := storeCoeff_eq h2 (c3.sub_masked 1023 (by omega) mask) (show 8 * i + 3 < 128 by omega)
  have h4 := storeCoeff_eq h3 (c4.sub_masked 1023 (by omega) mask) (show 8 * i + 4 < 128 by omega)
  have h5 := storeCoeff_eq h4 (c5.sub_masked 1023 (by omega) mask) (show 8 * i + 5 < 128 by omega)
  have h6 := storeCoeff_eq h5 (c6.sub_masked 1023 (by omega) mask) (show 8 * i + 6 < 128 by omega)
  exact storeCoeff_eq h6 (c7.sub_masked 1023 (by omega) mask) (show 8 * i + 7 < 128 by omega)

theorem polyUnpack13_eq (r : Poly) {b : ℕ → Option Byte} {b' : Buf}
    (hb : ∀ j < 208, b j = some (b' j)) :
    polyUnpack13 ρ bld r b = some (RrlwrKem.polyUnpack13 r b') := by
  refine loop_eq_fold fun i hi r => ?_
  have p : ∀ j, j < 13 → Narrow bld.type (packByte bld (b (13 * i + j)) : Expr ρ)
      (promoteByte (b' (13 * i + j))) 8 := fun j hj =>
    packByte_narrow bld (hb (13 * i + j) (by omega))
  have p0 := p 0 (by omega)
  have p1 := p 1 (by omega)
  have p2 := p 2 (by omega)
  have p3 := p 3 (by omega)
  have p4 := p 4 (by omega)
  have p5 := p 5 (by omega)
  have p6 := p 6 (by omega)
  have p7 := p 7 (by omega)
  have p8 := p 8 (by omega)
  have p9 := p 9 (by omega)
  have p10 := p 10 (by omega)
  have p11 := p 11 (by omega)
  have p12 := p 12 (by omega)
  have mask : Narrow .int (0x1fff : Expr ρ) 0x1fff 13 := narrow_lit 0x1fff 13 (by omega)
  have c0 := packScalar_narrow bld (by omega) ((p0.or (p1.shl 8 (by omega))).and mask)
  have c1 := packScalar_narrow bld (by omega)
    (((p1.shr_or_shl p2 5 3 (by omega)).or (p3.shl 11 (by omega))).and mask)
  have c2 := packScalar_narrow bld (by omega) ((p3.shr_or_shl p4 2 6 (by omega)).and mask)
  have c3 := packScalar_narrow bld (by omega)
    (((p4.shr_or_shl p5 7 1 (by omega)).or (p6.shl 9 (by omega))).and mask)
  have c4 := packScalar_narrow bld (by omega)
    (((p6.shr_or_shl p7 4 4 (by omega)).or (p8.shl 12 (by omega))).and mask)
  have c5 := packScalar_narrow bld (by omega) ((p8.shr_or_shl p9 1 7 (by omega)).and mask)
  have c6 := packScalar_narrow bld (by omega)
    (((p9.shr_or_shl p10 6 2 (by omega)).or (p11.shl 10 (by omega))).and mask)
  have c7 := packScalar_narrow bld (by omega) ((p11.shr_or_shl p12 3 5 (by omega)).and mask)
  have h0 := storeCoeff_eq (r := some r) rfl (c0.sub_masked 4095 (by omega) mask)
    (show 8 * i < 128 by omega)
  have h1 := storeCoeff_eq h0 (c1.sub_masked 4095 (by omega) mask) (show 8 * i + 1 < 128 by omega)
  have h2 := storeCoeff_eq h1 (c2.sub_masked 4095 (by omega) mask) (show 8 * i + 2 < 128 by omega)
  have h3 := storeCoeff_eq h2 (c3.sub_masked 4095 (by omega) mask) (show 8 * i + 3 < 128 by omega)
  have h4 := storeCoeff_eq h3 (c4.sub_masked 4095 (by omega) mask) (show 8 * i + 4 < 128 by omega)
  have h5 := storeCoeff_eq h4 (c5.sub_masked 4095 (by omega) mask) (show 8 * i + 5 < 128 by omega)
  have h6 := storeCoeff_eq h5 (c6.sub_masked 4095 (by omega) mask) (show 8 * i + 6 < 128 by omega)
  exact storeCoeff_eq h6 (c7.sub_masked 4095 (by omega) mask) (show 8 * i + 7 < 128 by omega)

/-- The field that the fused packer computes; both of its differences may be negative. -/
theorem ciphertextField_narrow {logt : ℕ} (hlogt : logt = 3 ∨ logt = 8) (x : U16) {mj : Expr ρ}
    {y : U32} (h : Narrow bld.type mj y 1) : Narrow bld.type
      (ciphertextField bld (2 ^ (logt - 1) - 1) (2 ^ logt - 1) (11 - logt) (logt - 1) x mj)
      (RrlwrKem.ciphertextField (BitVec.ofNat 32 (2 ^ (logt - 1) - 1))
        (BitVec.ofNat 32 (2 ^ logt - 1)) (11 - logt) (logt - 1) x y) logt := by
  have hx : Narrow bld.type (packAcc bld x : Expr ρ) (promote x) 16 := packAcc_narrow bld x
  have hacc := (hx.within.add (within_lit 2 (by omega)) (by omega)).and
    (narrow_lit 0x7ff 11 (by omega))
  rcases hlogt with rfl | rfl
  · have hdiff := (within_lit 3 (by omega)).sub (hacc.shr 8 (by omega)).within (by omega)
    have hfield := (hdiff.sub (h.shl 2 (by omega)).within (by omega)).and
      (narrow_lit 7 3 (by omega))
    cases bld <;> exact hfield
  · have hdiff := (within_lit 127 (by omega)).sub (hacc.shr 3 (by omega)).within (by omega)
    have hfield := (hdiff.sub (h.shl 7 (by omega)).within (by omega)).and
      (narrow_lit 255 8 (by omega))
    cases bld <;> exact hfield

theorem messageByte_narrow {msg : ℕ → Option Byte} {msg' : Buf} (out : ℕ)
    (hm : ∀ j < 16, msg (out * 16 + j) = some (msg' (out * 16 + j))) {i : ℕ} (hi : i < 16) :
    Narrow bld.type (packScalar bld (ofU8 (msg (out * 128 / 8 + i)) : Expr ρ))
      (promoteByte (msg' (out * 128 / 8 + i))) 8 := by
  have hidx : out * 128 / 8 + i = out * 16 + i := by omega
  rw [hidx]
  exact packScalar_byte bld (hm i hi)

theorem polyPackCiphertext3_eq (ct : Buf) (acc : Poly) {msg : ℕ → Option Byte} {msg' : Buf}
    (out : ℕ) (hm : ∀ j < 16, msg (out * 16 + j) = some (msg' (out * 16 + j))) :
    polyPackCiphertext3 ρ bld ct acc msg out =
      some (RrlwrKem.polyPackCiphertext3 ct acc msg' out) := by
  refine loop_eq_fold fun i hi ct => ?_
  have m := messageByte_narrow ρ bld out hm hi
  have bit := fun k (hk : k < 32) => (m.shr k hk).mask 1 1 (by omega)
  have field : ∀ k (hk : k < 128) {mj : Expr ρ} {y : U32}, Narrow bld.type mj y 1 →
      Narrow bld.type (packScalar bld (ciphertextField bld 3 7 8 2 acc[k] mj))
        (RrlwrKem.ciphertextField 3 7 8 2 acc[k] y) 3 := fun k hk _ _ h =>
    packScalar_narrow bld (by omega) (ciphertextField_narrow ρ bld (.inl rfl) acc[k] h)
  have c0 := field (8 * i) (by omega) (m.mask 1 1 (by omega))
  have c1 := field (8 * i + 1) (by omega) (bit 1 (by omega))
  have c2 := field (8 * i + 2) (by omega) (bit 2 (by omega))
  have c3 := field (8 * i + 3) (by omega) (bit 3 (by omega))
  have c4 := field (8 * i + 4) (by omega) (bit 4 (by omega))
  have c5 := field (8 * i + 5) (by omega) (bit 5 (by omega))
  have c6 := field (8 * i + 6) (by omega) (bit 6 (by omega))
  have c7 := field (8 * i + 7) (by omega) (m.shr 7 (by omega))
  have h0 := storeByte_eq (b := some ct) rfl
    ((c0.or (c1.shl 3 (by omega))).or (c2.shl 6 (by omega))) (3 * i)
  have h1 := storeByte_eq h0
    (((c2.shr_or_shl c3 2 1 (by omega)).or (c4.shl 4 (by omega))).or (c5.shl 7 (by omega)))
    (3 * i + 1)
  exact storeByte_eq h1 ((c5.shr_or_shl c6 1 2 (by omega)).or (c7.shl 5 (by omega))) (3 * i + 2)

theorem polyPackCiphertext8_eq (ct : Buf) (acc : Poly) {msg : ℕ → Option Byte} {msg' : Buf}
    (out : ℕ) (hm : ∀ j < 16, msg (out * 16 + j) = some (msg' (out * 16 + j))) :
    polyPackCiphertext8 ρ bld ct acc msg out =
      some (RrlwrKem.polyPackCiphertext8 ct acc msg' out) := by
  refine loop_eq_fold fun i hi ct => ?_
  have m := messageByte_narrow ρ bld out hm hi
  have bit := fun k (hk : k < 32) => (m.shr k hk).mask 1 1 (by omega)
  have field : ∀ k (hk : k < 128) {mj : Expr ρ} {y : U32}, Narrow bld.type mj y 1 →
      Narrow bld.type (ciphertextField bld 127 0xff 3 7 acc[k] mj)
        (RrlwrKem.ciphertextField 127 0xff 3 7 acc[k] y) 8 := fun k hk _ _ h =>
    ciphertextField_narrow ρ bld (.inr rfl) acc[k] h
  have h0 := storeByte_eq (b := some ct) rfl (field (8 * i) (by omega) (m.mask 1 1 (by omega)))
    (8 * i)
  have h1 := storeByte_eq h0 (field (8 * i + 1) (by omega) (bit 1 (by omega))) (8 * i + 1)
  have h2 := storeByte_eq h1 (field (8 * i + 2) (by omega) (bit 2 (by omega))) (8 * i + 2)
  have h3 := storeByte_eq h2 (field (8 * i + 3) (by omega) (bit 3 (by omega))) (8 * i + 3)
  have h4 := storeByte_eq h3 (field (8 * i + 4) (by omega) (bit 4 (by omega))) (8 * i + 4)
  have h5 := storeByte_eq h4 (field (8 * i + 5) (by omega) (bit 5 (by omega))) (8 * i + 5)
  have h6 := storeByte_eq h5 (field (8 * i + 6) (by omega) (bit 6 (by omega))) (8 * i + 6)
  exact storeByte_eq h6 (field (8 * i + 7) (by omega) (m.shr 7 (by omega))) (8 * i + 7)

theorem polyPackCiphertext_eq {logt : ℕ} (hlogt : logt = 3 ∨ logt = 8) (ct : Buf) (acc : Poly)
    {msg : ℕ → Option Byte} {msg' : Buf} (out : ℕ)
    (hm : ∀ j < 16, msg (out * 16 + j) = some (msg' (out * 16 + j))) :
    polyPackCiphertextTFromAccMsg ρ bld logt ct acc msg out =
      some (RrlwrKem.polyPackCiphertextTFromAccMsg logt ct acc msg' out) := by
  rcases hlogt with rfl | rfl
  · exact polyPackCiphertext3_eq ρ bld ct acc out hm
  · exact polyPackCiphertext8_eq ρ bld ct acc out hm

end Unrolled

section Generic

variable (ρ : Reading) {w : ℕ}

theorem complementCode_eq (hw1 : 1 ≤ w) (hw : w ≤ 16) (x : U16) :
    complementCode ρ w x = some (RrlwrKem.complementCode w x) := by
  have hmask : Narrow .int ((1 : Expr ρ) <<< w - 1) ((1 : U32) <<< w - 1) w :=
    narrow_lowMask (by omega)
  have hone : Narrow .int ((1 : Expr ρ) <<< (w - 1)) ((1 : U32) <<< (w - 1)) 16 :=
    ((narrow_lit 1 1 (by omega)).shl (w - 1) (by omega)).mono (by omega) (by omega)
  rw [complementCode, shiftLeft_int _ (show ((w : ℤ) - 1) = (w - 1 : ℕ) by omega),
    shiftLeft_int _ (show (w : ℤ) = w from rfl)]
  have hdiff := (hone.within.sub (within_lit 1 (by omega)) (by omega)).sub
    (narrow_ofU16 x).within (by omega)
  exact (hdiff.and hmask).toU16

theorem packFlush_accShift_lt (s : PackState) : (packFlush s).accShift < 8 := by
  induction s using packFlush.induct with
  | case1 s hge ih =>
    rw [packFlush, if_pos hge]
    exact ih
  | case2 s hlt =>
    rw [packFlush, if_neg hlt]
    omega

theorem packStep_eq (hw : w ≤ 16) (c : U16) {s : PackState} (hs : s.accShift < 8) :
    packStep ρ w c s = some (RrlwrKem.packStep w c s) := by
  have hs32 : Narrow .uint (ofU32 s.acc : Expr ρ) s.acc 32 := narrow_ofU32 s.acc
  have hc16 : Narrow .int (ofU16 c : Expr ρ) (promote c) 16 := narrow_ofU16 c
  have hacc := hs32.or (hc16.toUint.shl s.accShift (by omega))
  rw [packStep, hacc.toU32, Nat.mod_eq_of_lt (by omega)]
  rfl

theorem polyPackLoop_eq (hw1 : 1 ≤ w) (hw : w ≤ 16) (b : Buf) (r : Poly) :
    polyPackLoop ρ b r w = some (RrlwrKem.polyPackLoop b r w) := by
  have hcodes : loop 128 (fun i hi rp =>
        (complementCode ρ w (r.get ⟨i, hi⟩)).map fun x => rp.set i x)
      (Vector.replicate 128 0 : Poly) = some (r.map (RrlwrKem.complementCode w)) := by
    have hloop := loop_eq_fold (n := 128) (a := (Vector.replicate 128 0 : Poly))
      (f := fun i hi (rp : Poly) => (complementCode ρ w (r.get ⟨i, hi⟩)).map fun x => rp.set i x)
      (g := fun i hi (rp : Poly) => rp.set i (RrlwrKem.complementCode w (r.get ⟨i, hi⟩)))
      fun i hi rp => by rw [complementCode_eq ρ hw1 hw, Option.map_some]
    refine hloop.trans (congrArg some (Vector.ext fun i hi => ?_))
    rw [Vector.getElem_map]
    exact fold_set_get id (fun i : Fin 128 => RrlwrKem.complementCode w (r.get i))
      Function.injective_id (fun _ _ _ => rfl) _ ⟨i, hi⟩
  rw [polyPackLoop, hcodes]
  -- the accumulator holds less than a byte between two passes
  refine congrArg (Option.map PackState.b) (loop_eq_fold_of_invariant
    (fun _ (s : PackState) => s.accShift < 8) (by norm_num) fun block hb s hs => ?_).1
  refine loop_eq_fold_of_invariant (fun _ (s : PackState) => s.accShift < 8) hs fun i hi s hs => ?_
  exact ⟨packStep_eq ρ hw _ hs, packFlush_accShift_lt _⟩

theorem polyPack_eq (bld : Build) (hw1 : 1 ≤ w) (hw : w ≤ 16) (b : Buf) (r : Poly) :
    polyPack ρ bld b r w = some (RrlwrKem.polyPack b r w) := by
  rw [polyPack, RrlwrKem.polyPack]
  split_ifs
  · exact polyPack2_eq ρ bld b r
  · exact polyPack11_eq ρ bld b r
  · exact polyPackLoop_eq ρ hw1 hw b r

/-- The unpacking state with its `int32_t` counter. -/
def UnpackState.ofPlain (s : RrlwrKem.UnpackState) : UnpackState :=
  { r := s.r, acc := s.acc, accShift := s.accShift, bpos := s.bpos }

variable {b : ℕ → Option Byte} {b' : Buf} {N : ℕ}

/-- The loop that refills the accumulator reads bytes of the current coefficient only. -/
theorem unpackRefill_eq (hw : w ≤ 16) (hb : ∀ j < N, b j = some (b' j)) {p : ℕ}
    (hp : p + w ≤ 8 * N) {s : RrlwrKem.UnpackState} (hs : 8 * s.bpos = p + s.accShift) :
    unpackRefill ρ w b (.ofPlain s) = some (.ofPlain (RrlwrKem.unpackRefill w b' s)) := by
  induction s using RrlwrKem.unpackRefill.induct w b' with
  | case1 s hlt ih =>
    have hcast : (UnpackState.ofPlain s).accShift < w := Int.ofNat_lt.mpr hlt
    have hload : b (UnpackState.ofPlain s).bpos = some (b' s.bpos) := hb s.bpos (by omega)
    have hs32 : Narrow .uint (ofU32 s.acc : Expr ρ) s.acc 32 := narrow_ofU32 s.acc
    have hb8 : Narrow .int (ofU8 (some (b' s.bpos)) : Expr ρ) (promoteByte (b' s.bpos)) 8 :=
      narrow_ofU8 (b' s.bpos)
    have hacc := hs32.or (hb8.toUint.shl s.accShift (by omega))
    rw [unpackRefill, RrlwrKem.unpackRefill, if_pos hcast, if_pos hlt, hload,
      shiftLeft_int _ (show (UnpackState.ofPlain s).accShift = s.accShift from rfl)]
    have hrange : (UnpackState.ofPlain s).accShift + 8 < 2 ^ 31 := by omega
    have hih := ih (by simp only; omega)
    refine (congrArg (fun o => Option.bind o _) hacc.toU32).trans ?_
    rw [Option.bind_some, if_pos hrange, ← hih]
    rfl
  | case2 s hge =>
    have hcast : ¬ (UnpackState.ofPlain s).accShift < w := fun h => hge (Int.ofNat_lt.mp h)
    rw [unpackRefill, RrlwrKem.unpackRefill, if_neg hcast, if_neg hge]

theorem unpackStep_eq (hw : w ≤ 16) (hb : ∀ j < N, b j = some (b' j)) {i : ℕ} (hi : i < 128)
    (hN : 16 * w ≤ N) {s : RrlwrKem.UnpackState} (hs : UnpackInvariant b' (w * i) s) :
    unpackStep ρ w b i (.ofPlain s) = some (.ofPlain (RrlwrKem.unpackStep w b' i hi s)) := by
  have hp : w * i + w ≤ 8 * N := by
    have h := Nat.mul_le_mul_left w (show i + 1 ≤ 128 by omega)
    rw [Nat.mul_succ] at h
    omega
  obtain ⟨-, hge, -⟩ := unpackRefill_invariant hw hs
  rw [unpackStep, unpackRefill_eq ρ hw hb hp hs.position, Option.bind_some, RrlwrKem.unpackStep]
  generalize RrlwrKem.unpackRefill w b' s = s at hge
  have hmask : Narrow .int ((1 : Expr ρ) <<< w - 1) ((1 : U32) <<< w - 1) w :=
    narrow_lowMask (by omega)
  have hs32 : Narrow .uint (ofU32 s.acc : Expr ρ) s.acc 32 := narrow_ofU32 s.acc
  have hstore := storeCoeff_eq (r := some s.r) rfl (hs32.and hmask) hi
  have hshift : (ofU32 s.acc >>> (w : ℤ) : Expr ρ).toU32 = some (s.acc >>> w) := by
    rw [shiftRight_int _ rfl, ofU32_shr _ (by omega)]
    rfl
  have hsub : (s.accShift : ℤ) - w = (s.accShift - w : ℕ) := by omega
  have hrange : -2 ^ 31 ≤ (s.accShift : ℤ) - w := by omega
  rw [shiftLeft_int _ rfl]
  refine (congrArg (fun o => Option.bind o _) hstore).trans ?_
  rw [Option.bind_some]
  refine (congrArg (fun o => Option.bind o _) hshift).trans ?_
  rw [Option.bind_some]
  refine (if_pos hrange).trans (congrArg some ?_)
  rw [UnpackState.ofPlain, UnpackState.mk.injEq]
  exact ⟨rfl, rfl, hsub, rfl⟩

theorem polyUnpackLoop_eq (hw1 : 1 ≤ w) (hw : w ≤ 16) (r : Poly)
    (hb : ∀ j < 16 * w, b j = some (b' j)) :
    polyUnpackLoop ρ r b w = some (RrlwrKem.polyUnpackLoop r b' w) := by
  -- the checked state follows the plain one, whose invariant bounds the bytes read
  let R : ℕ → UnpackState → RrlwrKem.UnpackState → Prop := fun k s t =>
    s = .ofPlain t ∧ UnpackInvariant b' (w * k) t ∧
      Filled k (fun j => (rechunk 8 w b' j).setWidth 16) t.r
  have hloop := loop_simulates (n := 4)
    (f := fun block _ s => loop 32 (fun i _ s => unpackStep ρ w b (32 * block + i) s) s)
    (g := fun block hb s => Nat.fold 32 (fun i hi s =>
      RrlwrKem.unpackStep w b' (32 * block + i) (by omega) s) s)
    (a := { r, acc := 0, accShift := 0, bpos := 0 })
    (b := { r, acc := 0, accShift := 0, bpos := 0 })
    (fun block => R (32 * block)) ⟨rfl, ⟨by simp, window_zero _ _⟩, Filled.zero _ _⟩ (by
      intro block hblock s t hst
      refine loop_simulates (fun i => R (32 * block + i)) hst ?_
      rintro i hi s t ⟨rfl, hinv, hfill⟩
      obtain ⟨hinv', hfill'⟩ := unpackStep_invariant hw (by omega) hinv hfill
      exact ⟨_, unpackStep_eq ρ hw hb (by omega) le_rfl hinv, rfl, hinv', hfill'⟩)
  obtain ⟨s, hs, rfl, -⟩ := hloop
  rw [polyUnpackLoop, hs, Option.bind_some, RrlwrKem.polyUnpackLoop, ← fold_set_map]
  refine loop_eq_fold fun i hi r => ?_
  rw [complementCode_eq ρ hw1 hw, Option.map_some]
  rfl

theorem polyUnpack_eq (bld : Build) (hw1 : 1 ≤ w) (hw : w ≤ 16) (r : Poly)
    (hb : ∀ j < 16 * w, b j = some (b' j)) :
    polyUnpack ρ bld r b w = some (RrlwrKem.polyUnpack r b' w) := by
  rw [polyUnpack, RrlwrKem.polyUnpack]
  split_ifs with h2 h13 h11
  · subst h2
    exact polyUnpack2_eq ρ bld r hb
  · subst h13
    exact polyUnpack13_eq ρ bld r hb
  · subst h11
    exact polyUnpack11_eq ρ bld r hb
  · exact polyUnpackLoop_eq ρ hw1 hw r hb

end Generic

section Message

variable (ρ : Reading) (bld : Build)

/-- The decoder shifts a negative `int`: in the build with 16-bit scalars, when the
top bit of the field is set. -/
def Undefined {logt : ℕ} (c : BitVec logt) : Prop :=
  ρ = .strict ∧ bld = .scalar16 ∧ c.msb = true

/-- What becomes of a field of the decoder. -/
structure FieldOutcome (undefined : Prop) (b : Expr ρ) (x : U32) : Prop where
  narrow : ¬ undefined → Narrow bld.type b x 1
  undefined : undefined → b = .undefined

variable {ρ bld}

/-- The decompressed field, `(half - c) << drop`, when it is defined. -/
theorem decompress_within {n half drop : ℕ} {c : Expr ρ} {v : BitVec n}
    (hc : Narrow bld.type c (v.setWidth 32) n) (hn : n ≤ 8) (hhalf : half = 2 ^ (n - 1) - 1)
    (hdrop : drop ≤ 8) (hok : ¬ Undefined ρ bld v) :
    Within bld.type ((lit half - c) <<< drop) ((BitVec.ofNat 32 half - v.setWidth 32) <<< drop)
      (-256 * 2 ^ drop) (256 * 2 ^ drop) := by
  have hpow : 2 ^ n ≤ 2 ^ 8 := Nat.pow_le_pow_right (by norm_num) hn
  have hpow' : 2 ^ (n - 1) ≤ 2 ^ n := Nat.pow_le_pow_right (by norm_num) (by omega)
  have hcast : ((2 ^ n : ℕ) : ℤ) = 2 ^ n := by push_cast; rfl
  have hcast' : ((2 ^ (n - 1) : ℕ) : ℤ) = 2 ^ (n - 1) := by push_cast; rfl
  have hscale : (2 : ℤ) ^ drop ≤ 2 ^ 8 := pow_le_pow_right₀ (by norm_num) hdrop
  have hpos : (0 : ℤ) < 2 ^ drop := by positivity
  by_cases hint : ρ = .strict ∧ bld = .scalar16
  · -- the top bit is clear, so the difference is not negative
    obtain ⟨rfl, rfl⟩ := hint
    have hmsb : v.msb = false := Bool.eq_false_iff.mpr fun h => hok ⟨rfl, rfl, h⟩
    have hlt : v.toNat < 2 ^ (n - 1) := by
      rw [BitVec.msb_eq_decide, decide_eq_false_iff_not] at hmsb
      omega
    have hc' : Narrow .int c (v.setWidth 32) (n - 1) :=
      ⟨hc.eval, by rw [BitVec.toNat_setWidth]; exact (Nat.mod_le _ _).trans_lt hlt,
        fun _ => by omega⟩
    have hdiff := ((within_lit half (by omega)).sub hc'.within (by omega)).mono
      (show (0 : ℤ) ≤ _ by omega) (show _ ≤ (256 : ℤ) by omega)
    exact (hdiff.shl drop (fun _ _ => le_rfl) (by omega) (by omega) (by omega)).mono (by omega)
      le_rfl
  · have hdiff := ((within_lit half (by omega)).sub hc.within (by omega)).mono
      (show (-256 : ℤ) ≤ _ by omega) (show _ ≤ (256 : ℤ) by omega)
    refine hdiff.shl drop (fun ht hρ => absurd ⟨hρ, ?_⟩ hint) (by omega) (by omega) (by omega)
    cases bld with
    | scalar16 => rfl
    | scalar32 => cases ht

theorem messageField_narrow {logt : ℕ} (hlogt : logt = 3 ∨ logt = 8) (x : U16) {c : Expr ρ}
    {v : BitVec logt} (hc : Narrow bld.type c (v.setWidth 32) logt) (hok : ¬ Undefined ρ bld v) :
    Narrow bld.type (messageField bld (2 ^ (logt - 1) - 1) (2 ^ (10 - logt) - 2) (11 - logt) x c)
      (RrlwrKem.messageField (BitVec.ofNat 32 (2 ^ (logt - 1) - 1))
        (BitVec.ofNat 32 (2 ^ (10 - logt) - 2)) (11 - logt) x (v.setWidth 32)) 1 := by
  have hcm := decompress_within hc (by omega) rfl (show 11 - logt ≤ 8 by omega) hok
  have hx : Narrow bld.type (packAcc bld x : Expr ρ) (promote x) 16 := packAcc_narrow bld x
  have hacc := (hx.mask 0x7ff 11 (by omega)).within
  -- the rounding at the end
  have hround : ∀ {t : CType} {e : Expr ρ} {y : U32}, Narrow t e y 11 → Narrow bld.type
      (packScalar bld (((e + 512) >>> 10) &&& 1)) (((y + 512) >>> 10) &&& 1) 1 := fun h =>
    packScalar_narrow bld (by omega) (((h.add (narrow_lit 512 10 (by omega)) (by omega)).shr 10
      (by omega)).and (narrow_lit 1 1 (by omega)))
  rcases hlogt with rfl | rfl
  · have hval := ((hacc.sub hcm (by omega)).add (within_lit (2 ^ (10 - 3) - 2) (by omega))
      (by omega)).and (narrow_lit 0x7ff 11 (by omega))
    exact hround hval
  · have hval := ((hacc.sub hcm (by omega)).add (within_lit (2 ^ (10 - 8) - 2) (by omega))
      (by omega)).and (narrow_lit 0x7ff 11 (by omega))
    exact hround hval

/-- The top bit of the field makes the difference before the shift negative. -/
theorem messageField_undefined {logt : ℕ} (hlogt : logt = 3 ∨ logt = 8) (x : U16) {c : Expr ρ}
    {v : BitVec logt} (hc : Narrow bld.type c (v.setWidth 32) logt) (h : Undefined ρ bld v) :
    messageField bld (2 ^ (logt - 1) - 1) (2 ^ (10 - logt) - 2) (11 - logt) x c = .undefined := by
  obtain ⟨hρ, rfl, hmsb⟩ := h
  have hge : 2 ^ (logt - 1) ≤ v.toNat := by
    rw [BitVec.msb_eq_decide, decide_eq_true_eq] at hmsb
    exact hmsb
  have hlt := v.isLt
  have hvalue : (v.setWidth 32).toInt = v.toNat := by
    obtain ⟨hint, -⟩ := toInt_of_lt (by omega) hc.lt
    rw [hint, BitVec.toNat_setWidth, Nat.mod_eq_of_lt (hlt.trans_le
      (Nat.pow_le_pow_right (by norm_num) (by omega)))]
  have hcm : (lit (2 ^ (logt - 1) - 1) - c) <<< (11 - logt) = .undefined := by
    have hbound : Within .int c (v.setWidth 32) (2 ^ (logt - 1)) 255 := by
      refine ⟨hc.eval, fun _ => ?_⟩
      rw [hvalue]
      rcases hlogt with rfl | rfl <;> omega
    rcases hlogt with rfl | rfl
    · exact ((within_lit (2 ^ (3 - 1) - 1) (by omega)).sub hbound (by omega)).shl_negative
        (by norm_num) hρ _
    · exact ((within_lit (2 ^ (8 - 1) - 1) (by omega)).sub hbound (by omega)).shl_negative
        (by norm_num) hρ _
  simp only [messageField, hcm, sub_undefined, undefined_add, undefined_and, undefined_shr]
  rfl

theorem messageField_outcome {logt : ℕ} (hlogt : logt = 3 ∨ logt = 8) (x : U16) {c : Expr ρ}
    {y : U32} {v : BitVec logt} (hc : Narrow bld.type c y logt) (hy : y = v.setWidth 32) :
    FieldOutcome ρ bld (Undefined ρ bld v)
      (messageField bld (2 ^ (logt - 1) - 1) (2 ^ (10 - logt) - 2) (11 - logt) x c)
      (RrlwrKem.messageField (BitVec.ofNat 32 (2 ^ (logt - 1) - 1))
        (BitVec.ofNat 32 (2 ^ (10 - logt) - 2)) (11 - logt) x y) := by
  subst hy
  exact ⟨messageField_narrow hlogt x hc, messageField_undefined hlogt x hc⟩

/-- A message byte is defined exactly when its eight fields are. -/
theorem storeMessage_outcome {b0 b1 b2 b3 b4 b5 b6 b7 : Expr ρ} {x0 x1 x2 x3 x4 x5 x6 x7 : U32}
    {U : ℕ → Prop} (h0 : FieldOutcome ρ bld (U 0) b0 x0) (h1 : FieldOutcome ρ bld (U 1) b1 x1)
    (h2 : FieldOutcome ρ bld (U 2) b2 x2) (h3 : FieldOutcome ρ bld (U 3) b3 x3)
    (h4 : FieldOutcome ρ bld (U 4) b4 x4) (h5 : FieldOutcome ρ bld (U 5) b5 x5)
    (h6 : FieldOutcome ρ bld (U 6) b6 x6) (h7 : FieldOutcome ρ bld (U 7) b7 x7)
    (m : Buf) (i : ℕ) :
    ((∀ t < 8, ¬ U t) → storeByte (some m) i (b0 ||| b1 <<< 1 ||| b2 <<< 2 ||| b3 <<< 3 |||
        b4 <<< 4 ||| b5 <<< 5 ||| b6 <<< 6 ||| b7 <<< 7) =
      some (m.set i (toByte (x0 ||| x1 <<< 1 ||| x2 <<< 2 ||| x3 <<< 3 |||
        x4 <<< 4 ||| x5 <<< 5 ||| x6 <<< 6 ||| x7 <<< 7)))) ∧
    ((∃ t < 8, U t) → storeByte (some m) i (b0 ||| b1 <<< 1 ||| b2 <<< 2 ||| b3 <<< 3 |||
        b4 <<< 4 ||| b5 <<< 5 ||| b6 <<< 6 ||| b7 <<< 7) = none) := by
  constructor
  · intro h
    have b0 := h0.narrow (h 0 (by omega))
    have b1 := (h1.narrow (h 1 (by omega))).shl 1 (by omega)
    have b2 := (h2.narrow (h 2 (by omega))).shl 2 (by omega)
    have b3 := (h3.narrow (h 3 (by omega))).shl 3 (by omega)
    have b4 := (h4.narrow (h 4 (by omega))).shl 4 (by omega)
    have b5 := (h5.narrow (h 5 (by omega))).shl 5 (by omega)
    have b6 := (h6.narrow (h 6 (by omega))).shl 6 (by omega)
    have b7 := (h7.narrow (h 7 (by omega))).shl 7 (by omega)
    exact storeByte_eq rfl (((((((b0.or b1).or b2).or b3).or b4).or b5).or b6).or b7) i
  · rintro ⟨t, ht, hU⟩
    have hall : b0 = .undefined ∨ b1 = .undefined ∨ b2 = .undefined ∨ b3 = .undefined ∨
        b4 = .undefined ∨ b5 = .undefined ∨ b6 = .undefined ∨ b7 = .undefined := by
      interval_cases t
      · exact .inl (h0.undefined hU)
      · exact .inr (.inl (h1.undefined hU))
      · exact .inr (.inr (.inl (h2.undefined hU)))
      · exact .inr (.inr (.inr (.inl (h3.undefined hU))))
      · exact .inr (.inr (.inr (.inr (.inl (h4.undefined hU)))))
      · exact .inr (.inr (.inr (.inr (.inr (.inl (h5.undefined hU))))))
      · exact .inr (.inr (.inr (.inr (.inr (.inr (.inl (h6.undefined hU)))))))
      · exact .inr (.inr (.inr (.inr (.inr (.inr (.inr (h7.undefined hU)))))))
    rcases hall with rfl | rfl | rfl | rfl | rfl | rfl | rfl | rfl <;> simp [storeByte]

/-- The decoder of a block is defined exactly when all of its fields are. -/
theorem messageLoop_outcome {f : (i : ℕ) → i < 128 / 8 → Buf → Option Buf}
    {g : (i : ℕ) → i < 128 / 8 → Buf → Buf} {U : ℕ → Prop}
    (hpass : ∀ i hi m, ((∀ t < 8, ¬ U (8 * i + t)) → f i hi m = some (g i hi m)) ∧
      ((∃ t < 8, U (8 * i + t)) → f i hi m = none)) (m : Buf) :
    ((∀ k < 128, ¬ U k) → loop (128 / 8) f m = some (Nat.fold (128 / 8) g m)) ∧
      ((loop (128 / 8) f m).isSome ↔ ∀ k < 128, ¬ U k) := by
  refine ⟨fun h => loop_eq_fold fun i hi m => (hpass i hi m).1 fun t ht => h _ (by omega), ?_⟩
  have hsome : ∀ i (hi : i < 128 / 8) m, (f i hi m).isSome ↔ ∀ t < 8, ¬ U (8 * i + t) := by
    intro i hi m
    obtain ⟨hok, hbad⟩ := hpass i hi m
    constructor
    · intro h t ht hU
      rw [hbad ⟨t, ht, hU⟩] at h
      exact Bool.false_ne_true h
    · intro h
      rw [hok h]
      rfl
  rw [loop_isSome_iff (fun i => ∀ t < 8, ¬ U (8 * i + t)) hsome]
  constructor
  · intro h k hk
    have hkt := h (k / 8) (by omega) (k % 8) (by omega)
    rwa [Nat.div_add_mod] at hkt
  · intro h i hi t ht
    exact h _ (by omega)

theorem polyPackMessage3_outcome (m : Buf) (acc : Poly) {cm : ℕ → Option Byte} {cm' : Buf}
    (hcm : ∀ j < 48, cm j = some (cm' j)) :
    ((∀ k < 128, ¬ Undefined ρ bld (rechunk 8 3 cm' k)) →
      polyPackMessage3 ρ bld m acc cm = some (RrlwrKem.polyPackMessage3 m acc cm')) ∧
    ((polyPackMessage3 ρ bld m acc cm).isSome ↔
      ∀ k < 128, ¬ Undefined ρ bld (rechunk 8 3 cm' k)) := by
  refine messageLoop_outcome (fun i hi m => ?_) m
  have byte : ∀ j < 3, Narrow .int (ofU8 (cm (3 * i + j)) : Expr ρ)
      (promoteByte (cm' (3 * i + j))) 8 := by
    intro j hj
    rw [hcm _ (by omega)]
    exact narrow_ofU8 _
  have cm0 := byte 0 (by omega)
  have cm1 := byte 1 (by omega)
  have cm2 := byte 2 (by omega)
  rw [Nat.add_zero] at cm0
  have mask : Narrow .int (0x7 : Expr ρ) 0x7 3 := narrow_lit 7 3 (by omega)
  obtain ⟨f0, f1, f2, f3, f4, f5, f6, f7⟩ := messageFields3_eq cm' i
  have field : ∀ k (hk : k < 128) {t : CType} {c : Expr ρ} {y : U32}, Narrow t c y 3 →
      y = (rechunk 8 3 cm' k).setWidth 32 →
      FieldOutcome ρ bld (Undefined ρ bld (rechunk 8 3 cm' k))
        (messageField bld 3 126 8 acc[k] (packScalar bld c))
        (RrlwrKem.messageField 3 126 8 acc[k] y) := fun k hk _ _ _ hc hy =>
    messageField_outcome (.inl rfl) acc[k] (packScalar_narrow bld (by omega) hc) hy
  have b0 := field (8 * i) (by omega) (cm0.and mask) f0
  have b1 := field (8 * i + 1) (by omega) ((cm0.shr 3 (by omega)).and mask) f1
  have b2 := field (8 * i + 2) (by omega) ((cm0.shr_or_shl cm1 6 2 (by omega)).and mask) f2
  have b3 := field (8 * i + 3) (by omega) ((cm1.shr 1 (by omega)).and mask) f3
  have b4 := field (8 * i + 4) (by omega) ((cm1.shr 4 (by omega)).and mask) f4
  have b5 := field (8 * i + 5) (by omega) ((cm1.shr_or_shl cm2 7 1 (by omega)).and mask) f5
  have b6 := field (8 * i + 6) (by omega) ((cm2.shr 2 (by omega)).and mask) f6
  have b7 := field (8 * i + 7) (by omega) (cm2.shr 5 (by omega)) f7
  exact storeMessage_outcome (U := fun t => Undefined ρ bld (rechunk 8 3 cm' (8 * i + t)))
    b0 b1 b2 b3 b4 b5 b6 b7 m i

theorem polyPackMessage8_outcome (m : Buf) (acc : Poly) {cm : ℕ → Option Byte} {cm' : Buf}
    (hcm : ∀ j < 128, cm j = some (cm' j)) :
    ((∀ k < 128, ¬ Undefined ρ bld (rechunk 8 8 cm' k)) →
      polyPackMessage8 ρ bld m acc cm = some (RrlwrKem.polyPackMessage8 m acc cm')) ∧
    ((polyPackMessage8 ρ bld m acc cm).isSome ↔
      ∀ k < 128, ¬ Undefined ρ bld (rechunk 8 8 cm' k)) := by
  refine messageLoop_outcome (fun i hi m => ?_) m
  have field : ∀ k (hk : k < 128), FieldOutcome ρ bld (Undefined ρ bld (rechunk 8 8 cm' k))
      (messageField bld 127 2 3 acc[k] (packScalar bld (ofU8 (cm k))))
      (RrlwrKem.messageField 127 2 3 acc[k] (promoteByte (cm' k))) := by
    intro k hk
    have hbyte : cm' k = rechunk 8 8 cm' k := (word_ofWords cm' k).symm
    exact messageField_outcome (.inr rfl) acc[k] (packScalar_byte bld (hcm k hk))
      (congrArg promoteByte hbyte)
  exact storeMessage_outcome (U := fun t => Undefined ρ bld (rechunk 8 8 cm' (8 * i + t)))
    (field (8 * i) (by omega)) (field (8 * i + 1) (by omega)) (field (8 * i + 2) (by omega))
    (field (8 * i + 3) (by omega)) (field (8 * i + 4) (by omega)) (field (8 * i + 5) (by omega))
    (field (8 * i + 6) (by omega)) (field (8 * i + 7) (by omega)) m i

theorem polyPackMessage_outcome {logt : ℕ} (hlogt : logt = 3 ∨ logt = 8) (m : Buf) (acc : Poly)
    {cm : ℕ → Option Byte} {cm' : Buf} (hcm : ∀ j < 16 * logt, cm j = some (cm' j)) :
    ((∀ k < 128, ¬ Undefined ρ bld (rechunk 8 logt cm' k)) →
      polyPackMessageFromAccCm ρ bld logt m acc cm =
        some (RrlwrKem.polyPackMessageFromAccCm logt m acc cm')) ∧
    ((polyPackMessageFromAccCm ρ bld logt m acc cm).isSome ↔
      ∀ k < 128, ¬ Undefined ρ bld (rechunk 8 logt cm' k)) := by
  rcases hlogt with rfl | rfl
  · exact polyPackMessage3_outcome m acc hcm
  · exact polyPackMessage8_outcome m acc hcm

end Message

section Builds

variable (P : SecurityLevel)

/-- Both builds succeed with the same result. -/
def SameOutput {α : Type} (f : Build → Option α) (x : α) : Prop :=
  f .scalar16 = f .scalar32 ∧ f .scalar32 = some x

theorem SameOutput.of_eq {α : Type} {f : Build → Option α} {x : α} (h : ∀ bld, f bld = some x) :
    SameOutput f x := ⟨(h .scalar16).trans (h .scalar32).symm, h .scalar32⟩

theorem load_bytes {n : ℕ} (v : Bytes n) : ∀ j < n, load v j = some (bufOf v j) := by
  intro j hj
  rw [load_eq hj, bufOf_apply v hj]

/-- The message bytes of one row. -/
theorem load_message (msg : Bytes P.messageLen) (out : Fin P.ell) :
    ∀ j < 16, load msg (out * 16 + j) = some (bufOf msg (out * 16 + j)) := by
  intro j hj
  have hle := Written.block_le out 16
  exact load_bytes msg _ (by rw [SecurityLevel.messageLen]; omega)

theorem load_block (cm : Bytes P.packedPolyTLen) :
    ∀ j < 16 * P.logt, load cm j = some (bufOf cm j) := by
  rw [← P.packedPolyTLen_eq]
  exact load_bytes cm

/-- With left shifts of negative values read as multiplications, the two builds of the
packing layer are interchangeable. -/
theorem packing_builds_interchangeable (b ct m : Buf) (r : Poly) (b2 : Bytes 32)
    (b11 : Bytes 176) (b13 : Bytes 208) (acc : Poly) (msg : Bytes P.messageLen) (out : Fin P.ell)
    (cm : Bytes P.packedPolyTLen) :
    SameOutput (fun bld => polyPack2 .lenient bld b r) (RrlwrKem.polyPack2 b r) ∧
    SameOutput (fun bld => polyPack11 .lenient bld b r) (RrlwrKem.polyPack11 b r) ∧
    SameOutput (fun bld => polyUnpack2 .lenient bld r (load b2))
      (RrlwrKem.polyUnpack2 r (bufOf b2)) ∧
    SameOutput (fun bld => polyUnpack11 .lenient bld r (load b11))
      (RrlwrKem.polyUnpack11 r (bufOf b11)) ∧
    SameOutput (fun bld => polyUnpack13 .lenient bld r (load b13))
      (RrlwrKem.polyUnpack13 r (bufOf b13)) ∧
    SameOutput (fun bld => polyPackCiphertextTFromAccMsg .lenient bld P.logt ct acc (load msg) out)
      (RrlwrKem.polyPackCiphertextTFromAccMsg P.logt ct acc (bufOf msg) out) ∧
    SameOutput (fun bld => polyPackMessageFromAccCm .lenient bld P.logt m acc (load cm))
      (RrlwrKem.polyPackMessageFromAccCm P.logt m acc (bufOf cm)) := by
  refine ⟨.of_eq fun bld => polyPack2_eq .lenient bld b r,
    .of_eq fun bld => polyPack11_eq .lenient bld b r,
    .of_eq fun bld => polyUnpack2_eq .lenient bld r (load_bytes b2),
    .of_eq fun bld => polyUnpack11_eq .lenient bld r (load_bytes b11),
    .of_eq fun bld => polyUnpack13_eq .lenient bld r (load_bytes b13),
    .of_eq fun bld => polyPackCiphertext_eq .lenient bld P.logt_cases ct acc out
      (load_message P msg out), .of_eq fun bld => ?_⟩
  refine (polyPackMessage_outcome P.logt_cases m acc (load_block P cm)).1 fun k hk h => ?_
  cases h.1

/-- The decoder is defined on every field whose top bit is clear. -/
theorem undefined_iff (bld : Build) (cm : Bytes P.packedPolyTLen) (k : ℕ) :
    Undefined .strict bld (rechunk 8 P.logt (bufOf cm) k) ↔
      bld = .scalar16 ∧ bitAt (bufOf cm) (P.logt * k + (P.logt - 1)) = true := by
  have hlt : P.logt - 1 < P.logt := by
    have h := P.logt_cases
    omega
  have hmsb : (rechunk 8 P.logt (bufOf cm) k).msb =
      bitAt (bufOf cm) (P.logt * k + (P.logt - 1)) := by
    rw [BitVec.msb_eq_getLsbD_last, rechunk, getLsbD_word _ _ hlt]
    rfl
  rw [Undefined, hmsb]
  exact and_iff_right rfl

/-- No arithmetic of the packing layer is undefined, except for the decoder in the
build with 16-bit scalars, on a ciphertext block with the top bit of a field set. -/
theorem packing_defined_iff (bld : Build) {bitlen : ℕ} (hb1 : 1 ≤ bitlen) (hb : bitlen ≤ 16)
    (b ct m : Buf) (r : Poly) (bytes : Bytes (16 * bitlen)) (acc : Poly)
    (msg : Bytes P.messageLen) (out : Fin P.ell) (cm : Bytes P.packedPolyTLen) :
    ((polyPack .strict bld b r bitlen).isSome ∧
      (polyUnpack .strict bld r (load bytes) bitlen).isSome ∧
      (polyPackCiphertextTFromAccMsg .strict bld P.logt ct acc (load msg) out).isSome ∧
      (polyPackMessageFromAccCm .strict bld P.logt m acc (load cm)).isSome) ↔
    (bld = .scalar32 ∨ ∀ k : Fin 128, bitAt (bufOf cm) (P.logt * k + (P.logt - 1)) = false) := by
  rw [polyPack_eq .strict bld hb1 hb, polyUnpack_eq .strict bld hb1 hb r (load_bytes bytes),
    polyPackCiphertext_eq .strict bld P.logt_cases ct acc out (load_message P msg out),
    (polyPackMessage_outcome P.logt_cases m acc (load_block P cm)).2]
  simp only [Option.isSome_some, true_and, undefined_iff]
  constructor
  · intro h
    cases bld with
    | scalar16 => exact .inr fun k => Bool.eq_false_iff.mpr fun hbit => h k k.isLt ⟨rfl, hbit⟩
    | scalar32 => exact .inl rfl
  · rintro (rfl | h) k hk ⟨hbld, hbit⟩
    · cases hbld
    · exact Bool.false_ne_true ((h ⟨k, hk⟩).symm.trans hbit)

/-- The least width and a block of zeros. -/
theorem packing_defined_iff_zeros :
    ((polyPack .strict .scalar16 (fun _ => 0) (Vector.replicate 128 0) 1).isSome ∧
      (polyUnpack .strict .scalar16 (Vector.replicate 128 0)
        (load (Vector.replicate (16 * 1) 0)) 1).isSome ∧
      (polyPackCiphertextTFromAccMsg .strict .scalar16 3 (fun _ => 0) (Vector.replicate 128 0)
        (load (Vector.replicate 16 0)) 0).isSome ∧
      (polyPackMessageFromAccCm .strict .scalar16 3 (fun _ => 0) (Vector.replicate 128 0)
        (load (Vector.replicate 48 0))).isSome) ↔
    (Build.scalar16 = .scalar32 ∨ ∀ k : Fin 128,
      bitAt (bufOf (Vector.replicate 48 0)) (3 * k + (3 - 1)) = false) :=
  packing_defined_iff .level128 .scalar16 le_rfl (by norm_num) (fun _ => 0) (fun _ => 0)
    (fun _ => 0) (Vector.replicate 128 0) (Vector.replicate (16 * 1) 0) (Vector.replicate 128 0)
    (Vector.replicate 16 0) (0 : Fin 1) (Vector.replicate 48 0)

/-- A ciphertext block of ones, in the build with 16-bit scalars. -/
theorem packing_undefined_ones :
    ¬ (polyPackMessageFromAccCm .strict .scalar16 3 (fun _ => 0) (Vector.replicate 128 0)
      (load (Vector.replicate 48 (0xff : Byte)))).isSome := by
  rw [(polyPackMessage_outcome (.inl rfl) _ _ (load_bytes (Vector.replicate 48 (0xff : Byte)))).2]
  intro h
  exact h 0 (by norm_num) ⟨rfl, rfl, rfl⟩

end Builds

end RrlwrKem.CBuild
