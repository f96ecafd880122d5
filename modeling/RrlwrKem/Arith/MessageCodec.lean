import RrlwrKem.Arith.Packing
import RrlwrKem.Arith.Rounding

/-!
# The message codec

The fused functions that turn an accumulator into ciphertext bytes and back into
message bits, for `LOGT = 3` and `LOGT = 8`, and the plain helpers they replace:
`poly_add_msg`, `poly_compress` and `poly_pack` on the way out, `poly_unpack`,
`poly_decompress`, `poly_subp`, `poly_round_xtoy` and `poly_pack` on the way in.
-/

namespace RrlwrKem

open ArrayPolynomial BitStream Word

section Definitions

/-- `(msg[i*RRLWR_N/8 + (j >> 3)] >> (j & 0x7)) & 1`. -/
def selectBit (msg : Buf) (i j : ℕ) : U32 :=
  promoteByte (msg (i * 128 / 8 + j / 8)) >>> (j % 8) &&& 1

/-- The body of `poly_add_msg` for one coefficient and its message bit. -/
def addMsgCoeff (mj : U32) (c : U16) : U16 :=
  let c := toU16 (promote c + 2)
  let c := toU16 (promote c + (-mj &&& 1024))
  toU16 (promote c &&& 2047)

def polyAddMsg {ell : ℕ} (r : Vector Poly ell) (msg : Buf) : Vector Poly ell :=
  Vector.ofFn fun i => Vector.ofFn fun j : Fin 128 =>
    addMsgCoeff (selectBit msg i j) ((r.get i).get j)

/-- `p/(2t) - q/(2p)`. -/
def h2 (logt : ℕ) : U32 := (1 : U32) <<< (11 - (logt + 1)) - (1 : U32) <<< (13 - (11 + 1))

def polySubp (logt : ℕ) (f g : Poly) : Poly := Vector.ofFn fun i : Fin 128 =>
  toU16 ((promote (f.get i) - promote (g.get i) + h2 logt) &&& 2047)

/-- The field of the fused packer for one coefficient and its message bit, with
`half = 2^(LOGT-1) - 1` and the shifts of the given width. -/
def ciphertextField (half mask : U32) (drop top : ℕ) (x : U16) (mj : U32) : U32 :=
  (half - ((promote x + 2) &&& 0x7ff) >>> drop - mj <<< top) &&& mask

def polyPackCiphertext3 (ct : Buf) (acc : Poly) (msg : Buf) (out : ℕ) : Buf :=
  Nat.fold (128 / 8) (fun i hi ct =>
    let k := 8 * i
    let m := promoteByte (msg (out * 128 / 8 + i))
    let c0 := ciphertextField 3 7 8 2 acc[k] (m &&& 1)
    let c1 := ciphertextField 3 7 8 2 acc[k + 1] (m >>> 1 &&& 1)
    let c2 := ciphertextField 3 7 8 2 acc[k + 2] (m >>> 2 &&& 1)
    let c3 := ciphertextField 3 7 8 2 acc[k + 3] (m >>> 3 &&& 1)
    let c4 := ciphertextField 3 7 8 2 acc[k + 4] (m >>> 4 &&& 1)
    let c5 := ciphertextField 3 7 8 2 acc[k + 5] (m >>> 5 &&& 1)
    let c6 := ciphertextField 3 7 8 2 acc[k + 6] (m >>> 6 &&& 1)
    let c7 := ciphertextField 3 7 8 2 acc[k + 7] (m >>> 7)
    let p := 3 * i
    let ct := ct.set p (toByte (c0 ||| c1 <<< 3 ||| c2 <<< 6))
    let ct := ct.set (p + 1) (toByte (c2 >>> 2 ||| c3 <<< 1 ||| c4 <<< 4 ||| c5 <<< 7))
    ct.set (p + 2) (toByte (c5 >>> 1 ||| c6 <<< 2 ||| c7 <<< 5))) ct

def polyPackCiphertext8 (ct : Buf) (acc : Poly) (msg : Buf) (out : ℕ) : Buf :=
  Nat.fold (128 / 8) (fun i hi ct =>
    let k := 8 * i
    let m := promoteByte (msg (out * 128 / 8 + i))
    let ct := ct.set k (toByte (ciphertextField 127 0xff 3 7 acc[k] (m &&& 1)))
    let ct := ct.set (k + 1) (toByte (ciphertextField 127 0xff 3 7 acc[k + 1] (m >>> 1 &&& 1)))
    let ct := ct.set (k + 2) (toByte (ciphertextField 127 0xff 3 7 acc[k + 2] (m >>> 2 &&& 1)))
    let ct := ct.set (k + 3) (toByte (ciphertextField 127 0xff 3 7 acc[k + 3] (m >>> 3 &&& 1)))
    let ct := ct.set (k + 4) (toByte (ciphertextField 127 0xff 3 7 acc[k + 4] (m >>> 4 &&& 1)))
    let ct := ct.set (k + 5) (toByte (ciphertextField 127 0xff 3 7 acc[k + 5] (m >>> 5 &&& 1)))
    let ct := ct.set (k + 6) (toByte (ciphertextField 127 0xff 3 7 acc[k + 6] (m >>> 6 &&& 1)))
    ct.set (k + 7) (toByte (ciphertextField 127 0xff 3 7 acc[k + 7] (m >>> 7)))) ct

/-- The `#if` on `LOGT`; no parameter set compiles its third branch. -/
def polyPackCiphertextTFromAccMsg (logt : ℕ) (ct : Buf) (acc : Poly) (msg : Buf) (out : ℕ) :
    Buf :=
  if logt = 3 then polyPackCiphertext3 ct acc msg out else polyPackCiphertext8 ct acc msg out

/-- The message bit of the fused decoder for one coefficient and its field. -/
def messageField (half h2 : U32) (drop : ℕ) (x : U16) (c : U32) : U32 :=
  ((((promote x &&& 0x7ff) - (half - c) <<< drop + h2) &&& 0x7ff) + 512) >>> 10 &&& 1

/-- Byte `i` of the message in `poly_pack_message_from_acc_cm`, for `LOGT = 3`. -/
def messageByte3 (acc : Poly) (cm : Buf) (i : ℕ) (hi : i < 128 / 8) : Byte :=
  let k := 8 * i
  let cm0 := promoteByte (cm (3 * i))
  let cm1 := promoteByte (cm (3 * i + 1))
  let cm2 := promoteByte (cm (3 * i + 2))
  let c0 := cm0 &&& 0x7
  let c1 := cm0 >>> 3 &&& 0x7
  let c2 := (cm0 >>> 6 ||| cm1 <<< 2) &&& 0x7
  let c3 := cm1 >>> 1 &&& 0x7
  let c4 := cm1 >>> 4 &&& 0x7
  let c5 := (cm1 >>> 7 ||| cm2 <<< 1) &&& 0x7
  let c6 := cm2 >>> 2 &&& 0x7
  let c7 := cm2 >>> 5
  let b0 := messageField 3 126 8 acc[k] c0
  let b1 := messageField 3 126 8 acc[k + 1] c1
  let b2 := messageField 3 126 8 acc[k + 2] c2
  let b3 := messageField 3 126 8 acc[k + 3] c3
  let b4 := messageField 3 126 8 acc[k + 4] c4
  let b5 := messageField 3 126 8 acc[k + 5] c5
  let b6 := messageField 3 126 8 acc[k + 6] c6
  let b7 := messageField 3 126 8 acc[k + 7] c7
  toByte (b0 ||| b1 <<< 1 ||| b2 <<< 2 ||| b3 <<< 3 |||
    b4 <<< 4 ||| b5 <<< 5 ||| b6 <<< 6 ||| b7 <<< 7)

def polyPackMessage3 (m : Buf) (acc : Poly) (cm : Buf) : Buf :=
  Nat.fold (128 / 8) (fun i hi m => m.set i (messageByte3 acc cm i hi)) m

/-- Byte `i` of the message in `poly_pack_message_from_acc_cm`, for `LOGT = 8`. -/
def messageByte8 (acc : Poly) (cm : Buf) (i : ℕ) (hi : i < 128 / 8) : Byte :=
  let k := 8 * i
  let b0 := messageField 127 2 3 acc[k] (promoteByte (cm k))
  let b1 := messageField 127 2 3 acc[k + 1] (promoteByte (cm (k + 1)))
  let b2 := messageField 127 2 3 acc[k + 2] (promoteByte (cm (k + 2)))
  let b3 := messageField 127 2 3 acc[k + 3] (promoteByte (cm (k + 3)))
  let b4 := messageField 127 2 3 acc[k + 4] (promoteByte (cm (k + 4)))
  let b5 := messageField 127 2 3 acc[k + 5] (promoteByte (cm (k + 5)))
  let b6 := messageField 127 2 3 acc[k + 6] (promoteByte (cm (k + 6)))
  let b7 := messageField 127 2 3 acc[k + 7] (promoteByte (cm (k + 7)))
  toByte (b0 ||| b1 <<< 1 ||| b2 <<< 2 ||| b3 <<< 3 |||
    b4 <<< 4 ||| b5 <<< 5 ||| b6 <<< 6 ||| b7 <<< 7)

def polyPackMessage8 (m : Buf) (acc : Poly) (cm : Buf) : Buf :=
  Nat.fold (128 / 8) (fun i hi m => m.set i (messageByte8 acc cm i hi)) m

def polyPackMessageFromAccCm (logt : ℕ) (m : Buf) (acc : Poly) (cm : Buf) : Buf :=
  if logt = 3 then polyPackMessage3 m acc cm else polyPackMessage8 m acc cm

end Definitions

section Fields

/-- A truth value as a word. -/
def bitWord (β : Bool) : U32 := (BitVec.ofBool β).setWidth 32

theorem carries_bitWord (k : ℕ) (β : Bool) : Carries k (bitWord β) β.toNat := by
  cases β <;> exact Int.ModEq.refl _

theorem ushiftRight_and_one {w : ℕ} (hw : 1 < w) (x : BitVec w) (t : ℕ) :
    x >>> t &&& BitVec.ofNat w (2 ^ 1 - 1) = (BitVec.ofBool (x.getLsbD t)).setWidth w := by
  rw [and_mask _ hw]
  congr 1
  apply BitVec.eq_of_getLsbD_eq
  intro i hi
  have h0 : i = 0 := by omega
  subst h0
  simp

/-- The bit that `poly_add_msg` and the fused packer select. -/
theorem selectBit_eq (msg : Buf) (i j : ℕ) :
    selectBit msg i j = bitWord (ofWords 8 msg (128 * i + j)) := by
  have hdiv : i * 128 / 8 + j / 8 = (128 * i + j) / 8 := by omega
  have hmod : (128 * i + j) % 8 = j % 8 := by omega
  have hlt : j % 8 < 8 := by omega
  have h := ushiftRight_and_one (w := 32) (by decide)
    (promoteByte (msg ((128 * i + j) / 8))) (j % 8)
  rw [selectBit, hdiv, ofWords, hmod, bitWord]
  refine h.trans ?_
  rw [promoteByte, BitVec.getLsbD_setWidth]
  simp [show j % 8 < 32 by omega]

theorem toNat_masked_add (x : U16) : ((promote x + 2) &&& 0x7ff).toNat = (x.toNat + 2) % 2048 := by
  have hx := x.isLt
  rw [BitVec.toNat_and, show (0x7ff : U32).toNat = 2 ^ 11 - 1 from rfl,
    Nat.and_two_pow_sub_one_eq_mod, BitVec.toNat_add, BitVec.toNat_setWidth]
  simp only [show (2 : U32).toNat = 2 from rfl]
  omega

theorem neg_bitWord_and (β : Bool) : -bitWord β &&& 1024 = BitVec.ofNat 32 (1024 * β.toNat) := by
  cases β <;> decide

theorem addMsgCoeff_toNat (β : Bool) (x : U16) :
    (addMsgCoeff (bitWord β) x).toNat = (x.toNat + 2 + 1024 * β.toNat) % 2048 := by
  have hx := x.isLt
  have hβ := β.toNat_le
  rw [addMsgCoeff, neg_bitWord_and, BitVec.toNat_setWidth, BitVec.toNat_and,
    show (2047 : U32).toNat = 2 ^ 11 - 1 from rfl, Nat.and_two_pow_sub_one_eq_mod]
  simp only [BitVec.toNat_setWidth, BitVec.toNat_add, BitVec.toNat_ofNat,
    show (2 : U32).toNat = 2 from rfl]
  omega

theorem compress_toNat (c : U16) (d : ℕ) : (toU16 (promote c >>> d)).toNat = c.toNat / 2 ^ d := by
  have hc := c.isLt
  have hle := Nat.div_le_self c.toNat (2 ^ d)
  rw [BitVec.toNat_setWidth, BitVec.toNat_ushiftRight, BitVec.toNat_setWidth,
    Nat.shiftRight_eq_div_pow, Nat.mod_eq_of_lt (show c.toNat < 2 ^ 32 by omega),
    Nat.mod_eq_of_lt (by omega)]

theorem carries_packCode (w : ℕ) (x : U16) :
    Carries w (packCode w x) (((2 ^ (w - 1) - 1 : ℕ) : ℤ) - x.toNat) :=
  (carries_ofNat le_rfl _).sub ((carries_self w x).setWidth le_rfl) le_rfl

/-- Subtracting the message bit above the compressed value is adding `p/2` before
the compression. -/
theorem ciphertextField_eq {logt : ℕ} (hlogt : logt = 3 ∨ logt = 8) (x : U16) (β : Bool) :
    ciphertextField (BitVec.ofNat 32 (2 ^ (logt - 1) - 1)) (BitVec.ofNat 32 (2 ^ logt - 1))
      (11 - logt) (logt - 1) x (bitWord β) =
    (packCode logt (toU16 (promote (addMsgCoeff (bitWord β) x) >>> (11 - logt)))).setWidth 32 := by
  have hsmall : logt ≤ 8 ∧ 3 ≤ logt := by omega
  rw [ciphertextField, and_mask _ (by omega)]
  congr 1
  have hshift := carries_self logt (((promote x + 2) &&& 0x7ff) >>> (11 - logt))
  rw [BitVec.toNat_ushiftRight, Nat.shiftRight_eq_div_pow, toNat_masked_add] at hshift
  have hbit := (((carries_bitWord 1 β).shiftLeft (logt - 1) (by omega)))
  have hlen : 1 + (logt - 1) = logt := by omega
  rw [hlen] at hbit
  have hleft := (((carries_ofNat (w := 32) (by omega) (2 ^ (logt - 1) - 1)).sub hshift
    (by omega)).sub hbit (by omega)).setWidth (v := logt) le_rfl
  have hright := carries_packCode logt
    (toU16 (promote (addMsgCoeff (bitWord β) x) >>> (11 - logt)))
  rw [compress_toNat, addMsgCoeff_toNat] at hright
  refine hleft.word_eq hright (Int.modEq_iff_dvd.mpr ?_)
  rcases hlogt with rfl | rfl <;> cases β <;>
    simp only [Bool.toNat_true, Bool.toNat_false] <;> omega

/-- The value that the decoder rounds, `acc - cm + p/(2t) - q/(2p)`, for the field `c`. -/
def decodeValue (logt : ℕ) (x : U16) (c : ℕ) : ℤ :=
  x.toNat - 2 ^ (11 - logt) * ((2 ^ (logt - 1) - 1 : ℕ) - c) + (2 ^ (10 - logt) - 2 : ℕ)

/-- The decoded bit, the value rounded to a multiple of `p/2`. -/
def decodeBit (logt : ℕ) (x : U16) (c : ℕ) : ℕ :=
  ((decodeValue logt x c % 2048 + 512) / 1024 % 2).toNat

theorem messageField_toNat {logt : ℕ} (hlogt : logt = 3 ∨ logt = 8) (x : U16) (c : BitVec logt) :
    (messageField (BitVec.ofNat 32 (2 ^ (logt - 1) - 1)) (BitVec.ofNat 32 (2 ^ (10 - logt) - 2))
      (11 - logt) x (c.setWidth 32)).toNat = decodeBit logt x c.toNat := by
  have hx := x.isLt
  have hmask : (promote x &&& 0x7ff).toNat = x.toNat % 2048 := by
    rw [BitVec.toNat_and, show (0x7ff : U32).toNat = 2 ^ 11 - 1 from rfl,
      Nat.and_two_pow_sub_one_eq_mod, BitVec.toNat_setWidth]
    omega
  have hc : (c.setWidth 32).toNat = c.toNat := by
    have hlt := c.isLt
    have hle : 2 ^ logt ≤ 2 ^ 8 := Nat.pow_le_pow_right (by decide) (by omega)
    rw [BitVec.toNat_setWidth]
    omega
  -- the field is known modulo `t`, its decompression modulo `p`
  have hdiff := (carries_ofNat (w := 32) (k := logt) (by omega) (2 ^ (logt - 1) - 1)).sub
    ((carries_self logt (c.setWidth 32))) (by omega)
  have hshift := hdiff.shiftLeft (11 - logt) (by omega)
  rw [show logt + (11 - logt) = 11 by omega, hc] at hshift
  have hval := ((carries_self 11 (promote x &&& 0x7ff)).sub hshift (by decide)).add
    (carries_ofNat (by decide) (2 ^ (10 - logt) - 2)) (by decide)
  have hlow := hval.toNat_setWidth
  rw [hmask] at hlow
  rw [messageField, BitVec.toNat_and, show (1 : U32).toNat = 2 ^ 1 - 1 from rfl,
    Nat.and_two_pow_sub_one_eq_mod, BitVec.toNat_ushiftRight, Nat.shiftRight_eq_div_pow,
    BitVec.toNat_add, show (0x7ff : U32) = BitVec.ofNat 32 (2 ^ 11 - 1) from rfl,
    and_mask _ (by decide), BitVec.toNat_setWidth, show (512 : U32).toNat = 512 from rfl]
  generalize BitVec.setWidth 11 _ = low at hlow ⊢
  have hlt := low.isLt
  rw [decodeBit, decodeValue]
  rcases hlogt with rfl | rfl <;> omega

/-- Unpacking, decompressing, subtracting and rounding one coefficient decodes the
same bit. -/
theorem plainField_toNat {logt : ℕ} (hlogt : logt = 3 ∨ logt = 8) (x : U16) (c : BitVec logt) :
    (packCode 1 (roundXtoy 11 1 (toU16 ((promote x -
      promote (toU16 (promote (unpackCode logt c) <<< (11 - logt))) + h2 logt) &&& 2047)))).toNat =
      decodeBit logt x c.toNat := by
  have hcode : Carries logt (unpackCode logt c) (((2 ^ (logt - 1) - 1 : ℕ) : ℤ) - c.toNat) := by
    rw [unpackCode, if_neg (by omega)]
    exact ((carries_ofNat le_rfl _).sub (carries_self logt c) le_rfl).setWidth (by omega)
  have hshift := ((hcode.setWidth (v := 32) (by omega)).shiftLeft (11 - logt) (by omega)).setWidth
    (v := 16) (by omega)
  rw [show logt + (11 - logt) = 11 by omega] at hshift
  have hh2 : Carries 11 (h2 logt) ((2 ^ (10 - logt) - 2 : ℕ) : ℤ) := by
    rw [Carries]
    rcases hlogt with rfl | rfl <;> decide
  have hval := (((carries_self 11 x).setWidth (v := 32) (by decide)).sub
    (hshift.setWidth (v := 32) (by decide)) (by decide)).add hh2 (by decide)
  have hmask := toNat_masked (by decide) hval
  have hround := roundXtoy_toNat (x := 11) (y := 1) (by decide) (by decide) (toU16 ((promote x -
      promote (toU16 (promote (unpackCode logt c) <<< (11 - logt))) + h2 logt) &&& 2047))
  generalize roundXtoy 11 1 _ = z at hround ⊢
  generalize toU16 _ = v at hmask hround
  have hpack : (packCode 1 z).toNat = z.toNat % 2 := by
    rw [packCode, BitVec.toNat_sub, BitVec.toNat_setWidth, BitVec.toNat_ofNat]
    omega
  rw [hpack, decodeBit, decodeValue]
  rcases hlogt with rfl | rfl <;> omega

end Fields

section Streams

/-- The polynomial that `poly_add_msg` makes of polynomial `out`. -/
def messagePoly (acc : Poly) (msg : Buf) (out : ℕ) : Poly :=
  Vector.ofFn fun j : Fin 128 => addMsgCoeff (selectBit msg out j) (acc.get j)

theorem polyAddMsg_getElem {ell : ℕ} (r : Vector Poly ell) (msg : Buf) {out : ℕ} (h : out < ell) :
    (polyAddMsg r msg)[out] = messagePoly r[out] msg out := by
  rw [polyAddMsg, Vector.getElem_ofFn]
  rfl

/-- What the plain path packs: the accumulator with its message block, compressed. -/
def ciphertextPoly (logt : ℕ) (acc : Poly) (msg : Buf) (out : ℕ) : Poly :=
  polyCompress (messagePoly acc msg out) (11 - logt)

/-- What the plain path packs on the way back: one rounded bit for each coefficient. -/
def messageBits (logt : ℕ) (acc : Poly) (cm : Buf) (r : Poly) : Poly :=
  polyRoundXtoy (polySubp logt acc (polyDecompress (polyUnpack r cm logt) (11 - logt))) 11 1

theorem ciphertextField_stream {logt : ℕ} (hlogt : logt = 3 ∨ logt = 8) (acc : Poly) (msg : Buf)
    (out : ℕ) {k : ℕ} (hk : k < 128) :
    ciphertextField (BitVec.ofNat 32 (2 ^ (logt - 1) - 1)) (BitVec.ofNat 32 (2 ^ logt - 1))
      (11 - logt) (logt - 1) acc[k] (selectBit msg out k) =
    (polyCodes logt (ciphertextPoly logt acc msg out) k).setWidth 32 := by
  rw [polyCodes_apply _ _ hk, ciphertextPoly, polyCompress, Vector.getElem_map, messagePoly,
    Vector.getElem_ofFn, selectBit_eq, ciphertextField_eq hlogt]
  rfl

theorem messageField_stream {logt : ℕ} (hlogt : logt = 3 ∨ logt = 8) (acc : Poly) (cm : Buf)
    (r : Poly) {k : ℕ} (hk : k < 128) :
    messageField (BitVec.ofNat 32 (2 ^ (logt - 1) - 1)) (BitVec.ofNat 32 (2 ^ (10 - logt) - 2))
      (11 - logt) acc[k] ((rechunk 8 logt cm k).setWidth 32) =
    (polyCodes 1 (messageBits logt acc cm r) k).setWidth 32 := by
  apply BitVec.eq_of_toNat_eq
  rw [messageField_toNat hlogt, polyCodes_apply _ _ hk, BitVec.toNat_setWidth_of_le (by decide),
    messageBits, polyRoundXtoy, Vector.getElem_map, polySubp, Vector.getElem_ofFn, polyDecompress,
    Vector.get_eq_getElem, Vector.get_eq_getElem, Vector.getElem_map, polyUnpack_eq _ _ (by omega),
    Vector.getElem_ofFn, decoded, plainField_toNat hlogt]

/-- The message bits as the fused packer takes them from their byte. -/
theorem selectBit_byte (msg : Buf) (out i : ℕ) :
    let m := promoteByte (msg (out * 128 / 8 + i))
    (m &&& 1 = selectBit msg out (8 * i)) ∧
      (∀ t, t < 8 → m >>> t &&& 1 = selectBit msg out (8 * i + t)) ∧
      m >>> 7 = selectBit msg out (8 * i + 7) := by
  intro m
  have hbit : ∀ t, t < 8 → m >>> t &&& 1 = selectBit msg out (8 * i + t) := by
    intro t ht
    have hdiv : (8 * i + t) / 8 = i := by omega
    have hmod : (8 * i + t) % 8 = t := by omega
    rw [selectBit, hdiv, hmod]
  -- the top bit is taken without a mask
  have htop : m >>> 7 = m >>> 7 &&& 1 := by
    apply BitVec.eq_of_getLsbD_eq
    intro u hu
    interval_cases u <;> simp [m]
  refine ⟨?_, hbit, htop.trans (hbit 7 (by decide))⟩
  have h0 := hbit 0 (by decide)
  rwa [BitVec.ushiftRight_zero, Nat.add_zero] at h0

theorem polyPackCiphertext3_written (ct : Buf) (acc : Poly) (msg : Buf) (out : ℕ) :
    Written 0 48 (rechunk 3 8 (polyCodes 3 (ciphertextPoly 3 acc msg out))) ct
      (polyPackCiphertext3 ct acc msg out) := by
  let C := polyCodes 3 (ciphertextPoly 3 acc msg out)
  refine fold_invariant (n := 128 / 8) (fun i b' => Written 0 (3 * i) (rechunk 3 8 C) ct b')
    (Written.refl _ _ _) ?_
  intro i hi b' h
  have hfield : ∀ k (hk : k < 128), ciphertextField 3 7 8 2 acc[k] (selectBit msg out k) =
      (C k).setWidth 32 := fun k hk => ciphertextField_stream (.inl rfl) acc msg out hk
  obtain ⟨hfirst, hbit, hlast⟩ := selectBit_byte msg out i
  have hbyte := fun t x => eq_rechunk_group (c := C) (w := 8) (m := 8) (p := 3)
    (by decide) (by decide) i t (x := x)
  simp only [hfirst, hbit 1 (by decide), hbit 2 (by decide), hbit 3 (by decide),
    hbit 4 (by decide), hbit 5 (by decide), hbit 6 (by decide), hlast, hfield]
  refine ((h.set (by omega) (hbyte 0 _ ?_)).set (by omega) (hbyte 1 _ ?_)).set (by omega)
    (hbyte 2 _ ?_) <;>
    · intro u hu
      interval_cases u <;> simp

theorem polyPackCiphertext8_written (ct : Buf) (acc : Poly) (msg : Buf) (out : ℕ) :
    Written 0 128 (rechunk 8 8 (polyCodes 8 (ciphertextPoly 8 acc msg out))) ct
      (polyPackCiphertext8 ct acc msg out) := by
  let C := polyCodes 8 (ciphertextPoly 8 acc msg out)
  refine fold_invariant (n := 128 / 8) (fun i b' => Written 0 (8 * i) (rechunk 8 8 C) ct b')
    (Written.refl _ _ _) ?_
  intro i hi b' h
  have hfield : ∀ k (hk : k < 128), toByte (ciphertextField 127 0xff 3 7 acc[k]
      (selectBit msg out k)) = rechunk 8 8 C k := by
    intro k hk
    have hk' : ciphertextField 127 0xff 3 7 acc[k] (selectBit msg out k) = (C k).setWidth 32 :=
      ciphertextField_stream (.inr rfl) acc msg out hk
    rw [hk', toByte, BitVec.setWidth_setWidth_of_le _ (by decide), BitVec.setWidth_eq]
    exact (word_ofWords C k).symm
  obtain ⟨hfirst, hbit, hlast⟩ := selectBit_byte msg out i
  simp only [hfirst, hbit 1 (by decide), hbit 2 (by decide), hbit 3 (by decide),
    hbit 4 (by decide), hbit 5 (by decide), hbit 6 (by decide), hlast, hfield]
  exact (((((((h.set (by omega) rfl).set (by omega) rfl).set (by omega) rfl).set (by omega)
    rfl).set (by omega) rfl).set (by omega) rfl).set (by omega) rfl).set (by omega) rfl

theorem polyPackCiphertext_written {logt : ℕ} (hlogt : logt = 3 ∨ logt = 8) (ct : Buf) (acc : Poly)
    (msg : Buf) (out : ℕ) :
    Written 0 (16 * logt) (rechunk logt 8 (polyCodes logt (ciphertextPoly logt acc msg out))) ct
      (polyPackCiphertextTFromAccMsg logt ct acc msg out) := by
  rcases hlogt with rfl | rfl
  · exact polyPackCiphertext3_written ct acc msg out
  · exact polyPackCiphertext8_written ct acc msg out

/-- Eight bits side by side are the byte of the one-bit stream. -/
theorem toByte_bits (C : ℕ → BitVec 1) (i : ℕ) :
    toByte ((C (8 * i)).setWidth 32 ||| (C (8 * i + 1)).setWidth 32 <<< 1 |||
      (C (8 * i + 2)).setWidth 32 <<< 2 ||| (C (8 * i + 3)).setWidth 32 <<< 3 |||
      (C (8 * i + 4)).setWidth 32 <<< 4 ||| (C (8 * i + 5)).setWidth 32 <<< 5 |||
      (C (8 * i + 6)).setWidth 32 <<< 6 ||| (C (8 * i + 7)).setWidth 32 <<< 7) =
      rechunk 1 8 C i := by
  have hbyte := fun x => eq_rechunk_group (c := C) (w := 8) (m := 8) (p := 1)
    (by decide) (by decide) i 0 (x := x)
  rw [one_mul, add_zero] at hbyte
  refine hbyte _ fun u hu => ?_
  interval_cases u <;> simp

/-- The eight fields of three ciphertext bytes; the last one fills its byte and is not
masked. -/
theorem messageFields3_eq (cm : Buf) (i : ℕ) :
    promoteByte (cm (3 * i)) &&& 0x7 = (rechunk 8 3 cm (8 * i)).setWidth 32 ∧
    promoteByte (cm (3 * i)) >>> 3 &&& 0x7 = (rechunk 8 3 cm (8 * i + 1)).setWidth 32 ∧
    (promoteByte (cm (3 * i)) >>> 6 ||| promoteByte (cm (3 * i + 1)) <<< 2) &&& 0x7 =
      (rechunk 8 3 cm (8 * i + 2)).setWidth 32 ∧
    promoteByte (cm (3 * i + 1)) >>> 1 &&& 0x7 = (rechunk 8 3 cm (8 * i + 3)).setWidth 32 ∧
    promoteByte (cm (3 * i + 1)) >>> 4 &&& 0x7 = (rechunk 8 3 cm (8 * i + 4)).setWidth 32 ∧
    (promoteByte (cm (3 * i + 1)) >>> 7 ||| promoteByte (cm (3 * i + 2)) <<< 1) &&& 0x7 =
      (rechunk 8 3 cm (8 * i + 5)).setWidth 32 ∧
    promoteByte (cm (3 * i + 2)) >>> 2 &&& 0x7 = (rechunk 8 3 cm (8 * i + 6)).setWidth 32 ∧
    promoteByte (cm (3 * i + 2)) >>> 5 = (rechunk 8 3 cm (8 * i + 7)).setWidth 32 := by
  have hcode : ∀ t (x : U32), (∀ u, u < 3 → x.getLsbD u =
      (cm (3 * i + (3 * t + u) / 8)).getLsbD ((3 * t + u) % 8)) →
      x &&& 0x7 = (rechunk 8 3 cm (8 * i + t)).setWidth 32 := fun t x hx =>
    masked_eq_rechunk (w := 3) (by decide) cm (p := 8) (by decide) i t x hx
  have hlast : promoteByte (cm (3 * i + 2)) >>> 5 = promoteByte (cm (3 * i + 2)) >>> 5 &&& 0x7 := by
    apply BitVec.eq_of_getLsbD_eq
    intro u hu
    interval_cases u <;> simp
  rw [hlast]
  refine ⟨hcode 0 _ ?_, hcode 1 _ ?_, hcode 2 _ ?_, hcode 3 _ ?_, hcode 4 _ ?_, hcode 5 _ ?_,
    hcode 6 _ ?_, hcode 7 _ ?_⟩ <;>
    · intro u hu
      interval_cases u <;> simp

theorem messageByte3_eq (acc : Poly) (cm : Buf) (r : Poly) {i : ℕ} (hi : i < 128 / 8) :
    messageByte3 acc cm i hi = rechunk 1 8 (polyCodes 1 (messageBits 3 acc cm r)) i := by
  let C := polyCodes 1 (messageBits 3 acc cm r)
  have hfield : ∀ k (hk : k < 128), messageField 3 126 8 acc[k]
      ((rechunk 8 3 cm k).setWidth 32) = (C k).setWidth 32 :=
    fun k hk => messageField_stream (.inl rfl) acc cm r hk
  obtain ⟨c0, c1, c2, c3, c4, c5, c6, c7⟩ := messageFields3_eq cm i
  simp only [messageByte3, c0, c1, c2, c3, c4, c5, c6, c7, hfield]
  exact toByte_bits C i

theorem messageByte8_eq (acc : Poly) (cm : Buf) (r : Poly) {i : ℕ} (hi : i < 128 / 8) :
    messageByte8 acc cm i hi = rechunk 1 8 (polyCodes 1 (messageBits 8 acc cm r)) i := by
  let C := polyCodes 1 (messageBits 8 acc cm r)
  have hfield : ∀ k (hk : k < 128), messageField 127 2 3 acc[k] (promoteByte (cm k)) =
      (C k).setWidth 32 := by
    intro k hk
    have hbyte : cm k = rechunk 8 8 cm k := (word_ofWords cm k).symm
    rw [promoteByte, hbyte]
    exact messageField_stream (.inr rfl) acc cm r hk
  simp only [messageByte8, hfield]
  exact toByte_bits C i

theorem polyPackMessage3_written (m : Buf) (acc : Poly) (cm : Buf) (r : Poly) :
    Written 0 16 (rechunk 1 8 (polyCodes 1 (messageBits 3 acc cm r))) m
      (polyPackMessage3 m acc cm) :=
  Written.fold_set (n := 128 / 8) (fun _ hi => messageByte3_eq acc cm r hi) m

theorem polyPackMessage8_written (m : Buf) (acc : Poly) (cm : Buf) (r : Poly) :
    Written 0 16 (rechunk 1 8 (polyCodes 1 (messageBits 8 acc cm r))) m
      (polyPackMessage8 m acc cm) :=
  Written.fold_set (n := 128 / 8) (fun _ hi => messageByte8_eq acc cm r hi) m

theorem polyPackMessage_written {logt : ℕ} (hlogt : logt = 3 ∨ logt = 8) (m : Buf) (acc : Poly)
    (cm : Buf) (r : Poly) :
    Written 0 16 (rechunk 1 8 (polyCodes 1 (messageBits logt acc cm r))) m
      (polyPackMessageFromAccCm logt m acc cm) := by
  rcases hlogt with rfl | rfl
  · exact polyPackMessage3_written m acc cm r
  · exact polyPackMessage8_written m acc cm r

/-- The fused packer writes what the plain path writes. -/
theorem polyPackCiphertext_eq_plain {logt : ℕ} (hlogt : logt = 3 ∨ logt = 8) (ct : Buf)
    (acc : Poly) (msg : Buf) (out : ℕ) :
    polyPackCiphertextTFromAccMsg logt ct acc msg out =
      polyPack ct (ciphertextPoly logt acc msg out) logt := by
  funext j
  rw [polyPackCiphertext_written hlogt ct acc msg out j,
    polyPack_written ct (ciphertextPoly logt acc msg out) (by omega) j]

/-- The fused decoder writes what the plain path writes. -/
theorem polyPackMessage_eq_plain {logt : ℕ} (hlogt : logt = 3 ∨ logt = 8) (m : Buf) (acc : Poly)
    (cm : Buf) (r : Poly) :
    polyPackMessageFromAccCm logt m acc cm = polyPack m (messageBits logt acc cm r) 1 := by
  funext j
  rw [polyPackMessage_written hlogt m acc cm r j,
    polyPack_written m (messageBits logt acc cm r) (by decide) j]

/-- The packer reads the sixteen message bytes of its row. -/
theorem polyPackCiphertext_congr {logt : ℕ} (hlogt : logt = 3 ∨ logt = 8) (ct : Buf) (acc : Poly)
    {msg msg' : Buf} (out : ℕ) (h : ∀ j < 16, msg (out * 16 + j) = msg' (out * 16 + j)) :
    polyPackCiphertextTFromAccMsg logt ct acc msg out =
      polyPackCiphertextTFromAccMsg logt ct acc msg' out := by
  have hbit : ∀ j : Fin 128, selectBit msg out j = selectBit msg' out j := by
    intro j
    have hidx : out * 128 / 8 + j.val / 8 = out * 16 + j.val / 8 := by omega
    rw [selectBit, selectBit, hidx, h _ (by omega)]
  have hpoly : messagePoly acc msg out = messagePoly acc msg' out :=
    congrArg Vector.ofFn (funext fun j => by rw [hbit j])
  rw [polyPackCiphertext_eq_plain hlogt, polyPackCiphertext_eq_plain hlogt, ciphertextPoly,
    ciphertextPoly, hpoly]

/-- The decoder reads the block of its row. -/
theorem polyPackMessage_congr {logt : ℕ} (hlogt : logt = 3 ∨ logt = 8) (m : Buf) (acc : Poly)
    {cm cm' : Buf} (h : ∀ j < 16 * logt, cm j = cm' j) :
    polyPackMessageFromAccCm logt m acc cm = polyPackMessageFromAccCm logt m acc cm' := by
  let r : Poly := Vector.replicate 128 0
  have hread : polyUnpack r cm logt = polyUnpack r cm' logt :=
    ((polyPack_isCodec (by omega) (by omega)).reads cm cm' r r).mpr h
  rw [polyPackMessage_eq_plain hlogt m acc cm r, polyPackMessage_eq_plain hlogt m acc cm' r,
    messageBits, messageBits, hread]

end Streams

section Law

/-- Bit `k` of a byte array. -/
def bitAt (b : Buf) (k : ℕ) : Bool := (b (k / 8)).getLsbD (k % 8)

/-- The bit that the decoder reads from a field. -/
theorem bitAt_message {logt : ℕ} (hlogt : logt = 3 ∨ logt = 8) (m : Buf) (acc : Poly)
    (cm : Buf) {k : ℕ} (hk : k < 128) :
    bitAt (polyPackMessageFromAccCm logt m acc cm) k =
      decide (decodeBit logt acc[k] (rechunk 8 logt cm k).toNat = 1) := by
  let C := polyCodes 1 (messageBits logt acc cm (Vector.replicate 128 0))
  have hw := polyPackMessage_written hlogt m acc cm (Vector.replicate 128 0)
  have hword := messageField_stream hlogt acc cm (Vector.replicate 128 0) hk
  have hbit : bitAt (polyPackMessageFromAccCm logt m acc cm) k = (C k).getLsbD 0 := by
    rw [bitAt, hw.inside (Nat.zero_le _) (by omega)]
    have hs : ofWords 8 (rechunk 1 8 C) k = ofWords 1 C k := by
      rw [rechunk, ofWords_word (by decide)]
    refine hs.trans ?_
    rw [ofWords, Nat.div_one, Nat.mod_one]
  have htoNat := congrArg BitVec.toNat hword
  rw [messageField_toNat hlogt, BitVec.toNat_setWidth_of_le (by decide)] at htoNat
  have hone : ∀ c : BitVec 1, c.getLsbD 0 = decide (c.toNat = 1) := by decide
  rw [hbit, htoNat]
  exact hone (C k)

/-- The field that the fused packer wrote for coefficient `k`. -/
theorem rechunk_ciphertext_toNat {logt : ℕ} (hlogt : logt = 3 ∨ logt = 8) (ct : Buf) (acc : Poly)
    (msg : Buf) (out : ℕ) {k : ℕ} (hk : k < 128) :
    ((rechunk 8 logt (polyPackCiphertextTFromAccMsg logt ct acc msg out) k).toNat : ℤ) =
      ((2 ^ (logt - 1) - 1 : ℕ) - ((acc[k].toNat + 2 +
        1024 * (bitAt msg (128 * out + k)).toNat) % 2048 / 2 ^ (11 - logt) : ℕ)) % 2 ^ logt := by
  have hw := polyPackCiphertext_written hlogt ct acc msg out
  have hbits : logt * (k + 1) ≤ 8 * (16 * logt) := by
    have h := Nat.mul_le_mul_left logt (show k + 1 ≤ 128 by omega)
    omega
  -- reading fields back from the written bytes undoes the packing
  have hread := rechunk_of_eq (n := 16 * logt) (by decide)
    (fun j hj => hw.inside (Nat.zero_le _) hj) hbits
  have hcarry := carries_packCode logt (ciphertextPoly logt acc msg out)[k]
  have hcoeff : (ciphertextPoly logt acc msg out)[k].toNat =
      (acc[k].toNat + 2 + 1024 * (bitAt msg (128 * out + k)).toNat) % 2048 / 2 ^ (11 - logt) := by
    rw [ciphertextPoly, polyCompress, Vector.getElem_map, compress_toNat, messagePoly,
      Vector.getElem_ofFn, selectBit_eq, addMsgCoeff_toNat]
    rfl
  have h := hcarry.toNat_setWidth
  rwa [BitVec.setWidth_eq, hcoeff, ← polyCodes_apply logt _ hk, ← hread] at h

/-- A message bit survives when the noise, off-centre by the flooring of the
ciphertext, stays in half of the circle. -/
theorem bitAt_roundtrip {logt : ℕ} (hlogt : logt = 3 ∨ logt = 8) (ct m : Buf) (acc' acc : Poly)
    (msg : Buf) (out : ℕ) {k : ℕ} (hk : k < 128) :
    bitAt (polyPackMessageFromAccCm logt m acc
        (polyPackCiphertextTFromAccMsg logt ct acc' msg out)) k = bitAt msg (128 * out + k) ↔
      (((acc'[k].toNat : ℤ) + 2) % (2048 / 2 ^ logt) - ((acc'[k].toNat : ℤ) - acc[k].toNat) % 2048 +
        (2048 / (2 * 2 ^ logt) - 4) + 512) % 2048 < 1024 := by
  have hfield := rechunk_ciphertext_toNat hlogt ct acc' msg out hk
  rw [bitAt_message hlogt m acc _ hk]
  generalize (rechunk 8 logt (polyPackCiphertextTFromAccMsg logt ct acc' msg out) k).toNat = c
    at hfield ⊢
  rw [decodeBit, decodeValue]
  generalize bitAt msg (128 * out + k) = β at hfield ⊢
  rcases hlogt with rfl | rfl <;> cases β <;>
    simp only [Bool.toNat_true, Bool.toNat_false, decide_eq_true_eq,
      decide_eq_false_iff_not] at * <;>
    omega

theorem byte_eq_of_bitAt {b b' : Buf} {i j : ℕ}
    (h : ∀ t, t < 8 → bitAt b (8 * i + t) = bitAt b' (8 * j + t)) : b i = b' j := by
  apply BitVec.eq_of_getLsbD_eq
  intro t ht
  have hbit := h t ht
  rwa [bitAt, bitAt, Nat.mul_add_div (by decide), Nat.mul_add_div (by decide),
    Nat.div_eq_of_lt ht, Nat.mul_add_mod, Nat.mul_add_mod, Nat.mod_eq_of_lt ht] at hbit

/-- The exact condition for a message bit to survive, and its special case without
noise. -/
theorem message_codec_law (P : SecurityLevel) (acc' acc : Poly) (msg : Bytes P.messageLen)
    (out : Fin P.ell) (ct m : Buf) :
    let p : ℤ := 2048
    let t : ℤ := 2 ^ P.logt
    let cm := polyPackCiphertextTFromAccMsg P.logt ct acc' (bufOf msg) out
    let m' := polyPackMessageFromAccCm P.logt m acc cm
    (∀ k : Fin 128,
      let f := (((acc'.get k).toNat : ℤ) + 2) % (p / t)
      let d := (((acc'.get k).toNat : ℤ) - (acc.get k).toNat) % p
      let H := p / (2 * t) - 4
      bitAt m' k = bitAt (bufOf msg) (128 * out + k) ↔ (f - d + H + p / 4) % p < p / 2) ∧
    ((∀ k : Fin 128, (acc'.get k).toNat % 2048 = (acc.get k).toNat % 2048) →
      ∀ j < 16, m' j = bufOf msg (16 * out + j)) := by
  intro p t cm m'
  have hbit : ∀ k (hk : k < 128), bitAt m' k = bitAt (bufOf msg) (128 * out + k) ↔
      (((acc'[k].toNat : ℤ) + 2) % (2048 / 2 ^ P.logt) -
        ((acc'[k].toNat : ℤ) - acc[k].toNat) % 2048 +
        (2048 / (2 * 2 ^ P.logt) - 4) + 512) % 2048 < 1024 :=
    fun k hk => bitAt_roundtrip P.logt_cases ct m acc' acc (bufOf msg) out hk
  refine ⟨fun k => hbit k k.isLt, fun hacc j hj => byte_eq_of_bitAt fun u hu => ?_⟩
  have hk : 8 * j + u < 128 := by omega
  have hidx : 8 * (16 * out.val + j) + u = 128 * out.val + (8 * j + u) := by omega
  have hsame := hacc ⟨8 * j + u, hk⟩
  rw [hidx]
  refine (hbit _ hk).mpr ?_
  rw [Vector.get_eq_getElem, Vector.get_eq_getElem] at hsame
  simp only at hsame
  rcases P.logt_cases with h | h <;> rw [h] <;> omega

end Law

end RrlwrKem
