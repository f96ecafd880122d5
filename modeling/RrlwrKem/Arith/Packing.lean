import RrlwrKem.Library.ArrayPolynomial
import RrlwrKem.Library.BitStream
import RrlwrKem.Library.Residue
import RrlwrKem.Memory

/-!
# Packing of polynomials

`poly_pack`, `poly_unpack` and their ring versions, in the build with 32-bit
scalars. A coefficient `r` is stored as `2^(bitlen-1) - 1 - r` in `bitlen` bits.
The unrolled functions for 2, 11 and 13 bits and the generic loops with a bit
accumulator all move one and the same bit stream, which `BitStream.rechunk` cuts
into bytes.
-/

namespace RrlwrKem

open ArrayPolynomial BitStream Word

section Definitions

def polyPack2 (b : Buf) (r : Poly) : Buf :=
  Nat.fold 32 (fun i hi b =>
    let c0 := (1 - promote r[4 * i]) &&& 0x3
    let c1 := (1 - promote r[4 * i + 1]) &&& 0x3
    let c2 := (1 - promote r[4 * i + 2]) &&& 0x3
    let c3 := (1 - promote r[4 * i + 3]) &&& 0x3
    b.set i (toByte (c0 ||| c1 <<< 2 ||| c2 <<< 4 ||| c3 <<< 6))) b

def polyPack11 (b : Buf) (r : Poly) : Buf :=
  Nat.fold 16 (fun i hi b =>
    let c0 := (1023 - promote r[8 * i]) &&& 0x7ff
    let c1 := (1023 - promote r[8 * i + 1]) &&& 0x7ff
    let c2 := (1023 - promote r[8 * i + 2]) &&& 0x7ff
    let c3 := (1023 - promote r[8 * i + 3]) &&& 0x7ff
    let c4 := (1023 - promote r[8 * i + 4]) &&& 0x7ff
    let c5 := (1023 - promote r[8 * i + 5]) &&& 0x7ff
    let c6 := (1023 - promote r[8 * i + 6]) &&& 0x7ff
    let c7 := (1023 - promote r[8 * i + 7]) &&& 0x7ff
    let p := 11 * i
    let b := b.set p (toByte c0)
    let b := b.set (p + 1) (toByte (c0 >>> 8 ||| c1 <<< 3))
    let b := b.set (p + 2) (toByte (c1 >>> 5 ||| c2 <<< 6))
    let b := b.set (p + 3) (toByte (c2 >>> 2))
    let b := b.set (p + 4) (toByte (c2 >>> 10 ||| c3 <<< 1))
    let b := b.set (p + 5) (toByte (c3 >>> 7 ||| c4 <<< 4))
    let b := b.set (p + 6) (toByte (c4 >>> 4 ||| c5 <<< 7))
    let b := b.set (p + 7) (toByte (c5 >>> 1))
    let b := b.set (p + 8) (toByte (c5 >>> 9 ||| c6 <<< 2))
    let b := b.set (p + 9) (toByte (c6 >>> 6 ||| c7 <<< 5))
    b.set (p + 10) (toByte (c7 >>> 3))) b

/-- The variables of the packing loop. -/
structure PackState where
  b : Buf
  acc : U32
  accShift : ℕ
  bpos : ℕ

/-- `while (acc_shift >= 8)`. -/
def packFlush (s : PackState) : PackState :=
  if 8 ≤ s.accShift then
    packFlush
      { b := s.b.set s.bpos (toByte (s.acc &&& 0xff))
        acc := s.acc >>> 8
        accShift := s.accShift - 8
        bpos := s.bpos + 1 }
  else s
termination_by s.accShift

def packStep (bitlen : ℕ) (c : U16) (s : PackState) : PackState :=
  packFlush { s with
    acc := s.acc ||| promote c <<< s.accShift
    accShift := s.accShift + bitlen }

/-- `((1 << (bitlen - 1)) - 1 - c) & ((1 << bitlen) - 1)`. -/
def complementCode (bitlen : ℕ) (c : U16) : U16 :=
  toU16 ((((1 : U32) <<< (bitlen - 1)) - 1 - promote c) &&& (((1 : U32) <<< bitlen) - 1))

def polyPackLoop (b : Buf) (r : Poly) (bitlen : ℕ) : Buf :=
  let rp := r.map (complementCode bitlen)
  (Nat.fold 4 (fun block hb s =>
    Nat.fold 32 (fun i hi s => packStep bitlen rp[32 * block + i] s) s)
    { b, acc := 0, accShift := 0, bpos := 0 }).b

def polyPack (b : Buf) (r : Poly) (bitlen : ℕ) : Buf :=
  if bitlen = 2 then polyPack2 b r
  else if bitlen = 11 then polyPack11 b r
  else polyPackLoop b r bitlen

def polyUnpack2 (r : Poly) (b : Buf) : Poly :=
  let qmask : U32 := 8191
  Nat.fold 32 (fun i hi r =>
    let x := promoteByte (b i)
    let r := r.set (4 * i) (toU16 ((1 - (x &&& 0x3)) &&& qmask))
    let r := r.set (4 * i + 1) (toU16 ((1 - (x >>> 2 &&& 0x3)) &&& qmask))
    let r := r.set (4 * i + 2) (toU16 ((1 - (x >>> 4 &&& 0x3)) &&& qmask))
    r.set (4 * i + 3) (toU16 ((1 - x >>> 6) &&& qmask))) r

def polyUnpack11 (r : Poly) (b : Buf) : Poly :=
  Nat.fold 16 (fun i hi r =>
    let p := fun j => promoteByte (b (11 * i + j))
    let c0 := (p 0 ||| p 1 <<< 8) &&& 0x7ff
    let c1 := (p 1 >>> 3 ||| p 2 <<< 5) &&& 0x7ff
    let c2 := (p 2 >>> 6 ||| p 3 <<< 2 ||| p 4 <<< 10) &&& 0x7ff
    let c3 := (p 4 >>> 1 ||| p 5 <<< 7) &&& 0x7ff
    let c4 := (p 5 >>> 4 ||| p 6 <<< 4) &&& 0x7ff
    let c5 := (p 6 >>> 7 ||| p 7 <<< 1 ||| p 8 <<< 9) &&& 0x7ff
    let c6 := (p 8 >>> 2 ||| p 9 <<< 6) &&& 0x7ff
    let c7 := (p 9 >>> 5 ||| p 10 <<< 3) &&& 0x7ff
    let r := r.set (8 * i) (toU16 ((1023 - c0) &&& 0x7ff))
    let r := r.set (8 * i + 1) (toU16 ((1023 - c1) &&& 0x7ff))
    let r := r.set (8 * i + 2) (toU16 ((1023 - c2) &&& 0x7ff))
    let r := r.set (8 * i + 3) (toU16 ((1023 - c3) &&& 0x7ff))
    let r := r.set (8 * i + 4) (toU16 ((1023 - c4) &&& 0x7ff))
    let r := r.set (8 * i + 5) (toU16 ((1023 - c5) &&& 0x7ff))
    let r := r.set (8 * i + 6) (toU16 ((1023 - c6) &&& 0x7ff))
    r.set (8 * i + 7) (toU16 ((1023 - c7) &&& 0x7ff))) r

def polyUnpack13 (r : Poly) (b : Buf) : Poly :=
  Nat.fold 16 (fun i hi r =>
    let p := fun j => promoteByte (b (13 * i + j))
    let c0 := (p 0 ||| p 1 <<< 8) &&& 0x1fff
    let c1 := (p 1 >>> 5 ||| p 2 <<< 3 ||| p 3 <<< 11) &&& 0x1fff
    let c2 := (p 3 >>> 2 ||| p 4 <<< 6) &&& 0x1fff
    let c3 := (p 4 >>> 7 ||| p 5 <<< 1 ||| p 6 <<< 9) &&& 0x1fff
    let c4 := (p 6 >>> 4 ||| p 7 <<< 4 ||| p 8 <<< 12) &&& 0x1fff
    let c5 := (p 8 >>> 1 ||| p 9 <<< 7) &&& 0x1fff
    let c6 := (p 9 >>> 6 ||| p 10 <<< 2 ||| p 11 <<< 10) &&& 0x1fff
    let c7 := (p 11 >>> 3 ||| p 12 <<< 5) &&& 0x1fff
    let r := r.set (8 * i) (toU16 ((4095 - c0) &&& 0x1fff))
    let r := r.set (8 * i + 1) (toU16 ((4095 - c1) &&& 0x1fff))
    let r := r.set (8 * i + 2) (toU16 ((4095 - c2) &&& 0x1fff))
    let r := r.set (8 * i + 3) (toU16 ((4095 - c3) &&& 0x1fff))
    let r := r.set (8 * i + 4) (toU16 ((4095 - c4) &&& 0x1fff))
    let r := r.set (8 * i + 5) (toU16 ((4095 - c5) &&& 0x1fff))
    let r := r.set (8 * i + 6) (toU16 ((4095 - c6) &&& 0x1fff))
    r.set (8 * i + 7) (toU16 ((4095 - c7) &&& 0x1fff))) r

/-- The variables of the unpacking loop. -/
structure UnpackState where
  r : Poly
  acc : U32
  accShift : ℕ
  bpos : ℕ

/-- `while (acc_shift < bitlen)`. -/
def unpackRefill (bitlen : ℕ) (b : Buf) (s : UnpackState) : UnpackState :=
  if s.accShift < bitlen then
    unpackRefill bitlen b { s with
      acc := s.acc ||| promoteByte (b s.bpos) <<< s.accShift
      accShift := s.accShift + 8
      bpos := s.bpos + 1 }
  else s
termination_by bitlen - s.accShift

def unpackStep (bitlen : ℕ) (b : Buf) (i : ℕ) (hi : i < 128) (s : UnpackState) : UnpackState :=
  let s := unpackRefill bitlen b s
  { s with
    r := s.r.set i (toU16 (s.acc &&& (((1 : U32) <<< bitlen) - 1)))
    acc := s.acc >>> bitlen
    accShift := s.accShift - bitlen }

def polyUnpackLoop (r : Poly) (b : Buf) (bitlen : ℕ) : Poly :=
  let s := Nat.fold 4 (fun block hb s =>
    Nat.fold 32 (fun i hi s => unpackStep bitlen b (32 * block + i) (by omega) s) s)
    { r, acc := 0, accShift := 0, bpos := 0 }
  s.r.map (complementCode bitlen)

/-- Every coefficient is overwritten, so `r` is only the memory that is filled. -/
def polyUnpack (r : Poly) (b : Buf) (bitlen : ℕ) : Poly :=
  if bitlen = 2 then polyUnpack2 r b
  else if bitlen = 13 then polyUnpack13 r b
  else if bitlen = 11 then polyUnpack11 r b
  else polyUnpackLoop r b bitlen

variable {K : ℕ}

def ringPack11 (b : Buf) (r : RingElement K) : Buf :=
  Nat.fold K (fun i hi b => b.writeAt (i * 176) fun p => polyPack11 p r[i]) b

def ringPack2 (b : Buf) (r : RingElement K) : Buf :=
  Nat.fold K (fun i hi b => b.writeAt (i * 32) fun p => polyPack2 p r[i]) b

def ringPack (b : Buf) (r : RingElement K) (bitlen : ℕ) : Buf :=
  if bitlen = 2 then ringPack2 b r
  else if bitlen = 11 then ringPack11 b r
  else
    let offset := bitlen * 16
    Nat.fold K (fun i hi b => b.writeAt (i * offset) fun p => polyPack p r[i] bitlen) b

def ringUnpack2 (r : RingElement K) (b : Buf) : RingElement K :=
  Nat.fold K (fun i hi r => r.set i (polyUnpack2 r[i] (b.offset (i * 32)))) r

def ringUnpack (r : RingElement K) (b : Buf) (bitlen : ℕ) : RingElement K :=
  if bitlen = 2 then ringUnpack2 r b
  else
    let offset := bitlen * 16
    Nat.fold K (fun i hi r => r.set i (polyUnpack r[i] (b.offset (i * offset)) bitlen)) r

end Definitions

section Codes

/-- The stored value of a coefficient, the complement `2^(w-1) - 1 - x`. -/
def packCode (w : ℕ) (x : U16) : BitVec w := BitVec.ofNat w (2 ^ (w - 1) - 1) - x.setWidth w

/-- The coefficient that a stored value stands for: two bits are centred modulo
`q`, all other widths give the residue. -/
def unpackCode (w : ℕ) (c : BitVec w) : U16 :=
  if w = 2 then (1 - c.setWidth 13).setWidth 16
  else (BitVec.ofNat w (2 ^ (w - 1) - 1) - c).setWidth 16

/-- The stored values of a polynomial. -/
def polyCodes (w : ℕ) (r : Poly) (j : ℕ) : BitVec w :=
  if h : j < 128 then packCode w r[j] else 0

theorem polyCodes_apply (w : ℕ) (r : Poly) {j : ℕ} (hj : j < 128) :
    polyCodes w r j = packCode w r[j] := dif_pos hj

/-- The masked difference of the unrolled packers is the stored value. -/
theorem masked_eq_packCode {w : ℕ} (hw : w < 32) (x : U16) :
    (BitVec.ofNat 32 (2 ^ (w - 1) - 1) - promote x) &&& BitVec.ofNat 32 (2 ^ w - 1) =
      (packCode w x).setWidth 32 := by
  rw [and_mask _ hw, setWidth_sub_setWidth (by omega), packCode, BitVec.setWidth_ofNat_of_le]
  omega

theorem setWidth_setWidth_32 {w : ℕ} (c : BitVec w) :
    toU16 (c.setWidth 32) = c.setWidth 16 :=
  BitVec.setWidth_setWidth_of_le c (by omega)

theorem complementCode_eq {w : ℕ} (hw : w < 32) (x : U16) :
    complementCode w x = (packCode w x).setWidth 16 := by
  have h := masked_eq_packCode hw x
  rw [← mask_eq, ← mask_eq] at h
  exact (congrArg toU16 h).trans (setWidth_setWidth_32 _)

/-- The stored value determines the coefficient modulo `2^w`, and nothing more. -/
theorem packCode_eq_iff {w : ℕ} (x y : U16) :
    packCode w x = packCode w y ↔ x.setWidth w = y.setWidth w := by
  rw [packCode, packCode, sub_right_inj]

theorem packCode_unpackCode {w : ℕ} (hw : w ≤ 16) (c : BitVec w) :
    packCode w (unpackCode w c) = c := by
  rw [packCode, unpackCode]
  by_cases h2 : w = 2
  · subst h2
    revert c
    decide
  · rw [if_neg h2, BitVec.setWidth_setWidth_of_le _ hw, BitVec.setWidth_eq, sub_sub_cancel]

theorem unpackCode_two_mem (c : BitVec 2) :
    (unpackCode 2 c).toNat ∈ ({0, 1, 8191, 8190} : Finset ℕ) := by
  revert c
  decide

theorem unpackCode_lt {w : ℕ} (h2 : w ≠ 2) (c : BitVec w) : (unpackCode w c).toNat < 2 ^ w := by
  rw [unpackCode, if_neg h2, BitVec.toNat_setWidth]
  exact (Nat.mod_le _ _).trans_lt (BitVec.isLt _)

theorem unpackCode_packCode {w : ℕ} (h2 : w ≠ 2) (x : U16) :
    unpackCode w (packCode w x) = (x.setWidth w).setWidth 16 := by
  rw [unpackCode, packCode, if_neg h2, sub_sub_cancel]

end Codes

section Pack

theorem polyPack2_written (b : Buf) (r : Poly) :
    Written 0 32 (rechunk 2 8 (polyCodes 2 r)) b (polyPack2 b r) := by
  refine fold_invariant (fun i b' => Written 0 i (rechunk 2 8 (polyCodes 2 r)) b b')
    (Written.refl _ _ _) ?_
  intro i hi b' h
  have hc : ∀ j (hj : j < 128), ((1 : U32) - promote r[j]) &&& 0x3 =
      (polyCodes 2 r j).setWidth 32 := by
    intro j hj
    rw [polyCodes_apply 2 r hj]
    exact masked_eq_packCode (w := 2) (by decide) r[j]
  have hbyte := fun x => eq_rechunk_group (c := polyCodes 2 r) (w := 8) (m := 4) (p := 1)
    (by decide) (by decide) i 0 (x := x)
  rw [one_mul, add_zero] at hbyte
  refine h.set (by omega) (hbyte _ fun u hu => ?_)
  simp only [hc]
  interval_cases u <;> simp

theorem polyPack11_written (b : Buf) (r : Poly) :
    Written 0 176 (rechunk 11 8 (polyCodes 11 r)) b (polyPack11 b r) := by
  refine fold_invariant (fun i b' => Written 0 (11 * i) (rechunk 11 8 (polyCodes 11 r)) b b')
    (Written.refl _ _ _) ?_
  intro i hi b' h
  have hc : ∀ j (hj : j < 128), ((1023 : U32) - promote r[j]) &&& 0x7ff =
      (polyCodes 11 r j).setWidth 32 := by
    intro j hj
    rw [polyCodes_apply 11 r hj]
    exact masked_eq_packCode (w := 11) (by decide) r[j]
  have hbyte := fun t x => eq_rechunk_group (c := polyCodes 11 r) (w := 8) (m := 8) (p := 11)
    (by decide) (by decide) i t (x := x)
  simp only [hc]
  refine ((((((((((((h.set ?_ (hbyte 0 _ ?_)).set ?_ (hbyte 1 _ ?_)).set ?_ (hbyte 2 _ ?_)).set ?_
    (hbyte 3 _ ?_)).set ?_ (hbyte 4 _ ?_)).set ?_ (hbyte 5 _ ?_)).set ?_ (hbyte 6 _ ?_)).set ?_
    (hbyte 7 _ ?_)).set ?_ (hbyte 8 _ ?_)).set ?_ (hbyte 9 _ ?_)).set ?_ (hbyte 10 _ ?_))) <;>
    first
    | omega
    | intro u hu
      interval_cases u <;> simp

/-- After `q` bits of the stream have gone in, whole bytes are in memory and the
accumulator holds the rest. -/
structure PackInvariant (s : ℕ → Bool) (q : ℕ) (b0 : Buf) (st : PackState) : Prop where
  written : Written 0 st.bpos (word 8 s) b0 st.b
  position : 8 * st.bpos + st.accShift = q
  fits : st.accShift ≤ 32
  window : Window st.acc s (8 * st.bpos) q

theorem toByte_mask (x : U32) : toByte (x &&& 0xff) = x.setWidth 8 := by
  rw [show (0xff : U32) = BitVec.ofNat 32 (2 ^ 8 - 1) from rfl, and_mask x (by decide), toByte,
    BitVec.setWidth_setWidth_of_le _ (by decide), BitVec.setWidth_eq]

theorem packFlush_invariant {s : ℕ → Bool} {q : ℕ} {b0 : Buf} {st : PackState}
    (h : PackInvariant s q b0 st) :
    PackInvariant s q b0 (packFlush st) ∧ (packFlush st).accShift < 8 := by
  induction st using packFlush.induct with
  | case1 st hge ih =>
    rw [packFlush, if_pos hge]
    obtain ⟨hwr, hpos, hfit, hwin⟩ := h
    refine ih ⟨hwr.set (by omega) ?_, ?_, ?_, ?_⟩
    · rw [toByte_mask]
      apply BitVec.eq_of_getLsbD_eq
      intro t ht
      rw [hwin.setWidth (by omega) ht, getLsbD_word _ _ ht]
    · simp only
      omega
    · simp only
      omega
    · exact hwin.drop 8
  | case2 st hlt =>
    rw [packFlush, if_neg hlt]
    exact ⟨h, by omega⟩

theorem packStep_invariant {w : ℕ} (hw : w ≤ 16) (c : ℕ → BitVec w) (k : ℕ) {b0 : Buf}
    {st : PackState} (h : PackInvariant (ofWords w c) (w * k) b0 st) (hlt : st.accShift < 8) :
    PackInvariant (ofWords w c) (w * (k + 1)) b0 (packStep w ((c k).setWidth 16) st) ∧
      (packStep w ((c k).setWidth 16) st).accShift < 8 := by
  obtain ⟨hwr, hpos, hfit, hwin⟩ := h
  have hk : w * (k + 1) = w * k + w := Nat.mul_succ w k
  have hc : promote ((c k).setWidth 16) = (c k).setWidth 32 :=
    BitVec.setWidth_setWidth (by omega)
  refine packFlush_invariant ⟨hwr, ?_, ?_, ?_⟩
  · simp only
    omega
  · simp only
    omega
  · -- less than a byte was left over, so the new word fits above it
    have hs : st.accShift = w * k - 8 * st.bpos := by omega
    rw [hc, hk, hs]
    exact hwin.push (window_word (by omega) c k) (by omega) (by omega)

theorem polyPackLoop_written (b : Buf) (r : Poly) {w : ℕ} (hw : w ≤ 16) :
    Written 0 (16 * w) (rechunk w 8 (polyCodes w r)) b (polyPackLoop b r w) := by
  have hc : ∀ j (hj : j < 128), (r.map (complementCode w))[j] = (polyCodes w r j).setWidth 16 := by
    intro j hj
    rw [Vector.getElem_map, complementCode_eq (by omega), polyCodes_apply w r hj]
  have hend := fold_invariant (n := 4)
    (f := fun block hb s => Nat.fold 32 (fun i hi s =>
      packStep w (r.map (complementCode w))[32 * block + i] s) s)
    (a := { b, acc := 0, accShift := 0, bpos := 0 })
    (fun block s => PackInvariant (ofWords w (polyCodes w r)) (w * (32 * block)) b s ∧
      s.accShift < 8)
    ⟨⟨Written.refl _ _ _, by simp, by simp, window_zero _ _⟩, by simp⟩ (by
      intro block hb s hs
      refine fold_invariant (fun i s => PackInvariant (ofWords w (polyCodes w r))
        (w * (32 * block + i)) b s ∧ s.accShift < 8) hs ?_
      rintro i hi s ⟨hinv, hlt⟩
      rw [hc]
      exact packStep_invariant hw _ _ hinv hlt)
  -- the stream ends on a byte, so the accumulator is empty at the end
  obtain ⟨⟨hwr, hpos, -, -⟩, hlt⟩ := hend
  exact hwr.of_eq (by omega)

theorem polyPack_written (b : Buf) (r : Poly) {w : ℕ} (hw : w ≤ 16) :
    Written 0 (16 * w) (rechunk w 8 (polyCodes w r)) b (polyPack b r w) := by
  rw [polyPack]
  by_cases h2 : w = 2
  · subst h2
    exact polyPack2_written b r
  by_cases h11 : w = 11
  · subst h11
    exact polyPack11_written b r
  rw [if_neg h2, if_neg h11]
  exact polyPackLoop_written b r hw

end Pack

section Unpack

/-- The first `n` coefficients are those of `W`. -/
def Filled (n : ℕ) (W : ℕ → U16) (r : Poly) : Prop := ∀ j (hj : j < 128), j < n → r[j] = W j

theorem Filled.zero (W : ℕ → U16) (r : Poly) : Filled 0 W r := by
  intro j hj h0
  omega

theorem Filled.set {n : ℕ} {W : ℕ → U16} {r : Poly} (h : Filled n W r) (hn : n < 128) {x : U16}
    (hx : x = W n) : Filled (n + 1) W (r.set n x hn) := by
  intro j hj hlt
  rw [Vector.getElem_set]
  by_cases he : n = j
  · rw [if_pos he, hx, he]
  · rw [if_neg he]
    exact h j hj (by omega)

theorem Filled.eq_ofFn {W : ℕ → U16} {r : Poly} (h : Filled 128 W r) :
    r = Vector.ofFn fun j => W j := by
  ext j hj
  rw [h j hj hj, Vector.getElem_ofFn]

/-- The coefficients that a packed polynomial stands for. -/
def decoded (w : ℕ) (b : Buf) (j : ℕ) : U16 := unpackCode w (rechunk 8 w b j)

/-- The masked difference of the unrolled unpackers is the coefficient. -/
theorem masked_eq_unpackCode {w : ℕ} (hw : w < 32) (h2 : w ≠ 2) (c : BitVec w) :
    toU16 ((BitVec.ofNat 32 (2 ^ (w - 1) - 1) - c.setWidth 32) &&& BitVec.ofNat 32 (2 ^ w - 1)) =
      unpackCode w c := by
  rw [and_mask _ hw, setWidth_sub_setWidth (by omega), BitVec.setWidth_ofNat_of_le (by omega),
    BitVec.setWidth_eq, setWidth_setWidth_32, unpackCode, if_neg h2]

theorem masked_eq_unpackCode_two (c : BitVec 2) :
    toU16 ((1 - c.setWidth 32) &&& 8191) = unpackCode 2 c := by
  revert c
  decide

/-- A masked combination of bytes is the word of the stream with the same bits. -/
theorem masked_eq_rechunk {w : ℕ} (hw : w < 32) (b : Buf) {m p : ℕ} (hmp : 8 * m = w * p)
    (i t : ℕ) (x : U32) (hx : ∀ u, u < w → x.getLsbD u =
      (b (m * i + (w * t + u) / 8)).getLsbD ((w * t + u) % 8)) :
    x &&& BitVec.ofNat 32 (2 ^ w - 1) = (rechunk 8 w b (p * i + t)).setWidth 32 := by
  rw [and_mask x hw, ← eq_rechunk_group hmp (by decide) i t]
  intro u hu
  rw [BitVec.getLsbD_setWidth, hx u hu]
  simp [hu]

/-- The masked difference that an unrolled unpacker stores for a word of its bytes. -/
theorem masked_eq_decoded {w : ℕ} (hw : w < 32) (h2 : w ≠ 2) (b : Buf) {m p : ℕ}
    (hmp : 8 * m = w * p) (i t : ℕ) (x : U32) (hx : ∀ u, u < w → x.getLsbD u =
      (b (m * i + (w * t + u) / 8)).getLsbD ((w * t + u) % 8)) :
    toU16 ((BitVec.ofNat 32 (2 ^ (w - 1) - 1) - (x &&& BitVec.ofNat 32 (2 ^ w - 1))) &&&
      BitVec.ofNat 32 (2 ^ w - 1)) = decoded w b (p * i + t) := by
  rw [masked_eq_rechunk hw b hmp i t x hx, masked_eq_unpackCode hw h2, decoded]

theorem polyUnpack2_filled (r : Poly) (b : Buf) : Filled 128 (decoded 2 b) (polyUnpack2 r b) := by
  refine fold_invariant (n := 32) (fun i r' => Filled (4 * i) (decoded 2 b) r')
    (Filled.zero _ _) ?_
  intro i hi r' h
  have hval : ∀ t (x : U32), (∀ u, u < 2 → x.getLsbD u =
      (b (1 * i + (2 * t + u) / 8)).getLsbD ((2 * t + u) % 8)) →
      toU16 (((1 : U32) - (x &&& 0x3)) &&& 8191) = decoded 2 b (4 * i + t) := by
    intro t x hx
    rw [decoded, ← masked_eq_unpackCode_two,
      ← masked_eq_rechunk (w := 2) (by decide) b (p := 4) (by decide) i t x hx]
    rfl
  -- the source does not mask the last field
  have hlast : promoteByte (b i) >>> 6 = promoteByte (b i) >>> 6 &&& 0x3 := by
    apply BitVec.eq_of_getLsbD_eq
    intro u hu
    interval_cases u <;> simp
  simp only
  rw [hlast]
  refine (((h.set (by omega) (hval 0 _ ?_)).set (by omega) (hval 1 _ ?_)).set (by omega)
    (hval 2 _ ?_)).set (by omega) (hval 3 _ ?_) <;>
    · intro u hu
      interval_cases u <;> simp

theorem polyUnpack11_filled (r : Poly) (b : Buf) :
    Filled 128 (decoded 11 b) (polyUnpack11 r b) := by
  refine fold_invariant (n := 16) (fun i r' => Filled (8 * i) (decoded 11 b) r')
    (Filled.zero _ _) ?_
  intro i hi r' h
  have hval : ∀ t (x : U32), (∀ u, u < 11 → x.getLsbD u =
      (b (11 * i + (11 * t + u) / 8)).getLsbD ((11 * t + u) % 8)) →
      toU16 (((1023 : U32) - (x &&& 0x7ff)) &&& 0x7ff) = decoded 11 b (8 * i + t) :=
    masked_eq_decoded (w := 11) (by decide) (by decide) b (by decide) i
  refine (((((((h.set (by omega) (hval 0 _ ?_)).set (by omega) (hval 1 _ ?_)).set (by omega)
    (hval 2 _ ?_)).set (by omega) (hval 3 _ ?_)).set (by omega) (hval 4 _ ?_)).set (by omega)
    (hval 5 _ ?_)).set (by omega) (hval 6 _ ?_)).set (by omega) (hval 7 _ ?_) <;>
    · intro u hu
      interval_cases u <;> simp

theorem polyUnpack13_filled (r : Poly) (b : Buf) :
    Filled 128 (decoded 13 b) (polyUnpack13 r b) := by
  refine fold_invariant (n := 16) (fun i r' => Filled (8 * i) (decoded 13 b) r')
    (Filled.zero _ _) ?_
  intro i hi r' h
  have hval : ∀ t (x : U32), (∀ u, u < 13 → x.getLsbD u =
      (b (13 * i + (13 * t + u) / 8)).getLsbD ((13 * t + u) % 8)) →
      toU16 (((4095 : U32) - (x &&& 0x1fff)) &&& 0x1fff) = decoded 13 b (8 * i + t) :=
    masked_eq_decoded (w := 13) (by decide) (by decide) b (by decide) i
  refine (((((((h.set (by omega) (hval 0 _ ?_)).set (by omega) (hval 1 _ ?_)).set (by omega)
    (hval 2 _ ?_)).set (by omega) (hval 3 _ ?_)).set (by omega) (hval 4 _ ?_)).set (by omega)
    (hval 5 _ ?_)).set (by omega) (hval 6 _ ?_)).set (by omega) (hval 7 _ ?_) <;>
    · intro u hu
      interval_cases u <;> simp

/-- With the first `p` bits consumed, the accumulator holds the bits up to the
last byte that was read. -/
structure UnpackInvariant (b : Buf) (p : ℕ) (st : UnpackState) : Prop where
  position : 8 * st.bpos = p + st.accShift
  window : Window st.acc (ofWords 8 b) p (8 * st.bpos)

theorem unpackRefill_invariant {w : ℕ} (hw : w ≤ 16) {b : Buf} {p : ℕ} {st : UnpackState}
    (h : UnpackInvariant b p st) : UnpackInvariant b p (unpackRefill w b st) ∧
      w ≤ (unpackRefill w b st).accShift ∧ (unpackRefill w b st).r = st.r := by
  induction st using unpackRefill.induct w b with
  | case1 st hlt ih =>
    rw [unpackRefill, if_pos hlt]
    obtain ⟨hpos, hwin⟩ := h
    have hs : st.accShift = 8 * st.bpos - p := by omega
    have hpush := hwin.push (window_word (v := 32) (by omega) b st.bpos) (by omega) (by omega)
    rw [← hs] at hpush
    exact ih ⟨by simp only; omega, hpush⟩
  | case2 st hge =>
    rw [unpackRefill, if_neg hge]
    exact ⟨h, by omega, rfl⟩

theorem unpackStep_invariant {w : ℕ} (hw : w ≤ 16) {b : Buf} {i : ℕ} (hi : i < 128)
    {st : UnpackState} (h : UnpackInvariant b (w * i) st)
    (hr : Filled i (fun j => (rechunk 8 w b j).setWidth 16) st.r) :
    UnpackInvariant b (w * (i + 1)) (unpackStep w b i hi st) ∧
      Filled (i + 1) (fun j => (rechunk 8 w b j).setWidth 16) (unpackStep w b i hi st).r := by
  obtain ⟨⟨hpos, hwin⟩, hge, hkeep⟩ := unpackRefill_invariant hw h
  have hk : w * (i + 1) = w * i + w := Nat.mul_succ w i
  rw [← hkeep] at hr
  refine ⟨⟨?_, ?_⟩, hr.set hi ?_⟩
  · rw [unpackStep, hk]
    simp only
    omega
  · rw [hk]
    exact hwin.drop w
  · have hword : (unpackRefill w b st).acc.setWidth w = rechunk 8 w b i := by
      apply BitVec.eq_of_getLsbD_eq
      intro t ht
      rw [hwin.setWidth (by omega) ht, rechunk, getLsbD_word _ _ ht]
    rw [← setWidth_setWidth_32, ← hword, ← and_mask _ (by omega), ← mask_eq]
    rfl

theorem complementCode_setWidth {w : ℕ} (hw : w ≤ 16) (h2 : w ≠ 2) (c : BitVec w) :
    complementCode w (c.setWidth 16) = unpackCode w c := by
  rw [complementCode_eq (by omega), packCode, unpackCode, if_neg h2,
    BitVec.setWidth_setWidth_of_le _ hw, BitVec.setWidth_eq]

/-- The loop leaves the complement of every field. -/
theorem polyUnpackLoop_getElem (r : Poly) (b : Buf) {w : ℕ} (hw : w ≤ 16) {j : ℕ} (hj : j < 128) :
    (polyUnpackLoop r b w)[j] = complementCode w ((rechunk 8 w b j).setWidth 16) := by
  obtain ⟨-, hend⟩ := fold_invariant (n := 4)
    (f := fun block hb s => Nat.fold 32 (fun i hi s =>
      unpackStep w b (32 * block + i) (by omega) s) s)
    (a := { r, acc := 0, accShift := 0, bpos := 0 })
    (fun block s => UnpackInvariant b (w * (32 * block)) s ∧
      Filled (32 * block) (fun j => (rechunk 8 w b j).setWidth 16) s.r)
    ⟨⟨by simp, window_zero _ _⟩, Filled.zero _ _⟩ (by
      intro block hb s hs
      refine fold_invariant (fun i s => UnpackInvariant b (w * (32 * block + i)) s ∧
        Filled (32 * block + i) (fun j => (rechunk 8 w b j).setWidth 16) s.r) hs ?_
      rintro i hi s ⟨hinv, hr⟩
      have hi' : 32 * block + i < 128 := by omega
      exact unpackStep_invariant hw hi' hinv hr)
  rw [polyUnpackLoop, Vector.getElem_map, hend j hj hj]

theorem polyUnpackLoop_filled (r : Poly) (b : Buf) {w : ℕ} (hw : w ≤ 16) (h2 : w ≠ 2) :
    Filled 128 (decoded w b) (polyUnpackLoop r b w) := by
  intro j hj _
  rw [polyUnpackLoop_getElem r b hw hj, complementCode_setWidth hw h2]
  rfl

/-- All unpackers read the same stream. -/
theorem polyUnpack_eq (r : Poly) (b : Buf) {w : ℕ} (hw : w ≤ 16) :
    polyUnpack r b w = Vector.ofFn fun j => decoded w b j := by
  refine Filled.eq_ofFn ?_
  rw [polyUnpack]
  by_cases h2 : w = 2
  · subst h2
    exact polyUnpack2_filled r b
  by_cases h13 : w = 13
  · subst h13
    exact polyUnpack13_filled r b
  by_cases h11 : w = 11
  · subst h11
    exact polyUnpack11_filled r b
  rw [if_neg h2, if_neg h13, if_neg h11]
  exact polyUnpackLoop_filled r b hw h2

end Unpack

section Ring

variable {K : ℕ}

/-- The stored values of a ring element, polynomial after polynomial. -/
def ringCodes (w : ℕ) (r : RingElement K) (j : ℕ) : BitVec w :=
  if h : j / 128 < K then packCode w (r[j / 128][j % 128]) else 0

theorem ringCodes_block (w : ℕ) (r : RingElement K) {i : ℕ} (hi : i < K) {j : ℕ}
    (hj : j < 128) : ringCodes w r (128 * i + j) = polyCodes w r[i] j := by
  have hdiv : (128 * i + j) / 128 = i := by omega
  have hmod : (128 * i + j) % 128 = j := by omega
  rw [ringCodes, dif_pos (by omega), polyCodes_apply _ _ hj]
  simp only [hdiv, hmod]

/-- A block of the ring stream is the stream of its polynomial. -/
theorem rechunk_ringCodes {w : ℕ} (hw : 0 < w) (r : RingElement K) {i : ℕ} (hi : i < K) {j : ℕ}
    (hj : j < 16 * w) : rechunk w 8 (polyCodes w r[i]) j =
      rechunk w 8 (ringCodes w r) (16 * w * i + j) := by
  rw [← rechunk_offset (n := 128 * i) (m := 16 * w * i) (ringCodes w r) (by ring) hw]
  refine (rechunk_congr (n := 128) (fun t ht => ringCodes_block w r hi ht) ?_).symm
  omega

/-- All ring packers write the same stream. -/
theorem ringPack_written (b : Buf) (r : RingElement K) {w : ℕ} (hw1 : 1 ≤ w) (hw : w ≤ 16) :
    Written 0 (16 * w * K) (rechunk w 8 (ringCodes w r)) b (ringPack b r w) := by
  have hloop : ringPack b r w = Nat.fold K (fun i hi b =>
      b.writeAt (16 * w * i) fun p => polyPack p r[i] w) b := by
    rw [ringPack]
    by_cases h2 : w = 2
    · subst h2
      simp only [if_pos, ringPack2, polyPack, Nat.mul_comm]
    by_cases h11 : w = 11
    · subst h11
      simp only [h2, if_neg, if_pos, ringPack11, polyPack, Nat.mul_comm, not_false_eq_true]
    simp only [h2, h11, if_neg, not_false_eq_true, Nat.mul_comm]
  rw [hloop]
  refine fold_invariant (fun i b' =>
    Written 0 (16 * w * i) (rechunk w 8 (ringCodes w r)) b b') (Written.refl _ _ _) ?_
  intro i hi b' h
  refine (h.writeAt_above (Nat.zero_le _) (polyPack_written _ r[i] hw) fun j hj => ?_).of_eq
    (Nat.mul_succ _ _).symm
  exact rechunk_ringCodes hw1 r hi hj

/-- All ring unpackers read the same stream. -/
theorem ringUnpack_eq (r : RingElement K) (b : Buf) {w : ℕ} (hw : w ≤ 16) :
    ringUnpack r b w = Vector.ofFn fun i =>
      Vector.ofFn fun j => decoded w (b.offset (16 * w * i)) j := by
  have hloop : ringUnpack r b w = Nat.fold K (fun i hi r =>
      r.set i (polyUnpack r[i] (b.offset (16 * w * i)) w)) r := by
    rw [ringUnpack]
    by_cases h2 : w = 2
    · subst h2
      simp only [if_pos, ringUnpack2, polyUnpack, Nat.mul_comm]
    simp only [h2, if_neg, not_false_eq_true, Nat.mul_comm]
  rw [hloop]
  apply Vector.ext
  intro i hi
  rw [Vector.getElem_ofFn]
  refine fold_set_get id (fun i : Fin K => Vector.ofFn fun j : Fin 128 =>
    decoded w (b.offset (16 * w * i)) j) Function.injective_id (fun i hi x => ?_) r ⟨i, hi⟩
  rw [polyUnpack_eq _ _ hw]
  rfl

theorem decoded_offset (w : ℕ) (b : Buf) (i j : ℕ) :
    decoded w (b.offset (16 * w * i)) j = unpackCode w (rechunk 8 w b (128 * i + j)) := by
  rw [decoded, ← rechunk_offset (n := 16 * w * i) (m := 128 * i) b (by ring) (by decide)]
  rfl

end Ring

section Bijection

variable {w : ℕ}

/-- `y` is the coefficient that `x` becomes when `w` bits of it are kept. -/
def Reduced (w : ℕ) (x y : U16) : Prop :=
  if w = 2 then y.toNat ∈ ({0, 1, 8191, 8190} : Finset ℕ) ∧ y.toNat % 4 = x.toNat % 4
  else y.toNat = x.toNat % 2 ^ w

/-- Packing fills exactly `n` bytes as a function of the residues of its argument,
unpacking reads exactly these, and the two are inverse to each other. -/
structure IsCodec {α : Type} (n : ℕ) (Same Red : α → α → Prop) (pack : Buf → α → Buf)
    (unpack : α → Buf → α) : Prop where
  frame : ∀ b r j, n ≤ j → pack b r j = b j
  total : ∀ b b' r j, j < n → pack b r j = pack b' r j
  residues : ∀ b r r', Same r r' → pack b r = pack b r'
  unpack_pack : ∀ b r r', Red r (unpack r' (pack b r))
  reads : ∀ b b' r r', unpack r b = unpack r' b' ↔ ∀ j < n, b j = b' j
  pack_unpack : ∀ b b' r j, j < n → pack b' (unpack r b) j = b j

/-- A codec from its stream: what is written, and what is read back. -/
theorem IsCodec.of_written {α : Type} {n : ℕ} {Same Red : α → α → Prop}
    {pack : Buf → α → Buf} {unpack : α → Buf → α} (stream : α → Buf)
    (hwritten : ∀ b r, Written 0 n (stream r) b (pack b r))
    (hresidues : ∀ r r', Same r r' → ∀ j < n, stream r j = stream r' j)
    (hread : ∀ r r' b b', (∀ j < n, b j = b' j) → unpack r b = unpack r' b')
    (hred : ∀ r r' b, (∀ j < n, b j = stream r j) → Red r (unpack r' b))
    (hstream : ∀ r b, ∀ j < n, stream (unpack r b) j = b j) : IsCodec n Same Red pack unpack where
  frame b r j hj := (hwritten b r).above hj
  total b b' r j hj := by
    rw [(hwritten b r).inside (Nat.zero_le _) hj, (hwritten b' r).inside (Nat.zero_le _) hj]
  residues b r r' h := by
    funext j
    rw [hwritten b r j, hwritten b r' j]
    by_cases hj : 0 ≤ j ∧ j < n
    · rw [if_pos hj, if_pos hj, hresidues r r' h j hj.2]
    · rw [if_neg hj, if_neg hj]
  unpack_pack b r r' := hred r r' _ fun j hj => (hwritten b r).inside (Nat.zero_le _) hj
  reads b b' r r' := by
    refine ⟨fun h j hj => ?_, hread r r' b b'⟩
    rw [← hstream r b j hj, h, hstream r' b' j hj]
  pack_unpack b b' r j hj := by
    rw [(hwritten b' _).inside (Nat.zero_le _) hj, hstream r b j hj]

theorem setWidth_eq_of_mod {x y : U16} (h : x.toNat % 2 ^ w = y.toNat % 2 ^ w) :
    x.setWidth w = y.setWidth w := by
  apply BitVec.eq_of_toNat_eq
  rw [BitVec.toNat_setWidth, BitVec.toNat_setWidth, h]

/-- Packing and unpacking one coefficient reduces it. -/
theorem reduced_unpackCode (hw : w ≤ 16) (x : U16) : Reduced w x (unpackCode w (packCode w x)) := by
  rw [Reduced]
  by_cases h2 : w = 2
  · subst h2
    rw [if_pos rfl]
    have hx : x.toNat % 4 = (x.setWidth 2).toNat := by rw [BitVec.toNat_setWidth]
    rw [hx, packCode]
    generalize x.setWidth 2 = c
    revert c
    decide
  · have hlt : x.toNat % 2 ^ w < 2 ^ 16 :=
      (Nat.mod_lt _ (Nat.two_pow_pos w)).trans_le (Nat.pow_le_pow_right (by decide) hw)
    rw [if_neg h2, unpackCode_packCode h2, BitVec.toNat_setWidth, BitVec.toNat_setWidth,
      Nat.mod_eq_of_lt hlt]

theorem polyPack_isCodec (hw1 : 1 ≤ w) (hw : w ≤ 16) :
    IsCodec (16 * w) (fun r r' => ∀ k : Fin 128, (r.get k).toNat % 2 ^ w = (r'.get k).toNat % 2 ^ w)
      (fun r r' => ∀ k : Fin 128, Reduced w (r.get k) (r'.get k)) (fun b r => polyPack b r w)
      (fun r b => polyUnpack r b w) := by
  have hbits : ∀ j < 16 * w, 8 * (j + 1) ≤ w * 128 := by
    intro j hj
    omega
  have hword : ∀ k < 128, w * (k + 1) ≤ 8 * (16 * w) := by
    intro k hk
    have h : w * (k + 1) ≤ w * 128 := Nat.mul_le_mul_left w (by omega)
    omega
  refine IsCodec.of_written (fun r => rechunk w 8 (polyCodes w r))
    (fun b r => polyPack_written b r hw) ?_ ?_ ?_ ?_
  · intro r r' h j hj
    refine rechunk_congr (n := 128) (fun k hk => ?_) (hbits j hj)
    rw [polyCodes_apply _ _ hk, polyCodes_apply _ _ hk, packCode_eq_iff]
    exact setWidth_eq_of_mod (h ⟨k, hk⟩)
  · intro r r' b b' h
    rw [polyUnpack_eq r b hw, polyUnpack_eq r' b' hw]
    refine congrArg Vector.ofFn (funext fun k => ?_)
    rw [decoded, decoded, rechunk_congr h (hword k k.isLt)]
  · intro r r' b h k
    have hk : rechunk 8 w b k = polyCodes w r k :=
      rechunk_of_eq (by decide) h (hword k k.isLt)
    rw [polyUnpack_eq r' b hw, Vector.get_eq_getElem, Vector.get_eq_getElem, Vector.getElem_ofFn,
      decoded, hk, polyCodes_apply w r k.isLt]
    exact reduced_unpackCode hw _
  · intro r b j hj
    refine (rechunk_congr (n := 128) (fun k hk => ?_) (hbits j hj)).trans
      (rechunk_rechunk hw1 b j)
    rw [polyCodes_apply _ _ hk, polyUnpack_eq r b hw, Vector.getElem_ofFn]
    exact packCode_unpackCode hw _

theorem ringPack_isCodec {K : ℕ} (hw1 : 1 ≤ w) (hw : w ≤ 16) :
    IsCodec (16 * w * K) (fun r r' : RingElement K => ∀ (i : Fin K) (k : Fin 128),
        ((r.get i).get k).toNat % 2 ^ w = ((r'.get i).get k).toNat % 2 ^ w)
      (fun r r' => ∀ (i : Fin K) (k : Fin 128), Reduced w ((r.get i).get k) ((r'.get i).get k))
      (fun b r => ringPack b r w) (fun r b => ringUnpack r b w) := by
  have hbits : ∀ j < 16 * w * K, 8 * (j + 1) ≤ w * (128 * K) := by
    intro j hj
    have : w * (128 * K) = 8 * (16 * w * K) := by ring
    omega
  have hwords : ∀ i < K, ∀ k < 128, w * (128 * i + k + 1) ≤ 8 * (16 * w * K) := by
    intro i hi k hk
    have : 8 * (16 * w * K) = w * (128 * K) := by ring
    rw [this]
    exact Nat.mul_le_mul_left w (by omega)
  have hcodes : ∀ (r : RingElement K) k (hk : k < 128 * K),
      ringCodes w r k = packCode w (r[k / 128][k % 128]) := fun r k hk => dif_pos (by omega)
  refine IsCodec.of_written (fun r => rechunk w 8 (ringCodes w r))
    (fun b r => ringPack_written b r hw1 hw) ?_ ?_ ?_ ?_
  · intro r r' h j hj
    refine rechunk_congr (n := 128 * K) (fun k hk => ?_) (hbits j hj)
    rw [hcodes r k hk, hcodes r' k hk, packCode_eq_iff]
    exact setWidth_eq_of_mod (h ⟨k / 128, by omega⟩ ⟨k % 128, by omega⟩)
  · intro r r' b b' h
    rw [ringUnpack_eq r b hw, ringUnpack_eq r' b' hw]
    refine congrArg Vector.ofFn (funext fun i => congrArg Vector.ofFn (funext fun k => ?_))
    rw [decoded_offset, decoded_offset, rechunk_congr h (hwords i i.isLt k k.isLt)]
  · intro r r' b h i k
    have hk : rechunk 8 w b (128 * i + k) = ringCodes w r (128 * i + k) :=
      rechunk_of_eq (by decide) h (hwords i i.isLt k k.isLt)
    rw [ringCodes_block w r i.isLt k.isLt, polyCodes_apply w _ k.isLt] at hk
    simp only [ringUnpack_eq r' b hw, Vector.get_eq_getElem, Vector.getElem_ofFn, decoded_offset,
      hk]
    exact reduced_unpackCode hw _
  · intro r b j hj
    refine (rechunk_congr (n := 128 * K) (fun k hk => ?_) (hbits j hj)).trans
      (rechunk_rechunk hw1 b j)
    have hk' : 128 * (k / 128) + k % 128 = k := by omega
    rw [hcodes _ k hk, ringUnpack_eq r b hw, Vector.getElem_ofFn, Vector.getElem_ofFn,
      decoded_offset, packCode_unpackCode hw, hk']

/-- Packing is a bijection at every width, for polynomials and for ring elements,
whose bytes are the `K` consecutive blocks of their polynomials. -/
theorem packing_bijective {K : ℕ} (hw1 : 1 ≤ w) (hw : w ≤ 16) :
    IsCodec (16 * w) (fun r r' => ∀ k : Fin 128, (r.get k).toNat % 2 ^ w = (r'.get k).toNat % 2 ^ w)
      (fun r r' => ∀ k : Fin 128, Reduced w (r.get k) (r'.get k)) (fun b r => polyPack b r w)
      (fun r b => polyUnpack r b w) ∧
    IsCodec (16 * w * K) (fun r r' : RingElement K => ∀ (i : Fin K) (k : Fin 128),
        ((r.get i).get k).toNat % 2 ^ w = ((r'.get i).get k).toNat % 2 ^ w)
      (fun r r' => ∀ (i : Fin K) (k : Fin 128), Reduced w ((r.get i).get k) ((r'.get i).get k))
      (fun b r => ringPack b r w) (fun r b => ringUnpack r b w) ∧
    (∀ (b b' : Buf) (r : RingElement K) (i : Fin K), ∀ j < 16 * w,
      ringPack b r w (16 * w * i + j) = polyPack b' (r.get i) w j) ∧
    ∀ (b : Buf) (r : RingElement K) (r' : Poly) (i : Fin K),
      (ringUnpack r b w).get i = polyUnpack r' (b.offset (16 * w * i)) w := by
  refine ⟨polyPack_isCodec hw1 hw, ringPack_isCodec hw1 hw, ?_, ?_⟩
  · intro b b' r i j hj
    have hlt : 16 * w * i + j < 16 * w * K := block_lt rfl i ⟨j, hj⟩
    rw [(ringPack_written b r hw1 hw).inside (Nat.zero_le _) hlt,
      (polyPack_written b' (r.get i) hw).inside (Nat.zero_le _) hj]
    exact (rechunk_ringCodes hw1 r i.isLt hj).symm
  · intro b r r' i
    rw [ringUnpack_eq r b hw, polyUnpack_eq r' _ hw, Vector.get_eq_getElem, Vector.getElem_ofFn]

/-- Thirteen bits, where packing is generic and unpacking is unrolled. -/
theorem packing_bijective_thirteen :
    IsCodec (16 * 13)
      (fun r r' => ∀ k : Fin 128, (r.get k).toNat % 2 ^ 13 = (r'.get k).toNat % 2 ^ 13)
      (fun r r' => ∀ k : Fin 128, Reduced 13 (r.get k) (r'.get k)) (fun b r => polyPack b r 13)
      (fun r b => polyUnpack r b 13) :=
  (packing_bijective (K := 5) (by decide) (by decide)).1

end Bijection

end RrlwrKem
