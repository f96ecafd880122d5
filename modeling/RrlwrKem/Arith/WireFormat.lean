import RrlwrKem.Arith.Packing

/-!
# The wire format

The unrolled packers and unpackers agree with the generic loops of `poly_pack` and
`poly_unpack`, so that at every width a polynomial is one stream of bits: the
fields `2^(bitlen-1) - 1 - r`, low bit first.
-/

namespace RrlwrKem

open BitStream Word

/-- Every bit of the packed polynomial, as a binary digit of its field. -/
def WireFormat (w : ℕ) (r : Poly) (b : Buf) : Prop :=
  ∀ (k : Fin 128) (s : Fin w), ofWords 8 b (w * k + s) =
    decide (((2 : ℤ) ^ (w - 1) - 1 - (r.get k).toNat) / 2 ^ s.val % 2 = 1)

section Fields

theorem packCode_getLsbD (w : ℕ) (x : U16) {s : ℕ} (hs : s < w) : (packCode w x).getLsbD s =
    decide (((2 : ℤ) ^ (w - 1) - 1 - x.toNat) / 2 ^ s % 2 = 1) := by
  have hpos := Nat.two_pow_pos (w - 1)
  have hcode : Carries w (packCode w x) ((2 : ℤ) ^ (w - 1) - 1 - x.toNat) :=
    ((carries_ofNat le_rfl _).sub ((carries_self w x).setWidth le_rfl) le_rfl).congr (by
      rw [Nat.cast_sub hpos]
      push_cast
      ring)
  exact hcode.getLsbD hs

/-- Bytes that hold the fields of a polynomial are in the wire format. -/
theorem wireFormat_of_codes {w : ℕ} {r : Poly} {b : Buf}
    (h : ∀ k : Fin 128, rechunk 8 w b k = packCode w (r.get k)) : WireFormat w r b := by
  intro k s
  rw [← packCode_getLsbD w (r.get k) s.isLt, ← h k, rechunk, getLsbD_word _ _ s.isLt]

theorem wireFormat_polyPack (b : Buf) (r : Poly) {w : ℕ} (hw : w ≤ 16) :
    WireFormat w r (polyPack b r w) := by
  refine wireFormat_of_codes fun k => ?_
  have hbits : w * (k + 1) ≤ 8 * (16 * w) := by
    have h := Nat.mul_le_mul_left w (show k.val + 1 ≤ 128 by omega)
    omega
  rw [rechunk_of_eq (by omega) (fun j hj => (polyPack_written b r hw).inside (Nat.zero_le _) hj)
    hbits, polyCodes_apply _ _ k.isLt]
  rfl

theorem wireFormat_polyUnpack (r : Poly) (b : Buf) {w : ℕ} (hw : w ≤ 16) :
    WireFormat w (polyUnpack r b w) b := by
  refine wireFormat_of_codes fun k => ?_
  rw [polyUnpack_eq r b hw, Vector.get_ofFn, decoded, packCode_unpackCode hw]

end Fields

section Unrolled

theorem polyPack2_eq_loop (b : Buf) (r : Poly) : polyPack2 b r = polyPackLoop b r 2 :=
  (polyPack2_written b r).eq (polyPackLoop_written b r (by omega))

theorem polyPack11_eq_loop (b : Buf) (r : Poly) : polyPack11 b r = polyPackLoop b r 11 :=
  (polyPack11_written b r).eq (polyPackLoop_written b r (by omega))

/-- An unrolled unpacker fills the same coefficients as the loop of its width. -/
theorem filled_eq_loop {w : ℕ} (hw : w ≤ 16) (h2 : w ≠ 2) {b : Buf} {f : Poly}
    (h : Filled 128 (decoded w b) f) (r : Poly) : f = polyUnpackLoop r b w :=
  h.eq_ofFn.trans (polyUnpackLoop_filled r b hw h2).eq_ofFn.symm

theorem polyUnpack11_eq_loop (r r' : Poly) (b : Buf) :
    polyUnpack11 r b = polyUnpackLoop r' b 11 :=
  filled_eq_loop (by omega) (by omega) (polyUnpack11_filled r b) r'

theorem polyUnpack13_eq_loop (r r' : Poly) (b : Buf) :
    polyUnpack13 r b = polyUnpackLoop r' b 13 :=
  filled_eq_loop (by omega) (by omega) (polyUnpack13_filled r b) r'

/-- One field of two bits, centred by the unrolled unpacker and not by the loop. -/
theorem unpackCode_two_centred (c : BitVec 2) :
    (complementCode 2 (c.setWidth 16)).toNat < 4 ∧
      ∃ v ∈ ({-2, -1, 0, 1} : Finset ℤ),
        v ≡ (complementCode 2 (c.setWidth 16)).toNat [ZMOD 4] ∧
        ((unpackCode 2 c).toNat : ℤ) = v % 8192 := by
  revert c
  decide

/-- The unrolled packers agree with the generic loops, and the wire format at every
width is one little-endian stream of bits. -/
theorem unrolled_packers_eq_generic (b : Buf) (r r' : Poly) :
    polyPack2 b r = polyPackLoop b r 2 ∧
    polyPack11 b r = polyPackLoop b r 11 ∧
    polyUnpack11 r b = polyUnpackLoop r' b 11 ∧
    polyUnpack13 r b = polyUnpackLoop r' b 13 ∧
    (∀ k : Fin 128,
      let residue := ((polyUnpackLoop r' b 2).get k).toNat
      residue < 4 ∧ ∃ v ∈ ({-2, -1, 0, 1} : Finset ℤ), v ≡ residue [ZMOD 4] ∧
        (((polyUnpack2 r b).get k).toNat : ℤ) = v % 8192) ∧
    ∀ w, 1 ≤ w → w ≤ 16 → WireFormat w r (polyPack b r w) ∧
      (∀ j, 16 * w ≤ j → polyPack b r w j = b j) ∧ WireFormat w (polyUnpack r' b w) b := by
  refine ⟨polyPack2_eq_loop b r, polyPack11_eq_loop b r, polyUnpack11_eq_loop r r' b,
    polyUnpack13_eq_loop r r' b, fun k => ?_, fun w _ hw => ?_⟩
  · have hloop := polyUnpackLoop_getElem r' b (w := 2) (by omega) k.isLt
    have hunrolled := polyUnpack2_filled r b k k.isLt k.isLt
    rw [decoded] at hunrolled
    rw [Vector.get_eq_getElem, Vector.get_eq_getElem, hloop, hunrolled]
    exact unpackCode_two_centred _
  · exact ⟨wireFormat_polyPack b r hw, fun j hj => (polyPack_written b r hw).above hj,
      wireFormat_polyUnpack r' b hw⟩

end Unrolled

end RrlwrKem
