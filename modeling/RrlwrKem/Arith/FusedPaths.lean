import RrlwrKem.Arith.Ring
import RrlwrKem.Library.Checked

/-!
# Fused and plain paths

The multiplications that round, compress or decode straight from the accumulator
agree with `ring_mul_Awin` followed by the helpers that handle one polynomial at
a time. Blocks of the output are disjoint, so the order in which the loops fill
them does not show, and decryption writes every byte of the message once.
-/

namespace RrlwrKem

open ArrayPolynomial BitStream Checked

variable {K : ℕ}

theorem ringMulAwinRoundP_getElem {n : ℕ} (r : Vector Poly n) (aw : RingElementAwin K)
    (b : RingElement K) (hn : n ≤ K) {o : ℕ} (ho : o < n) :
    (ringMulAwinRoundP r aw b hn)[o] =
      (awinRow aw b (K - n + o) (row_lt hn ho)).map roundQToPFromU16 := by
  exact foldRev_set_get id
    (fun out => (awinRow aw b (K - n + out) (row_lt hn out.isLt)).map roundQToPFromU16)
    Function.injective_id (fun _ _ _ => rfl) r ⟨o, ho⟩

/-- The coefficients of a full rounded product. -/
theorem ringMulAwinRoundP_coeff (r : RingElement K) (aw : RingElementAwin K) (b : RingElement K)
    (i : Fin K) (k : Fin 128) : ((ringMulAwinRoundP r aw b le_rfl).get i).get k =
      roundQToPFromU16 ((awinRow aw b i i.isLt).get k) := by
  have hidx : K - K + i.val = i.val := by omega
  simp only [Vector.get_eq_getElem, ringMulAwinRoundP_getElem, Vector.getElem_map, hidx]

theorem ringMulAwinRoundP_eq {n : ℕ} (r : Vector Poly n) (aw : RingElementAwin K)
    (b : RingElement K) (hn : n ≤ K) : ringMulAwinRoundP r aw b hn =
      (ringMulAwin r aw b hn).map fun f => polyRoundXtoy f 13 11 := by
  apply Vector.ext
  intro o ho
  have hround : roundQToPFromU16 = roundXtoy 13 11 := funext roundQToPFromU16_eq
  rw [ringMulAwinRoundP_getElem r aw b hn ho, Vector.getElem_map, ringMulAwin_getElem r aw b hn ho,
    hround]
  rfl

variable (P : SecurityLevel)

/-- The polynomials of the plain encryption path, ready to be packed. -/
def plainCiphertext (aw : RingElementAwin P.k) (b : RingElement P.k) (msg : Buf)
    (r : Vector Poly P.ell) (out : Fin P.ell) : Poly :=
  polyCompress ((polyAddMsg (ringMulAwin r aw b P.ell_le_k) msg).get out) (11 - P.logt)

/-- The polynomials of the plain decryption path, ready to be packed. -/
def plainMessage (aw : RingElementAwin P.k) (b : RingElement P.k) (ct : Buf)
    (r : Vector Poly P.ell) (cm : Poly) (out : Fin P.ell) : Poly :=
  polyRoundXtoy (polySubp P.logt ((ringMulAwin r aw b P.ell_le_k).get out)
    (polyDecompress (polyUnpack cm (ct.offset (out * P.packedPolyTLen)) P.logt)
      (11 - P.logt))) 11 1

/-- Byte `i` that `poly_pack_message_from_acc_cm` stores; see `polyPackMessageFromAccCm`. -/
def messageByte (logt : ℕ) (acc : Poly) (cm : Buf) (i : ℕ) (hi : i < 128 / 8) : Byte :=
  if logt = 3 then messageByte3 acc cm i hi else messageByte8 acc cm i hi

/-- `poly_pack_message_from_acc_cm` to `m + p`, on memory that records which bytes were
written. -/
def polyPackMessageOnce (logt : ℕ) {n : ℕ} (m : Cells Byte n) (p : ℕ) (acc : Poly) (cm : Buf) :
    Option (Cells Byte n) :=
  loop (128 / 8) (fun i hi m => m.write (p + i) (messageByte logt acc cm i hi)) m

theorem row_sub_lt (t : ℕ) : P.k - 1 - t < P.k := by
  have h := P.k_pos
  omega

/-- `ring_mul_Awin_sub_cm_pack_msg` on that memory, with its counter `i` from `K - 1` down
to `row_min`. -/
def ringMulAwinSubCmPackMsgOnce (aw : RingElementAwin P.k) (b : RingElement P.k) (ct : Buf) :
    Option (Cells Byte (P.ell * 16)) :=
  let rowMin := P.k - P.ell
  loop P.ell (fun t _ m =>
    let i := P.k - 1 - t
    let out := i - rowMin
    have hi : i < P.k := row_sub_lt P t
    polyPackMessageOnce P.logt m (out * 16) (awinRow aw b i hi)
      (ct.offset (out * P.packedPolyTLen))) (Cells.fresh Byte (P.ell * 16))

theorem ringMulAwinAddMsgPackT_written (ct : Buf) (aw : RingElementAwin P.k) (b : RingElement P.k)
    (msg : Buf) (r : Vector Poly P.ell) :
    Written 0 (P.ell * P.packedPolyTLen) (Written.blocks P.packedPolyTLen fun out =>
        rechunk P.logt 8 (polyCodes P.logt (plainCiphertext P aw b msg r out))) ct
      (ringMulAwinAddMsgPackT P ct aw b msg) := by
  refine Written.foldRev_blocks (fun out hout p => ?_) ct
  have h := polyPackCiphertext_written P.logt_cases p
    (awinRow aw b (P.k - P.ell + out) (row_lt P.ell_le_k hout)) msg out
  have hplain : plainCiphertext P aw b msg r ⟨out, hout⟩ = ciphertextPoly P.logt
      (awinRow aw b (P.k - P.ell + out) (row_lt P.ell_le_k hout)) msg out := by
    rw [plainCiphertext, Vector.get_eq_getElem, polyAddMsg_getElem, ringMulAwin_getElem]
    rfl
  rw [hplain]
  exact h.of_eq P.packedPolyTLen_eq.symm

theorem ringMulAwinSubCmPackMsg_written (m : Buf) (aw : RingElementAwin P.k)
    (b : RingElement P.k) (ct : Buf) (r : Vector Poly P.ell) (cm : Poly) :
    Written 0 (P.ell * 16) (Written.blocks 16 fun out =>
        rechunk 1 8 (polyCodes 1 (plainMessage P aw b ct r cm out))) m
      (ringMulAwinSubCmPackMsg P m aw b ct) := by
  refine Written.foldRev_blocks (fun out hout p => ?_) m
  have h := polyPackMessage_written P.logt_cases p
    (awinRow aw b (P.k - P.ell + out) (row_lt P.ell_le_k hout))
    (ct.offset (out * P.packedPolyTLen)) cm
  have hplain : plainMessage P aw b ct r cm ⟨out, hout⟩ = messageBits P.logt
      (awinRow aw b (P.k - P.ell + out) (row_lt P.ell_le_k hout))
      (ct.offset (out * P.packedPolyTLen)) cm := by
    rw [plainMessage, Vector.get_eq_getElem, ringMulAwin_getElem]
    rfl
  rw [hplain]
  exact h

theorem messageByte_eq {logt : ℕ} (hlogt : logt = 3 ∨ logt = 8) (acc : Poly) (cm : Buf) (r : Poly)
    {i : ℕ} (hi : i < 128 / 8) :
    messageByte logt acc cm i hi = rechunk 1 8 (polyCodes 1 (messageBits logt acc cm r)) i := by
  rcases hlogt with rfl | rfl
  · exact messageByte3_eq acc cm r hi
  · exact messageByte8_eq acc cm r hi

/-- The byte that the loops store at a place is the one that is there in the end. -/
theorem messageByte_row (m : Buf) (aw : RingElementAwin P.k) (b : RingElement P.k) (ct : Buf)
    (out : Fin P.ell) {i : ℕ} (hi : i < 128 / 8) :
    messageByte P.logt (awinRow aw b (P.k - P.ell + out) (P.row_lt out))
      (ct.offset (out * P.packedPolyTLen)) i hi = ringMulAwinSubCmPackMsg P m aw b ct
        (out * 16 + i) := by
  let r : Vector Poly P.ell := Vector.replicate _ (Vector.replicate 128 0)
  let cm : Poly := Vector.replicate 128 0
  rw [(ringMulAwinSubCmPackMsg_written P m aw b ct r cm).block out hi,
    messageByte_eq P.logt_cases _ _ cm hi, plainMessage, Vector.get_eq_getElem,
    ringMulAwin_getElem]
  rfl

/-- The slice of one row, written where nothing was written before. -/
theorem polyPackMessageOnce_hold {m : Cells Byte (P.ell * 16)} {W : ℕ → Prop} (m₀ : Buf)
    (aw : RingElementAwin P.k) (b : RingElement P.k) (ct : Buf) (out : Fin P.ell)
    (hW : ∀ j < 16, ¬ W (out * 16 + j))
    (h : Cells.Hold W m (bytesOf (P.ell * 16) (ringMulAwinSubCmPackMsg P m₀ aw b ct))) :
    ∃ m', polyPackMessageOnce P.logt m (out * 16)
        (awinRow aw b (P.k - P.ell + out) (P.row_lt out))
        (ct.offset (out * P.packedPolyTLen)) = some m' ∧
      Cells.Hold (fun j => W j ∨ (out * 16 ≤ j ∧ j < out * 16 + 16)) m'
        (bytesOf (P.ell * 16) (ringMulAwinSubCmPackMsg P m₀ aw b ct)) := by
  have hfit := Written.block_le out 16
  refine h.write_stretch hfit hW fun i hi => ?_
  rw [messageByte_row P m₀ aw b ct out hi, bytesOf_getElem]

/-- Decryption writes every byte of the message once. -/
theorem ringMulAwinSubCmPackMsgOnce_eq (m : Buf) (aw : RingElementAwin P.k) (b : RingElement P.k)
    (ct : Buf) : ringMulAwinSubCmPackMsgOnce P aw b ct =
      some ((bytesOf (P.ell * 16) (ringMulAwinSubCmPackMsg P m aw b ct)).map some) := by
  have hle := P.ell_le_k
  have hrun : ∃ s, ringMulAwinSubCmPackMsgOnce P aw b ct = some s ∧
      Cells.Hold (fun j => (P.ell - P.ell) * 16 ≤ j) s
        (bytesOf (P.ell * 16) (ringMulAwinSubCmPackMsg P m aw b ct)) := by
    refine loop_succeeds (fun t s => Cells.Hold (fun j => (P.ell - t) * 16 ≤ j) s
      (bytesOf (P.ell * 16) (ringMulAwinSubCmPackMsg P m aw b ct)))
      (Cells.hold_fresh (fun j hj => by omega) _) fun t ht s h => ?_
    -- pass `t` fills the slice of row `ELL - 1 - t`
    have hrow : P.k - 1 - t = P.k - P.ell + (P.ell - 1 - t) := by omega
    have hfresh : ∀ j < 16, ¬ (P.ell - t) * 16 ≤ (P.ell - 1 - t) * 16 + j := by omega
    have hslice : ∀ j, (P.ell - (t + 1)) * 16 ≤ j ↔ (P.ell - t) * 16 ≤ j ∨
        ((P.ell - 1 - t) * 16 ≤ j ∧ j < (P.ell - 1 - t) * 16 + 16) := by omega
    obtain ⟨s', hs', h'⟩ :=
      polyPackMessageOnce_hold P m aw b ct ⟨P.ell - 1 - t, by omega⟩ hfresh h
    refine ⟨s', ?_, h'.of_iff fun j _ => hslice j⟩
    simp only [hrow, Nat.add_sub_cancel_left]
    exact hs'
  obtain ⟨s, hs, hold⟩ := hrun
  rw [hs, hold.eq_map fun j _ => by omega]

/-- The fused encryption path equals the plain one. -/
theorem fused_encryption_eq_plain :
    (∀ (ct : Buf) (acc : Poly) (msg : Buf) (out : Fin P.ell) (r : Vector Poly P.ell),
      polyPackCiphertextTFromAccMsg P.logt ct acc msg out =
        polyPack ct (polyCompress ((polyAddMsg (r.set out acc) msg).get out) (11 - P.logt))
          P.logt) ∧
    (∀ (ct : Buf) (aw : RingElementAwin P.k) (b : RingElement P.k) (msg : Buf)
      (r : Vector Poly P.ell),
      let v := polyAddMsg (ringMulAwin r aw b P.ell_le_k) msg
      let ct' := ringMulAwinAddMsgPackT P ct aw b msg
      (∀ (out : Fin P.ell) (p : Buf) j, j < P.packedPolyTLen →
        ct' (out * P.packedPolyTLen + j) =
          polyPack p (polyCompress (v.get out) (11 - P.logt)) P.logt j) ∧
      (∀ j, P.ell * P.packedPolyTLen ≤ j → ct' j = ct j) ∧
      ct' = Nat.fold P.ell (fun out hout ct => ct.writeAt (out * P.packedPolyTLen) fun p =>
        polyPack p (polyCompress v[out] (11 - P.logt)) P.logt) ct) ∧
    ∀ {n : ℕ} (r : Vector Poly n) (aw : RingElementAwin P.k) (b : RingElement P.k) (hn : n ≤ P.k),
      ringMulAwinRoundP r aw b hn =
        (ringMulAwin r aw b hn).map fun f => polyRoundXtoy f 13 11 := by
  have hlogt := P.logt_cases
  refine ⟨?_, ?_, fun r aw b hn => ringMulAwinRoundP_eq r aw b hn⟩
  · intro ct acc msg out r
    rw [polyPackCiphertext_eq_plain hlogt, Vector.get_eq_getElem, polyAddMsg_getElem _ _ out.isLt,
      Vector.getElem_set_self]
    rfl
  · intro ct aw b msg r v ct'
    have hwritten := ringMulAwinAddMsgPackT_written P ct aw b msg r
    have hpack : ∀ (out : Fin P.ell) p, Written 0 P.packedPolyTLen
        (rechunk P.logt 8 (polyCodes P.logt (plainCiphertext P aw b msg r out))) p
        (polyPack p (polyCompress (v.get out) (11 - P.logt)) P.logt) := fun out p =>
      (polyPack_written p _ (by omega)).of_eq P.packedPolyTLen_eq.symm
    refine ⟨fun out p j hj => ?_, fun j hj => hwritten.above hj, ?_⟩
    · exact (hwritten.block out hj).trans ((hpack out p).inside (Nat.zero_le _) hj).symm
    · exact hwritten.eq (Written.fold_blocks (fun out hout p => hpack ⟨out, hout⟩ p) ct)

/-- The fused decryption path equals the plain one, and writes every byte of the message
once. -/
theorem fused_decryption_eq_plain :
    (∀ (m : Buf) (acc : Poly) (cm : Buf) (r : Poly),
      polyPackMessageFromAccCm P.logt m acc cm =
        polyPack m (polyRoundXtoy (polySubp P.logt acc
          (polyDecompress (polyUnpack r cm P.logt) (11 - P.logt))) 11 1) 1 ∧
      ∀ j, 16 ≤ j → polyPackMessageFromAccCm P.logt m acc cm j = m j) ∧
    ∀ (m : Buf) (aw : RingElementAwin P.k) (b : RingElement P.k) (ct : Buf)
      (r : Vector Poly P.ell) (cm : Poly),
      let v := ringMulAwin r aw b P.ell_le_k
      let bits := fun out : Fin P.ell => polyRoundXtoy (polySubp P.logt (v.get out)
        (polyDecompress (polyUnpack cm (ct.offset (out * P.packedPolyTLen)) P.logt)
          (11 - P.logt))) 11 1
      let m' := ringMulAwinSubCmPackMsg P m aw b ct
      (∀ (out : Fin P.ell) (p : Buf) j, j < 16 → m' (out * 16 + j) = polyPack p (bits out) 1 j) ∧
      (∀ j, P.ell * 16 ≤ j → m' j = m j) ∧
      m' = Nat.fold P.ell (fun out hout m =>
        m.writeAt (out * 16) fun p => polyPack p (bits ⟨out, hout⟩) 1) m ∧
      ringMulAwinSubCmPackMsgOnce P aw b ct = some ((bytesOf (P.ell * 16) m').map some) := by
  have hlogt := P.logt_cases
  refine ⟨fun m acc cm r => ⟨polyPackMessage_eq_plain hlogt m acc cm r, fun j hj =>
    (polyPackMessage_written hlogt m acc cm r).above hj⟩, ?_⟩
  intro m aw b ct r cm v bits m'
  have hwritten := ringMulAwinSubCmPackMsg_written P m aw b ct r cm
  have hpack : ∀ (out : Fin P.ell) p, Written 0 16
      (rechunk 1 8 (polyCodes 1 (plainMessage P aw b ct r cm out))) p
      (polyPack p (bits out) 1) := fun out p => polyPack_written p _ (by decide)
  refine ⟨fun out p j hj => ?_, fun j hj => hwritten.above hj, ?_,
    ringMulAwinSubCmPackMsgOnce_eq P m aw b ct⟩
  · exact (hwritten.block out hj).trans ((hpack out p).inside (Nat.zero_le _) hj).symm
  · exact hwritten.eq (Written.fold_blocks (fun out hout p => hpack ⟨out, hout⟩ p) m)

end RrlwrKem
