import RrlwrKem.Arith.Uniform
import RrlwrKem.Library.Checked

/-!
# The builders of the multiplication window

`ring_to_Awin`, `ring_unpack_Awin` and `ring_uniform_Awin` fill the same window,
from an element, from bytes and from a seed. Every entry of it is written once, the
entries behind the middle after the base entry that they are computed from.
-/

namespace RrlwrKem

open ArrayPolynomial BinomialQuotient Checked Word

variable {K : ℕ}

/-- `ring_to_Awin` on memory that records which entries were written. -/
def ringToAwinOnce (a : RingElement K) : Option (Cells Poly (2 * K - 1)) :=
  (loop K (fun u hu aw => Cells.write aw (K - 1 - u) a[u]) (Cells.fresh Poly (2 * K - 1))).bind
    fun aw => loop (K - 1) (fun t _ aw =>
      let u := t + 1
      let base := K - 1 - u
      let dst := 2 * K - 1 - u
      (Cells.read aw base).bind fun f => Cells.write aw dst (polyMulXPlus2 f)) aw

theorem baseIdx_lt {u : ℕ} (hu : u < K) : K - 1 - u < 2 * K - 1 := by omega

theorem base_lt (u : Fin K) : K - 1 - u.val < 2 * K - 1 := baseIdx_lt u.isLt

theorem dst_lt (u : Fin K) (hu : 1 ≤ u.val) : 2 * K - 1 - u.val < 2 * K - 1 := by omega

section Once

/-- The first loop writes the base entries from the middle down. -/
theorem writeBase_hold (a : RingElement K) (aw : RingElementAwin K) :
    ∃ s, loop K (fun u hu s => Cells.write s (K - 1 - u) a[u]) (Cells.fresh Poly (2 * K - 1)) =
      some s ∧ Cells.Hold (fun j => j < K) s
        (Nat.fold K (fun u hu aw => aw.set (K - 1 - u) (a.get ⟨u, hu⟩) (baseIdx_lt hu)) aw) := by
  obtain ⟨s, hs, hold⟩ := loop_simulates (n := K)
    (f := fun u hu s => Cells.write s (K - 1 - u) a[u]) (a := Cells.fresh Poly (2 * K - 1))
    (g := fun u hu (aw : RingElementAwin K) => aw.set (K - 1 - u) a[u]) (b := aw)
    (fun u => Cells.Hold fun j => K - u ≤ j ∧ j < K)
    (Cells.hold_fresh (fun j _ hj => by omega) aw) (by
      intro u hu s aw h
      obtain ⟨s', hs', h'⟩ := h.write (show K - 1 - u < 2 * K - 1 by omega) (by omega) a[u]
      exact ⟨s', hs', h'.of_iff fun j _ => by omega⟩)
  exact ⟨s, hs, hold.of_iff fun j _ => by omega⟩

/-- The second loop reads base entries only and writes the others. -/
theorem writeWrap_hold {s : Cells Poly (2 * K - 1)} {aw : RingElementAwin K}
    (h : Cells.Hold (fun j => j < K) s aw) :
    ∃ s', loop (K - 1) (fun t _ s => (Cells.read s (K - 1 - (t + 1))).bind fun f =>
        Cells.write s (2 * K - 1 - (t + 1)) (polyMulXPlus2 f)) s = some s' ∧
      Cells.Hold (fun _ => True) s' (awinWrap aw) := by
  obtain ⟨s', hs', hold⟩ := loop_simulates (n := K - 1)
    (f := fun t _ s => (Cells.read s (K - 1 - (t + 1))).bind fun f =>
      Cells.write s (2 * K - 1 - (t + 1)) (polyMulXPlus2 f)) (a := s)
    (g := fun t ht (aw : RingElementAwin K) =>
      aw.set (2 * K - 1 - (t + 1)) (polyMulXPlus2 aw[K - 1 - (t + 1)])) (b := aw)
    (fun t => Cells.Hold fun j => j < K ∨ 2 * K - 1 - t ≤ j)
    (h.of_iff fun j _ => by omega) (by
      intro t ht s aw h
      have hread := h.read (show K - 1 - (t + 1) < 2 * K - 1 by omega) (.inl (by omega))
      obtain ⟨s', hs', h'⟩ := h.write (show 2 * K - 1 - (t + 1) < 2 * K - 1 by omega) (by omega)
        (polyMulXPlus2 aw[K - 1 - (t + 1)])
      refine ⟨s', ?_, h'.of_iff fun j _ => by omega⟩
      rw [hread]
      exact hs')
  exact ⟨s', hs', hold.of_iff fun j _ => ⟨fun _ => by omega, fun _ => trivial⟩⟩

/-- Every entry is written once, and every base entry before it is read. -/
theorem ringToAwinOnce_eq (a : RingElement K) (aw : RingElementAwin K) :
    ringToAwinOnce a = some ((ringToAwin aw a).map some) := by
  obtain ⟨s, hs, hbase⟩ := writeBase_hold a aw
  obtain ⟨s', hs', hall⟩ := writeWrap_hold hbase
  rw [ringToAwinOnce, hs]
  exact hs'.trans (congrArg some (hall.eq_map fun _ _ => trivial))

end Once

section Builders

/-- An element has one window. -/
theorem IsWindow.unique {aw aw' : RingElementAwin K} {a : RingElement K} (h : IsWindow aw a)
    (h' : IsWindow aw' a) : aw = aw' := by
  refine Vector.ext fun j hj => ?_
  by_cases hlt : j < K
  · have hidx : K - 1 - (K - 1 - j) = j := by omega
    have hbase := (h.1 (K - 1 - j) (by omega)).trans (h'.1 (K - 1 - j) (by omega)).symm
    simpa only [hidx] using hbase
  · have hidx : 2 * K - 1 - (2 * K - 1 - j) = j := by omega
    have hwrap := (h.2 (2 * K - 1 - j) (by omega) (by omega)).trans
      (h'.2 (2 * K - 1 - j) (by omega) (by omega)).symm
    simpa only [hidx] using hwrap

/-- An entry behind the middle is `x + 2` times a coefficient of the element. -/
theorem polyMulXPlus2_modEq (f : Poly) (k : Fin 128) : (((polyMulXPlus2 f).get k).toNat : ℤ) ≡
    BinomialQuotient.coeff (intXPlus2 * intPoly f) k [ZMOD 2 ^ 16] := by
  refine (polyClass_eq_reducePoly_iff 16 _ _).mp ?_ k
  rw [polyClass_polyMulXPlus2 le_rfl, map_mul, reducePoly_intXPlus2, reducePoly_intPoly]

/-- The three builders fill the same window, whatever was in memory before. -/
theorem awin_builders_agree (P : SecurityLevel) (xof : Xof) (aw aw' : RingElementAwin P.k) :
    (∀ a : RingElement P.k,
      (∀ u : Fin P.k, (ringToAwin aw a).get ⟨P.k - 1 - u, base_lt u⟩ = a.get u) ∧
      (∀ (u : Fin P.k) (hu : 1 ≤ u.val) (k : Fin 128),
        ((((ringToAwin aw a).get ⟨2 * P.k - 1 - u, dst_lt u hu⟩).get k).toNat : ℤ) ≡
          BinomialQuotient.coeff ((gen (-1) 128 + 2) * intPoly (a.get u)) k [ZMOD 2 ^ 16]) ∧
      ringToAwinOnce a = some ((ringToAwin aw a).map some)) ∧
    (∀ (b : Buf) (bitlen : ℕ) (r : RingElement P.k), 1 ≤ bitlen → bitlen ≤ 16 →
      ringUnpackAwin aw b bitlen = ringToAwin aw' (ringUnpack r b bitlen)) ∧
    ∀ (seed : List Byte) (bitlen : ℕ) (r : RingElement P.k), 1 ≤ bitlen → bitlen ≤ 13 →
      ringUniformAwin P xof aw bitlen seed = ringToAwin aw' (ringUniform P xof r bitlen seed) := by
  refine ⟨fun a => ?_, fun b bitlen r _ hb => ?_, fun seed bitlen r _ hb => ?_⟩
  · have hwindow := ringToAwin_isWindow aw a
    refine ⟨fun u => hwindow.1 u u.isLt, fun u hu k => ?_, ringToAwinOnce_eq a aw⟩
    have hentry : (ringToAwin aw a).get ⟨2 * P.k - 1 - u, dst_lt u hu⟩ =
        polyMulXPlus2 (a.get u) :=
      hwindow.2 u hu u.isLt
    rw [hentry]
    exact polyMulXPlus2_modEq (a.get u) k
  · exact (ringUnpackAwin_isWindow aw r b hb).unique (ringToAwin_isWindow aw' _)
  · exact (ringUniformAwin_isWindow P xof aw r (by omega) seed).unique (ringToAwin_isWindow aw' _)

end Builders

end RrlwrKem
