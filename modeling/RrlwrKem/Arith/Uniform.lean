import RrlwrKem.Arith.Ring

/-!
# Sampling of ring elements

Four output streams of SHAKE128, one for each nonce, are laid end to end and
unpacked polynomial after polynomial. The extendable-output function is an
arbitrary map from its input and the number of blocks to that many blocks.
Local arrays are filled before they are read and start out as zeros.
-/

namespace RrlwrKem

open ArrayPolynomial

/-- `shake128_absorb_once` followed by `shake128_squeezeblocks`. -/
abbrev Xof := List Byte → (nblocks : ℕ) → Bytes (nblocks * 168)

/-- The local `seed_buffer` holds the seed and the nonce for seeds of up to 128 bytes; all
callers pass 64. -/
def squeezeSeedNonce (xof : Xof) (out : Buf) (nblocks : ℕ) (seed : List Byte) (nonce : Byte) :
    Buf :=
  let seedBuffer := seed ++ [nonce]
  out.copy (xof seedBuffer nblocks)

/-- The number of blocks that each of the four streams has. -/
def uniformBlocks (npolys bitlen : ℕ) : ℕ := ((bitlen * 16) / 4 * npolys + 168 - 1) / 168

/-- The buffer that `poly_uniform_kx` unpacks. The array of the source has room for the four
streams for widths of up to 13 bits, and all callers ask for 2 or for 13. -/
def uniformBuffer (xof : Xof) (npolys bitlen : ℕ) (seed : List Byte)
    (nonce0 nonce1 nonce2 nonce3 : Byte) : Buf :=
  let nblocks := uniformBlocks npolys bitlen
  let buf : Buf := fun _ => 0
  let buf := buf.writeAt (0 * nblocks * 168) fun p => squeezeSeedNonce xof p nblocks seed nonce0
  let buf := buf.writeAt (1 * nblocks * 168) fun p => squeezeSeedNonce xof p nblocks seed nonce1
  let buf := buf.writeAt (2 * nblocks * 168) fun p => squeezeSeedNonce xof p nblocks seed nonce2
  buf.writeAt (3 * nblocks * 168) fun p => squeezeSeedNonce xof p nblocks seed nonce3

/-- `r` lists the polynomials of the array `x` that the pointers stand for. -/
def polyUniformKx (xof : Xof) {m npolys : ℕ} (x : Vector Poly m) (r : Vector (Fin m) npolys)
    (bitlen : ℕ) (seed : List Byte) (nonce0 nonce1 nonce2 nonce3 : Byte) : Vector Poly m :=
  let outlen := bitlen * 16
  let buf := uniformBuffer xof npolys bitlen seed nonce0 nonce1 nonce2 nonce3
  Nat.fold npolys (fun i hi x =>
    x.set r[i] (polyUnpack x[r[i]] (buf.offset (i * outlen)) bitlen)) x

/-- The arguments of `poly_uniform_5x`, `_9x` and `_17x` in `ring_uniform`. -/
def ringPointers : (P : SecurityLevel) → Vector (Fin P.k) P.k
  | .level128 => (#v[0, 1, 2, 3, 4] : Vector (Fin 5) 5)
  | .level256 => (#v[0, 1, 2, 3, 4, 5, 6, 7, 8] : Vector (Fin 9) 9)
  | .level512 => (#v[0, 1, 2, 3, 4, 5, 6, 7, 8, 9, 10, 11, 12, 13, 14, 15, 16] :
      Vector (Fin 17) 17)

/-- The arguments of `poly_uniform_5x`, `_9x` and `_17x` in `ring_uniform_Awin_base`. -/
def awinPointers : (P : SecurityLevel) → Vector (Fin (2 * P.k - 1)) P.k
  | .level128 => (#v[4, 3, 2, 1, 0] : Vector (Fin 9) 5)
  | .level256 => (#v[8, 7, 6, 5, 4, 3, 2, 1, 0] : Vector (Fin 17) 9)
  | .level512 => (#v[16, 15, 14, 13, 12, 11, 10, 9, 8, 7, 6, 5, 4, 3, 2, 1, 0] :
      Vector (Fin 33) 17)

def ringUniform (P : SecurityLevel) (xof : Xof) (r : RingElement P.k) (bitlen : ℕ)
    (seed : List Byte) : RingElement P.k :=
  polyUniformKx xof r (ringPointers P) bitlen seed 0 1 2 3

def ringUniformAwinBase (P : SecurityLevel) (xof : Xof) (aw : RingElementAwin P.k) (bitlen : ℕ)
    (seed : List Byte) : RingElementAwin P.k :=
  polyUniformKx xof aw (awinPointers P) bitlen seed 0 1 2 3

def ringUniformAwin (P : SecurityLevel) (xof : Xof) (aw : RingElementAwin P.k) (bitlen : ℕ)
    (seed : List Byte) : RingElementAwin P.k :=
  awinWrap (ringUniformAwinBase P xof aw bitlen seed)

theorem polyUniformKx_getElem (xof : Xof) {m npolys : ℕ} (x : Vector Poly m)
    (r : Vector (Fin m) npolys)
    (hr : ∀ i j (hi : i < npolys) (hj : j < npolys), r[i] = r[j] → i = j)
    {bitlen : ℕ} (hb : bitlen ≤ 16) (seed : List Byte) (nonce0 nonce1 nonce2 nonce3 : Byte)
    {i : ℕ} (hi : i < npolys) :
    (polyUniformKx xof x r bitlen seed nonce0 nonce1 nonce2 nonce3)[r[i]] =
      Vector.ofFn fun j : Fin 128 => decoded bitlen
        ((uniformBuffer xof npolys bitlen seed nonce0 nonce1 nonce2 nonce3).offset
          (i * (bitlen * 16))) j := by
  refine fold_set_get (fun i => r.get i) (fun i : Fin npolys => Vector.ofFn fun j : Fin 128 =>
    decoded bitlen ((uniformBuffer xof npolys bitlen seed nonce0 nonce1 nonce2 nonce3).offset
      (i * (bitlen * 16))) j) (fun i j h => Fin.ext (hr i j i.isLt j.isLt h))
    (fun i hi x => ?_) x ⟨i, hi⟩
  rw [polyUnpack_eq _ _ hb]
  rfl

theorem ringPointers_getElem (P : SecurityLevel) : ∀ i (hi : i < P.k),
    (ringPointers P)[i] = ⟨i, hi⟩ := by
  cases P <;> decide

theorem awinPointers_getElem (P : SecurityLevel) : ∀ i (hi : i < P.k),
    (awinPointers P)[i].val = P.k - 1 - i := by
  cases P <;> decide

/-- Polynomial `i` of a sampled element is unpacked from the `i`-th piece of the buffer. -/
theorem ringUniform_getElem (P : SecurityLevel) (xof : Xof) (r : RingElement P.k) {bitlen : ℕ}
    (hb : bitlen ≤ 16) (seed : List Byte) {i : ℕ} (hi : i < P.k) :
    (ringUniform P xof r bitlen seed)[i] = Vector.ofFn fun j : Fin 128 => decoded bitlen
      ((uniformBuffer xof P.k bitlen seed 0 1 2 3).offset (i * (bitlen * 16))) j := by
  have h := polyUniformKx_getElem xof r (ringPointers P) (fun i j hi hj h => by
    rw [ringPointers_getElem, ringPointers_getElem] at h
    exact congrArg Fin.val h) hb seed 0 1 2 3 hi
  simp only [Fin.getElem_fin, ringPointers_getElem P i hi] at h
  exact h

/-- The sampled window is the window of the sampled element. -/
theorem ringUniformAwin_isWindow (P : SecurityLevel) (xof : Xof) (aw : RingElementAwin P.k)
    (r : RingElement P.k) {bitlen : ℕ} (hb : bitlen ≤ 16) (seed : List Byte) :
    IsWindow (ringUniformAwin P xof aw bitlen seed) (ringUniform P xof r bitlen seed) := by
  refine awinWrap_isWindow fun u hu => ?_
  -- the pointers of the window run backwards over the same stream
  have hawin := polyUniformKx_getElem xof aw (awinPointers P) (fun i j hi hj h => by
    have hv := congrArg Fin.val h
    rw [awinPointers_getElem, awinPointers_getElem] at hv
    omega) hb seed 0 1 2 3 hu
  simp only [Fin.getElem_fin, awinPointers_getElem P u hu] at hawin
  rw [ringUniformAwinBase, ringUniform_getElem P xof r hb seed hu, hawin]

end RrlwrKem
