import RrlwrKem.Arith.PackingBuilds
import RrlwrKem.Arith.Uniform

/-!
# Uniform sampling

`ring_uniform` with its buffers: the four streams are written next to each other,
each byte once and inside the array, and the polynomials are cut from bytes that
were written. What the unpacker makes of the bytes that it uses is a bijection, so
uniform streams give uniform ring elements.
-/

namespace RrlwrKem

open ArrayPolynomial BitStream Checked

section Definitions

/-- `RRLWR_MAX_OUTLEN`. -/
def maxOutlen (K : ℕ) : ℕ := 13 * 128 / 4 * K / 8

/-- `RRLWR_XOF_BUFLEN`. -/
def xofBuflen (K : ℕ) : ℕ := (maxOutlen K + 168 - 1) / 168 * 168

/-- `squeeze_seed_nonce` to `out + p`, on memory that records which bytes were written.
The seed and its nonce are copied to a buffer of `RRLWR_MAX_SEED_LEN + 1` bytes. -/
def squeezeSeedNonceOnce (xof : Xof) {n : ℕ} (out : Cells Byte n) (p nblocks : ℕ)
    (seed : List Byte) (nonce : Byte) : Option (Cells Byte n) :=
  if seed.length < 128 + 1 then
    let seedBuffer := seed ++ [nonce]
    loop (nblocks * 168) (fun j hj out => out.write (p + j) (xof seedBuffer nblocks)[j]) out
  else none

/-- The buffer of `poly_uniform_kx`, `uint8_t buf[4 * RRLWR_XOF_BUFLEN]`. -/
def uniformBufferOnce (xof : Xof) (K bitlen : ℕ) (seed : List Byte)
    (nonce0 nonce1 nonce2 nonce3 : Byte) : Option (Cells Byte (4 * xofBuflen K)) :=
  let nblocks := uniformBlocks K bitlen
  (squeezeSeedNonceOnce xof (Cells.fresh Byte (4 * xofBuflen K)) (0 * nblocks * 168) nblocks seed
    nonce0).bind fun buf =>
  (squeezeSeedNonceOnce xof buf (1 * nblocks * 168) nblocks seed nonce1).bind fun buf =>
  (squeezeSeedNonceOnce xof buf (2 * nblocks * 168) nblocks seed nonce2).bind fun buf =>
  squeezeSeedNonceOnce xof buf (3 * nblocks * 168) nblocks seed nonce3

/-- `ring_uniform` on that memory, in either build of the packing layer. -/
def ringUniformOnce (bld : CBuild.Build) (P : SecurityLevel) (xof : Xof) (r : RingElement P.k)
    (bitlen : ℕ) (seed : List Byte) : Option (RingElement P.k) :=
  let outlen := bitlen * 16
  (uniformBufferOnce xof P.k bitlen seed 0 1 2 3).bind fun buf =>
  loop P.k (fun i hi r =>
    (CBuild.polyUnpack .strict bld r[(ringPointers P)[i]]
      (fun j => Cells.read buf (i * outlen + j)) bitlen).map fun f =>
        r.set (ringPointers P)[i] f) r

/-- Four streams of `B` bytes end to end. -/
def streamBuf {B : ℕ} (s : Fin 4 → Bytes B) : Buf := Written.blocks B fun n => bufOf (s n)

/-- The first `N` bytes of the streams. -/
def initialBytes {B : ℕ} (N : ℕ) (s : Fin 4 → Bytes B) : Bytes N := bytesOf N (streamBuf s)

/-- The streams with other first bytes. -/
def replaceInitial {B N : ℕ} (b : Bytes N) (s : Fin 4 → Bytes B) : Fin 4 → Bytes B := fun n =>
  Vector.ofFn fun j => if h : n * B + j < N then b[n * B + j] else (s n).get j

/-- The streams that `ring_uniform` squeezes. -/
def squeezed (xof : Xof) (K bitlen : ℕ) (seed : List Byte) (nonce : Fin 4) :
    Bytes (uniformBlocks K bitlen * 168) :=
  xof (seed ++ [BitVec.ofNat 8 nonce]) (uniformBlocks K bitlen)

/-- The ring element that is unpacked from a byte string of the right length. -/
def sampleRing (K bitlen : ℕ) (b : Bytes (16 * bitlen * K)) : RingElement K :=
  ringUnpack (Vector.replicate K (Vector.replicate 128 0)) (bufOf b) bitlen

/-- The ring elements with residues of `bitlen` bits, or with coefficients `-2, …, 1`
modulo `q` for two bits. -/
def sampleSpace (K bitlen : ℕ) : Set (RingElement K) :=
  { a | ∀ (i : Fin K) (k : Fin 128), if bitlen = 2 then
      ((a.get i).get k).toNat ∈ ({0, 1, 8191, 8190} : Finset ℕ)
    else ((a.get i).get k).toNat < 2 ^ bitlen }

end Definitions

section Buffer

variable {K bitlen : ℕ}

/-- Four streams fit in the buffer. -/
theorem streams_le_buflen (hb : bitlen ≤ 13) :
    4 * (uniformBlocks K bitlen * 168) ≤ 4 * xofBuflen K := by
  have hlen : bitlen * 16 / 4 * K ≤ maxOutlen K := by
    have hmax : maxOutlen K = 52 * K := by
      rw [maxOutlen]
      omega
    rw [hmax]
    exact Nat.mul_le_mul_right K (by omega)
  have hblocks : uniformBlocks K bitlen ≤ (maxOutlen K + 168 - 1) / 168 :=
    Nat.div_le_div_right (by omega)
  rw [xofBuflen]
  omega

/-- The bytes that are unpacked lie in the streams. -/
theorem unpacked_le_streams (K bitlen : ℕ) :
    16 * bitlen * K ≤ 4 * (uniformBlocks K bitlen * 168) := by
  have hlen : bitlen * 16 / 4 * K = 4 * bitlen * K := by
    rw [show bitlen * 16 / 4 = 4 * bitlen by omega]
  have hall : 16 * bitlen * K = 4 * (4 * bitlen * K) := by ring
  rw [hall, uniformBlocks, hlen]
  omega

/-- Every byte of every piece that is unpacked. -/
theorem unpacked_lt {i j : ℕ} (hi : i < K) (hj : j < bitlen * 16) :
    i * (bitlen * 16) + j < 4 * (uniformBlocks K bitlen * 168) := by
  have hle : i * (bitlen * 16) + bitlen * 16 ≤ K * (bitlen * 16) := Written.block_le ⟨i, hi⟩ _
  have hall : K * (bitlen * 16) = 16 * bitlen * K := by ring
  have hstreams := unpacked_le_streams K bitlen
  omega

theorem squeeze_hold (xof : Xof) {n : ℕ} {out : Cells Byte n} {y : Bytes n} {p nblocks : ℕ}
    {seed : List Byte} (hs : seed.length ≤ 128) (nonce : Byte) (hfit : p + nblocks * 168 ≤ n)
    (h : Cells.Hold (fun j => j < p) out y)
    (hy : ∀ j (hj : j < nblocks * 168), (xof (seed ++ [nonce]) nblocks)[j] = y[p + j]) :
    ∃ out', squeezeSeedNonceOnce xof out p nblocks seed nonce = some out' ∧
      Cells.Hold (fun j => j < p + nblocks * 168) out' y := by
  rw [squeezeSeedNonceOnce, if_pos (by omega)]
  obtain ⟨out', hout, h'⟩ := h.write_stretch hfit (by omega) hy
  exact ⟨out', hout, h'.of_iff fun i _ => by omega⟩

/-- What the buffer holds in the end, as far as it was written. -/
def bufferBytes (xof : Xof) (K bitlen : ℕ) (seed : List Byte) : Bytes (4 * xofBuflen K) :=
  bytesOf _ (streamBuf (squeezed xof K bitlen seed))

theorem uniformBufferOnce_hold (xof : Xof) (K : ℕ) (hb : bitlen ≤ 13) {seed : List Byte}
    (hs : seed.length ≤ 128) : ∃ buf, uniformBufferOnce xof K bitlen seed 0 1 2 3 = some buf ∧
      Cells.Hold (fun j => j < 4 * (uniformBlocks K bitlen * 168)) buf
        (bufferBytes xof K bitlen seed) := by
  have hfit := streams_le_buflen (K := K) hb
  -- stream `n` goes to the place that it has in the concatenation
  have hstream : ∀ (n : Fin 4) j (hj : j < uniformBlocks K bitlen * 168)
      (hlt : n * uniformBlocks K bitlen * 168 + j < 4 * xofBuflen K),
      (xof (seed ++ [BitVec.ofNat 8 n]) (uniformBlocks K bitlen))[j] =
        (bufferBytes xof K bitlen seed)[n * uniformBlocks K bitlen * 168 + j] := by
    intro n j hj hlt
    have hidx : n * uniformBlocks K bitlen * 168 + j = n * (uniformBlocks K bitlen * 168) + j := by
      rw [Nat.mul_assoc]
    rw [bufferBytes, bytesOf_getElem _ _ hlt, hidx, streamBuf, Written.blocks_apply _ n hj,
      bufOf_apply _ hj]
    rfl
  rw [uniformBufferOnce]
  obtain ⟨buf0, h0, hold0⟩ := squeeze_hold (p := 0 * uniformBlocks K bitlen * 168)
    xof hs 0 (by omega)
    (Cells.hold_fresh (fun j _ hj => by omega) (bufferBytes xof K bitlen seed))
    fun j hj => hstream 0 j hj (by omega)
  obtain ⟨buf1, h1, hold1⟩ := squeeze_hold (p := 1 * uniformBlocks K bitlen * 168)
    xof hs 1 (by omega)
    (hold0.of_iff fun j _ => by omega) fun j hj => hstream 1 j hj (by omega)
  obtain ⟨buf2, h2, hold2⟩ := squeeze_hold (p := 2 * uniformBlocks K bitlen * 168)
    xof hs 2 (by omega)
    (hold1.of_iff fun j _ => by omega) fun j hj => hstream 2 j hj (by omega)
  obtain ⟨buf3, h3, hold3⟩ := squeeze_hold (p := 3 * uniformBlocks K bitlen * 168)
    xof hs 3 (by omega)
    (hold2.of_iff fun j _ => by omega) fun j hj => hstream 3 j hj (by omega)
  refine ⟨buf3, ?_, hold3.of_iff fun j _ => by omega⟩
  rw [h0, Option.bind_some, h1, Option.bind_some, h2, Option.bind_some, h3]

/-- The buffer of the plain model holds the four streams. -/
theorem uniformBuffer_apply (xof : Xof) (K bitlen : ℕ) (seed : List Byte) {j : ℕ}
    (hj : j < 4 * (uniformBlocks K bitlen * 168)) :
    uniformBuffer xof K bitlen seed 0 1 2 3 j = streamBuf (squeezed xof K bitlen seed) j := by
  have hloop : uniformBuffer xof K bitlen seed 0 1 2 3 =
      Nat.fold 4 (fun n hn (buf : Buf) => buf.writeAt (n * (uniformBlocks K bitlen * 168)) fun p =>
        p.copy (squeezed xof K bitlen seed ⟨n, hn⟩)) (fun _ => 0 : Buf) := by
    simp only [uniformBuffer, Nat.mul_assoc]
    rfl
  have hfold := Written.fold_blocks (n := 4) (V := fun n => bufOf (squeezed xof K bitlen seed n))
    (fun n hn b => copy_written b (squeezed xof K bitlen seed ⟨n, hn⟩)) fun _ => 0
  rw [hloop]
  exact hfold.inside (Nat.zero_le j) hj

/-- A stream is long enough for a polynomial. -/
theorem piece_le_stream (P : SecurityLevel) (bitlen : ℕ) :
    bitlen * 16 ≤ uniformBlocks P.k bitlen * 168 := by
  have hk : 4 * bitlen * 5 ≤ 4 * bitlen * P.k := Nat.mul_le_mul_left _ (by cases P <;> decide)
  have hlen : bitlen * 16 / 4 * P.k = 4 * bitlen * P.k := by
    rw [show bitlen * 16 / 4 = 4 * bitlen by omega]
  rw [uniformBlocks, hlen]
  omega

/-- The first polynomial of a sampled element is unpacked from the first stream alone. -/
theorem ringUniform_first (P : SecurityLevel) (xof : Xof) (r : Poly) (a : RingElement P.k)
    {bitlen : ℕ} (hb1 : 1 ≤ bitlen) (hb : bitlen ≤ 16) (seed : List Byte) {b : Buf}
    (h : ∀ j < bitlen * 16, b j = bufOf (xof (seed ++ [0]) (uniformBlocks P.k bitlen)) j) :
    (ringUniform P xof a bitlen seed).get ⟨0, P.k_pos⟩ = polyUnpack r b bitlen := by
  have hblocks := piece_le_stream P bitlen
  have hrow : (ringUniform P xof a bitlen seed).get ⟨0, P.k_pos⟩ =
      polyUnpack r ((uniformBuffer xof P.k bitlen seed 0 1 2 3).offset (0 * (bitlen * 16)))
        bitlen := by
    rw [polyUnpack_eq _ _ hb]
    exact ringUniform_getElem P xof a hb seed P.k_pos
  rw [hrow]
  refine ((polyPack_isCodec hb1 hb).reads _ _ _ _).mpr fun j hj => ?_
  have hidx : 0 * (bitlen * 16) + j = (0 : Fin 4).val * (uniformBlocks P.k bitlen * 168) + j := by
    rw [Fin.val_zero, Nat.zero_mul, Nat.zero_mul]
  rw [h j (by omega), Buf.offset, hidx, uniformBuffer_apply _ _ _ _ (by rw [← hidx]; omega),
    streamBuf, Written.blocks_apply _ 0 (by omega)]
  rfl

end Buffer

section Checked

variable {bitlen : ℕ}

/-- Polynomial `i` is cut from bytes that were written. -/
theorem read_unpacked {K : ℕ} {buf : Cells Byte (4 * xofBuflen K)} {y : Bytes (4 * xofBuflen K)}
    (hb : bitlen ≤ 13)
    (h : Cells.Hold (fun j => j < 4 * (uniformBlocks K bitlen * 168)) buf y) {i j : ℕ} (hi : i < K)
    (hj : j < bitlen * 16) : Cells.read buf (i * (bitlen * 16) + j) =
      some (bufOf y (i * (bitlen * 16) + j)) := by
  have hlt := (unpacked_lt hi hj).trans_le (streams_le_buflen hb)
  rw [h.read hlt (unpacked_lt hi hj), bufOf_apply y hlt]

theorem ringUniformOnce_eq (bld : CBuild.Build) (P : SecurityLevel) (xof : Xof)
    (r : RingElement P.k)
    (hb1 : 1 ≤ bitlen) (hb : bitlen ≤ 13) {seed : List Byte} (hs : seed.length ≤ 128) :
    ringUniformOnce bld P xof r bitlen seed = some (ringUniform P xof r bitlen seed) := by
  obtain ⟨buf, hbuf, hold⟩ := uniformBufferOnce_hold xof P.k hb hs
  rw [ringUniformOnce, hbuf, Option.bind_some]
  refine loop_eq_fold fun i hi r => ?_
  have hread : ∀ j < 16 * bitlen, Cells.read buf (i * (bitlen * 16) + j) =
      some ((uniformBuffer xof P.k bitlen seed 0 1 2 3).offset (i * (bitlen * 16)) j) := by
    intro j hj
    rw [Nat.mul_comm] at hj
    have hlt := unpacked_lt hi hj
    rw [read_unpacked hb hold hi hj, Buf.offset, uniformBuffer_apply xof P.k bitlen seed hlt,
      bufferBytes, bufOf_bytesOf _ (hlt.trans_le (streams_le_buflen hb))]
  rw [CBuild.polyUnpack_eq .strict bld hb1 (by omega) _ hread, Option.map_some]

end Checked

section Bijection

variable {K bitlen : ℕ}

/-- The result depends on the first bytes of the streams only. -/
theorem ringUniform_eq_sampleRing (P : SecurityLevel) (xof : Xof) (r : RingElement P.k)
    (hb1 : 1 ≤ bitlen) (hb : bitlen ≤ 16) (seed : List Byte) :
    ringUniform P xof r bitlen seed = sampleRing P.k bitlen
      (initialBytes (16 * bitlen * P.k) (squeezed xof P.k bitlen seed)) := by
  have hunpack : ringUniform P xof r bitlen seed =
      ringUnpack r (uniformBuffer xof P.k bitlen seed 0 1 2 3) bitlen := by
    rw [ringUnpack_eq r _ hb]
    refine Vector.ext fun i hi => ?_
    rw [ringUniform_getElem P xof r hb seed hi, Vector.getElem_ofFn,
      show i * (bitlen * 16) = 16 * bitlen * i by ring]
  rw [hunpack, sampleRing]
  refine ((ringPack_isCodec hb1 hb).reads _ _ _ _).mpr fun j hj => ?_
  have hstreams := unpacked_le_streams P.k bitlen
  rw [initialBytes, bufOf_bytesOf _ hj, uniformBuffer_apply xof P.k bitlen seed (by omega)]

/-- A value that has no more bits than are kept is not changed by the reduction. -/
theorem Reduced.eq_of_mem {x y : U16} (h : Reduced bitlen x y) (hx : if bitlen = 2 then
    x.toNat ∈ ({0, 1, 8191, 8190} : Finset ℕ) else x.toNat < 2 ^ bitlen) : y = x := by
  apply BitVec.eq_of_toNat_eq
  rw [Reduced] at h
  by_cases h2 : bitlen = 2
  · rw [if_pos h2] at h hx
    obtain ⟨hmem, hmod⟩ := h
    simp only [Finset.mem_insert, Finset.mem_singleton] at hmem hx
    omega
  · rw [if_neg h2] at h hx
    rw [h, Nat.mod_eq_of_lt hx]

theorem sampleRing_bijOn (hb1 : 1 ≤ bitlen) (hb : bitlen ≤ 16) :
    Set.BijOn (sampleRing K bitlen) Set.univ (sampleSpace K bitlen) := by
  have hcodec := ringPack_isCodec (K := K) hb1 hb
  refine ⟨fun b _ i k => ?_, fun b _ b' _ h => ?_, fun a ha => ?_⟩
  · have hentry : ((sampleRing K bitlen b).get i).get k = decoded bitlen
        ((bufOf b).offset (16 * bitlen * i)) k := by
      simp only [sampleRing, ringUnpack_eq _ _ hb, Vector.get_ofFn]
    rw [hentry, decoded]
    split_ifs with h2
    · subst h2
      exact unpackCode_two_mem _
    · exact unpackCode_lt h2 _
  · have hbytes := (hcodec.reads _ _ _ _).mp h
    refine Vector.ext fun j hj => ?_
    have hj' := hbytes j hj
    rwa [bufOf_apply _ hj, bufOf_apply _ hj] at hj'
  · let packed := ringPack (fun _ => 0) a bitlen
    refine ⟨bytesOf _ packed, Set.mem_univ _, ?_⟩
    have hread : sampleRing K bitlen (bytesOf _ packed) =
        ringUnpack (Vector.replicate K (Vector.replicate 128 0)) packed bitlen :=
      (hcodec.reads _ _ _ _).mpr fun j hj => bufOf_bytesOf packed hj
    rw [hread]
    refine Vector.ext fun i hi => Vector.ext fun k hk => ?_
    exact (hcodec.unpack_pack _ a _ ⟨i, hi⟩ ⟨k, hk⟩).eq_of_mem (ha ⟨i, hi⟩ ⟨k, hk⟩)

end Bijection

section Uniformity

variable {B N : ℕ}

theorem streamBuf_apply (s : Fin 4 → Bytes B) (n : Fin 4) {j : ℕ} (hj : j < B) :
    streamBuf s (n * B + j) = (s n)[j] := by
  rw [streamBuf, Written.blocks_apply _ n hj, bufOf_apply _ hj]

theorem initialBytes_replaceInitial (hN : N ≤ 4 * B) (b : Bytes N) (s : Fin 4 → Bytes B) :
    initialBytes N (replaceInitial b s) = b := by
  refine Vector.ext fun j hj => ?_
  have hB : 0 < B := by omega
  have hdiv : j / B < 4 := Nat.div_lt_of_lt_mul (by omega)
  have hidx : j / B * B + j % B = j := Nat.div_add_mod' j B
  have h := streamBuf_apply (replaceInitial b s) ⟨j / B, hdiv⟩ (Nat.mod_lt j hB)
  simp only [hidx, replaceInitial, Vector.getElem_ofFn, hj, dif_pos] at h
  rw [initialBytes, bytesOf_getElem _ _ hj]
  exact h

theorem replaceInitial_replaceInitial (b b' : Bytes N) {s : Fin 4 → Bytes B}
    (h : initialBytes N s = b) : replaceInitial b (replaceInitial b' s) = s := by
  funext n
  refine Vector.ext fun j hj => ?_
  simp only [replaceInitial, Vector.getElem_ofFn, Vector.get_ofFn]
  by_cases hlt : n * B + j < N
  · subst h
    rw [dif_pos hlt, initialBytes, bytesOf_getElem _ _ hlt, streamBuf_apply s n hj]
  · rw [dif_neg hlt, dif_neg hlt]
    rfl

/-- As many streams start with `b` as with `b'`. -/
def initialEquiv (hN : N ≤ 4 * B) (b b' : Bytes N) :
    { s : Fin 4 → Bytes B // initialBytes N s = b } ≃
      { s : Fin 4 → Bytes B // initialBytes N s = b' } where
  toFun s := ⟨replaceInitial b' s.1, initialBytes_replaceInitial hN b' s.1⟩
  invFun s := ⟨replaceInitial b s.1, initialBytes_replaceInitial hN b s.1⟩
  left_inv s := Subtype.ext (replaceInitial_replaceInitial b b' s.2)
  right_inv s := Subtype.ext (replaceInitial_replaceInitial b' b s.2)

/-- Every ring element of the sample space comes from as many streams as any other. -/
theorem sampleRing_fibres {K bitlen : ℕ} (hb1 : 1 ≤ bitlen) (hb : bitlen ≤ 16)
    (hN : 16 * bitlen * K ≤ 4 * B) {a a' : RingElement K} (ha : a ∈ sampleSpace K bitlen)
    (ha' : a' ∈ sampleSpace K bitlen) :
    Nonempty ({ s : Fin 4 → Bytes B // sampleRing K bitlen (initialBytes _ s) = a } ≃
      { s : Fin 4 → Bytes B // sampleRing K bitlen (initialBytes _ s) = a' }) := by
  obtain ⟨-, hinj, hsurj⟩ := sampleRing_bijOn (K := K) hb1 hb
  have hfibre : ∀ b (s : Fin 4 → Bytes B), sampleRing K bitlen (initialBytes _ s) =
      sampleRing K bitlen b ↔ initialBytes _ s = b := fun b s =>
    ⟨fun h => hinj (Set.mem_univ _) (Set.mem_univ _) h, fun h => by rw [h]⟩
  obtain ⟨b, -, rfl⟩ := hsurj ha
  obtain ⟨b', -, rfl⟩ := hsurj ha'
  exact ⟨(Equiv.subtypeEquivRight (hfibre b)).trans
    ((initialEquiv hN b b').trans (Equiv.subtypeEquivRight (hfibre b')).symm)⟩

/-- The streams lie next to each other in the buffer, a sampled element is a bijective
function of the first bytes of them, and no other byte is read. -/
structure SamplesUniformly (P : SecurityLevel) (xof : Xof) (bitlen : ℕ) (seed : List Byte) :
    Prop where
  fits : 4 * (uniformBlocks P.k bitlen * 168) ≤ 4 * xofBuflen P.k
  filled : ∃ buf, uniformBufferOnce xof P.k bitlen seed 0 1 2 3 = some buf ∧
    ∀ j (hj : j < 4 * xofBuflen P.k), buf[j] = if j < 4 * (uniformBlocks P.k bitlen * 168) then
      some (streamBuf (squeezed xof P.k bitlen seed) j) else none
  inside : ∀ i < P.k, ∀ j < bitlen * 16,
    i * (bitlen * 16) + j < 4 * (uniformBlocks P.k bitlen * 168)
  reads : ∀ bld r, ringUniformOnce bld P xof r bitlen seed =
    some (ringUniform P xof r bitlen seed)
  initial : ∀ r, ringUniform P xof r bitlen seed = sampleRing P.k bitlen
    (initialBytes (16 * bitlen * P.k) (squeezed xof P.k bitlen seed))
  bijective : Set.BijOn (sampleRing P.k bitlen) Set.univ (sampleSpace P.k bitlen)
  uniform : ∀ a ∈ sampleSpace P.k bitlen, ∀ a' ∈ sampleSpace P.k bitlen,
    Nonempty ({ s : Fin 4 → Bytes (uniformBlocks P.k bitlen * 168) //
        sampleRing P.k bitlen (initialBytes _ s) = a } ≃
      { s : Fin 4 → Bytes (uniformBlocks P.k bitlen * 168) //
        sampleRing P.k bitlen (initialBytes _ s) = a' })

/-- Sampling uses every byte of the streams at most once and is exactly uniform. -/
theorem ring_uniform_samples_uniformly (P : SecurityLevel) (xof : Xof) {bitlen : ℕ}
    (hb1 : 1 ≤ bitlen) (hb : bitlen ≤ 13) {seed : List Byte} (hs : seed.length ≤ 128) :
    SamplesUniformly P xof bitlen seed where
  fits := streams_le_buflen hb
  filled := by
    obtain ⟨buf, hbuf, hold⟩ := uniformBufferOnce_hold xof P.k hb hs
    refine ⟨buf, hbuf, fun j hj => ?_⟩
    split_ifs with hlt
    · rw [hold.written j hj hlt, bufferBytes, bytesOf_getElem _ _ hj]
    · exact hold.unwritten j hj hlt
  inside i hi j hj := unpacked_lt hi hj
  reads bld r := ringUniformOnce_eq bld P xof r hb1 hb hs
  initial r := ringUniform_eq_sampleRing P xof r hb1 (by omega) seed
  bijective := sampleRing_bijOn hb1 (by omega)
  uniform a ha a' ha' := sampleRing_fibres hb1 (by omega) (unpacked_le_streams P.k bitlen) ha ha'

/-- Secrets at the lowest level, with a seed of 64 bytes that the streams repeat. -/
theorem ring_uniform_samples_uniformly_secret :
    let xof : Xof := fun inp _ =>
      Vector.ofFn fun j => inp.getD (j % inp.length) 0 + BitVec.ofNat 8 j
    SamplesUniformly .level128 xof 2 (List.ofFn fun i : Fin 64 => BitVec.ofNat 8 i) := by
  intro xof
  exact ring_uniform_samples_uniformly .level128 xof (by norm_num) (by norm_num)
    (by rw [List.length_ofFn]; norm_num)

end Uniformity

end RrlwrKem
