import RrlwrKem.Library.ArrayPolynomial
import RrlwrKem.Parameters

/-!
# Memory

Byte buffers as the packing functions see them through a pointer. A function that
fills a buffer is a map on memory, and `Written lo hi W b b'` says what it did:
the bytes from `lo` up to `hi` are those of `W`, the others are left alone.
-/

namespace RrlwrKem

/-- A byte array of known length. -/
abbrev Bytes (n : ℕ) := Vector Byte n

/-- Memory as it is seen from an `unsigned char *`. -/
abbrev Buf := ℕ → Byte

/-- The assignment `b[n] = x`. -/
def Buf.set (b : Buf) (n : ℕ) (x : Byte) : Buf := Function.update b n x

/-- `memcpy(b, v, n)`. -/
def Buf.copy {n : ℕ} (b : Buf) (v : Bytes n) : Buf := fun j => if h : j < n then v[j] else b j

/-- The pointer `b + n`. -/
def Buf.offset (b : Buf) (n : ℕ) : Buf := fun j => b (n + j)

/-- The memory after a call `f (b + n)` that writes through its argument. -/
def Buf.writeAt (b : Buf) (n : ℕ) (f : Buf → Buf) : Buf := fun j =>
  if j < n then b j else f (b.offset n) (j - n)

/-- An array passed as a pointer. -/
def bufOf {n : ℕ} (v : Bytes n) : Buf := fun j => if h : j < n then v[j] else 0

/-- The first `n` bytes behind a pointer. -/
def bytesOf (n : ℕ) (b : Buf) : Bytes n := Vector.ofFn fun j => b j

@[simp] theorem bytesOf_getElem (n : ℕ) (b : Buf) {j : ℕ} (hj : j < n) :
    (bytesOf n b)[j] = b j := by
  simp [bytesOf]

theorem bufOf_apply {n : ℕ} (v : Bytes n) {j : ℕ} (hj : j < n) : bufOf v j = v[j] := by
  simp [bufOf, hj]

@[simp] theorem bytesOf_bufOf {n : ℕ} (v : Bytes n) : bytesOf n (bufOf v) = v := by
  ext j hj
  rw [bytesOf_getElem, bufOf_apply v hj]

theorem bufOf_bytesOf {n : ℕ} (b : Buf) {j : ℕ} (hj : j < n) : bufOf (bytesOf n b) j = b j := by
  rw [bufOf_apply _ hj, bytesOf_getElem]

/-- Consecutive pieces of memory as one list. -/
theorem bytesOf_add_toList (m n : ℕ) (b : Buf) :
    (bytesOf (m + n) b).toList = (bytesOf m b).toList ++ (bytesOf n (b.offset m)).toList := by
  simp only [bytesOf, Vector.toList_ofFn, List.ofFn_add]
  rfl

@[simp] theorem bytesOf_copy {n : ℕ} (b : Buf) (v : Bytes n) : bytesOf n (b.copy v) = v := by
  refine Vector.ext fun j hj => ?_
  rw [bytesOf_getElem _ _ hj, Buf.copy, dif_pos hj]

theorem Buf.offset_copy {n : ℕ} (b : Buf) (v : Bytes n) : (b.copy v).offset n = b.offset n := by
  funext j
  rw [Buf.offset, Buf.copy, dif_neg (by omega), Buf.offset]

/-- What is behind `b + n` after a call that was given `b + n`. -/
theorem Buf.offset_writeAt (b : Buf) (n : ℕ) (f : Buf → Buf) :
    (b.writeAt n f).offset n = f (b.offset n) := by
  funext j
  rw [Buf.offset, Buf.writeAt, if_neg (by omega), Nat.add_sub_cancel_left]

theorem Buf.writeAt_below (b : Buf) (f : Buf → Buf) {n j : ℕ} (hj : j < n) :
    b.writeAt n f j = b j := if_pos hj

/-- A write leaves the bytes below it alone. -/
theorem bytesOf_offset_writeAt {m n q : ℕ} (b : Buf) (f : Buf → Buf) (h : m + n ≤ q) :
    bytesOf n ((b.writeAt q f).offset m) = bytesOf n (b.offset m) := by
  refine Vector.ext fun j hj => ?_
  rw [bytesOf_getElem _ _ hj, bytesOf_getElem _ _ hj, Buf.offset,
    Buf.writeAt_below _ _ (by omega), Buf.offset]

theorem bytesOf_writeAt {n q : ℕ} (b : Buf) (f : Buf → Buf) (h : n ≤ q) :
    bytesOf n (b.writeAt q f) = bytesOf n b := by
  refine Vector.ext fun j hj => ?_
  rw [bytesOf_getElem _ _ hj, bytesOf_getElem _ _ hj, Buf.writeAt_below _ _ (by omega)]

theorem bytesOf_congr {n : ℕ} {b b' : Buf} (h : ∀ j < n, b j = b' j) :
    bytesOf n b = bytesOf n b' := by
  ext j hj
  rw [bytesOf_getElem, bytesOf_getElem, h j hj]

/-- What leaves all but the first `n` bytes alone copies these. -/
theorem Buf.eq_copy {n : ℕ} {b b' : Buf} (h : ∀ j, n ≤ j → b' j = b j) :
    b' = b.copy (bytesOf n b') := by
  funext j
  rw [Buf.copy]
  by_cases hj : j < n
  · rw [dif_pos hj, bytesOf_getElem _ _ hj]
  · rw [dif_neg hj, h j (by omega)]

theorem Buf.writeAt_copy_above {n : ℕ} (b : Buf) (q : ℕ) (v : Bytes n) {j : ℕ} (hj : q + n ≤ j) :
    b.writeAt q (fun p => p.copy v) j = b j := by
  rw [Buf.writeAt, if_neg (by omega), Buf.copy, dif_neg (by omega), Buf.offset,
    Nat.add_sub_cancel' (by omega)]

/-- `b'` is `b` with the bytes from `lo` up to `hi` replaced by those of `W`. -/
def Written (lo hi : ℕ) (W : ℕ → Byte) (b b' : Buf) : Prop :=
  ∀ j, b' j = if lo ≤ j ∧ j < hi then W j else b j

theorem copy_written {n : ℕ} (b : Buf) (v : Bytes n) : Written 0 n (bufOf v) b (b.copy v) := by
  intro j
  rw [Buf.copy]
  by_cases hj : j < n
  · rw [dif_pos hj, if_pos ⟨Nat.zero_le _, hj⟩, bufOf_apply v hj]
  · rw [dif_neg hj, if_neg (by omega)]

namespace Written

variable {lo hi : ℕ} {W : ℕ → Byte} {b b' : Buf}

theorem refl (n : ℕ) (W : ℕ → Byte) (b : Buf) : Written n n W b b := by
  intro j
  rw [if_neg (by omega)]

theorem inside (h : Written lo hi W b b') {j : ℕ} (h1 : lo ≤ j) (h2 : j < hi) : b' j = W j := by
  rw [h j, if_pos ⟨h1, h2⟩]

theorem above (h : Written lo hi W b b') {j : ℕ} (hj : hi ≤ j) : b' j = b j := by
  rw [h j, if_neg (by omega)]

theorem of_eq {hi' : ℕ} (h : Written lo hi W b b') (he : hi = hi') : Written lo hi' W b b' :=
  he ▸ h

theorem congr {V : ℕ → Byte} (h : Written lo hi W b b') (hV : ∀ j, lo ≤ j → j < hi → W j = V j) :
    Written lo hi V b b' := by
  intro j
  rw [h j]
  by_cases hj : lo ≤ j ∧ j < hi
  · rw [if_pos hj, if_pos hj, hV j hj.1 hj.2]
  · rw [if_neg hj, if_neg hj]

/-- Two writes, the second one where the first one ends. -/
theorem append {mid : ℕ} {b'' : Buf} (h : Written lo mid W b b') (h' : Written mid hi W b' b'')
    (hlo : lo ≤ mid) (hhi : mid ≤ hi) : Written lo hi W b b'' := by
  intro j
  rw [h' j, h j]
  by_cases hj : j < mid
  · rw [if_neg (by omega)]
    by_cases hj' : lo ≤ j
    · rw [if_pos ⟨hj', hj⟩, if_pos ⟨hj', by omega⟩]
    · rw [if_neg (by omega), if_neg (by omega)]
  · rw [if_neg (by omega : ¬(lo ≤ j ∧ j < mid))]
    by_cases hj' : j < hi
    · rw [if_pos ⟨by omega, hj'⟩, if_pos ⟨by omega, hj'⟩]
    · rw [if_neg (by omega), if_neg (by omega)]

/-- One more byte at the upper end. -/
theorem set (h : Written lo hi W b b') (hle : lo ≤ hi) {x : Byte} (hx : x = W hi) :
    Written lo (hi + 1) W b (b'.set hi x) := by
  intro j
  rw [Buf.set, Function.update_apply]
  by_cases hj : j = hi
  · rw [if_pos hj, if_pos (by omega), hx, hj]
  · rw [if_neg hj, h j]
    by_cases hlt : lo ≤ j ∧ j < hi
    · rw [if_pos hlt, if_pos (by omega)]
    · rw [if_neg hlt, if_neg (by omega)]

/-- One more block at the upper end. -/
theorem writeAt_above {n : ℕ} {V : ℕ → Byte} {f : Buf → Buf} (h : Written lo hi W b b')
    (hle : lo ≤ hi) (hf : Written 0 n V (b'.offset hi) (f (b'.offset hi)))
    (hV : ∀ j < n, V j = W (hi + j)) : Written lo (hi + n) W b (b'.writeAt hi f) := by
  intro j
  rw [Buf.writeAt]
  by_cases hj : j < hi
  · rw [if_pos hj, h j]
    by_cases hlo : lo ≤ j
    · rw [if_pos ⟨hlo, hj⟩, if_pos ⟨hlo, by omega⟩]
    · rw [if_neg (by omega), if_neg (by omega)]
  · have he : hi + (j - hi) = j := by omega
    rw [if_neg hj, hf (j - hi)]
    by_cases hn : j - hi < n
    · rw [if_pos ⟨by omega, hn⟩, hV _ hn, he, if_pos (by omega)]
    · rw [if_neg (by omega), Buf.offset, he, h j, if_neg (by omega), if_neg (by omega)]

/-- One more block at the lower end. -/
theorem writeAt_below {p n : ℕ} {V : ℕ → Byte} {f : Buf → Buf} (h : Written lo hi W b b')
    (hp : p + n = lo) (hle : lo ≤ hi) (hf : Written 0 n V (b'.offset p) (f (b'.offset p)))
    (hV : ∀ j < n, V j = W (p + j)) : Written p hi W b (b'.writeAt p f) := by
  intro j
  rw [Buf.writeAt]
  by_cases hj : j < p
  · rw [if_pos hj, h j, if_neg (by omega), if_neg (by omega)]
  · have he : p + (j - p) = j := by omega
    rw [if_neg hj, hf (j - p)]
    by_cases hn : j - p < n
    · rw [if_pos ⟨by omega, hn⟩, hV _ hn, he, if_pos (by omega)]
    · rw [if_neg (by omega), Buf.offset, he, h j]
      by_cases hhi : j < hi
      · rw [if_pos ⟨by omega, hhi⟩, if_pos ⟨by omega, hhi⟩]
      · rw [if_neg (by omega), if_neg (by omega)]

/-- The result is determined by what was written. -/
theorem eq {b₁ b₂ : Buf} (h₁ : Written lo hi W b b₁) (h₂ : Written lo hi W b b₂) : b₁ = b₂ := by
  funext j
  rw [h₁ j, h₂ j]

/-- A buffer filled from the start. -/
theorem eq_copy {n : ℕ} (h : Written 0 n W b b') : b' = b.copy (bytesOf n W) := by
  funext j
  rw [h j, Buf.copy]
  by_cases hj : j < n
  · rw [if_pos ⟨Nat.zero_le j, hj⟩, dif_pos hj, bytesOf_getElem _ _ hj]
  · rw [if_neg (by omega), dif_neg hj]

/-- Consecutive blocks of length `len` as one stream of bytes. -/
def blocks {n : ℕ} (len : ℕ) (V : Fin n → ℕ → Byte) (j : ℕ) : Byte :=
  if h : j / len < n then V ⟨j / len, h⟩ (j % len) else 0

theorem blocks_apply {n len : ℕ} (V : Fin n → ℕ → Byte) (i : Fin n) {j : ℕ} (hj : j < len) :
    blocks len V (i * len + j) = V i j := by
  have hlen : 0 < len := by omega
  have hdiv : (i.val * len + j) / len = i := by
    rw [Nat.mul_comm, Nat.mul_add_div hlen, Nat.div_eq_of_lt hj, Nat.add_zero]
  have hmod : (i.val * len + j) % len = j := by
    rw [Nat.mul_comm, Nat.mul_add_mod, Nat.mod_eq_of_lt hj]
  rw [blocks, dif_pos (by rw [hdiv]; exact i.isLt)]
  simp only [hdiv, hmod]

/-- A block ends where the next one starts. -/
theorem block_le {n : ℕ} (i : Fin n) (len : ℕ) : i.val * len + len ≤ n * len := by
  rw [← Nat.succ_mul]
  exact Nat.mul_le_mul_right len i.isLt

variable {n len : ℕ} {V : Fin n → ℕ → Byte} {f : (i : ℕ) → i < n → Buf → Buf}

/-- A loop that fills consecutive blocks, upwards. -/
theorem fold_blocks (hf : ∀ i hi b, Written 0 len (V ⟨i, hi⟩) b (f i hi b)) (b : Buf) :
    Written 0 (n * len) (blocks len V) b
      (Nat.fold n (fun i hi b => b.writeAt (i * len) (f i hi)) b) := by
  refine ArrayPolynomial.fold_invariant (fun i b' =>
    Written 0 (i * len) (blocks len V) b b') ?_ ?_
  · rw [Nat.zero_mul]
    exact refl _ _ _
  · intro i hi b' h
    refine (h.writeAt_above (Nat.zero_le _) (hf i hi _) fun j hj => ?_).of_eq
      (Nat.succ_mul i len).symm
    exact (blocks_apply V ⟨i, hi⟩ hj).symm

/-- A loop that fills consecutive blocks, downwards. -/
theorem foldRev_blocks (hf : ∀ i hi b, Written 0 len (V ⟨i, hi⟩) b (f i hi b)) (b : Buf) :
    Written 0 (n * len) (blocks len V) b
      (Nat.foldRev n (fun i hi b => b.writeAt (i * len) (f i hi)) b) := by
  have h := ArrayPolynomial.foldRev_invariant (n := n)
    (f := fun i hi b => b.writeAt (i * len) (f i hi)) (a := b) (fun i b' =>
      Written (i * len) (n * len) (blocks len V) b b') (refl _ _ _) (by
      intro i hi b' h
      refine h.writeAt_below (Nat.succ_mul i len).symm (Nat.mul_le_mul_right len hi)
        (hf i hi _) fun j hj => ?_
      exact (blocks_apply V ⟨i, hi⟩ hj).symm)
  rwa [Nat.zero_mul] at h

/-- The bytes of one block. -/
theorem block (h : Written 0 (n * len) (blocks len V) b b') (i : Fin n) {j : ℕ} (hj : j < len) :
    b' (i * len + j) = V i j := by
  have hle := block_le i len
  rw [h.inside (Nat.zero_le _) (by omega), blocks_apply V i hj]

/-- A loop that stores a byte at each place. -/
theorem fold_set {n : ℕ} {x : (i : ℕ) → i < n → Byte} {W : ℕ → Byte} (hx : ∀ i hi, x i hi = W i)
    (b : Buf) : Written 0 n W b (Nat.fold n (fun i hi b => b.set i (x i hi)) b) :=
  ArrayPolynomial.fold_invariant (fun i b' => Written 0 i W b b') (refl _ _ _)
    fun i hi _ h => h.set (Nat.zero_le _) (hx i hi)

/-- Such a loop is a copy. -/
theorem fold_set_eq_copy (n : ℕ) (g : ℕ → Byte) (b : Buf) :
    Nat.fold n (fun i _ b => b.set i (g i)) b = b.copy (bytesOf n g) :=
  (fold_set (W := g) (fun _ _ => rfl) b).eq_copy

end Written

end RrlwrKem
