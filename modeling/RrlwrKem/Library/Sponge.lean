import Mathlib.Tactic

/-!
# Sponges

A sponge adds bytes to the first positions of a state, permutes the state whenever
these are used up, and later reads bytes from the same positions. The construction is
stated on padded blocks; the rules are about single bytes, which is how buffered
implementations with a position counter see it.
-/

/-- A state whose first `rate` positions take and give bytes. -/
structure Sponge (σ : Type*) where
  rate : ℕ
  rate_pos : 0 < rate
  permute : σ → σ
  add : ℕ → BitVec 8 → σ → σ
  byte : ℕ → σ → BitVec 8
  add_zero : ∀ i s, add i 0 s = s
  add_add : ∀ i a b s, add i b (add i a s) = add i (a ^^^ b) s

namespace Sponge

variable {σ : Type*} (S : Sponge σ)

section Construction

/-- Bytes added at consecutive positions. -/
def addFrom (pos : ℕ) : List (BitVec 8) → σ → σ
  | [], s => s
  | b :: l, s => addFrom (pos + 1) l (S.add pos b s)

/-- The blocks of a padded message, one after another. -/
def absorbBlocks (n : ℕ) (l : List (BitVec 8)) (s : σ) : σ :=
  Nat.fold n (fun k _ s => S.permute (S.addFrom 0 ((l.drop (S.rate * k)).take S.rate) s)) s

/-- The bytes after a message of `n` bytes: `p` marks its end, a final bit the end of the
block. They coincide if there is room for one byte only. -/
def pad (p : BitVec 8) (n : ℕ) : List (BitVec 8) :=
  if n % S.rate + 1 = S.rate then [p ^^^ 0x80]
  else p :: (List.replicate (S.rate - n % S.rate - 2) 0 ++ [0x80])

/-- Output byte `i` of a state that was permuted last: a block for every permutation. -/
def squeezed (s : σ) (i : ℕ) : BitVec 8 := S.byte (i % S.rate) (S.permute^[i / S.rate] s)

/-- The output of the construction on a message. -/
def hash (s : σ) (p : BitVec 8) (l : List (BitVec 8)) (i : ℕ) : BitVec 8 :=
  S.squeezed (S.absorbBlocks (l.length / S.rate + 1) (l ++ S.pad p l.length) s) i

end Construction

section Absorb

/-- A byte added at a position, and the permutation at the end of the block. -/
def absorbByte (st : σ × ℕ) (b : BitVec 8) : σ × ℕ :=
  if st.2 + 1 = S.rate then (S.permute (S.add st.2 b st.1), 0) else (S.add st.2 b st.1, st.2 + 1)

/-- The state and the position after a list of bytes. -/
def absorb (st : σ × ℕ) (l : List (BitVec 8)) : σ × ℕ := l.foldl S.absorbByte st

/-- The state before its last permutation, once the end of the message is marked. -/
def finish (p : BitVec 8) (st : σ × ℕ) : σ := S.add (S.rate - 1) 0x80 (S.add st.2 p st.1)

theorem absorb_append (st : σ × ℕ) (l l' : List (BitVec 8)) :
    S.absorb st (l ++ l') = S.absorb (S.absorb st l) l' := List.foldl_append

theorem absorbByte_pos (st : σ × ℕ) (b : BitVec 8) (h : st.2 < S.rate) :
    (S.absorbByte st b).2 = (st.2 + 1) % S.rate := by
  rw [absorbByte]
  by_cases hfull : st.2 + 1 = S.rate
  · rw [if_pos hfull, hfull, Nat.mod_self]
  · rw [if_neg hfull, Nat.mod_eq_of_lt (by omega)]

theorem absorb_pos (st : σ × ℕ) (l : List (BitVec 8)) (h : st.2 < S.rate) :
    (S.absorb st l).2 = (st.2 + l.length) % S.rate := by
  induction l generalizing st with
  | nil => exact (Nat.mod_eq_of_lt h).symm
  | cons b l ih =>
    have hpos := S.absorbByte_pos st b h
    have hlt : (S.absorbByte st b).2 < S.rate := by
      rw [hpos]
      exact Nat.mod_lt _ S.rate_pos
    change (S.absorb (S.absorbByte st b) l).2 = _
    rw [ih _ hlt, hpos, Nat.mod_add_mod, List.length_cons, Nat.add_assoc, Nat.add_comm 1]

theorem absorb_pos_lt (st : σ × ℕ) (l : List (BitVec 8)) (h : st.2 < S.rate) :
    (S.absorb st l).2 < S.rate := by
  rw [S.absorb_pos st l h]
  exact Nat.mod_lt _ S.rate_pos

/-- Bytes that do not fill the block. -/
theorem absorb_short (s : σ) (pos : ℕ) (l : List (BitVec 8)) (h : pos + l.length < S.rate) :
    S.absorb (s, pos) l = (S.addFrom pos l s, pos + l.length) := by
  induction l generalizing s pos with
  | nil => rfl
  | cons b l ih =>
    have hroom : pos + 1 + l.length < S.rate := by rw [List.length_cons] at h; omega
    have hbyte : S.absorbByte (s, pos) b = (S.add pos b s, pos + 1) := if_neg (by simp only; omega)
    change S.absorb (S.absorbByte (s, pos) b) l = _
    rw [hbyte, ih _ _ hroom, List.length_cons, addFrom, Nat.add_assoc, Nat.add_comm 1]

/-- Bytes that fill the block. -/
theorem absorb_full (s : σ) (pos : ℕ) (l : List (BitVec 8)) (hpos : pos < S.rate)
    (h : pos + l.length = S.rate) :
    S.absorb (s, pos) l = (S.permute (S.addFrom pos l s), 0) := by
  induction l generalizing s pos with
  | nil =>
    rw [List.length_nil] at h
    omega
  | cons b l ih =>
    rw [List.length_cons] at h
    change S.absorb (S.absorbByte (s, pos) b) l = _
    by_cases hlast : pos + 1 = S.rate
    · have hnil : l = [] := List.length_eq_zero_iff.mp (by omega)
      subst hnil
      exact if_pos hlast
    · have hbyte : S.absorbByte (s, pos) b = (S.add pos b s, pos + 1) := if_neg hlast
      rw [hbyte, ih _ _ (by omega) (by omega)]
      rfl

/-- Whole blocks. -/
theorem absorb_blocks (n : ℕ) (l : List (BitVec 8)) (s : σ) (h : l.length = S.rate * n) :
    S.absorb (s, 0) l = (S.absorbBlocks n l s, 0) := by
  induction n generalizing l with
  | zero =>
    have hnil : l = [] := List.length_eq_zero_iff.mp (by rw [h, Nat.mul_zero])
    subst hnil
    rfl
  | succ n ih =>
    rw [Nat.mul_succ] at h
    have hinit : (l.take (S.rate * n)).length = S.rate * n := by
      rw [List.length_take]
      omega
    have hlast : (l.drop (S.rate * n)).length = S.rate := by
      rw [List.length_drop]
      omega
    -- the earlier blocks do not reach into the last one
    have hsame : S.absorbBlocks n (l.take (S.rate * n)) s = S.absorbBlocks n l s := by
      refine congrFun (congrArg (Nat.fold n)
        (funext fun k => funext fun hk => funext fun s => ?_)) s
      have hle : S.rate * k + S.rate ≤ S.rate * n := by
        rw [← Nat.mul_succ]
        exact Nat.mul_le_mul_left _ hk
      rw [List.drop_take, List.take_take, Nat.min_eq_left (by omega)]
    have hfull := S.absorb_full (S.absorbBlocks n l s) 0 (l.drop (S.rate * n)) S.rate_pos
      (by rw [hlast, Nat.zero_add])
    calc S.absorb (s, 0) l
        = S.absorb (s, 0) (l.take (S.rate * n) ++ l.drop (S.rate * n)) := by
          rw [List.take_append_drop]
      _ = S.absorb (S.absorbBlocks n l s, 0) (l.drop (S.rate * n)) := by
          rw [absorb_append, ih _ hinit, hsame]
      _ = (S.absorbBlocks (n + 1) l s, 0) := by
          rw [hfull, absorbBlocks, absorbBlocks, Nat.fold_succ, List.take_of_length_le hlast.le]

theorem addFrom_append (pos : ℕ) (s : σ) (l l' : List (BitVec 8)) :
    S.addFrom pos (l ++ l') s = S.addFrom (pos + l.length) l' (S.addFrom pos l s) := by
  induction l generalizing pos s with
  | nil => rfl
  | cons b l ih =>
    rw [List.cons_append, addFrom, ih, List.length_cons, Nat.add_right_comm, Nat.add_assoc]
    rfl

theorem addFrom_zeros (pos n : ℕ) (s : σ) (l : List (BitVec 8)) :
    S.addFrom pos (List.replicate n 0 ++ l) s = S.addFrom (pos + n) l s := by
  induction n generalizing pos s with
  | zero => rfl
  | succ n ih =>
    rw [List.replicate_succ, List.cons_append, addFrom, S.add_zero, ih, Nat.add_right_comm,
      Nat.add_assoc]

theorem length_pad (p : BitVec 8) (n : ℕ) : (S.pad p n).length = S.rate - n % S.rate := by
  have hlt := Nat.mod_lt n S.rate_pos
  rw [pad]
  by_cases h : n % S.rate + 1 = S.rate
  · rw [if_pos h, List.length_singleton]
    omega
  · rw [if_neg h, List.length_cons, List.length_append, List.length_replicate,
      List.length_singleton]
    omega

theorem addFrom_pad (p : BitVec 8) (n : ℕ) (s : σ) :
    S.addFrom (n % S.rate) (S.pad p n) s = S.finish p (s, n % S.rate) := by
  have hlt := Nat.mod_lt n S.rate_pos
  rw [pad, finish]
  by_cases h : n % S.rate + 1 = S.rate
  · have hlast : S.rate - 1 = n % S.rate := by omega
    rw [if_pos h, hlast, S.add_add]
    rfl
  · have hlast : n % S.rate + 1 + (S.rate - n % S.rate - 2) = S.rate - 1 := by omega
    rw [if_neg h, addFrom, addFrom_zeros, hlast]
    rfl

/-- The state that a buffered implementation ends with is one permutation away from the
state after the blocks of the padded message. -/
theorem permute_finish_absorb (s : σ) (p : BitVec 8) (l : List (BitVec 8)) :
    S.permute (S.finish p (S.absorb (s, 0) l)) =
      S.absorbBlocks (l.length / S.rate + 1) (l ++ S.pad p l.length) s := by
  have hlt := Nat.mod_lt l.length S.rate_pos
  have hlen : (l ++ S.pad p l.length).length = S.rate * (l.length / S.rate + 1) := by
    have hdiv := Nat.div_add_mod l.length S.rate
    rw [List.length_append, length_pad, Nat.mul_succ]
    omega
  have hpos := S.absorb_pos (s, 0) l S.rate_pos
  rw [Nat.zero_add] at hpos
  have hst : S.absorb (s, 0) l = ((S.absorb (s, 0) l).1, l.length % S.rate) := by rw [← hpos]
  have hblocks := S.absorb_blocks _ _ s hlen
  rw [absorb_append, hst, S.absorb_full _ _ _ hlt (by rw [length_pad]; omega), addFrom_pad]
    at hblocks
  rw [hst]
  exact congrArg Prod.fst hblocks

end Absorb

section Squeeze

/-- A position in the output: `k` bytes have been read since the state was `s₀`, which is to
be permuted before the first of them. -/
structure SqueezedTo (s₀ : σ) (k : ℕ) (s : σ) (pos : ℕ) : Prop where
  le : pos ≤ S.rate
  state : ∃ n, s = S.permute^[n] s₀ ∧ S.rate * n + pos = k + S.rate

namespace SqueezedTo

variable {S} {s₀ s : σ} {k pos : ℕ}

theorem start (s₀ : σ) : S.SqueezedTo s₀ 0 s₀ S.rate := ⟨le_rfl, 0, rfl, by omega⟩

/-- At the end of a block the state is permuted. -/
theorem permute (h : S.SqueezedTo s₀ k s S.rate) : S.SqueezedTo s₀ k (S.permute s) 0 := by
  obtain ⟨-, n, rfl, hk⟩ := h
  exact ⟨Nat.zero_le _, n + 1, (Function.iterate_succ_apply' ..).symm, by rw [Nat.mul_succ]; omega⟩

/-- Within a block bytes are read one after another. -/
theorem byte (h : S.SqueezedTo s₀ k s pos) (hpos : pos < S.rate) :
    S.byte pos s = S.squeezed (S.permute s₀) k ∧ S.SqueezedTo s₀ (k + 1) s (pos + 1) := by
  obtain ⟨-, n, rfl, hk⟩ := h
  refine ⟨?_, hpos, n, rfl, by omega⟩
  cases n with
  | zero =>
    rw [Nat.mul_zero] at hk
    omega
  | succ n =>
    rw [Nat.mul_succ] at hk
    have hidx : k = pos + S.rate * n := by omega
    rw [squeezed, hidx, Nat.add_mul_mod_self_left, Nat.mod_eq_of_lt hpos,
      Nat.add_mul_div_left _ _ S.rate_pos, Nat.div_eq_of_lt hpos, Nat.zero_add,
      ← Function.iterate_succ_apply]

/-- Several bytes of a block. -/
theorem bytes (h : S.SqueezedTo s₀ k s pos) (n : ℕ) (hn : pos + n ≤ S.rate) :
    (∀ i < n, S.byte (pos + i) s = S.squeezed (S.permute s₀) (k + i)) ∧
      S.SqueezedTo s₀ (k + n) s (pos + n) := by
  induction n with
  | zero => exact ⟨fun i hi => absurd hi (Nat.not_lt_zero i), h⟩
  | succ n ih =>
    obtain ⟨hread, hto⟩ := ih (by omega)
    obtain ⟨hlast, hto'⟩ := hto.byte (by omega)
    refine ⟨fun i hi => ?_, hto'⟩
    rcases Nat.lt_succ_iff_lt_or_eq.mp hi with hi | rfl
    · exact hread i hi
    · exact hlast

end SqueezedTo

end Squeeze

end Sponge
