import Mathlib.Tactic

/-!
# Hash generators

The states of a deterministic generator that adds to its seed a hash of it, a constant
and a counter at every draw, over a ring of numbers, and what they are after any number
of draws.
-/

namespace HashGenerator

/-- The seed, the constant and the counter. -/
@[ext] structure State (R : Type*) where
  v : R
  c : R
  counter : R

variable {R : Type*} [CommRing R] (h : R → R)

/-- The state after a draw. -/
def next (s : State R) : State R where
  v := s.v + h s.v + s.c + s.counter
  c := s.c
  counter := s.counter + 1

theorem iterate_succ (n : ℕ) (s : State R) : (next h)^[n + 1] s = next h ((next h)^[n] s) :=
  Function.iterate_succ_apply' _ n s

theorem iterate_c (n : ℕ) (s : State R) : ((next h)^[n] s).c = s.c := by
  induction n with
  | zero => rfl
  | succ n ih =>
    rw [iterate_succ]
    exact ih

theorem iterate_counter (n : ℕ) (s : State R) : ((next h)^[n] s).counter = s.counter + n := by
  induction n with
  | zero => simp
  | succ n ih =>
    rw [iterate_succ, next, ih]
    push_cast
    ring

/-- The seed is the first one with all hashes, constants and counters added. -/
theorem iterate_v (n : ℕ) (s : State R) : ((next h)^[n] s).v =
    s.v + (∑ i ∈ Finset.range n, h ((next h)^[i] s).v) + n * s.c + n * s.counter +
      (n.choose 2 : ℕ) := by
  induction n with
  | zero => simp
  | succ n ih =>
    have hchoose : (n + 1).choose 2 = n + n.choose 2 := by
      rw [Nat.choose_succ_succ' n 1, Nat.choose_one_right]
    rw [iterate_succ, next, iterate_c, iterate_counter, Finset.sum_range_succ, hchoose]
    conv_lhs => rw [ih]
    rw [ih]
    push_cast
    ring

/-- The counter tells any two draws apart as long as it does not wrap around. -/
theorem iterate_injective {N : ℕ} [CharP R N] (s : State R) {m n : ℕ} (hm : m < N) (hn : n < N)
    (heq : (next h)^[m] s = (next h)^[n] s) : m = n := by
  have hcounter := congrArg State.counter heq
  rw [iterate_counter, iterate_counter] at hcounter
  have hcast : (m : R) = n := add_left_cancel hcounter
  rw [CharP.cast_eq_iff_mod_eq R N, Nat.mod_eq_of_lt hm, Nat.mod_eq_of_lt hn] at hcast
  exact hcast

end HashGenerator
