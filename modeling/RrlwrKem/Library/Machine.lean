import Mathlib.Tactic

/-!
# Machines with outputs

Runs of a function that takes a state and an input to an output and the next state, and
the case in which the inputs influence the states only by how far they move them.
-/

namespace Machine

variable {σ ι β : Type*} (step : σ → ι → β × σ)

/-- The outputs, one for each input, and the last state. -/
def run : σ → List ι → List β × σ
  | s, [] => ([], s)
  | s, x :: xs => ((step s x).1 :: (run (step s x).2 xs).1, (run (step s x).2 xs).2)

@[simp] theorem run_nil (s : σ) : run step s [] = ([], s) := rfl

@[simp] theorem run_cons (s : σ) (x : ι) (xs : List ι) : run step s (x :: xs) =
    ((step s x).1 :: (run step (step s x).2 xs).1, (run step (step s x).2 xs).2) := rfl

variable {step}

@[simp] theorem length_run (s : σ) (xs : List ι) : (run step s xs).1.length = xs.length := by
  induction xs generalizing s with
  | nil => rfl
  | cons x xs ih => rw [run_cons, List.length_cons, List.length_cons, ih]

/-- Inputs that leave the state alone may be left out: the others have the same outputs. -/
theorem run_filter {p : ι → Bool} (hp : ∀ s x, p x = false → (step s x).2 = s) (s : σ)
    (xs : List ι) : run step s (xs.filter p) =
      (((xs.zip (run step s xs).1).filter fun c => p c.1).map Prod.snd, (run step s xs).2) := by
  induction xs generalizing s with
  | nil => rfl
  | cons x xs ih =>
    cases h : p x with
    | true =>
      rw [List.filter_cons_of_pos h, run_cons, ih, run_cons, List.zip_cons_cons,
        List.filter_cons_of_pos (by exact h), List.map_cons]
    | false =>
      have hskip : ¬ p x = true := by rw [h]; exact Bool.false_ne_true
      rw [List.filter_cons_of_neg hskip, ih, run_cons, List.zip_cons_cons,
        List.filter_cons_of_neg (by exact hskip), hp s x h]

/-- The state before input `k`. -/
def stateAt (step : σ → ι → β × σ) (s : σ) (xs : List ι) (k : ℕ) : σ := (run step s (xs.take k)).2

theorem run_append (s : σ) (xs ys : List ι) : run step s (xs ++ ys) =
    ((run step s xs).1 ++ (run step (run step s xs).2 ys).1,
      (run step (run step s xs).2 ys).2) := by
  induction xs generalizing s with
  | nil => rfl
  | cons x xs ih => rw [List.cons_append, run_cons, ih, run_cons, List.cons_append]

/-- An output is the one of its input in the state before it. -/
theorem run_output (s : σ) {xs : List ι} {k : ℕ} {x : ι} (hk : xs[k]? = some x) :
    (run step s xs).1[k]? = some (step (stateAt step s xs k) x).1 := by
  induction xs generalizing s k with
  | nil => exact absurd hk (by simp)
  | cons y ys ih =>
    cases k with
    | zero =>
      obtain rfl : y = x := Option.some.inj hk
      rfl
    | succ k => exact ih (step s y).2 hk

theorem stateAt_succ (s : σ) {xs : List ι} {k : ℕ} {x : ι} (hk : xs[k]? = some x) :
    stateAt step s xs (k + 1) = (step (stateAt step s xs k) x).2 := by
  obtain ⟨hlt, rfl⟩ := List.getElem?_eq_some_iff.mp hk
  rw [stateAt, List.take_succ_eq_append_getElem hlt, run_append]
  rfl

section Observations

variable {γ : Type*} (obs : σ → γ)

/-- What every step between two times leaves alone is the same at both. -/
theorem obs_stateAt_eq (s : σ) {xs : List ι} {i j : ℕ} (hij : i ≤ j)
    (hkeep : ∀ k x, i ≤ k → k < j → xs[k]? = some x → ∀ t, obs (step t x).2 = obs t) :
    obs (stateAt step s xs j) = obs (stateAt step s xs i) := by
  induction j, hij using Nat.le_induction with
  | base => rfl
  | succ j hij ih =>
    have hbefore := ih fun k x hi hk => hkeep k x hi (Nat.lt_succ_of_lt hk)
    cases hx : xs[j]? with
    | none =>
      have hlen : xs.length ≤ j := List.getElem?_eq_none_iff.mp hx
      have hsame : xs.take (j + 1) = xs.take j := by
        rw [List.take_of_length_le (Nat.le_succ_of_le hlen), List.take_of_length_le hlen]
      rw [stateAt, hsame]
      exact hbefore
    | some x => rw [stateAt_succ s hx, hkeep j x hij (Nat.lt_succ_self j) hx, hbefore]

end Observations

section Paced

variable {γ : Type*} (obs : σ → γ) {f : γ → γ} {cost : ι → ℕ}

/-- When an input decides only how often a function is applied to what is observed, the
observation after a run depends on the sum of these numbers. -/
theorem obs_run_of_paced (hf : ∀ s x, obs (step s x).2 = f^[cost x] (obs s)) (s : σ)
    (xs : List ι) : obs (run step s xs).2 = f^[(xs.map cost).sum] (obs s) := by
  induction xs generalizing s with
  | nil => rfl
  | cons x xs ih =>
    rw [run_cons, ih, hf, List.map_cons, List.sum_cons, Nat.add_comm, Function.iterate_add_apply]

variable {f : σ → σ}

theorem run_state_of_paced (hf : ∀ s x, (step s x).2 = f^[cost x] s) (s : σ) (xs : List ι) :
    (run step s xs).2 = f^[(xs.map cost).sum] s :=
  obs_run_of_paced id hf s xs

/-- Then an output depends on its own input and on the sum of the numbers before it. -/
theorem run_getElem_of_paced (hf : ∀ s x, (step s x).2 = f^[cost x] s) (s : σ) (xs : List ι)
    {k : ℕ} (hk : k < xs.length) :
    (run step s xs).1[k]? = some (step (f^[((xs.take k).map cost).sum] s) xs[k]).1 := by
  rw [run_output s (List.getElem?_eq_getElem hk), stateAt, run_state_of_paced hf]

theorem sum_map_one (xs : List ι) : (xs.map fun _ => 1).sum = xs.length := by
  rw [List.map_const', List.sum_replicate, smul_eq_mul, Nat.mul_one]

/-- When every step applies the function once, the states are its iterates. -/
theorem run_state_of_autonomous (hf : ∀ s x, (step s x).2 = f s) (s : σ) (xs : List ι) :
    (run step s xs).2 = f^[xs.length] s := by
  have hcost : ∀ s x, (step s x).2 = f^[(fun _ : ι => 1) x] s := hf
  rw [run_state_of_paced hcost, sum_map_one]

theorem run_getElem_of_autonomous (hf : ∀ s x, (step s x).2 = f s) (s : σ) (xs : List ι) {k : ℕ}
    (hk : k < xs.length) : (run step s xs).1[k]? = some (step (f^[k] s) xs[k]).1 := by
  have hcost : ∀ s x, (step s x).2 = f^[(fun _ : ι => 1) x] s := hf
  rw [run_getElem_of_paced hcost s xs hk, sum_map_one, List.length_take, Nat.min_eq_left hk.le]

end Paced

end Machine
