import Mathlib.Tactic

/-!
# Checked memory

Loops whose passes may fail, arrays whose loads and stores fail out of bounds, and
write-once cells, which moreover refuse a second write and a read before the first.
The rules relate a checked run to the plain run that it succeeds with.
-/

namespace Checked

variable {α β : Type*} {n : ℕ}

/-- A counted loop whose passes may fail. -/
def loop (n : ℕ) (f : (i : ℕ) → i < n → α → Option α) (a : α) : Option α :=
  Nat.fold n (fun i hi s => s.bind (f i hi)) (some a)

section Loop

variable {f : (i : ℕ) → i < n → α → Option α} {g : (i : ℕ) → i < n → β → β} {a : α} {b : β}

/-- A checked loop simulates a plain one when each of its passes does. -/
theorem loop_simulates (R : ℕ → α → β → Prop) (h0 : R 0 a b)
    (hstep : ∀ i (hi : i < n) s t, R i s t → ∃ s', f i hi s = some s' ∧ R (i + 1) s' (g i hi t)) :
    ∃ s, loop n f a = some s ∧ R n s (Nat.fold n g b) := by
  induction n with
  | zero => exact ⟨a, rfl, h0⟩
  | succ n ih =>
    obtain ⟨s, hs, hR⟩ := ih (f := fun i hi => f i (by omega)) (g := fun i hi => g i (by omega))
      fun i hi => hstep i (by omega)
    obtain ⟨s', hs', hR'⟩ := hstep n (by omega) s _ hR
    refine ⟨s', ?_, by rwa [Nat.fold_succ]⟩
    rw [loop] at hs ⊢
    rw [Nat.fold_succ, hs]
    exact hs'

/-- A checked loop whose passes succeed and keep an invariant. -/
theorem loop_succeeds (P : ℕ → α → Prop) (h0 : P 0 a)
    (hstep : ∀ i (hi : i < n) s, P i s → ∃ s', f i hi s = some s' ∧ P (i + 1) s') :
    ∃ s, loop n f a = some s ∧ P n s :=
  loop_simulates (g := fun _ _ (u : Unit) => u) (b := ()) (fun i s _ => P i s) h0
    fun i hi s _ hP => hstep i hi s hP

/-- A checked loop whose passes succeed while an invariant holds is the plain loop. -/
theorem loop_eq_fold_of_invariant {g : (i : ℕ) → i < n → α → α} (P : ℕ → α → Prop) (h0 : P 0 a)
    (hstep : ∀ i (hi : i < n) s, P i s → f i hi s = some (g i hi s) ∧ P (i + 1) (g i hi s)) :
    loop n f a = some (Nat.fold n g a) ∧ P n (Nat.fold n g a) := by
  obtain ⟨s, hs, rfl, hP⟩ := loop_simulates (f := f) (g := g) (b := a)
    (fun i s t => s = t ∧ P i t) ⟨rfl, h0⟩ (by
      rintro i hi s t ⟨rfl, hP⟩
      obtain ⟨hf, hP'⟩ := hstep i hi s hP
      exact ⟨_, hf, rfl, hP'⟩)
  exact ⟨hs, hP⟩

theorem loop_eq_fold {g : (i : ℕ) → i < n → α → α}
    (hstep : ∀ i (hi : i < n) s, f i hi s = some (g i hi s)) :
    loop n f a = some (Nat.fold n g a) :=
  (loop_eq_fold_of_invariant (fun _ _ => True) trivial
    fun i hi s _ => ⟨hstep i hi s, trivial⟩).1

/-- A loop whose passes fail on their own account fails when one of them does. -/
theorem loop_isSome_iff (Q : ℕ → Prop) (h : ∀ i (hi : i < n) s, (f i hi s).isSome ↔ Q i) :
    (loop n f a).isSome ↔ ∀ i < n, Q i := by
  induction n with
  | zero => simp [loop]
  | succ n ih =>
    have ih' := ih (f := fun i hi => f i (by omega)) fun i hi => h i (by omega)
    have hlast : (loop (n + 1) f a).isSome ↔
        (loop n (fun i hi => f i (by omega)) a).isSome ∧ Q n := by
      rw [loop, Nat.fold_succ, ← loop]
      cases hs : loop n (fun i hi => f i (by omega)) a with
      | none => simp
      | some s => simp [h n (by omega) s]
    rw [hlast, ih', Nat.forall_lt_succ_right]

end Loop

section Arrays

/-- A load that fails out of bounds. -/
def load (v : Vector α n) (i : ℕ) : Option α := v[i]?

/-- A store that fails out of bounds. -/
def store (v : Vector α n) (i : ℕ) (x : α) : Option (Vector α n) :=
  if h : i < n then some (v.set i x h) else none

theorem load_eq {v : Vector α n} {i : ℕ} (hi : i < n) : load v i = some v[i] :=
  Vector.getElem?_eq_getElem hi

theorem store_eq {v : Vector α n} {i : ℕ} (hi : i < n) (x : α) :
    store v i x = some (v.set i x hi) := dif_pos hi

end Arrays

/-- Cells of which each may be written once. -/
abbrev Cells (α : Type*) (n : ℕ) := Vector (Option α) n

namespace Cells

/-- Cells before the first write. -/
def fresh (α : Type*) (n : ℕ) : Cells α n := Vector.replicate n none

/-- A write, which fails out of bounds and on a cell that was written. -/
def write (s : Cells α n) (i : ℕ) (x : α) : Option (Cells α n) :=
  if h : i < n then
    match s[i] with
    | none => some (s.set i (some x) h)
    | some _ => none
  else none

/-- A read, which fails out of bounds and on a cell that was not written. -/
def read (s : Cells α n) (i : ℕ) : Option α := s[i]?.join

/-- The cells in `W`, and only these, were written, with the entries of `y`. -/
structure Hold (W : ℕ → Prop) (s : Cells α n) (y : Vector α n) : Prop where
  written : ∀ j (hj : j < n), W j → s[j] = some y[j]
  unwritten : ∀ j (hj : j < n), ¬ W j → s[j] = none

variable {W : ℕ → Prop} {s : Cells α n} {y : Vector α n}

theorem hold_fresh (hW : ∀ j < n, ¬ W j) (y : Vector α n) : Hold W (fresh α n) y where
  written j hj h := absurd h (hW j hj)
  unwritten _ hj _ := Vector.getElem_replicate hj

theorem Hold.of_iff {V : ℕ → Prop} (h : Hold W s y) (hV : ∀ j < n, V j ↔ W j) : Hold V s y where
  written j hj hj' := h.written j hj ((hV j hj).mp hj')
  unwritten j hj hj' := h.unwritten j hj fun hW => hj' ((hV j hj).mpr hW)

theorem Hold.read (h : Hold W s y) {i : ℕ} (hi : i < n) (hW : W i) : s.read i = some y[i] := by
  rw [Cells.read, Vector.getElem?_eq_getElem hi, h.written i hi hW]
  rfl

/-- A first write succeeds, and its cell has been written from then on. -/
theorem Hold.write (h : Hold W s y) {i : ℕ} (hi : i < n) (hW : ¬ W i) (x : α) :
    ∃ s', s.write i x = some s' ∧ Hold (fun j => W j ∨ j = i) s' (y.set i x hi) := by
  refine ⟨s.set i (some x) hi, ?_, fun j hj hj' => ?_, fun j hj hj' => ?_⟩
  · rw [Cells.write, dif_pos hi, h.unwritten i hi hW]
  · rw [Vector.getElem_set, Vector.getElem_set]
    by_cases he : i = j
    · rw [if_pos he, if_pos he]
    · rw [if_neg he, if_neg he]
      exact h.written j hj (hj'.resolve_right (Ne.symm he))
  · have he : i ≠ j := fun hij => hj' (Or.inr hij.symm)
    rw [Vector.getElem_set_ne _ _ he]
    exact h.unwritten j hj fun hWj => hj' (Or.inl hWj)

/-- A first write of the entry that the array has there. -/
theorem Hold.write_entry (h : Hold W s y) {i : ℕ} (hi : i < n) (hW : ¬ W i) {x : α}
    (hx : x = y[i]) : ∃ s', s.write i x = some s' ∧ Hold (fun j => W j ∨ j = i) s' y := by
  obtain ⟨s', hs', h'⟩ := h.write hi hW x
  have hy : y.set i x hi = y := by
    subst hx
    exact Vector.set_getElem_self hi
  exact ⟨s', hs', hy ▸ h'⟩

/-- A loop that writes a stretch of cells, in which nothing was written before. -/
theorem Hold.write_stretch (h : Hold W s y) {p len : ℕ} (hfit : p + len ≤ n)
    (hW : ∀ j < len, ¬ W (p + j)) {x : (j : ℕ) → j < len → α}
    (hx : ∀ j (hj : j < len), x j hj = y[p + j]) :
    ∃ s', loop len (fun j hj s => Cells.write s (p + j) (x j hj)) s = some s' ∧
      Hold (fun i => W i ∨ (p ≤ i ∧ i < p + len)) s' y := by
  refine loop_succeeds (fun j s => Hold (fun i => W i ∨ (p ≤ i ∧ i < p + j)) s y)
    (h.of_iff fun i _ => or_iff_left (by omega)) fun j hj s hs => ?_
  have hfresh : ¬ (W (p + j) ∨ (p ≤ p + j ∧ p + j < p + j)) := by
    rintro (hj' | ⟨-, hlt⟩)
    · exact hW j hj hj'
    · exact lt_irrefl _ hlt
  obtain ⟨s', hs', h'⟩ := hs.write_entry (by omega) hfresh (hx j hj)
  refine ⟨s', hs', h'.of_iff fun i _ => ?_⟩
  rw [or_assoc]
  exact or_congr_right (by omega)

/-- Once every cell has been written, the cells are the array. -/
theorem Hold.eq_map (h : Hold W s y) (hW : ∀ j < n, W j) : s = y.map some := by
  refine Vector.ext fun j hj => ?_
  rw [h.written j hj (hW j hj), Vector.getElem_map]

end Cells

end Checked
