import Mathlib.Tactic

/-!
# Arrays in a memory

A memory is a map from addresses to cells. An array of known length lies in it at its
address; arrays that are apart have no cell in common, and a store to one of them does
not change the other. A list of writes is stored one after the other.
-/

/-- An array of `n` cells. -/
structure Region (n : ℕ) where
  addr : ℕ
  deriving DecidableEq

namespace Region

variable {β : Type*} {m n : ℕ}

/-- No common cell. -/
def Apart (r : Region m) (r' : Region n) : Prop := r.addr + m ≤ r'.addr ∨ r'.addr + n ≤ r.addr

instance (r : Region m) (r' : Region n) : Decidable (r.Apart r') :=
  inferInstanceAs (Decidable (_ ∨ _))

theorem Apart.symm {r : Region m} {r' : Region n} (h : r.Apart r') : r'.Apart r := Or.symm h

def load (mem : ℕ → β) (r : Region n) : Vector β n := Vector.ofFn fun j => mem (r.addr + j)

def store (mem : ℕ → β) (r : Region n) (v : Vector β n) : ℕ → β := fun a =>
  if h : r.addr ≤ a ∧ a - r.addr < n then v[a - r.addr] else mem a

theorem load_getElem (mem : ℕ → β) (r : Region n) {j : ℕ} (hj : j < n) :
    (load mem r)[j] = mem (r.addr + j) := by
  simp [load]

@[simp] theorem load_store (mem : ℕ → β) (r : Region n) (v : Vector β n) :
    load (store mem r v) r = v := by
  refine Vector.ext fun j hj => ?_
  rw [load_getElem _ _ hj, store, dif_pos (by omega)]
  simp only [Nat.add_sub_cancel_left]

/-- A store does not change what is apart from it. -/
theorem load_store_of_apart (mem : ℕ → β) {r : Region m} {r' : Region n} (h : r.Apart r')
    (v : Vector β m) : load (store mem r v) r' = load mem r' := by
  refine Vector.ext fun j hj => ?_
  rw [Apart] at h
  rw [load_getElem _ _ hj, load_getElem _ _ hj, store, dif_neg (by omega)]

/-- Storing what is there changes nothing. -/
@[simp] theorem store_load (mem : ℕ → β) (r : Region n) : store mem r (load mem r) = mem := by
  funext a
  rw [store]
  split
  · rename_i h
    rw [load_getElem _ _ h.2, Nat.add_sub_cancel' h.1]
  · rfl

/-- No two of the arrays have a common cell. -/
def AllApart (rs : List (Σ n, Region n)) : Prop := rs.Pairwise fun r r' => r.2.Apart r'.2

instance (rs : List (Σ n, Region n)) : Decidable (AllApart rs) :=
  inferInstanceAs (Decidable (List.Pairwise _ _))

/-- An array and what is written to it. -/
structure Write (β : Type*) where
  {size : ℕ}
  region : Region size
  value : Vector β size

/-- The arrays of a list of writes. -/
def arrays (ws : List (Write β)) : List (Σ n, Region n) := ws.map fun w => ⟨w.size, w.region⟩

def storeAll (mem : ℕ → β) : List (Write β) → ℕ → β
  | [] => mem
  | w :: ws => storeAll (store mem w.region w.value) ws

variable {ws : List (Write β)}

/-- The writes do not change what is apart from their arrays. -/
theorem load_storeAll_of_apart (mem : ℕ → β) {r : Region n}
    (h : ∀ r' ∈ arrays ws, r'.2.Apart r) : load (storeAll mem ws) r = load mem r := by
  induction ws generalizing mem with
  | nil => rfl
  | cons w ws ih =>
    obtain ⟨hw, hws⟩ := List.forall_mem_cons.mp h
    rw [storeAll, ih _ hws, load_store_of_apart _ hw]

/-- Writes to arrays that are apart are all there in the end. -/
theorem load_storeAll (mem : ℕ → β) (h : AllApart (arrays ws)) {w : Write β} (hw : w ∈ ws) :
    load (storeAll mem ws) w.region = w.value := by
  induction ws generalizing mem with
  | nil => exact absurd hw List.not_mem_nil
  | cons w' ws ih =>
    obtain ⟨hfirst, hrest⟩ := List.pairwise_cons.mp h
    rcases List.mem_cons.mp hw with rfl | hw
    · rw [storeAll, load_storeAll_of_apart _ fun r' hr' => (hfirst r' hr').symm, load_store]
    · exact ih _ hrest hw

end Region
