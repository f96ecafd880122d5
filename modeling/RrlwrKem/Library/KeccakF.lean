import Mathlib.Tactic

/-!
# The permutation Keccak-f

The five step mappings of a round on a state of five by five lanes, the rounds with
their constants, and the fact that they permute the states. The difficult step is θ:
on the column parities it is the sum of the identity and two commuting rotations, so
that over two elements its powers of two are as simple as itself.
-/

namespace KeccakF

/-- The lanes, by column and row. -/
abbrev State (w : ℕ) := Fin 5 → Fin 5 → BitVec w

variable {w l : ℕ}

/-- The coordinates are counted modulo five. -/
local instance neZero_five : NeZero 5 := ⟨by decide⟩

section Definitions

/-- The sum of a column. -/
def parity (A : State w) (x : Fin 5) : BitVec w := A x 0 ^^^ A x 1 ^^^ A x 2 ^^^ A x 3 ^^^ A x 4

/-- What θ adds to the lanes of a column. -/
def thetaEffect (C : Fin 5 → BitVec w) (x : Fin 5) : BitVec w :=
  C (x - 1) ^^^ (C (x + 1)).rotateLeft 1

def theta (A : State w) : State w := fun x y => A x y ^^^ thetaEffect (parity A) x

/-- The lanes off the origin in the order in which ρ counts them. -/
def rhoWalk : ℕ → Fin 5 × Fin 5
  | 0 => (1, 0)
  | t + 1 => ((rhoWalk t).2, 2 * (rhoWalk t).1 + 3 * (rhoWalk t).2)

/-- The offset of a lane: the triangular number of its place in the walk. -/
def rhoOffset (x y : Fin 5) : ℕ :=
  ((List.range 24).find? fun t => rhoWalk t = (x, y)).elim 0 fun t => (t + 1) * (t + 2) / 2

def rho (A : State w) : State w := fun x y => (A x y).rotateLeft (rhoOffset x y)

def pi (A : State w) : State w := fun x y => A (x + 3 * y) x

def chi (A : State w) : State w := fun x y => A x y ^^^ (~~~A (x + 1) y &&& A (x + 2) y)

def iota (rc : BitVec w) (A : State w) : State w := fun x y =>
  if x = 0 ∧ y = 0 then A x y ^^^ rc else A x y

def round (rc : BitVec w) (A : State w) : State w := iota rc (chi (pi (rho (theta A))))

/-- One step of the register that generates the round constants. -/
def lfsr (R : BitVec 8) : BitVec 8 := (R <<< 1) ^^^ if R.msb then 0x71 else 0

/-- The constant of round `i`: its bits `2^j - 1` come from the register. -/
def roundConstant (w l i : ℕ) : BitVec w :=
  (List.range (l + 1)).foldl (fun r j =>
    r ||| if (lfsr^[j + 7 * i] 1).getLsbD 0 then BitVec.twoPow w (2 ^ j - 1) else 0) 0

/-- The first `n` rounds. -/
def rounds (l n : ℕ) (A : State w) : State w :=
  Nat.fold n (fun i _ => round (roundConstant w l i)) A

theorem rounds_succ (l n : ℕ) (A : State w) :
    rounds l (n + 1) A = round (roundConstant w l n) (rounds l n A) := Nat.fold_succ ..

/-- Keccak-f on lanes of `w = 2 ^ l` bits. -/
def keccakF (l : ℕ) (A : State w) : State w := rounds l (12 + 2 * l) A

end Definitions

section Rotation

theorem getLsbD_rotateLeft (x : BitVec w) (n : ℕ) {i : ℕ} (hi : i < w) :
    (x.rotateLeft n).getLsbD i = x.getLsbD ((i + (w - n % w)) % w) := by
  have hn : n % w < w := Nat.mod_lt n (by omega)
  rw [BitVec.getLsbD_rotateLeft, Bool.cond_decide]
  by_cases h : i < n % w
  · have hlt : i + (w - n % w) < w := by omega
    rw [if_pos h, Nat.mod_eq_of_lt hlt, Nat.add_comm]
  · have hwrap : i + (w - n % w) = i - n % w + w := by omega
    have hlt : i - n % w < w := by omega
    rw [if_neg h, hwrap, Nat.add_mod_right, Nat.mod_eq_of_lt hlt, decide_eq_true hi, Bool.true_and]

theorem rotateLeft_xor (x y : BitVec w) (n : ℕ) :
    (x ^^^ y).rotateLeft n = x.rotateLeft n ^^^ y.rotateLeft n := by
  refine BitVec.eq_of_getLsbD_eq fun i hi => ?_
  simp only [BitVec.getLsbD_xor, getLsbD_rotateLeft _ _ hi]

theorem rotateLeft_rotateLeft (x : BitVec w) (m n : ℕ) :
    (x.rotateLeft m).rotateLeft n = x.rotateLeft (m + n) := by
  refine BitVec.eq_of_getLsbD_eq fun i hi => ?_
  have hm : m % w < w := Nat.mod_lt m (by omega)
  have hn : n % w < w := Nat.mod_lt n (by omega)
  have hidx : ((i + (w - n % w)) % w + (w - m % w)) % w = (i + (w - (m + n) % w)) % w := by
    rw [Nat.mod_add_mod]
    have hsum : (m + n) % w = (m % w + n % w) % w := by rw [Nat.add_mod]
    rcases lt_or_ge (m % w + n % w) w with h | h
    · rw [hsum, Nat.mod_eq_of_lt h, ← Nat.add_mod_right (i + _)]
      congr 1
      omega
    · rw [hsum, Nat.mod_eq_sub_mod h, Nat.mod_eq_of_lt (a := m % w + n % w - w) (by omega)]
      congr 1
      omega
  rw [getLsbD_rotateLeft _ _ hi, getLsbD_rotateLeft _ _ (Nat.mod_lt _ (by omega)), hidx,
    getLsbD_rotateLeft _ _ hi]

theorem rotateLeft_mul_self (x : BitVec w) (n : ℕ) : x.rotateLeft (w * n) = x := by
  refine BitVec.eq_of_getLsbD_eq fun i hi => ?_
  rw [getLsbD_rotateLeft _ _ hi, Nat.mul_mod_right, Nat.sub_zero, Nat.add_mod_right,
    Nat.mod_eq_of_lt hi]

theorem rotateLeft_injective (n : ℕ) :
    Function.Injective fun x : BitVec w => x.rotateLeft n := by
  refine Function.LeftInverse.injective (g := fun x => x.rotateLeft ((w - 1) * n)) fun x => ?_
  rcases Nat.eq_zero_or_pos w with rfl | hw
  · exact BitVec.eq_of_zero_length rfl
  · have hturns : n + (w - 1) * n = w * n := by
      obtain ⟨v, rfl⟩ := Nat.exists_eq_add_of_lt hw
      simp only [Nat.zero_add, Nat.add_sub_cancel]
      ring
    change (x.rotateLeft n).rotateLeft ((w - 1) * n) = x
    rw [rotateLeft_rotateLeft, hturns, rotateLeft_mul_self]

end Rotation

section Theta

/-- The identity plus two opposite shifts, one of them with a rotation. -/
def spread (s : Fin 5) (n : ℕ) (C : Fin 5 → BitVec w) (x : Fin 5) : BitVec w :=
  C x ^^^ (C (x - s) ^^^ (C (x + s)).rotateLeft n)

/-- Squaring a sum squares its terms: the mixed terms appear twice. -/
theorem spread_spread (s : Fin 5) (n : ℕ) (C : Fin 5 → BitVec w) :
    spread s n (spread s n C) = spread (s + s) (n + n) C := by
  funext x
  have hdown : x - s - s = x - (s + s) := sub_sub x s s
  have hup : x + s + s = x + (s + s) := add_assoc x s s
  have hback : x + s - s = x := add_sub_cancel_right x s
  have hforth : x - s + s = x := sub_add_cancel x s
  simp only [spread, rotateLeft_xor, rotateLeft_rotateLeft, hdown, hup, hback, hforth]
  refine BitVec.eq_of_getLsbD_eq fun i hi => ?_
  simp only [BitVec.getLsbD_xor]
  generalize (C (x - s)).getLsbD i = a
  generalize ((C (x + s)).rotateLeft n).getLsbD i = b
  generalize ((C x).rotateLeft n).getLsbD i = c
  cases a <;> cases b <;> cases c <;> simp

theorem spread_iterate (k : ℕ) : ∃ s : Fin 5,
    (spread 1 1)^[2 ^ k] = (spread s (2 ^ k) : (Fin 5 → BitVec w) → Fin 5 → BitVec w) := by
  induction k with
  | zero => exact ⟨1, rfl⟩
  | succ k ih =>
    obtain ⟨s, hs⟩ := ih
    refine ⟨s + s, funext fun C => ?_⟩
    rw [pow_succ, Nat.mul_two, Function.iterate_add_apply, hs, spread_spread]

/-- Without the rotation, the shifts by `2s` undo those by `s`. -/
theorem spread_leftInverse (s : Fin 5) :
    Function.LeftInverse (spread (s + s) w) (spread s w : (Fin 5 → BitVec w) → _) := by
  intro C
  have hturn : ∀ y : BitVec w, y.rotateLeft w = y := fun y => by
    simpa using rotateLeft_mul_self y 1
  have hfive : ∀ x s : Fin 5, x - (s + s) - s = x + (s + s) ∧ x + (s + s) + s = x - (s + s) ∧
      x - (s + s) + s = x - s ∧ x + (s + s) - s = x + s := by decide
  funext x
  obtain ⟨h1, h2, h3, h4⟩ := hfive x s
  simp only [spread, hturn, h1, h2, h3, h4]
  refine BitVec.eq_of_getLsbD_eq fun i hi => ?_
  simp only [BitVec.getLsbD_xor]
  generalize (C (x - s)).getLsbD i = a
  generalize (C (x + s)).getLsbD i = b
  generalize (C (x - (s + s))).getLsbD i = c
  generalize (C (x + (s + s))).getLsbD i = d
  cases a <;> cases b <;> cases c <;> cases d <;> simp

theorem spread_injective (hw : w = 2 ^ l) :
    Function.Injective (spread 1 1 : (Fin 5 → BitVec w) → Fin 5 → BitVec w) := by
  obtain ⟨s, hs⟩ := spread_iterate (w := w) l
  have hiter : Function.Injective ((spread 1 1)^[2 ^ l] : (Fin 5 → BitVec w) → _) := by
    rw [hs, ← hw]
    exact (spread_leftInverse s).injective
  obtain ⟨m, hm⟩ := Nat.exists_eq_add_of_lt (Nat.two_pow_pos l)
  rw [hm, Nat.zero_add, Function.iterate_succ] at hiter
  exact hiter.of_comp

/-- The five lanes of a column add the effect five times, that is once. -/
theorem parity_theta (A : State w) : parity (theta A) = spread 1 1 (parity A) := by
  funext x
  have hfive : parity (theta A) x = parity A x ^^^ thetaEffect (parity A) x := by
    simp only [parity, theta]
    generalize thetaEffect _ x = e
    refine BitVec.eq_of_getLsbD_eq fun i hi => ?_
    simp only [BitVec.getLsbD_xor]
    generalize e.getLsbD i = b
    cases b <;> simp
  rw [hfive, spread, thetaEffect]

theorem theta_injective (hw : w = 2 ^ l) : Function.Injective (theta : State w → State w) := by
  intro A B h
  have hparity : parity A = parity B :=
    spread_injective hw (by rw [← parity_theta, ← parity_theta, h])
  funext x y
  have hlane : A x y ^^^ thetaEffect (parity A) x = B x y ^^^ thetaEffect (parity B) x :=
    congrFun (congrFun h x) y
  rw [hparity] at hlane
  exact (BitVec.xor_left_inj _).mp hlane

end Theta

section Bijective

theorem rho_injective : Function.Injective (rho : State w → State w) := by
  intro A B h
  funext x y
  exact rotateLeft_injective (rhoOffset x y) (congrFun (congrFun h x) y)

theorem pi_injective : Function.Injective (pi : State w → State w) := by
  intro A B h
  funext x y
  have hfrom : ∀ x y : Fin 5, y + 3 * (2 * (x - y)) = x := by decide
  have hlane : A (y + 3 * (2 * (x - y))) y = B (y + 3 * (2 * (x - y))) y :=
    congrFun (congrFun h y) (2 * (x - y))
  rwa [hfrom] at hlane

/-- A row of five bits is determined by its image. -/
theorem chi_row_injective : ∀ a b c d e a' b' c' d' e' : Bool,
    (a ^^ (!b && c)) = (a' ^^ (!b' && c')) → (b ^^ (!c && d)) = (b' ^^ (!c' && d')) →
    (c ^^ (!d && e)) = (c' ^^ (!d' && e')) → (d ^^ (!e && a)) = (d' ^^ (!e' && a')) →
    (e ^^ (!a && b)) = (e' ^^ (!a' && b')) → a = a' := by
  decide

theorem chi_injective : Function.Injective (chi : State w → State w) := by
  intro A B h
  have hbit : ∀ (x y : Fin 5) (i : ℕ), i < w →
      ((A x y).getLsbD i ^^ (!(A (x + 1) y).getLsbD i && (A (x + 2) y).getLsbD i)) =
        ((B x y).getLsbD i ^^ (!(B (x + 1) y).getLsbD i && (B (x + 2) y).getLsbD i)) := by
    intro x y i hi
    have hlane := congrArg (fun v => v.getLsbD i) (congrFun (congrFun h x) y)
    simpa [chi, hi] using hlane
  have hround : ∀ x : Fin 5, x + 1 + 1 = x + 2 ∧ x + 1 + 2 = x + 3 ∧ x + 2 + 1 = x + 3 ∧
      x + 2 + 2 = x + 4 ∧ x + 3 + 1 = x + 4 ∧ x + 3 + 2 = x ∧ x + 4 + 1 = x ∧
      x + 4 + 2 = x + 1 := by decide
  funext x y
  refine BitVec.eq_of_getLsbD_eq fun i hi => ?_
  have h0 := hbit x y i hi
  have h1 := hbit (x + 1) y i hi
  have h2 := hbit (x + 2) y i hi
  have h3 := hbit (x + 3) y i hi
  have h4 := hbit (x + 4) y i hi
  simp only [hround x] at h1 h2 h3 h4
  exact chi_row_injective _ _ _ _ _ _ _ _ _ _ h0 h1 h2 h3 h4

theorem iota_injective (rc : BitVec w) : Function.Injective (iota rc : State w → State w) := by
  refine Function.LeftInverse.injective (g := iota rc) fun A => ?_
  funext x y
  by_cases h : x = 0 ∧ y = 0
  · simp only [iota, if_pos h, BitVec.xor_assoc, BitVec.xor_self, BitVec.xor_zero]
  · simp only [iota, if_neg h]

theorem round_injective (hw : w = 2 ^ l) (rc : BitVec w) :
    Function.Injective (round rc : State w → State w) := fun _ _ h =>
  theta_injective hw (rho_injective (pi_injective (chi_injective (iota_injective rc h))))

theorem rounds_injective (hw : w = 2 ^ l) (n : ℕ) :
    Function.Injective (rounds l n : State w → State w) := by
  induction n with
  | zero => exact fun _ _ h => h
  | succ n ih =>
    intro A B h
    rw [rounds_succ, rounds_succ] at h
    exact ih (round_injective hw _ h)

/-- Keccak-f permutes the states. -/
theorem keccakF_bijective (hw : w = 2 ^ l) :
    Function.Bijective (keccakF l : State w → State w) := by
  have hfin : Finite (BitVec w) := Finite.of_injective BitVec.toFin fun _ _ => BitVec.eq_of_toFin_eq
  exact Finite.injective_iff_bijective.mp (rounds_injective hw _)

end Bijective

end KeccakF
