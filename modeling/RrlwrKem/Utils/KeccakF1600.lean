import RrlwrKem.Library.ArrayPolynomial
import RrlwrKem.Library.KeccakF
import RrlwrKem.Parameters

/-!
# The permutation of the SHA-3 functions

`KeccakF1600_StatePermute` with its twenty-five lane variables and its two rounds for
each pass of the loop, and the permutation that it computes.
-/

namespace RrlwrKem

/-- `uint64_t`. -/
abbrev U64 := BitVec 64

/-- `uint64_t s[25]`. -/
abbrev KeccakLanes := Vector U64 25

section Definitions

/-- `ROL(a, offset)`. -/
def rol (a : U64) (offset : ℕ) : U64 := (a <<< offset) ^^^ (a >>> (64 - offset))

def keccakFRoundConstants : Vector U64 24 :=
  #v[
    0x0000000000000001, 0x0000000000008082, 0x800000000000808a, 0x8000000080008000,
    0x000000000000808b, 0x0000000080000001, 0x8000000080008081, 0x8000000000008009,
    0x000000000000008a, 0x0000000000000088, 0x0000000080008009, 0x000000008000000a,
    0x000000008000808b, 0x800000000000008b, 0x8000000000008089, 0x8000000000008003,
    0x8000000000008002, 0x8000000000000080, 0x000000000000800a, 0x800000008000000a,
    0x8000000080008081, 0x8000000000008080, 0x0000000080000001, 0x8000000080008008]

/-- The variables `Aba` to `Asu`, or `Eba` to `Esu`. -/
structure LaneVars where
  (ba be bi bo bu : U64)
  (ga ge gi go gu : U64)
  (ka ke ki ko ku : U64)
  (ma me mi mo mu : U64)
  (sa se si so su : U64)

def copyFromState (state : KeccakLanes) : LaneVars where
  ba := state[0]
  be := state[1]
  bi := state[2]
  bo := state[3]
  bu := state[4]
  ga := state[5]
  ge := state[6]
  gi := state[7]
  go := state[8]
  gu := state[9]
  ka := state[10]
  ke := state[11]
  ki := state[12]
  ko := state[13]
  ku := state[14]
  ma := state[15]
  me := state[16]
  mi := state[17]
  mo := state[18]
  mu := state[19]
  sa := state[20]
  se := state[21]
  si := state[22]
  so := state[23]
  su := state[24]

def copyToState (A : LaneVars) : KeccakLanes :=
  #v[A.ba, A.be, A.bi, A.bo, A.bu, A.ga, A.ge, A.gi, A.go, A.gu, A.ka, A.ke, A.ki, A.ko, A.ku,
    A.ma, A.me, A.mi, A.mo, A.mu, A.sa, A.se, A.si, A.so, A.su]

/-- One round, from the variables `A` to the variables `E`. The second half of a pass is
the same text with the names exchanged. -/
def thetaRhoPiChiIota (rc : U64) : LaneVars → LaneVars
  | ⟨Aba, Abe, Abi, Abo, Abu, Aga, Age, Agi, Ago, Agu, Aka, Ake, Aki, Ako, Aku, Ama, Ame, Ami, Amo,
    Amu, Asa, Ase, Asi, Aso, Asu⟩ =>
    let BCa := Aba ^^^ Aga ^^^ Aka ^^^ Ama ^^^ Asa
    let BCe := Abe ^^^ Age ^^^ Ake ^^^ Ame ^^^ Ase
    let BCi := Abi ^^^ Agi ^^^ Aki ^^^ Ami ^^^ Asi
    let BCo := Abo ^^^ Ago ^^^ Ako ^^^ Amo ^^^ Aso
    let BCu := Abu ^^^ Agu ^^^ Aku ^^^ Amu ^^^ Asu
    let Da := BCu ^^^ rol BCe 1
    let De := BCa ^^^ rol BCi 1
    let Di := BCe ^^^ rol BCo 1
    let Do := BCi ^^^ rol BCu 1
    let Du := BCo ^^^ rol BCa 1
    let Aba := Aba ^^^ Da
    let BCa := Aba
    let Age := Age ^^^ De
    let BCe := rol Age 44
    let Aki := Aki ^^^ Di
    let BCi := rol Aki 43
    let Amo := Amo ^^^ Do
    let BCo := rol Amo 21
    let Asu := Asu ^^^ Du
    let BCu := rol Asu 14
    let Eba := BCa ^^^ (~~~BCe &&& BCi)
    let Eba := Eba ^^^ rc
    let Ebe := BCe ^^^ (~~~BCi &&& BCo)
    let Ebi := BCi ^^^ (~~~BCo &&& BCu)
    let Ebo := BCo ^^^ (~~~BCu &&& BCa)
    let Ebu := BCu ^^^ (~~~BCa &&& BCe)
    let Abo := Abo ^^^ Do
    let BCa := rol Abo 28
    let Agu := Agu ^^^ Du
    let BCe := rol Agu 20
    let Aka := Aka ^^^ Da
    let BCi := rol Aka 3
    let Ame := Ame ^^^ De
    let BCo := rol Ame 45
    let Asi := Asi ^^^ Di
    let BCu := rol Asi 61
    let Ega := BCa ^^^ (~~~BCe &&& BCi)
    let Ege := BCe ^^^ (~~~BCi &&& BCo)
    let Egi := BCi ^^^ (~~~BCo &&& BCu)
    let Ego := BCo ^^^ (~~~BCu &&& BCa)
    let Egu := BCu ^^^ (~~~BCa &&& BCe)
    let Abe := Abe ^^^ De
    let BCa := rol Abe 1
    let Agi := Agi ^^^ Di
    let BCe := rol Agi 6
    let Ako := Ako ^^^ Do
    let BCi := rol Ako 25
    let Amu := Amu ^^^ Du
    let BCo := rol Amu 8
    let Asa := Asa ^^^ Da
    let BCu := rol Asa 18
    let Eka := BCa ^^^ (~~~BCe &&& BCi)
    let Eke := BCe ^^^ (~~~BCi &&& BCo)
    let Eki := BCi ^^^ (~~~BCo &&& BCu)
    let Eko := BCo ^^^ (~~~BCu &&& BCa)
    let Eku := BCu ^^^ (~~~BCa &&& BCe)
    let Abu := Abu ^^^ Du
    let BCa := rol Abu 27
    let Aga := Aga ^^^ Da
    let BCe := rol Aga 36
    let Ake := Ake ^^^ De
    let BCi := rol Ake 10
    let Ami := Ami ^^^ Di
    let BCo := rol Ami 15
    let Aso := Aso ^^^ Do
    let BCu := rol Aso 56
    let Ema := BCa ^^^ (~~~BCe &&& BCi)
    let Eme := BCe ^^^ (~~~BCi &&& BCo)
    let Emi := BCi ^^^ (~~~BCo &&& BCu)
    let Emo := BCo ^^^ (~~~BCu &&& BCa)
    let Emu := BCu ^^^ (~~~BCa &&& BCe)
    let Abi := Abi ^^^ Di
    let BCa := rol Abi 62
    let Ago := Ago ^^^ Do
    let BCe := rol Ago 55
    let Aku := Aku ^^^ Du
    let BCi := rol Aku 39
    let Ama := Ama ^^^ Da
    let BCo := rol Ama 41
    let Ase := Ase ^^^ De
    let BCu := rol Ase 2
    let Esa := BCa ^^^ (~~~BCe &&& BCi)
    let Ese := BCe ^^^ (~~~BCi &&& BCo)
    let Esi := BCi ^^^ (~~~BCo &&& BCu)
    let Eso := BCo ^^^ (~~~BCu &&& BCa)
    let Esu := BCu ^^^ (~~~BCa &&& BCe)
    ⟨Eba, Ebe, Ebi, Ebo, Ebu, Ega, Ege, Egi, Ego, Egu, Eka, Eke, Eki, Eko, Eku, Ema, Eme, Emi, Emo,
     Emu, Esa, Ese, Esi, Eso, Esu⟩

theorem pass_lt_rounds {i : ℕ} (hi : i < 12) : 2 * i + 1 < 24 := by omega

/-- `KeccakF1600_StatePermute`. -/
def keccakF1600StatePermute (state : KeccakLanes) : KeccakLanes :=
  copyToState (Nat.fold 12 (fun i hi A =>
    let E := thetaRhoPiChiIota
      (keccakFRoundConstants.get ⟨2 * i, (Nat.lt_succ_self _).trans (pass_lt_rounds hi)⟩) A
    thetaRhoPiChiIota (keccakFRoundConstants.get ⟨2 * i + 1, pass_lt_rounds hi⟩) E)
    (copyFromState state))

end Definitions

section Lanes

theorem lane_lt (x y : Fin 5) : x.val + 5 * y.val < 25 := by omega

/-- The lanes of the array, by column and row. -/
def toState (s : KeccakLanes) : KeccakF.State 64 := fun x y => s.get ⟨x + 5 * y, lane_lt x y⟩

theorem toState_injective : Function.Injective toState := by
  intro s s' h
  refine Vector.ext fun j hj => ?_
  have hlane := congrFun (congrFun h ⟨j % 5, Nat.mod_lt j (by decide)⟩) ⟨j / 5, by omega⟩
  simpa only [toState, Vector.get_eq_getElem, Nat.mod_add_div] using hlane

theorem copyToState_copyFromState (s : KeccakLanes) : copyToState (copyFromState s) = s := by
  refine Vector.ext fun j hj => ?_
  interval_cases j <;> rfl

end Lanes

section Rounds

theorem rol_eq (a : U64) {n : ℕ} (hn : 0 < n ∧ n < 64) : rol a n = a.rotateLeft n := by
  rw [rol, BitVec.rotateLeft_eq_rotateLeftAux_of_lt hn.2, BitVec.rotateLeftAux]
  refine BitVec.eq_of_getLsbD_eq fun i hi => ?_
  by_cases h : i < n
  · simp [h, hi]
  · have hhigh : 64 ≤ 64 - n + i := by omega
    simp [h, hi, BitVec.getLsbD_of_ge a _ hhigh]

/-- The offsets of ρ modulo the length of a lane, row after row. -/
def rhoOffsets : Vector ℕ 25 :=
  #v[0, 1, 62, 28, 27, 36, 44, 6, 55, 20, 3, 10, 43, 25, 39, 41, 45, 15, 21, 8, 18, 2, 61, 56, 14]

theorem rhoOffset_mod : ∀ x y : Fin 5,
    KeccakF.rhoOffset x y % 64 = rhoOffsets.get ⟨x + 5 * y, lane_lt x y⟩ := by decide

/-- The rotations of ρ as the code writes them: the lane at the origin has none. -/
theorem rho_eq (A : KeccakF.State 64) : KeccakF.rho A = fun (x y : Fin 5) =>
    let n := rhoOffsets.get ⟨x + 5 * y, lane_lt x y⟩
    if n = 0 then A x y else rol (A x y) n := by
  have hlt : ∀ x y : Fin 5, rhoOffsets.get ⟨x + 5 * y, lane_lt x y⟩ < 64 := by decide
  funext x y
  have hturn : KeccakF.rho A x y =
      (A x y).rotateLeft (rhoOffsets.get ⟨x + 5 * y, lane_lt x y⟩) := by
    rw [← rhoOffset_mod, BitVec.rotateLeft_mod_eq_rotateLeft]
    rfl
  rw [hturn]
  by_cases h : rhoOffsets.get ⟨x + 5 * y, lane_lt x y⟩ = 0
  · simp only [h, if_true]
    exact KeccakF.rotateLeft_mul_self (A x y) 0
  · simp only [if_neg h, rol_eq _ ⟨Nat.pos_of_ne_zero h, hlt x y⟩]

theorem thetaEffect_eq (C : Fin 5 → U64) : KeccakF.thetaEffect C = fun x =>
    C (x - 1) ^^^ rol (C (x + 1)) 1 := by
  funext x
  rw [rol_eq _ (by decide)]
  rfl

theorem thetaRhoPiChiIota_eq (rc : U64) (A : LaneVars) :
    toState (copyToState (thetaRhoPiChiIota rc A)) =
      KeccakF.round rc (toState (copyToState A)) := by
  rw [KeccakF.round, rho_eq]
  unfold KeccakF.theta
  rw [thetaEffect_eq]
  funext x y
  -- with the same rotations on both sides each lane is the same expression
  fin_cases x <;> fin_cases y <;> rfl

/-- The table holds what the register generates. -/
theorem roundConstants_eq : ∀ i : Fin 24,
    keccakFRoundConstants.get i = KeccakF.roundConstant 64 6 i := by decide

end Rounds

section Main

/-- The code computes Keccak-f on 64-bit lanes. -/
theorem keccakF1600StatePermute_eq_keccakF (s : KeccakLanes) :
    toState (keccakF1600StatePermute s) = KeccakF.keccakF 6 (toState s) := by
  -- a pass of the loop is two rounds
  refine ArrayPolynomial.fold_invariant (n := 12) (a := copyFromState s) (fun n A =>
    toState (copyToState A) = KeccakF.rounds 6 (2 * n) (toState s)) ?_ ?_
  · rw [copyToState_copyFromState]
    rfl
  · intro i hi A h
    have hpass : 2 * (i + 1) = 2 * i + 1 + 1 := by omega
    rw [thetaRhoPiChiIota_eq, thetaRhoPiChiIota_eq, h, roundConstants_eq, roundConstants_eq, hpass,
      KeccakF.rounds_succ, KeccakF.rounds_succ]

/-- The permutation loses nothing. -/
theorem keccakF1600StatePermute_injective : Function.Injective keccakF1600StatePermute := by
  intro s s' h
  have hstate := congrArg toState h
  rw [keccakF1600StatePermute_eq_keccakF, keccakF1600StatePermute_eq_keccakF] at hstate
  exact toState_injective ((KeccakF.keccakF_bijective (l := 6) rfl).injective hstate)

/-- The unrolled rounds are the permutation Keccak-f on the states of 25 lanes: every
state is the image of exactly one. -/
theorem keccakF1600_permutation :
    (∀ s, toState (keccakF1600StatePermute s) = KeccakF.keccakF 6 (toState s)) ∧
      Function.Bijective keccakF1600StatePermute := by
  have hfin : Finite KeccakLanes := by
    have hlane : Finite U64 := Finite.of_injective BitVec.toFin fun _ _ => BitVec.eq_of_toFin_eq
    exact Finite.of_injective toState toState_injective
  exact ⟨keccakF1600StatePermute_eq_keccakF,
    Finite.injective_iff_bijective.mp keccakF1600StatePermute_injective⟩

end Main

end RrlwrKem
