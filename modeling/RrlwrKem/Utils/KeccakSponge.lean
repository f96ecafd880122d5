import RrlwrKem.Library.Checked
import RrlwrKem.Library.Sponge
import RrlwrKem.Memory
import RrlwrKem.Utils.KeccakF1600

/-!
# The sponge functions on the Keccak state

The functions `keccak_init` to `keccak_squeezeblocks`, which address the bytes of the
state inside its lanes. Loads and stores of lanes and of the input are checked; a
`while` loop is given a number of passes and has no result if these do not suffice. An
input is a list, for a pointer with a length. Positions do not exceed the rate, so that
`r - pos` does not wrap.
-/

namespace RrlwrKem

open Checked

section Definitions

/-- `s[i] ^= x`. -/
def xorLane (s : KeccakLanes) (i : ℕ) (x : U64) : Option KeccakLanes :=
  (load s i).bind fun y => store s i (y ^^^ x)

/-- `s[i/8] ^= (uint64_t)b << 8*(i%8)`. -/
def xorByte (s : KeccakLanes) (i : ℕ) (b : Byte) : Option KeccakLanes :=
  xorLane s (i / 8) (b.setWidth 64 <<< (8 * (i % 8)))

/-- `s[i/8] >> 8*(i%8)`, stored as a byte. -/
def laneByte (s : KeccakLanes) (i : ℕ) : Option Byte :=
  (load s (i / 8)).map fun (x : U64) => (x >>> (8 * (i % 8))).setWidth 8

def load64 (x : List Byte) : Option U64 :=
  loop 8 (fun i _ (r : U64) => x[i]?.map fun b => r ||| (b.setWidth 64 : U64) <<< (8 * i)) 0

/-- `store64` to `x + o`. -/
def store64 (x : Buf) (o : ℕ) (u : U64) : Buf :=
  Nat.fold 8 (fun i _ x => x.set (o + i) ((u >>> (8 * i)).setWidth 8)) x

/-- `for(i=pos;i<pos+n;i++) s[i/8] ^= (uint64_t)*in++ << 8*(i%8)`. -/
def xorBlock (s : KeccakLanes) (pos n : ℕ) (inp : List Byte) : Option KeccakLanes :=
  loop n (fun i _ s => inp[i]?.bind fun b => xorByte s (pos + i) b) s

def keccakInit : KeccakLanes := Vector.replicate 25 0

def keccakAbsorb (r : ℕ) : (fuel : ℕ) → KeccakLanes → (pos : ℕ) → (inp : List Byte) →
    Option (KeccakLanes × ℕ)
  | 0, _, _, _ => none
  | fuel + 1, s, pos, inp =>
    if r ≤ pos + inp.length then
      (xorBlock s pos (r - pos) inp).bind fun s =>
        keccakAbsorb r fuel (keccakF1600StatePermute s) 0 (inp.drop (r - pos))
    else (xorBlock s pos inp.length inp).map fun s => (s, pos + inp.length)

def keccakFinalize (s : KeccakLanes) (pos r : ℕ) (p : Byte) : Option KeccakLanes :=
  (xorByte s pos p).bind fun s => xorLane s (r / 8 - 1) ((1 : U64) <<< 63)

/-- `keccak_squeeze` to `out + o`. -/
def keccakSqueeze (r : ℕ) : (fuel : ℕ) → Buf → (o outlen : ℕ) → KeccakLanes → (pos : ℕ) →
    Option (Buf × KeccakLanes × ℕ)
  | 0, out, _, outlen, s, pos => if outlen = 0 then some (out, s, pos) else none
  | fuel + 1, out, o, outlen, s, pos =>
    if outlen = 0 then some (out, s, pos)
    else
      let (s, pos) := if pos = r then (keccakF1600StatePermute s, 0) else (s, pos)
      let n := min r (pos + outlen) - pos
      (loop n (fun i _ out => (laneByte s (pos + i)).map fun b => out.set (o + i) b) out).bind
        fun out => keccakSqueeze r fuel out (o + n) (outlen - n) s (pos + n)

/-- `while(inlen >= r)` in `keccak_absorb_once`, and what it leaves of the input. -/
def keccakAbsorbBlocks (r : ℕ) : (fuel : ℕ) → KeccakLanes → (inp : List Byte) →
    Option (KeccakLanes × List Byte)
  | 0, _, _ => none
  | fuel + 1, s, inp =>
    if r ≤ inp.length then
      (loop (r / 8) (fun i _ s => (load64 (inp.drop (8 * i))).bind fun x => xorLane s i x) s).bind
        fun s => keccakAbsorbBlocks r fuel (keccakF1600StatePermute s) (inp.drop r)
    else some (s, inp)

def keccakAbsorbOnce (r : ℕ) (inp : List Byte) (p : Byte) : Option KeccakLanes :=
  (keccakAbsorbBlocks r (inp.length + 1) keccakInit inp).bind fun (s, inp) =>
  (xorBlock s 0 inp.length inp).bind fun s =>
  (xorByte s inp.length p).bind fun s => xorLane s ((r - 1) / 8) ((1 : U64) <<< 63)

/-- `keccak_squeezeblocks` to `out + o`. -/
def keccakSqueezeblocks (r : ℕ) (out : Buf) (o nblocks : ℕ) (s : KeccakLanes) :
    Option (Buf × KeccakLanes) :=
  loop nblocks (fun k _ (out, s) =>
    let s := keccakF1600StatePermute s
    (loop (r / 8) (fun i _ out =>
      (load s i).map fun x => store64 out (o + r * k + 8 * i) x) out).map
      fun out => (out, s)) (out, s)

end Definitions

section Bytes

/-- Byte `t` of a lane. -/
def laneOctet (x : U64) (t : ℕ) : Byte := (x >>> (8 * t)).setWidth 8

/-- The bytes of the state, lane after lane. -/
def stateByte (s : KeccakLanes) (j : ℕ) : Byte :=
  if h : j / 8 < 25 then laneOctet (s.get ⟨j / 8, h⟩) (j % 8) else 0

/-- The state with `b` added to byte `j`. -/
def addByte (j : ℕ) (b : Byte) (s : KeccakLanes) : KeccakLanes :=
  if h : j / 8 < 25 then
    s.set (j / 8) (s.get ⟨j / 8, h⟩ ^^^ b.setWidth 64 <<< (8 * (j % 8))) h
  else s

theorem laneOctet_xor (x y : U64) (t : ℕ) :
    laneOctet (x ^^^ y) t = laneOctet x t ^^^ laneOctet y t := by
  simp only [laneOctet, BitVec.ushiftRight_xor_distrib, BitVec.setWidth_xor]

theorem laneOctet_or (x y : U64) (t : ℕ) :
    laneOctet (x ||| y) t = laneOctet x t ||| laneOctet y t := by
  simp only [laneOctet, BitVec.ushiftRight_or_distrib, BitVec.setWidth_or]

/-- A shifted byte is in its place and nowhere else. -/
theorem laneOctet_shiftLeft (b : Byte) {t u : ℕ} (ht : t < 8) :
    laneOctet (b.setWidth 64 <<< (8 * t)) u = if u = t then b else 0 := by
  refine BitVec.eq_of_getLsbD_eq fun i hi => ?_
  rw [laneOctet, BitVec.getLsbD_setWidth, BitVec.getLsbD_ushiftRight, BitVec.getLsbD_shiftLeft,
    BitVec.getLsbD_setWidth]
  by_cases h : u = t
  · have hidx : 8 * u + i - 8 * t = i := by omega
    have hlt : 8 * u + i < 64 := by omega
    rw [if_pos h, hidx]
    simp only [hi, hlt, show i < 64 by omega, show ¬8 * u + i < 8 * t by omega, decide_true,
      decide_false, Bool.not_false, Bool.true_and]
  · rw [if_neg h]
    rcases Nat.lt_or_gt_of_ne h with hlt | hgt
    · simp [show 8 * u + i < 8 * t by omega]
    · simp [BitVec.getLsbD_of_ge b (8 * u + i - 8 * t) (by omega)]

theorem laneOctet_ext {x y : U64} (h : ∀ t < 8, laneOctet x t = laneOctet y t) : x = y := by
  refine BitVec.eq_of_getLsbD_eq fun i hi => ?_
  have hbit := congrArg (fun b => b.getLsbD (i % 8)) (h (i / 8) (by omega))
  simp only [laneOctet, BitVec.getLsbD_setWidth, BitVec.getLsbD_ushiftRight, Nat.div_add_mod,
    Nat.mod_lt i (show 8 > 0 by decide), decide_true, Bool.true_and] at hbit
  exact hbit

theorem stateByte_ext {s s' : KeccakLanes} (h : ∀ j < 200, stateByte s j = stateByte s' j) :
    s = s' := by
  refine Vector.ext fun i hi => laneOctet_ext fun t ht => ?_
  have hdiv : (8 * i + t) / 8 = i := by omega
  have hmod : (8 * i + t) % 8 = t := by omega
  have hbyte := h (8 * i + t) (by omega)
  simp only [stateByte, hdiv, hmod, hi, dite_true] at hbyte
  exact hbyte

theorem xorLane_eq (s : KeccakLanes) {i : ℕ} (hi : i < 25) (x : U64) :
    xorLane s i x = some (s.set i (s[i] ^^^ x)) := by
  rw [xorLane, load_eq hi]
  exact store_eq hi _

theorem stateByte_set (s : KeccakLanes) {i j : ℕ} (hi : i < 25) (hj : j < 200) (x : U64) :
    stateByte (s.set i (s[i] ^^^ x)) j =
      if j / 8 = i then stateByte s j ^^^ laneOctet x (j % 8) else stateByte s j := by
  have hlt : j / 8 < 25 := by omega
  simp only [stateByte, hlt, dite_true, Vector.get_eq_getElem, Vector.getElem_set]
  by_cases h : j / 8 = i
  · subst h
    rw [if_pos rfl, if_pos rfl, laneOctet_xor]
  · rw [if_neg h, if_neg (Ne.symm h)]

theorem stateByte_addByte (s : KeccakLanes) {i j : ℕ} (hi : i < 200) (hj : j < 200) (b : Byte) :
    stateByte (addByte i b s) j = if j = i then stateByte s j ^^^ b else stateByte s j := by
  have hlt : i / 8 < 25 := by omega
  rw [addByte, dif_pos hlt]
  refine (stateByte_set s hlt hj _).trans ?_
  rw [laneOctet_shiftLeft b (Nat.mod_lt i (by decide))]
  by_cases h : j = i
  · rw [if_pos (by rw [h]), if_pos (by rw [h]), if_pos h]
  · rw [if_neg h]
    by_cases hlane : j / 8 = i / 8
    · rw [if_pos hlane, if_neg (by omega)]
      exact BitVec.xor_zero
    · rw [if_neg hlane]

theorem addByte_of_ge (s : KeccakLanes) {i : ℕ} (hi : 200 ≤ i) (b : Byte) : addByte i b s = s :=
  dif_neg (by omega)

/-- Bytes of the state that the blocks of a sponge use. -/
def keccakSponge (r : ℕ) (hr : 0 < r) : Sponge KeccakLanes where
  rate := r
  rate_pos := hr
  permute := keccakF1600StatePermute
  add := addByte
  byte j s := stateByte s j
  add_zero i s := by
    rcases Nat.lt_or_ge i 200 with hi | hi
    · refine stateByte_ext fun j hj => ?_
      rw [stateByte_addByte s hi hj, BitVec.ofNat_eq_ofNat, BitVec.xor_zero, ite_self]
    · exact addByte_of_ge s hi 0
  add_add i a b s := by
    rcases Nat.lt_or_ge i 200 with hi | hi
    · refine stateByte_ext fun j hj => ?_
      rw [stateByte_addByte _ hi hj, stateByte_addByte _ hi hj, stateByte_addByte _ hi hj]
      by_cases h : j = i
      · rw [if_pos h, if_pos h, if_pos h, BitVec.xor_assoc]
      · rw [if_neg h, if_neg h, if_neg h]
    · rw [addByte_of_ge _ hi, addByte_of_ge _ hi, addByte_of_ge _ hi]

end Bytes

section Absorb

/-- What the functions need of the rate: whole lanes, not more than there are. -/
structure IsRate (r : ℕ) : Prop where
  pos : 0 < r
  dvd : 8 ∣ r
  le : r ≤ 200

theorem xorByte_eq (s : KeccakLanes) {i : ℕ} (hi : i < 200) (b : Byte) :
    xorByte s i b = some (addByte i b s) := by
  have hlt : i / 8 < 25 := by omega
  rw [xorByte, xorLane_eq s hlt, addByte, dif_pos hlt]
  rfl

variable {r : ℕ} (hr : IsRate r)

theorem xorBlock_eq (s : KeccakLanes) {pos n : ℕ} (inp : List Byte) (hpos : pos + n ≤ 200)
    (hn : n ≤ inp.length) :
    xorBlock s pos n inp = some ((keccakSponge r hr.pos).addFrom pos (inp.take n) s) := by
  obtain ⟨s', hs', hP⟩ := loop_succeeds (n := n) (a := s)
    (f := fun i _ s => inp[i]?.bind fun b => xorByte s (pos + i) b)
    (fun i s' => s' = (keccakSponge r hr.pos).addFrom pos (inp.take i) s) rfl (by
      rintro i hi s' rfl
      have hlt : i < inp.length := by omega
      refine ⟨_, ?_, rfl⟩
      rw [List.getElem?_eq_getElem hlt, Option.bind_some, xorByte_eq _ (by omega),
        List.take_succ_eq_append_getElem hlt, Sponge.addFrom_append, List.length_take,
        Nat.min_eq_left hlt.le]
      rfl)
  rw [← hP]
  exact hs'

/-- Absorption byte by byte, with the permutation whenever the block is full. -/
theorem keccakAbsorb_eq (fuel : ℕ) (s : KeccakLanes) (pos : ℕ) (inp : List Byte) (hpos : pos < r)
    (hf : inp.length < fuel) : keccakAbsorb r fuel s pos inp =
      some ((keccakSponge r hr.pos).absorb (s, pos) inp) := by
  have hle := hr.le
  induction fuel generalizing s pos inp with
  | zero => exact absurd hf (Nat.not_lt_zero _)
  | succ fuel ih =>
    rw [keccakAbsorb]
    by_cases h : r ≤ pos + inp.length
    · have hlen : (inp.take (r - pos)).length = r - pos := by
        rw [List.length_take]
        omega
      have hrest : (inp.drop (r - pos)).length < fuel := by
        rw [List.length_drop]
        omega
      have hfull := (keccakSponge r hr.pos).absorb_full s pos (inp.take (r - pos)) hpos
        (by rw [hlen]; exact Nat.add_sub_of_le hpos.le)
      rw [if_pos h, xorBlock_eq hr s inp (by omega) (by omega), Option.bind_some,
        ih _ _ _ hr.pos hrest]
      conv_rhs => rw [← List.take_append_drop (r - pos) inp]
      rw [Sponge.absorb_append, hfull]
      rfl
    · have hshort := (keccakSponge r hr.pos).absorb_short s pos inp (Nat.lt_of_not_le h)
      rw [if_neg h, xorBlock_eq hr s inp (by omega) le_rfl, hshort, List.take_length]
      rfl

include hr in
/-- The last bit of a block. -/
theorem xorLane_last (s : KeccakLanes) {i : ℕ} (hi : i = (r - 1) / 8) :
    xorLane s i ((1 : U64) <<< 63) = some (addByte (r - 1) 0x80 s) := by
  obtain ⟨hpos, hdvd, hle⟩ := hr
  have hmod : (r - 1) % 8 = 7 := by omega
  have hbyte := xorByte_eq s (show r - 1 < 200 by omega) 0x80
  rw [xorByte, hmod] at hbyte
  rw [hi, ← hbyte]
  rfl

theorem keccakFinalize_eq (s : KeccakLanes) {pos : ℕ} (p : Byte) (hpos : pos < r) :
    keccakFinalize s pos r p = some ((keccakSponge r hr.pos).finish p (s, pos)) := by
  have hle := hr.le
  have hdvd := hr.dvd
  rw [keccakFinalize, xorByte_eq s (by omega), Option.bind_some, xorLane_last hr _ (by omega)]
  rfl

/-- The bytes of a loaded lane. -/
theorem load64_eq {l : List Byte} (hl : 8 ≤ l.length) :
    ∃ x, load64 l = some x ∧ ∀ t (ht : t < 8), laneOctet x t = l[t] := by
  obtain ⟨x, hx, hlow, -⟩ := loop_succeeds (n := 8) (a := (0 : U64))
    (f := fun i _ r => l[i]?.map fun b => r ||| (b.setWidth 64 : U64) <<< (8 * i))
    (fun n x => (∀ t (ht : t < 8), t < n → laneOctet x t = l[t]) ∧
      ∀ t < 8, n ≤ t → laneOctet x t = 0) ⟨fun t _ ht => absurd ht (Nat.not_lt_zero t), by decide⟩
    (by
      rintro n hn x ⟨hlow, hhigh⟩
      have hlt : n < l.length := by omega
      refine ⟨x ||| (l[n].setWidth 64 : U64) <<< (8 * n), ?_, fun t ht htn => ?_,
        fun t ht htn => ?_⟩
      · rw [List.getElem?_eq_getElem hlt]
        rfl
      · rw [laneOctet_or, laneOctet_shiftLeft _ hn]
        rcases Nat.lt_succ_iff_lt_or_eq.mp htn with h | rfl
        · rw [hlow t ht h, if_neg (by omega)]
          exact BitVec.or_zero
        · rw [hhigh t ht le_rfl, if_pos rfl]
          exact BitVec.zero_or
      · rw [laneOctet_or, laneOctet_shiftLeft _ hn, hhigh t ht (by omega), if_neg (by omega)]
        rfl)
  exact ⟨x, hx, fun t ht => hlow t ht ht⟩

theorem stateByte_addFrom (s : KeccakLanes) {pos j : ℕ} (l : List Byte)
    (hl : pos + l.length ≤ 200) (hj : j < 200) :
    stateByte ((keccakSponge r hr.pos).addFrom pos l s) j =
      stateByte s j ^^^ if pos ≤ j then l.getD (j - pos) 0 else 0 := by
  induction l generalizing pos s with
  | nil =>
    rw [List.getD_nil, ite_self]
    exact BitVec.xor_zero.symm
  | cons b l ih =>
    rw [List.length_cons] at hl
    refine (ih (addByte pos b s) (by omega)).trans ?_
    rw [stateByte_addByte s (by omega) hj]
    rcases lt_trichotomy j pos with h | rfl | h
    · rw [if_neg (by omega), if_neg (by omega), if_neg (by omega)]
    · rw [if_pos rfl, if_neg (by omega), if_pos le_rfl, Nat.sub_self, List.getD_cons_zero]
      exact BitVec.xor_zero
    · obtain ⟨d, rfl⟩ := Nat.exists_eq_add_of_lt h
      have hidx : pos + d + 1 - pos = d + 1 := by omega
      have hidx' : pos + d + 1 - (pos + 1) = d := by omega
      rw [if_neg (by omega), if_pos (by omega), if_pos (by omega), hidx, hidx',
        List.getD_cons_succ]

/-- A block added lane by lane. -/
theorem xorLanes_eq (s : KeccakLanes) (inp : List Byte) (hle : r ≤ inp.length) :
    loop (r / 8) (fun i _ s => (load64 (inp.drop (8 * i))).bind fun x => xorLane s i x) s =
      some ((keccakSponge r hr.pos).addFrom 0 (inp.take r) s) := by
  have hmax := hr.le
  obtain ⟨s', hs', hP⟩ := loop_succeeds (n := r / 8) (a := s)
    (f := fun i _ s => (load64 (inp.drop (8 * i))).bind fun x => xorLane s i x)
    (fun i s' => s' = (keccakSponge r hr.pos).addFrom 0 (inp.take (8 * i)) s) rfl (by
      rintro i hi s' rfl
      have hlane : i < 25 := by omega
      obtain ⟨x, hx, hbytes⟩ := load64_eq (l := inp.drop (8 * i)) (by
        rw [List.length_drop]
        omega)
      refine ⟨_, by rw [hx, Option.bind_some, xorLane_eq _ hlane], stateByte_ext fun j hj => ?_⟩
      have hlen : ∀ n ≤ 200, 0 + (inp.take n).length ≤ 200 := fun n hn => by
        rw [Nat.zero_add]
        exact (List.length_take_le n inp).trans hn
      have hread : ∀ n, (inp.take n).getD j 0 = if j < n then inp.getD j 0 else 0 := fun n => by
        by_cases h : j < n
        · simp [List.getD_eq_getElem?_getD, h]
        · simp [List.getD_eq_getElem?_getD, h]
      rw [stateByte_set _ hlane hj, stateByte_addFrom hr s _ (hlen _ (by omega)) hj,
        stateByte_addFrom hr s _ (hlen _ (by omega)) hj, if_pos (Nat.zero_le j), Nat.sub_zero,
        if_pos (Nat.zero_le j), hread, hread]
      by_cases h : j / 8 = i
      · have hlt : j < inp.length := by omega
        have hidx : 8 * i + j % 8 = j := by omega
        rw [if_pos h, if_neg (by omega), if_pos (by omega), hbytes _ (Nat.mod_lt j (by decide)),
          List.getElem_drop, List.getD_eq_getElem _ _ hlt]
        simp only [hidx, BitVec.ofNat_eq_ofNat, BitVec.xor_zero]
      · rw [if_neg h]
        by_cases hlt : j < 8 * i
        · rw [if_pos hlt, if_pos (by omega)]
        · rw [if_neg hlt, if_neg (by omega)])
  have hwhole : 8 * (r / 8) = r := Nat.mul_div_cancel' hr.dvd
  rw [hwhole] at hP
  rw [← hP]
  exact hs'

theorem keccakAbsorbBlocks_eq (fuel : ℕ) (s : KeccakLanes) (inp : List Byte)
    (hf : inp.length < fuel) : ∃ s' rest, keccakAbsorbBlocks r fuel s inp = some (s', rest) ∧
      rest.length < r ∧
      (keccakSponge r hr.pos).absorb (s, 0) inp = (keccakSponge r hr.pos).absorb (s', 0) rest := by
  have hpos := hr.pos
  induction fuel generalizing s inp with
  | zero => exact absurd hf (Nat.not_lt_zero _)
  | succ fuel ih =>
    rw [keccakAbsorbBlocks]
    by_cases h : r ≤ inp.length
    · have hrest : (inp.drop r).length < fuel := by
        rw [List.length_drop]
        omega
      have hfull := (keccakSponge r hr.pos).absorb_full s 0 (inp.take r) hr.pos (by
        rw [Nat.zero_add, List.length_take]
        exact Nat.min_eq_left h)
      obtain ⟨s', rest, heq, hlt, habsorb⟩ := ih
        (keccakF1600StatePermute ((keccakSponge r hr.pos).addFrom 0 (inp.take r) s)) _ hrest
      refine ⟨s', rest, ?_, hlt, ?_⟩
      · rw [if_pos h, xorLanes_eq hr s inp h]
        exact heq
      · rw [← habsorb]
        conv_lhs => rw [← List.take_append_drop r inp]
        rw [Sponge.absorb_append, hfull]
        rfl
    · exact ⟨s, inp, if_neg h, Nat.lt_of_not_le h, rfl⟩

/-- The whole absorption of a message. -/
theorem keccakAbsorbOnce_eq (inp : List Byte) (p : Byte) : keccakAbsorbOnce r inp p =
    some ((keccakSponge r hr.pos).finish p
      ((keccakSponge r hr.pos).absorb (keccakInit, 0) inp)) := by
  have hle := hr.le
  obtain ⟨s', rest, heq, hlt, habsorb⟩ :=
    keccakAbsorbBlocks_eq hr (inp.length + 1) keccakInit inp (Nat.lt_succ_self _)
  have hshort := (keccakSponge r hr.pos).absorb_short s' 0 rest (by
    rw [Nat.zero_add]
    exact hlt)
  rw [keccakAbsorbOnce, heq, Option.bind_some]
  dsimp only
  rw [xorBlock_eq hr s' rest (by omega) le_rfl, Option.bind_some, List.take_length,
    xorByte_eq _ (by omega), Option.bind_some, xorLane_last hr _ rfl, habsorb, hshort,
    Nat.zero_add]
  rfl

end Absorb

section Squeeze

variable {r : ℕ} (hr : IsRate r)

theorem laneByte_eq (s : KeccakLanes) {j : ℕ} (hj : j < 200) :
    laneByte s j = some (stateByte s j) := by
  have hlt : j / 8 < 25 := by omega
  rw [laneByte, load_eq hlt, stateByte, dif_pos hlt]
  rfl

theorem store64_written (x : Buf) (o : ℕ) (u : U64) :
    Written o (o + 8) (fun j => laneOctet u (j - o)) x (store64 x o u) := by
  refine ArrayPolynomial.fold_invariant (n := 8) (a := x) (fun i x' =>
    Written o (o + i) (fun j => laneOctet u (j - o)) x x') (Written.refl _ _ _) ?_
  intro i hi x' h
  exact h.set (Nat.le_add_right o i) (by rw [Nat.add_sub_cancel_left]; rfl)

/-- Lanes stored one after another are the bytes of the state. -/
theorem storeLanes_spec (out : Buf) (p : ℕ) (s : KeccakLanes) {n : ℕ} (hn : n ≤ 25) : ∃ out',
    loop n (fun i _ out => (load s i).map fun x => store64 out (p + 8 * i) x) out = some out' ∧
      Written p (p + 8 * n) (fun j => stateByte s (j - p)) out out' := by
  refine loop_succeeds (fun i out' => Written p (p + 8 * i) (fun j => stateByte s (j - p)) out out')
    (Written.refl _ _ _) fun i hi out' h => ?_
  have hlane : i < 25 := by omega
  refine ⟨_, by rw [load_eq hlane]; rfl, ?_⟩
  refine h.append ((store64_written _ _ _).congr fun j hj hj' => ?_) (by omega) (by omega)
  have hdiv : (j - p) / 8 = i := by omega
  have hmod : (j - p) % 8 = j - (p + 8 * i) := by omega
  simp only [stateByte, hdiv, hmod, hlane, dite_true]
  rfl

/-- Squeezing continues the output where the last call ended. -/
theorem keccakSqueeze_spec {s₀ : KeccakLanes} (fuel : ℕ) (out : Buf) (o outlen : ℕ)
    (s : KeccakLanes) (k pos : ℕ) (h : (keccakSponge r hr.pos).SqueezedTo s₀ k s pos)
    (hf : outlen ≤ fuel) : ∃ out' s' pos',
      keccakSqueeze r fuel out o outlen s pos = some (out', s', pos') ∧
      Written o (o + outlen) (fun j => (keccakSponge r hr.pos).squeezed
        (keccakF1600StatePermute s₀) (k + (j - o))) out out' ∧
      (keccakSponge r hr.pos).SqueezedTo s₀ (k + outlen) s' pos' ∧ (0 < pos → 0 < pos') := by
  have hmax := hr.le
  have hpos := hr.pos
  induction fuel generalizing out o outlen s k pos with
  | zero =>
    obtain rfl : outlen = 0 := Nat.le_zero.mp hf
    exact ⟨out, s, pos, rfl, Written.refl _ _ _, h, id⟩
  | succ fuel ih =>
    rw [keccakSqueeze]
    by_cases h0 : outlen = 0
    · subst h0
      exact ⟨out, s, pos, if_pos rfl, Written.refl _ _ _, h, id⟩
    · rw [if_neg h0]
      -- after the test there is room in the block
      obtain ⟨s₁, pos₁, hst, hlt, h₁⟩ : ∃ s₁ pos₁,
          (if pos = r then (keccakF1600StatePermute s, 0) else (s, pos)) = (s₁, pos₁) ∧ pos₁ < r ∧
          (keccakSponge r hr.pos).SqueezedTo s₀ k s₁ pos₁ := by
        by_cases hend : pos = r
        · subst hend
          exact ⟨_, _, if_pos rfl, hpos, h.permute⟩
        · exact ⟨s, pos, if_neg hend, lt_of_le_of_ne h.le hend, h⟩
      obtain ⟨n, hn⟩ : ∃ n, n = min r (pos₁ + outlen) - pos₁ := ⟨_, rfl⟩
      have hn1 : 0 < n ∧ n ≤ outlen ∧ pos₁ + n ≤ r := by omega
      obtain ⟨hread, hto⟩ := h₁.bytes n hn1.2.2
      obtain ⟨out₁, hloop, hwritten⟩ := loop_succeeds (n := n) (a := out)
        (f := fun i _ out => (laneByte s₁ (pos₁ + i)).map fun b => out.set (o + i) b)
        (fun i out' => Written o (o + i) (fun j => (keccakSponge r hr.pos).squeezed
          (keccakF1600StatePermute s₀) (k + (j - o))) out out') (Written.refl _ _ _) (by
          intro i hi out' hout'
          refine ⟨_, by rw [laneByte_eq s₁ (by omega)]; rfl,
            hout'.set (Nat.le_add_right o i) ?_⟩
          rw [Nat.add_sub_cancel_left]
          exact hread i hi)
      obtain ⟨out', s', pos', heq, hwritten', hto', hpos'⟩ := ih out₁ (o + n) (outlen - n) s₁
        (k + n) (pos₁ + n) hto (by omega)
      refine ⟨out', s', pos', ?_, ?_, ?_, fun _ => hpos' (by omega)⟩
      · rw [hst]
        dsimp only
        rw [← hn, hloop, Option.bind_some]
        exact heq
      · have hend : o + n + (outlen - n) = o + outlen := by omega
        rw [hend] at hwritten'
        refine hwritten.append (hwritten'.congr fun j hj _ => ?_) (by omega) (by omega)
        have hidx : k + n + (j - (o + n)) = k + (j - o) := by omega
        rw [hidx]
      · have hend : k + n + (outlen - n) = k + outlen := by omega
        rwa [hend] at hto'

/-- Whole blocks of output. -/
theorem keccakSqueezeblocks_spec {s₀ : KeccakLanes} (out : Buf) (o nblocks : ℕ) (s : KeccakLanes)
    (k : ℕ) (h : (keccakSponge r hr.pos).SqueezedTo s₀ k s r) : ∃ out' s',
      keccakSqueezeblocks r out o nblocks s = some (out', s') ∧
      Written o (o + r * nblocks) (fun j => (keccakSponge r hr.pos).squeezed
        (keccakF1600StatePermute s₀) (k + (j - o))) out out' ∧
      (keccakSponge r hr.pos).SqueezedTo s₀ (k + r * nblocks) s' r := by
  have hmax := hr.le
  have hwhole : 8 * (r / 8) = r := Nat.mul_div_cancel' hr.dvd
  obtain ⟨⟨out', s'⟩, hloop, hwritten, hto⟩ := loop_succeeds (n := nblocks) (a := (out, s))
    (f := fun m _ (out, s) =>
      let s := keccakF1600StatePermute s
      (loop (r / 8) (fun i _ out =>
        (load s i).map fun x => store64 out (o + r * m + 8 * i) x) out).map fun out => (out, s))
    (fun m st => Written o (o + r * m) (fun j => (keccakSponge r hr.pos).squeezed
        (keccakF1600StatePermute s₀) (k + (j - o))) out st.1 ∧
      (keccakSponge r hr.pos).SqueezedTo s₀ (k + r * m) st.2 r) ⟨Written.refl _ _ _, h⟩ (by
      rintro m hm ⟨out', s'⟩ ⟨hwritten, hto⟩
      obtain ⟨hread, hto'⟩ := hto.permute.bytes r (Nat.zero_add r).le
      obtain ⟨out₁, hloop, hblock⟩ := storeLanes_spec out' (o + r * m)
        (keccakF1600StatePermute s') (n := r / 8) (by omega)
      refine ⟨(out₁, keccakF1600StatePermute s'), by simp only [hloop, Option.map_some], ?_, ?_⟩
      · rw [hwhole] at hblock
        refine (hwritten.append (hblock.congr fun j hj hj' => ?_) (Nat.le_add_right _ _)
          (Nat.le_add_right _ _)).of_eq (by rw [Nat.mul_succ, Nat.add_assoc])
        -- byte `j` of the output is byte `d` of the block
        obtain ⟨d, rfl⟩ := Nat.exists_eq_add_of_le hj
        have hsum : k + r * m + d = k + (o + r * m + d - o) := by omega
        have hbyte := hread d (by omega)
        rw [Nat.zero_add, hsum] at hbyte
        rw [Nat.add_sub_cancel_left]
        exact hbyte
      · rw [Nat.zero_add] at hto'
        rwa [Nat.mul_succ, ← Nat.add_assoc])
  exact ⟨out', s', hloop, hwritten, hto⟩

end Squeeze

section Injective

variable {r : ℕ} (hr : IsRate r)

/-- The bytes after the last piece of a message and its end marks. -/
theorem stateByte_finish_short (s : KeccakLanes) (p : Byte) {l : List Byte} (hl : l.length < r)
    {j : ℕ} (hj : j < 200) :
    stateByte ((keccakSponge r hr.pos).finish p ((keccakSponge r hr.pos).absorb (s, 0) l)) j =
      stateByte s j ^^^ (l.getD j 0 ^^^ ((if j = l.length then p else 0) ^^^
        if j = r - 1 then 0x80 else 0)) := by
  have hle := hr.le
  have hshort := (keccakSponge r hr.pos).absorb_short s 0 l (by rwa [Nat.zero_add])
  have hadd : ∀ (s : KeccakLanes) (i : ℕ), i < 200 → ∀ b, stateByte (addByte i b s) j =
      stateByte s j ^^^ if j = i then b else 0 := by
    intro s i hi b
    rw [stateByte_addByte s hi hj]
    by_cases h : j = i
    · rw [if_pos h, if_pos h]
    · rw [if_neg h, if_neg h]
      exact BitVec.xor_zero.symm
  rw [hshort, Nat.zero_add]
  refine (hadd _ (r - 1) (by omega) _).trans ?_
  refine (congrArg (· ^^^ _) (hadd _ l.length (by omega) p)).trans ?_
  rw [stateByte_addFrom hr s l (by omega) hj, if_pos (Nat.zero_le j), Nat.sub_zero,
    BitVec.xor_assoc, BitVec.xor_assoc]

/-- The end of the message can be read from the state: after it there are only zeros and
the last bit of the block. -/
theorem length_le_of_finish_eq (s : KeccakLanes) {p p' : Byte} {l l' : List Byte}
    (hl : l.length < r) (hl' : l'.length < r) (hp : p' ≠ 0)
    (h : (keccakSponge r hr.pos).finish p ((keccakSponge r hr.pos).absorb (s, 0) l) =
      (keccakSponge r hr.pos).finish p' ((keccakSponge r hr.pos).absorb (s, 0) l')) :
    l'.length ≤ l.length := by
  by_contra hlt
  have hle := hr.le
  have hbyte := congrArg (fun s => stateByte s l'.length) h
  simp only [stateByte_finish_short hr s _ hl (show l'.length < 200 by omega),
    stateByte_finish_short hr s _ hl' (show l'.length < 200 by omega),
    BitVec.xor_right_inj] at hbyte
  rw [List.getD_eq_default _ _ (by omega), List.getD_eq_default _ _ le_rfl, if_neg (by omega),
    if_pos trivial, BitVec.xor_right_inj, BitVec.xor_left_inj] at hbyte
  exact hp hbyte.symm

theorem finish_absorb_injective (s : KeccakLanes) {p p' : Byte} {l l' : List Byte}
    (hl : l.length < r) (hl' : l'.length < r) (hp : p ≠ 0) (hp' : p' ≠ 0)
    (h : (keccakSponge r hr.pos).finish p ((keccakSponge r hr.pos).absorb (s, 0) l) =
      (keccakSponge r hr.pos).finish p' ((keccakSponge r hr.pos).absorb (s, 0) l')) :
    l = l' ∧ p = p' := by
  have hle := hr.le
  have hlen : l.length = l'.length := Nat.le_antisymm
    (length_le_of_finish_eq hr s hl' hl hp h.symm) (length_le_of_finish_eq hr s hl hl' hp' h)
  have hbyte : ∀ j < 200, l.getD j 0 ^^^ ((if j = l.length then p else 0) ^^^
      if j = r - 1 then 0x80 else 0) = l'.getD j 0 ^^^ ((if j = l.length then p' else 0) ^^^
      if j = r - 1 then 0x80 else 0) := by
    intro j hj
    have hj' := congrArg (fun s => stateByte s j) h
    simp only [stateByte_finish_short hr s _ hl hj, stateByte_finish_short hr s _ hl' hj,
      BitVec.xor_right_inj, ← hlen] at hj'
    exact hj'
  refine ⟨List.ext_getElem hlen fun j hj hj' => ?_, ?_⟩
  · have hb := hbyte j (by omega)
    rwa [if_neg (Nat.ne_of_lt hj), if_neg (Nat.ne_of_lt hj), BitVec.xor_left_inj,
      List.getD_eq_getElem _ _ hj, List.getD_eq_getElem _ _ hj'] at hb
  · have hb := hbyte l.length (by omega)
    rwa [List.getD_eq_default _ _ le_rfl, List.getD_eq_default _ _ hlen.ge, BitVec.xor_right_inj,
      BitVec.xor_left_inj, if_pos rfl, if_pos rfl] at hb

end Injective

end RrlwrKem
