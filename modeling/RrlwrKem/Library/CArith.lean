import Mathlib.Tactic

/-!
# Integer arithmetic of C

Expressions over a 32-bit `int` in two's complement and a 32-bit `unsigned int`,
with the integer promotions and the usual arithmetic conversions, evaluated with a
check: an operation without a defined result has none. Narrower unsigned operands
are promoted to `int`. `Within` bounds the value of an `int` expression and `Narrow`
the bits of either type; their rules show that an expression is defined and what
word it computes.
-/

namespace CArith

/-- The two types that operands have after promotion. -/
inductive CType where
  | int
  | uint
  deriving DecidableEq, Repr

/-- The common type of two operands: `int` only if both are. -/
def CType.join : CType → CType → CType
  | int, t => t
  | uint, _ => uint

/-- What a left shift of a negative `int` is: an error, or a multiplication. -/
inductive Reading where
  | strict
  | lenient
  deriving DecidableEq, Repr

structure Value where
  type : CType
  bits : BitVec 32
  deriving DecidableEq, Repr

/-- The value of an expression, if every operation in it is defined. -/
def Expr (_ : Reading) := Option Value

namespace Expr

variable {ρ : Reading}

/-- A binary operation, an error if both operands are `int` and `overflow` holds. -/
def binary (overflow : BitVec 32 → BitVec 32 → Bool) (f : BitVec 32 → BitVec 32 → BitVec 32)
    (e e' : Expr ρ) : Expr ρ :=
  Option.bind e fun v => Option.bind e' fun v' =>
    let t := v.type.join v'.type
    if t = .int ∧ overflow v.bits v'.bits then none else some ⟨t, f v.bits v'.bits⟩

instance : Add (Expr ρ) := ⟨binary BitVec.saddOverflow (· + ·)⟩

instance : Sub (Expr ρ) := ⟨binary BitVec.ssubOverflow (· - ·)⟩

instance : AndOp (Expr ρ) := ⟨binary (fun _ _ => false) (· &&& ·)⟩

instance : OrOp (Expr ρ) := ⟨binary (fun _ _ => false) (· ||| ·)⟩

/-- A constant is an `int`. -/
def lit (n : ℕ) : Expr ρ := some ⟨.int, BitVec.ofNat 32 n⟩

instance (n : ℕ) : OfNat (Expr ρ) n := ⟨lit n⟩

/-- A left shift. Its count is checked, and for an `int` that the result is
representable; in the strict reading also that the operand is not negative. -/
def shiftLeft (e : Expr ρ) (n : ℕ) : Expr ρ := Option.bind e fun v =>
  let r := v.bits.toInt * 2 ^ n
  if n < 32 ∧ (v.type = .int → (ρ = .strict → 0 ≤ v.bits.toInt) ∧ -2 ^ 31 ≤ r ∧ r < 2 ^ 31) then
    some ⟨v.type, v.bits <<< n⟩
  else none

/-- A right shift, arithmetic on `int`. -/
def shiftRight (e : Expr ρ) (n : ℕ) : Expr ρ := Option.bind e fun v =>
  if n < 32 then
    match v.type with
    | .int => some ⟨.int, v.bits.sshiftRight n⟩
    | .uint => some ⟨.uint, v.bits >>> n⟩
  else none

instance : HShiftLeft (Expr ρ) ℕ (Expr ρ) := ⟨shiftLeft⟩

instance : HShiftRight (Expr ρ) ℕ (Expr ρ) := ⟨shiftRight⟩

/-- A shift by an `int`, which may be negative. -/
instance : HShiftLeft (Expr ρ) ℤ (Expr ρ) :=
  ⟨fun e n => if 0 ≤ n then shiftLeft e n.toNat else none⟩

instance : HShiftRight (Expr ρ) ℤ (Expr ρ) :=
  ⟨fun e n => if 0 ≤ n then shiftRight e n.toNat else none⟩

/-- An `unsigned int` variable. -/
def ofU32 (x : BitVec 32) : Expr ρ := some ⟨.uint, x⟩

/-- A `uint16_t` variable, promoted. -/
def ofU16 (x : BitVec 16) : Expr ρ := some ⟨.int, x.setWidth 32⟩

/-- An `unsigned char` that was loaded, promoted. -/
def ofU8 (x : Option (BitVec 8)) : Expr ρ := x.map fun x => ⟨.int, x.setWidth 32⟩

/-- An expression in which some operation is undefined. -/
def undefined : Expr ρ := none

/-- The cast `(uint32_t)`. -/
def toUint (e : Expr ρ) : Expr ρ := Option.map (fun v => ⟨.uint, v.bits⟩) e

/-- Conversion to `uint32_t` when stored. -/
def toU32 (e : Expr ρ) : Option (BitVec 32) := Option.map Value.bits e

/-- Conversion to `uint16_t` when stored. -/
def toU16 (e : Expr ρ) : Option (BitVec 16) := Option.map (fun v => v.bits.setWidth 16) e

/-- Conversion to `unsigned char` when stored. -/
def toU8 (e : Expr ρ) : Option (BitVec 8) := Option.map (fun v => v.bits.setWidth 8) e

end Expr

open CArith.Expr

variable {ρ : Reading} {t t' : CType} {e e' : Expr ρ} {x y : BitVec 32} {lo hi lo' hi' : ℤ}
  {n m : ℕ}

/-- The expression is defined; an `int` lies between the bounds. -/
structure Within (t : CType) (e : Expr ρ) (x : BitVec 32) (lo hi : ℤ) : Prop where
  eval : e = some ⟨t, x⟩
  bounds : t = .int → lo ≤ x.toInt ∧ x.toInt ≤ hi

/-- The expression is defined and has `n` bits; an `int` has none in its sign. -/
structure Narrow (t : CType) (e : Expr ρ) (x : BitVec 32) (n : ℕ) : Prop where
  eval : e = some ⟨t, x⟩
  lt : x.toNat < 2 ^ n
  le : t = .int → n ≤ 31

section Undefined

/-- An undefined operand makes the whole operation undefined. -/
theorem binary_undefined (overflow : BitVec 32 → BitVec 32 → Bool)
    (f : BitVec 32 → BitVec 32 → BitVec 32) (e : Expr ρ) :
    binary overflow f e undefined = undefined := by
  cases e <;> rfl

@[simp] theorem undefined_add (e : Expr ρ) : undefined + e = undefined := rfl

@[simp] theorem sub_undefined (e : Expr ρ) : e - undefined = undefined := binary_undefined _ _ e

@[simp] theorem undefined_and (e : Expr ρ) : undefined &&& e = undefined := rfl

@[simp] theorem undefined_or (e : Expr ρ) : undefined ||| e = undefined := rfl

@[simp] theorem or_undefined (e : Expr ρ) : e ||| undefined = undefined := binary_undefined _ _ e

@[simp] theorem undefined_shl (k : ℕ) : (undefined : Expr ρ) <<< k = undefined := rfl

@[simp] theorem undefined_shr (k : ℕ) : (undefined : Expr ρ) >>> k = undefined := rfl

@[simp] theorem toU8_undefined : (undefined : Expr ρ).toU8 = none := rfl

end Undefined

section Rules

theorem CType.join_eq_int (h : t.join t' = .int) : t = .int ∧ t' = .int := by
  cases t <;> cases t' <;> simp_all [CType.join]

theorem binary_eval {overflow : BitVec 32 → BitVec 32 → Bool}
    {f : BitVec 32 → BitVec 32 → BitVec 32} (h : e = some ⟨t, x⟩) (h' : e' = some ⟨t', y⟩)
    (hok : t.join t' = .int → overflow x y = false) :
    binary overflow f e e' = some ⟨t.join t', f x y⟩ := by
  subst h h'
  have hcheck : ¬ (t.join t' = .int ∧ overflow x y = true) := by
    rintro ⟨ht, hover⟩
    rw [hok ht] at hover
    exact Bool.false_ne_true hover
  exact if_neg hcheck

theorem within_lit (n : ℕ) (hn : n < 2 ^ 31) :
    Within .int (lit n : Expr ρ) (BitVec.ofNat 32 n) n n := by
  refine ⟨rfl, fun _ => ?_⟩
  have h : (BitVec.ofNat 32 n).toInt = n := by
    rw [BitVec.toInt_eq_toNat_of_lt] <;> rw [BitVec.toNat_ofNat] <;> omega
  exact ⟨h.ge, h.le⟩

/-- A word of fewer than 31 bits is its own value as an `int`. -/
theorem toInt_of_lt (hn : n ≤ 31) (h : x.toNat < 2 ^ n) :
    x.toInt = x.toNat ∧ (x.toNat : ℤ) ≤ 2 ^ n - 1 := by
  have hle : 2 ^ n ≤ 2 ^ 31 := Nat.pow_le_pow_right (by norm_num) hn
  have hcast : (x.toNat : ℤ) < 2 ^ n := by exact_mod_cast h
  exact ⟨BitVec.toInt_eq_toNat_of_lt (by omega), by omega⟩

namespace Within

theorem mono (h : Within t e x lo hi) (hlo : lo' ≤ lo) (hhi : hi ≤ hi') :
    Within t e x lo' hi' where
  eval := h.eval
  bounds ht := ⟨hlo.trans (h.bounds ht).1, (h.bounds ht).2.trans hhi⟩

theorem add (h : Within t e x lo hi) (h' : Within t' e' y lo' hi')
    (hr : -2 ^ 31 ≤ lo + lo' ∧ hi + hi' < 2 ^ 31) :
    Within (t.join t') (e + e') (x + y) (lo + lo') (hi + hi') := by
  have hok : t.join t' = .int → BitVec.saddOverflow x y = false := by
    intro ht
    obtain ⟨ht, ht'⟩ := CType.join_eq_int ht
    have hx := h.bounds ht
    have hy := h'.bounds ht'
    rw [BitVec.saddOverflow, Bool.or_eq_false_iff, decide_eq_false_iff_not,
      decide_eq_false_iff_not]
    omega
  refine ⟨binary_eval h.eval h'.eval hok, fun ht => ?_⟩
  have hsum := BitVec.toInt_add_of_not_saddOverflow (by rw [hok ht]; exact Bool.false_ne_true)
  obtain ⟨ht, ht'⟩ := CType.join_eq_int ht
  have hx := h.bounds ht
  have hy := h'.bounds ht'
  omega

theorem sub (h : Within t e x lo hi) (h' : Within t' e' y lo' hi')
    (hr : -2 ^ 31 ≤ lo - hi' ∧ hi - lo' < 2 ^ 31) :
    Within (t.join t') (e - e') (x - y) (lo - hi') (hi - lo') := by
  have hok : t.join t' = .int → BitVec.ssubOverflow x y = false := by
    intro ht
    obtain ⟨ht, ht'⟩ := CType.join_eq_int ht
    have hx := h.bounds ht
    have hy := h'.bounds ht'
    rw [BitVec.ssubOverflow, Bool.or_eq_false_iff, decide_eq_false_iff_not,
      decide_eq_false_iff_not]
    omega
  refine ⟨binary_eval h.eval h'.eval hok, fun ht => ?_⟩
  have hdiff := BitVec.toInt_sub_of_not_ssubOverflow (by rw [hok ht]; exact Bool.false_ne_true)
  obtain ⟨ht, ht'⟩ := CType.join_eq_int ht
  have hx := h.bounds ht
  have hy := h'.bounds ht'
  omega

/-- A mask of `n` bits leaves `n` bits, whatever the sign of the operand. -/
theorem and (h : Within t e x lo hi) (h' : Narrow t' e' y n) :
    Narrow (t.join t') (e &&& e') (x &&& y) n where
  eval := binary_eval h.eval h'.eval fun _ => rfl
  lt := by
    rw [BitVec.toNat_and]
    exact Nat.and_lt_two_pow _ h'.lt
  le ht := h'.le (CType.join_eq_int ht).2

theorem toInt_shiftLeft (x : BitVec 32) (n : ℕ) (hlo : -2 ^ 31 ≤ x.toInt * 2 ^ n)
    (hhi : x.toInt * 2 ^ n < 2 ^ 31) : (x <<< n).toInt = x.toInt * 2 ^ n := by
  have hmod : (x <<< n).toInt = (x.toInt * 2 ^ n).bmod (2 ^ 32) := by
    rw [BitVec.toInt_shiftLeft, BitVec.toInt_eq_toNat_bmod, Nat.shiftLeft_eq, Int.bmod_mul_bmod]
    push_cast
    rfl
  rw [hmod, Int.bmod_eq_of_le] <;> omega

/-- A left shift that stays in range; the strict reading wants an operand that is not
negative. -/
theorem shl (h : Within t e x lo hi) (k : ℕ) (hneg : t = .int → ρ = .strict → 0 ≤ lo)
    (hk : k < 32) (hlo : -2 ^ 31 ≤ lo * 2 ^ k) (hhi : hi * 2 ^ k < 2 ^ 31) :
    Within t (e <<< k) (x <<< k) (lo * 2 ^ k) (hi * 2 ^ k) := by
  have hrange : t = .int → lo * 2 ^ k ≤ x.toInt * 2 ^ k ∧ x.toInt * 2 ^ k ≤ hi * 2 ^ k := by
    intro ht
    obtain ⟨hx, hx'⟩ := h.bounds ht
    exact ⟨mul_le_mul_of_nonneg_right hx (by positivity),
      mul_le_mul_of_nonneg_right hx' (by positivity)⟩
  constructor
  · obtain ⟨rfl, hb⟩ := h
    refine if_pos ⟨hk, fun ht => ⟨fun hρ => (hneg ht hρ).trans (hb ht).1, ?_⟩⟩
    have hr := hrange ht
    simp only
    omega
  · intro ht
    have hr := hrange ht
    rw [toInt_shiftLeft x k (by omega) (by omega)]
    exact hr

/-- In the strict reading a negative `int` has no left shift. -/
theorem shl_negative (h : Within .int e x lo hi) (hhi : hi < 0) (hρ : ρ = .strict) (k : ℕ) :
    e <<< k = undefined := by
  obtain ⟨rfl, hb⟩ := h
  refine if_neg ?_
  rintro ⟨-, hcheck⟩
  have hx := (hcheck rfl).1 hρ
  have hx' := (hb rfl).2
  simp only at hx
  omega

end Within

namespace Narrow

theorem within (h : Narrow t e x n) : Within t e x 0 (2 ^ n - 1) where
  eval := h.eval
  bounds ht := by
    obtain ⟨hx, hle⟩ := toInt_of_lt (h.le ht) h.lt
    omega

theorem lt_mono (h : Narrow t e x n) (hm : n ≤ m) : x.toNat < 2 ^ m :=
  h.lt.trans_le (Nat.pow_le_pow_right (by norm_num) hm)

theorem mono (h : Narrow t e x n) (hm : n ≤ m) (hm' : m ≤ 31) : Narrow t e x m where
  eval := h.eval
  lt := h.lt_mono hm
  le _ := hm'

theorem and (h : Narrow t e x n) (h' : Narrow t' e' y m) :
    Narrow (t.join t') (e &&& e') (x &&& y) m where
  eval := binary_eval h.eval h'.eval fun _ => rfl
  lt := by
    rw [BitVec.toNat_and]
    exact Nat.and_lt_two_pow _ h'.lt
  le ht := h'.le (CType.join_eq_int ht).2

theorem or (h : Narrow t e x n) (h' : Narrow t' e' y m) :
    Narrow (t.join t') (e ||| e') (x ||| y) (max n m) where
  eval := binary_eval h.eval h'.eval fun _ => rfl
  lt := by
    rw [BitVec.toNat_or]
    exact Nat.or_lt_two_pow (h.lt_mono (le_max_left n m)) (h'.lt_mono (le_max_right n m))
  le ht := max_le (h.le (CType.join_eq_int ht).1) (h'.le (CType.join_eq_int ht).2)

theorem add (h : Narrow t e x n) (h' : Narrow t' e' y m) (hnm : max n m ≤ 30) :
    Narrow (t.join t') (e + e') (x + y) (max n m + 1) := by
  have hx := h.lt_mono (le_max_left n m)
  have hy := h'.lt_mono (le_max_right n m)
  have hle : 2 ^ max n m ≤ 2 ^ 30 := Nat.pow_le_pow_right (by norm_num) hnm
  obtain ⟨hxi, -⟩ := toInt_of_lt (by omega) h.lt
  obtain ⟨hyi, -⟩ := toInt_of_lt (by omega) h'.lt
  refine ⟨binary_eval h.eval h'.eval fun _ => ?_, ?_, fun _ => by omega⟩
  · rw [BitVec.saddOverflow, Bool.or_eq_false_iff, decide_eq_false_iff_not,
      decide_eq_false_iff_not]
    omega
  · rw [BitVec.toNat_add, Nat.mod_eq_of_lt (by omega), pow_succ]
    omega

theorem shl (h : Narrow t e x n) (k : ℕ) (hn : n + k ≤ 31) :
    Narrow t (e <<< k) (x <<< k) (n + k) := by
  have hlt : x.toNat * 2 ^ k < 2 ^ (n + k) := by
    rw [pow_add]
    exact Nat.mul_lt_mul_of_pos_right h.lt (Nat.two_pow_pos k)
  have hle : 2 ^ (n + k) ≤ 2 ^ 31 := Nat.pow_le_pow_right (by norm_num) hn
  obtain ⟨hx, -⟩ := toInt_of_lt (by omega) h.lt
  refine ⟨?_, ?_, fun _ => hn⟩
  · obtain ⟨rfl, -⟩ := h
    refine if_pos ⟨by omega, fun _ => ⟨fun _ => ?_, ?_⟩⟩
    · simp only [hx]
      positivity
    · have hcast : (x.toNat : ℤ) * 2 ^ k < 2 ^ 31 := by exact_mod_cast hlt.trans_le hle
      simp only [hx]
      refine ⟨?_, hcast⟩
      have : (0 : ℤ) ≤ x.toNat * 2 ^ k := by positivity
      omega
  · rw [BitVec.toNat_shiftLeft, Nat.shiftLeft_eq, Nat.mod_eq_of_lt (by omega)]
    exact hlt

/-- On a word that is not negative the arithmetic shift is the logical one. -/
theorem shr (h : Narrow t e x n) (k : ℕ) (hk : k < 32) :
    Narrow t (e >>> k) (x >>> k) (n - k) := by
  refine ⟨?_, ?_, fun ht => (Nat.sub_le n k).trans (h.le ht)⟩
  · obtain ⟨rfl, hlt, hle⟩ := h
    refine (if_pos hk).trans ?_
    cases t with
    | int =>
      obtain ⟨hx, -⟩ := toInt_of_lt (hle rfl) hlt
      have hmsb : x.msb = false := by
        rw [BitVec.msb_eq_toInt, decide_eq_false_iff_not]
        omega
      exact congrArg (fun y => some (Value.mk .int y)) (BitVec.sshiftRight_eq_of_msb_false hmsb)
    | uint => rfl
  · rw [BitVec.toNat_ushiftRight, Nat.shiftRight_eq_div_pow, Nat.div_lt_iff_lt_mul (by positivity),
      ← pow_add]
    exact h.lt.trans_le (Nat.pow_le_pow_right (by norm_num) (by omega))

/-- The high bits of one operand below the low bits of the next. -/
theorem shr_or_shl (h : Narrow t e x n) (h' : Narrow t' e' y m) (j k : ℕ)
    (hjk : j < 32 ∧ m + k ≤ 31) : Narrow (t.join t') (e >>> j ||| e' <<< k)
      (x >>> j ||| y <<< k) (max (n - j) (m + k)) :=
  (h.shr j hjk.1).or (h'.shl k hjk.2)

theorem toUint (h : Narrow t e x n) : Narrow .uint e.toUint x n := by
  obtain ⟨rfl, hlt, -⟩ := h
  exact ⟨rfl, hlt, nofun⟩

theorem toU8 (h : Narrow t e x n) : e.toU8 = some (x.setWidth 8) := by
  obtain ⟨rfl, -⟩ := h
  rfl

theorem toU16 (h : Narrow t e x n) : e.toU16 = some (x.setWidth 16) := by
  obtain ⟨rfl, -⟩ := h
  rfl

theorem toU32 (h : Narrow t e x n) : e.toU32 = some x := by
  obtain ⟨rfl, -⟩ := h
  rfl

end Narrow

theorem narrow_lit (n k : ℕ) (hn : n < 2 ^ k ∧ k ≤ 31) :
    Narrow .int (lit n : Expr ρ) (BitVec.ofNat 32 n) k :=
  ⟨rfl, by rw [BitVec.toNat_ofNat]; exact (Nat.mod_le _ _).trans_lt hn.1, fun _ => hn.2⟩

theorem narrow_ofU16 (x : BitVec 16) : Narrow .int (ofU16 x : Expr ρ) (x.setWidth 32) 16 := by
  refine ⟨rfl, ?_, fun _ => by omega⟩
  rw [BitVec.toNat_setWidth]
  omega

theorem narrow_ofU8 (x : BitVec 8) : Narrow .int (ofU8 (some x) : Expr ρ) (x.setWidth 32) 8 := by
  refine ⟨rfl, ?_, fun _ => by omega⟩
  rw [BitVec.toNat_setWidth]
  omega

theorem narrow_ofU32 (x : BitVec 32) : Narrow .uint (ofU32 x : Expr ρ) x 32 := ⟨rfl, x.isLt, nofun⟩

/-- An `unsigned int` shifts right whatever its value. -/
theorem ofU32_shr (x : BitVec 32) {k : ℕ} (hk : k < 32) :
    (ofU32 x >>> k : Expr ρ) = ofU32 (x >>> k) := if_pos hk

theorem shiftLeft_int (e : Expr ρ) {n : ℤ} {k : ℕ} (h : n = k) : e <<< n = e <<< k := by
  subst h
  exact if_pos (Int.natCast_nonneg k)

theorem shiftRight_int (e : Expr ρ) {n : ℤ} {k : ℕ} (h : n = k) : e >>> n = e >>> k := by
  subst h
  exact if_pos (Int.natCast_nonneg k)

/-- The mask `(1 << n) - 1`. -/
theorem narrow_lowMask (hn : n ≤ 30) :
    Narrow .int ((1 : Expr ρ) <<< n - 1) ((1 : BitVec 32) <<< n - 1) n := by
  have hshift : Narrow .int ((1 : Expr ρ) <<< n) ((1 : BitVec 32) <<< n) (1 + n) :=
    (narrow_lit 1 1 (by omega)).shl n (by omega)
  have hle : 2 ^ n ≤ 2 ^ 30 := Nat.pow_le_pow_right (by norm_num) hn
  have hpos := Nat.two_pow_pos n
  have hone : Narrow .int ((1 : Expr ρ) <<< n) ((1 : BitVec 32) <<< n) 31 :=
    hshift.mono (by omega) le_rfl
  refine ⟨(hone.within.sub (within_lit 1 (by omega)) (by omega)).eval, ?_, fun _ => by omega⟩
  have hval : ((1 : BitVec 32) <<< n).toNat = 2 ^ n := by
    rw [BitVec.toNat_shiftLeft, Nat.shiftLeft_eq, show (1 : BitVec 32).toNat = 1 from rfl, one_mul,
      Nat.mod_eq_of_lt (by omega)]
  rw [BitVec.toNat_sub, hval, show (1 : BitVec 32).toNat = 1 from rfl]
  omega

/-- Masking with a constant keeps the type. -/
theorem Narrow.mask (h : Narrow t e x n) (a k : ℕ) (ha : a < 2 ^ k ∧ k ≤ 31) :
    Narrow t (e &&& lit a) (x &&& BitVec.ofNat 32 a) k := by
  have hand := h.and (narrow_lit a k ha)
  cases t <;> exact hand

/-- A constant minus an operand that may exceed it, under a mask. -/
theorem Narrow.sub_masked (h : Narrow t e x m) (c : ℕ) (hc : c < 2 ^ 30 ∧ m ≤ 30)
    (h' : Narrow t' e' y n) : Narrow ((CType.int.join t).join t') ((lit c - e) &&& e')
      ((BitVec.ofNat 32 c - x) &&& y) n := by
  have hle : (2 : ℤ) ^ m ≤ 2 ^ 30 := pow_le_pow_right₀ (by norm_num) hc.2
  have hpos : (0 : ℤ) < 2 ^ m := by positivity
  exact ((within_lit c (by omega)).sub h.within (by omega)).and h'

end Rules

end CArith
