import RrlwrKem.Library.Residue
import RrlwrKem.Parameters

/-!
# Rounding and compression

The coefficient maps of `poly_round_xtoy`, `poly_compress` and `poly_decompress`,
and the rounding that the fused multiplication applies to its raw accumulator.
All of them see a word only modulo `2^x`: the shifts drop the high bits first.
-/

namespace RrlwrKem

open Word

/-- `poly_round_xtoy` on one coefficient. -/
def roundXtoy (x y : ℕ) (f : U16) : U16 :=
  let c := (toU16 (promote f <<< (16 - x))).signExtend 32
  let c := c.sshiftRight (16 - x)
  let c := c + (1 : U32) <<< (x - (y + 1))
  let c := c.sshiftRight (x - y)
  toU16 (c &&& ((1 : U32) <<< y - 1))

def polyRoundXtoy (f : Poly) (x y : ℕ) : Poly := f.map (roundXtoy x y)

def roundQToPFromU16 (x : U16) : U16 :=
  let c := (toU16 (promote x <<< 3)).signExtend 32
  let c := (c + 16).sshiftRight 5
  toU16 (c &&& 0x7ff)

def polyCompress (r : Poly) (x : ℕ) : Poly := r.map fun c => toU16 (promote c >>> x)

def polyDecompress (r : Poly) (x : ℕ) : Poly := r.map fun c => toU16 (promote c <<< x)

/-- The masked low bits of a word, read as a number. -/
theorem toNat_masked {k : ℕ} (hk : k ≤ 16) {c : U32} {u : ℤ} (h : Carries k c u) :
    ((toU16 (c &&& BitVec.ofNat 32 (2 ^ k - 1))).toNat : ℤ) = u % 2 ^ k := by
  have hlt : (c.setWidth k).toNat < 2 ^ 16 :=
    (c.setWidth k).isLt.trans_le (Nat.pow_le_pow_right (by decide) hk)
  rw [and_mask c (by omega), toU16, BitVec.setWidth_setWidth_of_le _ (by omega),
    BitVec.toNat_setWidth, Nat.mod_eq_of_lt hlt, h.toNat_setWidth]

/-- Shifting up and arithmetically down again keeps the low `x` bits. -/
theorem carries_sign_extended {x : ℕ} (hx : x ≤ 16) (f : U16) :
    Carries x (((toU16 (promote f <<< (16 - x))).signExtend 32).sshiftRight (16 - x)) f.toNat := by
  have h := (((carries_self x f).setWidth (v := 32) (by omega)).shiftLeft (16 - x)
    (by omega)).setWidth (v := 16) (by omega)
  exact (h.signExtend (by omega) (by omega)).sshiftRight (by omega)

theorem carries_one_shiftLeft {k n : ℕ} (hk : k ≤ 32) :
    Carries k ((1 : U32) <<< n) (2 ^ n) := by
  rw [carries_iff_residue, residue_shiftLeft hk,
    show (1 : U32) = BitVec.ofNat 32 1 from rfl, residue_ofNat hk]
  push_cast
  ring

/-- Rounding adds half a unit and divides, whatever the bits above `2^x` are. -/
theorem roundXtoy_toNat {x y : ℕ} (hy : y < x) (hx : x ≤ 16) (f : U16) :
    ((roundXtoy x y f).toNat : ℤ) =
      (f.toNat + 2 ^ (x - (y + 1))) / 2 ^ (x - y) % 2 ^ y := by
  have hsum := (carries_sign_extended hx f).add
    (carries_one_shiftLeft (n := x - (y + 1)) (by omega)) (by omega)
  obtain ⟨d, rfl⟩ := Nat.exists_eq_add_of_lt hy
  have hshift : y + d + 1 - y = d + 1 := by omega
  have hfloor := Carries.sshiftRight_floor (k := y) (n := d + 1) hsum (by omega)
  have h := toNat_masked (by omega) hfloor
  rw [← mask_eq] at h
  rw [← hshift] at h
  exact h

/-- The fused rounding is the one from `q = 2^13` to `p = 2^11`. -/
theorem roundQToPFromU16_toNat (x : U16) :
    ((roundQToPFromU16 x).toNat : ℤ) = (x.toNat + 2) / 4 % 2 ^ 11 := by
  have h := (((carries_self 13 x).setWidth (v := 32) (by decide)).shiftLeft 3
    (by decide)).setWidth (v := 16) (by decide)
  have hsum := (h.signExtend (v := 32) (by decide) (by decide)).add
    (carries_one_shiftLeft (n := 4) (by decide)) (by decide)
  have hfloor := Carries.sshiftRight_floor (k := 11) (n := 5) hsum (by decide)
  refine (toNat_masked (by decide) hfloor).trans ?_
  congr 1
  omega

theorem roundQToPFromU16_eq (x : U16) : roundQToPFromU16 x = roundXtoy 13 11 x := by
  have h1 := roundQToPFromU16_toNat x
  have h2 := roundXtoy_toNat (x := 13) (y := 11) (by decide) (by decide) x
  apply BitVec.eq_of_toNat_eq
  norm_num at h1 h2
  omega

end RrlwrKem
