import Mathlib.Tactic

/-!
# Parameters and data of the RRLWR KEM

The three security levels of `parameters.h` with the lengths derived from them,
and the types that stand for the C data. The ring degree 128, `LOGQ = 13`,
`LOGP = 11` and `LOG_ETA = 1` are the same at every level and are written as
numerals.
-/

namespace RrlwrKem

/-- `unsigned char`. -/
abbrev Byte := BitVec 8

/-- `uint16_t`. -/
abbrev U16 := BitVec 16

/-- `uint32_t`, and `int` in two's complement; `>>` on a signed operand is
`BitVec.sshiftRight`. -/
abbrev U32 := BitVec 32

/-- `poly`, and the accumulators `uint16_t acc[RRLWR_N]`. -/
abbrev Poly := Vector U16 128

/-- `ring_element`: one polynomial for each power of `y`. -/
abbrev RingElement (K : ℕ) := Vector Poly K

/-- `ring_element_Awin`: the `2K-1` rows of the multiplication window. -/
abbrev RingElementAwin (K : ℕ) := Vector Poly (2 * K - 1)

/-- An operand of `uint16_t` in a 32-bit expression. -/
abbrev promote (x : U16) : U32 := x.setWidth 32

/-- An operand of `unsigned char` in a 32-bit expression. -/
abbrev promoteByte (x : Byte) : U32 := x.setWidth 32

/-- The cast `(uint16_t)`. -/
abbrev toU16 (x : U32) : U16 := x.setWidth 16

/-- The cast `(unsigned char)`. -/
abbrev toByte (x : U32) : Byte := x.setWidth 8

/-- The values of `RRLWR_SECURITY_LEVEL`. -/
inductive SecurityLevel where
  | level128
  | level256
  | level512
  deriving DecidableEq, Repr

namespace SecurityLevel

/-- `RRLWR_K`, the degree in `y`. -/
def k : SecurityLevel → ℕ
  | level128 => 5
  | level256 => 9
  | level512 => 17

/-- `RRLWR_PKE_ELL`, the number of message polynomials. -/
def ell : SecurityLevel → ℕ
  | level128 => 1
  | level256 => 2
  | level512 => 4

/-- `RRLWR_PKE_LOGT`, the bits kept of a compressed coefficient. -/
def logt : SecurityLevel → ℕ
  | level128 => 3
  | level256 => 3
  | level512 => 8

/-- `RRLWR_PKE_MESSAGE_LEN`. -/
def messageLen (P : SecurityLevel) : ℕ := P.ell * 16

/-- `RRLWR_PKE_SK_LEN`. -/
def skLen (P : SecurityLevel) : ℕ := P.k * 32

/-- `RRLWR_PKE_PK_LEN`. -/
def pkLen (P : SecurityLevel) : ℕ := 64 + P.k * 176

/-- `RRLWR_PKE_PACKED_POLYT_LEN`. -/
def packedPolyTLen (P : SecurityLevel) : ℕ := P.logt * 16

/-- `RRLWR_PKE_CT_LEN`. -/
def ctLen (P : SecurityLevel) : ℕ := P.ell * P.packedPolyTLen + P.k * 176

/-- `RRLWR_KEM_HPK_LEN`. -/
abbrev hpkLen (P : SecurityLevel) : ℕ := P.messageLen

/-- `RRLWR_KEM_SEED_Z_LEN`. -/
abbrev seedZLen (P : SecurityLevel) : ℕ := P.messageLen

/-- `RRLWR_KEM_SS_LEN`. -/
abbrev ssLen (P : SecurityLevel) : ℕ := P.messageLen

/-- `RRLWR_KEM_SK_LEN`: the PKE secret key, the public key, its hash and the
rejection secret. -/
def kemSkLen (P : SecurityLevel) : ℕ := P.skLen + P.pkLen + P.hpkLen + P.seedZLen

theorem k_pos (P : SecurityLevel) : 0 < P.k := by cases P <;> decide

instance (P : SecurityLevel) : NeZero P.k := ⟨P.k_pos.ne'⟩

theorem ell_le_k (P : SecurityLevel) : P.ell ≤ P.k := by cases P <;> decide

/-- The row of a product that message polynomial `out` comes from. -/
theorem row_lt (P : SecurityLevel) (out : Fin P.ell) : P.k - P.ell + out.val < P.k := by
  have h := P.ell_le_k
  omega

/-- The packed length as the packers count it. -/
theorem packedPolyTLen_eq (P : SecurityLevel) : P.packedPolyTLen = 16 * P.logt :=
  Nat.mul_comm _ _

/-- The two widths that the ciphertext packers are written for. -/
theorem logt_cases (P : SecurityLevel) : P.logt = 3 ∨ P.logt = 8 := by cases P <;> decide

end SecurityLevel

end RrlwrKem
