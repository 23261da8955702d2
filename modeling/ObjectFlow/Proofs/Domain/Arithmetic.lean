/-
  File:      ObjectFlow/Proofs/Domain/Arithmetic.lean
  Subject:   WHAT THE OPERATORS OF THE LANGUAGE MEAN, said of integers, and that folding two
             constants computes it.

  The meaning is that of the unbounded integers, cut to 32 bits: division goes toward zero, shift
  distances count by their low five bits, and a divisor of zero gives nothing.
-/
import Mathlib.Algebra.Group.Int.Defs
import ObjectFlow.Proofs.Domain.ConstOrder

namespace ObjectFlow

namespace BinaryOp

/-! ## 1. Meaning -/

/-- The low five bits of a shift distance. -/
def distance (b : Int32) : Nat := (b.toInt % 32).toNat

/-- One for true, zero for false. -/
def truth (b : Bool) : Int32 := if b then 1 else 0

/-- What an operator gives on two integers. -/
def compute (op : BinaryOp) (a b : Int32) : Option Int32 :=
  match op with
  | add => some (.ofInt (a.toInt + b.toInt))
  | sub => some (.ofInt (a.toInt - b.toInt))
  | mul => some (.ofInt (a.toInt * b.toInt))
  | div => if b.toInt = 0 then none else some (.ofInt (a.toInt.tdiv b.toInt))
  | rem => if b.toInt = 0 then none else some (.ofInt (a.toInt.tmod b.toInt))
  | and => some (a &&& b)
  | or => some (a ||| b)
  | xor => some (a ^^^ b)
  | shl => some (.ofInt (a.toInt * 2 ^ distance b))
  | shr => some (.ofInt (a.toInt / 2 ^ distance b))
  | ushr => some (.ofInt (a.toInt % 2 ^ 32 / 2 ^ distance b))
  | eq => some (truth (a.toInt == b.toInt))
  | ne => some (truth (a.toInt != b.toInt))
  | lt => some (truth (a.toInt < b.toInt))
  | gt => some (truth (b.toInt < a.toInt))
  | le => some (truth (a.toInt ≤ b.toInt))
  | ge => some (truth (b.toInt ≤ a.toInt))

/-! ## 2. Shifts -/

theorem toNat_toBitVec (a : Int32) : (a.toBitVec.toNat : Int) = a.toInt % 2 ^ 32 := by
  have hcond : a.toInt = _ := BitVec.toInt_eq_toNat_cond a.toBitVec
  have hlt := a.toBitVec.isLt
  rw [hcond]
  split <;> omega

theorem toNat_smod (b : Int32) : (b.toBitVec.smod 32).toNat = distance b := by
  have hint : (b.toBitVec.smod 32).toInt = b.toInt % 32 := by
    rw [BitVec.toInt_smod]
    exact Int.fmod_eq_emod_of_nonneg _ (by decide)
  have hcond := BitVec.toInt_eq_toNat_cond (b.toBitVec.smod 32)
  rw [hint] at hcond
  unfold distance
  split at hcond <;> omega

theorem shiftLeft_eq (a b : Int32) : a <<< b = .ofInt (a.toInt * 2 ^ distance b) := by
  rw [← Int32.toBitVec_inj, Int32.toBitVec_shiftLeft, Int32.toBitVec_ofInt, BitVec.shiftLeft_eq',
    toNat_smod]
  apply BitVec.eq_of_toInt_eq
  have ha : a.toInt = (a.toBitVec.toNat : Int).bmod (2 ^ 32) := BitVec.toInt_eq_toNat_bmod _
  rw [BitVec.toInt_shiftLeft, BitVec.toInt_ofInt, Nat.shiftLeft_eq, ha, Int.bmod_mul_bmod]
  push_cast
  rfl

theorem shiftRight_eq (a b : Int32) : a >>> b = .ofInt (a.toInt / 2 ^ distance b) := by
  rw [← Int32.toBitVec_inj, Int32.toBitVec_shiftRight, Int32.toBitVec_ofInt, BitVec.sshiftRight',
    toNat_smod, BitVec.sshiftRight_eq, Int.shiftRight_eq_div_pow]
  rfl

theorem unsignedShift_eq (a b : Int32) :
    (a.toUInt32 >>> b.toUInt32).toInt32 = .ofInt (a.toInt % 2 ^ 32 / 2 ^ distance b) := by
  have hdistance : (b.toUInt32.toBitVec % 32).toNat = distance b := by
    have hb := toNat_toBitVec b
    unfold distance
    rw [BitVec.toNat_umod]
    show b.toBitVec.toNat % 32 = _
    omega
  have hcast : ((a.toBitVec.toNat : Int) / 2 ^ distance b) =
      (a.toBitVec.toNat / 2 ^ distance b : Nat) := by
    push_cast
    rfl
  rw [← Int32.toBitVec_inj, Int32.toBitVec_ofInt, ← toNat_toBitVec, hcast, BitVec.ofInt_natCast]
  show (a.toUInt32 >>> b.toUInt32).toBitVec = _
  rw [UInt32.toBitVec_shiftRight, BitVec.ushiftRight_eq', hdistance]
  apply BitVec.eq_of_toNat_eq
  rw [BitVec.toNat_ushiftRight, Nat.shiftRight_eq_div_pow, BitVec.toNat_ofNat]
  exact (Nat.mod_eq_of_lt (lt_of_le_of_lt (Nat.div_le_self _ _) a.toBitVec.isLt)).symm

/-! ## 3. Folding -/

theorem toInt_beq (a b : Int32) : (a.toInt == b.toInt) = (a == b) := by
  by_cases h : a = b
  · simp [h]
  · simp [h, Int32.toInt_inj]

theorem toInt_lt (a b : Int32) : decide (a.toInt < b.toInt) = decide (a < b) :=
  decide_eq_decide.mpr Int32.lt_iff_toInt_lt.symm

theorem toInt_le (a b : Int32) : decide (a.toInt ≤ b.toInt) = decide (a ≤ b) :=
  decide_eq_decide.mpr Int32.le_iff_toInt_le.symm

theorem ofInt_tdiv (a b : Int32) : Int32.ofInt (a.toInt.tdiv b.toInt) = a / b := by
  rw [← Int32.toInt_inj, Int32.toInt_ofInt, Int32.toInt_div]

theorem ofInt_tmod (a b : Int32) : Int32.ofInt (a.toInt.tmod b.toInt) = a % b := by
  rw [← Int32.toInt_mod, Int32.ofInt_toInt]

/-- The operators that stop at a divisor of zero fold as the others do elsewhere. -/
theorem divide_const (op : Int32 → Int32 → Int32) (a : Int32) {b : Int32} (hb : b.toInt ≠ 0) :
    ConstValue.divide op (.const a) (.const b) = .const (op a b) := by
  have hzero : ¬ ConstValue.const b = .const 0 := by
    intro h
    cases h
    exact hb rfl
  rw [ConstValue.divide, if_neg hzero]
  rfl

/-- **Folding two constants computes the operator**, where it gives anything. -/
theorem eval_const {op : BinaryOp} {a b c : Int32} (h : op.compute a b = some c) :
    op.eval (.const a) (.const b) = .const c := by
  have hdivides : ∀ {d : Int32}, (if b.toInt = 0 then none else some d) = some c →
      b.toInt ≠ 0 ∧ d = c := by
    intro d hd
    split at hd
    · cases hd
    · exact ⟨by assumption, Option.some.inj hd⟩
  cases op with
  | div =>
    obtain ⟨hb, rfl⟩ := hdivides h
    rw [ofInt_tdiv]
    exact divide_const _ a hb
  | rem =>
    obtain ⟨hb, rfl⟩ := hdivides h
    rw [ofInt_tmod]
    exact divide_const _ a hb
  | add =>
    cases h
    rw [Int32.ofInt_add, Int32.ofInt_toInt, Int32.ofInt_toInt]
    rfl
  | sub =>
    cases h
    rw [Int32.ofInt_sub, Int32.ofInt_toInt, Int32.ofInt_toInt]
    rfl
  | mul =>
    cases h
    rw [Int32.ofInt_mul, Int32.ofInt_toInt, Int32.ofInt_toInt]
    rfl
  | and | or | xor =>
    cases h
    rfl
  | shl =>
    cases h
    rw [← shiftLeft_eq]
    rfl
  | shr =>
    cases h
    rw [← shiftRight_eq]
    rfl
  | ushr =>
    cases h
    rw [← unsignedShift_eq]
    rfl
  | eq =>
    cases h
    rw [toInt_beq]
    rfl
  | ne =>
    cases h
    rw [bne, toInt_beq]
    rfl
  | lt | gt =>
    cases h
    rw [toInt_lt]
    rfl
  | le | ge =>
    cases h
    rw [toInt_le]
    rfl

end BinaryOp

end ObjectFlow
