/-
  File:      ObjectFlow/Proofs/Domain/ConstOrder.lean
  Subject:   THE ORDER OF CONSTANTS: a semilattice of height two, and how the operators of the
             language respect it.

  Every operator is monotone but for division and remainder: while a divisor is undefined an
  unknown dividend gives an unknown value, and none any more once the divisor is known to be zero.

  * `le_iff`: the order in closed form;
  * `lift_mono`, `divide_le`: the operators;
  * `BinaryOp.eval_le`: what all of them have in common.
-/
import Mathlib.Order.Lattice
import Mathlib.Order.WellFounded
import ObjectFlow.Domain.Const

namespace ObjectFlow

namespace ConstValue

/-! ## 1. The order -/

instance : LE ConstValue := ⟨fun a b => JoinOps.below a b = true⟩

instance : DecidableLE ConstValue :=
  fun a b => inferInstanceAs (Decidable (JoinOps.below a b = true))

theorem le_iff {a b : ConstValue} : a ≤ b ↔ a = undefined ∨ a = b ∨ b = nac := by
  show JoinOps.below a b = true ↔ _
  cases a <;> cases b <;> simp [JoinOps.below, JoinOps.compare?, compare?]
  split <;> simp_all

theorem undefined_le (a : ConstValue) : undefined ≤ a := le_iff.mpr (.inl rfl)

theorem le_nac (a : ConstValue) : a ≤ nac := le_iff.mpr (.inr (.inr rfl))

theorem eq_nac_of_le {b : ConstValue} (h : nac ≤ b) : b = nac := by
  rcases le_iff.mp h with h | h | h
  · cases h
  · exact h.symm
  · exact h

/-- Of the constants only one is below a constant. -/
theorem const_le_const {a b : Int32} : const a ≤ const b ↔ a = b := by
  rw [le_iff]
  simp

/-- The join is the least upper bound. -/
instance : SemilatticeSup ConstValue where
  sup := join
  le_refl a := le_iff.mpr (.inr (.inl rfl))
  le_trans a b c hab hbc := by
    rw [le_iff] at *
    grind
  le_antisymm a b hab hba := by
    rw [le_iff] at *
    grind
  le_sup_left a b := by
    rw [le_iff]
    cases a <;> cases b <;> simp [join]
    exact eq_or_ne _ _
  le_sup_right a b := by
    rw [le_iff]
    cases a <;> cases b <;> simp [join]
    split <;> simp_all
  sup_le a b c hac hbc := by
    rw [le_iff] at *
    cases a <;> cases b <;> simp_all [join]
    grind

instance : OrderBot ConstValue where
  bot := undefined
  bot_le := undefined_le

/-- How far a value has risen. -/
def rank : ConstValue → Nat
  | undefined => 0
  | const _ => 1
  | nac => 2

theorem rank_lt_rank {a b : ConstValue} (h : a < b) : a.rank < b.rank := by
  obtain ⟨hle, hne⟩ := lt_iff_le_and_ne.mp h
  rcases le_iff.mp hle with rfl | rfl | rfl
  · cases b <;> simp [rank] at hne ⊢
  · exact absurd rfl hne
  · cases a <;> simp [rank] at hne ⊢

/-- A value rises at most twice. -/
instance : WellFoundedGT ConstValue where
  wf := by
    have hwf : WellFounded (InvImage (· < ·) fun a : ConstValue => 2 - a.rank) :=
      InvImage.wf _ Nat.lt_wfRel.wf
    refine hwf.mono fun a b h => ?_
    have hlt := rank_lt_rank h
    have hle : a.rank ≤ 2 := by cases a <;> simp [rank]
    show 2 - a.rank < 2 - b.rank
    omega

/-! ## 2. The operators -/

theorem lift_eq_nac (op : Int32 → Int32 → Int32) {a b : ConstValue} (h : a = nac ∨ b = nac) :
    lift op a b = nac := by
  rcases h with rfl | rfl
  · rfl
  · cases a <;> rfl

/-- Without unknown operands only two constants give a value. -/
theorem lift_undefined (op : Int32 → Int32 → Int32) {a b : ConstValue}
    (h : a = undefined ∨ b = undefined) (ha : a ≠ nac) (hb : b ≠ nac) :
    lift op a b = undefined := by
  rcases h with rfl | rfl
  · cases b <;> simp [lift] at hb ⊢
  · cases a <;> simp [lift] at ha ⊢

/-- **Folding is monotone.** -/
theorem lift_mono (op : Int32 → Int32 → Int32) {a a' b b' : ConstValue} (ha : a ≤ a')
    (hb : b ≤ b') : lift op a b ≤ lift op a' b' := by
  by_cases hnac : a' = nac ∨ b' = nac
  · rw [lift_eq_nac op hnac]
    exact le_nac _
  · -- below operands that are not unknown stand the same operands or undefined ones
    obtain ⟨ha', hb'⟩ := not_or.mp hnac
    have hlow : (a = undefined ∨ b = undefined) ∨ (a = a' ∧ b = b') := by
      rw [le_iff] at ha hb
      grind
    rcases hlow with hlow | ⟨rfl, rfl⟩
    · rw [lift_undefined op hlow (fun h => ha' (eq_nac_of_le (h ▸ ha)))
        fun h => hb' (eq_nac_of_le (h ▸ hb))]
      exact undefined_le _
    · exact le_refl _

@[simp] theorem divide_zero (op : Int32 → Int32 → Int32) (a : ConstValue) :
    divide op a (const 0) = undefined := if_pos rfl

/-- **Division is monotone but in one place**: where an unknown dividend meets a divisor that
    turns from undefined to zero. -/
theorem divide_le (op : Int32 → Int32 → Int32) {a a' b b' : ConstValue} (ha : a ≤ a')
    (hb : b ≤ b') (h : ¬ (a = nac ∧ b = undefined ∧ b' = const 0)) :
    divide op a b ≤ divide op a' b' := by
  by_cases hzero : b = const 0
  · rw [hzero, divide_zero]
    exact undefined_le _
  · rw [divide, if_neg hzero]
    by_cases hzero' : b' = const 0
    · -- only undefined and zero are below zero
      subst hzero'
      have hb : b = undefined := by
        rw [le_iff] at hb
        grind
      rw [lift_undefined op (.inr hb) (fun ha => h ⟨ha, hb, rfl⟩) (by simp [hb])]
      exact undefined_le _
    · rw [divide, if_neg hzero']
      exact lift_mono op ha hb

end ConstValue

namespace BinaryOp

/-- Division and remainder, which stop at a divisor of zero. -/
def divides : BinaryOp → Bool
  | div | rem => true
  | _ => false

theorem eval_zero {op : BinaryOp} (h : op.divides = true) (a : ConstValue) :
    op.eval a (.const 0) = .undefined := by
  cases op <;> simp [divides, eval] at h ⊢

theorem divides_eq_false {op : BinaryOp} (h : op.isComparison = true) : op.divides = false := by
  cases op <;> simp [isComparison, divides] at h ⊢

/-- An unknown operand makes the result unknown, a divisor of zero apart. -/
theorem eval_eq_nac {op : BinaryOp} {a b : ConstValue} (h : a = .nac ∨ b = .nac)
    (hzero : ¬ (op.divides = true ∧ b = .const 0)) : op.eval a b = .nac := by
  have hdivide : ∀ f : Int32 → Int32 → Int32, op.divides = true →
      ConstValue.divide f a b = .nac := by
    intro f hop
    rw [ConstValue.divide, if_neg fun hb => hzero ⟨hop, hb⟩]
    exact ConstValue.lift_eq_nac f h
  cases op with
  | div => exact hdivide _ rfl
  | rem => exact hdivide _ rfl
  | _ => exact ConstValue.lift_eq_nac _ h

/-- **All operators are monotone** but for a divisor that turns to zero under an unknown
    dividend. -/
theorem eval_le (op : BinaryOp) {a a' b b' : ConstValue} (ha : a ≤ a') (hb : b ≤ b')
    (h : ¬ (op.divides = true ∧ a = .nac ∧ b = .undefined ∧ b' = .const 0)) :
    op.eval a b ≤ op.eval a' b' := by
  cases op with
  | div => exact ConstValue.divide_le _ ha hb fun hz => h ⟨rfl, hz⟩
  | rem => exact ConstValue.divide_le _ ha hb fun hz => h ⟨rfl, hz⟩
  | _ => exact ConstValue.lift_mono _ ha hb

end BinaryOp

end ObjectFlow
