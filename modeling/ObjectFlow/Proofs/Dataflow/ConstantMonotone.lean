/-
  File:      ObjectFlow/Proofs/Dataflow/ConstantMonotone.lean
  Subject:   WHERE CONSTANT PROPAGATION IS MONOTONE, said with the order the solver compares facts
             by, and where it is not.

  A statement keeps the order of facts, except for a quotient or remainder of an unknown value: if
  its divisor is unbound in the lower fact and zero in the upper one, the lower fact learns an
  unknown value and the upper one learns nothing.

  * `ZeroDivisor`: that exception, read off the bindings;
  * `below_get_transferStmt`: what a statement does not assign stays ordered in any case;
  * `not_below_transferStmt`: in the exception the order does break;
  * `transferStmt_monotone`: statements are monotone there and only there.
-/
import ObjectFlow.Proofs.Dataflow.ConstantFlow
import ObjectFlow.Proofs.Domain.MapOrder

namespace ObjectFlow

namespace Constants

/-! ## 1. The exception -/

/-- The statement divides an unknown value by a variable that is unbound in the lower fact and zero
    in the upper one. -/
def ZeroDivisor (stmt : Stmt) (a b : ConstFact) : Prop :=
  ∃ (lhs : VarId) (op : BinaryOp) (x y : VarId),
    stmt = .assign lhs (.binary op x y) ∧ op.divides = true ∧
      b.find? y = some (.const 0) ∧ a.find? y = none ∧ a.find? x = some .nac

theorem canonical_transferStmt (p : Program) (stmt : Stmt) {fact : ConstFact}
    (h : fact.Canonical) : (transferStmt p stmt fact).Canonical := by
  unfold transferStmt
  split
  · split
    · exact h.update _ _
    · exact h
  · exact h

/-- A quotient that meets a zero divisor is the exception. -/
theorem zeroDivisor_of_quotient? {p : Program} {stmt : Stmt} {a b : ConstFact} {q : Quotient}
    (ha : a.Canonical) (hb : b.Canonical) (h : quotient? p stmt = some q)
    (hvalues : a.get q.dividend = .nac ∧ a.get q.divisor = .undefined ∧
      b.get q.divisor = .const 0) : ZeroDivisor stmt a b := by
  obtain ⟨op, hdivides, -, rfl⟩ := of_quotient? h
  obtain ⟨hdividend, hunbound, hzero⟩ := hvalues
  refine ⟨q.target, op, q.dividend, q.divisor, rfl, hdivides, ?_, ?_, ?_⟩
  · exact hb.find?_eq_some_iff.mpr ⟨ConstValue.noConfusion, hzero⟩
  · exact ha.find?_eq_none_iff.mpr hunbound
  · exact ha.find?_eq_some_iff.mpr ⟨ConstValue.noConfusion, hdividend⟩

/-! ## 2. The variables a statement does not assign -/

/-- **What a statement does not assign stays ordered**, whatever it computes. -/
theorem below_get_transferStmt (p : Program) {stmt : Stmt} {a b : ConstFact}
    (hab : a.Pointwise b) {v : VarId} (hv : stmt.defined? ≠ some v) :
    JoinOps.below ((transferStmt p stmt a).get v) ((transferStmt p stmt b).get v) := by
  rw [get_transferStmt, get_transferStmt, if_neg fun h => hv h.1, if_neg fun h => hv h.1]
  exact hab v

/-! ## 3. The variable it assigns -/

/-- **In the exception the order breaks** at the assigned variable, if it is integer-like. -/
theorem not_below_transferStmt {p : Program} {stmt : Stmt} {a b : ConstFact} (ha : a.Canonical)
    (hb : b.Canonical) (h : ZeroDivisor stmt a b) {v : VarId} (hv : stmt.defined? = some v)
    (hint : p.holdsInt v = true) :
    ¬ JoinOps.below ((transferStmt p stmt a).get v) ((transferStmt p stmt b).get v) := by
  obtain ⟨lhs, op, x, y, rfl, hdivides, hzero, hunbound, hunknown⟩ := h
  have hbefore : assigned a (.assign lhs (.binary op x y)) = .nac := by
    show op.eval (a.get x) (a.get y) = .nac
    rw [(ha.find?_eq_some_iff.mp hunknown).2, ha.find?_eq_none_iff.mp hunbound]
    exact BinaryOp.eval_eq_nac (.inl rfl) fun h => ConstValue.noConfusion h.2
  have hafter : assigned b (.assign lhs (.binary op x y)) = .undefined := by
    show op.eval (b.get x) (b.get y) = .undefined
    rw [(hb.find?_eq_some_iff.mp hzero).2]
    exact BinaryOp.eval_zero hdivides _
  rw [get_transferStmt, get_transferStmt, if_pos ⟨hv, hint⟩, if_pos ⟨hv, hint⟩, hbefore, hafter]
  decide

/-! ## 4. Statements -/

/-- **Statements keep the order of facts except at a divisor that becomes zero**. There all other
    variables stay ordered, and the assigned one does not. -/
theorem transferStmt_monotone (p : Program) (stmt : Stmt) {a b : ConstFact} (ha : a.Canonical)
    (hb : b.Canonical) (hab : JoinOps.below a b) :
    (¬ ZeroDivisor stmt a b →
      JoinOps.below (transferStmt p stmt a) (transferStmt p stmt b)) ∧
    (ZeroDivisor stmt a b → ∀ v,
      (stmt.defined? ≠ some v →
        JoinOps.below ((transferStmt p stmt a).get v) ((transferStmt p stmt b).get v)) ∧
      (stmt.defined? = some v → p.holdsInt v = true →
        ¬ JoinOps.below ((transferStmt p stmt a).get v) ((transferStmt p stmt b).get v))) := by
  rw [FactMap.joinOps_below, ha.below_iff hb] at hab
  refine ⟨fun h => ?_, fun h v => ⟨below_get_transferStmt p hab, not_below_transferStmt ha hb h⟩⟩
  rw [FactMap.joinOps_below,
    (canonical_transferStmt p stmt ha).below_iff (canonical_transferStmt p stmt hb)]
  have hle : transferStmt p stmt a ≤ transferStmt p stmt b :=
    transferStmt_le hab fun q hq hvalues => h (zeroDivisor_of_quotient? ha hb hq hvalues)
  exact hle

/-- In `a = x / y` with `x` unknown: as `y` turns from undefined to zero, `a` turns from unknown to
    undefined and `x` and `y` stay ordered; from one to an unknown value all of them do. -/
theorem transferStmt_monotone_quotient :
    let int (name : String) (i : Nat) : VarDecl := ⟨name, .prim .int, 0, i⟩
    let p : Program := { vars := #[int "x" 0, int "y" 1, int "a" 2] }
    let stmt : Stmt := .assign 2 (.binary .div 0 1)
    let unbound : ConstFact := FactMap.empty.update 0 .nac
    let zero : ConstFact := unbound.update 1 (.const 0)
    let one : ConstFact := unbound.update 1 (.const 1)
    let any : ConstFact := unbound.update 1 .nac
    JoinOps.below unbound zero ∧
      ¬ JoinOps.below ((transferStmt p stmt unbound).get 2) ((transferStmt p stmt zero).get 2) ∧
      JoinOps.below ((transferStmt p stmt unbound).get 0) ((transferStmt p stmt zero).get 0) ∧
      JoinOps.below one any ∧ JoinOps.below (transferStmt p stmt one) (transferStmt p stmt any) := by
  intro int p stmt unbound zero one any
  have hunbound : unbound.Canonical := FactMap.canonical_empty.update 0 ConstValue.nac
  have hzero := hunbound.update 1 (.const 0)
  have hone := hunbound.update 1 (.const 1)
  have hany := hunbound.update 1 .nac
  have hbelow : JoinOps.below unbound zero := by decide
  have hbelow' : JoinOps.below one any := by decide
  have hexception : ZeroDivisor stmt unbound zero :=
    ⟨2, .div, 0, 1, rfl, rfl, by decide, by decide, by decide⟩
  have hregular : ¬ ZeroDivisor stmt one any := by
    rintro ⟨_, _, _, _, hstmt, -, -, hbound, -⟩
    injection hstmt with _ hquotient
    injection hquotient with _ _ hdivisor
    subst hdivisor
    exact absurd hbound (by decide)
  obtain ⟨-, hbreaks⟩ := transferStmt_monotone p stmt hunbound hzero hbelow
  exact ⟨hbelow, (hbreaks hexception 2).2 rfl rfl, (hbreaks hexception 0).1 (by decide), hbelow',
    (transferStmt_monotone p stmt hone hany hbelow').1 hregular⟩

end Constants

end ObjectFlow
