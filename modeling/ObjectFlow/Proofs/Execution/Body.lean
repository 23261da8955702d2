/-
  File:      ObjectFlow/Proofs/Execution/Body.lean
  Subject:   HOW ONE METHOD BODY RUNS: the values of its variables, one statement at a step.

  Variables hold 32-bit integers or other values (references, wide integers, floats). Only the
  parameters and the receiver have a value at first, and a statement that reads a variable without
  one takes no step. What lies outside the body is left open: loads, casts, allocations and calls
  give any value, and so does arithmetic on other values; comparisons of those give zero or one.

  * `Step`: one statement;
  * `Reaches`: the states before the statements of all runs.
-/
import ObjectFlow.Program.Basic
import ObjectFlow.Proofs.Domain.Arithmetic

namespace ObjectFlow

namespace Body

/-! ## 1. Values -/

inductive Value where
  | int (n : Int32)
  | other (n : Nat)
  deriving DecidableEq

/-- The values of the variables that have one. -/
abbrev Env := VarId → Option Value

def Env.set (env : Env) (x : VarId) (w : Value) : Env := fun v => if v = x then some w else env v

/-- No variable has a value. -/
def Env.empty : Env := fun _ => none

/-- A variable of integer-like type that holds an integer. -/
def IsInt (p : Program) (env : Env) (v : VarId) : Prop :=
  p.holdsInt v = true ∧ ∃ n, env v = some (.int n)

/-! ## 2. Statements -/

/-- What an operator gives on two variables. A divisor of zero gives nothing. -/
inductive Computes (p : Program) (env : Env) (op : BinaryOp) (l r : VarId) : Value → Prop where
  | ints {a b c} : p.holdsInt l = true → p.holdsInt r = true → env l = some (.int a) →
      env r = some (.int b) → op.compute a b = some c → Computes p env op l r (.int c)
  | comparison {a b c} : env l = some a → env r = some b → ¬ (IsInt p env l ∧ IsInt p env r) →
      op.isComparison = true → c = 0 ∨ c = 1 → Computes p env op l r (.int c)
  | arithmetic {a b w} : env l = some a → env r = some b → ¬ (IsInt p env l ∧ IsInt p env r) →
      op.isComparison = false → ¬ (op.divides = true ∧ b = .int 0) → Computes p env op l r w

/-- The value a statement gives the variable it assigns. -/
inductive Yields (p : Program) (env : Env) : Stmt → Value → Prop where
  | copy {x y w} : env y = some w → Yields p env (.assign x (.var y)) w
  | int {x n} : Yields p env (.assign x (.int n)) (.int n)
  | binary {x op l r w} : Computes p env op l r w → Yields p env (.assign x (.binary op l r)) w
  | cast {x ty y w} : Yields p env (.assign x (.cast ty y)) w
  | alloc {x ty length w} : Yields p env (.alloc x ty length) w
  | loadField {x base f w} : Yields p env (.loadField x base f) w
  | loadArray {x base k w} : Yields p env (.loadArray x base k) w
  | call {i w} : Yields p env (.call i) w

/-- Where a statement that assigns nothing goes on; a return goes nowhere. -/
inductive Goes (p : Program) (env : Env) (index : Nat) : Stmt → Nat → Prop where
  | nop : Goes p env index .nop (index + 1)
  | storeField {base f y} : Goes p env index (.storeField base f y) (index + 1)
  | storeArray {base k y} : Goes p env index (.storeArray base k y) (index + 1)
  | call {i} : Goes p env index (.call i) (index + 1)
  | jump {target} : Goes p env index (.jump target) target
  | taken {l op r target w} : Computes p env op l r w → w ≠ .int 0 →
      Goes p env index (.branch l op r target) target
  | passed {l op r target} : Computes p env op l r (.int 0) →
      Goes p env index (.branch l op r target) (index + 1)
  | case {on cases otherwise n target} : env on = some (.int n) → (n, target) ∈ cases →
      Goes p env index (.switch on cases otherwise) target
  | otherwise {on cases otherwise w} : env on = some w → (∀ c ∈ cases, w ≠ .int c.1) →
      Goes p env index (.switch on cases otherwise) otherwise

/-! ## 3. Steps and runs -/

/-- The next statement and the values of the variables. -/
structure State where
  index : Nat
  env : Env

/-- All variables a statement reads have a value. -/
def Ready (env : Env) (stmt : Stmt) : Prop := ∀ v ∈ stmt.uses, env v ≠ none

instance (env : Env) (stmt : Stmt) : Decidable (Ready env stmt) :=
  inferInstanceAs (Decidable (∀ v ∈ stmt.uses, env v ≠ none))

/-- **One statement.** -/
inductive Step (p : Program) (stmts : List Stmt) : State → State → Prop where
  | assign {i env stmt x w} : stmts[i]? = some stmt → Ready env stmt → stmt.defined? = some x →
      Yields p env stmt w → Step p stmts ⟨i, env⟩ ⟨i + 1, env.set x w⟩
  | go {i env stmt j} : stmts[i]? = some stmt → Ready env stmt → stmt.defined? = none →
      Goes p env i stmt j → Step p stmts ⟨i, env⟩ ⟨j, env⟩

/-- The parameters have values, and no other variable but the receiver has one. -/
structure Starts (p : Program) (m : MethodId) (env : Env) : Prop where
  params : ∀ v ∈ (p.methodAt m).params, env v ≠ none
  others : ∀ v, env v ≠ none → v ∈ (p.methodAt m).params ∨
    ((p.methodAt m).this = some v ∧ (p.varTy v).isReference = true)

/-- A method of two parameters starts with any two values. -/
theorem starts_two {p : Program} {m : MethodId} {x y : VarId}
    (h : (p.methodAt m).params = [x, y]) (a b : Value) :
    Starts p m ((Env.empty.set x a).set y b) := by
  refine ⟨fun v hv => ?_, fun v hv => .inl ?_⟩
  · rw [h] at hv
    by_cases hy : v = y
    · simp [Env.set, hy]
    · have hx : v = x := by simpa [hy] using hv
      simp only [Env.set]
      rw [if_neg hy, if_pos hx]
      exact Option.some_ne_none a
  · rw [h]
    refine Decidable.byContradiction fun hnot => hv ?_
    have hne : v ≠ x ∧ v ≠ y := by simpa using hnot
    simp [Env.set, Env.empty, hne.1, hne.2]

/-- **The states runs of a method arrive at.** -/
inductive Reaches (p : Program) (m : MethodId) : State → Prop where
  | start {env} : Starts p m env → Reaches p m ⟨0, env⟩
  | step {s t} : Reaches p m s → Step p (p.methodAt m).stmts s t → Reaches p m t

end Body

end ObjectFlow
