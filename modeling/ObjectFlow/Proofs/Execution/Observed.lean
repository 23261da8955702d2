/-
  File:      ObjectFlow/Proofs/Execution/Observed.lean
  Subject:   WHAT IS SEEN OF A RUN OF ONE BODY: the statements it visits, what it does outside the
             body with which operands, and how it ends.

  Every variable has a value from the start. Copies, literals, arithmetic without division and
  comparisons always succeed and are not seen; loads, stores, casts, divisions, allocations and
  calls act on a world outside the body, and may trap there.

  * `Outside`: the values and the world, left open;
  * `act`: one statement, and `act_congr`: it depends on the variables it reads only;
  * `observe`: what is seen of the first steps of a run.
-/
import ObjectFlow.Program.Stmt
import ObjectFlow.Proofs.Domain.ConstOrder

namespace ObjectFlow

namespace Observed

/-! ## 1. The world -/

/-- What lies outside a body, over values in `V` and worlds in `W`. -/
structure Outside (V W : Type) where
  literal : Int32 → V
  /-- What an operator that does not divide gives. -/
  compute : BinaryOp → V → V → V
  /-- Whether a branch on a value is taken. -/
  isTrue : V → Bool
  /-- Whether a switch on a value goes to a case. -/
  isCase : V → Int32 → Bool
  /-- What a statement does to the world with its operands: it traps, or leaves another world and
      gives a value. -/
  perform : W → Stmt → List V → Except V (W × V)

/-- Whether a statement acts on the world. -/
def performs : Stmt → Bool
  | .assign _ (.cast _ _) => true
  | .assign _ (.binary op _ _) => op.divides
  | .alloc _ _ _ | .loadField _ _ _ | .storeField _ _ _ | .loadArray _ _ _ | .storeArray _ _ _
  | .call _ => true
  | _ => false

/-! ## 2. Statements -/

/-- What comes of a statement. -/
inductive Outcome (V W : Type) where
  /-- Control goes on, perhaps with a new value of a variable. -/
  | next (index : Nat) (assigned : Option (VarId × V)) (world : W)
  | trapped (w : V)
  | returned (value : Option V)

variable {V W : Type}

/-- One statement that acts on nothing but variables. -/
def actInside (out : Outside V W) (env : VarId → V) (i : Nat) (world : W) : Stmt → Outcome V W
  | .assign x (.var y) => .next (i + 1) (some (x, env y)) world
  | .assign x (.int n) => .next (i + 1) (some (x, out.literal n)) world
  | .assign x (.binary op l r) => .next (i + 1) (some (x, out.compute op (env l) (env r))) world
  | .jump target => .next target none world
  | .branch l op r target =>
    .next (if out.isTrue (out.compute op (env l) (env r)) then target else i + 1) none world
  | .switch on cases otherwise =>
    .next (((cases.find? fun c => out.isCase (env on) c.1).map (·.2)).getD otherwise) none world
  | .ret value => .returned (value.map env)
  | _ => .next (i + 1) none world

/-- **One statement**, the one at `i`. -/
def act (out : Outside V W) (env : VarId → V) (i : Nat) (world : W) (stmt : Stmt) : Outcome V W :=
  if performs stmt then
    match out.perform world stmt (stmt.uses.map env) with
    | .error w => .trapped w
    | .ok (world, w) => .next (i + 1) (stmt.defined?.map (·, w)) world
  else actInside out env i world stmt

/-- **A statement depends on the variables it reads only.** -/
theorem act_congr (out : Outside V W) {env env' : VarId → V} {stmt : Stmt}
    (h : ∀ v ∈ stmt.uses, env v = env' v) (i : Nat) (world : W) :
    act out env i world stmt = act out env' i world stmt := by
  have hinside : actInside out env i world stmt = actInside out env' i world stmt := by
    cases stmt with
    | assign x rhs =>
      cases rhs with
      | var y => rw [actInside, actInside, h y List.mem_cons_self]
      | int n => rfl
      | binary op l r =>
        rw [actInside, actInside, h l List.mem_cons_self,
          h r (List.mem_cons_of_mem l List.mem_cons_self)]
      | cast ty y => rfl
    | branch l op r target =>
      rw [actInside, actInside, h l List.mem_cons_self,
        h r (List.mem_cons_of_mem l List.mem_cons_self)]
    | switch on cases otherwise => rw [actInside, actInside, h on List.mem_cons_self]
    | ret value =>
      cases value with
      | none => rfl
      | some v =>
        rw [actInside, actInside, Option.map_some, Option.map_some, h v List.mem_cons_self]
    | _ => rfl
  unfold act
  rw [List.map_congr_left h, hinside]

/-! ## 3. Runs -/

/-- The variables after a statement. -/
def put (env : VarId → V) : Option (VarId × V) → VarId → V
  | none => env
  | some (x, w) => fun v => if v = x then w else env v

inductive Ending (V : Type) where
  | running
  | trapped (w : V)
  | returned (value : Option V)

/-- What is seen of a run. -/
structure Trace (V : Type) where
  /-- The statements visited. -/
  visited : List Nat
  /-- The statements that acted on the world, with the values of their operands. -/
  effects : List (Stmt × List V)
  ending : Ending V

/-- What is seen of one statement that acts on the world. -/
def effectOf (env : VarId → V) (stmt : Stmt) : List (Stmt × List V) :=
  if performs stmt then [(stmt, stmt.uses.map env)] else []

/-- **What is seen of the first `n` steps** from the statement at `i`. Behind the last statement a
    run returns nothing. -/
def observe (out : Outside V W) (stmts : List Stmt) : Nat → (i : Nat) → (VarId → V) → W → Trace V
  | 0, _, _, _ => ⟨[], [], .running⟩
  | n + 1, i, env, world =>
    match stmts[i]? with
    | none => ⟨[], [], .returned none⟩
    | some stmt =>
      match act out env i world stmt with
      | .next j assigned world =>
        let rest := observe out stmts n j (put env assigned) world
        ⟨i :: rest.visited, effectOf env stmt ++ rest.effects, rest.ending⟩
      | .trapped w => ⟨[i], effectOf env stmt, .trapped w⟩
      | .returned value => ⟨[i], effectOf env stmt, .returned value⟩

end Observed

end ObjectFlow
