/-
  File:      ObjectFlow/Iterate.lean
  Subject:   REPEATING A STEP until it has nothing left to do, under an allowance of steps.

  Every fixpoint loop of the library is a pure step function; this file fixes the one way such
  a step is repeated. An answer `some s` is a state at which the step stops; `none` says only
  that the allowance was used up.
-/
namespace ObjectFlow

universe u v

/-- Repeats `step` until it answers `none` and gives the state it stopped at. With `n` as the
    allowance the step is tried at most `n` times. -/
def iterate {σ : Type u} (step : σ → Option σ) : Nat → σ → Option σ
  | 0, _ => none
  | n + 1, s =>
    match step s with
    | none => some s
    | some next => iterate step n next

/-- The allowance the analyses run with: far above the number of steps any run takes. -/
def stepAllowance : Nat := 1000000000000000

@[simp] theorem iterate_zero {σ : Type u} (step : σ → Option σ) (s : σ) :
    iterate step 0 s = none := rfl

theorem iterate_succ_of_none {σ : Type u} {step : σ → Option σ} {s : σ} (n : Nat)
    (h : step s = none) : iterate step (n + 1) s = some s := by
  simp [iterate, h]

theorem iterate_succ_of_some {σ : Type u} {step : σ → Option σ} {s next : σ} (n : Nat)
    (h : step s = some next) : iterate step (n + 1) s = iterate step n next := by
  simp [iterate, h]

/-- **What every step keeps holds where the step stops.** -/
theorem iterate_invariant {σ : Type u} {step : σ → Option σ} {P : σ → Prop}
    (hstep : ∀ s next, P s → step s = some next → P next) {n : Nat} {s t : σ} (hs : P s)
    (h : iterate step n s = some t) : P t ∧ step t = none := by
  induction n generalizing s with
  | zero => cases h
  | succ n ih =>
    cases hn : step s with
    | none =>
      rw [iterate_succ_of_none n hn] at h
      cases h
      exact ⟨hs, hn⟩
    | some next =>
      rw [iterate_succ_of_some n hn] at h
      exact ih (hstep s next hs hn) h

/-- **Steps that keep two states related stop together**, and at related states. -/
theorem iterate_related {σ : Type u} {τ : Type v} {step : σ → Option σ} {step' : τ → Option τ}
    {R : σ → τ → Prop} (hstep : ∀ s t, R s t → Option.Rel R (step s) (step' t)) (n : Nat) {s : σ}
    {t : τ} (h : R s t) : Option.Rel R (iterate step n s) (iterate step' n t) := by
  induction n generalizing s t with
  | zero => exact .none
  | succ n ih =>
    have hnext := hstep s t h
    unfold iterate
    cases hs : step s with
    | none =>
      cases ht : step' t with
      | none => exact .some h
      | some _ =>
        rw [hs, ht] at hnext
        cases hnext
    | some _ =>
      cases ht : step' t with
      | none =>
        rw [hs, ht] at hnext
        cases hnext
      | some _ =>
        rw [hs, ht] at hnext
        cases hnext with
        | some hnext => exact ih hnext

/-- **A step that descends in a well-founded order stops**, and a larger allowance changes
    nothing. -/
theorem exists_iterate_of_wellFounded {σ : Type u} {step : σ → Option σ} {r : σ → σ → Prop}
    (hr : WellFounded r) {P : σ → Prop}
    (hstep : ∀ s next, P s → step s = some next → P next ∧ r next s) {s : σ} (hs : P s) :
    ∃ n t, ∀ m, n ≤ m → iterate step m s = some t := by
  induction s using hr.induction with
  | _ s ih =>
    cases hn : step s with
    | none =>
      refine ⟨1, s, fun m hm => ?_⟩
      obtain ⟨k, rfl⟩ : ∃ k, m = k + 1 := ⟨m - 1, by omega⟩
      exact iterate_succ_of_none k hn
    | some next =>
      obtain ⟨hnext, hlt⟩ := hstep s next hs hn
      obtain ⟨n, t, ht⟩ := ih next hlt hnext
      refine ⟨n + 1, t, fun m hm => ?_⟩
      obtain ⟨k, rfl⟩ : ∃ k, m = k + 1 := ⟨m - 1, by omega⟩
      rw [iterate_succ_of_some k hn]
      exact ht k (by omega)

end ObjectFlow
