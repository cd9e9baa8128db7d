import Vau.Proofs.Yields

/-! Outcomes. The call stack, the count of steps and the log of calls are records for the host. As
long as steps are not limited, what an evaluation comes to and what it does to the world depend on
the world alone. -/

namespace Vau

/-- The end of a computation without the records for the host. -/
def outcome {α : Type} : EStateM.Result Stop Machine α → EStateM.Result Stop World α
  | .ok a m => .ok a m.world
  | .error e m => .error e m.world

/-- The actions have the same outcome from machines in the same world. -/
def Action.Abreast {α : Type} (x x' : Action α) : Prop :=
  ∀ m m' : Machine, m'.world = m.world → outcome (x' m') = outcome (x m)

namespace Action

variable {α β : Type}

theorem Abreast.bind {x x' : Action α} {f f' : α → Action β} (hx : x.Abreast x')
    (hf : ∀ a, (f a).Abreast (f' a)) : (x >>= f).Abreast (x' >>= f') := by
  intro m m' hm
  have houtcome := hx m m' hm
  simp only [Bind.bind, EStateM.bind]
  generalize x m = r, x' m' = r' at houtcome ⊢
  cases r with
  | error e m₁ =>
    cases r' with
    | error e' m₁' =>
      obtain ⟨rfl, hw⟩ := EStateM.Result.error.inj houtcome
      exact congrArg (EStateM.Result.error e') hw
    | ok a' m₁' => cases houtcome
  | ok a m₁ =>
    cases r' with
    | error e' m₁' => cases houtcome
    | ok a' m₁' =>
      obtain ⟨rfl, hw⟩ := EStateM.Result.ok.inj houtcome
      exact hf a' m₁ m₁' hw

theorem abreast_act (d : Deed α) : d.act.Abreast d.act := by
  rintro ⟨w, stack, steps, calls⟩ ⟨w', stack', steps', calls'⟩ rfl
  simp only [Deed.act]
  cases d w' <;> rfl

theorem respected_abreast : Respected fun x x' => Abreast x x' where
  deed _ := abreast_act _
  notes logging call m m' hm := by cases logging <;> exact congrArg (EStateM.Result.ok ()) hm
  bind := Abreast.bind

end Action

open Vau.Action

section Reducing

variable {cfg : Settings} (hlimit : cfg.stepLimit = none)
  (hhost : ∀ f ∈ cfg.functions, ∀ vs env, (f vs env).Abreast (f vs env))
include hlimit hhost

theorem abreast_turn {ev ev' : Evaluation} (hev : ∀ expr env, (ev expr env).Abreast (ev' expr env))
    (fuel room base base' : Nat) (expr : Value) (env : Nat) :
    (turn cfg ev fuel room base expr env).Abreast (turn cfg ev' fuel room base' expr env) := by
  have htick : (Action.tick cfg.stepLimit).Abreast (Action.tick cfg.stepLimit) := by
    rw [hlimit]
    exact fun m m' hm => congrArg (EStateM.Result.ok ()) hm
  refine htick.bind fun _ => ?_
  cases expr with
  | sym name =>
    refine (abreast_act _).bind fun found => ?_
    cases found with
    | some v => exact respected_abreast.pure _
    | none => exact respected_abreast.fail _
  | pair r =>
    have henter : (Action.enter base (.pair r)).Abreast (Action.enter base' (.pair r)) :=
      fun m m' hm => congrArg (EStateM.Result.ok ()) hm
    refine henter.bind fun _ => (respected_abreast.resolve hev fuel r env).bind fun c => ?_
    exact respected_abreast.combine hev hhost fuel room c.1 c.2 env
  | _ => exact respected_abreast.pure _

theorem abreast_reduce (fuel room base base' : Nat) (expr : Value) (env : Nat) :
    (reduce cfg fuel room base expr env).Abreast (reduce cfg fuel room base' expr env) := by
  induction fuel generalizing room base base' expr env with
  | zero => exact respected_abreast.throw .outOfFuel
  | succ fuel ih =>
    have hnested : ∀ expr env, (nested (reduce cfg fuel) room expr env).Abreast
        (nested (reduce cfg fuel) room expr env) := by
      intro expr env
      cases room with
      | zero => exact respected_abreast.fail .stackExhausted
      | succ room => exact fun m m' hm => ih room m.stack.size m'.stack.size expr env m m' hm
    refine (abreast_turn hlimit hhost hnested fuel room base base' expr env).bind fun answer => ?_
    cases answer with
    | value v => exact fun m m' hm => congrArg (EStateM.Result.ok v) hm
    | proceed expr env => exact ih room base base' expr env

end Reducing

end Vau
