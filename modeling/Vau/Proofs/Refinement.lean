import Vau.Proofs.Direct
import Vau.Proofs.Room

/-! Activations and plain recursion. The evaluator, which keeps a call stack and takes turns
in place, and direct evaluation end alike: whenever one of them finishes so does the other,
with the same outcome, world, step count and log of calls. -/

namespace Vau

def forget {α : Type} : EStateM.Result Stop Machine α → EStateM.Result Stop Ledger α
  | .ok a m => .ok a m.ledger
  | .error e m => .error e m.ledger

theorem forget_act {α : Type} (d : Deed α) (m : Machine) : forget (d.act m) = d.work m.ledger := by
  simp only [Deed.act, Deed.work, Machine.ledger]
  cases d m.world <;> rfl

theorem work_resolves {α : Type} {d d' : Deed α} {l : Ledger}
    (h : Resolves (d l.world) (d' l.world)) : Resolves (d.work l) (d'.work l) := by
  simp only [Deed.work]
  rcases h with h | ⟨e, w, he, h⟩
  · rw [h]
    exact .inl rfl
  · rw [h]
    exact .inr ⟨e, _, he, rfl⟩

/-- The evaluation that is taken to finish, while the other has all it needs. -/
inductive Side where
  | loop
  | direct

namespace Side

def of {α : Type} (loop direct : α) : Side → α
  | .loop => loop
  | .direct => direct

/-- The other evaluation may go at least as far along a list. -/
def Spans (depth fuel : Nat) : Side → Prop
  | .loop => fuel ≤ depth
  | .direct => depth ≤ fuel

/-- The other evaluation may go at least as far in every way. -/
def Fits (depth fuel room : Nat) : Side → Prop
  | .loop => fuel + room ≤ depth
  | .direct => depth ≤ fuel ∧ depth ≤ room

variable {side : Side} {depth fuel room : Nat}

theorem Fits.spans (h : side.Fits (depth + 1) (fuel + 1) room) :
    side.Spans depth fuel ∧ side.Spans depth room := by
  cases side <;> simp only [Fits, Spans] at h ⊢ <;> omega

theorem Fits.replaced (h : side.Fits (depth + 1) (fuel + 1) room) : side.Fits depth fuel room := by
  cases side <;> simp only [Fits] at h ⊢ <;> omega

theorem Fits.nested (h : side.Fits (depth + 1) (fuel + 1) (room + 1)) :
    side.Fits depth fuel room := by
  cases side <;> simp only [Fits] at h ⊢ <;> omega

end Side

/-- Two computations end alike, unless the one taken to finish runs into a limit. -/
def Agree (side : Side) {α : Type} (y : Action α) (x : Work α) : Prop :=
  ∀ m, forget (y m) = x m.ledger ∨ Limited (side.of (forget (y m)) (x m.ledger))

namespace Agree

variable {side : Side} {α β : Type}

theorem bind {y : Action α} {x : Work α} {f : α → Action β} {g : α → Work β}
    (h : Agree side y x) (hf : ∀ a, Agree side (f a) (g a)) : Agree side (y >>= f) (x >>= g) := by
  intro m
  simp only [Bind.bind, EStateM.bind]
  rcases h m with hm | ⟨e, l, he, hm⟩
  · cases hy : y m with
    | ok a m₁ =>
      rw [hy] at hm
      rw [← hm]
      exact hf a m₁
    | error e m₁ =>
      rw [hy] at hm
      rw [← hm]
      exact .inl rfl
  · cases side with
    | loop =>
      cases hy : y m with
      | ok a m₁ => simp [Side.of, forget, hy] at hm
      | error e' m₁ =>
        rw [hy] at hm
        injection hm with hm
        exact .inr ⟨e', m₁.ledger, hm ▸ he, rfl⟩
    | direct =>
      change x m.ledger = .error e l at hm
      rw [hm]
      exact .inr ⟨e, l, he, rfl⟩

theorem act (d : Deed α) : Agree side d.act d.work := fun m => .inl (forget_act d m)

theorem act_loop {d d' : Deed α} (h : ∀ w, Resolves (d w) (d' w)) :
    Agree .loop d.act d'.work := by
  intro m
  rw [forget_act]
  exact (work_resolves (h m.world)).imp_left Eq.symm

theorem act_direct {d d' : Deed α} (h : ∀ w, Resolves (d' w) (d w)) :
    Agree .direct d.act d'.work := by
  intro m
  rw [forget_act]
  exact work_resolves (h m.world)

theorem pure (a : α) : Agree side (Pure.pure a : Action α) (Pure.pure a) := fun _ => .inl rfl

theorem fail (f : Failure) : Agree side (Action.fail f : Action α) (Direct.fail f) :=
  fun _ => .inl rfl

theorem tick (limit : Option Int) : Agree side (Action.tick limit) (Direct.tick limit) := by
  intro m
  refine .inl ?_
  cases limit with
  | none => rfl
  | some n =>
    by_cases hn : n < (m.steps : Int) + 1
    · simp [Action.tick, Direct.tick, Machine.ledger, forget, hn]
    · simp [Action.tick, Direct.tick, Machine.ledger, forget, hn]

theorem notes (logging : Bool) (call : String) :
    Agree side (Action.notes logging call) (Direct.note logging call) := by
  intro m
  cases logging <;> exact .inl rfl

theorem enter_bind {base : Nat} {v : Value} {f : Unit → Action α} {x : Work α}
    (h : Agree side (f ()) x) : Agree side (Action.enter base v >>= f) x := fun _ => h _

theorem leave (base : Nat) (a : α) : Agree side (Action.leave base a) (Pure.pure a : Work α) :=
  fun _ => .inl rfl

theorem outOfFuel_left (x : Work α) : Agree .loop (throw .outOfFuel : Action α) x :=
  fun m => .inr ⟨.outOfFuel, m.ledger, rfl, rfl⟩

theorem stackExhausted_left (x : Work α) : Agree .loop (Action.fail .stackExhausted : Action α) x :=
  fun m => .inr ⟨.failure .stackExhausted, m.ledger, rfl, rfl⟩

theorem outOfFuel_right (y : Action α) : Agree .direct y (throw .outOfFuel : Work α) :=
  fun m => .inr ⟨.outOfFuel, m.ledger, rfl, rfl⟩

end Agree

section Parts

variable {side : Side} {ev : Evaluation} {ev' : Direct.Recursion}

theorem operands_agree (hev : ∀ expr env, Agree side (ev expr env) (ev' expr env)) (env : Nat)
    (whole : Value) (fuel depth : Nat) (h : side.Spans depth fuel) (done : List Value)
    (v : Value) :
    Agree side (operandValues ev env whole fuel done v)
      (do return done.reverse ++ (← Direct.operands ev' env whole depth v)) := by
  fun_induction operandValues ev env whole fuel done v generalizing depth with
  | case1 done r =>
    cases side with
    | loop => exact .outOfFuel_left _
    | direct =>
      obtain rfl := Nat.le_zero.mp h
      exact .outOfFuel_right _
  | case2 done r fuel ih =>
    cases depth with
    | zero =>
      cases side with
      | loop => exact absurd h (Nat.not_succ_le_zero fuel)
      | direct => exact .outOfFuel_right _
    | succ depth =>
      have hs : side.Spans depth fuel := by
        cases side <;> exact Nat.le_of_succ_le_succ h
      simp only [Direct.operands, bind_assoc, pure_bind]
      refine .bind (.act _) fun head => .bind (hev head env) fun v => .bind (.act _) fun rest => ?_
      simpa using ih v rest depth hs
  | case3 fuel done =>
    simp only [Direct.operands, pure_bind, List.append_nil]
    exact .pure _
  | case4 fuel done v hp hn =>
    simp only [Direct.operands]
    exact .fail _

theorem operands_agree_nil (hev : ∀ expr env, Agree side (ev expr env) (ev' expr env))
    (env fuel depth : Nat) (h : side.Spans depth fuel) (given : Value) :
    Agree side (operandValues ev env given fuel [] given)
      (Direct.operands ev' env given depth given) := by
  simpa using operands_agree hev env given fuel depth h [] given

theorem unwrap_agree (hev : ∀ expr env, Agree side (ev expr env) (ev' expr env))
    (env fuel depth : Nat) (h : side.Spans depth fuel) (combiner given : Value) :
    Agree side (unwrapAll ev env fuel combiner given)
      (Direct.unwrap ev' env depth combiner given) := by
  induction combiner generalizing given with
  | applicative label underlying ih =>
    exact (operands_agree_nil hev env fuel depth h given).bind fun vs =>
      .bind (.act _) fun fresh => ih fresh
  | _ => exact .pure _

/-- What an activation does with an answer: it ends, or it goes on by `next`. -/
def conclude (base : Nat) (next : Evaluation) : Answer → Action Value
  | .value v => Action.leave base v
  | .proceed expr env => next expr env

variable {base : Nat} {next : Evaluation}

/-- A body whose last form takes the place of the call agrees with one evaluated in order. -/
theorem runForms_agree (hev : ∀ expr env, Agree side (ev expr env) (ev' expr env))
    (hnext : ∀ expr env, Agree side (next expr env) (ev' expr env)) (env : Nat)
    (forms : List Value) :
    Agree side (runForms ev env forms >>= conclude base next) (Direct.inOrder ev' env forms) := by
  induction forms with
  | nil => exact .leave base _
  | cons form rest ih =>
    cases rest with
    | nil => simpa [runForms, conclude, Direct.inOrder] using hnext form env
    | cons form' rest =>
      simp only [runForms, bind_assoc]
      exact .bind (hev form env) fun _ => ih

theorem callOperative_agree (hev : ∀ expr env, Agree side (ev expr env) (ev' expr env))
    (hnext : ∀ expr env, Agree side (next expr env) (ev' expr env)) (o : Operative)
    (given : Value) (env : Nat) :
    Agree side (callOperative ev o given env >>= conclude base next)
      (Direct.operative ev' o given env) := by
  simp only [callOperative, bind_assoc]
  exact .bind (.act _) fun frame => .bind (.act _) fun _ => .bind (.act _) fun _ =>
    runForms_agree hev hnext frame o.body

theorem define_agree (hev : ∀ expr env, Agree side (ev expr env) (ev' expr env)) (env : Nat)
    (definiend expression : Value) :
    Agree side (Form.define.perform ev env [definiend, expression] >>= conclude base next)
      (Direct.define ev' env definiend expression) := by
  simp only [Form.perform, Direct.define, bind_assoc]
  refine .bind (.act _) fun _ => .bind (hev expression env) fun v => .bind (.act _) fun _ => ?_
  cases definiend with
  | sym name =>
    simp only [bind_assoc]
    exact .bind (.act _) fun _ => .leave base _
  | _ => exact .leave base _

theorem assign_agree (hev : ∀ expr env, Agree side (ev expr env) (ev' expr env)) (env : Nat)
    (target expression : Value) :
    Agree side (Form.assign.perform ev env [target, expression] >>= conclude base next)
      (Direct.assign ev' env target expression) := by
  cases target with
  | sym name =>
    simp only [Form.perform, Direct.assign, bind_assoc]
    refine .bind (hev expression env) fun v => .bind (.act _) fun owner => ?_
    cases owner with
    | none => exact .fail _
    | some o =>
      simp only [bind_assoc]
      exact .bind (.act _) fun _ => .leave base _
  | _ => exact .fail _

theorem perform_agree (hev : ∀ expr env, Agree side (ev expr env) (ev' expr env))
    (hnext : ∀ expr env, Agree side (next expr env) (ev' expr env)) (env : Nat) (f : Form)
    (vs : List Value) :
    Agree side (f.perform ev env vs >>= conclude base next) (Direct.form ev' env f vs) := by
  cases f with
  | define =>
    match vs with
    | [definiend, expression] => exact define_agree hev env definiend expression
    | [] | [_] | _ :: _ :: _ :: _ => exact .fail _
  | assign =>
    match vs with
    | [target, expression] => exact assign_agree hev env target expression
    | [] | [_] | _ :: _ :: _ :: _ => exact .fail _
  | sequence => exact runForms_agree hev hnext env vs

theorem operation_agree {room depth : Nat} (h : side.Spans depth room)
    (hnext : ∀ expr env, Agree side (next expr env) (ev' expr env)) (env : Nat) (o : Operation)
    (vs : List Value) :
    Agree side ((o.perform room env vs).act >>= conclude base next)
      (Direct.operation ev' depth env o vs) := by
  have hd : Agree side (o.perform room env vs).act (o.perform depth env vs).work := by
    cases side with
    | loop => exact .act_loop (Operation.perform_resolves h env o vs)
    | direct => exact .act_direct (Operation.perform_resolves h env o vs)
  refine hd.bind fun answer => ?_
  cases answer with
  | value v => exact .leave base v
  | proceed expr env => exact hnext expr env

variable {cfg : Settings}

theorem callPrimitive_agree (hcfg : cfg.functions = #[]) {room depth : Nat}
    (h : side.Spans depth room) (hev : ∀ expr env, Agree side (ev expr env) (ev' expr env))
    (hnext : ∀ expr env, Agree side (next expr env) (ev' expr env)) (p : Primitive)
    (given : Value) (env : Nat) :
    Agree side (callPrimitive cfg ev room p given env >>= conclude base next)
      (Direct.primitive ev' depth p given env) := by
  simp only [callPrimitive, Direct.primitive, bind_assoc]
  refine .bind (.act _) fun vs => ?_
  cases p with
  | form f => exact perform_agree hev hnext env f vs
  | operation o => exact operation_agree h hnext env o vs
  | host slot name signature =>
    simp only [hcfg]
    exact .leave base _

theorem select_agree (hev : ∀ expr env, Agree side (ev expr env) (ev' expr env)) (env : Nat)
    {fuel depth : Nat} (h : side.Spans depth fuel) (b : Bool) (given : Value) :
    Agree side (select ev env fuel b given >>= conclude base next)
      (Direct.select ev' env depth b given) := by
  simp only [select, Direct.select, bind_assoc]
  refine .bind (operands_agree_nil hev env fuel depth h given) fun vs => ?_
  rcases vs with _ | ⟨x, _ | ⟨y, _ | ⟨z, vs⟩⟩⟩
  · exact .fail _
  · exact .fail _
  · exact .leave base _
  · exact .fail _

theorem combine_agree (hcfg : cfg.functions = #[]) {fuel room depth : Nat}
    (hf : side.Spans depth fuel) (hr : side.Spans depth room)
    (hev : ∀ expr env, Agree side (ev expr env) (ev' expr env))
    (hnext : ∀ expr env, Agree side (next expr env) (ev' expr env)) (combiner given : Value)
    (env : Nat) :
    Agree side (combine cfg ev fuel room combiner given env >>= conclude base next)
      (Direct.apply cfg.logging ev' depth combiner given env) := by
  cases combiner with
  | operative r =>
    simp only [combine, Direct.apply, bind_assoc]
    exact .bind (.act _) fun o => .bind (.notes _ _) fun _ =>
      callOperative_agree hev hnext o given env
  | primitive p =>
    simp only [combine, Direct.apply, bind_assoc]
    exact .bind (.notes _ _) fun _ => callPrimitive_agree hcfg hr hev hnext p given env
  | bool b => exact select_agree hev env hf b given
  | _ => exact .fail _

end Parts

/-- One turn and what follows it agree with one level of recursion, if nested activations
and what follows do. -/
theorem turn_agree {side : Side} {cfg : Settings} (hcfg : cfg.functions = #[])
    {ev next : Evaluation} {fuel room depth base : Nat} (hf : side.Spans depth fuel)
    (hr : side.Spans depth room)
    (hev : ∀ expr env, Agree side (ev expr env) (Direct.eval cfg depth expr env))
    (hnext : ∀ expr env, Agree side (next expr env) (Direct.eval cfg depth expr env))
    (expr : Value) (env : Nat) :
    Agree side (turn cfg ev fuel room base expr env >>= conclude base next)
      (Direct.eval cfg (depth + 1) expr env) := by
  simp only [turn, Direct.eval, bind_assoc]
  refine .bind (.tick _) fun _ => ?_
  cases expr with
  | sym name =>
    simp only [bind_assoc]
    refine .bind (.act _) fun found => ?_
    cases found with
    | some v => exact .leave base v
    | none => exact .fail _
  | pair r =>
    simp only [bind_assoc, resolve]
    refine .enter_bind ?_
    refine .bind (.act _) fun head => .bind (hev head env) fun operator => ?_
    refine .bind (.act _) fun rest => ?_
    exact .bind (unwrap_agree hev env fuel depth hf operator rest) fun c =>
      combine_agree hcfg hf hr hev hnext c.1 c.2 env
  | _ => exact .leave base _

theorem reduce_agree {side : Side} {cfg : Settings} (hcfg : cfg.functions = #[]) {fuel room : Nat}
    {depth base : Nat} (h : side.Fits depth fuel room) (expr : Value) (env : Nat) :
    Agree side (reduce cfg fuel room base expr env) (Direct.eval cfg depth expr env) := by
  -- turns and nested activations use up fuel, and each answers to one level of depth
  induction fuel generalizing room depth base expr env with
  | zero =>
    cases side with
    | loop => exact .outOfFuel_left _
    | direct =>
      obtain rfl := Nat.le_zero.mp h.1
      exact .outOfFuel_right _
  | succ fuel ih =>
    cases depth with
    | zero =>
      cases side with
      | loop => exact absurd h (by simp only [Side.Fits]; omega)
      | direct => exact .outOfFuel_right _
    | succ depth =>
      obtain ⟨hf, hr⟩ := h.spans
      have hev : ∀ expr env,
          Agree side (nested (reduce cfg fuel) room expr env) (Direct.eval cfg depth expr env) := by
        intro expr env
        cases room with
        | zero =>
          cases side with
          | loop => exact .stackExhausted_left _
          | direct => exact absurd h.2 (Nat.not_succ_le_zero depth)
        | succ room => exact fun m => ih h.nested expr env m
      have hnext : ∀ expr env,
          Agree side (reduce cfg fuel room base expr env) (Direct.eval cfg depth expr env) :=
        fun expr env => ih h.replaced expr env
      exact turn_agree hcfg hf hr hev hnext expr env

/-- If either evaluation of an expression comes to an end that is not a limit of the host,
so does the other with enough fuel, room and depth, and both end in the same way: with the
same value or failure, world, step count and log of calls. -/
theorem activations_refine_recursion {cfg : Settings} (hcfg : cfg.functions = #[]) (base : Nat)
    (expr : Value) (env : Nat) (m : Machine) {r : EStateM.Result Stop Ledger Value}
    (hr : ¬ Limited r) :
    ((∃ fuel room, forget (reduce cfg fuel room base expr env m) = r) →
      ∃ bound, ∀ depth, bound ≤ depth → Direct.eval cfg depth expr env m.ledger = r) ∧
    ((∃ depth, Direct.eval cfg depth expr env m.ledger = r) →
      ∃ bound, ∀ fuel room, bound ≤ fuel → bound ≤ room →
        forget (reduce cfg fuel room base expr env m) = r) := by
  constructor
  · rintro ⟨fuel, room, h⟩
    refine ⟨fuel + room, fun depth hd => ?_⟩
    have hfit : Side.loop.Fits depth fuel room := hd
    rcases reduce_agree hcfg hfit expr env m with ha | hl
    · rw [← ha, h]
    · exact absurd (h ▸ hl) hr
  · rintro ⟨depth, h⟩
    refine ⟨depth, fun fuel room hf hroom => ?_⟩
    have hfit : Side.direct.Fits depth fuel room := ⟨hf, hroom⟩
    rcases reduce_agree hcfg hfit expr env m with ha | hl
    · rw [ha, h]
    · exact absurd (h ▸ hl) hr

/-- A call of an operative with the body `(display x) (eval x e)` and the operand `#t`. -/
def bodyMachine : Machine :=
  { world := { store := {
      cells := #[⟨.operative 0, .pair 1, none⟩, ⟨.bool true, .nil, none⟩,
        ⟨.sym "x", .nil, none⟩,
        ⟨.applicative 0 (.primitive (.operation .display)), .pair 2, none⟩,
        ⟨.applicative 1 (.primitive (.operation .eval)), .pair 5, none⟩,
        ⟨.sym "x", .pair 6, none⟩, ⟨.sym "e", .nil, none⟩]
      frames := #[{}]
      operatives := #[⟨0, .pair 2, .sym "e", [.pair 3, .pair 4], none⟩] } } }

/-- Recursion of depth 4 carries the call to its end after ten steps, so the activations
that take its last form and the expression of `eval` in their turn end the same way. -/
theorem activations_refine_operative_call :
    (({} : Settings).functions = #[]) ∧
    ∃ l, Direct.eval {} 4 (.pair 0) 0 bodyMachine.ledger = .ok (.bool true) l ∧
      l.steps = 10 ∧ l.world.effects = #[⟨.stdout, "#t"⟩] ∧
      ∃ bound, ∀ fuel room, bound ≤ fuel → bound ≤ room →
        forget (reduce {} fuel room 0 (.pair 0) 0 bodyMachine) = .ok (.bool true) l := by
  have hrun : (match Direct.eval {} 4 (.pair 0) 0 bodyMachine.ledger with
      | .ok v l => decide (v = .bool true ∧ l.steps = 10 ∧ l.world.effects = #[⟨.stdout, "#t"⟩])
      | .error _ _ => false) = true := by decide +kernel
  cases he : Direct.eval {} 4 (.pair 0) 0 bodyMachine.ledger with
  | error e l =>
    rw [he] at hrun
    exact absurd hrun Bool.false_ne_true
  | ok v l =>
    rw [he] at hrun
    obtain ⟨rfl, hsteps, heffects⟩ := of_decide_eq_true hrun
    have hr : ¬ Limited (.ok (.bool true) l : EStateM.Result Stop Ledger Value) := by
      rintro ⟨e, l', -, h⟩
      cases h
    exact ⟨rfl, l, rfl, hsteps, heffects,
      (activations_refine_recursion rfl 0 (.pair 0) 0 bodyMachine hr).2 ⟨4, he⟩⟩

end Vau
