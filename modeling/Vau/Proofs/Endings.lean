import Vau.Proofs.Outcome
import Vau.Proofs.Rounds

/-! How evaluations end. With fuel enough, and as long as steps are not limited, an evaluation ends
with a value or with a failure, and in a world; it does so from every machine in the world in which
it begins. There is a rule for each way in which an activation goes on, and one for each place where
a failure ends it. -/

namespace Vau

/-- The end of a computation: a value or a stop, and the world that is left. -/
abbrev End (α : Type) := EStateM.Result Stop World α

/-- With fuel enough the action, entered at any depth of the call stack, has the end. -/
def Ends {α : Type} (x : Nat → Nat → Action α) (w : World) (o : End α) : Prop :=
  ∃ k, ∀ fuel, k ≤ fuel → ∀ base (m : Machine), m.world = w → outcome (x fuel base m) = o

section Outcomes

variable {α : Type} {r : EStateM.Result Stop Machine α} {w : World}

theorem outcome_eq_ok {a : α} : outcome r = .ok a w ↔ ∃ m, r = .ok a m ∧ m.world = w := by
  cases r with
  | ok b m => simp [outcome]
  | error e m => simp [outcome]

theorem outcome_eq_error {e : Stop} :
    outcome r = .error e w ↔ ∃ m, r = .error e m ∧ m.world = w := by
  cases r with
  | ok b m => simp [outcome]
  | error d m => simp [outcome]

end Outcomes

namespace Ends

variable {α β : Type} {x : Nat → Nat → Action α} {f : Nat → Nat → α → Action β} {w w' w₁ : World}
  {a : α} {e : Stop} {n : Nat}

theorem ok_iff : Ends x w (.ok a w') ↔ Brings false n x w a w' := by
  constructor
  · rintro ⟨k, h⟩
    refine ⟨k, Bool.noConfusion, fun fuel hfuel base m hm => ?_⟩
    exact outcome_eq_ok.mp (h fuel (by omega) base m hm)
  · rintro ⟨k, -, h⟩
    refine ⟨n + k, fun fuel hfuel base m hm => ?_⟩
    exact outcome_eq_ok.mpr (h fuel hfuel base m hm)

theorem bind {o : End β} (hx : Ends x w (.ok a w₁))
    (hf : Ends (fun fuel base => f fuel base a) w₁ o) :
    Ends (fun fuel base => x fuel base >>= f fuel base) w o := by
  obtain ⟨k, hx⟩ := hx
  obtain ⟨l, hf⟩ := hf
  refine ⟨k + l, fun fuel hfuel base m hm => ?_⟩
  obtain ⟨m₁, hrun, hm₁⟩ := outcome_eq_ok.mp (hx fuel (by omega) base m hm)
  rw [← hf fuel (by omega) base m₁ hm₁]
  simp only [Bind.bind, EStateM.bind, hrun]

/-- What comes after a failure is not done. -/
theorem fails (hx : Ends x w (.error e w')) :
    Ends (fun fuel base => x fuel base >>= f fuel base) w (.error e w') := by
  obtain ⟨k, hx⟩ := hx
  refine ⟨k, fun fuel hfuel base m hm => ?_⟩
  obtain ⟨m', hrun, rfl⟩ := outcome_eq_error.mp (hx fuel hfuel base m hm)
  simp only [Bind.bind, EStateM.bind, hrun]
  rfl

theorem act (d : Deed α) (w : World) : Ends (fun _ _ => d.act) w (d w) := by
  refine ⟨0, ?_⟩
  rintro fuel - base ⟨world, stack, steps, calls⟩ rfl
  simp only [Deed.act]
  cases d world <;> rfl

theorem gives (h : ∀ fuel base, (x fuel base).Gives w a w') : Ends x w (.ok a w') :=
  ok_iff.mpr (.always (n := 0) h)

theorem reads (f : Store → α) (w : World) :
    Ends (fun _ _ => (Deed.reads f).act) w (.ok (f w.store) w) :=
  act _ w

theorem congr {o : End α} {y : Nat → Nat → Action α} (hy : Ends y w o) {k : Nat}
    (h : ∀ fuel, k ≤ fuel → ∀ base, x fuel base = y fuel base) : Ends x w o := by
  obtain ⟨l, hy⟩ := hy
  refine ⟨k + l, fun fuel hfuel base m hm => ?_⟩
  rw [h fuel (by omega) base]
  exact hy fuel (by omega) base m hm

end Ends

/-- Where an activation with room for `room` nested ones, which begins with the expression, ends. -/
def Evaluates (cfg : Settings) (room : Nat) (expr : Value) (env : Nat) (w : World)
    (o : End Value) : Prop :=
  Ends (fun fuel base => reduce cfg fuel room base expr env) w o

/-- Where the activation ends that has found the combiner and what it is to receive. -/
def Receives (cfg : Settings) (room : Nat) (combiner operands : Value) (env : Nat) (w : World)
    (o : End Value) : Prop :=
  Ends (finish cfg room combiner operands env) w o

/-- Where the activation ends in which the combiner is to receive a fresh list of the arguments. -/
def Applied (cfg : Settings) (room : Nat) (combiner : Value) (args : List Value) (env : Nat)
    (w : World) (o : End Value) : Prop :=
  Receives cfg room combiner (w.store.list args .nil).1 env
    ⟨(w.store.list args .nil).2, w.effects⟩ o

/-- The forms are evaluated one after the other, the last one in the place of them all; its end is
the end of the sequence. -/
inductive Sequence (cfg : Settings) (room env : Nat) : List Value → World → End Value → Prop
  | empty {w : World} : Sequence cfg room env [] w (.ok .inert w)
  | last {form : Value} {w : World} {o : End Value}
    (h : Evaluates cfg (room + 1) form env w o) : Sequence cfg room env [form] w o
  | failed {form following : Value} {forms : List Value} {w w' : World} {e : Stop}
    (h : Evaluates cfg room form env w (.error e w')) :
    Sequence cfg room env (form :: following :: forms) w (.error e w')
  | next {form following v : Value} {forms : List Value} {w w₁ : World} {o : End Value}
    (h : Evaluates cfg room form env w (.ok v w₁))
    (hrest : Sequence cfg room env (following :: forms) w₁ o) :
    Sequence cfg room env (form :: following :: forms) w o

/-- The expressions are evaluated from left to right, up to the first that fails. -/
inductive EvaluatesAll (cfg : Settings) (room env : Nat) :
    List Value → World → End (List Value) → Prop
  | nil {w : World} : EvaluatesAll cfg room env [] w (.ok [] w)
  | failed {expr : Value} {exprs : List Value} {w w' : World} {e : Stop}
    (h : Evaluates cfg room expr env w (.error e w')) :
    EvaluatesAll cfg room env (expr :: exprs) w (.error e w')
  | later {expr v : Value} {exprs : List Value} {w w₁ w' : World} {e : Stop}
    (h : Evaluates cfg room expr env w (.ok v w₁))
    (hrest : EvaluatesAll cfg room env exprs w₁ (.error e w')) :
    EvaluatesAll cfg room env (expr :: exprs) w (.error e w')
  | cons {expr v : Value} {exprs vs : List Value} {w w₁ w' : World}
    (h : Evaluates cfg room expr env w (.ok v w₁))
    (hrest : EvaluatesAll cfg room env exprs w₁ (.ok vs w')) :
    EvaluatesAll cfg room env (expr :: exprs) w (.ok (v :: vs) w')

/-- The evaluation of the operands comes to one that fails. -/
inductive Refuses (cfg : Settings) (room env : Nat) (e : Stop) (w' : World) :
    Value → World → Prop
  | here {r : Nat} {w : World} (h : Evaluates cfg room (w.store.head r) env w (.error e w')) :
    Refuses cfg room env e w' (.pair r) w
  | later {r : Nat} {v : Value} {w w₁ : World}
    (h : Evaluates cfg room (w.store.head r) env w (.ok v w₁))
    (hrest : Refuses cfg room env e w' (w₁.store.tail r) w₁) :
    Refuses cfg room env e w' (.pair r) w

variable {cfg : Settings} {n room env : Nat} {expr c operands v : Value} {w w₁ w' : World}
  {o : End Value} {e : Stop}

theorem evaluates_ok :
    Evaluates cfg room expr env w (.ok v w') ↔ Yields cfg.uncounted n room expr env w v w' :=
  Ends.ok_iff

theorem receives_ok : Receives cfg room c operands env w (.ok v w') ↔
    Calls cfg.uncounted n room c operands env w v w' :=
  Ends.ok_iff

theorem applied_ok {args : List Value} : Applied cfg room c args env w (.ok v w') ↔
    Invokes cfg.uncounted n room c args env w v w' :=
  Ends.ok_iff

namespace Evaluates

theorem nested (h : Evaluates cfg room expr env w o) :
    Ends (fun fuel _ => Vau.nested (reduce cfg fuel) (room + 1) expr env) w o := by
  obtain ⟨k, h⟩ := h
  exact ⟨k, fun fuel hfuel _ m hm => h fuel hfuel m.stack.size m hm⟩

theorem of_turn (h : Ends (fun fuel base => turn cfg (Vau.nested (reduce cfg fuel) room) fuel room
      base expr env >>= conclude base (reduce cfg fuel room base)) w o) :
    Evaluates cfg room expr env w o := by
  obtain ⟨k, h⟩ := h
  refine ⟨k + 1, fun fuel hfuel base m hm => ?_⟩
  obtain ⟨fuel, rfl⟩ : ∃ l, fuel = l + 1 := ⟨fuel - 1, by omega⟩
  have hreduce : reduce cfg (fuel + 1) room base expr env =
      (turn cfg (Vau.nested (reduce cfg fuel) room) fuel room base expr env >>=
        conclude base (reduce cfg fuel room base)) := by
    rw [reduce]
    congr 1
  exact (congrArg (fun x : Action Value => outcome (x m)) hreduce).trans
    (h fuel (by omega) base m hm)

section Combinations

variable {r : Nat} (hlimit : cfg.stepLimit = none)
include hlimit

theorem started (r : Nat) (w : World) : Ends (fun _ base => do
    Action.tick cfg.stepLimit
    Action.enter base (.pair r)) w (.ok () w) :=
  .gives fun _ base => (Action.Gives.tick hlimit w).bind (.enter base _ w)

theorem combination (hresolve : Prepares cfg.uncounted n room r env w c operands w₁)
    (hcall : Receives cfg room c operands env w₁ o) : Evaluates cfg room (.pair r) env w o := by
  have hturn := (started hlimit r w).bind (f := fun fuel base _ => do
    let c ← resolve (Vau.nested (reduce cfg fuel) room) fuel r env
    finish cfg room c.1 c.2 env fuel base) ((Ends.ok_iff.mpr hresolve).bind hcall)
  refine of_turn ?_
  simpa only [turn, finish, bind_assoc] using hturn

theorem unprepared (hresolve : Ends (fun fuel _ =>
      resolve (Vau.nested (reduce cfg fuel) room) fuel r env) w (.error e w')) :
    Evaluates cfg room (.pair r) env w (.error e w') := by
  have hturn := (started hlimit r w).bind (f := fun fuel base _ => do
    let c ← resolve (Vau.nested (reduce cfg fuel) room) fuel r env
    finish cfg room c.1 c.2 env fuel base) hresolve.fails
  refine of_turn ?_
  simpa only [turn, finish, bind_assoc] using hturn

/-- A combination fails as its operator does. -/
theorem operator_failed (h : Evaluates cfg room (w.store.head r) env w (.error e w')) :
    Evaluates cfg (room + 1) (.pair r) env w (.error e w') :=
  unprepared hlimit ((Ends.reads (fun s => s.head r) w).bind h.nested.fails)

end Combinations

end Evaluates

theorem Refuses.fails (h : Refuses cfg room env e w' operands w) (whole : Value)
    (done : List Value) (j : Nat) : Ends (fun fuel _ => operandValues
      (nested (reduce cfg fuel) (room + 1)) env whole (fuel - j) done operands) w (.error e w') := by
  have hstep (done : List Value) (j r fuel : Nat) (hfuel : j + 1 ≤ fuel) (_ : Nat) :
      operandValues (nested (reduce cfg fuel) (room + 1)) env whole (fuel - j) done (.pair r) = (do
        let head ← (Deed.reads fun s => s.head r).act
        let v ← nested (reduce cfg fuel) (room + 1) head env
        let rest ← (Deed.reads fun s => s.tail r).act
        operandValues (nested (reduce cfg fuel) (room + 1)) env whole (fuel - (j + 1)) (v :: done)
          rest) := by
    rw [show fuel - j = fuel - (j + 1) + 1 by omega, operandValues]
  -- one operand after the other, with one unit of the limit for each
  induction h generalizing done j with
  | @here r w h =>
    exact ((Ends.reads (fun s => s.head r) w).bind h.nested.fails).congr (hstep done j r)
  | @later r v w w₁ h _ ih =>
    exact ((Ends.reads (fun s => s.head r) w).bind (h.nested.bind
      ((Ends.reads (fun s => s.tail r) w₁).bind (ih (v :: done) (j + 1))))).congr (hstep done j r)

/-- A combination fails as an operand of a wrapped combiner does. -/
theorem Evaluates.operand_failed (hlimit : cfg.stepLimit = none) {r label : Nat} {u : Value}
    (hoperator : Evaluates cfg room (w.store.head r) env w (.ok (.applicative label u) w₁))
    (hoperands : Refuses cfg room env e w' (w₁.store.tail r) w₁) :
    Evaluates cfg (room + 1) (.pair r) env w (.error e w') := by
  refine unprepared hlimit ((Ends.reads (fun s => s.head r) w).bind (hoperator.nested.bind ?_))
  refine (Ends.reads (fun s => s.tail r) w₁).bind ?_
  exact (hoperands.fails (w₁.store.tail r) [] 0).fails

theorem Sequence.ends {forms : List Value} (h : Sequence cfg room env forms w o) :
    Ends (fun fuel base => runForms (nested (reduce cfg fuel) (room + 1)) env forms >>=
      conclude base (reduce cfg fuel (room + 1) base)) w o := by
  induction h with
  | @empty w => exact .gives fun fuel base => (Action.Gives.pure _ w).bind (.leave base _ w)
  | @last form w o h =>
    exact (Ends.gives fun _ _ => .pure (Answer.proceed form env) w).bind
      (f := fun fuel base => conclude base (reduce cfg fuel (room + 1) base)) h
  | failed h =>
    simp only [runForms, bind_assoc]
    exact h.nested.fails
  | next h _ ih =>
    simp only [runForms, bind_assoc]
    exact h.nested.bind ih

namespace Receives

theorem of_proceed {env' : Nat} (h : Ends (fun fuel _ => combine cfg
      (nested (reduce cfg fuel) room) fuel room c operands env) w (.ok (.proceed expr env') w₁))
    (hexpr : Evaluates cfg room expr env' w₁ o) : Receives cfg room c operands env w o :=
  h.bind (f := fun fuel base => conclude base (reduce cfg fuel room base)) hexpr

theorem noted (logging : Bool) (call : String) (w : World) :
    Ends (fun _ _ => Action.notes logging call) w (.ok () w) :=
  .gives fun _ _ => .notes logging call w

theorem checked {vs : List Value} (hspine : w.store.spine? operands = some (vs, .nil))
    (signature : Signature) (hadmits : signature.admits vs.length = true) :
    Ends (fun _ _ => (checkedOperands signature operands).act) w (.ok vs w) := by
  have hchecked : checkedOperands signature operands w = .ok vs w := by
    simp only [checkedOperands, Deed.reads, Bind.bind, EStateM.bind, hspine, hadmits, if_true]
    rfl
  exact hchecked ▸ Ends.act _ w

section Primitives

variable {vs : List Value} (hspine : w.store.spine? operands = some (vs, .nil))
include hspine

theorem eval {env' : Nat} (hvs : vs = [expr, .env env']) (h : Evaluates cfg room expr env' w o) :
    Receives cfg room (.primitive (.operation .eval)) operands env w o := by
  subst hvs
  refine of_proceed ((noted _ _ w).bind ((checked hspine _ rfl).bind ?_)) h
  exact Ends.act (Operation.eval.perform room env [expr, .env env']) w

theorem operation_failed {op : Operation} (hadmits : op.signature.admits vs.length = true)
    (h : op.perform room env vs w = .error e w') :
    Receives cfg room (.primitive (.operation op)) operands env w (.error e w') := by
  refine Ends.fails ((noted _ _ w).bind ((checked hspine _ hadmits).bind ?_))
  exact h ▸ Ends.act (op.perform room env vs) w

theorem sequence (h : Sequence cfg room env vs w o) :
    Receives cfg (room + 1) (.primitive (.form .sequence)) operands env w o := by
  have hrun := (noted cfg.logging ("[DBG] primitive " ++ (Primitive.form .sequence).name) w).bind
    (f := fun fuel base _ => do
      let vs ← (checkedOperands (Primitive.form .sequence).signature operands).act
      runForms (nested (reduce cfg fuel) (room + 1)) env vs >>=
        conclude base (reduce cfg fuel (room + 1) base)) ((checked hspine _ rfl).bind h.ends)
  refine hrun.congr (k := 0) fun fuel _ base => ?_
  simp only [finish, combine, callPrimitive, Form.perform, bind_assoc]

end Primitives

/-- An operative evaluates its body in a fresh frame in its scope. -/
theorem operative {q f : Nat}
    (hopen : openFrame (w.store.operative q) operands env w = .ok f w₁)
    (h : Sequence cfg room f (w.store.operative q).body w₁ o) :
    Receives cfg (room + 1) (.operative q) operands env w o := by
  have hframe := Ends.act (openFrame (w.store.operative q) operands env) w
  rw [hopen] at hframe
  have hrun := (Ends.reads (fun s => s.operative q) w).bind
    (f := fun fuel base found => do
      Action.notes cfg.logging ("[DBG] operative " ++ Store.inspectedName found.name)
      let frame ← (openFrame found operands env).act
      runForms (nested (reduce cfg fuel) (room + 1)) frame found.body >>=
        conclude base (reduce cfg fuel (room + 1) base))
    ((noted _ _ w).bind (hframe.bind h.ends))
  refine hrun.congr (k := 0) fun fuel _ base => ?_
  simp only [finish, combine, callOperative_eq, bind_assoc]

end Receives

end Vau
