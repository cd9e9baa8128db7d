import Vau.Proofs.FormalTree
import Vau.Proofs.Refinement
import Vau.Proofs.Respect

/-! What an expression comes to. An evaluation that is not limited in steps comes to its value in
the same way from every machine in one world, as soon as it has fuel enough; what depends on the
call stack is only where its frames stand. The rules below follow the clauses of the evaluator, one
for each way in which an activation can go on. -/

namespace Vau

/-- From every machine in the world `w` the action comes to `a` and leaves the world `w'`. -/
def Action.Gives {α : Type} (x : Action α) (w : World) (a : α) (w' : World) : Prop :=
  ∀ m : Machine, m.world = w → ∃ m', x m = .ok a m' ∧ m'.world = w'

namespace Action.Gives

variable {α β : Type} {w w' w'' : World} {a : α} {b : β}

theorem pure (a : α) (w : World) : (Pure.pure a : Action α).Gives w a w :=
  fun m hm => ⟨m, rfl, hm⟩

theorem bind {x : Action α} {f : α → Action β} (hx : x.Gives w a w') (hf : (f a).Gives w' b w'') :
    (x >>= f).Gives w b w'' := by
  intro m hm
  obtain ⟨m₁, hx, hm₁⟩ := hx m hm
  obtain ⟨m₂, hf, hm₂⟩ := hf m₁ hm₁
  exact ⟨m₂, by simp only [Bind.bind, EStateM.bind, hx, hf], hm₂⟩

theorem act {d : Deed α} (h : d w = .ok a w') : d.act.Gives w a w' := by
  rintro ⟨world, stack, steps, calls⟩ rfl
  exact ⟨⟨w', stack, steps, calls⟩, by simp only [Deed.act, show d world = _ from h], rfl⟩

theorem reads (f : Store → α) (w : World) : (Deed.reads f).act.Gives w (f w.store) w := act rfl

theorem tick {limit : Option Int} (h : limit = none) (w : World) :
    (Action.tick limit).Gives w () w := by
  subst h
  exact fun m hm => ⟨{ m with steps := m.steps + 1 }, rfl, hm⟩

theorem enter (base : Nat) (v : Value) (w : World) : (Action.enter base v).Gives w () w :=
  fun _ hm => ⟨_, rfl, hm⟩

theorem leave (base : Nat) (a : α) (w : World) : (Action.leave base a).Gives w a w :=
  fun _ hm => ⟨_, rfl, hm⟩

theorem notes (logging : Bool) (call : String) (w : World) :
    (Action.notes logging call).Gives w () w := by
  intro m hm
  refine ⟨_, rfl, ?_⟩
  split
  · exact hm
  · exact hm

end Action.Gives

/-- The settings of a run, and whether the fuel that it needs is counted. -/
structure Gauge extends Settings where
  counted : Bool

def Settings.uncounted (cfg : Settings) : Gauge := ⟨cfg, false⟩

/-- With fuel for `n` turns, or with fuel enough where it is not counted, the action, entered at any
depth of the call stack, gives the result. -/
def Brings {α : Type} (counted : Bool) (n : Nat) (x : Nat → Nat → Action α) (w : World) (a : α)
    (w' : World) : Prop :=
  ∃ k, (counted = true → k = 0) ∧ ∀ fuel, n + k ≤ fuel → ∀ base, (x fuel base).Gives w a w'

namespace Brings

variable {α β : Type} {counted : Bool} {n : Nat} {w w' w'' : World} {a : α} {b : β}

theorem always {x : Nat → Nat → Action α} (h : ∀ fuel base, (x fuel base).Gives w a w') :
    Brings counted n x w a w' :=
  ⟨0, fun _ => rfl, fun fuel _ => h fuel⟩

theorem fuller {x : Nat → Nat → Action α} (h : Brings counted n x w a w') {m : Nat} (hm : n ≤ m) :
    Brings counted m x w a w' := by
  obtain ⟨k, hk, h⟩ := h
  exact ⟨k, hk, fun fuel hfuel => h fuel (by omega)⟩

/-- Where fuel is not counted there is always enough. -/
theorem uncounted {x : Nat → Nat → Action α} (h : Brings false n x w a w') (m : Nat) :
    Brings false m x w a w' := by
  obtain ⟨k, -, h⟩ := h
  exact ⟨n + k, Bool.noConfusion, fun fuel hfuel => h fuel (by omega)⟩

theorem bind {x : Nat → Nat → Action α} {f : Nat → Nat → α → Action β}
    (hx : Brings counted n x w a w')
    (hf : Brings counted n (fun fuel base => f fuel base a) w' b w'') :
    Brings counted n (fun fuel base => x fuel base >>= f fuel base) w b w'' := by
  obtain ⟨k, hk, hx⟩ := hx
  obtain ⟨l, hl, hf⟩ := hf
  refine ⟨k + l, fun hcounted => by rw [hk hcounted, hl hcounted], fun fuel hfuel base => ?_⟩
  exact (hx fuel (by omega) base).bind (hf fuel (by omega) base)

theorem act {d : Deed α} (h : d w = .ok a w') : Brings counted n (fun _ _ => d.act) w a w' :=
  always fun _ _ => .act h

theorem reads (f : Store → α) (w : World) :
    Brings counted n (fun _ _ => (Deed.reads f).act) w (f w.store) w :=
  act rfl

theorem notes (logging : Bool) (call : String) (w : World) :
    Brings counted n (fun _ _ => Action.notes logging call) w () w :=
  always fun _ _ => .notes logging call w

end Brings

variable {cfg : Gauge} {n : Nat}

/-- An activation with room for `room` nested ones reduces the expression to `v`. -/
def Yields (cfg : Gauge) (n room : Nat) (expr : Value) (env : Nat) (w : World) (v : Value)
    (w' : World) : Prop :=
  Brings cfg.counted n (fun fuel base => reduce cfg.toSettings fuel room base expr env) w v w'

/-- What an activation does when the combiner and its operands have been found. -/
def finish (cfg : Settings) (room : Nat) (combiner operands : Value) (env fuel base : Nat) :
    Action Value := do
  let answer ← combine cfg (nested (reduce cfg fuel) room) fuel room combiner operands env
  conclude base (reduce cfg fuel room base) answer

/-- Called with these operands the combiner comes to `v`. -/
def Calls (cfg : Gauge) (n room : Nat) (combiner operands : Value) (env : Nat) (w : World)
    (v : Value) (w' : World) : Prop :=
  Brings cfg.counted n (finish cfg.toSettings room combiner operands env) w v w'

/-- Called with a fresh list of the arguments the combiner comes to `v`. -/
def Invokes (cfg : Gauge) (n room : Nat) (combiner : Value) (args : List Value) (env : Nat)
    (w : World) (v : Value) (w' : World) : Prop :=
  Calls cfg n room combiner (w.store.list args .nil).1 env
    ⟨(w.store.list args .nil).2, w.effects⟩ v w'

/-- The operands, evaluated from left to right in nested activations, come to the values. -/
inductive Operands (cfg : Gauge) (n room env : Nat) :
    Value → World → List Value → World → Prop
  | nil {w : World} : Operands cfg n room env .nil w [] w
  | cons {r : Nat} {v : Value} {vs : List Value} {w w₁ w₂ : World}
    (hfirst : Yields cfg n room (w.store.head r) env w v w₁)
    (hrest : Operands cfg n room env (w₁.store.tail r) w₁ vs w₂) :
    Operands cfg n room env (.pair r) w (v :: vs) w₂

theorem Yields.nested {room env : Nat} {expr v : Value} {w w' : World}
    (h : Yields cfg n room expr env w v w') : Brings cfg.counted n
      (fun fuel _ => Vau.nested (reduce cfg.toSettings fuel) (room + 1) expr env) w v w' := by
  obtain ⟨k, hk, h⟩ := h
  exact ⟨k, hk, fun fuel hfuel _ m hm => h fuel hfuel m.stack.size m hm⟩

theorem Operands.gives {room env : Nat} {operands : Value} {vs : List Value} {w w' : World}
    (h : Operands cfg n room env operands w vs w') :
    ∃ k, (cfg.counted = true → k = 0) ∧ ∀ fuel, n + k ≤ fuel →
      ∀ (whole : Value) (done : List Value) (limit : Nat), vs.length ≤ limit →
        (operandValues (Vau.nested (reduce cfg.toSettings fuel) (room + 1)) env whole limit done
          operands).Gives w (done.reverse ++ vs) w' := by
  -- `done` has the values so far, the last of them first
  induction h with
  | @nil w =>
    refine ⟨0, fun _ => rfl, fun fuel _ whole done limit _ => ?_⟩
    rw [List.append_nil]
    cases limit <;> exact .pure _ w
  | @cons r v vs w w₁ w₂ hfirst _ ih =>
    obtain ⟨k, hk, hfirst⟩ := hfirst.nested
    obtain ⟨l, hl, hrest⟩ := ih
    refine ⟨k + l, fun hcounted => by rw [hk hcounted, hl hcounted], ?_⟩
    intro fuel hfuel whole done limit hlimit
    obtain ⟨limit, rfl⟩ : ∃ l, limit = l + 1 := ⟨limit - 1, by simp at hlimit; omega⟩
    refine (Action.Gives.reads _ w).bind ((hfirst fuel (by omega) 0).bind ?_)
    refine (Action.Gives.reads _ w₁).bind ?_
    simpa using hrest fuel (by omega) whole (v :: done) limit (by simpa using hlimit)

theorem Operands.brings {room env : Nat} {operands : Value} {vs : List Value} {w w' : World}
    (h : Operands cfg n room env operands w vs w') (hn : vs.length ≤ n) :
    Brings cfg.counted n (fun fuel _ => operandValues
      (Vau.nested (reduce cfg.toSettings fuel) (room + 1)) env operands fuel [] operands) w vs w' := by
  obtain ⟨k, hk, h⟩ := h.gives
  exact ⟨k, hk, fun fuel hfuel _ => h fuel hfuel operands [] fuel (by omega)⟩

/-- The operator and the operands of a combination come to a combiner and what it is to receive. -/
def Prepares (cfg : Gauge) (n room : Nat) (r env : Nat) (w : World) (c operands : Value)
    (w' : World) : Prop :=
  Brings cfg.counted n (fun fuel _ => resolve (nested (reduce cfg.toSettings fuel) room) fuel r env)
    w (c, operands) w'

section Reducing

variable (hlimit : cfg.stepLimit = none) {room env : Nat}
include hlimit

omit hlimit in
theorem yields_of_turn {expr v : Value} {w w' : World}
    (h : Brings cfg.counted n (fun fuel base =>
      turn cfg.toSettings (nested (reduce cfg.toSettings fuel) room) fuel room base expr env >>=
        conclude base (reduce cfg.toSettings fuel room base)) w v w') :
    Yields cfg (n + 1) room expr env w v w' := by
  obtain ⟨k, hk, h⟩ := h
  refine ⟨k, hk, fun fuel hfuel base => ?_⟩
  obtain ⟨fuel, rfl⟩ : ∃ l, fuel = l + 1 := ⟨fuel - 1, by omega⟩
  have hreduce : reduce cfg.toSettings (fuel + 1) room base expr env =
      (turn cfg.toSettings (nested (reduce cfg.toSettings fuel) room) fuel room base expr env >>=
        conclude base (reduce cfg.toSettings fuel room base)) := by
    rw [reduce]
    congr 1
  show (reduce cfg.toSettings (fuel + 1) room base expr env).Gives w v w'
  rw [hreduce]
  exact h fuel (by omega) base

omit hlimit in
theorem yields_of_value {expr v : Value} {w : World}
    (h : ∀ ev fuel base, (turn cfg.toSettings ev fuel room base expr env).Gives w (.value v) w) :
    Yields cfg (n + 1) room expr env w v w :=
  yields_of_turn (.always fun fuel base => (h _ fuel base).bind
    (show (conclude base (reduce cfg.toSettings fuel room base) (.value v)).Gives w v w from
      .leave base v w))

theorem yields_symbol {name : String} {v : Value} {w : World}
    (h : w.store.lookup? env name = some v) : Yields cfg (n + 1) room (.sym name) env w v w := by
  refine yields_of_value fun ev fuel base => ?_
  refine .bind (.tick hlimit w) (.bind (.reads _ w) ?_)
  rw [h]
  exact .pure _ w

theorem yields_constant {v : Value} (hpair : v.isPair = false) (hsymbol : v.isSymbol = false)
    (w : World) : Yields cfg (n + 1) room v env w v w := by
  refine yields_of_value fun ev fuel base => .bind (.tick hlimit w) ?_
  cases v with
  | pair r => cases hpair
  | sym name => cases hsymbol
  | _ => exact .pure _ w

theorem yields_combination {r : Nat} {c operands v : Value} {w w₁ w₂ : World}
    (hresolve : Prepares cfg n room r env w c operands w₁)
    (hcall : Calls cfg n room c operands env w₁ v w₂) :
    Yields cfg (n + 1) room (.pair r) env w v w₂ := by
  have hstart : Brings cfg.counted n (fun _ base => do
      Action.tick cfg.stepLimit
      Action.enter base (.pair r)) w () w :=
    .always fun _ base => (Action.Gives.tick hlimit w).bind (.enter base _ w)
  have hturn := hstart.bind (f := fun fuel base _ => do
    let c ← resolve (nested (reduce cfg.toSettings fuel) room) fuel r env
    finish cfg.toSettings room c.1 c.2 env fuel base) (hresolve.bind hcall)
  refine yields_of_turn ?_
  simpa only [turn, finish, bind_assoc] using hturn

end Reducing

section Preparing

variable {room env r : Nat} {w w₁ w₂ : World}

theorem unwrapAll_plain {c : Value} (hc : c.isApplicative = false) (ev : Evaluation) (env fuel : Nat)
    (operands : Value) : unwrapAll ev env fuel c operands = pure (c, operands) := by
  cases c with
  | applicative label u => cases hc
  | _ => rfl

theorem Prepares.plain {c : Value} (hc : c.isApplicative = false)
    (h : Yields cfg n room (w.store.head r) env w c w₁) :
    Prepares cfg n (room + 1) r env w c (w₁.store.tail r) w₁ := by
  refine (Brings.reads (fun s => s.head r) w).bind (h.nested.bind ?_)
  refine (Brings.reads (fun s => s.tail r) w₁).bind (.always fun fuel _ => ?_)
  rw [unwrapAll_plain hc]
  exact .pure _ w₁

/-- A wrapped combiner is to receive a fresh list of what the operands come to. -/
theorem Prepares.wrapped {label : Nat} {c : Value} (hc : c.isApplicative = false) {vs : List Value}
    (h : Yields cfg n room (w.store.head r) env w (.applicative label c) w₁)
    (hoperands : Operands cfg n room env (w₁.store.tail r) w₁ vs w₂) (hn : vs.length ≤ n) :
    Prepares cfg n (room + 1) r env w c (w₂.store.list vs .nil).1
      ⟨(w₂.store.list vs .nil).2, w₂.effects⟩ := by
  refine (Brings.reads (fun s => s.head r) w).bind (h.nested.bind ?_)
  refine (Brings.reads (fun s => s.tail r) w₁).bind ?_
  refine (hoperands.brings hn).bind ?_
  refine Brings.bind (.act (d := Deed.makes fun s => s.list vs .nil) rfl) (.always fun fuel _ => ?_)
  rw [unwrapAll_plain hc]
  exact .pure _ _

end Preparing

/-- The fresh frame in which an operative is called, with its operands bound. -/
def openFrame (o : Operative) (operands : Value) (env : Nat) : Deed Nat := do
  let frame ← Deed.makes fun s => s.newFrame (some o.scope)
  Deed.binds frame o.formals operands
  bindDynamic frame env o.dynamic
  return frame

theorem callOperative_eq (ev : Evaluation) (o : Operative) (operands : Value) (env : Nat) :
    callOperative ev o operands env =
      (openFrame o operands env).act >>= fun frame => runForms ev frame o.body := by
  simp only [callOperative, openFrame, Deed.act_bind, bind_assoc]
  rfl

/-- What the frame of a call binds to the environment of the caller. -/
def callerBinding (env : Nat) : Value → List (String × Value)
  | .sym name => [(name, .env env)]
  | _ => []

theorem openFrame_eq {o : Operative} {operands : Value} {env : Nat} {w : World}
    {bs : List (String × Value)}
    (h : (w.store.newFrame (some o.scope)).2.matchFormals o.formals operands = .ok bs) :
    openFrame o operands env w = .ok w.store.frames.size
      ⟨(w.store.newFrame (some o.scope)).2.defineAll w.store.frames.size
        (bs ++ callerBinding env o.dynamic), w.effects⟩ := by
  have hbinds : Deed.binds w.store.frames.size o.formals operands
      ⟨(w.store.newFrame (some o.scope)).2, w.effects⟩ =
      .ok () ⟨(w.store.newFrame (some o.scope)).2.defineAll w.store.frames.size bs, w.effects⟩ := by
    simp only [Deed.binds, Deed.tries, Deed.changes, Bind.bind, EStateM.bind, h]
  have hdynamic : ∀ s : Store, bindDynamic w.store.frames.size env o.dynamic ⟨s, w.effects⟩ =
      .ok () ⟨s.defineAll w.store.frames.size (callerBinding env o.dynamic), w.effects⟩ := by
    intro s
    cases o.dynamic <;> rfl
  simp only [openFrame, Bind.bind, EStateM.bind, Deed.makes]
  rw [show (w.store.newFrame (some o.scope)).1 = w.store.frames.size from rfl, hbinds]
  simp only [hdynamic, Store.defineAll, List.foldl_append]
  rfl

section Calling

variable {room env : Nat} {operands v : Value} {w w' : World}

theorem calls_of_value {c : Value}
    (h : Brings cfg.counted n (fun fuel _ => combine cfg.toSettings
      (nested (reduce cfg.toSettings fuel) room) fuel room c operands env) w (.value v) w') :
    Calls cfg n room c operands env w v w' :=
  h.bind (f := fun fuel base => conclude base (reduce cfg.toSettings fuel room base))
    (.always fun _ base => .leave base v w')

theorem calls_of_proceed {c expr : Value} {e : Nat} {w₁ : World}
    (h : Brings cfg.counted n (fun fuel _ => combine cfg.toSettings
      (nested (reduce cfg.toSettings fuel) room) fuel room c operands env) w (.proceed expr e) w₁)
    (hexpr : Yields cfg n room expr e w₁ v w') :
    Calls cfg n room c operands env w v w' :=
  h.bind (f := fun fuel base => conclude base (reduce cfg.toSettings fuel room base)) hexpr

/-- An operative with one form as its body evaluates it in a fresh frame in its scope. -/
theorem calls_operative {q e : Nat} {body : Value} {w₁ : World}
    (hbody : (w.store.operative q).body = [body])
    (hopen : openFrame (w.store.operative q) operands env w = .ok e w₁)
    (h : Yields cfg n room body e w₁ v w') :
    Calls cfg n room (.operative q) operands env w v w' := by
  refine calls_of_proceed ?_ h
  refine (Brings.reads (fun s => s.operative q) w).bind ((Brings.notes _ _ w).bind ?_)
  simp only [callOperative_eq]
  refine (Brings.act hopen).bind (.always fun _ _ => ?_)
  rw [hbody]
  exact .pure _ w₁

theorem calls_boolean {b : Bool} {x y : Value}
    (h : Operands cfg n room env operands w [x, y] w') (hn : 2 ≤ n) :
    Calls cfg n (room + 1) (.bool b) operands env w (if b then x else y) w' :=
  calls_of_value ((h.brings hn).bind (.always fun _ _ => .pure _ w'))

section Primitives

variable {vs : List Value} (hspine : w.store.spine? operands = some (vs, .nil))
include hspine

theorem brings_checkedOperands {signature : Signature} (hadmits : signature.admits vs.length = true) :
    Brings cfg.counted n (fun _ _ => (checkedOperands signature operands).act) w vs w := by
  refine .act ?_
  simp only [checkedOperands, Deed.reads, Bind.bind, EStateM.bind, hspine, hadmits, if_true]
  rfl

theorem calls_operation {o : Operation} (hadmits : o.signature.admits vs.length = true)
    (h : o.perform room env vs w = .ok (.value v) w') :
    Calls cfg n room (.primitive (.operation o)) operands env w v w' := by
  refine calls_of_value ((Brings.notes _ _ w).bind ?_)
  exact (brings_checkedOperands hspine hadmits).bind (.act h)

theorem calls_eval {expr : Value} {e : Nat} (hvs : vs = [expr, .env e])
    (h : Yields cfg n room expr e w v w') :
    Calls cfg n room (.primitive (.operation .eval)) operands env w v w' := by
  subst hvs
  refine calls_of_proceed ((Brings.notes _ _ w).bind ?_) h
  exact (brings_checkedOperands hspine rfl).bind (.act rfl)

theorem calls_define {name : String} {expr : Value} (hvs : vs = [.sym name, expr])
    (h : Yields cfg n room expr env w v w') :
    Calls cfg n (room + 1) (.primitive (.form .define)) operands env w .inert
      ⟨(w'.store.define env name v).giveName v name, w'.effects⟩ := by
  subst hvs
  refine calls_of_value ((Brings.notes _ _ w).bind ?_)
  refine (brings_checkedOperands hspine rfl).bind ?_
  have hsymbol : ∀ s : Store, s.Unfolds (.sym name) (.leaf (.sym name)) := fun _ => .leaf rfl
  have hnames : (Deed.tries fun s => s.formalNames (.sym name)) w = .ok [name] w := by
    simp only [Deed.tries, Store.formalNames_unfolds (hsymbol _)]
    rfl
  have hbinds : Deed.binds env (.sym name) v w' =
      .ok () ⟨w'.store.define env name v, w'.effects⟩ := by
    simp only [Deed.binds, Deed.tries, Deed.changes, Bind.bind, EStateM.bind,
      Store.matchFormals_unfolds (hsymbol _)]
    rfl
  refine (Brings.act hnames).bind (h.nested.bind ((Brings.act hbinds).bind ?_))
  exact Brings.bind (.act (d := Deed.changes fun s => s.giveName v name) rfl)
    (.always fun _ _ => .pure _ _)

end Primitives

end Calling

end Vau
