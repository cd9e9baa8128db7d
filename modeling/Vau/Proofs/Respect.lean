import Vau.Proofs.Change
import Vau.Session

/-! Relations between computations that the evaluator respects. What an activation does
with a combination is made of a few kinds of deeds, notes of calls and nested activations. A
relation that holds of these and of sequences of related computations therefore holds of
all of it, as soon as it holds of the nested activations. -/

namespace Vau

/-- A class of deeds to which everything belongs that the evaluator does with the world. -/
structure Deed.Repertoire (good : {α : Type} → Deed α → Prop) : Prop where
  pure : ∀ {α : Type} (a : α), good (Pure.pure a : Deed α)
  fail : ∀ {α : Type} (f : Failure), good (Deed.fail f : Deed α)
  outOfFuel : ∀ {α : Type}, good (MonadExcept.throw .outOfFuel : Deed α)
  head : ∀ r, good (Deed.reads fun s => s.head r)
  tail : ∀ r, good (Deed.reads fun s => s.tail r)
  lookup : ∀ env name, good (Deed.reads fun s => s.lookup? env name)
  owner : ∀ env name, good (Deed.reads fun s => s.owner? env name)
  operative : ∀ r, good (Deed.reads fun s => s.operative r)
  list : ∀ vs, good (Deed.makes fun s => s.list vs .nil)
  frame : ∀ parent, good (Deed.makes fun s => s.newFrame (some parent))
  names : ∀ v, good (Deed.tries fun s => s.formalNames v)
  binds : ∀ e pattern operands, good (Deed.binds e pattern operands)
  define : ∀ e name v, good (Deed.changes fun s => s.define e name v)
  giveName : ∀ v name, good (Deed.changes fun s => s.giveName v name)
  operands : ∀ signature v, good (Vau.checkedOperands signature v)
  call : ∀ room env (o : Operation) v,
    good (Vau.checkedOperands o.signature v >>= fun vs => o.perform room env vs)

/-- A class of deeds, closed under sequences, that has all the deeds which the others are made
of. What `display` does is the one that is left out. -/
structure Deed.Stock (good : {α : Type} → Deed α → Prop) : Prop where
  pure : ∀ {α : Type} (a : α), good (Pure.pure a : Deed α)
  throw : ∀ {α : Type} {e : Stop}, e ≠ .digits → good (MonadExcept.throw e : Deed α)
  bind : ∀ {α β : Type} {d : Deed α} {f : α → Deed β}, good d → (∀ a, good (f a)) → good (d >>= f)
  head : ∀ r, good (Deed.reads fun s => s.head r)
  tail : ∀ r, good (Deed.reads fun s => s.tail r)
  spine : ∀ v, good (Deed.reads fun s => s.spine? v)
  lookup : ∀ env name, good (Deed.reads fun s => s.lookup? env name)
  owner : ∀ env name, good (Deed.reads fun s => s.owner? env name)
  operative : ∀ r, good (Deed.reads fun s => s.operative r)
  names : ∀ v, good (Deed.tries fun s => s.formalNames v)
  equal : ∀ room vs, good (Deed.tries fun s => s.allEqual room vs)
  frame : ∀ parent, good (Deed.makes fun s => s.newFrame parent)
  cons : ∀ x y, good (Deed.makes fun s => s.cons x y none)
  list : ∀ vs, good (Deed.makes fun s => s.list vs .nil)
  vau : ∀ room env formals dynamic body,
    good (Operation.value room env .vau (formals :: dynamic :: body))
  wrap : ∀ room env v, good (Operation.value room env .wrap [v])
  setHead : ∀ r v, good (Deed.changes fun s => s.setHead r v)
  setTail : ∀ r v, good (Deed.changes fun s => s.setTail r v)
  binds : ∀ e pattern operands, good (Deed.binds e pattern operands)
  define : ∀ e name v, good (Deed.changes fun s => s.define e name v)
  giveName : ∀ v name, good (Deed.changes fun s => s.giveName v name)

namespace Deed.Stock

open Operation

variable {good : {α : Type} → Deed α → Prop}

theorem fail (h : Stock good) {α : Type} (f : Failure) : good (Deed.fail f : Deed α) :=
  h.throw nofun

theorem computed (h : Stock good) {α : Type} (r : Except Failure α) :
    good (Operation.computed r) := by
  cases r with
  | ok a => exact h.pure a
  | error f => exact h.fail f

theorem pairOperand (h : Stock good) (v : Value) : good (Operation.pairOperand v) := by
  cases v <;> first | exact h.pure _ | exact h.fail _

theorem envOperand (h : Stock good) (v : Value) : good (Operation.envOperand v) := by
  cases v <;> first | exact h.pure _ | exact h.fail _

theorem operands (h : Stock good) (signature : Signature) (v : Value) :
    good (checkedOperands signature v) := by
  refine h.bind (h.spine v) fun spine => ?_
  split
  · exact h.throw nofun
  · split
    · exact h.pure _
    · exact h.fail _
  · exact h.fail _

theorem value (h : Stock good) (room env : Nat) (o : Operation) (vs : List Value)
    (hdisplay : o = .display → good (Operation.display.value room env vs)) :
    good (o.value room env vs) := by
  unfold Operation.value
  split
  case h_1 formals dynamic body => exact h.vau room env formals dynamic body
  case h_2 v => exact h.wrap room env v
  case h_3 => exact h.pure _
  case h_4 => exact h.fail _
  case h_5 => exact h.bind (h.frame none) fun _ => h.pure _
  case h_6 v => exact h.bind (h.envOperand v) fun _ => h.bind (h.frame _) fun _ => h.pure _
  case h_7 x y => exact h.cons x y
  case h_8 v => exact h.bind (h.pairOperand v) h.head
  case h_9 v => exact h.bind (h.pairOperand v) h.tail
  case h_10 v x =>
    exact h.bind (h.pairOperand v) fun r => h.bind (h.setHead r x) fun _ => h.pure _
  case h_11 v x =>
    exact h.bind (h.pairOperand v) fun r => h.bind (h.setTail r x) fun _ => h.pure _
  case h_12 | h_13 => exact h.bind (h.computed _) fun _ => h.pure _
  case h_14 => exact h.bind (h.equal room _) fun _ => h.pure _
  case h_15 | h_16 => exact h.pure _
  case h_17 => exact hdisplay rfl
  case h_18 | h_19 => exact h.fail _

theorem perform (h : Stock good) (room env : Nat) (o : Operation) (vs : List Value)
    (hdisplay : o = .display → good (Operation.display.value room env vs)) :
    good (o.perform room env vs) := by
  unfold Operation.perform
  split
  · exact h.bind (h.envOperand _) fun _ => h.pure _
  · exact h.bind (h.value room env _ _ hdisplay) fun _ => h.pure _

/-- It is enough that `display` is good on operands that were checked. -/
theorem repertoire (h : Stock good) (hdisplay : ∀ room env v,
      good (checkedOperands Operation.display.signature v >>= fun vs =>
        Operation.display.perform room env vs)) :
    Deed.Repertoire good where
  pure := h.pure
  fail := h.fail
  outOfFuel := h.throw nofun
  head := h.head
  tail := h.tail
  lookup := h.lookup
  owner := h.owner
  operative := h.operative
  list := h.list
  frame parent := h.frame (some parent)
  names := h.names
  binds := h.binds
  define := h.define
  giveName := h.giveName
  operands := h.operands
  call room env o v := by
    by_cases ho : o = .display
    · subst ho
      exact hdisplay room env v
    · exact h.bind (h.operands o.signature v) fun vs =>
        h.perform room env o vs fun hd => absurd hd ho

theorem repertoire_of_display (h : Stock good)
    (hdisplay : ∀ room env vs, good (Operation.display.value room env vs)) :
    Deed.Repertoire good :=
  h.repertoire fun room env v => h.bind (h.operands _ v) fun vs =>
    h.perform room env .display vs fun _ => hdisplay room env vs

end Deed.Stock

/-- A relation that holds of the good deeds, among which are all that the evaluator does. -/
structure Congruent (good : {α : Type} → Deed α → Prop)
    (rel : {α : Type} → Action α → Action α → Prop) : Prop where
  repertoire : Deed.Repertoire good
  deed : ∀ {α : Type} {d : Deed α}, good d → rel d.act d.act
  notes : ∀ (logging : Bool) (call : String),
    rel (Action.notes logging call) (Action.notes logging call)
  bind : ∀ {α β : Type} {x x' : Action α} {f f' : α → Action β},
    rel x x' → (∀ a, rel (f a) (f' a)) → rel (x >>= f) (x' >>= f')

theorem Deed.act_bind {α β : Type} (d : Deed α) (f : α → Deed β) :
    (d >>= f).act = d.act >>= fun a => (f a).act := by
  funext m
  simp only [Deed.act, Bind.bind, EStateM.bind]
  cases d m.world <;> rfl

namespace Congruent

variable {good : {α : Type} → Deed α → Prop} {rel : {α : Type} → Action α → Action α → Prop}
  {α : Type}

theorem pure (h : Congruent good rel) (a : α) : rel (Pure.pure a : Action α) (Pure.pure a) :=
  h.deed (h.repertoire.pure a)

theorem fail (h : Congruent good rel) (f : Failure) :
    rel (Action.fail f : Action α) (Action.fail f) :=
  h.deed (h.repertoire.fail f)

theorem outOfFuel (h : Congruent good rel) :
    rel (MonadExcept.throw .outOfFuel : Action α) (MonadExcept.throw .outOfFuel) :=
  h.deed h.repertoire.outOfFuel

section Combining

variable {ev ev' : Evaluation}

theorem operandValues (h : Congruent good rel) (hev : ∀ expr env, rel (ev expr env) (ev' expr env))
    (env : Nat) (operands : Value) (fuel : Nat) (done : List Value) (v : Value) :
    rel (Vau.operandValues ev env operands fuel done v)
      (Vau.operandValues ev' env operands fuel done v) := by
  induction fuel generalizing done v with
  | zero =>
    cases v with
    | pair r => exact h.outOfFuel
    | nil => exact h.pure _
    | _ => exact h.fail _
  | succ fuel ih =>
    cases v with
    | pair r =>
      exact h.bind (h.deed (h.repertoire.head r)) fun head =>
        h.bind (hev head env) fun v =>
          h.bind (h.deed (h.repertoire.tail r)) fun rest => ih (v :: done) rest
    | nil => exact h.pure _
    | _ => exact h.fail _

theorem unwrapAll (h : Congruent good rel) (hev : ∀ expr env, rel (ev expr env) (ev' expr env))
    (env fuel : Nat) (combiner operands : Value) :
    rel (Vau.unwrapAll ev env fuel combiner operands)
      (Vau.unwrapAll ev' env fuel combiner operands) := by
  induction combiner generalizing operands with
  | applicative label underlying ih =>
    exact h.bind (h.operandValues hev env operands fuel [] operands) fun vs =>
      h.bind (h.deed (h.repertoire.list vs)) fun fresh => ih fresh
  | _ => exact h.pure _

theorem resolve (h : Congruent good rel) (hev : ∀ expr env, rel (ev expr env) (ev' expr env))
    (fuel r env : Nat) :
    rel (Vau.resolve ev fuel r env) (Vau.resolve ev' fuel r env) :=
  h.bind (h.deed (h.repertoire.head r)) fun head =>
    h.bind (hev head env) fun operator =>
      h.bind (h.deed (h.repertoire.tail r)) fun operands =>
        h.unwrapAll hev env fuel operator operands

theorem runForms (h : Congruent good rel) (hev : ∀ expr env, rel (ev expr env) (ev' expr env))
    (env : Nat) (forms : List Value) :
    rel (Vau.runForms ev env forms) (Vau.runForms ev' env forms) := by
  induction forms with
  | nil => exact h.pure _
  | cons form rest ih =>
    cases rest with
    | nil => exact h.pure _
    | cons next rest => exact h.bind (hev form env) fun _ => ih

theorem bindDynamic (h : Congruent good rel) (frame env : Nat) (v : Value) :
    rel (Vau.bindDynamic frame env v).act (Vau.bindDynamic frame env v).act := by
  cases v with
  | sym name => exact h.deed (h.repertoire.define frame name (.env env))
  | _ => exact h.pure ()

theorem callOperative (h : Congruent good rel) (hev : ∀ expr env, rel (ev expr env) (ev' expr env))
    (o : Operative) (operands : Value) (env : Nat) :
    rel (Vau.callOperative ev o operands env) (Vau.callOperative ev' o operands env) :=
  h.bind (h.deed (h.repertoire.frame _)) fun frame =>
    h.bind (h.deed (h.repertoire.binds frame _ _)) fun _ =>
      h.bind (h.bindDynamic frame env _) fun _ => h.runForms hev frame o.body

theorem define (h : Congruent good rel) (hev : ∀ expr env, rel (ev expr env) (ev' expr env))
    (env : Nat) (definiend expression : Value) :
    rel (Form.define.perform ev env [definiend, expression])
      (Form.define.perform ev' env [definiend, expression]) := by
  refine h.bind (h.deed (h.repertoire.names definiend)) fun _ =>
    h.bind (hev expression env) fun v => h.bind (h.deed (h.repertoire.binds env _ _)) fun _ => ?_
  cases definiend with
  | sym name => exact h.bind (h.deed (h.repertoire.giveName v name)) fun _ => h.pure _
  | _ => exact h.pure _

theorem assign (h : Congruent good rel) (hev : ∀ expr env, rel (ev expr env) (ev' expr env))
    (env : Nat) (name expression : Value) :
    rel (Form.assign.perform ev env [name, expression])
      (Form.assign.perform ev' env [name, expression]) := by
  cases name with
  | sym name =>
    refine h.bind (hev expression env) fun v => ?_
    refine h.bind (h.deed (h.repertoire.owner env name)) fun owner => ?_
    cases owner with
    | none => exact h.fail _
    | some o => exact h.bind (h.deed (h.repertoire.define o name v)) fun _ => h.pure _
  | _ => exact h.fail _

theorem perform (h : Congruent good rel) (hev : ∀ expr env, rel (ev expr env) (ev' expr env))
    (env : Nat) (f : Form) (vs : List Value) :
    rel (f.perform ev env vs) (f.perform ev' env vs) := by
  cases f with
  | define =>
    match vs with
    | [definiend, expression] => exact h.define hev env definiend expression
    | [] | [_] | _ :: _ :: _ :: _ => exact h.fail _
  | assign =>
    match vs with
    | [name, expression] => exact h.assign hev env name expression
    | [] | [_] | _ :: _ :: _ :: _ => exact h.fail _
  | sequence => exact h.runForms hev env vs

end Combining

section Calling

variable {ev ev' : Evaluation} {cfg : Settings}

theorem callPrimitive (h : Congruent good rel) (hev : ∀ expr env, rel (ev expr env) (ev' expr env))
    (hhost : ∀ f ∈ cfg.functions, ∀ vs env, rel (f vs env) (f vs env)) (room : Nat)
    (p : Primitive) (operands : Value) (env : Nat) :
    rel (Vau.callPrimitive cfg ev room p operands env)
      (Vau.callPrimitive cfg ev' room p operands env) := by
  cases p with
  | form f => exact h.bind (h.deed (h.repertoire.operands _ _)) fun vs => h.perform hev env f vs
  | operation o =>
    have hcall := h.deed (h.repertoire.call room env o operands)
    rwa [Deed.act_bind] at hcall
  | host slot name signature =>
    refine h.bind (h.deed (h.repertoire.operands _ _)) fun vs => ?_
    cases hf : cfg.functions[slot]? with
    | none => simpa only [hf] using h.pure _
    | some f => simpa only [hf] using hhost f (Array.mem_of_getElem? hf) vs env

theorem select (h : Congruent good rel) (hev : ∀ expr env, rel (ev expr env) (ev' expr env))
    (env fuel : Nat) (b : Bool) (operands : Value) :
    rel (Vau.select ev env fuel b operands) (Vau.select ev' env fuel b operands) := by
  refine h.bind (h.operandValues hev env operands fuel [] operands) fun vs => ?_
  split
  · exact h.pure _
  · exact h.fail _

theorem combine (h : Congruent good rel) (hev : ∀ expr env, rel (ev expr env) (ev' expr env))
    (hhost : ∀ f ∈ cfg.functions, ∀ vs env, rel (f vs env) (f vs env)) (fuel room : Nat)
    (combiner operands : Value) (env : Nat) :
    rel (Vau.combine cfg ev fuel room combiner operands env)
      (Vau.combine cfg ev' fuel room combiner operands env) := by
  cases combiner with
  | operative r =>
    exact h.bind (h.deed (h.repertoire.operative r)) fun o =>
      h.bind (h.notes _ _) fun _ => h.callOperative hev o operands env
  | primitive p =>
    exact h.bind (h.notes _ _) fun _ => h.callPrimitive hev hhost room p operands env
  | bool b => exact h.select hev env fuel b operands
  | _ => exact h.fail _

end Calling

end Congruent

/-- A property of computations that the evaluator has with all of its parts, the counting of
steps and the keeping of frames included. -/
structure Pervasive (good : {α : Type} → Deed α → Prop) (has : {α : Type} → Action α → Prop) :
    Prop where
  congruent : Congruent good fun x _ => has x
  tick : ∀ limit, has (Action.tick limit)
  enter : ∀ base v, has (Action.enter base v)
  leave : ∀ {α : Type} (base : Nat) (a : α), has (Action.leave base a)
  reset : has (modify Machine.reset : Action PUnit)
  sized : ∀ {α : Type} {x : Nat → Action α}, (∀ n, has (x n)) → has fun m => x m.stack.size m

namespace Pervasive

variable {good : {α : Type} → Deed α → Prop} {has : {α : Type} → Action α → Prop} {cfg : Settings}

theorem bind (h : Pervasive good has) {α β : Type} {x : Action α} {f : α → Action β} (hx : has x)
    (hf : ∀ a, has (f a)) : has (x >>= f) :=
  @Congruent.bind _ _ h.congruent _ _ x x f f hx hf

theorem turn (h : Pervasive good has) (hhost : ∀ f ∈ cfg.functions, ∀ vs env, has (f vs env))
    {ev : Evaluation} (hev : ∀ expr env, has (ev expr env)) (fuel room base : Nat) (expr : Value)
    (env : Nat) : has (Vau.turn cfg ev fuel room base expr env) := by
  have hc := h.congruent
  refine h.bind (h.tick _) fun _ => ?_
  cases expr with
  | sym name =>
    refine h.bind (hc.deed (hc.repertoire.lookup env name)) fun found => ?_
    cases found with
    | some v => exact hc.pure _
    | none => exact hc.fail _
  | pair r =>
    have hresolve : has (resolve ev fuel r env) := @hc.resolve _ _ ev ev hev fuel r env
    refine h.bind (h.enter base (.pair r)) fun _ => h.bind hresolve fun c => ?_
    exact @hc.combine _ _ ev ev cfg hev hhost fuel room c.1 c.2 env
  | _ => exact hc.pure _

theorem nested (h : Pervasive good has) {run : Nat → Nat → Value → Nat → Action Value}
    (hrun : ∀ room base expr env, has (run room base expr env)) (room : Nat) (expr : Value)
    (env : Nat) : has (Vau.nested run room expr env) := by
  cases room with
  | zero => exact h.congruent.fail _
  | succ room => exact h.sized fun base => hrun room base expr env

theorem reduce (h : Pervasive good has) (hhost : ∀ f ∈ cfg.functions, ∀ vs env, has (f vs env))
    (fuel : Nat) : ∀ room base expr env, has (Vau.reduce cfg fuel room base expr env) := by
  induction fuel with
  | zero => exact fun _ _ _ _ => h.congruent.outOfFuel
  | succ fuel ih =>
    intro room base expr env
    have hturn := h.turn hhost (h.nested ih room) fuel room base expr env
    refine h.bind hturn fun answer => ?_
    cases answer with
    | value v => exact h.leave base v
    | proceed expr env => exact ih room base expr env

theorem evaluate (h : Pervasive good has) (hhost : ∀ f ∈ cfg.functions, ∀ vs env, has (f vs env))
    (expr : Value) (env : Nat) : has (Vau.evaluate cfg expr env) :=
  h.sized fun base => h.reduce hhost cfg.fuel cfg.room base expr env

theorem runProgram (h : Pervasive good has) (hhost : ∀ f ∈ cfg.functions, ∀ vs env, has (f vs env))
    (root : Nat) (forms : List Value) (last : Value) :
    has (Vau.runProgram cfg root forms last) := by
  induction forms generalizing last with
  | nil => exact h.congruent.pure last
  | cons form rest ih => exact h.bind h.reset fun _ => h.bind (h.evaluate hhost form root) ih

end Pervasive

/-- An action that moves the world along a relation, whether it stops or not. -/
def Action.Moves (R : World → World → Prop) {α : Type} (x : Action α) : Prop :=
  ∀ m, R m.world (endState (x m)).world

namespace Action

variable {R : World → World → Prop}

theorem moves_same (hrefl : ∀ w, R w w) {α : Type} {x : Action α}
    (h : ∀ m, (endState (x m)).world = m.world) : x.Moves R := by
  intro m
  rw [h m]
  exact hrefl m.world

theorem moves_act {α : Type} {d : Deed α} (hd : d.Moves R) : d.act.Moves R := by
  intro m
  have h := hd m.world
  simp only [Deed.act]
  cases hr : d m.world <;> rwa [hr] at h

theorem Moves.bind (htrans : ∀ u v w, R u v → R v w → R u w) {α β : Type} {x : Action α}
    {f : α → Action β} (hx : x.Moves R) (hf : ∀ a, (f a).Moves R) : (x >>= f).Moves R := by
  intro m
  have h := hx m
  simp only [Bind.bind, EStateM.bind]
  cases hr : x m with
  | error e m' => rwa [hr] at h
  | ok a m' =>
    rw [hr] at h
    exact htrans _ _ _ h (hf a m')

/-- A preorder along which all deeds of the evaluator move is one along which it moves itself. -/
theorem pervasive_moves (hrefl : ∀ w, R w w) (htrans : ∀ u v w, R u v → R v w → R u w)
    (hdeeds : Deed.Repertoire fun d => Deed.Moves R d) :
    Pervasive (fun d => Deed.Moves R d) fun x => Action.Moves R x where
  congruent := {
    repertoire := hdeeds
    deed := moves_act
    notes := fun logging _ => moves_same hrefl fun _ => by cases logging <;> rfl
    bind := Moves.bind htrans }
  tick limit := moves_same hrefl fun m => by
    cases limit with
    | none => rfl
    | some l =>
      simp only [tick]
      split <;> rfl
  enter _ _ := moves_same hrefl fun _ => rfl
  leave _ _ := moves_same hrefl fun _ => rfl
  reset := moves_same hrefl fun _ => rfl
  sized hx m := hx m.stack.size m

end Action

theorem Deed.lawful_stock : Deed.Stock Deed.Lawful where
  pure _ := lawful_same fun _ => rfl
  throw _ := lawful_same fun _ => rfl
  bind := Lawful.bind
  head _ := lawful_same fun _ => rfl
  tail _ := lawful_same fun _ => rfl
  spine _ := lawful_same fun _ => rfl
  lookup _ _ := lawful_same fun _ => rfl
  owner _ _ := lawful_same fun _ => rfl
  operative _ := lawful_same fun _ => rfl
  names _ := lawful_tries _
  equal _ _ := lawful_tries _
  frame := lawful_frame
  cons := lawful_cons
  list vs := lawful_list vs .nil
  vau := Operation.lawful_vau
  wrap := Operation.lawful_wrap
  setHead r v _ := .single (.setHead r v)
  setTail r v _ := .single (.setTail r v)
  binds := lawful_binds
  define := lawful_define
  giveName := lawful_giveName

theorem Deed.lawful_repertoire : Deed.Repertoire Deed.Lawful :=
  lawful_stock.repertoire_of_display Operation.lawful_display

/-- A relation that holds of all that programs can do to the world. -/
structure Respected (rel : {α : Type} → Action α → Action α → Prop) : Prop where
  deed : ∀ {α : Type} {d : Deed α}, d.Lawful → rel d.act d.act
  notes : ∀ (logging : Bool) (call : String),
    rel (Action.notes logging call) (Action.notes logging call)
  bind : ∀ {α β : Type} {x x' : Action α} {f f' : α → Action β},
    rel x x' → (∀ a, rel (f a) (f' a)) → rel (x >>= f) (x' >>= f')

namespace Respected

variable {rel : {α : Type} → Action α → Action α → Prop} {α : Type}

theorem congruent (h : Respected rel) : Congruent Deed.Lawful rel where
  repertoire := Deed.lawful_repertoire
  deed := h.deed
  notes := h.notes
  bind := h.bind

theorem pure (h : Respected rel) (a : α) : rel (Pure.pure a : Action α) (Pure.pure a) :=
  h.congruent.pure a

theorem throw (h : Respected rel) (e : Stop) :
    rel (MonadExcept.throw e : Action α) (MonadExcept.throw e) :=
  h.deed (Deed.lawful_same (d := MonadExcept.throw e) fun _ => rfl)

theorem fail (h : Respected rel) (f : Failure) : rel (Action.fail f : Action α) (Action.fail f) :=
  h.throw (.failure f)

variable {ev ev' : Evaluation} {cfg : Settings}

theorem resolve (h : Respected rel) (hev : ∀ expr env, rel (ev expr env) (ev' expr env))
    (fuel r env : Nat) : rel (Vau.resolve ev fuel r env) (Vau.resolve ev' fuel r env) :=
  h.congruent.resolve hev fuel r env

theorem combine (h : Respected rel) (hev : ∀ expr env, rel (ev expr env) (ev' expr env))
    (hhost : ∀ f ∈ cfg.functions, ∀ vs env, rel (f vs env) (f vs env)) (fuel room : Nat)
    (combiner operands : Value) (env : Nat) :
    rel (Vau.combine cfg ev fuel room combiner operands env)
      (Vau.combine cfg ev' fuel room combiner operands env) :=
  h.congruent.combine hev hhost fuel room combiner operands env

end Respected

end Vau
