import Vau.Proofs.Rounds

/-! Handing arguments over. A host calls a combiner with values through a combination of the
combiner, without its outermost wrapper, and a fresh list of the values. What is inside one wrapper
has the list as it is if it is an operative or a primitive; a boolean evaluates the values as
operands, as it does everywhere. -/

namespace Vau

/-- The environment in which a host calls a combiner: the given one, or a new one. -/
def callerFrame : Option Nat → Action Nat
  | some e => pure e
  | none => (Deed.makes fun s => s.newFrame none).act

/-- Puts the frame of a new activation on the call stack. -/
def Action.enterNew (frame : Value) : Action Unit := fun m => Action.enter m.stack.size frame m

/-- What a host does to call a combiner, up to where the combiner has the list of the arguments:
nothing is evaluated but the combiner itself. -/
def handOver (cfg : Settings) (combiner : Value) (args : List Value) (env : Option Nat) :
    Action (Value × Nat) := do
  let operands ← (Deed.makes fun s => s.list args .nil).act
  let expr ← (Deed.makes fun s => s.cons combiner operands none).act
  let e ← callerFrame env
  Action.tick cfg.stepLimit
  Action.enterNew expr
  Action.tick cfg.stepLimit
  return (operands, e)

theorem Action.eq_of_tick {limit : Option Int} {m m' : Machine} {u : Unit}
    (h : Action.tick limit m = .ok u m') : m' = { m with steps := m.steps + 1 } := by
  unfold Action.tick at h
  split at h
  · cases h
    rfl
  · dsimp only at h
    split at h <;> cases h
    rfl

section Reducing

variable {cfg : Settings} {fuel room : Nat} {v : Value}

/-- A constant takes a step and is its own value. -/
theorem nested_constant (hpair : v.isPair = false) (hsymbol : v.isSymbol = false) (env : Nat) :
    nested (reduce cfg (fuel + 1)) (room + 1) v env = (do
      Action.tick cfg.stepLimit
      return v) := by
  have hturn : ∀ (ev : Evaluation) (base : Nat), turn cfg ev fuel room base v env = (do
      Action.tick cfg.stepLimit
      return .value v) := by
    intro ev base
    cases v with
    | pair r => cases hpair
    | sym name => cases hsymbol
    | _ => rfl
  funext m
  simp only [nested, reduce, hturn, Bind.bind, EStateM.bind]
  cases htick : Action.tick cfg.stepLimit m with
  | error e m' => rfl
  | ok u m' =>
    obtain rfl := Action.eq_of_tick htick
    have hshrink : m.stack.shrink m.stack.size = m.stack := by simp
    simp only [Pure.pure, EStateM.pure, Action.leave, hshrink]

/-- A combination whose operator is a combiner without wrappers calls it with the operands. -/
theorem reduce_constant {r base env : Nat} {m : Machine} (hpair : v.isPair = false)
    (hsymbol : v.isSymbol = false) (hplain : v.isApplicative = false) (hhead : m.store.head r = v) :
    reduce cfg (fuel + 2) (room + 1) base (.pair r) env m = (do
      Action.tick cfg.stepLimit
      Action.enter base (.pair r)
      Action.tick cfg.stepLimit
      finish cfg (room + 1) v (m.store.tail r) env (fuel + 1) base) m := by
  rw [reduce_pair]
  simp only [operatorValue, Bind.bind, EStateM.bind]
  cases htick : Action.tick cfg.stepLimit m with
  | error e m' => rfl
  | ok u m' =>
    obtain rfl := Action.eq_of_tick htick
    simp only [Machine.store] at hhead ⊢
    simp only [Action.enter, Deed.act_reads, Machine.store, hhead, nested_constant hpair hsymbol,
      Bind.bind, EStateM.bind]
    generalize hm : Machine.mk m.world _ _ _ = m₁
    cases htick : Action.tick cfg.stepLimit m₁ with
    | error e m' => rfl
    | ok u m' =>
      obtain rfl := Action.eq_of_tick htick
      subst hm
      simp only [Pure.pure, EStateM.pure, unwrapAll_plain hplain]

end Reducing

section Applying

variable {cfg : Settings} {c u : Value}

/-- What is called when a host calls `c`. -/
def Value.Covers (c u : Value) : Prop := c = u ∨ ∃ label, c = .applicative label u

theorem applyTo_covers (hc : c.Covers u) (hu : u.isApplicative = false) (args : List Value)
    (env : Option Nat) :
    applyTo cfg c args (env.map .env) = (do
      let operands ← (Deed.makes fun s => s.list args .nil).act
      let expr ← (Deed.makes fun s => s.cons u operands none).act
      let e ← callerFrame env
      evaluate cfg expr e) := by
  rcases hc with rfl | ⟨label, rfl⟩
  · cases c with
    | applicative label v => cases hu
    | _ => cases env <;> rfl
  · cases env <;> rfl

/-- What the host makes before it evaluates: nothing old is touched. -/
theorem callerFrame_ok (env : Option Nat) (m : Machine) :
    ∃ e m', callerFrame env m = .ok e m' ∧ m'.stack = m.stack ∧ m'.steps = m.steps ∧
      m'.world.effects = m.world.effects ∧ m.store.Extends m'.store ∧
      m'.store.cells = m.store.cells ∧ (∀ e', env = some e' → e = e' ∧ m' = m) ∧
      (env = none → e = m.store.frames.size ∧ m'.store.frame e = ⟨[], none⟩) := by
  cases env with
  | some e =>
    exact ⟨e, m, rfl, rfl, rfl, rfl, .refl _, rfl, fun _ h => ⟨Option.some.inj h, rfl⟩, nofun⟩
  | none =>
    obtain ⟨⟨store, effects⟩, stack, steps, calls⟩ := m
    refine ⟨_, _, rfl, rfl, rfl, rfl, .newFrame store none, rfl, nofun, fun _ => ⟨rfl, ?_⟩⟩
    exact (Store.frame_newFrame store none _).trans (if_pos rfl)

theorem applyTo_handOver (hfuel : 2 ≤ cfg.fuel) (hroom : 1 ≤ cfg.room) (hc : c.Covers u)
    (hu : u.isApplicative = false) (hcombiner : u.isCombiner = true) (args : List Value)
    (env : Option Nat) (m : Machine) :
    applyTo cfg c args (env.map .env) m = (do
      let (operands, e) ← handOver cfg u args env
      finish cfg cfg.room u operands e (cfg.fuel - 1) m.stack.size) m := by
  obtain ⟨fuel, hfuel⟩ : ∃ k, cfg.fuel = k + 2 := ⟨cfg.fuel - 2, by omega⟩
  obtain ⟨room, hroom⟩ : ∃ k, cfg.room = k + 1 := ⟨cfg.room - 1, by omega⟩
  have hpair : u.isPair = false := by cases u <;> first | rfl | cases hcombiner
  have hsymbol : u.isSymbol = false := by cases u <;> first | rfl | cases hcombiner
  obtain ⟨⟨store, effects⟩, stack, steps, calls⟩ := m
  let s := (store.list args .nil).2
  let operands := (store.list args .nil).1
  let m₁ : Machine := ⟨⟨(s.cons u operands none).2, effects⟩, stack, steps, calls⟩
  have hlist : (Deed.makes fun s => s.list args .nil).act ⟨⟨store, effects⟩, stack, steps, calls⟩ =
      .ok operands ⟨⟨s, effects⟩, stack, steps, calls⟩ := rfl
  have hcons : (Deed.makes fun s => s.cons u operands none).act ⟨⟨s, effects⟩, stack, steps, calls⟩ =
      .ok (.pair s.cells.size) m₁ := rfl
  obtain ⟨e, m₂, hframe, hstack, -, -, -, hcells, -⟩ := callerFrame_ok env m₁
  have hcell : m₂.store.cell s.cells.size = ⟨u, operands, none⟩ := by
    have hsame : m₂.store.cell s.cells.size = m₁.store.cell s.cells.size := by
      rw [Store.cell, Store.cell, hcells]
    rw [hsame]
    exact (Store.cell_cons s u operands none s.cells.size).trans (if_pos rfl)
  have hhead : m₂.store.head s.cells.size = u := congrArg Cell.head hcell
  have htail : m₂.store.tail s.cells.size = operands := congrArg Cell.tail hcell
  have hevaluate : evaluate cfg (.pair s.cells.size) e m₂ = (do
      Action.tick cfg.stepLimit
      Action.enter stack.size (.pair s.cells.size)
      Action.tick cfg.stepLimit
      finish cfg cfg.room u operands e (cfg.fuel - 1) stack.size) m₂ := by
    have hsize : m₂.stack.size = stack.size := congrArg Array.size hstack
    rw [evaluate, hsize, hfuel, hroom, reduce_constant hpair hsymbol hu hhead, htail]
    rfl
  simp only [applyTo_covers hc hu, handOver, bind_assoc, pure_bind]
  simp only [Bind.bind, EStateM.bind, hlist, hcons, hframe]
  rw [hevaluate]
  simp only [Bind.bind, EStateM.bind]
  cases htick : Action.tick cfg.stepLimit m₂ with
  | error e m' => rfl
  | ok _ m₃ =>
    obtain rfl := Action.eq_of_tick htick
    simp only [Action.enterNew, hstack]
    rfl

end Applying

/-- The arguments are in a fresh list, and nothing else has happened but that an environment was made
if there was none. -/
structure HandedOver (args : List Value) (env : Option Nat) (m : Machine) (operands : Value) (e : Nat)
    (m' : Machine) : Prop where
  extended : m.store.Extends m'.store
  effects : m'.world.effects = m.world.effects
  items : m'.store.Items .nil operands args
  given : ∀ e', env = some e' → e = e' ∧ m'.store.frames = m.store.frames
  fresh : env = none → e = m.store.frames.size ∧ m'.store.frame e = ⟨[], none⟩

/-- The parts of what a host does before it evaluates. -/
theorem handOver_eq_ok {cfg : Settings} {u operands : Value} {args : List Value} {env : Option Nat}
    {e : Nat} {m m' : Machine} (h : handOver cfg u args env m = .ok (operands, e) m') :
    let s := (m.store.list args .nil).2
    operands = (m.store.list args .nil).1 ∧ ∃ m₂,
      callerFrame env { m with world := ⟨(s.cons u operands none).2, m.world.effects⟩ } = .ok e m₂ ∧
      m'.world = m₂.world := by
  obtain ⟨⟨store, effects⟩, stack, steps, calls⟩ := m
  obtain ⟨given, m₁, hlist, h⟩ := Action.bind_eq_ok h
  cases hlist
  obtain ⟨expr, m₂, hcons, h⟩ := Action.bind_eq_ok h
  cases hcons
  obtain ⟨e', m₃, hframe, h⟩ := Action.bind_eq_ok h
  obtain ⟨_, m₄, htick, h⟩ := Action.bind_eq_ok h
  obtain rfl := Action.eq_of_tick htick
  obtain ⟨_, m₅, henter, h⟩ := Action.bind_eq_ok h
  cases henter
  obtain ⟨_, m₆, htick', h⟩ := Action.bind_eq_ok h
  obtain rfl := Action.eq_of_tick htick'
  cases h
  exact ⟨rfl, m₃, hframe, rfl⟩

theorem handedOver {cfg : Settings} {u operands : Value} {args : List Value} {env : Option Nat}
    {e : Nat} {m m' : Machine} (h : handOver cfg u args env m = .ok (operands, e) m') :
    HandedOver args env m operands e m' := by
  obtain ⟨hoperands, m₂, hframe, hworld⟩ := handOver_eq_ok h
  obtain ⟨e', m₃, hmade, -, -, heffects, hextends, -, hgiven, hfresh⟩ := callerFrame_ok env
    { m with world := ⟨((m.store.list args .nil).2.cons u operands none).2, m.world.effects⟩ }
  obtain ⟨rfl, rfl⟩ := EStateM.Result.ok.inj (hframe.symm.trans hmade)
  have hlist : m.store.Extends (m.store.list args .nil).2 := .list _ _ _
  have hcons := Store.Extends.cons (m.store.list args .nil).2 u operands none
  have hstore : m'.store = m₂.store := congrArg World.store hworld
  refine ⟨?_, ?_, ?_, fun e' he => ?_, fun he => ?_⟩
  · exact hstore ▸ (hlist.trans hcons).trans hextends
  · exact (congrArg World.effects hworld).trans heffects
  · rw [hstore, hoperands]
    exact ((m.store.items_list args .nil).larger hcons).larger hextends
  · obtain ⟨rfl, rfl⟩ := hgiven e' he
    exact ⟨rfl, (congrArg Store.frames hstore).trans (m.store.frames_list args .nil)⟩
  · obtain ⟨rfl, hnew⟩ := hfresh he
    refine ⟨congrArg Array.size (m.store.frames_list args .nil), ?_⟩
    rw [hstore]
    exact hnew

/-- A new environment is not hidden. -/
theorem Store.Hides.newFrame {s : Store} {H : Hidden} {x : Extent} (h : s.Hides H x) :
    ∃ y, x.Within y ∧ (s.newFrame none).2.Hides H y ∧ ¬ H.frame s.frames.size ∧
      s.frames.size < y.frames := by
  obtain ⟨t, ht, hs⟩ := h
  have hparent : ∀ p, (none : Option Nat) = some p → p < x.frames := fun p hp => by cases hp
  obtain ⟨y, hy, hsound, hlt⟩ := ht.newFrame hparent
  have hsize : t.frames.size = s.frames.size := hs.frames
  exact ⟨y, hy, ⟨_, hsound, hs.newFrame H.oneToOne .none⟩, (hs.freshFrame 0).2, hsize ▸ hlt⟩

/-- The list that the arguments are handed over in is hidden. -/
theorem handOver_hides {cfg : Settings} {u operands : Value} {args : List Value} {env : Option Nat}
    {e : Nat} {m m' : Machine} {x : Extent} (hsound : m.store.Sound x) (hroot : 0 < x.frames)
    (hargs : ∀ v ∈ args, v.In x) (henv : ∀ e, env = some e → e < x.frames)
    (h : handOver cfg u args env m = .ok (operands, e) m') :
    ∃ H y refs, m'.store.Hides H y ∧ m'.store.Pairs .nil operands refs ∧
      refs.map m'.store.head = args ∧ (∀ r ∈ refs, H.cell r) ∧ (∀ v ∈ args, H.Public y v) ∧
      ¬ H.frame e ∧ e < y.frames := by
  obtain ⟨rfl, m₂, hframe, hworld⟩ := handOver_eq_ok h
  have hstore : m'.store = m₂.store := congrArg World.store hworld
  obtain ⟨refs, hpairs, hheads, hrefs⟩ := m.store.pairs_list args .nil
  have hframes := m.store.frames_list args .nil
  have hlist : m.store.Extends (m.store.list args .nil).2 := .list _ _ _
  generalize m.store.list args .nil = made at hpairs hheads hrefs hframes hlist hframe ⊢
  obtain ⟨operands, s⟩ := made
  have hcons : s.Extends (s.cons u operands none).2 := .cons s u operands none
  have hextends := hlist.trans hcons
  let H := Hidden.none.more m.store (s.cons u operands none).2
  have hhides : (s.cons u operands none).2.Hides H (x.padded (s.cons u operands none).2) :=
    hsound.hides.more hextends hroot
  have hcell : ∀ r ∈ refs, H.cell r := fun r hr =>
    .inr ⟨(hrefs r hr).1, Nat.lt_of_lt_of_le (hrefs r hr).2 hcons.cells⟩
  have hpublic : ∀ v ∈ args, H.Public (x.padded (s.cons u operands none).2) v := fun v hv =>
    hsound.hides.public_more hextends ⟨.none v, hargs v hv⟩
  have hheads' : refs.map (s.cons u operands none).2.head = args :=
    (List.map_congr_left fun r hr => congrArg Cell.head (hcons.cell r (hrefs r hr).2)).trans hheads
  have hpairs' : (s.cons u operands none).2.Pairs .nil operands refs := hpairs.larger hcons
  have hsame : (s.cons u operands none).2.frames = m.store.frames := hframes
  rw [hstore]
  cases env with
  | some e' =>
    cases hframe
    have hlt : e < x.frames := henv e rfl
    refine ⟨H, _, refs, hhides, hpairs', hheads', hcell, hpublic, ?_, ?_⟩
    · rintro (hhidden | hnew)
      · exact hhidden
      · rw [hsame] at hnew
        omega
    · exact (hsound.hides.measures.within_padded hextends).frame_lt hlt
  | none =>
    cases hframe
    obtain ⟨y, hy, hhides', hfresh, hlt⟩ := hhides.newFrame
    have hnew : (s.cons u operands none).2.Extends ((s.cons u operands none).2.newFrame none).2 :=
      .newFrame _ none
    exact ⟨H, y, refs, hhides', hpairs'.larger hnew, hheads', hcell,
      fun v hv => (hpublic v hv).mono hy, hfresh, hlt⟩

/-- A boolean evaluates its operands, and the first or the second value is the result. -/
theorem finish_boolean {cfg : Settings} (hcfg : cfg.Honest) {fuel room base e : Nat} {b : Bool}
    {operands : Value} {m : Machine} {H : Hidden} {x : Extent} (hm : m.store.Hides H x)
    {refs : List Nat} (hpairs : m.store.Pairs .nil operands refs) (hrefs : ∀ r ∈ refs, H.cell r)
    (hpublic : ∀ v ∈ refs.map m.store.head, H.Public x v) (henv : ¬ H.frame e)
    (henvIn : e < x.frames) (hfuel : refs.length ≤ fuel) :
    finish cfg room (.bool b) operands e fuel base m = (do
      match ← Evaluation.each (nested (reduce cfg fuel) room) e (refs.map m.store.head) with
      | [v, v'] => Action.leave base (if b then v else v')
      | _ => Action.fail (.arity (.text "2 operands") operands)) m := by
  have hspares : Evaluation.Spares (nested (reduce cfg fuel) room) e refs
      (refs.map m.store.head) m := spares_hidden hcfg hm hpublic henv henvIn hrefs
  have hvalues := operandValues_each operands rfl hpairs hfuel hspares
  have hclosed : closed operands .nil = fun vs => pure vs := funext fun vs => if_pos rfl
  rw [hclosed, bind_pure] at hvalues
  simp only [finish, combine, select, bind_assoc]
  simp only [Bind.bind, EStateM.bind, hvalues]
  cases Evaluation.each (nested (reduce cfg fuel) room) e (refs.map m.store.head) m with
  | error stop m' => rfl
  | ok vs m' =>
    rcases vs with _ | ⟨v, _ | ⟨v', _ | ⟨v'', vs⟩⟩⟩ <;> rfl

/-- When a host calls what is in one wrapper, or in none, with some values, an operative or a
primitive is called with a fresh list of these values in the environment, and none of them is
evaluated. A boolean is called with the list as well, and evaluates them in the environment. -/
theorem applyTo_delivers {cfg : Settings} (hcfg : cfg.Honest) (hroom : 1 ≤ cfg.room) {x : Extent}
    {m : Machine} (hsound : m.store.Sound x) (hroot : 0 < x.frames) {c u : Value}
    (hc : c.Covers u) (hu : u.isApplicative = false) (hcombiner : u.isCombiner = true)
    {args : List Value} (hargs : ∀ v ∈ args, v.In x) (hfuel : args.length + 2 ≤ cfg.fuel)
    {env : Option Nat} (henv : ∀ e, env = some e → e < x.frames) :
    applyTo cfg c args (env.map .env) m = (do
      let (operands, e) ← handOver cfg u args env
      finish cfg cfg.room u operands e (cfg.fuel - 1) m.stack.size) m ∧
    ∀ operands e m', handOver cfg u args env m = .ok (operands, e) m' →
      HandedOver args env m operands e m' ∧
      (∀ p : Primitive, checkedOperands p.signature operands m'.world =
        if p.signature.admits args.length then .ok args m'.world
        else .error (.failure (.arity (.text p.signature.text) operands)) m'.world) ∧
      ∀ b, u = .bool b → applyTo cfg c args (env.map .env) m = (do
        match ← Evaluation.each (nested (reduce cfg (cfg.fuel - 1)) cfg.room) e args with
        | [v, v'] => Action.leave m.stack.size (if b then v else v')
        | _ => Action.fail (.arity (.text "2 operands") operands)) m' := by
  have happly := applyTo_handOver (by omega) hroom hc hu hcombiner args env m
  refine ⟨happly, fun operands e m' h => ?_⟩
  have hhanded := handedOver h
  refine ⟨hhanded, fun p => ?_, ?_⟩
  · have hspine : m'.world.store.spine? operands = some (args, .nil) := hhanded.items.spine? rfl
    simp only [checkedOperands, Bind.bind, EStateM.bind, Deed.reads, hspine]
    split
    · rfl
    · rfl
  · rintro b rfl
    obtain ⟨H, y, refs, hhides, hpairs, hheads, hrefs, hpublic, hframe, hlt⟩ :=
      handOver_hides hsound hroot hargs henv h
    have hlength : refs.length = args.length := by rw [← hheads, List.length_map]
    rw [happly]
    simp only [Bind.bind, EStateM.bind, h]
    exact (finish_boolean hcfg hhides hpairs hrefs (hheads.symm ▸ hpublic) hframe hlt (by omega)).trans
      (by rw [hheads]; rfl)

/-- `cons` in one wrapper is handed a symbol that is bound to nothing. -/
theorem applyTo_delivers_symbol :
    let cons : Value := .primitive (.operation .cons)
    ∃ operands m', handOver {} cons [.sym "x", .int 1] (some 0) twiceMachine =
        .ok (operands, 0) m' ∧
      m'.store.Items .nil operands [.sym "x", .int 1] ∧
      applyTo {} (.applicative 0 cons) [.sym "x", .int 1] (some (.env 0)) twiceMachine =
        finish {} hostRoom cons operands 0 999999999999999 0 m' := by
  intro cons
  have hcfg : ({} : Settings).Honest := .of_empty rfl
  have hargs : ∀ v ∈ [Value.sym "x", .int 1], v.In ⟨3, 1, 0, [cons, .applicative 0 cons]⟩ := by
    simp [Value.In]
  have henv : ∀ e, some 0 = some e → e < 1 := fun e he => Option.some.inj he ▸ Nat.zero_lt_one
  obtain ⟨happly, hdelivers⟩ := applyTo_delivers hcfg (by decide) sound_twice Nat.zero_lt_one
    (.inr ⟨0, rfl⟩ : (Value.applicative 0 cons).Covers cons) rfl rfl hargs (by decide) henv
  have hhanded : ∃ operands m', handOver {} cons [.sym "x", .int 1] (some 0) twiceMachine =
      .ok (operands, 0) m' := ⟨_, _, rfl⟩
  obtain ⟨operands, m', h⟩ := hhanded
  refine ⟨operands, m', h, (hdelivers operands 0 m' h).1.items, ?_⟩
  rw [show some (Value.env 0) = (some 0).map Value.env from rfl, happly]
  simp only [Bind.bind, EStateM.bind, h]
  rfl

/-- A boolean fails when the value that it is to select is a symbol which is bound to nothing. -/
theorem applyTo_boolean_evaluates : ∃ m',
    applyTo {} (.bool true) [.sym "x", .int 1] none {} = .error (.failure (.unbound "x")) m' :=
  ⟨_, rfl⟩

end Vau
