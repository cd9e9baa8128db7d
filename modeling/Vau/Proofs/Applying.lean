import Vau.Proofs.Detour
import Vau.Proofs.Loading

/-! The `apply` of the prelude. Its code does nothing but find the combiner inside one wrapper and the
environment, and goes on, in its own place, with a combination of the combiner and the list of the
arguments. A host that calls a combiner starts from the same combination. -/

namespace Vau

/-- From the world `w` the action becomes `y` in the world `w'`. -/
def Action.Becomes {α : Type} (x : Action α) (w : World) (y : Action α) (w' : World) : Prop :=
  ∀ m : Machine, m.world = w → ∃ m', x m = y m' ∧ m'.world = w'

namespace Action

variable {α β : Type} {w w' w'' : World}

theorem Becomes.trans {x y z : Action α} (h : x.Becomes w y w') (h' : y.Becomes w' z w'') :
    x.Becomes w z w'' := by
  intro m hm
  obtain ⟨m₁, hx, hm₁⟩ := h m hm
  obtain ⟨m₂, hy, hm₂⟩ := h' m₁ hm₁
  exact ⟨m₂, hx.trans hy, hm₂⟩

theorem Gives.becomes {x : Action α} {f : α → Action β} {a : α} (h : x.Gives w a w') :
    (x >>= f).Becomes w (f a) w' := by
  intro m hm
  obtain ⟨m', hx, hm'⟩ := h m hm
  exact ⟨m', by simp only [Bind.bind, EStateM.bind, hx], hm'⟩

end Action

/-- In `t`, which `s` has grown to, a new pair is the combination of the combiner and the operands,
and `e` is the environment in which it stands: the one that is given, or else a new one. -/
structure Store.Combined (s : Store) (env : Option Nat) (u operands : Value) (t : Store)
    (r e : Nat) : Prop where
  adds : s.Adds t
  le : s.cells.size ≤ r
  lt : r < t.cells.size
  head : t.head r = u
  tail : t.tail r = operands
  given : ∀ e', env = some e' → e = e'
  fresh : env = none → s.frames.size ≤ e ∧ e < t.frames.size ∧ t.frame e = ⟨[], none⟩

namespace Store.Combined

variable {s t t' : Store} {env : Option Nat} {u operands : Value} {r e : Nat}

theorem after (ht : s.Adds t) (h : t.Combined env u operands t' r e) :
    s.Combined env u operands t' r e :=
  { h with
    adds := ht.trans h.adds
    le := Nat.le_trans ht.larger.cells h.le
    fresh := fun hnone =>
      ⟨Nat.le_trans ht.larger.frames (h.fresh hnone).1, (h.fresh hnone).2⟩ }

theorem later (h : s.Combined env u operands t r e) (ht : t.Adds t') :
    s.Combined env u operands t' r e where
  adds := h.adds.trans ht
  le := h.le
  lt := Nat.lt_of_lt_of_le h.lt ht.larger.cells
  head := (congrArg Cell.head (ht.larger.cell r h.lt)).trans h.head
  tail := (congrArg Cell.tail (ht.larger.cell r h.lt)).trans h.tail
  given := h.given
  fresh hnone := by
    obtain ⟨hle, hlt, hframe⟩ := h.fresh hnone
    exact ⟨hle, Nat.lt_of_lt_of_le hlt ht.larger.frames, (ht.larger.frame e hlt).trans hframe⟩

end Store.Combined

section Becoming

open Vau.Action

variable {cfg : Gauge} {n room env fuel : Nat} {operands : Value} {w w₁ : World}

theorem becomes_combination (hlimit : cfg.stepLimit = none) (hcounted : cfg.counted = true)
    {r : Nat} {c : Value} (h : Prepares cfg n room r env w c operands w₁) (hfuel : n ≤ fuel)
    (base : Nat) : (reduce cfg.toSettings (fuel + 1) room base (.pair r) env).Becomes w
      (finish cfg.toSettings room c operands env fuel base) w₁ := by
  obtain ⟨k, hk, h⟩ := h
  have hstart : (do
      Action.tick cfg.stepLimit
      Action.enter base (.pair r)
      resolve (nested (reduce cfg.toSettings fuel) room) fuel r env).Gives w (c, operands) w₁ :=
    (Gives.tick hlimit w).bind ((Gives.enter base _ w).bind (h fuel (by rw [hk hcounted]; omega) base))
  have hreduce : reduce cfg.toSettings (fuel + 1) room base (.pair r) env =
      turn cfg.toSettings (nested (reduce cfg.toSettings fuel) room) fuel room base (.pair r) env >>=
        conclude base (reduce cfg.toSettings fuel room base) := by
    rw [reduce]
    congr 1
  have hbecomes := hstart.becomes (f := fun c =>
    finish cfg.toSettings room c.1 c.2 env fuel base)
  rw [hreduce]
  simpa only [turn, finish, bind_assoc] using hbecomes

/-- A combination that is made of a combiner and its operands has both at once. -/
theorem prepares_pair {r : Nat} {c : Value} (hlimit : cfg.stepLimit = none)
    (happlicative : c.isApplicative = false) (hpair : c.isPair = false) (hsymbol : c.isSymbol = false)
    (hhead : w.store.head r = c) (htail : w.store.tail r = operands) (hroom : 0 < room) :
    Prepares cfg 1 room r env w c operands w := by
  obtain ⟨room, rfl⟩ : ∃ k, room = k + 1 := ⟨room - 1, by omega⟩
  have hoperator : Yields cfg 1 room (w.store.head r) env w c w := by
    rw [hhead]
    exact yields_constant hlimit hpair hsymbol w
  rw [← htail]
  exact .plain happlicative hoperator

theorem becomes_operative {q e : Nat} {body : Value} (hbody : (w.store.operative q).body = [body])
    (hopen : openFrame (w.store.operative q) operands env w = .ok e w₁) (base : Nat) :
    (finish cfg.toSettings room (.operative q) operands env fuel base).Becomes w
      (reduce cfg.toSettings fuel room base body e) w₁ := by
  have hcombine : (combine cfg.toSettings (nested (reduce cfg.toSettings fuel) room) fuel room
      (.operative q) operands env).Gives w (.proceed body e) w₁ := by
    refine (Gives.reads (fun s => s.operative q) w).bind ((Gives.notes _ _ w).bind ?_)
    simp only [callOperative_eq]
    refine (Gives.act hopen).bind ?_
    rw [hbody]
    exact .pure _ w₁
  exact hcombine.becomes

theorem becomes_eval {expr : Value} {e : Nat}
    (hspine : w.store.spine? operands = some ([expr, .env e], .nil)) (base : Nat) :
    (finish cfg.toSettings room (.primitive (.operation .eval)) operands env fuel base).Becomes w
      (reduce cfg.toSettings fuel room base expr e) w := by
  have hcombine : (combine cfg.toSettings (nested (reduce cfg.toSettings fuel) room) fuel room
      (.primitive (.operation .eval)) operands env).Gives w (.proceed expr e) w := by
    have hoperands : checkedOperands Operation.eval.signature operands w =
        .ok [expr, .env e] w := by
      simp only [checkedOperands, Deed.reads, Bind.bind, EStateM.bind, hspine]
      rfl
    exact (Gives.notes _ _ w).bind ((Gives.act hoperands).bind (.act rfl))
  exact hcombine.becomes

end Becoming

namespace Scene

open Library Vau.Tree

variable {σ : Scene} {cfg : Gauge} {n d f root : Nat} {c u l last : Value} {label : Nat}

section Parts

variable (hlimit : cfg.stepLimit = none) (h : σ.Intact root definitions)
  (hscope : σ.Scope f [("combiner", .applicative label u), ("args", l), ("env", last)] root)
include hlimit h hscope

theorem Finds.combination :
    σ.Finds cfg (n + 3) 2 (list ["cons", list ["unwrap", "combiner"], "args"]) f fun v τ =>
      ∃ r, v = .pair r ∧ σ.store.cells.size ≤ r ∧ r < τ.store.cells.size ∧
        τ.store.head r = u ∧ τ.store.tail r = l := by
  obtain ⟨_, hcons⟩ := h.wrapped (p := .operation .cons) (by decide) rfl
  obtain ⟨_, hunwrap⟩ := h.wrapped (p := .operation .unwrap) (by decide) rfl
  refine .apply (d := 1) hlimit (hscope.sees_outer rfl hcons) rfl (by simp) (by omega) ?_
  refine .apply (d := 0) hlimit (hscope.sees_outer rfl hunwrap) rfl (by simp) (by omega) ?_
  refine .symbol hlimit (hscope.sees rfl) fun τ operands hτ hitems => ?_
  refine .operation hitems rfl fun room => ⟨u, τ, rfl, .refl τ, ?_⟩
  refine .symbol hlimit ((hscope.onward hτ.grown.onward).sees rfl) fun υ operands' hυ hitems' => ?_
  refine .operation hitems' rfl fun room => ?_
  have hadds := υ.adds_grow (.cons υ.store u l none)
  have hcell : (υ.store.cons u l none).2.cell υ.store.cells.size = ⟨u, l, none⟩ := by
    rw [Store.cell_cons, if_pos rfl]
  exact ⟨.pair υ.store.cells.size, _, rfl, hadds, υ.store.cells.size, rfl,
    (hτ.trans hυ).store.larger.cells, by simp [Scene.grow, Scene.store],
    congrArg Cell.head hcell, congrArg Cell.tail hcell⟩

/-- The environment that is given, or else a new one. -/
theorem Finds.environment (env : Option Nat)
    (hlast : σ.store.Items .nil last (env.map Value.env).toList) :
    σ.Finds cfg (n + 6) 3
      (list ["^if", list ["null?", "env"], list ["make-environment"], list ["head", "env"]]) f
      fun v τ => ∃ e, v = .env e ∧ (∀ e', env = some e' → e = e') ∧
        (env = none → σ.store.frames.size ≤ e ∧ e < τ.store.frames.size ∧
          τ.store.frame e = ⟨[], none⟩) := by
  obtain ⟨_, hnull⟩ := h.wrapped (p := .operation (.test .null)) (by decide) rfl
  obtain ⟨_, hmake⟩ := h.wrapped (p := .operation .makeEnvironment) (by decide) rfl
  obtain ⟨_, hhead⟩ := h.wrapped (p := .operation .head) (by decide) rfl
  refine .conditional (d := 1) hlimit h (by simp [definitions, parts])
    (fun v => hscope.sees_outer rfl) (fun τ hτ => ?_) (by omega) (by omega)
  have hscope' := hscope.onward hτ.grown.onward
  refine .apply (d := 0) hlimit (hscope'.sees_outer rfl (hnull.onward hτ.grown.onward)) rfl (by simp)
    (by omega) ?_
  refine .symbol hlimit (hscope'.sees rfl) fun υ operands hυ hitems => ?_
  refine .operation hitems rfl fun room => ⟨_, υ, rfl, .refl υ, _, rfl, fun φ hφ => ?_⟩
  have hφ' := hτ.trans (hυ.trans hφ)
  have hscope'' := hscope.onward hφ'.grown.onward
  cases env with
  | none =>
    cases hlast
    refine .apply (d := 0) hlimit
      (hscope''.sees_outer rfl (hmake.onward hφ'.grown.onward)) rfl (by simp) (by omega) ?_
    intro ψ operands' hψ hitems'
    refine .operation hitems' rfl fun room => ?_
    have hadds := ψ.adds_grow (.newFrame ψ.store none)
    refine ⟨.env ψ.store.frames.size, _, rfl, hadds, _, rfl, fun _ he => (by cases he),
      fun _ => ⟨?_, ?_, ?_⟩⟩
    · exact (hφ'.trans hψ).store.larger.frames
    · simp [Scene.grow, Scene.store, Store.newFrame]
    · exact (Store.frame_newFrame ψ.store none _).trans (if_pos rfl)
  | some e =>
    obtain ⟨r, rfl, hr, hfirst⟩ : ∃ r, last = .pair r ∧ r < σ.store.cells.size ∧
        σ.store.head r = .env e := by
      generalize hvs : (Option.map Value.env (some e)).toList = vs at hlast
      cases hlast with
      | done => cases hvs
      | @pair r _ hr _ =>
        injection hvs with hfirst
        exact ⟨r, rfl, hr, hfirst.symm⟩
    refine .apply (d := 0) hlimit (hscope''.sees_outer rfl (hhead.onward hφ'.grown.onward)) rfl
      (by simp) (by omega) ?_
    refine .symbol hlimit (hscope''.sees rfl) fun ψ operands' hψ hitems' => ?_
    have hheld : ψ.store.head r = .env e :=
      (congrArg Cell.head ((hφ'.trans hψ).store.larger.cell r hr)).trans hfirst
    refine .operation hitems' rfl fun room =>
      ⟨.env e, ψ, ?_, .refl ψ, e, rfl, ?_, fun hnone => (by cases hnone)⟩
    · exact congrArg (fun v => EStateM.Result.ok (Answer.value v) ψ.world) hheld
    · exact fun e' he => Option.some.inj he

end Parts

/-- The code of `apply` goes on, in its own place, with the combination of what is inside the wrapper
and the list that was given. -/
theorem apply_becomes (hlimit : cfg.stepLimit = none) (hcounted : cfg.counted = true)
    (h : σ.Intact root definitions) {formals body : Tree}
    (hcode : Library.apply.code = .procedure formals body) {q : Nat}
    (hw : σ.Written q root formals .ignore body) {operands : Value}
    (hitems : σ.store.Items last operands [.applicative label u, l]) (env : Option Nat)
    (hlast : σ.store.Items .nil last (env.map Value.env).toList) {room fuel : Nat} (hroom : 4 ≤ room)
    (hfuel : 6 ≤ fuel) (caller : Nat) :
    ∃ r e τ, σ.Adds τ ∧ σ.store.Combined env u l τ.store r e ∧
      ∀ base, (finish cfg.toSettings room (.operative q) operands caller (fuel + 1) base).Becomes
        σ.world (reduce cfg.toSettings fuel room base (.pair r) e) τ.world := by
  cases hcode
  obtain ⟨room, rfl⟩ : ∃ k, room = k + 1 := ⟨room - 1, by omega⟩
  obtain ⟨form, hform, hbody⟩ := hw.body
  obtain ⟨σ₁, f, hopen, hadds, hscope⟩ :=
    hw.enters ["combiner", "args"] h.lt hitems rfl rfl caller
  have hintact := h.onward hadds.grown.onward
  obtain ⟨_, heval⟩ := hintact.wrapped (p := .operation .eval) (by decide) rfl
  have hoperands : FindsAll cfg 6 3 f
      [list ["cons", list ["unwrap", "combiner"], "args"],
        list ["^if", list ["null?", "env"], list ["make-environment"], list ["head", "env"]]]
      (fun vs τ => ∃ r e, vs = [.pair r, .env e] ∧ σ₁.store.Combined env u l τ.store r e) σ₁ := by
    refine ((Finds.combination (n := 3) hlimit hintact hscope).weaken (Nat.le_refl 6)
      (show 2 ≤ 3 by decide)).mono fun v τ hτ hv => ?_
    obtain ⟨r, rfl, hle, hlt, hhead, htail⟩ := hv
    refine (Finds.environment (n := 0) hlimit (hintact.onward hτ.grown.onward)
      (hscope.onward hτ.grown.onward) env ((hlast.larger hadds.store.larger).larger
        hτ.store.larger)).mono fun v υ hυ hv => ?_
    obtain ⟨e, rfl, hgiven, hfresh⟩ := hv
    have hcell := hυ.store.larger.cell r hlt
    refine ⟨r, e, rfl, {
      adds := hτ.store.trans hυ.store
      le := hle
      lt := Nat.lt_of_lt_of_le hlt hυ.store.larger.cells
      head := (congrArg Cell.head hcell).trans hhead
      tail := (congrArg Cell.tail hcell).trans htail
      given := hgiven
      fresh := fun hnone => ?_ }⟩
    obtain ⟨hnew, hrest⟩ := hfresh hnone
    exact ⟨Nat.le_trans hτ.store.larger.frames hnew, hrest⟩
  obtain ⟨r₀, operands', vs, τ, υ, rfl, hprepares, hfound, hυ, hall, hitems'⟩ :=
    hoperands.prepares (n := 5) hlimit (hbody.onward hadds.grown.onward) (hscope.sees_outer rfl heval)
      rfl (by simp) (show 3 ≤ room by omega)
  obtain ⟨r, e, rfl, hcombined⟩ := hfound
  refine ⟨r, e, υ, hadds.trans hall, .after hadds.store (hcombined.later hυ.store), fun base => ?_⟩
  exact (becomes_operative hform hopen base).trans
    ((becomes_combination hlimit hcounted hprepares hfuel base).trans
      (becomes_eval (hitems'.spine? rfl) base))

end Scene

section Host

variable (cfg : Settings) {s : Store} {args : List Value} {operands : Value} {w : World}
  (hmade : w.store.list args .nil = (operands, s)) (label : Nat) (u : Value)
include hmade

/-- The host goes on with the combination of what is inside the wrapper and a list of the arguments.
It makes one pair for it, and a frame only if no environment is given. -/
theorem applyTo_becomes (env : Option Nat) :
    ∃ e t, s.Combined env u operands t s.cells.size e ∧ t.cells.size = s.cells.size + 1 ∧
      t.frames.size = s.frames.size + (if env = none then 1 else 0) ∧
      (env = none → e = s.frames.size) ∧
      (applyTo cfg (.applicative label u) args (env.map .env)).Becomes w
        (evaluate cfg (.pair s.cells.size) e) ⟨t, w.effects⟩ := by
  have hcell : (s.cons u operands none).2.cell s.cells.size = ⟨u, operands, none⟩ := by
    rw [Store.cell_cons, if_pos rfl]
  have hoperands : (Deed.makes fun s => s.list args .nil).act.Gives w operands ⟨s, w.effects⟩ :=
    .act (by simp only [Deed.makes, hmade])
  have hexpr : (Deed.makes fun s => s.cons u operands none).act.Gives ⟨s, w.effects⟩
      (.pair s.cells.size) ⟨(s.cons u operands none).2, w.effects⟩ := .act rfl
  cases env with
  | some e =>
    refine ⟨e, (s.cons u operands none).2, ?_, by simp, rfl, fun hnone => (by cases hnone),
      hoperands.becomes.trans hexpr.becomes⟩
    exact ⟨.cons s u operands none, Nat.le_refl _, by simp, congrArg Cell.head hcell,
      congrArg Cell.tail hcell, fun e' he => Option.some.inj he, fun hnone => (by cases hnone)⟩
  | none =>
    have hframe : (Deed.makes fun s => s.newFrame none).act.Gives
        ⟨(s.cons u operands none).2, w.effects⟩ s.frames.size
        ⟨((s.cons u operands none).2.newFrame none).2, w.effects⟩ := .act rfl
    refine ⟨s.frames.size, ((s.cons u operands none).2.newFrame none).2, ?_,
      by simp [Store.newFrame], by simp [Store.newFrame, Store.cons], fun _ => rfl,
      hoperands.becomes.trans (hexpr.becomes.trans hframe.becomes)⟩
    refine ⟨(Store.Adds.cons s u operands none).trans (.newFrame _ none), Nat.le_refl _,
      by simp [Store.newFrame], congrArg Cell.head hcell, congrArg Cell.tail hcell,
      fun _ he => (by cases he), fun _ => ⟨Nat.le_refl _, by simp [Store.newFrame, Store.cons], ?_⟩⟩
    exact (Store.frame_newFrame _ none _).trans (if_pos rfl)

end Host

/-- What the host's call of a wrapped operation comes to, where the operation gives a value. -/
theorem applyTo_operation {cfg : Settings} (hlimit : cfg.stepLimit = none) (hfuel : 2 ≤ cfg.fuel)
    (hroom : 0 < cfg.room) {o : Operation} {args : List Value}
    (hadmits : o.signature.admits args.length = true) {P : Value → Prop}
    (hperform : ∀ e w, ∃ v w', o.perform cfg.room e args w = .ok (.value v) w' ∧ P v) (label : Nat)
    (env : Option Nat) (m : Machine) : ∃ v m',
      applyTo cfg (.applicative label (.primitive (.operation o))) args (env.map .env) m = .ok v m' ∧
        P v := by
  have hitems := m.store.items_list args .nil
  generalize hmade : m.store.list args .nil = made at hitems
  obtain ⟨operands, s⟩ := made
  obtain ⟨e, t, hcombined, -, -, -, hbecomes⟩ :=
    applyTo_becomes cfg hmade label (.primitive (.operation o)) env
  let gauge : Gauge := ⟨cfg, true⟩
  let w : World := ⟨t, m.world.effects⟩
  obtain ⟨v, w', hv, hP⟩ := hperform e w
  have hprepares : Prepares gauge 1 cfg.room s.cells.size e w (.primitive (.operation o)) operands w :=
    prepares_pair hlimit rfl rfl rfl hcombined.head hcombined.tail hroom
  obtain ⟨k, hk, hyields⟩ := yields_combination hlimit hprepares
    (calls_operation ((hitems.larger hcombined.adds.larger).spine? rfl) hadmits hv)
  obtain ⟨m₁, hm₁, hworld₁⟩ := hbecomes m rfl
  obtain ⟨m₂, hm₂, -⟩ := hyields cfg.fuel (by rw [hk rfl]; omega) m₁.stack.size m₁ hworld₁
  exact ⟨v, m₂, hm₁.trans hm₂, hP⟩

/-- What an activation comes to does not depend on how much fuel the settings have for a new one. -/
theorem reduce_fuel (cfg : Settings) (k fuel room base : Nat) (expr : Value) (env : Nat) :
    reduce { cfg with fuel := k } fuel room base expr env = reduce cfg fuel room base expr env := by
  induction fuel generalizing room base expr env with
  | zero => rfl
  | succ fuel ih =>
    have hsame : reduce { cfg with fuel := k } fuel = reduce cfg fuel := by
      funext room base expr env
      exact ih room base expr env
    rw [reduce, reduce, hsame]
    rfl

/-- The host calls the `apply` of the prelude with a combiner, a list of the arguments and an
environment, if there is one. -/
theorem Scene.applyTo_apply_becomes {σ : Scene} {root q : Nat} {formals body : Tree} {cfg : Settings}
    (hlimit : cfg.stepLimit = none) (hfuel : 6 ≤ cfg.fuel) (hroom : 4 ≤ cfg.room)
    (h : σ.Intact root Library.definitions) (hcode : Library.apply.code = .procedure formals body)
    (hw : σ.Written q root formals .ignore body) (label label' : Nat) (u l : Value)
    (env : Option Nat) (caller : Nat) :
    ∃ r e, ∃ τ : Scene, σ.Adds τ ∧ σ.store.Combined env u l τ.store r e ∧
      ∀ m : Machine, m.world = σ.world → ∃ base m',
        applyTo { cfg with fuel := cfg.fuel + 2 } (.applicative label' (.operative q))
          (.applicative label u :: l :: (env.map .env).toList) (some (.env caller)) m =
            reduce cfg cfg.fuel cfg.room base (.pair r) e m' ∧ m'.world = τ.world := by
  let vs : List Value := [.applicative label u, l] ++ (env.map Value.env).toList
  let gauge : Gauge := ⟨{ cfg with fuel := cfg.fuel + 2 }, true⟩
  have hlist := Store.Adds.list σ.store vs .nil
  have hvs := σ.store.items_list vs .nil
  generalize hmade : σ.store.list vs .nil = made at hlist hvs
  obtain ⟨operands, s⟩ := made
  obtain ⟨last, hitems, hlast⟩ := hvs.split
  -- the combination that the host makes for the call of `apply`
  obtain ⟨e, t, hcall, -, -, -, hbecomes⟩ :=
    applyTo_becomes gauge.toSettings hmade label' (.operative q) (some caller)
  obtain rfl := (hcall.given caller rfl).symm
  obtain ⟨σ₁, hworld, hσ₁⟩ : ∃ σ₁ : Scene, σ₁.world = ⟨t, σ.world.effects⟩ ∧ σ.Adds σ₁ :=
    ⟨_, rfl, σ.adds_grow (hlist.trans hcall.adds)⟩
  rw [show t = σ₁.store from (congrArg World.store hworld).symm] at hcall
  have hprepares : Prepares gauge 1 cfg.room s.cells.size caller σ₁.world (.operative q) operands
      σ₁.world := prepares_pair hlimit rfl rfl rfl hcall.head hcall.tail (by omega)
  -- from there its own code goes on
  obtain ⟨r, e, τ, hτ, hcombined, hcode'⟩ := apply_becomes (show gauge.stepLimit = none from hlimit) rfl
    (h.onward hσ₁.grown.onward) hcode (hw.onward hσ₁.grown.onward) (hitems.larger hcall.adds.larger) env
    (hlast.larger hcall.adds.larger) hroom hfuel caller
  refine ⟨r, e, τ, hσ₁.trans hτ, hcombined.after hσ₁.store, fun m hm => ?_⟩
  obtain ⟨m₁, hm₁, hworld₁⟩ := hbecomes m hm
  obtain ⟨m₂, hm₂, hworld₂⟩ := (becomes_combination hlimit rfl hprepares
    (show 1 ≤ cfg.fuel + 1 by omega) m₁.stack.size).trans (hcode' m₁.stack.size) m₁
      (hworld₁.trans hworld.symm)
  refine ⟨m₁.stack.size, m₂, ?_, hworld₂⟩
  rw [← reduce_fuel cfg (cfg.fuel + 2)]
  exact hm₁.trans hm₂

/-- The host calls the `apply` of the prelude with a combiner, a fresh list of the arguments and an
environment, if there is one. There are two turns more than there are when it calls the combiner
itself: one for this call, one for the code of `apply`. -/
def Library.callApply (cfg : Settings) (procedure c : Value) (args : List Value) (env : Option Value)
    (caller : Nat) : Action Value := do
  let given ← (Deed.makes fun s => s.list args .nil).act
  applyTo { cfg with fuel := cfg.fuel + 2 } procedure (c :: given :: env.toList) (some (.env caller))

section Agreement

variable {x : Extent} {u l : Value} {env : Option Nat}

/-- Nothing tells the host's combination from another one that has been made from the same store,
except the places. -/
theorem Store.Sound.combined {s t t' : Store} {r e e' : Nat} (hs : s.Sound x) (hroot : 0 < x.frames)
    (hu : u.In x) (hl : l.In x) (henv : ∀ d, env = some d → d < x.frames)
    (h : s.Combined env u l t s.cells.size e) (hcells : t.cells.size = s.cells.size + 1)
    (hframes : t.frames.size = s.frames.size + (if env = none then 1 else 0))
    (hnew : env = none → e = s.frames.size) (h' : s.Combined env u l t' r e') :
    ∃ cell frame, (Link.places cell frame).OneToOne ∧ (∀ q < s.cells.size, cell q q) ∧
      (∀ d < s.frames.size, frame d d) ∧ cell s.cells.size r ∧ frame e e' ∧
      t.Parallel ⟨.places cell frame, (· = .endless)⟩ t' := by
  have hlt : s.frames.size < t.frames.size ↔ env = none := by
    rw [hframes]
    split
    case isTrue hnone => simp [hnone]
    case isFalse hsome => simp [hsome]
  let cells : Detour := {
    old := s.cells.size, next := t.cells.size, place := r, next' := t'.cells.size
    old_le := h.adds.larger.cells
    next_le := Nat.le_of_eq hcells
    old_le' := h'.adds.larger.cells
    old_le_place := fun _ => h'.le
    place_lt := fun _ => h'.lt }
  let frames : Detour := {
    old := s.frames.size, next := t.frames.size, place := e', next' := t'.frames.size
    old_le := h.adds.larger.frames
    next_le := by rw [hframes]; split <;> omega
    old_le' := h'.adds.larger.frames
    old_le_place := fun hlt' => (h'.fresh (hlt.mp hlt')).1
    place_lt := fun hlt' => (h'.fresh (hlt.mp hlt')).2.1 }
  have hcell : ∀ q < x.cells, cells.Leads q q := fun q hq =>
    Detour.leads_old (show q < s.cells.size by rwa [hs.cells_size])
  have hframe : ∀ d < x.frames, frames.Leads d d := fun d hd =>
    Detour.leads_old (show d < s.frames.size by rwa [hs.frames_size])
  have he : frames.Leads e e' := by
    cases henv' : env with
    | some d =>
      rw [h.given d henv', h'.given d henv']
      exact hframe d (henv d henv')
    | none =>
      rw [hnew henv']
      exact Detour.leads_place (d := frames) (hlt.mpr henv')
  refine ⟨cells.Leads, frames.Leads, Link.oneToOne_detours cells frames, fun q hq => Detour.leads_old hq,
    fun d hd => Detour.leads_old hd, Detour.leads_place (d := cells) ?_, he, ?_⟩
  · exact Nat.lt_of_lt_of_le (Nat.lt_succ_self _) (Nat.le_of_eq hcells.symm)
  refine hs.parallel hroot h.adds h'.adds ⟨rfl, rfl, rfl⟩ ⟨rfl, rfl, rfl⟩ ?_ (fun _ => ?_) (fun _ => ?_)
    (fun hlt' => ?_)
  · have hr := h'.le
    have hr' := h'.lt
    omega
  · rw [show t.head cells.old = u from h.head, show t'.head cells.place = u from h'.head]
    exact hu.linked hcell hframe
  · rw [show t.tail cells.old = l from h.tail, show t'.tail cells.place = l from h'.tail]
    exact hl.linked hcell hframe
  · have hnone := hlt.mp hlt'
    have hempty : t.frame s.frames.size = ⟨[], none⟩ := by
      rw [← hnew hnone]
      exact (h.fresh hnone).2.2
    rw [show t.frame frames.old = ⟨[], none⟩ from hempty,
      show t'.frame frames.place = ⟨[], none⟩ from (h'.fresh hnone).2.2]
    exact ⟨.nil, .none⟩

open Library in
/-- Calling `apply` comes to the same as the call that the host makes, but for the places of what is
new: the same value or failure, the same store and the same effects. The code of `apply` needs some
room and fuel, and its steps are not to count. -/
theorem Library.apply_agrees {cfg : Settings} (hcfg : cfg.Neutral) (hlimit : cfg.stepLimit = none)
    (hfuel : 6 ≤ cfg.fuel) (hroom : 4 ≤ cfg.room) {σ : Scene} {root : Nat}
    (h : σ.Intact root definitions) (hsound : σ.store.Sound x) (label : Nat) (hu : u.In x)
    {args : List Value} (hargs : ∀ v ∈ args, v.In x) (henv : ∀ e, env = some e → e < x.frames)
    (caller : Nat) :
    ∃ procedure, σ.Sees "apply" procedure root ∧ ∃ cell frame, (Link.places cell frame).OneToOne ∧
      (∀ r < σ.store.cells.size, cell r r) ∧ (∀ e < σ.store.frames.size, frame e e) ∧
      (env = none → ∃ e, σ.store.frames.size ≤ e ∧ frame σ.store.frames.size e) ∧
      ∀ m m' : Machine, m.world = σ.world → m'.world = σ.world →
        (Course.parallel (.places cell frame)).Ends (Course.parallel (.places cell frame)).world
          (Value.Linked (.places cell frame))
          (outcome (applyTo cfg (.applicative label u) args (env.map .env) m))
          (outcome (callApply cfg procedure (.applicative label u) args (env.map .env) caller m')) := by
  obtain ⟨q, label', hw, hsees⟩ := h.procedure (d := Library.apply) (by simp [definitions, parts]) rfl
  refine ⟨_, hsees, ?_⟩
  -- both begin with a list of the arguments
  obtain ⟨y, hy, hsound₁, hgiven⟩ := hsound.list hargs (show Value.nil.In x from trivial)
  obtain ⟨σ₁, hworld, hσ₁⟩ : ∃ σ₁ : Scene,
      σ₁.world = ⟨(σ.store.list args .nil).2, σ.world.effects⟩ ∧ σ.Adds σ₁ :=
    ⟨_, rfl, σ.adds_grow (.list σ.store args .nil)⟩
  have hframes : σ₁.store.frames = σ.store.frames :=
    (congrArg (fun w => w.store.frames) hworld).trans (σ.store.frames_list args .nil)
  generalize hmade : σ.store.list args .nil = made at hworld hsound₁ hgiven
  obtain ⟨given, s⟩ := made
  obtain rfl : s = σ₁.store := (congrArg World.store hworld).symm
  have hgives : (Deed.makes fun s => s.list args .nil).act.Gives σ.world given σ₁.world :=
    .act (by simp only [Deed.makes, hmade, hworld])
  obtain ⟨e, t, hhost, hcells, hsize, hnew, happly⟩ := applyTo_becomes cfg hmade label u env
  obtain ⟨r, e', τ, hτ, hcombined, hcall⟩ := Scene.applyTo_apply_becomes hlimit hfuel hroom
    (h.onward hσ₁.grown.onward) rfl (hw.onward hσ₁.grown.onward) label label' u given env caller
  have hroot : 0 < y.frames := by
    rw [← hsound₁.frames_size, hframes]
    exact Nat.zero_lt_of_lt h.lt
  obtain ⟨cell, frame, hone, hcell, hframe, hpair, henv', hparallel⟩ :=
    hsound₁.combined hroot (hu.mono hy) hgiven (fun d hd => hy.frame_lt (henv d hd)) hhost hcells hsize
      hnew hcombined
  rw [hframes] at hframe hnew
  refine ⟨cell, frame, hone, fun r hr => hcell r (Nat.lt_of_lt_of_le hr hσ₁.store.larger.cells), hframe,
    fun hnone => ⟨e', ?_, hnew hnone ▸ henv'⟩, fun m m' hm hm' => ?_⟩
  · rw [← hframes]
    exact (hcombined.fresh hnone).1
  -- from there they go side by side
  obtain ⟨m₁, hm₁, hworld₁⟩ := happly m hm
  obtain ⟨m₂, hm₂, hworld₂⟩ := hgives m' hm'
  obtain ⟨base, m₃, hm₃, hworld₃⟩ := hcall m₂ hworld₂
  have hcall' : callApply cfg (.applicative label' (.operative q)) (.applicative label u) args
      (env.map .env) caller m' = reduce cfg cfg.fuel cfg.room base (.pair r) e' m₃ := by
    rw [← hm₃]
    simp only [callApply, Bind.bind, EStateM.bind, hm₂]
  have hw₁ : (Course.parallel (.places cell frame)).world m₁.world m₃.world := by
    rw [hworld₁, hworld₃]
    exact ⟨hparallel, hτ.grown.effects.trans hσ₁.grown.effects⟩
  rw [hm₁, hcall']
  exact hcfg.outcomes hlimit hone hw₁ (.pair hpair) henv' cfg.fuel cfg.room m₁.stack.size base

end Agreement

open Library in
/-- In a new session `apply` calls `cons` as the host does: both come to a pair. -/
theorem Library.apply_agrees_cons : ∃ (s : Session) (procedure : Value) (cell frame : Nat → Nat → Prop)
    (v v' : Value) (w w' : World), Session.start .empty none true [] = .ok s ∧
    s.machine.store.lookup? s.root "apply" = some procedure ∧
    outcome (applyTo s.settings (.applicative 0 (.primitive (.operation .cons))) [.int 1, .int 2]
      ((none : Option Nat).map .env) s.machine) = .ok v w ∧
    outcome (callApply s.settings procedure (.applicative 0 (.primitive (.operation .cons)))
      [.int 1, .int 2] ((none : Option Nat).map .env) s.root s.machine) = .ok v' w' ∧
    v.isPair = true ∧ v.Linked (.places cell frame) v' ∧
    (Course.parallel (.places cell frame)).world w w' := by
  obtain ⟨s, σ, hstart, hsettings, hworld, hintact⟩ := Session.start_intact
  obtain ⟨x, hs⟩ := Session.start_sound hstart
  have hsound : σ.store.Sound x := by
    rw [Scene.store, ← hworld]
    exact hs.store
  have hlimit : s.settings.stepLimit = none := by rw [hsettings]; rfl
  have hfuel : 6 ≤ s.settings.fuel := by rw [hsettings]; decide
  have hroom : 4 ≤ s.settings.room := by rw [hsettings]; decide
  have hcfg : s.settings.Neutral := .of_empty (by rw [hsettings]; rfl)
  have hargs : ∀ v ∈ [Value.int 1, .int 2], v.In x := by simp [Value.In]
  obtain ⟨procedure, hsees, cell, frame, -, -, -, -, hends⟩ :=
    apply_agrees hcfg hlimit hfuel hroom hintact hsound 0 (u := .primitive (.operation .cons)) trivial
      hargs (show ∀ e, (none : Option Nat) = some e → e < x.frames from fun _ he => (by cases he)) s.root
  have hadmits : Operation.cons.signature.admits [Value.int 1, .int 2].length = true := rfl
  obtain ⟨v, m, happly, hpair⟩ := applyTo_operation hlimit (by omega) (by omega) hadmits
    (P := fun v => v.isPair = true) (fun e w => ⟨_, _, rfl, rfl⟩) 0 none s.machine
  have hboth := hends s.machine s.machine hworld hworld
  rw [happly] at hboth
  generalize hresult : outcome (callApply s.settings procedure
    (.applicative 0 (.primitive (.operation .cons))) [.int 1, .int 2] ((none : Option Nat).map .env)
    s.root s.machine) = result at hboth
  obtain @⟨_, v', _, w', hv, hw⟩ := hboth
  refine ⟨s, procedure, cell, frame, v, v', m.world, w', hstart, ?_, congrArg outcome happly,
    hresult, hpair, hv, hw⟩
  rw [Machine.store, hworld]
  exact hsees.lookup

end Vau
