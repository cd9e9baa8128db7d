import Vau.Proofs.Library
import Vau.Proofs.Rules

/-! Calls of operatives whose code is held, and what makes such operatives: `$vau` and, once they
are bound as the prelude has them, `$lambda` and `^if`. -/

namespace Vau

namespace Scene

variable {σ τ : Scene} {cfg : Gauge} {n N d D e p q : Nat} {t body : Tree}
  {Q : Value → Scene → Prop} {operands last rest dynamic : Value} {names : List String}
  {vs : List Value} {bs : List (String × Value)}

section Frames

theorem scope_opened (σ : Scene) (hp : p < σ.store.frames.size) (bs : List (String × Value)) :
    (σ.grow _ (.opened σ.store p bs)).Scope σ.store.frames.size bs.reverse p := by
  have hsize : σ.store.frames.size < (σ.store.newFrame (some p)).2.frames.size := by
    simp [Store.newFrame]
  have hframe : (σ.store.newFrame (some p)).2.frame σ.store.frames.size = ⟨[], some p⟩ := by
    rw [Store.frame_newFrame, if_pos rfl]
  refine ⟨fun name => .inr ⟨Nat.le_refl _, ?_⟩, fun name => ?_, ?_, hp⟩
  · rwa [Store.opened, Store.size_defineAll]
  · refine (Store.get?_defineAll _ hsize bs name).trans ?_
    rw [hframe]
    exact Option.or_none
  · refine (Store.parent_defineAll _ hsize bs).trans ?_
    rw [hframe]

/-- The frame of a call binds what the formals are matched by and, by the name given for it, where
the call was. -/
theorem opens_matched {o : Operative} {formals : Tree} (hformals : σ.Holds o.formals formals)
    (hp : o.scope < σ.store.frames.size)
    (hmatch : formals.matched (σ.store.newFrame (some o.scope)).2 operands = .ok bs) (e : Nat) :
    ∃ bound, openFrame o operands e σ.world =
        .ok σ.store.frames.size ⟨σ.store.opened o.scope bound, σ.world.effects⟩ ∧
      (σ.grow _ (.opened σ.store o.scope bound)).Scope σ.store.frames.size
        (callerBinding e o.dynamic ++ bs.reverse) o.scope := by
  have hnew : σ.store.Extends (σ.store.newFrame (some o.scope)).2 := .newFrame σ.store (some o.scope)
  have hunfolds := (hformals.onward (σ.grown_grow hnew).onward).unfolds
  have hopen : openFrame o operands e σ.world = _ :=
    openFrame_eq ((Store.matchFormals_unfolds hunfolds operands).trans
      (congrArg (Except.mapError _) hmatch))
  have hscope := scope_opened σ hp (bs ++ callerBinding e o.dynamic)
  have hreverse : (bs ++ callerBinding e o.dynamic).reverse =
      callerBinding e o.dynamic ++ bs.reverse := by
    rw [List.reverse_append]
    cases o.dynamic <;> rfl
  exact ⟨_, hopen, hreverse ▸ hscope⟩

theorem Written.opens (names : List String)
    (hw : σ.Written q p (Tree.dotted (names.map Tree.sym) (.leaf rest)) dynamic body)
    (hp : p < σ.store.frames.size) (hitems : σ.store.Items last operands vs)
    (hlength : names.length = vs.length) (hrest : Formals.leaf rest last = .ok bs) (e : Nat) :
    ∃ bound, openFrame (σ.store.operative q) operands e σ.world =
        .ok σ.store.frames.size ⟨σ.store.opened p bound, σ.world.effects⟩ ∧
      (σ.grow _ (.opened σ.store p bound)).Scope σ.store.frames.size
        (callerBinding e dynamic ++ names.zip vs ++ bs.reverse) p := by
  obtain ⟨-, rfl, hformals, rfl, -⟩ := hw
  have hmatched := (hitems.larger (.newFrame σ.store (some (σ.store.operative q).scope))).matched
    hlength hrest
  have hopens := opens_matched hformals hp hmatched e
  simpa only [List.reverse_append, List.reverse_reverse, List.append_assoc] using hopens

/-- An operative without an environment parameter evaluates its body in a frame that binds what its
formals are matched by. -/
theorem Called.matched {formals : Tree} (hw : σ.Written q p formals .ignore body)
    (hp : p < σ.store.frames.size)
    (hmatch : ∀ τ, σ.Grown τ → formals.matched τ.store operands = .ok bs)
    (h : ∀ τ f, σ.Grown τ → τ.Scope f bs.reverse p → τ.Runs cfg n d body f Q) :
    σ.Called cfg n d (.operative q) operands e Q := by
  intro τ hτ room hroom
  have hw' := hw.onward hτ.onward
  obtain ⟨form, hform, hbody⟩ := hw'.body
  obtain ⟨-, hscope, hformals, hdynamic, -⟩ := hw'
  subst hscope
  obtain ⟨bound, hopen, hscope⟩ := opens_matched hformals (Nat.lt_of_lt_of_le hp hτ.larger.frames)
    (hmatch _ (hτ.trans (τ.grown_grow (.newFrame τ.store _)))) e
  rw [hdynamic] at hscope
  have hgrown := τ.grown_grow (.opened τ.store (τ.store.operative q).scope bound)
  exact .after hgrown.onward (h _ _ (hτ.trans hgrown) hscope _ (.refl _) form
    (hbody.onward hgrown.onward) room hroom) fun v w hv => calls_operative hform hopen hv

theorem Called.operative (names : List String)
    (hw : σ.Written q p (Tree.dotted (names.map Tree.sym) (.leaf rest)) dynamic body)
    (hp : p < σ.store.frames.size) (hitems : σ.store.Items last operands vs)
    (hlength : names.length = vs.length) (hrest : Formals.leaf rest last = .ok bs)
    (h : ∀ τ f, σ.Grown τ →
      τ.Scope f (callerBinding e dynamic ++ names.zip vs ++ bs.reverse) p → τ.Runs cfg n d body f Q) :
    σ.Called cfg n d (.operative q) operands e Q := by
  intro τ hτ room hroom
  have hw' := hw.onward hτ.onward
  obtain ⟨form, hform, hbody⟩ := hw'.body
  obtain ⟨bound, hopen, hscope⟩ := hw'.opens names (Nat.lt_of_lt_of_le hp hτ.larger.frames)
    (hitems.larger hτ.larger) hlength hrest e
  have hgrown := τ.grown_grow (.opened τ.store p bound)
  exact .after hgrown.onward
    (h _ _ (hτ.trans hgrown) hscope _ (.refl _) form (hbody.onward hgrown.onward) room hroom)
    fun v w hv => calls_operative hform hopen hv

end Frames

theorem Holds.items {v : Value} (ts : List Tree) {tl : Tree} (h : σ.Holds v (Tree.dotted ts tl)) :
    ∃ vs last, σ.store.Items last v vs ∧ List.Forall₂ σ.Holds vs ts ∧ σ.Holds last tl := by
  induction ts generalizing v with
  | nil => exact ⟨[], v, .done, .nil, h⟩
  | cons t ts ih =>
    obtain _ | ⟨hr, hhead, htail⟩ := h
    obtain ⟨vs, last, hitems, hvs, hlast⟩ := ih htail
    exact ⟨_ :: vs, last, .pair (σ.cell_lt hr) hitems, .cons hhead hvs, hlast⟩

theorem Holds.three {v : Value} {t₁ t₂ t₃ : Tree} (h : σ.Holds v (Tree.list [t₁, t₂, t₃])) :
    ∃ x y z, σ.store.Items .nil v [x, y, z] ∧ σ.Holds x t₁ ∧ σ.Holds y t₂ ∧ σ.Holds z t₃ := by
  obtain ⟨_, _, hitems, hvs, hlast⟩ := h.items [t₁, t₂, t₃]
  cases hlast
  obtain ⟨x, _, hx, hvs₁, rfl⟩ := List.forall₂_cons_right_iff.mp hvs
  obtain ⟨y, _, hy, hvs₂, rfl⟩ := List.forall₂_cons_right_iff.mp hvs₁
  obtain ⟨z, _, hz, hvs₃, rfl⟩ := List.forall₂_cons_right_iff.mp hvs₂
  cases hvs₃
  exact ⟨x, y, z, hitems, hx, hy, hz⟩

/-- `$vau` makes an operative of code that is held. -/
theorem Called.vau {formals : Tree} {x y z : Value} (hitems : σ.store.Items .nil operands [x, y, z])
    (hx : σ.Holds x formals) (hz : σ.Holds z body) (hnames : formals.addNames [] = .ok names)
    (hy : ∀ w, Operation.checkDynamic names y w = .ok () w)
    (hQ : ∀ τ q, σ.Grown τ → τ.Written q e formals y body → Q (.operative q) τ) :
    σ.Called cfg n d (.primitive (.operation .vau)) operands e Q := by
  refine .operation hitems rfl fun τ hτ room _ => ?_
  let o : Operative := ⟨e, x, y, [z], none⟩
  have hgrown := τ.grown_grow (.newOperative τ.store o)
  have hmade : (τ.store.newOperative o).2.operative τ.store.operatives.size = o := by
    simp [Store.operative, Store.newOperative]
  have hwritten : (τ.grow _ (.newOperative τ.store o)).Written τ.store.operatives.size e formals y
      body := by
    refine ⟨by simp [Scene.grow, Scene.store, Store.newOperative], ?_, ?_, ?_, z, ?_, ?_⟩
    · exact congrArg Operative.scope hmade
    · exact (congrArg Operative.formals hmade).symm ▸ hx.onward (hτ.trans hgrown).onward
    · exact congrArg Operative.dynamic hmade
    · exact congrArg Operative.body hmade
    · exact hz.onward (hτ.trans hgrown).onward
  have hformal : τ.world.store.formalNames x = .ok names := by
    rw [Store.formalNames_unfolds (hx.onward hτ.onward).unfolds, hnames]
    rfl
  refine ⟨.operative τ.store.operatives.size, _, ?_, hgrown.onward,
    hQ _ _ (hτ.trans hgrown) hwritten⟩
  simp only [Operation.perform, Operation.value, Bind.bind, EStateM.bind, Deed.tries, hformal, hy]
  rfl

end Scene

end Vau
