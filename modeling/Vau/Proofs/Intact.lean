import Vau.Proofs.Procedures

/-! Root environments that are intact: every primitive and every definition that has been evaluated
is seen as it was bound, with its code held. In such an environment the `^if` and the `$lambda` of
the prelude have rules of their own, like the evaluator's. -/

namespace Vau

namespace Scene

open Library Vau.Tree

/-- What a root environment binds to the name of a primitive. -/
def fits (p : Primitive) : Value → Bool
  | .primitive q => p.takesOperands && q == p
  | .applicative _ (.primitive q) => !p.takesOperands && q == p
  | _ => false

/-- What the code was made into when it was evaluated in `root`. -/
def Made (σ : Scene) (root : Nat) (v : Value) : Code → Prop
  | .operative formals dynamic body =>
    ∃ q, v = .operative q ∧ σ.Written q root formals dynamic body
  | .applicative formals dynamic body =>
    ∃ q label, v = .applicative label (.operative q) ∧ σ.Written q root formals dynamic body
  | .procedure formals body =>
    ∃ q label, v = .applicative label (.operative q) ∧ σ.Written q root formals .ignore body
  | .synonym name => σ.Sees name v root

/-- The primitives and the definitions are all as they were bound in `root`. -/
structure Intact (σ : Scene) (root : Nat) (ds : List Definition) : Prop where
  lt : root < σ.store.frames.size
  primitive : ∀ p ∈ Primitive.builtins, ∃ v, fits p v = true ∧ σ.Sees p.name v root
  defined : ∀ d ∈ ds, ∃ v, σ.Made root v d.code ∧ σ.Sees d.name v root

variable {σ τ : Scene} {cfg : Gauge} {n N d D e root : Nat} {ds : List Definition}
  {t t₁ t₂ body : Tree} {Q : Value → Scene → Prop}

theorem Made.onward {v : Value} {c : Code} (h : σ.Made root v c) (hτ : σ.Onward τ) :
    τ.Made root v c := by
  cases c with
  | operative formals dynamic body =>
    obtain ⟨q, hv, hq⟩ := h
    exact ⟨q, hv, hq.onward hτ⟩
  | applicative formals dynamic body =>
    obtain ⟨q, label, hv, hq⟩ := h
    exact ⟨q, label, hv, hq.onward hτ⟩
  | procedure formals body =>
    obtain ⟨q, label, hv, hq⟩ := h
    exact ⟨q, label, hv, hq.onward hτ⟩
  | synonym name => exact Sees.onward h hτ

namespace Intact

theorem onward (h : σ.Intact root ds) (hτ : σ.Onward τ) : τ.Intact root ds where
  lt := Nat.lt_of_lt_of_le h.lt hτ.evolves.frames
  primitive p hp := by
    obtain ⟨v, hv, hsees⟩ := h.primitive p hp
    exact ⟨v, hv, hsees.onward hτ⟩
  defined d hd := by
    obtain ⟨v, hv, hsees⟩ := h.defined d hd
    exact ⟨v, hv.onward hτ, hsees.onward hτ⟩

theorem wrapped (h : σ.Intact root ds) {p : Primitive} (hp : p ∈ Primitive.builtins)
    (htakes : p.takesOperands = false) :
    ∃ label, σ.Sees p.name (.applicative label (.primitive p)) root := by
  obtain ⟨v, hv, hsees⟩ := h.primitive p hp
  unfold fits at hv
  split at hv
  · simp [htakes] at hv
  · rename_i label q
    obtain rfl : q = p := by simpa [htakes] using hv
    exact ⟨label, hsees⟩
  · cases hv

theorem unwrapped (h : σ.Intact root ds) {p : Primitive} (hp : p ∈ Primitive.builtins)
    (htakes : p.takesOperands = true) : σ.Sees p.name (.primitive p) root := by
  obtain ⟨v, hv, hsees⟩ := h.primitive p hp
  unfold fits at hv
  split at hv
  · rename_i q
    obtain rfl : q = p := by simpa [htakes] using hv
    exact hsees
  · simp [htakes] at hv
  · cases hv

theorem procedure (h : σ.Intact root ds) {d : Definition} (hd : d ∈ ds) {formals body : Tree}
    (hcode : d.code = .procedure formals body) :
    ∃ q label, σ.Written q root formals .ignore body ∧
      σ.Sees d.name (.applicative label (.operative q)) root := by
  obtain ⟨v, hv, hsees⟩ := h.defined d hd
  rw [hcode] at hv
  obtain ⟨q, label, rfl, hq⟩ := hv
  exact ⟨q, label, hq, hsees⟩

theorem operative (h : σ.Intact root ds) {d : Definition} (hd : d ∈ ds) {formals body : Tree}
    {dynamic : Value} (hcode : d.code = .operative formals dynamic body) :
    ∃ q, σ.Written q root formals dynamic body ∧ σ.Sees d.name (.operative q) root := by
  obtain ⟨v, hv, hsees⟩ := h.defined d hd
  rw [hcode] at hv
  obtain ⟨q, rfl, hq⟩ := hv
  exact ⟨q, hq, hsees⟩

end Intact

/-- A pair of which the head is known by `X` and the tail by `Y`. -/
def Paired (X Y : Value → Scene → Prop) (v : Value) (σ : Scene) : Prop :=
  ∃ r, v = .pair r ∧ σ.cell r ∧ X (σ.store.head r) σ ∧ Y (σ.store.tail r) σ

section Rules

variable (hlimit : cfg.stepLimit = none) (h : σ.Intact root ds)
include hlimit h

/-- `^if` evaluates its test, and one of its branches in its own place. -/
theorem Runs.conditional (hmem : conditional ∈ ds)
    (hsees : ∀ v, σ.Sees conditional.name v root → σ.Sees conditional.name v e)
    (htest : σ.Runs cfg (n + 2) d t e fun v τ =>
      ∃ b, v = .bool b ∧ τ.Runs cfg (n + 4) D (if b then t₁ else t₂) e Q)
    (hd : d + 2 ≤ D) (hD : 3 ≤ D) :
    σ.Runs cfg (n + 6) D (list ["^if", t, t₁, t₂]) e Q := by
  obtain ⟨q, hq, hname⟩ := h.operative hmem rfl
  obtain ⟨label, heval⟩ := h.wrapped (p := .operation .eval) (by decide) rfl
  refine .operate hlimit (hsees _ hname) rfl (by omega) fun τ operands hτ hoperands => ?_
  obtain ⟨x, y, z, hitems, hx, hy, hz⟩ := hoperands.three
  have hw := hq.onward hτ.onward
  have hlt := Nat.lt_of_lt_of_le h.lt hτ.larger.frames
  refine .operative ["test", "consequent", "alternative"] hw hlt hitems rfl rfl
    fun υ f hυ hscope => ?_
  have hsee := hscope.sees_outer rfl ((heval.onward hτ.onward).onward hυ.onward)
  refine .apply (d := D - 1) hlimit hsee rfl (by simp) (by omega) fun φ hφ => ?_
  have hinner : φ.Runs cfg (n + 3) (D - 2) (list ["eval", "test", "env"]) f fun v ψ =>
      ∃ b, v = .bool b ∧ ψ.Runs cfg (n + 4) D (if b then t₁ else t₂) e Q := by
    refine .apply (d := D - 3) hlimit (hsee.onward hφ.onward) rfl (by simp) (by omega)
      fun ψ hψ => ?_
    have hψ' := hφ.trans hψ
    have hscope' := hscope.onward hψ'.onward
    refine .symbol hlimit (hscope'.sees rfl) fun χ hχ => .symbol hlimit
      ((hscope'.onward hχ.onward).sees rfl) fun ω hω => ?_
    have hω' := hυ.trans (hψ'.trans (hχ.trans hω))
    exact .eval (hx.onward hω'.onward) ((htest.grown (hτ.trans hω')).weaken (Nat.le_refl _) (by omega))
  refine .plain (d := D - 2) hlimit (by omega) (hinner.mono fun v ψ hψ hv => ?_)
  obtain ⟨b, rfl, hbranch⟩ := hv
  refine ⟨rfl, fun operands hoperands =>
    .boolean (d := D - 2) (fun χ hχ => ?_) hoperands (by omega) (by omega)⟩
  have hχ' := hφ.onward.trans (hψ.trans hχ.onward)
  have hscope' := hscope.onward hχ'
  refine .symbol hlimit (hscope'.sees rfl) fun ω hω => .symbol hlimit
    ((hscope'.onward hω.onward).sees rfl) fun α hα => ⟨_, _, rfl, ?_⟩
  have hα' := hχ.trans (hω.trans hα)
  refine .symbol hlimit ((hscope.onward ((hφ.onward.trans hψ).trans hα'.onward)).sees rfl) fun β hβ => ?_
  have hβ' := hα'.trans hβ
  have hend := hυ.onward.trans (hφ.onward.trans (hψ.trans hβ'.onward))
  cases b with
  | false => exact .eval (hz.onward hend) (hbranch.grown hβ')
  | true => exact .eval (hy.onward hend) (hbranch.grown hβ')

omit h in
/-- A pair is made of what two codes come to, if what is known of the first still holds after the
second. -/
theorem Runs.pair {label : Nat} {X Y : Value → Scene → Prop}
    (hcons : σ.Sees "cons" (.applicative label (.primitive (.operation .cons))) e) (hd : d + 1 ≤ D)
    (hX : ∀ {v τ υ}, X v τ → τ.Grown υ → X v υ) (hY : ∀ {v τ υ}, Y v τ → τ.Grown υ → Y v υ)
    (h₁ : σ.Runs cfg (n + 2) d t₁ e fun v τ => σ.Grown τ ∧ X v τ)
    (h₂ : ∀ τ, σ.Grown τ → τ.Runs cfg (n + 2) d t₂ e fun v υ => τ.Grown υ ∧ Y v υ) :
    σ.Runs cfg (n + 3) D (list ["cons", t₁, t₂]) e fun v τ => σ.Grown τ ∧ Paired X Y v τ := by
  refine .apply (d := d) hlimit hcons rfl (by simp) hd fun τ hτ => ?_
  refine (h₁.grown hτ).mono fun x υ _ hx => ?_
  refine (h₂ υ hx.1).mono fun y φ _ hy => ?_
  refine .cons fun ω r hω hr hhead htail => ⟨hx.1.trans (hy.1.trans hω), r, rfl, hr, ?_, ?_⟩
  · exact hhead ▸ hX hx.2 (hy.1.trans hω)
  · exact htail ▸ hY hy.2 hω

omit h in
theorem Runs.cons {label : Nat} {t₁' t₂' : Tree}
    (hcons : σ.Sees "cons" (.applicative label (.primitive (.operation .cons))) e) (hd : d + 1 ≤ D)
    (h₁ : σ.Runs cfg (n + 2) d t₁ e fun v τ => σ.Grown τ ∧ τ.Holds v t₁')
    (h₂ : ∀ τ, σ.Grown τ → τ.Runs cfg (n + 2) d t₂ e fun v υ => τ.Grown υ ∧ υ.Holds v t₂') :
    σ.Runs cfg (n + 3) D (list ["cons", t₁, t₂]) e fun v τ =>
      σ.Grown τ ∧ τ.Holds v (.node t₁' t₂') := by
  refine (Runs.pair hlimit hcons hd (fun hv hτ => hv.onward hτ.onward)
    (fun hv hτ => hv.onward hτ.onward) h₁ h₂).mono ?_
  rintro _ τ - ⟨hτ, r, rfl, hr, hhead, htail⟩
  exact ⟨hτ, .node hr hhead htail⟩

omit h in
theorem Runs.symbol_holds {name : String} {v : Value} (hv : σ.Sees name v e) (hheld : σ.Holds v t) :
    σ.Runs cfg (n + 1) d name e fun v τ => σ.Grown τ ∧ τ.Holds v t :=
  .symbol hlimit hv fun _ hτ => ⟨hτ, hheld.onward hτ.onward⟩

/-- `$lambda` makes a procedure whose scope is the environment in which it was evaluated. -/
theorem Runs.lambda {formals : Tree} {names : List String} (hmem : lambda ∈ ds)
    (hsees : ∀ v, σ.Sees lambda.name v root → σ.Sees lambda.name v e)
    (hnames : formals.addNames [] = .ok names)
    (hQ : ∀ τ q label, σ.Grown τ → τ.Written q e formals .ignore body →
      Q (.applicative label (.operative q)) τ) (hD : 5 ≤ D) :
    σ.Runs cfg (n + 8) D (list ["$lambda", formals, body]) e Q := by
  obtain ⟨q, hq, hname⟩ := h.operative hmem rfl
  obtain ⟨_, heval⟩ := h.wrapped (p := .operation .eval) (by decide) rfl
  obtain ⟨_, hcons⟩ := h.wrapped (p := .operation .cons) (by decide) rfl
  obtain ⟨_, hwrap⟩ := h.wrapped (p := .operation .wrap) (by decide) rfl
  have hvau := h.unwrapped (p := .operation .vau) (by decide) rfl
  refine .operate hlimit (hsees _ hname) rfl (by omega) fun τ operands hτ hoperands => ?_
  have hdotted : τ.Holds operands (dotted [formals] (list [body])) := hoperands
  obtain ⟨_, y, hitems, hvs, hy⟩ := hdotted.items [formals]
  obtain ⟨x, _, hx, hvs₁, rfl⟩ := List.forall₂_cons_right_iff.mp hvs
  cases hvs₁
  have hw := hq.onward hτ.onward
  have hlt := Nat.lt_of_lt_of_le h.lt hτ.larger.frames
  refine .operative ["formals"] hw hlt hitems rfl rfl fun υ f hυ hscope => ?_
  have hυ' := (hτ.trans hυ).onward
  refine .apply (d := D - 1) hlimit (hscope.sees_outer rfl (hwrap.onward hυ')) rfl (by simp)
    (by omega) fun φ hφ => ?_
  refine .apply (d := D - 2) hlimit
    ((hscope.sees_outer rfl (heval.onward hυ')).onward hφ.onward) rfl (by simp) (by omega)
    fun ψ hψ => ?_
  have hψ' := hφ.trans hψ
  have hscope' := hscope.onward hψ'.onward
  have hcons' := (hscope.sees_outer rfl (hcons.onward hυ')).onward hψ'.onward
  have hvau' := (hscope.sees_outer rfl (hvau.onward hυ')).onward hψ'.onward
  have hheld := hυ.onward.trans hψ'.onward
  have hcode : ψ.Runs cfg (n + 5) (D - 2)
      (list ["cons", "$vau", list ["cons", "formals", list ["cons", .leaf .ignore, "body"]]]) f
      fun v χ => ψ.Grown χ ∧ χ.Holds v (list [.leaf (.primitive (.operation .vau)), formals,
        .leaf .ignore, body]) := by
    refine .cons (d := D - 3) hlimit hcons' (by omega) (.symbol_holds hlimit hvau' (.leaf rfl))
      fun χ hχ => ?_
    refine .cons (d := D - 4) hlimit (hcons'.onward hχ.onward) (by omega)
      (.symbol_holds hlimit ((hscope'.onward hχ.onward).sees rfl) (hx.onward (hheld.trans hχ.onward)))
      fun ω hω => ?_
    have hω' := hχ.trans hω
    refine .cons (d := D - 5) hlimit (hcons'.onward hω'.onward) (by omega)
      (.constant hlimit rfl rfl fun _ hα => ⟨hα, .leaf rfl⟩) fun α hα => ?_
    exact .symbol_holds hlimit ((hscope'.onward (hω'.trans hα).onward).sees rfl)
      (hy.onward (hheld.trans (hω'.trans hα).onward))
  refine hcode.mono fun v χ _ hv => .symbol hlimit ((hscope'.onward hv.1.onward).sees rfl)
    fun ω hω => .eval (hv.2.onward hω.onward) ?_
  refine .plain (d := 0) hlimit (by omega) (.constant hlimit rfl rfl fun α hα => ⟨rfl, ?_⟩)
  intro code hcode'
  obtain ⟨x', _, z', hitems', hx', ⟨⟩, hz'⟩ := hcode'.three
  refine .vau hitems' hx' hz' hnames (fun _ => rfl) fun β r hβ hr => .wrap rfl fun γ label hγ => ?_
  have hall := (hτ.trans hυ).trans (hψ'.trans (hv.1.trans (hω.trans (hα.trans (hβ.trans hγ)))))
  exact hQ γ r label hall (hr.onward hγ.onward)

end Rules

end Scene

end Vau
