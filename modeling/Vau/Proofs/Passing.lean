import Vau.Proofs.Consulting

/-! Calls of procedures, with whatever end. A procedure whose code is held goes on with its body in a
frame that binds the arguments; code that calls a procedure it was given goes on with the call, or waits
for it where the call is an operand. -/

namespace Vau

/-- Wherever it is called, a detached combiner has the same end. -/
theorem Detached.applied {cfg : Settings} {w : World} {c : Value} {args : List Value} {a b room : Nat}
    {o : End Value} (h : Detached cfg w.store c) (ho : Applied cfg room c args a w o) :
    Applied cfg room c args b w o := by
  obtain ⟨k, ho⟩ := ho
  refine ⟨k, fun fuel hfuel base m hm => ?_⟩
  rw [← ho fuel hfuel base m hm]
  have hdetached : Detached cfg m.world.store c := by
    rw [hm]
    exact h.evolves (Store.Extends.list w.store args .nil).evolves
  simp only [finish, Bind.bind, EStateM.bind, hdetached.combine_eq (a := b) (b := a)]

namespace Scene

open Library Vau.Tree

variable {σ τ : Scene} {cfg : Settings} {n d e f p q room root label : Nat} {t body : Tree}
  {ts : List Tree} {y z : Activity} {O : End Value → Prop} {E : Stop → World → Prop}
  {P : Value → Scene → Prop} {expr c operands v : Value} {vs : List Value} {names : List String}

/-- What waits for an activity waits for what that activity waits for. -/
theorem Awaits.within {β : Type} {C : β → Value → Prop} {R : Value → β → Scene → Prop}
    (h : σ.Awaits y E P) (h' : ∀ τ, σ.Grown τ → τ.Awaits z (fun stop w => y τ.world (.error stop w))
      fun v υ => ∀ b, C b v → ∃ w φ, υ.Grown φ ∧ R w b φ ∧ y τ.world (.ok w φ.world)) :
    σ.Awaits z E fun v υ => ∀ b, C b v → ∃ w φ, υ.Grown φ ∧ R w b φ ∧ P w φ := by
  obtain ⟨τ, hτ, hfailed, hdone⟩ := h
  obtain ⟨υ, hυ, hfailed', hdone'⟩ := h' τ hτ
  refine ⟨υ, hτ.trans hυ, fun stop w hw => hfailed stop w (hfailed' stop w hw), ?_⟩
  intro v φ hφ hv b hb
  obtain ⟨w, ψ, hψ, hw, hy⟩ := hdone' v φ hφ hv b hb
  exact ⟨w, ψ, hψ, hw, hdone w ψ (hυ.onward.trans (hφ.trans hψ.onward)) hy⟩

/-- A detached combiner may be waited for from wherever it is called. -/
theorem Awaits.detached {vs : List Value} (h : σ.Awaits (Applied cfg room c vs d) E P)
    (hc : Detached cfg σ.store c) (e : Nat) : σ.Awaits (Applied cfg room c vs e) E P :=
  h.before fun τ hτ => ⟨τ, .refl τ, fun _ ho => (hc.evolves hτ.larger.evolves).applied ho⟩

section Procedures

variable (cfg names) (hw : σ.Written q p (list (names.map Tree.sym)) .ignore body)
  (hp : p < σ.store.frames.size) (hlength : names.length = vs.length)
include hw hp hlength

theorem Written.receives (hitems : σ.store.Items .nil operands vs) (e : Nat) :
    ∃ τ f form, σ.Grown τ ∧ τ.Scope f (names.zip vs) p ∧ τ.Holds form body ∧
      ∀ room o, Evaluates cfg (room + 1) form f τ.world o →
        Receives cfg (room + 1) (.operative q) operands e σ.world o := by
  obtain ⟨form, hform, hbody⟩ := hw.body
  obtain ⟨τ, f, hopen, hτ, hscope⟩ := hw.enters names hp hitems hlength rfl e
  refine ⟨τ, f, form, hτ.grown, by simpa [callerBinding] using hscope,
    hbody.onward hτ.grown.onward, fun room o ho => .operative hopen (hform ▸ .last ho)⟩

theorem Written.applied (e : Nat) :
    ∃ τ f form, σ.Grown τ ∧ τ.Scope f (names.zip vs) p ∧ τ.Holds form body ∧
      ∀ room o, Evaluates cfg (room + 1) form f τ.world o →
        Applied cfg (room + 1) (.operative q) vs e σ.world o := by
  have hgrown := σ.grown_grow (.list σ.store vs .nil)
  obtain ⟨τ, f, form, hτ, hscope, hform, hgo⟩ := (hw.onward hgrown.onward).receives cfg names
    (Nat.lt_of_lt_of_le hp hgrown.larger.frames) hlength (Store.items_list σ.store vs .nil) e
  exact ⟨τ, f, form, hgrown.trans hτ, hscope, hform, hgo⟩

end Procedures

/-- Code that applies what a name stands for goes on with the call. -/
theorem Leads.applies (hlimit : cfg.stepLimit = none) {name : String}
    (hsees : σ.Sees name (.applicative label c) f) (hplain : c.isApplicative = false)
    (hcode : σ.Holds expr (list (name :: ts)))
    (h : FindsAll cfg.uncounted (n + 1) d f ts (fun us _ => us = vs) σ) (hn : ts.length ≤ n + 1)
    (hroom : d + 1 ≤ room) :
    σ.Leads (Applied cfg room c vs f) (Evaluates cfg room expr f σ.world) := by
  obtain ⟨room, rfl⟩ : ∃ k, room = k + 1 := ⟨room - 1, by omega⟩
  obtain ⟨r, rfl, -, hhead, htail⟩ := hcode.uncons
  obtain ⟨us, τ, hoperands, hlength, hτ, rfl⟩ := h.operands htail (show d ≤ room by omega)
  have hoperator : Evaluates cfg room (σ.store.head r) f σ.world
      (.ok (.applicative label c) σ.world) := hhead.evaluates hlimit hsees
  exact ⟨τ, hτ.grown, fun o ho => .combination hlimit
    (.wrapped hplain (evaluates_ok.mp hoperator) hoperands (hlength ▸ hn)) ho⟩

section Applying

variable {name : String} {Q : List Value → Scene → Prop} (hcode : σ.Holds expr (list (name :: ts)))
  (hlimit : cfg.stepLimit = none) (hsees : σ.Sees name (.applicative label c) f)
  (hplain : c.isApplicative = false)
include hcode hlimit hsees hplain

/-- Code that applies what a name stands for to what other code comes to goes on with the call. -/
theorem Holds.applies (h : RunsAll cfg.uncounted (n + 1) d f ts Q σ) (hn : ts.length ≤ n + 1)
    (hroom : d + 1 ≤ room) : ∃ vs τ, Q vs τ ∧
      ∀ o, Applied cfg room c vs f τ.world o → Evaluates cfg room expr f σ.world o := by
  obtain ⟨room, rfl⟩ : ∃ k, room = k + 1 := ⟨room - 1, by omega⟩
  obtain ⟨r, rfl, -, hhead, htail⟩ := hcode.uncons
  obtain ⟨vs, τ, hoperands, hlength, -, hQ⟩ := h.operands htail (show d ≤ room by omega)
  have hoperator : Evaluates cfg room (σ.store.head r) f σ.world
      (.ok (.applicative label c) σ.world) := hhead.evaluates hlimit hsees
  exact ⟨vs, τ, hQ, fun o ho => .combination (n := n + 1) hlimit
    (.wrapped hplain (evaluates_ok.mp hoperator) hoperands (hlength ▸ hn)) ho⟩

/-- The list that the combiner receives is made of pairs that are new. -/
theorem Holds.receives (h : RunsAll cfg.uncounted (n + 1) d f ts (fun vs τ => σ.Grown τ ∧ Q vs τ) σ)
    (hn : ts.length ≤ n + 1) (hroom : d + 1 ≤ room) :
    ∃ vs τ υ operands, σ.Grown τ ∧ Q vs τ ∧ τ.Grown υ ∧ υ.store.Items .nil operands vs ∧
      ∀ o, Receives cfg room c operands f υ.world o → Evaluates cfg room expr f σ.world o := by
  obtain ⟨vs, τ, ⟨hτ, hQ⟩, hgo⟩ := hcode.applies hlimit hsees hplain h hn hroom
  exact ⟨vs, τ, _, _, hτ, hQ, τ.grown_grow (.list τ.store vs .nil), τ.store.items_list vs .nil, hgo⟩

end Applying

end Scene

/-- The evaluation of the combination in `e`, which was begun in `w`, has come to a call of what the
name stands for in `root` with the values. -/
def Scene.Reaches (σ : Scene) (cfg : Settings) (root room e r : Nat) (name : String)
    (vs : List Value) (w : World) : Prop :=
  ∃ label q n w₁, σ.Sees name (.applicative label (.operative q)) root ∧
    Evaluates cfg room (w.store.head r) e w (.ok (.applicative label (.operative q)) w₁) ∧
    Operands cfg.uncounted n room e (w₁.store.tail r) w₁ vs σ.world ∧ vs.length ≤ n

section Reaching

variable {σ : Scene} {cfg : Settings} {root e r q room label : Nat} {name : String}
  {vs : List Value} {w : World} {o : End Value}

theorem Scene.Reaches.evaluates (h : σ.Reaches cfg root room e r name vs w)
    (hlimit : cfg.stepLimit = none) : ∃ label q, σ.Sees name (.applicative label (.operative q)) root ∧
      ∀ o, Applied cfg (room + 1) (.operative q) vs e σ.world o →
        Evaluates cfg (room + 1) (.pair r) e w o := by
  obtain ⟨label, q, n, w₁, hname, hoperator, hoperands, hn⟩ := h
  exact ⟨label, q, hname, fun o ho => .combination hlimit
    (.wrapped rfl (evaluates_ok.mp hoperator) hoperands hn) ho⟩

theorem Store.Applies.reaches (h : σ.store.Applies root e r name vs) (hlimit : cfg.stepLimit = none)
    (hname : σ.Sees name (.applicative label (.operative q)) root) :
    σ.Reaches cfg root room e r name vs σ.world := by
  obtain ⟨exprs, hitems, hdenotes⟩ := h.operands
  have hlimit' : cfg.uncounted.stepLimit = none := hlimit
  refine ⟨label, q, vs.length + 1, σ.world, hname, ?_,
    Store.Denotes.operands hlimit' hitems hdenotes, Nat.le_succ _⟩
  rw [show σ.world.store.head r = .sym name from h.head]
  exact Store.Denotes.evaluates (.symbol (h.name.trans hname.lookup)) hlimit

end Reaching

end Vau
