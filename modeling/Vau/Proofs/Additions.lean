import Vau.Proofs.Intact

/-! Code that only adds to the store. What neither changes anything nor makes a combiner leaves the
store as it was, with more pairs and frames. There are rules for such code that is held in a scene,
one for each way in which an activation goes on. -/

namespace Vau

/-- `t` has all that `s` has, unchanged; what else it has are pairs and frames. -/
structure Store.Adds (s t : Store) : Prop where
  larger : s.Extends t
  operatives : t.operatives.size = s.operatives.size
  wrappers : t.wrappers = s.wrappers

namespace Store.Adds

variable {s t u : Store}

theorem refl (s : Store) : s.Adds s := ⟨.refl s, rfl, rfl⟩

theorem trans (h : s.Adds t) (h' : t.Adds u) : s.Adds u :=
  ⟨h.larger.trans h'.larger, h'.operatives.trans h.operatives, h'.wrappers.trans h.wrappers⟩

theorem cons (s : Store) (x y : Value) (place : Option Location) : s.Adds (s.cons x y place).2 :=
  ⟨.cons s x y place, rfl, rfl⟩

theorem list (s : Store) (vs : List Value) (last : Value) : s.Adds (s.list vs last).2 := by
  induction vs with
  | nil => exact refl s
  | cons v vs ih => exact ih.trans (cons _ _ _ _)

theorem newFrame (s : Store) (parent : Option Nat) : s.Adds (s.newFrame parent).2 :=
  ⟨.newFrame s parent, rfl, rfl⟩

theorem opened (s : Store) (p : Nat) (bs : List (String × Value)) : s.Adds (s.opened p bs) := by
  refine ⟨.opened s p bs, ?_, ?_⟩
  all_goals
    rw [Store.opened, defineAll_eq]
    rfl

end Store.Adds

namespace Scene

/-- The scene has grown by pairs and frames. -/
structure Adds (σ τ : Scene) : Prop where
  grown : σ.Grown τ
  store : σ.store.Adds τ.store

theorem Adds.refl (σ : Scene) : σ.Adds σ := ⟨.refl σ, .refl _⟩

theorem Adds.trans {σ τ υ : Scene} (h : σ.Adds τ) (h' : τ.Adds υ) : σ.Adds υ :=
  ⟨h.grown.trans h'.grown, h.store.trans h'.store⟩

theorem adds_grow (σ : Scene) {s : Store} (h : σ.store.Adds s) : σ.Adds (σ.grow s h.larger) :=
  ⟨σ.grown_grow h.larger, h⟩

/-- It comes to a value, and to a scene with `Q` that has only grown by pairs and frames. -/
def Arrives (σ : Scene) (x : World → Value → World → Prop) (Q : Value → Scene → Prop) : Prop :=
  ∃ v τ, x σ.world v τ.world ∧ σ.Adds τ ∧ Q v τ

/-- Code of the tree, evaluated in `e` with `d` nested activations and fuel for `n` turns, comes to
a value with `Q`. -/
def Finds (σ : Scene) (cfg : Gauge) (n d : Nat) (t : Tree) (e : Nat)
    (Q : Value → Scene → Prop) : Prop :=
  ∀ expr, σ.Holds expr t → ∀ room, d ≤ room → σ.Arrives (Yields cfg n room expr e) Q

/-- The combiner, called with the operands, comes to a value with `Q`. -/
def Answers (σ : Scene) (cfg : Gauge) (n d : Nat) (c operands : Value) (e : Nat)
    (Q : Value → Scene → Prop) : Prop :=
  ∀ room, d ≤ room → σ.Arrives (Calls cfg n room c operands e) Q

/-- Codes of the trees, evaluated one after the other, come to values with `Q`. -/
def FindsAll (cfg : Gauge) (n d e : Nat) :
    List Tree → (List Value → Scene → Prop) → Scene → Prop
  | [], Q, σ => Q [] σ
  | t :: ts, Q, σ => σ.Finds cfg n d t e fun v => FindsAll cfg n d e ts fun vs => Q (v :: vs)

variable {σ : Scene} {cfg : Gauge} {n N d D e p q : Nat} {t : Tree} {ts : List Tree}
  {Q Q' : Value → Scene → Prop} {last v : Value} {vs : List Value}

theorem Arrives.after {x y : World → Value → World → Prop} {τ : Scene} (hτ : σ.Adds τ)
    (h : τ.Arrives x Q) (hxy : ∀ v w, x τ.world v w → y σ.world v w) : σ.Arrives y Q := by
  obtain ⟨v, υ, hx, hυ, hv⟩ := h
  exact ⟨v, υ, hxy v υ.world hx, hτ.trans hυ, hv⟩

theorem Finds.mono (h : σ.Finds cfg n d t e Q) (hQ : ∀ v τ, σ.Adds τ → Q v τ → Q' v τ) :
    σ.Finds cfg n d t e Q' := by
  intro expr hexpr room hroom
  obtain ⟨v, τ, hv, hτ, hq⟩ := h expr hexpr room hroom
  exact ⟨v, τ, hv, hτ, hQ v τ hτ hq⟩

theorem Finds.weaken (h : σ.Finds cfg n d t e Q) (hn : n ≤ N) (hd : d ≤ D) :
    σ.Finds cfg N D t e Q := by
  intro expr hexpr room hroom
  obtain ⟨v, τ, hv, hτ, hq⟩ := h expr hexpr room (Nat.le_trans hd hroom)
  exact ⟨v, τ, hv.fuller hn, hτ, hq⟩

theorem FindsAll.operands {Q : List Value → Scene → Prop} (h : FindsAll cfg n d e ts Q σ)
    {operands : Value} (hoperands : σ.Holds operands (Tree.list ts)) {room : Nat} (hroom : d ≤ room) :
    ∃ vs τ, Operands cfg n room e operands σ.world vs τ.world ∧ vs.length = ts.length ∧
      σ.Adds τ ∧ Q vs τ := by
  induction ts generalizing σ operands Q with
  | nil =>
    cases hoperands
    exact ⟨[], σ, .nil, rfl, .refl σ, h⟩
  | cons t ts ih =>
    obtain _ | ⟨hr, hhead, htail⟩ := hoperands
    obtain ⟨v, τ, hfirst, hτ, hrest⟩ := h _ hhead room hroom
    obtain ⟨vs, υ, hvs, hlength, hυ, hQ⟩ := ih hrest (htail.tail hr hτ.grown.onward)
    exact ⟨v :: vs, υ, .cons hfirst hvs, congrArg (· + 1) hlength, hτ.trans hυ, hQ⟩

section Evaluating

variable (hlimit : cfg.stepLimit = none)
include hlimit

theorem Finds.symbol {name : String} (hv : σ.Sees name v e) (hQ : Q v σ) :
    σ.Finds cfg (n + 1) d name e Q := by
  intro expr hexpr room _
  cases hexpr
  exact ⟨v, σ, yields_symbol hlimit hv.lookup, .refl σ, hQ⟩

theorem Finds.plain (hD : d + 1 ≤ D)
    (h : σ.Finds cfg n d t e fun c τ => c.isApplicative = false ∧
      ∀ operands, τ.Holds operands (.list ts) → τ.Answers cfg n D c operands e Q) :
    σ.Finds cfg (n + 1) D (.list (t :: ts)) e Q := by
  intro expr hexpr room hroom
  obtain ⟨room, rfl⟩ : ∃ k, room = k + 1 := ⟨room - 1, by omega⟩
  obtain _ | @⟨r, _, _, hr, hhead, htail⟩ := hexpr
  obtain ⟨c, τ, hc, hτ, hplain, hcall⟩ := h _ hhead room (by omega)
  exact .after hτ (hcall _ (htail.tail hr hτ.grown.onward) _ hroom) fun v w hv =>
    yields_combination hlimit (.plain hplain hc) hv

/-- The operator and the operands of a combination whose operator is a symbol for a wrapped combiner,
and the fresh list that the combiner is to receive. -/
theorem FindsAll.prepares {name : String} {label : Nat} {u expr : Value}
    {Q : List Value → Scene → Prop} (hexpr : σ.Holds expr (.list (name :: ts)))
    (hc : σ.Sees name (.applicative label u) e) (hplain : u.isApplicative = false)
    (h : FindsAll cfg (n + 1) d e ts Q σ) (hn : ts.length ≤ n + 1) {room : Nat} (hroom : d ≤ room) :
    ∃ r operands vs τ υ, expr = .pair r ∧
      Prepares cfg (n + 1) (room + 1) r e σ.world u operands υ.world ∧ Q vs τ ∧ τ.Adds υ ∧
      σ.Adds υ ∧ υ.store.Items .nil operands vs := by
  obtain _ | @⟨r, _, _, hr, hhead, htail⟩ := hexpr
  have hoperator : Yields cfg (n + 1) room (σ.store.head r) e σ.world (.applicative label u)
      σ.world := by
    generalize σ.store.head r = operator at hhead
    cases hhead
    exact yields_symbol hlimit hc.lookup
  obtain ⟨vs, τ, hvs, hlength, hτ, hQ⟩ := h.operands htail hroom
  have hadds := τ.adds_grow (.list τ.store vs .nil)
  exact ⟨r, _, vs, τ, _, rfl, .wrapped hplain hoperator hvs (hlength ▸ hn), hQ, hadds,
    hτ.trans hadds, τ.store.items_list vs .nil⟩

theorem Finds.apply {name : String} {label : Nat} {u : Value}
    (hc : σ.Sees name (.applicative label u) e) (hplain : u.isApplicative = false)
    (hn : ts.length ≤ n + 1) (hD : d + 1 ≤ D)
    (h : FindsAll cfg (n + 1) d e ts (fun vs τ => ∀ υ operands, τ.Adds υ →
      υ.store.Items .nil operands vs → υ.Answers cfg (n + 1) D u operands e Q) σ) :
    σ.Finds cfg (n + 2) D (.list (name :: ts)) e Q := by
  intro expr hexpr room hroom
  obtain ⟨room, rfl⟩ : ∃ k, room = k + 1 := ⟨room - 1, by omega⟩
  obtain ⟨r, operands, vs, τ, υ, rfl, hprepares, hcall, hτ, hσ, hitems⟩ :=
    h.prepares hlimit hexpr hc hplain hn (show d ≤ room by omega)
  exact .after hσ (hcall υ operands hτ hitems _ hroom) fun v w hv =>
    yields_combination hlimit hprepares hv

theorem Finds.operate {name : String} {c : Value} (hc : σ.Sees name c e)
    (hplain : c.isApplicative = false) (hD : 1 ≤ D)
    (h : ∀ operands, σ.Holds operands (.list ts) → σ.Answers cfg (n + 1) D c operands e Q) :
    σ.Finds cfg (n + 2) D (.list (name :: ts)) e Q :=
  .plain hlimit hD <| .symbol hlimit hc ⟨hplain, h⟩

end Evaluating

theorem Answers.operation {o : Operation} {operands : Value} (hitems : σ.store.Items .nil operands vs)
    (hadmits : o.signature.admits vs.length = true)
    (h : ∀ room, σ.Arrives (fun w v w' => o.perform room e vs w = .ok (.value v) w') Q) :
    σ.Answers cfg n d (.primitive (.operation o)) operands e Q := by
  intro room _
  obtain ⟨v, τ, hv, hτ, hQ⟩ := h room
  exact ⟨v, τ, calls_operation (hitems.spine? rfl) hadmits hv, hτ, hQ⟩

/-- A primitive that changes nothing is applied to one operand. -/
theorem Finds.reads (hlimit : cfg.stepLimit = none) {name : String} {label : Nat} {o : Operation}
    {u : Value} (hname : σ.Sees name (.applicative label (.primitive (.operation o))) e)
    (ht : σ.Finds cfg (n + 1) d t e fun w _ => w = u) (hadmits : o.signature.admits 1 = true)
    (h : ∀ τ, σ.Adds τ → ∀ room, o.perform room e [u] τ.world = .ok (.value v) τ.world)
    (hD : d + 1 ≤ D) : σ.Finds cfg (n + 2) D (.list [name, t]) e fun w _ => w = v := by
  refine .apply hlimit hname rfl (by simp) hD (ht.mono ?_)
  rintro _ τ hτ rfl υ operands hυ hitems
  exact .operation hitems hadmits fun room => ⟨v, υ, h υ (hτ.trans hυ) room, .refl υ, rfl⟩

theorem Finds.constant (hlimit : cfg.stepLimit = none) (hpair : v.isPair = false)
    (hsymbol : v.isSymbol = false) : σ.Finds cfg (n + 1) d (.leaf v) e fun w _ => w = v := by
  intro expr hexpr room _
  cases hexpr
  exact ⟨v, σ, yields_constant hlimit hpair hsymbol _, .refl σ, rfl⟩

theorem Finds.cons (hlimit : cfg.stepLimit = none) {label : Nat} {x y : Value} {t₁ t₂ : Tree}
    (hname : σ.Sees "cons" (.applicative label (.primitive (.operation .cons))) e)
    (h₁ : σ.Finds cfg (n + 2) d t₁ e fun w _ => w = x)
    (h₂ : ∀ τ, σ.Adds τ → τ.Finds cfg (n + 2) d t₂ e fun w _ => w = y) (hD : d + 1 ≤ D) :
    σ.Finds cfg (n + 3) D (.list ["cons", t₁, t₂]) e fun w τ =>
      ∃ r, w = .pair r ∧ τ.cell r ∧ τ.store.head r = x ∧ τ.store.tail r = y := by
  refine .apply hlimit hname rfl (by simp) hD (h₁.mono ?_)
  rintro x τ hτ rfl
  refine (h₂ τ hτ).mono ?_
  rintro y υ hυ rfl φ operands hφ hitems
  refine .operation hitems rfl fun room => ?_
  have hcell := φ.store.cell_cons x y none φ.store.cells.size
  rw [if_pos rfl] at hcell
  exact ⟨_, _, rfl, φ.adds_grow (.cons φ.store x y none), φ.store.cells.size, rfl,
    .inr ⟨Nat.le_refl _, by simp⟩, congrArg Cell.head hcell, congrArg Cell.tail hcell⟩

theorem Answers.eval {expr operands : Value} {f : Nat}
    (hitems : σ.store.Items .nil operands [expr, .env f]) (hexpr : σ.Holds expr t)
    (h : σ.Finds cfg n d t f Q) :
    σ.Answers cfg n d (.primitive (.operation .eval)) operands e Q := by
  intro room hroom
  obtain ⟨v, τ, hv, hτ, hQ⟩ := h expr hexpr room hroom
  exact ⟨v, τ, calls_eval (hitems.spine? rfl) rfl hv, hτ, hQ⟩

theorem Answers.boolean {b : Bool} {operands : Value} (h : FindsAll cfg n d e ts
      (fun vs τ => ∃ x y, vs = [x, y] ∧ Q (if b then x else y) τ) σ)
    (hoperands : σ.Holds operands (.list ts)) (hn : 2 ≤ n) (hD : d + 1 ≤ D) :
    σ.Answers cfg n D (.bool b) operands e Q := by
  intro room hroom
  obtain ⟨room, rfl⟩ : ∃ k, room = k + 1 := ⟨room - 1, by omega⟩
  obtain ⟨_, τ, hvs, -, hτ, x, y, rfl, hQ⟩ := h.operands hoperands (show d ≤ room by omega)
  exact ⟨_, τ, calls_boolean hvs hn, hτ, hQ⟩

section Calling

variable {operands rest dynamic : Value} {body : Tree} {bs : List (String × Value)}
  (names : List String)
  (hw : σ.Written q p (Tree.dotted (names.map Tree.sym) (.leaf rest)) dynamic body)
  (hp : p < σ.store.frames.size) (hitems : σ.store.Items last operands vs)
  (hlength : names.length = vs.length) (hrest : Formals.leaf rest last = .ok bs)
include hw hp hitems hlength hrest

theorem Written.enters (caller : Nat) :
    ∃ τ f, openFrame (σ.store.operative q) operands caller σ.world = .ok f τ.world ∧ σ.Adds τ ∧
      τ.Scope f (callerBinding caller dynamic ++ names.zip vs ++ bs.reverse) p := by
  obtain ⟨bound, hopen, hscope⟩ := hw.opens names hp hitems hlength hrest caller
  exact ⟨_, _, hopen, σ.adds_grow (.opened σ.store p bound), hscope⟩

theorem Answers.operative (h : ∀ τ f, σ.Adds τ →
      τ.Scope f (callerBinding e dynamic ++ names.zip vs ++ bs.reverse) p → τ.Finds cfg n d body f Q) :
    σ.Answers cfg n d (.operative q) operands e Q := by
  intro room hroom
  obtain ⟨form, hform, hbody⟩ := hw.body
  obtain ⟨τ, f, hopen, hτ, hscope⟩ := hw.enters names hp hitems hlength hrest e
  exact .after hτ (h τ f hτ hscope form (hbody.onward hτ.grown.onward) room hroom)
    fun v w hv => calls_operative hform hopen hv

end Calling

open Library Vau.Tree in
/-- `^if` evaluates its test, and one of its branches in its own place. -/
theorem Finds.conditional (hlimit : cfg.stepLimit = none) {root : Nat} {ds : List Definition}
    (h : σ.Intact root ds) (hmem : conditional ∈ ds) {t₁ t₂ : Tree}
    (hsees : ∀ v, σ.Sees conditional.name v root → σ.Sees conditional.name v e)
    (htest : ∀ τ, σ.Adds τ → τ.Finds cfg (n + 2) d t e fun v υ =>
      ∃ b, v = .bool b ∧ ∀ φ, υ.Adds φ → φ.Finds cfg (n + 4) D (if b then t₁ else t₂) e Q)
    (hd : d + 2 ≤ D) (hD : 3 ≤ D) : σ.Finds cfg (n + 6) D (list ["^if", t, t₁, t₂]) e Q := by
  obtain ⟨q, hq, hname⟩ := h.operative hmem rfl
  obtain ⟨label, heval⟩ := h.wrapped (p := .operation .eval) (by decide) rfl
  refine .operate hlimit (hsees _ hname) rfl (by omega) fun operands hoperands => ?_
  obtain ⟨x, y, z, hitems, hx, hy, hz⟩ := hoperands.three
  refine .operative ["test", "consequent", "alternative"] hq h.lt hitems rfl rfl
    fun τ f hτ hscope => ?_
  have hsee := hscope.sees_outer rfl (heval.onward hτ.grown.onward)
  refine .apply (d := D - 1) hlimit hsee rfl (by simp) (by omega) ?_
  -- the test stands in the frame of `^if` and is evaluated where `^if` was called
  have hvalue : τ.Finds cfg (n + 3) (D - 2) (list ["eval", "test", "env"]) f fun v υ =>
      ∃ b, v = .bool b ∧ ∀ φ, υ.Adds φ → φ.Finds cfg (n + 4) D (if b then t₁ else t₂) e Q := by
    refine .apply (d := D - 3) hlimit hsee rfl (by simp) (by omega) ?_
    refine .symbol hlimit (hscope.sees rfl) (.symbol hlimit (hscope.sees rfl) ?_)
    intro υ operands hυ hitems'
    refine .eval hitems' (hx.onward (hτ.trans hυ).grown.onward) ?_
    exact (htest υ (hτ.trans hυ)).weaken (Nat.le_refl _) (by omega)
  refine .plain (d := D - 2) hlimit (by omega) (hvalue.mono fun v υ hυ hv => ?_)
  obtain ⟨b, rfl, hbranch⟩ := hv
  refine ⟨rfl, fun operands hoperands =>
    .boolean (d := D - 2) ?_ hoperands (by omega) (by omega)⟩
  have hscope' := hscope.onward hυ.grown.onward
  refine .symbol hlimit (hscope'.sees rfl) (.symbol hlimit (hscope'.sees rfl) ⟨_, _, rfl, ?_⟩)
  refine .symbol hlimit (hscope'.sees rfl) fun φ operands hφ hitems' => ?_
  have hend := hτ.trans (hυ.trans hφ)
  cases b with
  | false => exact .eval hitems' (hz.onward hend.grown.onward) (hbranch φ hφ)
  | true => exact .eval hitems' (hy.onward hend.grown.onward) (hbranch φ hφ)

end Scene

end Vau
