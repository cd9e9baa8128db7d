import Vau.Proofs.Items
import Vau.Proofs.Yields

/-! Rules for code that is held in a scene. A judgement tells of the scene and of all into which it
grows, so that what is proved of a piece of code can be used wherever evaluation has come to by
then. There is one rule for each way in which an activation goes on, and each says how much fuel and
how many nested activations are needed. -/

namespace Vau

namespace Scene

/-- From the scene it comes to a value and to a later scene with `Q`. -/
def Comes (σ : Scene) (x : World → Value → World → Prop) (Q : Value → Scene → Prop) : Prop :=
  ∃ v τ, x σ.world v τ.world ∧ σ.Onward τ ∧ Q v τ

/-- Code of the tree, evaluated in `e` with `d` nested activations and fuel for `n` turns, comes to
a value with `Q`. -/
def Runs (σ : Scene) (cfg : Gauge) (n d : Nat) (t : Tree) (e : Nat)
    (Q : Value → Scene → Prop) : Prop :=
  ∀ τ, σ.Grown τ → ∀ expr, τ.Holds expr t → ∀ room, d ≤ room → τ.Comes (Yields cfg n room expr e) Q

/-- The combiner, called with the operands, comes to a value with `Q`. -/
def Called (σ : Scene) (cfg : Gauge) (n d : Nat) (c operands : Value) (e : Nat)
    (Q : Value → Scene → Prop) : Prop :=
  ∀ τ, σ.Grown τ → ∀ room, d ≤ room → τ.Comes (Calls cfg n room c operands e) Q

/-- The combiner, called with a fresh list of the arguments, comes to a value with `Q`. -/
def Invoked (σ : Scene) (cfg : Gauge) (n d : Nat) (c : Value) (args : List Value) (e : Nat)
    (Q : Value → Scene → Prop) : Prop :=
  ∀ τ, σ.Grown τ → ∀ room, d ≤ room → τ.Comes (Invokes cfg n room c args e) Q

/-- Codes of the trees, evaluated one after the other, come to values with `Q`. -/
def RunsAll (cfg : Gauge) (n d e : Nat) :
    List Tree → (List Value → Scene → Prop) → Scene → Prop
  | [], Q, σ => Q [] σ
  | t :: ts, Q, σ => σ.Runs cfg n d t e fun v => RunsAll cfg n d e ts fun vs => Q (v :: vs)

/-- The operative has its one form and its formals held, and is to run inside the frame `p`. -/
structure Written (σ : Scene) (q p : Nat) (formals : Tree) (dynamic : Value) (body : Tree) :
    Prop where
  lt : q < σ.store.operatives.size
  scope : (σ.store.operative q).scope = p
  formals : σ.Holds (σ.store.operative q).formals formals
  dynamic : (σ.store.operative q).dynamic = dynamic
  body : ∃ form, (σ.store.operative q).body = [form] ∧ σ.Holds form body

variable {σ τ : Scene} {cfg : Gauge} {n N d D e p q : Nat} {t : Tree} {ts : List Tree}
  {Q Q' : Value → Scene → Prop}

theorem Written.onward {formals body : Tree} {dynamic : Value}
    (h : σ.Written q p formals dynamic body) (hτ : σ.Onward τ) :
    τ.Written q p formals dynamic body := by
  obtain ⟨hscope, hformals, hdynamic, hbody⟩ := hτ.evolves.made q h.lt
  obtain ⟨form, hform, hheld⟩ := h.body
  exact {
    lt := Nat.lt_of_lt_of_le h.lt hτ.evolves.operatives
    scope := hscope.trans h.scope
    formals := hformals ▸ h.formals.onward hτ
    dynamic := hdynamic.trans h.dynamic
    body := ⟨form, hbody.trans hform, hheld.onward hτ⟩ }

theorem Comes.mono {x : World → Value → World → Prop} (h : σ.Comes x Q)
    (hQ : ∀ v τ, σ.Onward τ → Q v τ → Q' v τ) : σ.Comes x Q' := by
  obtain ⟨v, τ, hx, hτ, hv⟩ := h
  exact ⟨v, τ, hx, hτ, hQ v τ hτ hv⟩

theorem Comes.imp {x y : World → Value → World → Prop} (h : σ.Comes x Q)
    (hxy : ∀ v w, x σ.world v w → y σ.world v w) : σ.Comes y Q := by
  obtain ⟨v, τ, hx, hτ, hv⟩ := h
  exact ⟨v, τ, hxy v τ.world hx, hτ, hv⟩

theorem Comes.after {x y : World → Value → World → Prop} (hτ : σ.Onward τ) (h : τ.Comes x Q)
    (hxy : ∀ v w, x τ.world v w → y σ.world v w) : σ.Comes y Q := by
  obtain ⟨v, υ, hx, hυ, hv⟩ := h
  exact ⟨v, υ, hxy v υ.world hx, hτ.trans hυ, hv⟩

theorem Runs.grown (h : σ.Runs cfg n d t e Q) (hτ : σ.Grown τ) : τ.Runs cfg n d t e Q :=
  fun υ hυ => h υ (hτ.trans hυ)

theorem Runs.weaken (h : σ.Runs cfg n d t e Q) (hn : n ≤ N) (hd : d ≤ D) : σ.Runs cfg N D t e Q :=
  fun τ hτ expr hexpr room hroom =>
    (h τ hτ expr hexpr room (Nat.le_trans hd hroom)).imp fun _ _ hv => hv.fuller hn

theorem Runs.mono (h : σ.Runs cfg n d t e Q) (hQ : ∀ v τ, σ.Onward τ → Q v τ → Q' v τ) :
    σ.Runs cfg n d t e Q' :=
  fun τ hτ expr hexpr room hroom =>
    (h τ hτ expr hexpr room hroom).mono fun v υ hυ => hQ v υ (hτ.onward.trans hυ)

theorem Invoked.mono {c : Value} {args : List Value} (h : σ.Invoked cfg n d c args e Q)
    (hQ : ∀ v τ, σ.Onward τ → Q v τ → Q' v τ) : σ.Invoked cfg n d c args e Q' :=
  fun τ hτ room hroom => (h τ hτ room hroom).mono fun v υ hυ => hQ v υ (hτ.onward.trans hυ)

theorem Invoked.weaken {c : Value} {args : List Value} (h : σ.Invoked cfg n d c args e Q)
    (hn : n ≤ N) (hd : d ≤ D) : σ.Invoked cfg N D c args e Q :=
  fun τ hτ room hroom =>
    (h τ hτ room (Nat.le_trans hd hroom)).imp fun _ _ hv => hv.fuller hn

theorem RunsAll.imp {Q Q' : List Value → Scene → Prop} (h : RunsAll cfg n d e ts Q σ)
    (hQ : ∀ vs τ, σ.Onward τ → Q vs τ → Q' vs τ) : RunsAll cfg n d e ts Q' σ := by
  induction ts generalizing σ Q Q' with
  | nil => exact hQ [] σ (.refl σ) h
  | cons t ts ih =>
    exact Runs.mono h fun v τ hτ hv => ih hv fun vs υ hυ => hQ (v :: vs) υ (hτ.trans hυ)

theorem RunsAll.operands {Q : List Value → Scene → Prop} (h : RunsAll cfg n d e ts Q σ)
    {operands : Value} (hoperands : σ.Holds operands (Tree.list ts)) {room : Nat}
    (hroom : d ≤ room) :
    ∃ vs τ, Operands cfg n room e operands σ.world vs τ.world ∧ vs.length = ts.length ∧
      σ.Onward τ ∧ Q vs τ := by
  induction ts generalizing σ operands Q with
  | nil =>
    cases hoperands
    exact ⟨[], σ, .nil, rfl, .refl σ, h⟩
  | cons t ts ih =>
    obtain _ | ⟨hr, hhead, htail⟩ := hoperands
    obtain ⟨v, τ, hfirst, hτ, hrest⟩ := h σ (.refl σ) _ hhead room hroom
    obtain ⟨vs, υ, hvs, hlength, hυ, hQ⟩ := ih hrest (htail.tail hr hτ)
    exact ⟨v :: vs, υ, .cons hfirst hvs, congrArg (· + 1) hlength, hτ.trans hυ, hQ⟩

section Reducing

variable (hlimit : cfg.stepLimit = none)
include hlimit

theorem Runs.symbol {name : String} {v : Value} (hv : σ.Sees name v e)
    (hQ : ∀ τ, σ.Grown τ → Q v τ) : σ.Runs cfg (n + 1) d name e Q := by
  intro τ hτ expr hexpr room _
  cases hexpr
  exact ⟨v, τ, yields_symbol hlimit (hv.onward hτ.onward).lookup, .refl τ, hQ τ hτ⟩

theorem Runs.constant {v : Value} (hpair : v.isPair = false) (hsymbol : v.isSymbol = false)
    (hQ : ∀ τ, σ.Grown τ → Q v τ) : σ.Runs cfg (n + 1) d (.leaf v) e Q := by
  intro τ hτ expr hexpr room _
  cases hexpr
  exact ⟨v, τ, yields_constant hlimit hpair hsymbol _, .refl τ, hQ τ hτ⟩

theorem Runs.plain (hD : d + 1 ≤ D)
    (h : σ.Runs cfg n d t e fun c τ => c.isApplicative = false ∧
      ∀ operands, τ.Holds operands (.list ts) → τ.Called cfg n D c operands e Q) :
    σ.Runs cfg (n + 1) D (.list (t :: ts)) e Q := by
  intro τ hτ expr hexpr room hroom
  obtain ⟨room, rfl⟩ : ∃ k, room = k + 1 := ⟨room - 1, by omega⟩
  obtain _ | @⟨r, _, _, hr, hhead, htail⟩ := hexpr
  obtain ⟨c, υ, hc, hυ, hplain, hcall⟩ := h τ hτ _ hhead room (by omega)
  exact .after hυ (hcall _ (htail.tail hr hυ) υ (.refl υ) _ hroom) fun v w hv =>
    yields_combination hlimit (.plain hplain hc) hv

theorem Runs.wrapped (hn : ts.length ≤ n) (hD : d + 1 ≤ D)
    (h : σ.Runs cfg n d t e fun c τ => ∃ label u, c = .applicative label u ∧ u.isApplicative = false ∧
      RunsAll cfg n d e ts (fun vs υ => υ.Invoked cfg n D u vs e Q) τ) :
    σ.Runs cfg (n + 1) D (.list (t :: ts)) e Q := by
  intro τ hτ expr hexpr room hroom
  obtain ⟨room, rfl⟩ : ∃ k, room = k + 1 := ⟨room - 1, by omega⟩
  obtain _ | @⟨r, _, _, hr, hhead, htail⟩ := hexpr
  obtain ⟨_, υ, hc, hυ, label, u, rfl, hplain, hargs⟩ := h τ hτ _ hhead room (by omega)
  obtain ⟨vs, φ, hvs, hlength, hφ, hcall⟩ :=
    hargs.operands (htail.tail hr hυ) (show d ≤ room by omega)
  exact .after (hυ.trans hφ) (hcall φ (.refl φ) _ hroom) fun v w hv =>
    yields_combination hlimit (.wrapped hplain hc hvs (hlength ▸ hn)) hv

theorem Runs.operate {name : String} {c : Value} (hc : σ.Sees name c e)
    (hplain : c.isApplicative = false) (hD : 1 ≤ D)
    (h : ∀ τ operands, σ.Grown τ → τ.Holds operands (.list ts) →
      τ.Called cfg (n + 1) D c operands e Q) :
    σ.Runs cfg (n + 2) D (.list (name :: ts)) e Q :=
  .plain hlimit hD <| .symbol hlimit hc fun τ hτ => ⟨hplain, fun operands => h τ operands hτ⟩

theorem Runs.apply {name : String} {label : Nat} {u : Value}
    (hc : σ.Sees name (.applicative label u) e) (hplain : u.isApplicative = false)
    (hn : ts.length ≤ n + 1) (hD : d + 1 ≤ D)
    (h : ∀ τ, σ.Grown τ →
      RunsAll cfg (n + 1) d e ts (fun vs υ => υ.Invoked cfg (n + 1) D u vs e Q) τ) :
    σ.Runs cfg (n + 2) D (.list (name :: ts)) e Q :=
  .wrapped hlimit hn hD <| .symbol hlimit hc fun τ hτ => ⟨label, u, rfl, hplain, h τ hτ⟩

end Reducing

section Calling

variable {c operands last : Value} {vs : List Value}

/-- The fresh list of the arguments is held like all that is new. -/
theorem Invoked.of_called
    (h : ∀ τ operands, σ.Grown τ → τ.store.Items .nil operands vs → τ.Called cfg n d c operands e Q) :
    σ.Invoked cfg n d c vs e Q := by
  intro τ hτ room hroom
  have hgrown := τ.grown_grow (.list τ.store vs .nil)
  exact .after hgrown.onward
    (h _ _ (hτ.trans hgrown) (Store.items_list τ.store vs .nil) _ (.refl _) room hroom)
    fun v w hv => hv

theorem Called.boolean {b : Bool} (h : ∀ τ, σ.Grown τ →
      RunsAll cfg n d e ts (fun vs υ => ∃ x y, vs = [x, y] ∧ Q (if b then x else y) υ) τ)
    (hoperands : σ.Holds operands (.list ts)) (hn : 2 ≤ n) (hD : d + 1 ≤ D) :
    σ.Called cfg n D (.bool b) operands e Q := by
  intro τ hτ room hroom
  obtain ⟨room, rfl⟩ : ∃ k, room = k + 1 := ⟨room - 1, by omega⟩
  obtain ⟨_, υ, hvs, -, hυ, x, y, rfl, hQ⟩ :=
    (h τ hτ).operands (hoperands.onward hτ.onward) (show d ≤ room by omega)
  exact ⟨_, υ, calls_boolean hvs hn, hυ, hQ⟩

section Primitives

variable (hitems : σ.store.Items .nil operands vs)
include hitems

theorem Called.operation {o : Operation} (hadmits : o.signature.admits vs.length = true)
    (h : ∀ τ, σ.Grown τ → ∀ room, d ≤ room →
      τ.Comes (fun w v w' => o.perform room e vs w = .ok (.value v) w') Q) :
    σ.Called cfg n d (.primitive (.operation o)) operands e Q := by
  intro τ hτ room hroom
  have hspine := (hitems.larger hτ.larger).spine? rfl
  obtain ⟨v, υ, hv, hυ, hQ⟩ := h τ hτ room hroom
  exact ⟨v, υ, calls_operation hspine hadmits hv, hυ, hQ⟩

theorem Called.eval {expr : Value} {f : Nat} (hvs : vs = [expr, .env f]) (hexpr : σ.Holds expr t)
    (h : σ.Runs cfg n d t f Q) : σ.Called cfg n d (.primitive (.operation .eval)) operands e Q := by
  intro τ hτ room hroom
  have hspine := (hitems.larger hτ.larger).spine? rfl
  obtain ⟨v, υ, hv, hυ, hQ⟩ := h τ hτ expr (hexpr.onward hτ.onward) room hroom
  exact ⟨v, υ, calls_eval hspine hvs hv, hυ, hQ⟩

end Primitives

theorem Invoked.operation {o : Operation} (hadmits : o.signature.admits vs.length = true)
    (h : ∀ τ, σ.Grown τ → ∀ room, d ≤ room →
      τ.Comes (fun w v w' => o.perform room e vs w = .ok (.value v) w') Q) :
    σ.Invoked cfg n d (.primitive (.operation o)) vs e Q :=
  .of_called fun _ _ hτ hitems => .operation hitems hadmits fun υ hυ => h υ (hτ.trans hυ)

theorem Invoked.reads {o : Operation} {v : Value} (hadmits : o.signature.admits vs.length = true)
    (h : ∀ τ, σ.Grown τ → ∀ room, d ≤ room →
      o.perform room e vs τ.world = .ok (.value v) τ.world)
    (hQ : ∀ τ, σ.Grown τ → Q v τ) : σ.Invoked cfg n d (.primitive (.operation o)) vs e Q :=
  .operation hadmits fun τ hτ room hroom => ⟨v, τ, h τ hτ room hroom, .refl τ, hQ τ hτ⟩

theorem Invoked.eval {expr : Value} {f : Nat} (hexpr : σ.Holds expr t)
    (h : σ.Runs cfg n d t f Q) :
    σ.Invoked cfg n d (.primitive (.operation .eval)) [expr, .env f] e Q :=
  .of_called fun _ _ hτ hitems => .eval hitems rfl (hexpr.onward hτ.onward) (h.grown hτ)

theorem Invoked.cons_new {x y : Value}
    (hQ : ∀ τ r, σ.Grown τ → τ.cell r → σ.store.cells.size ≤ r → τ.store.head r = x →
      τ.store.tail r = y → Q (.pair r) τ) :
    σ.Invoked cfg n d (.primitive (.operation .cons)) [x, y] e Q := by
  refine .operation rfl fun τ hτ room _ => ?_
  have hgrown := τ.grown_grow (.cons τ.store x y none)
  have hcell : (τ.store.cons x y none).2.cell τ.store.cells.size = ⟨x, y, none⟩ := by
    rw [Store.cell_cons, if_pos rfl]
  refine ⟨.pair τ.store.cells.size, _, rfl, hgrown.onward,
    hQ _ _ (hτ.trans hgrown) ?_ hτ.larger.cells ?_ ?_⟩
  · exact .inr ⟨Nat.le_refl _, by simp⟩
  · exact congrArg Cell.head hcell
  · exact congrArg Cell.tail hcell

theorem Invoked.cons {x y : Value}
    (hQ : ∀ τ r, σ.Grown τ → τ.cell r → τ.store.head r = x → τ.store.tail r = y → Q (.pair r) τ) :
    σ.Invoked cfg n d (.primitive (.operation .cons)) [x, y] e Q :=
  .cons_new fun τ r hτ hr _ => hQ τ r hτ hr

theorem Invoked.wrap {c : Value} (hc : c.isCombiner = true)
    (hQ : ∀ τ label, σ.Grown τ → Q (.applicative label c) τ) :
    σ.Invoked cfg n d (.primitive (.operation .wrap)) [c] e Q := by
  refine .operation rfl fun τ hτ room _ => ?_
  have hgrown := τ.grown_grow (.wrap τ.store c)
  refine ⟨.applicative τ.store.wrappers c, _, ?_, hgrown.onward, hQ _ _ (hτ.trans hgrown)⟩
  simp only [Operation.perform, Operation.value, hc, if_true]
  rfl

end Calling

end Scene

end Vau
