import Vau.Proofs.Effects

/-! Code that fails. A combination of a wrapped combiner fails as the first of its operands that fails,
or else as the call does. So a fold fails where it comes to a call that fails, or to the end of a chain
that is no list. -/

namespace Vau

namespace Scene

open Library Vau.Tree

/-- From the scene the activity fails, with `E`. -/
def Fails (σ : Scene) (y : Activity) (E : Stop → World → Prop) : Prop :=
  ∃ stop w, y σ.world (.error stop w) ∧ E stop w

/-- A chain of held pairs with the values, ended by `last`. -/
inductive Trails (σ : Scene) (last : Value) : Value → List Value → Prop
  | done : Trails σ last last []
  | pair {r : Nat} {vs : List Value} (hr : σ.cell r) (htail : Trails σ last (σ.store.tail r) vs) :
    Trails σ last (.pair r) (σ.store.head r :: vs)

variable {σ τ : Scene} {cfg : Settings} {n d D e f p q r room root label label' : Nat}
  {a c expr last operands v xs : Value} {us vs : List Value} {bs : List (String × Value)}
  {t t₁ t₂ body : Tree} {ts : List Tree} {y z : Activity} {E : Stop → World → Prop}

namespace Trails

theorem onward (h : σ.Trails last v vs) (hτ : σ.Onward τ) : τ.Trails last v vs := by
  induction h with
  | done => exact .done
  | @pair r vs hr _ ih =>
    obtain ⟨hheld, hcell⟩ := hτ.cell hr
    rw [show σ.store.head r = τ.store.head r from congrArg Cell.head hcell.symm]
    exact .pair hheld (by rwa [Store.tail, hcell])

/-- The first values are on a chain that is ended by the pair of the next one. -/
theorem split (h : σ.Carries v (us ++ xs :: vs)) :
    ∃ r, σ.Trails (.pair r) v us ∧ σ.cell r ∧ σ.store.head r = xs := by
  induction us generalizing v with
  | nil =>
    obtain ⟨r, rfl, hr, hhead, -⟩ := h.held
    exact ⟨r, .done, hr, hhead⟩
  | cons u us ih =>
    obtain ⟨k, rfl, hk, rfl, htail⟩ := h.held
    obtain ⟨r, hus, hr, hhead⟩ := ih htail
    exact ⟨r, .pair hk hus, hr, hhead⟩

end Trails

namespace Fails

theorem imp (h : τ.Fails y E)
    (hy : ∀ stop w, y τ.world (.error stop w) → z σ.world (.error stop w)) : σ.Fails z E := by
  obtain ⟨stop, w, hw, hE⟩ := h
  exact ⟨stop, w, hy stop w hw, hE⟩

section Calling

/-- An operative goes on with its body in a frame that binds what its formals are matched by. -/
theorem operative {rest : Value} (names : List String)
    (hw : σ.Written q p (dotted (names.map Tree.sym) (.leaf rest)) .ignore body)
    (hp : p < σ.store.frames.size) (hitems : σ.store.Items last operands vs)
    (hlength : names.length = vs.length) (hrest : Formals.leaf rest last = .ok bs)
    (h : ∀ τ f form, σ.Grown τ → τ.Scope f (names.zip vs ++ bs.reverse) p → τ.Holds form body →
      τ.Fails (Evaluates cfg (room + 1) form f) E) :
    σ.Fails (Receives cfg (room + 1) (.operative q) operands e) E := by
  obtain ⟨form, hform, hbody⟩ := hw.body
  obtain ⟨τ, f, hopen, hτ, hscope⟩ := hw.enters names hp hitems hlength hrest e
  exact (h τ f form hτ.grown hscope (hbody.onward hτ.grown.onward)).imp fun stop w hfailed =>
    .operative hopen (hform ▸ .last hfailed)

theorem of_fresh (h : ∀ τ operands, σ.Grown τ → τ.Carries operands vs →
    τ.Fails (Receives cfg room c operands e) E) : σ.Fails (Applied cfg room c vs e) E := by
  have hgrown := σ.grown_grow (.list σ.store vs .nil)
  have hcarries := carries_list (σ := σ.grow _ (.list σ.store vs .nil)) σ.store vs (.refl _)
    fun r hr hlt => .inr ⟨hr, hlt⟩
  exact (h _ _ hgrown hcarries).imp fun stop w hw => hw

theorem procedure (names : List String)
    (hw : σ.Written q p (list (names.map Tree.sym)) .ignore body) (hp : p < σ.store.frames.size)
    (hlength : names.length = vs.length)
    (h : ∀ τ f form, σ.Grown τ → τ.Scope f (names.zip vs) p → τ.Holds form body →
      τ.Fails (Evaluates cfg (room + 1) form f) E) :
    σ.Fails (Applied cfg (room + 1) (.operative q) vs e) E := by
  obtain ⟨τ, f, form, hτ, hscope, hform, hgo⟩ := hw.applied cfg names hp hlength e
  exact (h τ f form hτ hscope hform).imp fun stop w hw => hgo room _ hw

theorem operation {o : Operation} {stop : Stop} (hadmits : o.signature.admits vs.length = true)
    (hperform : ∀ w, o.perform room e vs w = .error stop w) (hE : ∀ τ, σ.Grown τ → E stop τ.world) :
    σ.Fails (Applied cfg room (.primitive (.operation o)) vs e) E :=
  ⟨stop, _, .operation_failed ((σ.store.items_list vs .nil).spine? rfl) hadmits (hperform _),
    hE _ (σ.grown_grow (.list σ.store vs .nil))⟩

end Calling

theorem refuses {ts₁ ts₂ : List Tree} (hoperands : σ.Holds operands (list (ts₁ ++ t :: ts₂)))
    (h : RunsAll cfg.uncounted n d f ts₁
      (fun _ τ => ∀ x, τ.Holds x t → τ.Fails (Evaluates cfg room x f) E) σ) (hroom : d ≤ room) :
    ∃ stop w, Refuses cfg room f stop w operands σ.world ∧ E stop w := by
  induction ts₁ generalizing σ operands with
  | nil =>
    obtain ⟨r, rfl, -, hhead, -⟩ := hoperands.uncons
    obtain ⟨stop, w, hw, hE⟩ := h _ hhead
    exact ⟨stop, w, .here hw, hE⟩
  | cons t₁ ts₁ ih =>
    obtain ⟨r, rfl, hr, hhead, htail⟩ := hoperands.uncons
    obtain ⟨v, τ, hv, hτ, hrest⟩ := h σ (.refl σ) _ hhead room hroom
    obtain ⟨stop, w, hw, hE⟩ := ih (htail.tail hr hτ) hrest
    exact ⟨stop, w, .later (evaluates_ok.mpr hv) hw, hE⟩

section Reducing

variable (hlimit : cfg.stepLimit = none)
include hlimit

/-- Code that applies what a name stands for fails as the first of its operands that fails. -/
theorem operand {name : String} (ts₁ : List Tree) {ts₂ : List Tree}
    (hsees : σ.Sees name (.applicative label c) f)
    (hcode : σ.Holds expr (list (name :: (ts₁ ++ t :: ts₂))))
    (h : RunsAll cfg.uncounted n d f ts₁
      (fun _ τ => ∀ x, τ.Holds x t → τ.Fails (Evaluates cfg room x f) E) σ) (hroom : d ≤ room) :
    σ.Fails (Evaluates cfg (room + 1) expr f) E := by
  obtain ⟨r, rfl, -, hhead, htail⟩ := hcode.uncons
  have hoperator : Evaluates cfg room (σ.store.head r) f σ.world
      (.ok (.applicative label c) σ.world) := hhead.evaluates hlimit hsees
  obtain ⟨stop, w, hw, hE⟩ := refuses htail h hroom
  exact ⟨stop, w, .operand_failed hlimit hoperator hw, hE⟩

/-- Code that applies what a name stands for fails as the call does. -/
theorem apply {name : String} (hsees : σ.Sees name (.applicative label c) f)
    (hplain : c.isApplicative = false) (hcode : σ.Holds expr (list (name :: ts)))
    (h : RunsAll cfg.uncounted (n + 1) d f ts
      (fun vs τ => τ.Fails (Applied cfg (room + 1) c vs f) E) σ) (hn : ts.length ≤ n + 1)
    (hroom : d ≤ room) : σ.Fails (Evaluates cfg (room + 1) expr f) E := by
  obtain ⟨vs, τ, hfails, hgo⟩ :=
    hcode.applies hlimit hsees hplain h hn (Nat.succ_le_succ hroom)
  exact hfails.imp fun stop w hw => hgo _ hw

variable (h : σ.Intact root definitions)
include h

/-- `^if` fails as the branch that is chosen does. -/
theorem conditional (hsees : ∀ v, σ.Sees "^if" v root → σ.Sees "^if" v f)
    (hcode : σ.Holds expr (list ["^if", t, t₁, t₂]))
    (htest : σ.Runs cfg.uncounted n d t f fun v τ => ∃ b, v = .bool b ∧ ∀ υ x, τ.Grown υ →
      υ.Holds x (if b then t₁ else t₂) → υ.Fails (Evaluates cfg (room + 2) x f) E)
    (hd : d ≤ room) (hroom : 1 ≤ room) : σ.Fails (Evaluates cfg (room + 2) expr f) E := by
  obtain ⟨x, x₁, x₂, hx, hx₁, hx₂, τ, hτ, -, hdone⟩ := Awaits.branch hlimit h hsees hcode hroom
  obtain ⟨_, υ, hv, hυ, b, rfl, hfails⟩ := htest τ hτ x (hx.onward hτ.onward) room hd
  obtain ⟨φ, hφ, hgo⟩ := hdone _ υ hυ (evaluates_ok.mpr hv) b rfl
  have hon := hτ.onward.trans (hυ.trans hφ.onward)
  refine (hfails φ _ hφ ?_).imp fun stop w hw => hgo _ hw
  cases b with
  | false => exact hx₂.onward hon
  | true => exact hx₁.onward hon

/-- What is no pair has neither a head nor a tail. -/
theorem part {name : String} {o : Operation} (ho : o = .head ∨ o = .tail)
    (hscope : σ.Scope f bs root) (hname : bs.lookup name = some v) (hfree : bs.lookup o.name = none)
    (hcode : σ.Holds expr (list [o.name, name])) (hv : v.isPair = false)
    (hE : ∀ τ, σ.Grown τ → E (.failure (.typeMismatch "pair" v)) τ.world) :
    σ.Fails (Evaluates cfg (room + 1) expr f) E := by
  obtain ⟨_, hpart⟩ := h.wrapped (p := .operation o) (by rcases ho with rfl | rfl <;> decide)
    (by rcases ho with rfl | rfl <;> rfl)
  refine .apply (n := 0) (d := 0) hlimit (hscope.sees_outer hfree hpart) rfl hcode ?_ (by simp)
    (Nat.zero_le room)
  refine .symbol hlimit (hscope.sees hname) fun τ hτ => ?_
  have hfailed : ∀ w, o.perform (room + 1) f [v] w = .error (.failure (.typeMismatch "pair" v)) w := by
    intro w
    rcases ho with rfl | rfl
    all_goals
      cases v with
      | pair r => cases hv
      | _ => rfl
  exact .operation (by rcases ho with rfl | rfl <;> rfl) hfailed fun υ hυ => hE υ (hτ.trans hυ)

end Reducing

section Folding

variable (hlimit : cfg.stepLimit = none) (h : σ.Intact root definitions)
  (hname : σ.Sees "foldl" (.applicative label (.operative q)) root) (hroom : 2 ≤ room)
include hlimit h hname hroom

/-- `foldl` fails as the code for the call on its first item. -/
theorem first (hitems : σ.store.Items .nil operands [c, a, xs]) (hxs : (xs == .nil) = false)
    (hcall : ∀ τ f x, σ.Grown τ → τ.Scope f [("f", c), ("acc", a), ("xs", xs)] root →
      τ.Holds x (list ["f", "acc", list ["head", "xs"]]) → τ.Fails (Evaluates cfg room x f) E) :
    σ.Fails (Receives cfg (room + 1) (.operative q) operands e) E := by
  obtain ⟨f, expr, τ, hτ, hscope, hexpr, hgo⟩ :=
    enters_foldl (b := false) hlimit h hname hroom hitems hxs e
  refine imp (τ := τ) ?_ fun stop w hw => hgo _ hw
  refine .operand (n := 1) (d := 0) hlimit ["f"] (hscope.sees_outer rfl (hname.onward hτ.onward))
    hexpr ?_ (Nat.zero_le room)
  refine .symbol hlimit (hscope.sees rfl) fun υ hυ x hx => ?_
  exact hcall υ f x (hτ.trans hυ) (hscope.onward hυ.onward) hx

theorem foldl_atom (hitems : σ.store.Items .nil operands [.applicative label' c, a, xs])
    (hpair : xs.isPair = false) (hxs : (xs == .nil) = false)
    (hE : ∀ τ, σ.Grown τ → E (.failure (.typeMismatch "pair" xs)) τ.world) :
    σ.Fails (Receives cfg (room + 1) (.operative q) operands e) E := by
  obtain ⟨room, rfl⟩ : ∃ k, room = k + 2 := ⟨room - 2, by omega⟩
  refine first hlimit h hname hroom hitems hxs fun τ f x hτ hscope hx => ?_
  refine .operand (n := 1) (d := 0) hlimit ["acc"] (hscope.sees rfl) hx ?_ (Nat.zero_le _)
  refine .symbol hlimit (hscope.sees rfl) fun υ hυ x hx => ?_
  have hυ' := hτ.trans hυ
  exact .part hlimit (h.onward hυ'.onward) (.inl rfl) (hscope.onward hυ.onward) rfl rfl hx hpair
    fun φ hφ => hE φ (hυ'.trans hφ)

theorem foldl_call (hitems : σ.store.Items .nil operands [.applicative label' c, a, .pair r])
    (hplain : c.isApplicative = false) (hr : r < σ.store.cells.size)
    (hcall : ∀ τ f, σ.Grown τ → τ.Fails (Applied cfg room c [a, σ.store.head r] f) E) :
    σ.Fails (Receives cfg (room + 1) (.operative q) operands e) E := by
  obtain ⟨room, rfl⟩ : ∃ k, room = k + 1 := ⟨room - 1, by omega⟩
  refine first hlimit h hname hroom hitems rfl fun τ f x hτ hscope hx => ?_
  refine .apply (n := 1) (d := 1) hlimit (hscope.sees rfl) hplain hx ?_ (by simp) (by omega)
  refine .symbol hlimit (hscope.sees rfl) fun υ hυ => ?_
  have hυ' := hτ.trans hυ
  refine .head (n := 0) hlimit (h.onward hυ'.onward) (hscope.onward hυ.onward) rfl rfl
    (Nat.lt_of_lt_of_le hr hυ'.larger.cells) (Nat.le_refl 1) fun φ hφ => ?_
  rw [hυ'.head hr]
  exact hcall φ f (hυ'.trans hφ)

/-- `foldl` fails where the chain ends for which the combiner serves, if it fails there with whatever
has been kept. -/
theorem foldl {Q : Value → Scene → Prop} (hxs : σ.Trails last xs vs)
    (hitems : σ.store.Items .nil operands [.applicative label' c, a, xs])
    (hplain : c.isApplicative = false)
    (hserves : Serves cfg.uncounted n d c .left (vs.map .value) a Q σ) (hd : d + 2 ≤ room)
    (hend : ∀ τ a operands e, σ.Onward τ → Q a τ →
      τ.store.Items .nil operands [.applicative label' c, a, last] →
      τ.Fails (Receives cfg (room + 1) (.operative q) operands e) E) :
    σ.Fails (Receives cfg (room + 1) (.operative q) operands e) E := by
  induction vs generalizing σ xs a operands e with
  | nil =>
    cases hxs
    exact hend σ a operands e (.refl σ) (hserves σ (.refl σ)) hitems
  | cons v vs ih =>
    obtain _ | @⟨r, _, hr, hrest⟩ := hxs
    obtain ⟨f, expr, τ, hτ, hscope, hexpr, hgo⟩ :=
      enters_foldl (b := false) hlimit h hname hroom hitems rfl e
    refine imp (τ := τ) ?_ fun stop w hw => hgo _ hw
    have hcall := (hserves f).grown hτ
    rw [show Item.read σ.store (.value (σ.store.head r)) = τ.store.head r from
      (hτ.head (σ.cell_lt hr)).symm] at hcall
    refine .apply (n := n + 2) (d := room) hlimit (hscope.sees_outer rfl (hname.onward hτ.onward)) rfl
      hexpr ?_ (by simp) (Nat.le_refl room)
    refine .folding hlimit (h.onward hτ.onward) hscope hplain (.inl (hτ.onward.cell hr).1) hcall ?_
      (Nat.le_refl _) hd
    rintro b υ φ hυ ⟨_, ⟨⟩, hserves'⟩ hφ
    have hon := hτ.onward.trans (hυ.trans hφ.onward)
    refine .of_fresh fun ψ operands hψ hoperands => ?_
    have hon' := hon.trans hψ.onward
    refine ih (h.onward hon') (hname.onward hon') ?_ hoperands.items
      (hserves'.grown (υ.steady_values vs) (hφ.trans hψ)) fun χ a operands e hχ =>
        hend χ a operands e (hon'.trans hχ)
    rw [hτ.tail (σ.cell_lt hr)]
    exact hrest.onward hon'

end Folding

end Fails

end Scene

end Vau
