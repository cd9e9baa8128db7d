import Vau.Proofs.Additions
import Vau.Proofs.Applying
import Vau.Proofs.Endings
import Vau.Proofs.Folding

/-! Code that waits for other code. Prelude code comes to a point at which an expression that it was
given is evaluated. What it has done by then is to make pairs and frames; if the expression fails, so
does the code, and if the expression comes to a value and leaves what is held as it is, the code goes
on from there. -/

namespace Vau

namespace Scene

open Library Vau.Tree

/-- What is done from a world, as a relation between the world and the end. -/
abbrev Activity := World → End Value → Prop

/-- When the scene has grown, the activity is gone on with: each of its ends is one with `O`. -/
def Leads (σ : Scene) (y : Activity) (O : End Value → Prop) : Prop :=
  ∃ τ, σ.Grown τ ∧ ∀ o, y τ.world o → O o

/-- When the scene has grown, the activity is begun. If it fails, then with `E`; if it comes to a value
and leaves all that is held as it is, the value and what has become of the scene have `P`. -/
def Awaits (σ : Scene) (y : Activity) (E : Stop → World → Prop) (P : Value → Scene → Prop) : Prop :=
  ∃ τ, σ.Grown τ ∧ (∀ stop w, y τ.world (.error stop w) → E stop w) ∧
    ∀ v υ, τ.Onward υ → y τ.world (.ok v υ.world) → P v υ

variable {σ τ : Scene} {cfg : Settings} {n d e f room root q label : Nat} {t t₁ t₂ : Tree}
  {y z : Activity} {O O' : End Value → Prop} {E E' : Stop → World → Prop}
  {P P' : Value → Scene → Prop}
  {expr c operands v x x₁ x₂ : Value}

namespace Leads

theorem refl (σ : Scene) (y : Activity) : σ.Leads y (y σ.world) := ⟨σ, .refl σ, fun _ => id⟩

theorem trans (h : σ.Leads y O) (h' : ∀ τ, σ.Grown τ → τ.Leads z (y τ.world)) : σ.Leads z O := by
  obtain ⟨τ, hτ, hy⟩ := h
  obtain ⟨υ, hυ, hz⟩ := h' τ hτ
  exact ⟨υ, hτ.trans hυ, fun o ho => hy o (hz o ho)⟩

theorem after (hτ : σ.Grown τ) (h : τ.Leads y O) : σ.Leads y O := by
  obtain ⟨υ, hυ, hy⟩ := h
  exact ⟨υ, hτ.trans hυ, hy⟩

theorem mono (h : σ.Leads y O) (hO : ∀ o, O o → O' o) : σ.Leads y O' := by
  obtain ⟨τ, hτ, hy⟩ := h
  exact ⟨τ, hτ, fun o ho => hO o (hy o ho)⟩

end Leads

namespace Awaits

theorem mono (h : σ.Awaits y E P) (hE : ∀ stop w, E stop w → E' stop w)
    (hP : ∀ v τ, σ.Onward τ → P v τ → P' v τ) : σ.Awaits y E' P' := by
  obtain ⟨τ, hτ, hfailed, hdone⟩ := h
  exact ⟨τ, hτ, fun stop w hw => hE stop w (hfailed stop w hw),
    fun v υ hυ hv => hP v υ (hτ.onward.trans hυ) (hdone v υ hυ hv)⟩

theorem after (hτ : σ.Grown τ) (h : τ.Awaits y E P) : σ.Awaits y E P := by
  obtain ⟨υ, hυ, hrest⟩ := h
  exact ⟨υ, hτ.trans hυ, hrest⟩

/-- What leads to the activity may stand before it. -/
theorem before (h : σ.Awaits y E P) (h' : ∀ τ, σ.Grown τ → τ.Leads z (y τ.world)) :
    σ.Awaits z E P := by
  obtain ⟨τ, hτ, hfailed, hdone⟩ := h
  obtain ⟨υ, hυ, hz⟩ := h' τ hτ
  exact ⟨υ, hτ.trans hυ, fun stop w hw => hfailed stop w (hz _ hw),
    fun v φ hφ hv => hdone v φ (hυ.onward.trans hφ) (hz _ hv)⟩

/-- An activity that is known to come to a value need not be waited for. -/
theorem settled (h : σ.Awaits y E P) (h' : ∀ τ, σ.Grown τ → ∃ v υ, y τ.world (.ok v υ.world) ∧
      τ.Adds υ ∧ P' v υ) : ∃ v τ, σ.Grown τ ∧ P v τ ∧ P' v τ := by
  obtain ⟨τ, hτ, -, hdone⟩ := h
  obtain ⟨v, υ, hy, hυ, hP'⟩ := h' τ hτ
  exact ⟨v, υ, hτ.trans hυ.grown, hdone v υ hυ.grown.onward hy, hP'⟩

end Awaits

theorem Holds.uncons {t₁ t₂ : Tree} (h : σ.Holds v (.node t₁ t₂)) : ∃ r, v = .pair r ∧ σ.cell r ∧
    σ.Holds (σ.store.head r) t₁ ∧ σ.Holds (σ.store.tail r) t₂ := by
  cases h with
  | node hr hhead htail => exact ⟨_, rfl, hr, hhead, htail⟩

theorem Holds.carries {ts : List Tree} (h : σ.Holds v (list ts)) :
    ∃ vs, σ.Carries v vs ∧ List.Forall₂ σ.Holds vs ts := by
  induction ts generalizing v with
  | nil =>
    cases h
    exact ⟨[], .nil, .nil⟩
  | cons t ts ih =>
    obtain ⟨r, rfl, hr, hhead, htail⟩ := h.uncons
    obtain ⟨vs, hvs, hts⟩ := ih htail
    exact ⟨_ :: vs, .pair hr hvs, .cons hhead hts⟩

theorem Finds.ends {Q : Value → Scene → Prop} (h : σ.Finds cfg.uncounted n d t e Q)
    (hexpr : σ.Holds expr t) (hroom : d ≤ room) :
    ∃ v τ, Evaluates cfg room expr e σ.world (.ok v τ.world) ∧ σ.Adds τ ∧ Q v τ := by
  obtain ⟨v, τ, hv, hτ, hQ⟩ := h expr hexpr room hroom
  exact ⟨v, τ, evaluates_ok.mpr hv, hτ, hQ⟩

theorem Intact.opened {ds : List Definition} (h : σ.Intact root ds) {d : Definition} (hd : d ∈ ds)
    {formals body : Tree} {dynamic : Value} (hcode : d.code = .operative formals dynamic body)
    (hname : σ.Sees d.name (.operative q) root) : σ.Written q root formals dynamic body := by
  obtain ⟨q', hq, hname'⟩ := h.operative hd hcode
  cases hname.unique hname'
  exact hq

theorem Holds.evaluates (hlimit : cfg.stepLimit = none) {name : String} {u : Value}
    (h : σ.Holds expr name) (hsees : σ.Sees name u f) :
    Evaluates cfg room expr f σ.world (.ok u σ.world) := by
  cases h
  exact evaluates_ok.mpr (yields_symbol (n := 0) hlimit hsees.lookup)

section Arguments

variable {ts₁ ts₂ : List Tree} {us₂ : List Value}

/-- The operands before one of them come to values; then it is evaluated, and those after it when it has
come to a value. -/
theorem Holds.operand {Q : List Value → Prop} (hoperands : σ.Holds operands (list (ts₁ ++ t :: ts₂)))
    (h₁ : FindsAll cfg.uncounted n d f ts₁ (fun us _ => Q us) σ)
    (h₂ : ∀ τ, σ.Onward τ → FindsAll cfg.uncounted n d f ts₂ (fun us _ => us = us₂) τ)
    (hroom : d ≤ room) : ∃ x τ, σ.Grown τ ∧ τ.Holds x t ∧
      (∀ stop w, Evaluates cfg room x f τ.world (.error stop w) →
        Refuses cfg room f stop w operands σ.world) ∧
      ∀ v υ, τ.Onward υ → Evaluates cfg room x f τ.world (.ok v υ.world) → ∃ us φ, υ.Grown φ ∧ Q us ∧
        Operands cfg.uncounted n room f operands σ.world (us ++ v :: us₂) φ.world := by
  -- on the operands before it
  induction ts₁ generalizing σ operands Q with
  | nil =>
    obtain ⟨r, rfl, hr, hhead, htail⟩ := hoperands.uncons
    refine ⟨_, σ, .refl σ, hhead, fun stop w hw => .here hw, fun v τ hτ hv => ?_⟩
    obtain ⟨_, υ, hlater, -, hυ, rfl⟩ := (h₂ τ hτ).operands (htail.tail hr hτ) hroom
    exact ⟨[], υ, hυ.grown, h₁, .cons (evaluates_ok.mp hv) hlater⟩
  | cons t₁ ts₁ ih =>
    obtain ⟨r, rfl, hr, hhead, htail⟩ := hoperands.uncons
    obtain ⟨u, τ, hfirst, hτ, hrest⟩ := h₁ _ hhead room hroom
    have hon := hτ.grown.onward
    obtain ⟨x, υ, hυ, hx, hfailed, hdone⟩ :=
      ih (htail.tail hr hon) hrest fun υ hυ => h₂ υ (hon.trans hυ)
    refine ⟨x, υ, hτ.grown.trans hυ, hx, fun stop w hw => ?_, fun v φ hφ hv => ?_⟩
    · exact .later (evaluates_ok.mpr hfirst) (hfailed stop w hw)
    · obtain ⟨us, ψ, hψ, hQ, hall⟩ := hdone v φ hφ hv
      exact ⟨u :: us, ψ, hψ, hQ, .cons hfirst hall⟩

variable (ts₁) (us₁ us₂ : List Value) (hlimit : cfg.stepLimit = none) {name : String}
  (hsees : σ.Sees name (.applicative label c) f) (hplain : c.isApplicative = false)
  (hcode : σ.Holds expr (list (name :: (ts₁ ++ t :: ts₂))))
  (h₁ : FindsAll cfg.uncounted n d f ts₁ (fun us _ => us = us₁) σ)
  (h₂ : ∀ τ, σ.Onward τ → FindsAll cfg.uncounted n d f ts₂ (fun us _ => us = us₂) τ)
  (hn : us₁.length + us₂.length < n) (hroom : d ≤ room)
include hlimit hsees hplain hcode h₁ h₂ hn hroom

/-- Code that applies what a name stands for evaluates one of its operands and goes on with the call. -/
theorem Holds.argument : ∃ x τ, σ.Grown τ ∧ τ.Holds x t ∧
    (∀ stop w, Evaluates cfg room x f τ.world (.error stop w) →
      Evaluates cfg (room + 1) expr f σ.world (.error stop w)) ∧
    ∀ v υ, τ.Onward υ → Evaluates cfg room x f τ.world (.ok v υ.world) →
      υ.Leads (Applied cfg (room + 1) c (us₁ ++ v :: us₂) f)
        (Evaluates cfg (room + 1) expr f σ.world) := by
  obtain ⟨r, rfl, -, hhead, htail⟩ := hcode.uncons
  have hoperator : Evaluates cfg room (σ.store.head r) f σ.world
      (.ok (.applicative label c) σ.world) := hhead.evaluates hlimit hsees
  obtain ⟨x, τ, hτ, hx, hfailed, hdone⟩ := htail.operand h₁ h₂ hroom
  refine ⟨x, τ, hτ, hx, fun stop w hw => .operand_failed hlimit hoperator (hfailed stop w hw),
    fun v υ hυ hv => ?_⟩
  obtain ⟨_, φ, hφ, rfl, hall⟩ := hdone v υ hυ hv
  exact ⟨φ, hφ, fun o ho => .combination hlimit
    (.wrapped hplain (evaluates_ok.mp hoperator) hall (by simp; omega)) ho⟩

/-- Code that applies what a name stands for waits for what one of its operands goes on with. -/
theorem Awaits.argument
    (hlead : ∀ x τ, σ.Grown τ → τ.Holds x t → τ.Leads y (Evaluates cfg room x f τ.world)) :
    σ.Awaits y (fun stop w => Evaluates cfg (room + 1) expr f σ.world (.error stop w))
      fun v τ => τ.Leads (Applied cfg (room + 1) c (us₁ ++ v :: us₂) f)
        (Evaluates cfg (room + 1) expr f σ.world) := by
  obtain ⟨x, τ, hτ, hx, hfailed, hdone⟩ :=
    hcode.argument ts₁ us₁ us₂ hlimit hsees hplain h₁ h₂ hn hroom
  obtain ⟨υ, hυ, hgo⟩ := hlead x τ hτ hx
  exact ⟨υ, hτ.trans hυ, fun stop w hw => hfailed stop w (hgo _ hw),
    fun v φ hφ hv => hdone v φ (hυ.onward.trans hφ) (hgo _ hv)⟩

end Arguments

section Reducing

variable (hlimit : cfg.stepLimit = none)
include hlimit

/-- A combination with a combiner in its head goes on with what the combiner receives. -/
theorem Leads.combination {r : Nat} (happlicative : c.isApplicative = false)
    (hpair : c.isPair = false) (hsymbol : c.isSymbol = false) (hhead : σ.store.head r = c)
    (hroom : 0 < room) : σ.Leads (Receives cfg room c (σ.store.tail r) e)
      (Evaluates cfg room (.pair r) e σ.world) :=
  ⟨σ, .refl σ, fun _ ho => .combination hlimit
    (prepares_pair hlimit happlicative hpair hsymbol hhead rfl hroom) ho⟩

/-- The evaluation of an expression that was found goes on with the expression. -/
theorem Leads.eval (hsees : σ.Sees "eval" (.applicative label (.primitive (.operation .eval))) f)
    (hcode : σ.Holds expr (list ["eval", t₁, t₂]))
    (h : FindsAll cfg.uncounted (n + 2) d f [t₁, t₂] (fun vs τ => ∃ x e, vs = [x, .env e] ∧
      ∀ υ, τ.Adds υ → υ.Leads y (Evaluates cfg room x e υ.world)) σ) (hroom : d + 1 ≤ room) :
    σ.Leads y (Evaluates cfg room expr f σ.world) := by
  obtain ⟨room, rfl⟩ : ∃ k, room = k + 1 := ⟨room - 1, by omega⟩
  obtain ⟨r, rfl, hr, hhead, htail⟩ := hcode.uncons
  obtain ⟨_, τ, hvs, -, hτ, x, e, rfl, hx⟩ := h.operands htail (show d ≤ room by omega)
  have hadds := τ.adds_grow (.list τ.store [x, .env e] .nil)
  have hoperator : Evaluates cfg room (σ.store.head r) f σ.world
      (.ok (.applicative label (.primitive (.operation .eval))) σ.world) := hhead.evaluates hlimit hsees
  refine .after (hτ.trans hadds).grown ((hx _ hadds).mono fun o ho => ?_)
  exact .combination hlimit (.wrapped rfl (evaluates_ok.mp hoperator) hvs (by simp))
    (.eval ((τ.store.items_list _ .nil).spine? rfl) rfl ho)

/-- `^if` waits for its test, and goes on with one of its branches. -/
theorem Awaits.conditional (h : σ.Intact root definitions)
    (hname : σ.Sees "^if" (.operative q) root)
    (hitems : σ.store.Items .nil operands [x, x₁, x₂]) (hroom : 1 ≤ room) :
    σ.Awaits (Evaluates cfg room x e)
      (fun stop w => Receives cfg (room + 2) (.operative q) operands e σ.world (.error stop w))
      fun v τ => ∀ b, v = .bool b → τ.Leads (Evaluates cfg (room + 2) (if b then x₁ else x₂) e)
        (Receives cfg (room + 2) (.operative q) operands e σ.world) := by
  have hw := h.opened (d := Library.conditional) (by simp [definitions, parts]) rfl hname
  obtain ⟨label, heval⟩ := h.wrapped (p := .operation .eval) (by decide) rfl
  obtain ⟨form, hform, hbody⟩ := hw.body
  obtain ⟨τ, f, hopen, hτ, hscope⟩ :=
    hw.enters ["test", "consequent", "alternative"] h.lt hitems rfl rfl e
  have hsees := hscope.sees_outer rfl (heval.onward hτ.grown.onward)
  have hreceives : ∀ o, Evaluates cfg (room + 2) form f τ.world o →
      Receives cfg (room + 2) (.operative q) operands e σ.world o :=
    fun o ho => .operative hopen (hform ▸ .last ho)
  -- the first operand of `eval` is the combination that selects a branch, its operator the test
  obtain ⟨_, υ, hυ, hselection, hfailed, hdone⟩ := (hbody.onward hτ.grown.onward).argument
    (n := 2) (d := 0) [] [] [.env e] hlimit hsees rfl rfl
    (fun φ hφ => .symbol hlimit ((hscope.onward hφ).sees rfl) rfl) (by simp) (Nat.zero_le (room + 1))
  obtain ⟨r, rfl, hheld, htest, hbranches⟩ := hselection.uncons
  have hlead : υ.Leads (Evaluates cfg room x e) (Evaluates cfg room (υ.store.head r) f υ.world) := by
    have hscope' := hscope.onward hυ.onward
    refine .eval (n := 0) (d := 0) hlimit (hsees.onward hυ.onward) htest ?_ hroom
    refine .symbol hlimit (hscope'.sees rfl) (.symbol hlimit (hscope'.sees rfl) ?_)
    exact ⟨x, e, rfl, fun φ _ => .refl φ _⟩
  obtain ⟨φ, hφ, hx⟩ := hlead
  refine ⟨φ, hτ.grown.trans (hυ.trans hφ), fun stop w hw => hreceives _ (hfailed _ _ ?_),
    fun v ψ hψ hv b hb => ?_⟩
  · exact .operator_failed hlimit (hx _ hw)
  · subst hb
    have hon := hφ.onward.trans hψ
    have hscope' := hscope.onward (hυ.onward.trans hon)
    have hsymbols : FindsAll cfg.uncounted 2 0 f ["consequent", "alternative"]
        (fun vs _ => vs = [x₁, x₂]) ψ :=
      .symbol hlimit (hscope'.sees rfl) (.symbol hlimit (hscope'.sees rfl) rfl)
    obtain ⟨_, χ, hpair, -, hχ, rfl⟩ := hsymbols.operands (hbranches.tail hheld hon) (Nat.zero_le room)
    have hselected : Evaluates cfg (room + 1) (.pair r) f υ.world
        (.ok (if b then x₁ else x₂) χ.world) :=
      evaluates_ok.mpr (yields_combination (n := 2) hlimit (.plain rfl (evaluates_ok.mp (hx _ hv)))
        (calls_boolean hpair (Nat.le_refl 2)))
    obtain ⟨ω, hω, hgo⟩ := hdone _ χ (hon.trans hχ.grown.onward) hselected
    have hlist := ω.grown_grow (.list ω.store [if b then x₁ else x₂, .env e] .nil)
    refine ⟨_, hχ.grown.trans (hω.trans hlist), fun o ho => hreceives o (hgo o ?_)⟩
    exact .eval ((ω.store.items_list _ .nil).spine? rfl) rfl ho

/-- The code `^if` waits for its test, and goes on with the code of one of its branches. -/
theorem Awaits.branch (h : σ.Intact root definitions)
    (hsees : ∀ v, σ.Sees "^if" v root → σ.Sees "^if" v f)
    (hcode : σ.Holds expr (list ["^if", t, t₁, t₂])) (hroom : 1 ≤ room) :
    ∃ x x₁ x₂, σ.Holds x t ∧ σ.Holds x₁ t₁ ∧ σ.Holds x₂ t₂ ∧ σ.Awaits (Evaluates cfg room x f)
      (fun stop w => Evaluates cfg (room + 2) expr f σ.world (.error stop w))
      fun v τ => ∀ b, v = .bool b → τ.Leads (Evaluates cfg (room + 2) (if b then x₁ else x₂) f)
        (Evaluates cfg (room + 2) expr f σ.world) := by
  obtain ⟨q, -, hname⟩ := h.operative (d := Library.conditional) (by simp [definitions, parts]) rfl
  obtain ⟨r, rfl, -, hhead, htail⟩ := hcode.uncons
  obtain ⟨x, x₁, x₂, hitems, hx, hx₁, hx₂⟩ := htail.three
  have hoperator : Evaluates cfg (room + 1) (σ.store.head r) f σ.world (.ok (.operative q) σ.world) :=
    hhead.evaluates hlimit (hsees _ hname)
  have hevaluates : ∀ o, Receives cfg (room + 2) (.operative q) (σ.store.tail r) f σ.world o →
      Evaluates cfg (room + 2) (.pair r) f σ.world o := fun o ho =>
    .combination hlimit (.plain (n := 0) rfl (evaluates_ok.mp hoperator)) ho
  exact ⟨x, x₁, x₂, hx, hx₁, hx₂, (Awaits.conditional hlimit h hname hitems hroom).mono
    (fun stop w hw => hevaluates _ hw) fun v τ _ hv b hb => (hv b hb).mono hevaluates⟩

/-- Where the test is known, `^if` goes on with the code of the branch. -/
theorem Holds.branch {b : Bool} (hcode : σ.Holds expr (list ["^if", t, t₁, t₂]))
    (h : σ.Intact root definitions) (hsees : ∀ v, σ.Sees "^if" v root → σ.Sees "^if" v f)
    (htest : ∀ τ, σ.Grown τ → τ.Finds cfg.uncounted n d t f fun v _ => v = .bool b) (hd : d ≤ room)
    (hroom : 1 ≤ room) : ∃ x τ, σ.Grown τ ∧ τ.Holds x (if b then t₁ else t₂) ∧
      ∀ o, Evaluates cfg (room + 2) x f τ.world o → Evaluates cfg (room + 2) expr f σ.world o := by
  obtain ⟨x, x₁, x₂, hx, hx₁, hx₂, hawaits⟩ := Awaits.branch hlimit h hsees hcode hroom
  obtain ⟨_, τ, hτ, hleads, rfl⟩ := hawaits.settled fun τ hτ =>
    (htest τ hτ).ends (hx.onward hτ.onward) hd
  obtain ⟨υ, hυ, hbranch⟩ := hleads b rfl
  refine ⟨_, υ, hτ.trans hυ, ?_, hbranch⟩
  cases b with
  | false => exact hx₂.onward (hτ.trans hυ).onward
  | true => exact hx₁.onward (hτ.trans hυ).onward

end Reducing

section Reading

variable {g : Gauge} {D r : Nat} (hlimit : g.stepLimit = none)
include hlimit

theorem Finds.head (hname : σ.Sees "head" (.applicative label (.primitive (.operation .head))) f)
    (ht : σ.Finds g (n + 1) d t f fun v _ => v = .pair r) (hr : r < σ.store.cells.size)
    (hD : d + 1 ≤ D) : σ.Finds g (n + 2) D (list ["head", t]) f fun v _ => v = σ.store.head r :=
  .reads hlimit hname ht rfl (fun τ hτ _ => by rw [← hτ.grown.head hr]; rfl) hD

theorem Finds.tail (hname : σ.Sees "tail" (.applicative label (.primitive (.operation .tail))) f)
    (ht : σ.Finds g (n + 1) d t f fun v _ => v = .pair r) (hr : r < σ.store.cells.size)
    (hD : d + 1 ≤ D) : σ.Finds g (n + 2) D (list ["tail", t]) f fun v _ => v = σ.store.tail r :=
  .reads hlimit hname ht rfl (fun τ hτ _ => by rw [← hτ.grown.tail hr]; rfl) hD

theorem Finds.null {b : Bool}
    (hname : σ.Sees "null?" (.applicative label (.primitive (.operation (.test .null)))) f)
    (ht : σ.Finds g (n + 1) d t f fun w _ => w = v) (hb : (v == .nil) = b) (hD : d + 1 ≤ D) :
    σ.Finds g (n + 2) D (list ["null?", t]) f fun w _ => w = .bool b :=
  .reads hlimit hname ht rfl (fun τ _ _ => by subst hb; cases v <;> rfl) hD

end Reading

/-- Code that makes a combination and evaluates it goes on with what its combiner receives. -/
theorem Leads.rebuilt (hlimit : cfg.stepLimit = none) {name : String} {label' : Nat}
    (heval : σ.Sees "eval" (.applicative label (.primitive (.operation .eval))) f)
    (hcons : σ.Sees "cons" (.applicative label' (.primitive (.operation .cons))) f)
    (hname : σ.Sees name c f) (henv : σ.Sees "env" (.env e) f) (happlicative : c.isApplicative = false)
    (hpair : c.isPair = false) (hsymbol : c.isSymbol = false)
    (ht : ∀ τ, σ.Adds τ → τ.Finds cfg.uncounted (n + 2) d t f fun w _ => w = v)
    (hcode : σ.Holds expr (list ["eval", list ["cons", name, t], "env"])) (hroom : d + 2 ≤ room) :
    σ.Leads (Receives cfg room c v e) (Evaluates cfg room expr f σ.world) := by
  refine .eval (n := n + 1) (d := d + 1) hlimit heval hcode ?_ hroom
  refine (Finds.cons hlimit hcons (.symbol hlimit hname rfl) ht (Nat.le_refl _)).mono ?_
  rintro _ τ hτ ⟨r, rfl, hr, hhead, htail⟩
  refine .symbol hlimit (henv.onward hτ.grown.onward) ⟨_, _, rfl, fun υ hυ => ?_⟩
  rw [← htail, ← hυ.grown.tail (τ.cell_lt hr)]
  exact .combination hlimit happlicative hpair hsymbol ((hυ.grown.head (τ.cell_lt hr)).trans hhead)
    (by omega)

end Scene

end Vau
