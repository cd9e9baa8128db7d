import Vau.Proofs.Consulting

/-! Selection. The `$cond` of the prelude evaluates the tests of its clauses where it was called, up to
the first that is true, and then the body of that clause; `^if` evaluates its test and one of its
branches. Both are prelude code, which the tests and the bodies do not see. -/

namespace Vau

/-- A clause of `$cond`: its test and the list of the forms of its body. -/
structure Clause where
  test : Value
  body : Value

namespace Scene

open Library Vau.Tree

/-- A proper list of clauses, the pairs of which are held. -/
inductive Listed (σ : Scene) : Value → List Clause → Prop
  | nil : Listed σ .nil []
  | cons {r c : Nat} {cs : List Clause} (hr : σ.cell r) (hc : σ.cell c)
    (hhead : σ.store.head r = .pair c) (hrest : Listed σ (σ.store.tail r) cs) :
    Listed σ (.pair r) (⟨σ.store.head c, σ.store.tail c⟩ :: cs)

/-- The tests are evaluated in turn up to the first that is true, and then the forms of its clause;
where there is none, the value is inert. A test that fails ends it all. -/
def Selects (cfg : Settings) (room e : Nat) (O : End Value → Prop) : List Clause → Scene → Prop
  | [], σ => ∃ τ, σ.Grown τ ∧ O (.ok .inert τ.world)
  | c :: cs, σ => σ.Consults (Evaluates cfg room c.test e) O fun v τ => ∀ b, v = .bool b →
    if b then
      ∀ forms, τ.store.Items .nil c.body forms → τ.Leads (Sequence cfg (room + 1) e forms) O
    else Selects cfg room e O cs τ

variable {σ σ' τ : Scene} {cfg : Settings} {c d e f p q r room root : Nat} {cs : List Clause}
  {test body rest v : Value} {O : End Value → Prop} {H : Hidden} {x : Extent}

theorem Listed.onward (h : σ.Listed v cs) (hτ : σ.Onward τ) : τ.Listed v cs := by
  induction h with
  | nil => exact .nil
  | @cons r c cs hr hc hhead _ ih =>
    obtain ⟨hr', hsame⟩ := hτ.cell hr
    obtain ⟨hc', hsame'⟩ := hτ.cell hc
    have hhead' : τ.store.head r = .pair c := (congrArg Cell.head hsame).trans hhead
    have hrest : τ.Listed (τ.store.tail r) cs := by rwa [Store.tail, hsame]
    have hclause := Listed.cons hr' hc' hhead' hrest
    rwa [Store.head, Store.tail, hsame'] at hclause

section Clauses

variable (hlimit : cfg.stepLimit = none) (h : σ.Intact root definitions)
  (hname : σ.Sees "$cond" (.operative q) root) (hroom : 3 ≤ room)
include hlimit h hname hroom

/-- In a frame of its own `$cond` goes on with the code for clauses that are left, or for none. -/
theorem enters_clauses {b : Bool} (hp : (v == .nil) = b) : ∃ f expr τ, σ.Grown τ ∧
    τ.Scope f [("env", .env e), ("clauses", v)] root ∧
    τ.Holds expr (if b then .leaf .inert else list ["^if",
      list ["eval", list ["head", list ["head", "clauses"]], "env"],
      list ["eval", list ["cons", "$sequence", list ["tail", list ["head", "clauses"]]], "env"],
      list ["eval", list ["cons", "$cond", list ["tail", "clauses"]], "env"]]) ∧
    ∀ o, Evaluates cfg (room + 2) expr f τ.world o →
      Receives cfg (room + 2) (.operative q) v e σ.world o := by
  have hw := h.opened (d := Library.clauses) (by simp [definitions, parts]) rfl hname
  obtain ⟨form, hform, hbody⟩ := hw.body
  obtain ⟨τ, f, hopen, hτ, hscope⟩ := hw.enters [] h.lt .done rfl rfl e
  have h' := h.onward hτ.grown.onward
  obtain ⟨_, hnull⟩ := h'.wrapped (p := .operation (.test .null)) (by decide) rfl
  have hempty : ∀ υ, τ.Grown υ →
      υ.Finds cfg.uncounted 2 1 (list ["null?", "clauses"]) f fun w _ => w = .bool b := by
    intro υ hυ
    have hscope' := hscope.onward hυ.onward
    exact .null hlimit (hscope'.sees_outer rfl (hnull.onward hυ.onward))
      (.symbol hlimit (hscope'.sees rfl) rfl) hp (Nat.le_refl 1)
  obtain ⟨expr, υ, hυ, hexpr, hgo⟩ := (hbody.onward hτ.grown.onward).branch hlimit h'
    (fun v hv => hscope.sees_outer rfl hv) hempty (show 1 ≤ room by omega) (by omega)
  exact ⟨f, expr, υ, hτ.grown.trans hυ, hscope.onward hυ.onward, hexpr, fun o ho =>
    .operative hopen (hform ▸ .last (hgo o ho))⟩

theorem receives_no_clauses : ∃ τ, σ.Grown τ ∧
    Receives cfg (room + 2) (.operative q) .nil e σ.world (.ok .inert τ.world) := by
  obtain ⟨f, expr, τ, hτ, -, hexpr, hgo⟩ := enters_clauses hlimit h hname hroom (v := .nil) rfl
  refine ⟨τ, hτ, hgo _ ?_⟩
  cases hexpr
  exact evaluates_ok.mpr (yields_constant (n := 0) hlimit rfl rfl τ.world)

/-- `$cond` waits for the test of its first clause, and goes on with its body or with the clauses that
are left. -/
theorem Awaits.clause (hr : σ.cell r) (hc : σ.cell c) (hhead : σ.store.head r = .pair c) :
    σ.Awaits (Evaluates cfg room (σ.store.head c) e)
      (fun stop w => Receives cfg (room + 2) (.operative q) (.pair r) e σ.world (.error stop w))
      fun v τ => ∀ b, v = .bool b → τ.Leads
        (if b then Receives cfg (room + 2) (.primitive (.form .sequence)) (σ.store.tail c) e
          else Receives cfg (room + 2) (.operative q) (σ.store.tail r) e)
        (Receives cfg (room + 2) (.operative q) (.pair r) e σ.world) := by
  obtain ⟨_, heval⟩ := h.wrapped (p := .operation .eval) (by decide) rfl
  obtain ⟨_, hcons⟩ := h.wrapped (p := .operation .cons) (by decide) rfl
  obtain ⟨_, hfirst⟩ := h.wrapped (p := .operation .head) (by decide) rfl
  obtain ⟨_, hrest⟩ := h.wrapped (p := .operation .tail) (by decide) rfl
  have hsequence := h.unwrapped (p := .form .sequence) (by decide) rfl
  obtain ⟨f, expr, τ, hτ, hscope, hexpr, hgo⟩ :=
    enters_clauses (e := e) hlimit h hname hroom (v := .pair r) rfl
  -- what the frame of `$cond` sees from now on
  have hroot {name : String} {v : Value} {υ : Scene} (hv : σ.Sees name v root) (hυ : τ.Onward υ)
      (hfree : [("env", Value.env e), ("clauses", .pair r)].lookup name = none) :
      υ.Sees name v f := (hscope.sees_outer hfree (hv.onward hτ.onward)).onward hυ
  have hclause {υ : Scene} (hυ : τ.Onward υ) : υ.Finds cfg.uncounted 2 1 (list ["head", "clauses"]) f
      fun v _ => v = .pair c := by
    have hon := hτ.onward.trans hυ
    exact ((hon.head hr).trans hhead) ▸ .head hlimit (hroot hfirst hυ rfl)
      (.symbol hlimit ((hscope.onward hυ).sees rfl) rfl) (υ.cell_lt (hon.cell hr).1) (Nat.le_refl 1)
  obtain ⟨test, x₁, x₂, htest, hx₁, hx₂, hawaits⟩ := Awaits.branch hlimit
    (h.onward hτ.onward) (fun v hv => hscope.sees_outer rfl hv) hexpr (show 1 ≤ room by omega)
  have htested := hawaits.before (z := Evaluates cfg room (σ.store.head c) e) fun υ hυ => by
    have hon := (hτ.trans hυ).onward
    refine .eval (n := 1) (d := 2) hlimit (hroot heval hυ.onward rfl) (htest.onward hυ.onward) ?_ hroom
    refine (Finds.head hlimit (hroot hfirst hυ.onward rfl) (hclause hυ.onward)
      (υ.cell_lt (hon.cell hc).1) (Nat.le_refl 2)).mono ?_
    rintro _ φ hφ rfl
    refine .symbol hlimit ((hscope.onward (hυ.onward.trans hφ.grown.onward)).sees rfl)
      ⟨_, _, rfl, fun ψ hψ => ?_⟩
    rw [hon.head hc]
    exact .refl ψ _
  refine .after hτ (htested.mono (fun stop w hw => hgo _ hw) fun v υ hυ hv b hb => ?_)
  refine ((hv b hb).mono hgo).trans fun φ hφ => ?_
  have hφ' := hυ.trans hφ.onward
  have hscope' := hscope.onward hφ'
  cases b with
  | false =>
    refine .rebuilt (n := 0) (d := 1) hlimit (hroot heval hφ' rfl) (hroot hcons hφ' rfl)
      (hroot hname hφ' rfl) (hscope'.sees rfl) rfl rfl rfl (fun ψ hψ => ?_) (hx₂.onward hφ')
      (by omega)
    have hψ' := hφ'.trans hψ.grown.onward
    have hon := hτ.onward.trans hψ'
    rw [← hon.tail hr]
    exact .tail hlimit (hroot hrest hψ' rfl) (.symbol hlimit ((hscope.onward hψ').sees rfl) rfl)
      (ψ.cell_lt (hon.cell hr).1) (Nat.le_refl 1)
  | true =>
    refine .rebuilt (n := 1) (d := 2) hlimit (hroot heval hφ' rfl) (hroot hcons hφ' rfl)
      (hroot hsequence hφ' rfl) (hscope'.sees rfl) rfl rfl rfl (fun ψ hψ => ?_) (hx₁.onward hφ')
      (by omega)
    have hψ' := hφ'.trans hψ.grown.onward
    have hon := hτ.onward.trans hψ'
    rw [← hon.tail hc]
    exact .tail hlimit (hroot hrest hψ' rfl) (hclause hψ') (ψ.cell_lt (hon.cell hc).1) (Nat.le_refl 2)

end Clauses

/-- What `$cond` does is to select, whatever it holds besides. -/
theorem Covers.selects (hlimit : cfg.stepLimit = none) (hcfg : cfg.Honest)
    (hσ : σ.Covers H x σ') (h : σ'.Intact root definitions)
    (hname : σ'.Sees "$cond" (.operative q) root) (hroom : 3 ≤ room) (hcs : σ.Listed v cs)
    (hv : H.Public x v) (he : H.Public x (.env e))
    (hO : ∀ o, Receives cfg (room + 2) (.operative q) v e σ'.world o → O o) :
    Selects cfg room e O cs σ := by
  -- on the clauses; with each test the scene and what it is covered by go onward
  induction cs generalizing σ σ' H x v with
  | nil =>
    cases hcs
    obtain ⟨τ', hτ', hdone⟩ := receives_no_clauses (e := e) hlimit h hname hroom
    obtain ⟨τ, hτ, hworld⟩ := (hσ.grown hτ').scene
    exact ⟨τ, hτ, hworld ▸ hO _ hdone⟩
  | cons clause cs ih =>
    obtain _ | @⟨r, c, _, hr, hc, hhead, hrest⟩ := hcs
    have hon := hσ.onward
    have hhead' : σ'.store.head r = .pair c := (hon.head hr).trans hhead
    have hpair : H.Public x (.pair c) := hhead ▸ hσ.public_head hr hv
    have htest := hσ.public_head hc hpair
    have htail := hσ.public_tail hr hv
    have hawaits :=
      Awaits.clause (e := e) hlimit h hname hroom (hon.cell hr).1 (hon.cell hc).1 hhead'
    rw [hon.head hc, hon.tail hc, hon.tail hr] at hawaits
    refine hσ.consults hawaits (fun H' x' hmore => unaware_evaluates hcfg (hmore _ he) (hmore _ htest))
      (fun stop w hw => hO _ hw) fun v υ υ' H' x' hυ hcovers hυ' hmore _ hleads b hb => ?_
    obtain ⟨φ', hφ', hgo⟩ := hleads b hb
    cases b with
    | true =>
      intro forms hforms
      obtain ⟨φ, hφ, hworld⟩ := (hcovers.grown hφ').scene
      refine ⟨φ, hφ, fun o ho => hO o (hgo o ?_)⟩
      have hitems := (hforms.larger hcovers.larger).larger hφ'.larger
      exact .sequence (hitems.spine? rfl) (hworld ▸ ho)
    | false =>
      have honward := hυ'.trans hφ'.onward
      have hpublic : ∀ u, H.Public x u → (H'.more υ'.store φ'.store).Public (x'.padded φ'.store) u :=
        fun u hu => hcovers.hides.public_more hφ'.larger (hmore u hu)
      exact ih (hcovers.grown hφ') (h.onward honward) (hname.onward honward) (hrest.onward hυ)
        (hpublic _ htail) (hpublic _ he) fun o ho => hO o (hgo o ho)

end Scene

open Library Scene

/-- `$cond` and `^if` evaluate what they select where they are called, and nothing else. -/
theorem Library.selection {cfg : Settings} {σ : Scene} {x : Extent} {root e room : Nat}
    (hlimit : cfg.stepLimit = none) (hcfg : cfg.Honest) (hσ : σ.Intact root definitions)
    (hsound : σ.store.Sound x) (hroom : 3 ≤ room) :
    (∀ {r : Nat} {cs : List Clause}, σ.store.Invocation root e r "$cond" →
      σ.Listed (σ.store.tail r) cs →
      Selects cfg room e (Evaluates cfg (room + 2) (.pair r) e σ.world) cs σ) ∧
    ∀ {r : Nat} {t x₁ x₂ : Value}, σ.store.Invocation root e r "^if" →
      σ.store.Items .nil (σ.store.tail r) [t, x₁, x₂] →
      σ.Consults (Evaluates cfg room t e) (Evaluates cfg (room + 2) (.pair r) e σ.world)
        fun v τ => ∀ b, v = .bool b → τ.Leads (Evaluates cfg (room + 2) (if b then x₁ else x₂) e)
          (Evaluates cfg (room + 2) (.pair r) e σ.world) := by
  constructor
  · intro r cs hr hcs
    obtain ⟨q, -, hname⟩ := hσ.operative (d := Library.clauses) (by simp [definitions, parts]) rfl
    have he : Hidden.none.Public x (.env e) :=
      Hidden.public_env.mpr ⟨id, hsound.frames_size ▸ hr.env⟩
    exact (Covers.refl hsound (Nat.zero_lt_of_lt (hsound.frames_size ▸ hr.env))).selects hlimit hcfg hσ
      hname hroom hcs ⟨.none _, hsound.tail r⟩ he fun o ho => hr.evaluates hlimit hname ho
  · intro r t x₁ x₂ hr hitems
    obtain ⟨q, -, hname⟩ :=
      hσ.operative (d := Library.conditional) (by simp [definitions, parts]) rfl
    have he : Hidden.none.Public x (.env e) :=
      Hidden.public_env.mpr ⟨id, hsound.frames_size ▸ hr.env⟩
    have ht : Hidden.none.Public x t := ⟨.none _, hitems.all_in hsound t List.mem_cons_self⟩
    refine (Covers.refl hsound (Nat.zero_lt_of_lt (hsound.frames_size ▸ hr.env))).consults
      (Awaits.conditional (e := e) hlimit hσ hname hitems (by omega))
      (fun H' x' hmore => unaware_evaluates hcfg (hmore _ he) (hmore _ ht))
      (fun stop w hw => hr.evaluates hlimit hname hw) fun v υ υ' H' x' _ hcovers _ _ _ hleads b hb => ?_
    obtain ⟨φ', hφ', hgo⟩ := hleads b hb
    obtain ⟨φ, hφ, hworld⟩ := (hcovers.grown hφ').scene
    exact ⟨φ, hφ, fun o ho => hr.evaluates hlimit hname (hgo o (hworld ▸ ho))⟩

/-- A list of held clauses is a list of clauses. -/
theorem Scene.Carries.listed {σ : Scene} {v : Value} {vs : List Value} {cs : List Clause}
    (h : σ.Carries v vs) (hcs : List.Forall₂ (fun u c => ∃ k, u = .pair k ∧ σ.cell k ∧
      σ.store.head k = c.test ∧ σ.store.tail k = c.body) vs cs) : σ.Listed v cs := by
  induction h generalizing cs with
  | nil =>
    cases hcs
    exact .nil
  | pair hr _ ih =>
    obtain _ | ⟨⟨k, hk, hheld, htest, hbody⟩, hcs⟩ := hcs
    have hclause := Listed.cons hr hheld hk (ih hcs)
    rwa [htest, hbody] at hclause

/-- In a new session `($cond (#f nowhere) (#t 5))` comes to 5, and `nowhere` is not looked up. -/
theorem Library.selection_second : ∃ (s : Session) (σ : Scene) (r : Nat) (c₁ c₂ : Value),
    Session.start .empty none true [] = .ok s ∧ s.machine.store.Extends σ.store ∧
    σ.Carries c₁ [.bool false, .sym "nowhere"] ∧ σ.Carries c₂ [.bool true, .int 5] ∧
    σ.Carries (.pair r) [.sym "$cond", c₁, c₂] ∧ ∀ room, 3 ≤ room →
      ∃ w, Evaluates s.settings (room + 2) (.pair r) s.root σ.world (.ok (.int 5) w) := by
  obtain ⟨s, σ₀, x₀, hstart, hworld, hlimit, hcfg, hσ, hs₀⟩ := Session.start_ready
  have hclauses : ∀ vs ∈ [[Value.bool false, .sym "nowhere"], [.bool true, .int 5]], ∀ v ∈ vs,
      v.In x₀ := by simp [Value.In]
  obtain ⟨σ₁, x₁, us, hgrown₁, -, hs₁, hin, hcarries⟩ := Scene.exists_lists (σ := σ₀) hs₀ hclauses
  obtain _ | @⟨c₁, _, _, _, hc₁, _ | @⟨c₂, _, _, _, hc₂, hnil⟩⟩ := hcarries
  cases hnil
  obtain ⟨q, -, hname⟩ := hσ.operative (d := Library.clauses) (by simp [definitions, parts]) rfl
  obtain ⟨σ, x, r, hgrown₂, hs, hexpr, hrest, hinvocation⟩ :=
    Scene.exists_invocation (σ := σ₁) hs₁ (hname.onward hgrown₁.onward) hin
  have hgrown := hgrown₁.trans hgrown₂
  have hintact := hσ.onward hgrown.onward
  have hc₁' := hc₁.onward hgrown₂.onward
  have hc₂' := hc₂.onward hgrown₂.onward
  obtain ⟨k₁, rfl, hk₁, htest₁, -⟩ := hc₁'.held
  obtain ⟨k₂, rfl, hk₂, htest₂, hbody₂⟩ := hc₂'.held
  refine ⟨s, σ, r, .pair k₁, .pair k₂, hstart, ?_, hc₁', hc₂', hexpr, fun room hroom => ?_⟩
  · rw [Machine.store, hworld]
    exact hgrown.larger
  have hlisted : σ.Listed (σ.store.tail r)
      [⟨.bool false, σ.store.tail k₁⟩, ⟨.bool true, σ.store.tail k₂⟩] :=
    hrest.listed (.cons ⟨k₁, rfl, hk₁, htest₁, rfl⟩ (.cons ⟨k₂, rfl, hk₂, htest₂, rfl⟩ .nil))
  have hconstant (v : Value) (room : Nat) (w : World) (hpair : v.isPair = false)
      (hsymbol : v.isSymbol = false) : Evaluates s.settings room v s.root w (.ok v w) :=
    Store.Denotes.evaluates (.constant hpair hsymbol) hlimit
  obtain ⟨τ, hτ, -, hfirst⟩ := (Library.selection hlimit hcfg hintact hs hroom).1 hinvocation hlisted
  obtain ⟨υ, hυ, -, hsecond⟩ := hfirst _ τ hτ.onward (hconstant _ _ _ rfl rfl) false rfl
  obtain ⟨φ, hφ, hgo⟩ := hsecond _ υ hυ.onward (hconstant _ _ _ rfl rfl) true rfl [.int 5]
    ((hbody₂.onward (hτ.trans hυ).onward).items)
  exact ⟨φ.world, hgo _ (.last (hconstant _ _ _ rfl rfl))⟩

end Vau
