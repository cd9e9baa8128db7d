import Vau.Proofs.Selecting

/-! Conjunction and disjunction. `^and` and `^or` evaluate their operands in turn where they were
called. One value of an operand, false for `^and` and true for `^or`, stops them; the last operand
stands in their own place. Both are written with `$cond`, and differ in two of its clauses. -/

namespace Vau

namespace Library

open Vau.Tree

/-- The operative that the value of an operand stops. -/
def circuit : Bool → Definition
  | false => conjunction
  | true => disjunction

/-- The code by which it goes on with the operands that are left. -/
def again (name : String) : Tree :=
  list ["eval", list ["cons", name, list ["tail", "operands"]], "env"]

/-- The code by which it evaluates the first operand. -/
def firstOperand : Tree := list ["eval", list ["head", "operands"], "env"]

/-- The clauses of its code for an operand that is not the last. -/
def operandClauses (name : String) (stop : Bool) : Tree :=
  list [list [firstOperand, if stop then .leaf (.bool true) else again name],
    list [.leaf (.bool true), if stop then again name else .leaf (.bool false)]]

/-- The clauses of its code. -/
def circuitClauses (name : String) (stop : Bool) : Tree :=
  .node (list [list ["null?", "operands"], .leaf (.bool !stop)])
    (.node (list [list ["null?", list ["tail", "operands"]], firstOperand]) (operandClauses name stop))

theorem circuit_code (stop : Bool) : (circuit stop).code =
    .operative "operands" (.sym "env") (.node "$cond" (circuitClauses (circuit stop).name stop)) := by
  cases stop <;> rfl

end Library

namespace Scene

open Library Vau.Tree

/-- The expressions are evaluated in turn, up to one with the value that stops; the last stands in the
place of them all, and where there is none, the other value does. A failure ends it all. -/
def ShortCircuits (cfg : Settings) (room e : Nat) (stop : Bool) (O : End Value → Prop) :
    List Value → Scene → Prop
  | [], σ => ∃ τ, σ.Grown τ ∧ O (.ok (.bool !stop) τ.world)
  | [expr], σ => σ.Leads (Evaluates cfg (room + 2) expr e) O
  | expr :: next :: exprs, σ => σ.Consults (Evaluates cfg room expr e) O fun v τ =>
    ∀ b, v = .bool b →
      if b = stop then ∃ υ, τ.Grown υ ∧ O (.ok (.bool stop) υ.world)
      else ShortCircuits cfg room e stop O (next :: exprs) τ

variable {σ σ' τ : Scene} {cfg : Settings} {d e f n q r κ room root : Nat} {stop : Bool}
  {t t₁ t₂ : Tree} {v operands : Value} {O : End Value → Prop} {H : Hidden} {x : Extent}

section Clauses

variable (hlimit : cfg.stepLimit = none) (h : σ.Intact root definitions)
  (hcond : σ.Sees "$cond" (.operative κ) root) (hroom : 3 ≤ room)
include hlimit h hcond hroom

/-- `$cond` on the code of clauses waits for the first test, and goes on with the code of the body or
of the clauses that are left. -/
theorem Awaits.clauseCode (hv : σ.Holds v (.node (list [t, t₁]) t₂)) : ∃ test form rest,
    σ.Holds test t ∧ σ.Holds form t₁ ∧ σ.Holds rest t₂ ∧ σ.Awaits (Evaluates cfg room test f)
      (fun stop w => Receives cfg (room + 2) (.operative κ) v f σ.world (.error stop w))
      fun u τ => ∀ b, u = .bool b → τ.Leads
        (if b then Evaluates cfg (room + 2) form f else Receives cfg (room + 2) (.operative κ) rest f)
        (Receives cfg (room + 2) (.operative κ) v f σ.world) := by
  obtain ⟨r, rfl, hr, hclause, hrest⟩ := hv.uncons
  obtain ⟨c, hhead, hc, htest, hbody⟩ := hclause.uncons
  obtain ⟨_, hforms, hheld⟩ := (show σ.Holds _ (list [t₁]) from hbody).carries
  obtain ⟨form, _, hform, hnone, rfl⟩ := List.forall₂_cons_right_iff.mp hheld
  cases hnone
  refine ⟨_, form, _, htest, hform, hrest, ?_⟩
  refine (Awaits.clause hlimit h hcond hroom hr hc hhead).mono (fun _ _ => id) ?_
  intro u τ hτ hu b hb
  refine (hu b hb).trans fun υ hυ => ?_
  cases b with
  | false => exact .refl υ _
  | true =>
    have hitems := (hforms.onward (hτ.trans hυ.onward)).items
    exact ⟨υ, .refl υ, fun o ho => .sequence (hitems.spine? rfl) (.last ho)⟩

/-- Where its test is known, a clause is passed over or its body is gone on with. -/
theorem Holds.clause {b : Bool} (hv : σ.Holds v (.node (list [t, t₁]) t₂))
    (htest : ∀ τ, σ.Grown τ → τ.Finds cfg.uncounted n d t f fun u _ => u = .bool b) (hd : d ≤ room) :
    ∃ form rest τ, σ.Grown τ ∧ τ.Holds form t₁ ∧ τ.Holds rest t₂ ∧ ∀ o,
      (if b then Evaluates cfg (room + 2) form f else Receives cfg (room + 2) (.operative κ) rest f)
        τ.world o → Receives cfg (room + 2) (.operative κ) v f σ.world o := by
  obtain ⟨test, form, rest, ht, hform, hrest, hawaits⟩ :=
    Awaits.clauseCode (f := f) hlimit h hcond hroom hv
  obtain ⟨_, τ, hτ, hleads, rfl⟩ := hawaits.settled fun τ hτ =>
    (htest τ hτ).ends (ht.onward hτ.onward) hd
  obtain ⟨υ, hυ, hgo⟩ := hleads b rfl
  have hon := (hτ.trans hυ).onward
  exact ⟨form, rest, υ, hτ.trans hυ, hform.onward hon, hrest.onward hon, hgo⟩

end Clauses

section Frames

variable (hlimit : cfg.stepLimit = none) (h : σ.Intact root definitions)
  (hscope : σ.Scope f [("env", .env e), ("operands", .pair r)] root) (hr : σ.cell r)
include hlimit h hscope hr

theorem Finds.laterOperands : σ.Finds cfg.uncounted 2 1 (list ["tail", "operands"]) f
    fun v _ => v = σ.store.tail r := by
  obtain ⟨_, htail⟩ := h.wrapped (p := .operation .tail) (by decide) rfl
  exact .tail hlimit (hscope.sees_outer rfl htail) (.symbol hlimit (hscope.sees rfl) rfl)
    (σ.cell_lt hr) (Nat.le_refl 1)

theorem Leads.firstOperand (hexpr : σ.Holds v Library.firstOperand) (hroom : 2 ≤ room) :
    σ.Leads (Evaluates cfg room (σ.store.head r) e) (Evaluates cfg room v f σ.world) := by
  obtain ⟨_, heval⟩ := h.wrapped (p := .operation .eval) (by decide) rfl
  obtain ⟨_, hhead⟩ := h.wrapped (p := .operation .head) (by decide) rfl
  refine .eval (n := 0) (d := 1) hlimit (hscope.sees_outer rfl heval) hexpr ?_ hroom
  refine (Finds.head hlimit (hscope.sees_outer rfl hhead) (.symbol hlimit (hscope.sees rfl) rfl)
    (σ.cell_lt hr) (Nat.le_refl 1)).mono ?_
  rintro _ τ hτ rfl
  exact .symbol hlimit ((hscope.onward hτ.grown.onward).sees rfl) ⟨_, _, rfl, fun υ _ => .refl υ _⟩

theorem Leads.again (hname : σ.Sees (circuit stop).name (.operative q) root)
    (hexpr : σ.Holds v (again (circuit stop).name)) (hroom : 3 ≤ room) :
    σ.Leads (Receives cfg room (.operative q) (σ.store.tail r) e)
      (Evaluates cfg room v f σ.world) := by
  obtain ⟨_, heval⟩ := h.wrapped (p := .operation .eval) (by decide) rfl
  obtain ⟨_, hcons⟩ := h.wrapped (p := .operation .cons) (by decide) rfl
  have hfree : [("env", Value.env e), ("operands", .pair r)].lookup (circuit stop).name = none := by
    cases stop <;> rfl
  refine .rebuilt (n := 0) (d := 1) hlimit (hscope.sees_outer rfl heval) (hscope.sees_outer rfl hcons)
    (hscope.sees_outer hfree hname) (hscope.sees rfl) rfl rfl rfl (fun τ hτ => ?_) hexpr hroom
  have hon := hτ.grown.onward
  rw [← hon.tail hr]
  exact .laterOperands hlimit (h.onward hon) (hscope.onward hon) (hon.cell hr).1

end Frames

section Operands

variable (hlimit : cfg.stepLimit = none) (h : σ.Intact root definitions)
  (hname : σ.Sees (circuit stop).name (.operative q) root) (hroom : 3 ≤ room)
include hlimit h hname hroom

omit hroom in
/-- In a frame of its own the operative goes on with the code of its clauses. -/
theorem enters_circuit (room : Nat) : ∃ f clauses τ, σ.Grown τ ∧
    τ.Scope f [("env", .env e), ("operands", v)] root ∧
    τ.Holds clauses (circuitClauses (circuit stop).name stop) ∧
    ∀ κ, σ.Sees "$cond" (.operative κ) root → ∀ o,
      Receives cfg (room + 2) (.operative κ) clauses f τ.world o →
        Receives cfg (room + 2) (.operative q) v e σ.world o := by
  have hmem : circuit stop ∈ definitions := by cases stop <;> simp [circuit, definitions, parts]
  have hw := h.opened hmem (circuit_code stop) hname
  obtain ⟨form, hform, hbody⟩ := hw.body
  obtain ⟨τ, f, hopen, hτ, hscope⟩ := hw.enters [] h.lt .done rfl rfl e
  obtain ⟨r, rfl, -, hhead, htail⟩ := (hbody.onward hτ.grown.onward).uncons
  refine ⟨f, _, τ, hτ.grown, hscope, htail, fun κ hκ o ho => ?_⟩
  have hoperator : Evaluates cfg (room + 1) (τ.store.head r) f τ.world (.ok (.operative κ) τ.world) :=
    hhead.evaluates hlimit (hscope.sees_outer rfl (hκ.onward hτ.grown.onward))
  exact .operative hopen (hform ▸ .last
    (.combination hlimit (.plain (n := 0) rfl (evaluates_ok.mp hoperator)) ho))

theorem receives_no_operands : ∃ τ, σ.Grown τ ∧
    Receives cfg (room + 2) (.operative q) .nil e σ.world (.ok (.bool !stop) τ.world) := by
  obtain ⟨κ, -, hκ⟩ := h.operative (d := Library.clauses) (by simp [definitions, parts]) rfl
  obtain ⟨f, clauses, τ, hτ, hscope, hclauses, hgo⟩ :=
    enters_circuit (e := e) (v := .nil) hlimit h hname room
  obtain ⟨_, hnull⟩ := (h.onward hτ.onward).wrapped (p := .operation (.test .null)) (by decide) rfl
  obtain ⟨form, _, υ, hυ, hform, -, hgo'⟩ := hclauses.clause (n := 2) (d := 1) (b := true) hlimit
    (h.onward hτ.onward) (hκ.onward hτ.onward) hroom (fun υ hυ => by
      have hscope' := hscope.onward hυ.onward
      exact .null (v := .nil) hlimit (hscope'.sees_outer rfl (hnull.onward hυ.onward))
        (.symbol hlimit (hscope'.sees rfl) rfl) rfl (Nat.le_refl 1)) (by omega)
  refine ⟨υ, hτ.trans hυ, hgo κ hκ _ (hgo' _ ?_)⟩
  cases hform
  exact evaluates_ok.mpr (yields_constant (n := 0) hlimit rfl rfl υ.world)

theorem enters_operands {b : Bool} (hr : σ.cell r) (hlast : (σ.store.tail r == .nil) = b) :
    ∃ f form rest τ, σ.Grown τ ∧ τ.Scope f [("env", .env e), ("operands", .pair r)] root ∧
    τ.Holds form Library.firstOperand ∧ τ.Holds rest (operandClauses (circuit stop).name stop) ∧
    ∀ κ, σ.Sees "$cond" (.operative κ) root → ∀ o,
      (if b then Evaluates cfg (room + 2) form f else Receives cfg (room + 2) (.operative κ) rest f)
        τ.world o → Receives cfg (room + 2) (.operative q) (.pair r) e σ.world o := by
  obtain ⟨κ, -, hκ⟩ := h.operative (d := Library.clauses) (by simp [definitions, parts]) rfl
  obtain ⟨f, clauses, τ, hτ, hscope, hclauses, hgo⟩ :=
    enters_circuit (e := e) (v := .pair r) hlimit h hname room
  obtain ⟨_, hnull⟩ := (h.onward hτ.onward).wrapped (p := .operation (.test .null)) (by decide) rfl
  obtain ⟨_, rest, υ, hυ, -, hrest, hgo₁⟩ := hclauses.clause (n := 2) (d := 1) (b := false) hlimit
    (h.onward hτ.onward) (hκ.onward hτ.onward) hroom (fun υ hυ => by
      have hscope' := hscope.onward hυ.onward
      exact .null (v := .pair r) hlimit (hscope'.sees_outer rfl (hnull.onward hυ.onward))
        (.symbol hlimit (hscope'.sees rfl) rfl) rfl (Nat.le_refl 1)) (by omega)
  have hυ' := hτ.trans hυ
  obtain ⟨form, rest, φ, hφ, hform, hrest, hgo₂⟩ := hrest.clause (n := 3) (d := 2) (b := b) hlimit
    (h.onward hυ'.onward) (hκ.onward hυ'.onward) hroom (fun φ hφ => by
      have hscope' := (hscope.onward hυ.onward).onward hφ.onward
      have hon := (hυ'.trans hφ).onward
      exact .null hlimit (hscope'.sees_outer rfl (hnull.onward (hυ.trans hφ).onward))
        (.laterOperands hlimit (h.onward hon) hscope' (hon.cell hr).1) (hon.tail hr ▸ hlast)
        (Nat.le_refl 2)) (by omega)
  refine ⟨f, form, rest, φ, hυ'.trans hφ, (hscope.onward hυ.onward).onward hφ.onward, hform, hrest,
    fun κ' hκ' o ho => ?_⟩
  cases hκ.unique hκ'
  exact hgo κ hκ o (hgo₁ o (hgo₂ o ho))

theorem Leads.lastOperand (hr : σ.cell r) (hlast : σ.store.tail r = .nil) :
    σ.Leads (Evaluates cfg (room + 2) (σ.store.head r) e)
      (Receives cfg (room + 2) (.operative q) (.pair r) e σ.world) := by
  obtain ⟨κ, -, hκ⟩ := h.operative (d := Library.clauses) (by simp [definitions, parts]) rfl
  obtain ⟨f, form, _, τ, hτ, hscope, hform, -, hgo⟩ :=
    enters_operands (e := e) (b := true) hlimit h hname hroom hr (by rw [hlast]; rfl)
  rw [← hτ.onward.head hr]
  refine .after hτ (.mono ?_ (hgo κ hκ))
  exact .firstOperand hlimit (h.onward hτ.onward) hscope (hτ.onward.cell hr).1 hform (by omega)

/-- An operand that is not the last is waited for; its value stops the operative, or it goes on with
the operands that are left. -/
theorem Awaits.operand (hr : σ.cell r) (hmore : (σ.store.tail r == .nil) = false) :
    σ.Awaits (Evaluates cfg room (σ.store.head r) e)
      (fun error w => Receives cfg (room + 2) (.operative q) (.pair r) e σ.world (.error error w))
      fun v τ => ∀ b, v = .bool b →
        if b = stop then ∃ υ, τ.Grown υ ∧
          Receives cfg (room + 2) (.operative q) (.pair r) e σ.world (.ok (.bool stop) υ.world)
        else τ.Leads (Receives cfg (room + 2) (.operative q) (σ.store.tail r) e)
          (Receives cfg (room + 2) (.operative q) (.pair r) e σ.world) := by
  obtain ⟨κ, -, hκ⟩ := h.operative (d := Library.clauses) (by simp [definitions, parts]) rfl
  obtain ⟨f, _, clauses, τ, hτ, hscope, -, hclauses, hgo⟩ :=
    enters_operands (e := e) hlimit h hname hroom hr hmore
  have h' := h.onward hτ.onward
  have hκ' := hκ.onward hτ.onward
  obtain ⟨test, form, rest, htest, hform, hrest, hawaits⟩ :=
    Awaits.clauseCode (f := f) hlimit h' hκ' hroom hclauses
  have hbefore := hawaits.before (z := Evaluates cfg room (σ.store.head r) e) fun υ hυ => by
    have hon := (hτ.trans hυ).onward
    rw [← hon.head hr]
    exact .firstOperand hlimit (h'.onward hυ.onward) (hscope.onward hυ.onward) (hon.cell hr).1
      (htest.onward hυ.onward) (by omega)
  refine .after hτ (hbefore.mono (fun error w hw => hgo κ hκ _ hw) fun v υ hυ hv b hb => ?_)
  -- the code of the body of the clause, or of the clause that comes after it
  have hbody : ∃ φ expr, υ.Grown φ ∧
      φ.Holds expr (if b = stop then .leaf (.bool stop) else Library.again (circuit stop).name) ∧
      ∀ o, Evaluates cfg (room + 2) expr f φ.world o →
        Receives cfg (room + 2) (.operative q) (.pair r) e σ.world o := by
    obtain ⟨φ, hφ, hgo'⟩ := hv b hb
    have hon := hυ.trans hφ.onward
    cases b with
    | true =>
      refine ⟨φ, form, hφ, ?_, fun o ho => hgo κ hκ o (hgo' o ho)⟩
      cases stop <;> exact hform.onward hon
    | false =>
      obtain ⟨form', _, ψ, hψ, hform', -, hgo''⟩ := (hrest.onward hon).clause (n := 1) (d := 0)
        (b := true) (f := f) hlimit (h'.onward hon) (hκ'.onward hon) hroom
        (fun ψ hψ => .constant hlimit rfl rfl) (Nat.zero_le room)
      refine ⟨ψ, form', hφ.trans hψ, ?_, fun o ho => hgo κ hκ o (hgo' o (hgo'' o ho))⟩
      cases stop <;> exact hform'
  obtain ⟨φ, expr, hφ, hexpr, hgo'⟩ := hbody
  by_cases hstop : b = stop
  · rw [if_pos hstop] at hexpr ⊢
    cases hexpr
    exact ⟨φ, hφ, hgo' _ (evaluates_ok.mpr (yields_constant (n := 0) hlimit rfl rfl φ.world))⟩
  · rw [if_neg hstop] at hexpr ⊢
    have hon := hυ.trans hφ.onward
    have hall := hτ.onward.trans hon
    rw [← hall.tail hr]
    refine .after hφ (.mono ?_ hgo')
    exact .again hlimit (h'.onward hon) (hscope.onward hon) (hall.cell hr).1 (hname.onward hall) hexpr
      (by omega)

end Operands

/-- What the operative does is to evaluate its operands in turn, whatever it holds besides. -/
theorem Covers.shortCircuits (hlimit : cfg.stepLimit = none) (hcfg : cfg.Honest)
    (hσ : σ.Covers H x σ') (h : σ'.Intact root definitions)
    (hname : σ'.Sees (circuit stop).name (.operative q) root) (hroom : 3 ≤ room) {exprs : List Value}
    (hexprs : σ.Carries v exprs) (hv : H.Public x v) (he : H.Public x (.env e))
    (hO : ∀ o, Receives cfg (room + 2) (.operative q) v e σ'.world o → O o) :
    ShortCircuits cfg room e stop O exprs σ := by
  -- on the operands; with each of them the scene and what it is covered by go onward
  induction exprs generalizing σ σ' H x v with
  | nil =>
    cases hexprs
    obtain ⟨τ', hτ', hdone⟩ := receives_no_operands (e := e) hlimit h hname hroom
    obtain ⟨τ, hτ, hworld⟩ := (hσ.grown hτ').scene
    exact ⟨τ, hτ, hworld ▸ hO _ hdone⟩
  | cons expr exprs ih =>
    obtain ⟨r, rfl, hr, rfl, hrest⟩ := hexprs.held
    have hr' := (hσ.onward.cell hr).1
    have hhead := hσ.onward.head hr
    have htail := hσ.onward.tail hr
    cases exprs with
    | nil =>
      have hlast : σ'.store.tail r = .nil := htail.trans hrest.eq_nil
      obtain ⟨τ', hτ', hgo⟩ := Leads.lastOperand (e := e) hlimit h hname hroom hr' hlast
      obtain ⟨τ, hτ, hworld⟩ := (hσ.grown hτ').scene
      exact ⟨τ, hτ, fun o ho => hO o (hgo o (by rwa [hhead, ← hworld]))⟩
    | cons next exprs =>
      obtain ⟨r₁, hr₁, -, -, -⟩ := hrest.held
      have hawaits := Awaits.operand (e := e) hlimit h hname hroom hr' (by rw [htail, hr₁]; rfl)
      rw [hhead, htail] at hawaits
      have hexpr := hσ.public_head hr hv
      have hpublic := hσ.public_tail hr hv
      refine hσ.consults hawaits
        (fun H' x' hmore => unaware_evaluates hcfg (hmore _ he) (hmore _ hexpr))
        (fun error w hw => hO _ hw) fun v υ υ' H' x' hυ hcovers hυ' hmore _ hgoes b hb => ?_
      have hnext := hgoes b hb
      by_cases hstop : b = stop
      · rw [if_pos hstop] at hnext ⊢
        obtain ⟨φ', hφ', hdone⟩ := hnext
        obtain ⟨φ, hφ, hworld⟩ := (hcovers.grown hφ').scene
        exact ⟨φ, hφ, hworld ▸ hO _ hdone⟩
      · rw [if_neg hstop] at hnext ⊢
        obtain ⟨φ', hφ', hgo⟩ := hnext
        have honward := hυ'.trans hφ'.onward
        have hmore' : ∀ u, H.Public x u → (H'.more υ'.store φ'.store).Public (x'.padded φ'.store) u :=
          fun u hu => hcovers.hides.public_more hφ'.larger (hmore u hu)
        exact ih (hcovers.grown hφ') (h.onward honward) (hname.onward honward) (hrest.onward hυ)
          (hmore' _ hpublic) (hmore' _ he) fun o ho => hO o (hgo o ho)

end Scene

open Library Scene

/-- `^and` and `^or` evaluate their operands in turn where they are called, up to one that stops
them. -/
theorem Library.short_circuits {cfg : Settings} {σ : Scene} {x : Extent} {root e r room : Nat}
    {exprs : List Value} (hlimit : cfg.stepLimit = none) (hcfg : cfg.Honest)
    (hσ : σ.Intact root definitions) (hsound : σ.store.Sound x) (hroom : 3 ≤ room)
    (hexprs : σ.Carries (σ.store.tail r) exprs) :
    (σ.store.Invocation root e r "^and" →
      ShortCircuits cfg room e false (Evaluates cfg (room + 2) (.pair r) e σ.world) exprs σ) ∧
    (σ.store.Invocation root e r "^or" →
      ShortCircuits cfg room e true (Evaluates cfg (room + 2) (.pair r) e σ.world) exprs σ) := by
  have hcircuit (stop : Bool) (hr : σ.store.Invocation root e r (circuit stop).name) :
      ShortCircuits cfg room e stop (Evaluates cfg (room + 2) (.pair r) e σ.world) exprs σ := by
    have hmem : circuit stop ∈ definitions := by cases stop <;> simp [circuit, definitions, parts]
    obtain ⟨q, -, hname⟩ := hσ.operative hmem (circuit_code stop)
    have he : Hidden.none.Public x (.env e) :=
      Hidden.public_env.mpr ⟨id, hsound.frames_size ▸ hr.env⟩
    exact (Covers.refl hsound (Nat.zero_lt_of_lt (hsound.frames_size ▸ hr.env))).shortCircuits hlimit
      hcfg hσ hname hroom hexprs ⟨.none _, hsound.tail r⟩ he fun o ho => hr.evaluates hlimit hname ho
  exact ⟨hcircuit false, hcircuit true⟩

/-- In a new session `(^and #f nowhere)` comes to false, and `nowhere` is not looked up. -/
theorem Library.short_circuits_false : ∃ (s : Session) (σ : Scene) (r : Nat),
    Session.start .empty none true [] = .ok s ∧ s.machine.store.Extends σ.store ∧
    σ.Carries (.pair r) [.sym "^and", .bool false, .sym "nowhere"] ∧ ∀ room, 3 ≤ room →
      ∃ w, Evaluates s.settings (room + 2) (.pair r) s.root σ.world (.ok (.bool false) w) := by
  obtain ⟨s, σ₀, x₀, hstart, hworld, hlimit, hcfg, hσ, hs₀⟩ := Session.start_ready
  obtain ⟨q, -, hname⟩ := hσ.operative (d := conjunction) (by simp [definitions, parts]) rfl
  obtain ⟨σ, x, r, hgrown, hs, hexpr, hrest, hinvocation⟩ := Scene.exists_invocation hs₀ hname
    (show ∀ v ∈ [Value.bool false, .sym "nowhere"], v.In x₀ by simp [Value.In])
  refine ⟨s, σ, r, hstart, ?_, hexpr, fun room hroom => ?_⟩
  · rw [Machine.store, hworld]
    exact hgrown.larger
  obtain ⟨τ, hτ, -, hfirst⟩ := (Library.short_circuits hlimit hcfg (hσ.onward hgrown.onward) hs hroom
    hrest).1 hinvocation
  obtain ⟨υ, -, hdone⟩ :=
    hfirst _ τ hτ.onward (Store.Denotes.evaluates (.constant rfl rfl) hlimit) false rfl
  exact ⟨υ.world, hdone⟩

end Vau
