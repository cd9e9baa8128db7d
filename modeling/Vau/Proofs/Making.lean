import Vau.Proofs.Passing
import Vau.Proofs.Traversal

/-! What makes procedures of code that is not held. The formals and the body that `$lambda` is given
may be any values; what it does with them is to call `$vau` and to wrap what that comes to. -/

namespace Vau

open Library Vau.Tree

/-- Where a call of `$vau` in `e`, with the formals, no environment parameter and the forms, ends. -/
def Makes (cfg : Settings) (room e : Nat) (formals : Value) (forms : List Value) : Scene.Activity :=
  fun w o => ∀ operands, w.store.Items .nil operands (formals :: .ignore :: forms) →
    Receives cfg room (.primitive (.operation .vau)) operands e w o

section Vau

variable {cfg : Settings} {room e : Nat} {formals : Value} {forms : List Value} {w : World}

theorem makes_operative {names : List String} (hnames : w.store.formalNames formals = .ok names) :
    Makes cfg room e formals forms w (.ok (.operative w.store.operatives.size)
      ⟨(w.store.newOperative ⟨e, formals, .ignore, forms, none⟩).2, w.effects⟩) := by
  intro operands hitems
  refine receives_ok (n := 0) |>.mpr (calls_operation (hitems.spine? rfl) rfl ?_)
  simp only [Operation.perform, Operation.value, Bind.bind, EStateM.bind, Deed.tries, hnames]
  rfl

theorem makes_nothing {stop : Stop} (hnames : w.store.formalNames formals = .error stop) :
    Makes cfg room e formals forms w (.error stop w) := by
  intro operands hitems
  refine .operation_failed (hitems.spine? rfl) rfl ?_
  simp only [Operation.perform, Operation.value, Bind.bind, EStateM.bind, Deed.tries, hnames]

end Vau

theorem Store.Items.uncons {s : Store} {last v u : Value} {us : List Value}
    (h : s.Items last v (u :: us)) : ∃ r, v = .pair r ∧ r < s.cells.size ∧ s.head r = u ∧
      s.Items last (s.tail r) us := by
  cases h with
  | pair hr htail => exact ⟨_, rfl, hr, rfl, htail⟩

theorem Store.Items.eq_last {s : Store} {last v : Value} (h : s.Items last v []) : v = last := by
  cases h
  rfl

namespace Scene

variable {σ τ : Scene} {n d D e p q room root label : Nat}
  {a v body formals operands : Value} {forms us vs : List Value} {items : List Item}

section Collecting

variable {cfg : Gauge} {c : Value} {Q : List Value → Scene → Prop}

/-- The combiner, called with the item, comes to the value and changes nothing. -/
def Turns (σ : Scene) (cfg : Gauge) (n d : Nat) (c : Value) (item : Item) (u : Value) : Prop :=
  ∀ τ, σ.Grown τ → ∀ e,
    τ.Invoked cfg n d c [item.read τ.store] e fun v υ => τ.Grown υ ∧ v = u

theorem serves_turns (h : List.Forall₂ (σ.Turns cfg n d c) items us)
    (hQ : ∀ τ, σ.Grown τ → Q (us.reverse ++ vs) τ) :
    Serves cfg n d c .each items vs Q σ := by
  induction items generalizing σ us vs with
  | nil =>
    cases h
    exact hQ
  | cons item items ih =>
    obtain _ | @⟨_, u, _, us, hitem, hrest⟩ := h
    refine fun e => (hitem σ (.refl σ) e).mono ?_
    rintro _ τ - ⟨hτ, rfl⟩
    refine ⟨_, rfl, ih (hrest.imp fun _ _ hi υ hυ => hi υ (hτ.trans hυ)) fun υ hυ => ?_⟩
    have hdone := hQ υ (hτ.trans hυ)
    rwa [List.reverse_cons, List.append_assoc] at hdone

theorem turns_head {r : Nat} {last : Value} (hr : r < σ.store.cells.size)
    (hv : σ.store.Items last (σ.store.head r) (v :: vs)) :
    σ.Turns cfg n d (.primitive (.operation .head)) (.head r) v := by
  obtain ⟨k, hk, hlt, rfl, -⟩ := hv.uncons
  intro τ hτ e
  rw [show Item.read τ.store (.head r) = .pair k from (hτ.head hr).trans hk]
  exact .head (Nat.lt_of_lt_of_le hlt hτ.larger.cells) fun υ hυ => ⟨hυ, hτ.head hlt⟩

end Collecting

section Since

/-- The scene in which just those pairs are held that the store did not have. -/
def since (σ : Scene) (s : Store) : Scene where
  world := σ.world
  cell r := s.cells.size ≤ r ∧ r < σ.store.cells.size
  spine _ := False
  binding _ _ := False
  cell_lt h := h.2
  spine_lt h := h.elim
  frame_lt h := h.elim

variable {s : Store}

theorem Grown.since (h : σ.Grown τ) (s : Store) : (σ.since s).Onward (τ.since s) where
  evolves := h.larger.evolves
  cells := h.larger.cells
  cell hr := ⟨⟨hr.1, Nat.lt_of_lt_of_le hr.2 h.larger.cells⟩, h.larger.cell _ hr.2⟩
  spine h := h.elim
  binding h := h.elim

theorem gathers_since (σ : Scene) : σ.Gathers fun v vs τ => (τ.since σ.store).Carries v vs where
  nil _ _ := .nil
  grown hv hτ := hv.onward (hτ.since _)
  cons {τ υ v vs r} hσ hv hυ hr hnew htail := by
    have hrest : (υ.since σ.store).Carries (υ.store.tail r) vs := htail ▸ hv.onward (hυ.since _)
    exact .pair (σ := υ.since σ.store) ⟨Nat.le_trans hσ.cells hnew, υ.cell_lt hr⟩ hrest

end Since

section Rebuilding

/-- Code that makes other code and evaluates it where it was called goes on with what it has made. -/
theorem Holds.rebuilds {cfg : Settings} {e f : Nat} {t : Tree} {expr : Value}
    {P : Value → Scene → Prop} (hcode : σ.Holds expr (list ["eval", t, "env"]))
    (hlimit : cfg.stepLimit = none)
    (heval : σ.Sees "eval" (.applicative label (.primitive (.operation .eval))) f)
    (henv : σ.Sees "env" (.env e) f) (hP : ∀ {v τ υ}, P v τ → τ.Grown υ → P v υ)
    (h : σ.Runs cfg.uncounted (n + 2) d t f fun v τ => σ.Grown τ ∧ P v τ) (hroom : d + 1 ≤ room) :
    ∃ code τ, σ.Grown τ ∧ P code τ ∧
      ∀ o, Evaluates cfg room code e τ.world o → Evaluates cfg room expr f σ.world o := by
  have hruns : RunsAll cfg.uncounted (n + 2) d f [t, "env"]
      (fun us τ => σ.Grown τ ∧ ∃ code, us = [code, .env e] ∧ P code τ) σ := by
    refine h.mono ?_
    rintro code τ - ⟨hτ, hcode⟩
    exact .symbol hlimit (henv.onward hτ.onward) fun υ hυ => ⟨hτ.trans hυ, code, rfl, hP hcode hυ⟩
  obtain ⟨_, τ, υ, operands, hτ, ⟨code, rfl, hcode'⟩, hυ, hitems, hgo⟩ :=
    hcode.receives (n := n + 1) hlimit heval rfl hruns (by simp) hroom
  exact ⟨code, υ, hτ.trans hυ, hP hcode' hυ, fun o ho => hgo o (.eval (hitems.spine? rfl) rfl ho)⟩

end Rebuilding

section Lambda

section Code

variable {cfg : Gauge} {f : Nat} (hlimit : cfg.stepLimit = none)
  (hcons : σ.Sees "cons" (.applicative label (.primitive (.operation .cons))) f)
include hlimit hcons

theorem Runs.before {t₁ t₂ : Tree} {u last : Value} (hd : d + 1 ≤ D)
    (h₁ : σ.Runs cfg (n + 2) d t₁ f fun v τ => σ.Grown τ ∧ v = u)
    (h₂ : ∀ τ, σ.Grown τ → τ.Runs cfg (n + 2) d t₂ f fun v υ => τ.Grown υ ∧
      υ.store.Items last v vs) :
    σ.Runs cfg (n + 3) D (list ["cons", t₁, t₂]) f fun v τ => σ.Grown τ ∧
      τ.store.Items last v (u :: vs) := by
  refine (Runs.pair hlimit hcons hd (X := fun v _ => v = u) (fun hv _ => hv)
    (fun hv hτ => hv.larger hτ.larger) h₁ h₂).mono ?_
  rintro _ τ - ⟨hτ, r, rfl, hr, rfl, htail⟩
  exact ⟨hτ, .pair (τ.cell_lt hr) htail⟩

/-- The code in `$lambda` that makes the call of `$vau`. -/
theorem Runs.call (hvau : σ.Sees "$vau" (.primitive (.operation .vau)) f)
    (hscope : σ.Scope f [("env", .env e), ("formals", formals), ("body", body)] root)
    (hbody : σ.store.Items .nil body forms) :
    σ.Runs cfg 6 4 (list ["cons", "$vau", list ["cons", "formals",
      list ["cons", .leaf .ignore, "body"]]]) f fun v τ => σ.Grown τ ∧ τ.store.Items .nil v
        (.primitive (.operation .vau) :: formals :: .ignore :: forms) := by
  refine .before (n := 3) (d := 3) hlimit hcons (Nat.le_refl _)
    (.symbol hlimit hvau fun _ hτ => ⟨hτ, rfl⟩) fun τ hτ => ?_
  refine .before (n := 2) (d := 2) hlimit (hcons.onward hτ.onward) (Nat.le_refl _)
    (.symbol hlimit ((hscope.onward hτ.onward).sees rfl) fun _ hυ => ⟨hυ, rfl⟩) fun υ hυ => ?_
  have hυ' := hτ.trans hυ
  refine .before (n := 1) (d := 1) hlimit (hcons.onward hυ'.onward) (Nat.le_refl _)
    (.constant hlimit rfl rfl fun _ hφ => ⟨hφ, rfl⟩) fun φ hφ => ?_
  have hφ' := hυ'.trans hφ
  exact .symbol hlimit ((hscope.onward hφ'.onward).sees rfl) fun ψ hψ =>
    ⟨hψ, hbody.larger (hφ'.trans hψ).larger⟩

end Code

variable {cfg : Settings} (hlimit : cfg.stepLimit = none) (h : σ.Intact root definitions)
include hlimit h

/-- `$lambda` waits for what `$vau` makes of the formals and the forms, and wraps it. -/
theorem Awaits.lambda (hname : σ.Sees "$lambda" (.operative q) root)
    (hformals : σ.store.Items body operands [formals]) (hbody : σ.store.Items .nil body forms)
    (hroom : 5 ≤ room) (e : Nat) : σ.Awaits (Makes cfg room e formals forms)
      (fun stop w => Receives cfg (room + 1) (.operative q) operands e σ.world (.error stop w))
      fun v τ => v.isCombiner = true → ∃ l φ, τ.Grown φ ∧
        Receives cfg (room + 1) (.operative q) operands e σ.world (.ok (.applicative l v) φ.world) := by
  obtain ⟨_, heval⟩ := h.wrapped (p := .operation .eval) (by decide) rfl
  obtain ⟨_, hcons⟩ := h.wrapped (p := .operation .cons) (by decide) rfl
  obtain ⟨_, hwrap⟩ := h.wrapped (p := .operation .wrap) (by decide) rfl
  have hvau := h.unwrapped (p := .operation .vau) (by decide) rfl
  have hw := h.opened (d := Library.lambda) (by simp [definitions, parts]) rfl hname
  obtain ⟨form, hform, hcode⟩ := hw.body
  obtain ⟨τ, f, hopen, hτ, hscope⟩ := hw.enters ["formals"] h.lt hformals rfl rfl e
  have hsees {name : String} {v : Value} (hnone : [("env", Value.env e), ("formals", formals),
      ("body", body)].lookup name = none) (hv : σ.Sees name v root) : τ.Sees name v f :=
    hscope.sees_outer hnone (hv.onward hτ.grown.onward)
  obtain ⟨room, rfl⟩ : ∃ k, room = k + 1 := ⟨room - 1, by omega⟩
  have hgo : ∀ o, Evaluates cfg (room + 2) form f τ.world o →
      Receives cfg (room + 2) (.operative q) operands e σ.world o :=
    fun o ho => .operative hopen (hform ▸ .last ho)
  -- the operand of `wrap` goes on with a call of `$vau`
  have hawaits : τ.Awaits (Makes cfg (room + 1) e formals forms)
      (fun stop w => Evaluates cfg (room + 2) form f τ.world (.error stop w))
      fun v υ => υ.Leads (Applied cfg (room + 2) (.primitive (.operation .wrap)) [v] f)
        (Evaluates cfg (room + 2) form f τ.world) := by
    refine Awaits.argument (n := 1) (d := 0) [] [] [] hlimit (hsees rfl hwrap) rfl
      (hcode.onward hτ.grown.onward) rfl (fun υ hυ => rfl) (by simp) (Nat.zero_le _)
      fun x υ hυ hx => ?_
    have hsees' {name : String} {v : Value} (hv : τ.Sees name v f) : υ.Sees name v f :=
      hv.onward hυ.onward
    obtain ⟨code, φ, hφ, hcall, heval'⟩ := hx.rebuilds (n := 4) (d := 4) hlimit
      (hsees' (hsees rfl heval)) (hsees' (hscope.sees rfl)) (fun hv hυ => hv.larger hυ.larger)
      (Runs.call hlimit (hsees' (hsees rfl hcons)) (hsees' (hsees rfl hvau)) (hscope.onward hυ.onward)
        (hbody.larger (hτ.grown.trans hυ).larger)) hroom
    refine ⟨φ, hφ, fun o ho => ?_⟩
    obtain ⟨m, rfl, -, hhead, htail⟩ := hcall.uncons
    refine heval' o (.combination (n := 1) hlimit ?_ (ho _ htail))
    exact prepares_pair hlimit rfl rfl rfl hhead rfl (Nat.succ_pos room)
  refine .after hτ.grown (hawaits.mono (fun stop w hw => hgo _ hw) fun v υ _ hv hcombiner => ?_)
  obtain ⟨φ, hφ, hx⟩ := hv
  have hwrapped : φ.Invoked cfg.uncounted 0 0 (.primitive (.operation .wrap)) [v] f fun u ω =>
      φ.Grown ω ∧ ∃ l, u = .applicative l v := .wrap hcombiner fun ω l hω => ⟨hω, l, rfl⟩
  obtain ⟨_, ω, hu, -, hω, l, rfl⟩ := hwrapped φ (.refl φ) (room + 2) (Nat.zero_le _)
  exact ⟨l, ω, hφ.trans hω, hgo _ (hx _ (applied_ok.mpr hu))⟩

end Lambda

end Scene

end Vau
