import Vau.Proofs.Respect

/-! Step limits. A run under a limit is the run without one as long as the count of steps
stays within the limit, and otherwise stops at the first step beyond it. -/

namespace Vau

def Settings.limited (cfg : Settings) (limit : Option Int) : Settings :=
  { cfg with stepLimit := limit }

/-- The functions of the host take no steps and only add to the record of side effects. -/
def Settings.Discreet (cfg : Settings) : Prop :=
  ∀ f ∈ cfg.functions, ∀ vs env m, (endState (f vs env m)).steps = m.steps ∧
    m.world.effects.toList <+: (endState (f vs env m)).world.effects.toList

/-- A result of stopping at the first step beyond a limit, on the way to the machine `last`. -/
def Exceeded {α : Type} (limit : Int) (last : Machine) (r : EStateM.Result Stop Machine α) : Prop :=
  ∃ m, r = .error (.failure (.stepLimit limit)) m ∧ (m.steps : Int) = limit + 1 ∧
    m.world.effects.toList <+: last.world.effects.toList

/-- `y` is `x` under a limit: the same while the count of `x` stays within it. -/
structure Metered (limit : Int) {α : Type} (x y : Action α) : Prop where
  steps_le : ∀ m, m.steps ≤ (endState (x m)).steps
  effects : ∀ m, m.world.effects.toList <+: (endState (x m)).world.effects.toList
  within : ∀ m, ((endState (x m)).steps : Int) ≤ limit → y m = x m
  beyond : ∀ m, (m.steps : Int) ≤ limit → limit < (endState (x m)).steps →
    Exceeded limit (endState (x m)) (y m)

namespace Metered

variable {limit : Int} {α β : Type}

theorem bind {x y : Action α} {f g : α → Action β} (hx : Metered limit x y)
    (hf : ∀ a, Metered limit (f a) (g a)) : Metered limit (x >>= f) (y >>= g) where
  steps_le m := by
    have h := hx.steps_le m
    simp only [Bind.bind, EStateM.bind]
    cases hr : x m with
    | error e m₁ => rwa [hr] at h
    | ok a m₁ =>
      rw [hr] at h
      exact Nat.le_trans h ((hf a).steps_le m₁)
  effects m := by
    have h := hx.effects m
    simp only [Bind.bind, EStateM.bind]
    cases hr : x m with
    | error e m₁ => rwa [hr] at h
    | ok a m₁ =>
      rw [hr] at h
      exact h.trans ((hf a).effects m₁)
  within m h := by
    have hw := hx.within m
    simp only [Bind.bind, EStateM.bind] at h ⊢
    cases hr : x m with
    | error e m₁ =>
      rw [hr] at h hw
      rw [hw h]
    | ok a m₁ =>
      rw [hr] at h hw
      have hs : (m₁.steps : Int) ≤ limit :=
        Int.le_trans (Int.ofNat_le.mpr ((hf a).steps_le m₁)) h
      rw [hw hs]
      exact (hf a).within m₁ h
  beyond m hm h := by
    have hw := hx.within m
    have hb := hx.beyond m hm
    simp only [Bind.bind, EStateM.bind] at h ⊢
    cases hr : x m with
    | error e m₁ =>
      rw [hr] at h hb
      obtain ⟨m', he, hs, hp⟩ := hb h
      exact ⟨m', by rw [he], hs, hp⟩
    | ok a m₁ =>
      rw [hr] at h hw hb
      -- the limit is passed in `x` or only after it
      by_cases hs : (m₁.steps : Int) ≤ limit
      · rw [hw hs]
        exact (hf a).beyond m₁ hs h
      · obtain ⟨m', he, hs', hp⟩ := hb (Int.not_le.mp hs)
        exact ⟨m', by rw [he], hs', hp.trans ((hf a).effects m₁)⟩

/-- What takes no step is the same under every limit. -/
theorem of_steady {x : Action α} (hs : ∀ m, (endState (x m)).steps = m.steps)
    (he : ∀ m, m.world.effects.toList <+: (endState (x m)).world.effects.toList) :
    Metered limit x x where
  steps_le m := Nat.le_of_eq (hs m).symm
  effects := he
  within _ _ := rfl
  beyond m hm h := by
    have := hs m
    omega

theorem act {d : Deed α} (hd : d.Lawful) : Metered limit d.act d.act := by
  refine of_steady (fun m => ?_) fun m => ?_
  · simp only [Deed.act]
    cases d m.world <;> rfl
  · have h := (hd m.world).effects_grow
    simp only [Deed.act]
    cases hr : d m.world <;> rwa [hr] at h

theorem notes (logging : Bool) (call : String) :
    Metered limit (Action.notes logging call) (Action.notes logging call) := by
  refine of_steady (fun m => ?_) fun m => ?_
  · cases logging <;> rfl
  · cases logging <;> exact List.prefix_rfl

theorem enter (base : Nat) (v : Value) :
    Metered limit (Action.enter base v) (Action.enter base v) :=
  of_steady (fun _ => rfl) fun _ => List.prefix_rfl

theorem leave (base : Nat) (a : α) : Metered limit (Action.leave base a) (Action.leave base a) :=
  of_steady (fun _ => rfl) fun _ => List.prefix_rfl

theorem tick : Metered limit (Action.tick none) (Action.tick (some limit)) where
  steps_le m := Nat.le_succ m.steps
  effects _ := List.prefix_rfl
  within m h := by
    have hn : ¬ limit < ((m.steps + 1 : Nat) : Int) := Int.not_lt.mpr h
    simp only [Action.tick, if_neg hn]
  beyond m hm h := by
    have hs : limit < ((m.steps + 1 : Nat) : Int) := h
    refine ⟨{ m with steps := m.steps + 1 }, ?_, by simp only; omega, List.prefix_rfl⟩
    simp only [Action.tick, if_pos hs]

theorem respected (limit : Int) : Respected fun x y => Metered limit x y where
  deed hd := act hd
  notes := notes
  bind hx hf := hx.bind hf

theorem host {cfg : Settings} (hcfg : cfg.Discreet) (f : HostFunction) (hf : f ∈ cfg.functions)
    (vs : List Value) (env : Nat) : Metered limit (f vs env) (f vs env) :=
  of_steady (fun m => (hcfg f hf vs env m).1) fun m => (hcfg f hf vs env m).2

variable {cfg : Settings}

theorem turn (hcfg : cfg.Discreet) {ev ev' : Evaluation}
    (hev : ∀ expr env, Metered limit (ev expr env) (ev' expr env)) (fuel room base : Nat)
    (expr : Value) (env : Nat) :
    Metered limit (Vau.turn (cfg.limited none) ev fuel room base expr env)
      (Vau.turn (cfg.limited (some limit)) ev' fuel room base expr env) := by
  have hr := respected limit
  refine tick.bind fun _ => ?_
  cases expr with
  | sym name =>
    refine bind (act (Deed.lawful_stock.lookup env name)) fun found => ?_
    cases found with
    | some v => exact hr.pure _
    | none => exact hr.fail _
  | pair r =>
    exact (enter base _).bind fun _ => (hr.resolve hev fuel r env).bind fun c =>
      hr.combine hev (host hcfg) fuel room c.1 c.2 env
  | _ => exact hr.pure _

theorem nested {run run' : Nat → Nat → Value → Nat → Action Value}
    (h : ∀ room base expr env, Metered limit (run room base expr env) (run' room base expr env))
    (room : Nat) (expr : Value) (env : Nat) :
    Metered limit (Vau.nested run room expr env) (Vau.nested run' room expr env) := by
  cases room with
  | zero => exact (respected limit).fail _
  | succ room =>
    exact {
      steps_le := fun m => (h room m.stack.size expr env).steps_le m
      effects := fun m => (h room m.stack.size expr env).effects m
      within := fun m => (h room m.stack.size expr env).within m
      beyond := fun m => (h room m.stack.size expr env).beyond m }

theorem reduce (hcfg : cfg.Discreet) (fuel : Nat) :
    ∀ room base expr env,
      Metered limit (Vau.reduce (cfg.limited none) fuel room base expr env)
        (Vau.reduce (cfg.limited (some limit)) fuel room base expr env) := by
  induction fuel with
  | zero => exact fun _ _ _ _ => (respected limit).throw _
  | succ fuel ih =>
    intro room base expr env
    refine (turn hcfg (nested ih room) fuel room base expr env).bind fun answer => ?_
    cases answer with
    | value v => exact leave base v
    | proceed expr env => exact ih room base expr env

end Metered

/-- Within a limit an evaluation is the one without a limit, in outcome and machine. Beyond
it the evaluation stops with the count one past the limit and a beginning of the same side
effects. An evaluation that does not stop at its limit is the same under any larger one. -/
theorem step_limit_transparent (cfg : Settings) (hcfg : cfg.Discreet) (expr : Value) (env : Nat)
    (m : Machine) (limit : Int) (hm : (m.steps : Int) ≤ limit)
    {r : EStateM.Result Stop Machine Value} (hr : evaluate (cfg.limited none) expr env m = r) :
    (((endState r).steps : Int) ≤ limit → evaluate (cfg.limited (some limit)) expr env m = r) ∧
    (limit < (endState r).steps →
      ∃ m', evaluate (cfg.limited (some limit)) expr env m =
          .error (.failure (.stepLimit limit)) m' ∧ (m'.steps : Int) = limit + 1 ∧
        m'.world.effects.toList <+: (endState r).world.effects.toList) ∧
    ((∀ m', evaluate (cfg.limited (some limit)) expr env m ≠
          .error (.failure (.stepLimit limit)) m') →
      evaluate (cfg.limited (some limit)) expr env m = r ∧
      ∀ larger, limit ≤ larger → evaluate (cfg.limited (some larger)) expr env m = r) := by
  subst hr
  have h : ∀ limit, Metered limit (evaluate (cfg.limited none) expr env)
      (evaluate (cfg.limited (some limit)) expr env) := fun limit =>
    Metered.nested (Metered.reduce hcfg cfg.fuel) (cfg.room + 1) expr env
  refine ⟨(h limit).within m, (h limit).beyond m hm, fun hf => ?_⟩
  have hs : ((endState (evaluate (cfg.limited none) expr env m)).steps : Int) ≤ limit :=
    Int.not_lt.mp fun hn => by
      obtain ⟨m', he, -⟩ := (h limit).beyond m hm hn
      exact hf m' he
  exact ⟨(h limit).within m hs, fun larger hle => (h larger).within m (Int.le_trans hs hle)⟩

/-- The program `($sequence (display #t) (display #f))`, which takes eight steps. -/
def displayMachine : Machine :=
  { world := { store := { cells :=
      #[⟨.primitive (.form .sequence), .pair 1, none⟩, ⟨.pair 3, .pair 2, none⟩,
        ⟨.pair 5, .nil, none⟩,
        ⟨.applicative 0 (.primitive (.operation .display)), .pair 4, none⟩,
        ⟨.bool true, .nil, none⟩,
        ⟨.applicative 0 (.primitive (.operation .display)), .pair 6, none⟩,
        ⟨.bool false, .nil, none⟩] } } }

def shortSettings : Settings := { fuel := 9, room := 9 }

theorem shortSettings_discreet : shortSettings.Discreet := fun _ hf => nomatch hf

/-- A limit of six stops the program between its two effects, and one of eight changes
nothing. -/
theorem step_limit_between_effects :
    shortSettings.Discreet ∧ ((displayMachine.steps : Int) ≤ 6) ∧
    (∃ m', evaluate (shortSettings.limited (some 6)) (.pair 0) 0 displayMachine =
        .error (.failure (.stepLimit 6)) m' ∧ (m'.steps : Int) = 7) ∧
    evaluate (shortSettings.limited (some 8)) (.pair 0) 0 displayMachine =
      evaluate (shortSettings.limited none) (.pair 0) 0 displayMachine := by
  have hsteps : (endState (evaluate (shortSettings.limited none) (.pair 0) 0
      displayMachine)).steps = 8 := by decide +kernel
  have h6 := step_limit_transparent shortSettings shortSettings_discreet (.pair 0) 0
    displayMachine 6 (by decide) rfl
  have h8 := step_limit_transparent shortSettings shortSettings_discreet (.pair 0) 0
    displayMachine 8 (by decide) rfl
  rw [hsteps] at h6 h8
  obtain ⟨m', he, hs, -⟩ := h6.2.1 (by decide)
  exact ⟨shortSettings_discreet, by decide, ⟨m', he, hs⟩, h8.1 (by decide)⟩

end Vau
