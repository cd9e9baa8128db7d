import Vau.Proofs.Respect

/-! The call stack. An evaluation that ends with a value leaves the stack as it found it,
and one that stops has only added combinations to it. Within an activation every call of a
combiner sees one frame more than there were at its entry, whatever turns came before. -/

namespace Vau

def Grown (before after : Array Value) : Prop :=
  ∃ added : Array Value, after = before ++ added ∧ ∀ v ∈ added, v.isPair = true

/-- The stack inside an activation: as at its entry, or with the activation's own frame. -/
def Framed (entry stack : Array Value) : Prop :=
  stack = entry ∨ ∃ r, stack = entry.push (.pair r)

/-- The stack after a result: `kept` says what it is after a value. -/
def Leaves {α : Type} (entry : Array Value) (kept : Array Value → Prop) :
    EStateM.Result Stop Machine α → Prop
  | .ok _ m => kept m.stack
  | .error _ m => Grown entry m.stack

def Balanced {α : Type} (x : Action α) : Prop := ∀ m, Leaves m.stack (· = m.stack) (x m)

/-- The functions of the host, which may run evaluations themselves, do with the call stack
no more than an evaluation does. -/
def Settings.Balanced (cfg : Settings) : Prop :=
  ∀ f ∈ cfg.functions, ∀ vs env, Vau.Balanced (f vs env)

theorem Grown.refl (stack : Array Value) : Grown stack stack := ⟨#[], by simp, by simp⟩

theorem Grown.push (stack : Array Value) (r : Nat) : Grown stack (stack.push (.pair r)) :=
  ⟨#[.pair r], by simp, by simp [Value.isPair]⟩

theorem Grown.trans {a b c : Array Value} (h : Grown a b) (h' : Grown b c) : Grown a c := by
  obtain ⟨x, rfl, hx⟩ := h
  obtain ⟨y, rfl, hy⟩ := h'
  refine ⟨x ++ y, by rw [Array.append_assoc], fun v hv => ?_⟩
  rcases Array.mem_append.mp hv with hv | hv
  · exact hx v hv
  · exact hy v hv

theorem Framed.grown {entry stack : Array Value} (h : Framed entry stack) : Grown entry stack := by
  rcases h with rfl | ⟨r, rfl⟩
  · exact .refl _
  · exact .push _ r

theorem Leaves.bind {α β : Type} {entry : Array Value} {mid kept : Array Value → Prop}
    {x : Action α} {f : α → Action β} {m : Machine} (hx : Leaves entry mid (x m))
    (hf : ∀ a m', mid m'.stack → Leaves entry kept (f a m')) : Leaves entry kept ((x >>= f) m) := by
  simp only [Bind.bind, EStateM.bind]
  cases hr : x m with
  | error e m' => rwa [hr] at hx
  | ok a m' =>
    rw [hr] at hx
    exact hf a m' hx

theorem Leaves.mono {α : Type} {entry entry' : Array Value} {kept kept' : Array Value → Prop}
    {r : EStateM.Result Stop Machine α} (h : Leaves entry' kept r) (hg : Grown entry entry')
    (hk : ∀ s, kept s → kept' s) : Leaves entry kept' r := by
  cases r with
  | ok a m => exact hk _ h
  | error e m => exact hg.trans h

theorem balanced_act {α : Type} (d : Deed α) : Balanced d.act := by
  intro m
  simp only [Deed.act]
  cases d m.world with
  | ok a w => rfl
  | error e w => exact .refl _

theorem respected_balanced : Respected fun x _ => Balanced x where
  deed _ := balanced_act _
  notes logging call m := by
    cases logging <;> rfl
  bind hx hf m := (hx m).bind fun a m' hm => by
    have h := hf a m'
    rwa [hm] at h

theorem enter_framed {entry : Array Value} {m : Machine} (h : Framed entry m.stack) (v : Value) :
    Action.enter entry.size v m = .ok () { m with stack := entry.push v } := by
  unfold Action.enter
  rcases h with h | ⟨r, h⟩
  · simp [h]
  · simp [h, Array.setIfInBounds, Array.set_push]

theorem leave_framed {α : Type} {entry : Array Value} {m : Machine} (h : Framed entry m.stack)
    (a : α) : Action.leave entry.size a m = .ok a { m with stack := entry } := by
  unfold Action.leave
  rcases h with h | ⟨r, h⟩
  · simp [h]
  · simp [h]

theorem balanced_tick (limit : Option Int) : Balanced (Action.tick limit) := by
  intro m
  unfold Action.tick
  cases limit with
  | none => rfl
  | some l =>
    dsimp only
    split
    · exact .refl _
    · rfl

section Activation

variable {cfg : Settings} {ev : Evaluation} {entry : Array Value}

theorem balanced_resolve (hev : ∀ expr env, Balanced (ev expr env)) (fuel r env : Nat) :
    Balanced (resolve ev fuel r env) :=
  @Respected.resolve _ ev ev respected_balanced hev fuel r env

theorem balanced_combine (hcfg : cfg.Balanced) (hev : ∀ expr env, Balanced (ev expr env))
    (fuel room : Nat) (combiner operands : Value) (env : Nat) :
    Balanced (combine cfg ev fuel room combiner operands env) :=
  @Respected.combine _ ev ev cfg respected_balanced hev hcfg
    fuel room combiner operands env

/-- The combiner and the operands of a combination whose turn begins, on the way to a call. -/
def arrival (cfg : Settings) (ev : Evaluation) (fuel base r env : Nat) :
    Action (Value × Value) := do
  Action.tick cfg.stepLimit
  Action.enter base (.pair r)
  resolve ev fuel r env

theorem arrival_framed (hev : ∀ expr env, Balanced (ev expr env)) (fuel r env : Nat) {m : Machine}
    (h : Framed entry m.stack) :
    Leaves entry (· = entry.push (.pair r)) (arrival cfg ev fuel entry.size r env m) := by
  have ht := (balanced_tick cfg.stepLimit m).mono h.grown fun _ hs => hs
  refine ht.bind fun _ m₁ h₁ => ?_
  simp only [Bind.bind, EStateM.bind, enter_framed (h₁ ▸ h : Framed entry m₁.stack)]
  exact (balanced_resolve hev fuel r env _).mono (.push entry r) fun _ hs => hs

theorem turn_pair (fuel room base r env : Nat) :
    turn cfg ev fuel room base (.pair r) env =
      (arrival cfg ev fuel base r env >>= fun c => combine cfg ev fuel room c.1 c.2 env) := by
  simp only [turn, arrival, bind_assoc]

theorem turn_framed (hcfg : cfg.Balanced) (hev : ∀ expr env, Balanced (ev expr env))
    (fuel room : Nat) (expr : Value) (env : Nat) {m : Machine} (h : Framed entry m.stack) :
    Leaves entry (Framed entry) (turn cfg ev fuel room entry.size expr env m) := by
  have hframe : ∀ s, s = m.stack → Framed entry s := fun s hs => hs ▸ h
  have ht := (balanced_tick cfg.stepLimit m).mono h.grown hframe
  cases expr with
  | sym name =>
    refine ht.bind fun _ m₁ h₁ => ?_
    have hkeep : ∀ s, s = m₁.stack → Framed entry s := fun s hs => hs ▸ h₁
    have hl := (balanced_act (Deed.reads fun s => s.lookup? env name) m₁).mono h₁.grown hkeep
    refine hl.bind fun found m₂ h₂ => ?_
    cases found with
    | some v => exact h₂
    | none => exact h₂.grown
  | pair r =>
    rw [turn_pair]
    refine (arrival_framed hev fuel r env h).bind fun c m₁ h₁ => ?_
    have hc := balanced_combine hcfg hev fuel room c.1 c.2 env m₁
    rw [h₁] at hc
    exact hc.mono (.push entry r) fun _ hs => .inr ⟨r, hs⟩
  | _ => exact ht.bind fun _ m₁ h₁ => h₁

end Activation

section Run

variable {cfg : Settings}

theorem balanced_nested {run : Nat → Nat → Value → Nat → Action Value}
    (hrun : ∀ room entry expr env m, Framed entry m.stack →
      Leaves entry (· = entry) (run room entry.size expr env m))
    (room : Nat) (expr : Value) (env : Nat) : Balanced (nested run room expr env) := by
  intro m
  cases room with
  | zero => exact .refl _
  | succ room => exact hrun room m.stack expr env m (.inl rfl)

theorem reduce_framed (hcfg : cfg.Balanced) (fuel : Nat) :
    ∀ (room : Nat) (entry : Array Value) (expr : Value) (env : Nat) (m : Machine),
      Framed entry m.stack →
        Leaves entry (· = entry) (reduce cfg fuel room entry.size expr env m) := by
  induction fuel with
  | zero =>
    intro room entry expr env m h
    exact h.grown
  | succ fuel ih =>
    intro room entry expr env m h
    have hev := balanced_nested ih room
    refine (turn_framed hcfg hev fuel room expr env h).bind fun answer m₁ h₁ => ?_
    cases answer with
    | value v => simp only [leave_framed h₁, Leaves]
    | proceed expr env => exact ih room entry expr env m₁ h₁

theorem balanced_evaluate (hcfg : cfg.Balanced) (expr : Value) (env : Nat) :
    Balanced (evaluate cfg expr env) :=
  fun m => reduce_framed hcfg cfg.fuel cfg.room m.stack expr env m (.inl rfl)

/-- Where an activation stands before one of its turns. -/
structure Stage where
  fuel : Nat
  expr : Value
  env : Nat
  machine : Machine

namespace Stage

def rest (cfg : Settings) (room base : Nat) (s : Stage) : EStateM.Result Stop Machine Value :=
  reduce cfg s.fuel room base s.expr s.env s.machine

/-- A turn of `s` that goes on with the expression of `t` in its place. -/
def Proceeds (cfg : Settings) (room base : Nat) (s t : Stage) : Prop :=
  s.fuel = t.fuel + 1 ∧
    turn cfg (nested (reduce cfg t.fuel) room) t.fuel room base s.expr s.env s.machine =
      .ok (.proceed t.expr t.env) t.machine

/-- The turn of `s` comes to call `combiner` on `operands` from the machine `m`. -/
def Calls (cfg : Settings) (room base : Nat) (s : Stage) (combiner operands : Value)
    (m : Machine) : Prop :=
  ∃ fuel r, s.fuel = fuel + 1 ∧ s.expr = .pair r ∧
    arrival cfg (nested (reduce cfg fuel) room) fuel base r s.env s.machine =
      .ok (combiner, operands) m

theorem Proceeds.rest_eq {room base : Nat} {s t : Stage} (h : Proceeds cfg room base s t) :
    s.rest cfg room base = t.rest cfg room base := by
  obtain ⟨hf, ht⟩ := h
  simp only [rest, hf, reduce, Bind.bind, EStateM.bind, ht]

theorem Proceeds.framed (hcfg : cfg.Balanced) {room : Nat} {entry : Array Value} {s t : Stage}
    (h : Proceeds cfg room entry.size s t) (hs : Framed entry s.machine.stack) :
    Framed entry t.machine.stack := by
  have hev := balanced_nested (reduce_framed hcfg t.fuel) room
  have ht := turn_framed hcfg hev t.fuel room s.expr s.env hs
  rwa [h.2] at ht

theorem Calls.stack_eq (hcfg : cfg.Balanced) {room : Nat} {entry : Array Value} {s : Stage}
    {combiner operands : Value} {m : Machine} (h : s.Calls cfg room entry.size combiner operands m)
    (hs : Framed entry s.machine.stack) : m.stack = entry.push s.expr := by
  obtain ⟨fuel, r, -, he, ha⟩ := h
  have hev := balanced_nested (reduce_framed hcfg fuel) room
  have hl : Leaves entry (· = entry.push (.pair r))
      (arrival cfg _ fuel entry.size r s.env s.machine) := arrival_framed hev fuel r s.env hs
  rw [ha] at hl
  rw [he]
  exact hl

end Stage

/-- An evaluation with a value leaves the call stack as it was, and one that stops leaves it
with combinations added. At each turn of an activation, after any number of tail calls, the
called combiner finds the stack of the entry with the combination being reduced on top. -/
theorem call_stack_discipline (hcfg : cfg.Balanced) (expr : Value) (env : Nat) (m : Machine) :
    (∀ v m', evaluate cfg expr env m = .ok v m' → m'.stack = m.stack) ∧
    (∀ e m', evaluate cfg expr env m = .error e m' →
      ∃ added : Array Value, m'.stack = m.stack ++ added ∧ ∀ v ∈ added, v.isPair = true) ∧
    ∀ t, Relation.ReflTransGen (Stage.Proceeds cfg cfg.room m.stack.size)
        ⟨cfg.fuel, expr, env, m⟩ t →
      t.rest cfg cfg.room m.stack.size = evaluate cfg expr env m ∧
      ∀ combiner operands m', t.Calls cfg cfg.room m.stack.size combiner operands m' →
        m'.stack = m.stack.push t.expr ∧ m'.stack.size = m.stack.size + 1 := by
  have hrun := reduce_framed hcfg cfg.fuel cfg.room m.stack expr env m (.inl rfl)
  change Leaves m.stack (· = m.stack) (evaluate cfg expr env m) at hrun
  refine ⟨fun v m' h => ?_, fun e m' h => ?_, fun t h => ?_⟩
  · rwa [h] at hrun
  · rwa [h] at hrun
  · have hstage : t.rest cfg cfg.room m.stack.size = evaluate cfg expr env m ∧
        Framed m.stack t.machine.stack := by
      induction h with
      | refl => exact ⟨rfl, .inl rfl⟩
      | tail _ step ih => exact ⟨step.rest_eq.symm.trans ih.1, step.framed hcfg ih.2⟩
    refine ⟨hstage.1, fun combiner operands m' hc => ?_⟩
    have hs := hc.stack_eq hcfg hstage.2
    exact ⟨hs, by simp [hs]⟩

end Run

/-- A session whose one host function tells the depth of the call stack, and the program
`($sequence (depth))` below one frame. -/
def depthSettings : Settings :=
  { fuel := 4, room := 2, functions := #[fun _ _ m => .ok (.value (.int m.stack.size)) m] }

def depthMachine : Machine :=
  { world := { store := { cells :=
      #[⟨.primitive (.form .sequence), .pair 1, none⟩, ⟨.pair 2, .nil, none⟩,
        ⟨.primitive (.host 0 "depth" (.exactly 0)), .nil, none⟩] } }
    stack := #[.pair 1] }

theorem depthSettings_balanced : depthSettings.Balanced := by
  intro f hf vs env m
  obtain rfl := List.mem_singleton.mp (List.mem_toArray.mp hf)
  rfl

/-- The function is called after one tail call, with one frame more than at the entry. -/
theorem call_stack_below_tail_call :
    depthSettings.Balanced ∧
    evaluate depthSettings (.pair 0) 0 depthMachine = .ok (.int 2) { depthMachine with steps := 4 } ∧
    ∃ t m', Relation.ReflTransGen (Stage.Proceeds depthSettings 2 1)
        ⟨4, .pair 0, 0, depthMachine⟩ t ∧
      t.Calls depthSettings 2 1 (.primitive (.host 0 "depth" (.exactly 0))) .nil m' ∧
      m'.stack = #[.pair 1].push (.pair 2) := by
  have hd := call_stack_discipline depthSettings_balanced (.pair 0) 0 depthMachine
  let t : Stage := ⟨3, .pair 2, 0, { depthMachine with stack := #[.pair 1, .pair 0], steps := 2 }⟩
  have ht : Relation.ReflTransGen (Stage.Proceeds depthSettings 2 1)
      ⟨4, .pair 0, 0, depthMachine⟩ t := .single ⟨rfl, rfl⟩
  have hc : t.Calls depthSettings 2 1 (.primitive (.host 0 "depth" (.exactly 0))) .nil
      { depthMachine with stack := #[.pair 1, .pair 2], steps := 4 } := ⟨2, 2, rfl, rfl, rfl⟩
  exact ⟨depthSettings_balanced, rfl, t, _, ht, hc, ((hd.2.2 t ht).2 _ _ _ hc).1⟩

end Vau
