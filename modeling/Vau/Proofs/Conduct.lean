import Vau.Eval
import Vau.Proofs.Upkeep

/-! Sound evaluation. An evaluation that starts in a sound store ends in one, with a value that
refers to what exists there, and it stops only for a reason that the store accounts for. Under
a limit of steps, fuel for the steps that are left is enough. -/

namespace Vau

/-- Fewer than `n` steps are left under the limit. -/
def Machine.Left (limit : Option Int) (n : Nat) (m : Machine) : Prop :=
  ∀ l, limit = some l → (m.steps : Int) ≤ l ∧ l < m.steps + n

theorem Machine.Left.mono {limit : Option Int} {n n' : Nat} {m : Machine} (h : m.Left limit n)
    (hn : n ≤ n') : m.Left limit n' := by
  intro l hl
  obtain ⟨hle, hlt⟩ := h l hl
  exact ⟨hle, by omega⟩

theorem Machine.Left.limit_eq {limit : Option Int} {m : Machine} (h : m.Left limit 0) :
    limit = none := by
  cases limit with
  | none => rfl
  | some l =>
    obtain ⟨hle, hlt⟩ := h l rfl
    omega

/-- The store accounts for the stop, or it ran out of fuel where nothing limits the steps. -/
def Stop.Excused (limit : Option Int) (e : Stop) (m : Machine) : Prop :=
  e.Due m.world.store ∨ e = .outOfFuel ∧ limit = none

namespace Action

/-- From any sound store at or beyond extent `x`, with fewer than `n` steps left, the action
ends soundly, with a value that has the property and fewer than `n'` steps left. -/
def Keeps {α : Type} (limit : Option Int) (n n' : Nat) (x : Extent) (post : Extent → α → Prop)
    (a : Action α) : Prop :=
  ∀ y m, x.Within y → m.world.store.Sound y → m.Left limit n →
    y.Ends Machine.store (fun z v m => post z v ∧ m.Left limit n') (Stop.Excused limit) (a m)

variable {limit : Option Int} {n n' n'' : Nat} {x : Extent} {α β : Type}
  {post : Extent → α → Prop} {post' : Extent → β → Prop}

theorem Keeps.bind {a : Action α} {f : α → Action β} (ha : a.Keeps limit n n' x post)
    (hf : ∀ y v, x.Within y → post y v → (f v).Keeps limit n' n'' y post') :
    (a >>= f).Keeps limit n n'' x post' := by
  intro y m hy hm hl
  refine (ha y m hy hm hl).bind fun z v m' hz hm' hv => ?_
  exact hf z v (hy.trans hz) hv.1 z m' (.refl z) hm' hv.2

theorem Keeps.mono {a : Action α} (ha : a.Keeps limit n n' x post) (hn : n' ≤ n'') :
    a.Keeps limit n n'' x post := by
  intro y m hy hm hl
  have h := ha y m hy hm hl
  cases hr : a m with
  | error e m' => rwa [hr] at h
  | ok v m' =>
    rw [hr] at h
    obtain ⟨z, hz, hm', hv, hl'⟩ := h
    exact ⟨z, hz, hm', hv, hl'.mono hn⟩

theorem keeps_act {d : Deed α} (hd : d.Keeps x post) : d.act.Keeps limit n n x post := by
  intro y m hy hm hl
  have h := hd y m.world hy hm
  simp only [Deed.act]
  cases hr : d m.world with
  | error e w =>
    rw [hr] at h
    exact ⟨h.1, .inl h.2⟩
  | ok v w =>
    rw [hr] at h
    obtain ⟨z, hz, hw, hv⟩ := h
    exact ⟨z, hz, hw, hv, hl⟩

theorem keeps_pure {v : α} (hv : ∀ y, x.Within y → post y v) :
    (pure v : Action α).Keeps limit n n x post :=
  keeps_act (Deed.keeps_pure hv)

theorem keeps_fail (f : Failure) : (fail f : Action α).Keeps limit n n' x post :=
  fun y _ _ hm _ => ⟨⟨y, .refl y, hm⟩, .inl trivial⟩

theorem keeps_outOfFuel : (throw .outOfFuel : Action α).Keeps limit 0 n' x post :=
  fun y _ _ hm hl => ⟨⟨y, .refl y, hm⟩, .inr ⟨rfl, hl.limit_eq⟩⟩

theorem keeps_same {a : Action α} {v : α} (hv : ∀ y, x.Within y → post y v)
    (ha : ∀ m, ∃ m', a m = .ok v m' ∧ m'.world = m.world ∧ m'.steps = m.steps) :
    a.Keeps limit n n x post := by
  intro y m hy hm hl
  obtain ⟨m', hr, hw, hs⟩ := ha m
  rw [hr]
  refine ⟨y, .refl y, ?_, hv y hy, ?_⟩
  · rw [Machine.store, hw]
    exact hm
  · intro l hlimit
    rw [hs]
    exact hl l hlimit

theorem keeps_notes (logging : Bool) (call : String) :
    (notes logging call).Keeps limit n n x fun _ _ => True :=
  keeps_same (fun _ _ => trivial) fun m => ⟨_, rfl, by cases logging <;> rfl, by cases logging <;> rfl⟩

theorem keeps_enter (base : Nat) (v : Value) :
    (enter base v).Keeps limit n n x fun _ _ => True :=
  keeps_same (fun _ _ => trivial) fun _ => ⟨_, rfl, rfl, rfl⟩

theorem keeps_leave (base : Nat) {v : α} (hv : ∀ y, x.Within y → post y v) :
    (leave base v).Keeps limit n n x post :=
  keeps_same hv fun _ => ⟨_, rfl, rfl, rfl⟩

theorem keeps_tick {limit' : Option Int} (hlimit : ∀ l, limit = some l → limit' = some l) :
    (tick limit').Keeps limit n (n - 1) x fun _ _ => True := by
  intro y m hy hm hl
  cases limit with
  | none =>
    have hleft : ∀ m : Machine, m.Left none (n - 1) := fun _ _ h => nomatch h
    cases limit' with
    | none => exact ⟨y, .refl y, hm, trivial, hleft _⟩
    | some l =>
      simp only [tick]
      split
      · exact ⟨⟨y, .refl y, hm⟩, .inl trivial⟩
      · exact ⟨y, .refl y, hm, trivial, hleft _⟩
  | some l =>
    rw [hlimit l rfl]
    obtain ⟨hle, hlt⟩ := hl l rfl
    simp only [tick]
    split
    · exact ⟨⟨y, .refl y, hm⟩, .inl trivial⟩
    · rename_i hnot
      refine ⟨y, .refl y, hm, trivial, fun l' hl' => ?_⟩
      cases hl'
      simp only at hnot ⊢
      omega

end Action

open Vau.Action

/-- Nested activations with at most `fuel` steps left take at least one of them. -/
def Evaluation.Keeps (limit : Option Int) (fuel : Nat) (ev : Evaluation) : Prop :=
  ∀ n x expr env, n ≤ fuel → expr.In x → env < x.frames →
    (ev expr env).Keeps limit n (n - 1) x fun y v => v.In y

/-- The functions of the host keep stores sound, stop only as the language does and leave
within the limit. -/
def Settings.Keeps (limit : Option Int) (cfg : Settings) : Prop :=
  ∀ f ∈ cfg.functions, ∀ n x vs env, (∀ v ∈ vs, v.In x) → env < x.frames →
    (f vs env).Keeps limit n n x fun y a => a.In y

section Combining

variable {limit : Option Int} {fuel n : Nat} {x : Extent} {env : Nat} {ev : Evaluation}

theorem keeps_head (r : Nat) :
    (Deed.reads fun s => s.head r).act.Keeps limit n n x fun y v => v.In y :=
  keeps_act (Deed.keeps_reads fun _ _ _ hs => hs.head r)

theorem keeps_tail (r : Nat) :
    (Deed.reads fun s => s.tail r).act.Keeps limit n n x fun y v => v.In y :=
  keeps_act (Deed.keeps_reads fun _ _ _ hs => hs.tail r)

theorem keeps_values {done : List Value} (hdone : ∀ v ∈ done, v.In x) :
    (pure done.reverse : Action (List Value)).Keeps limit n n x fun y vs => ∀ v ∈ vs, v.In y :=
  keeps_pure fun _ hy v hv => (hdone v (List.mem_reverse.mp hv)).mono hy

theorem keeps_operandValues (hev : ev.Keeps limit fuel) (operands : Value) {k : Nat}
    (hk : n ≤ k) (hn : n ≤ fuel) (henv : env < x.frames) {done : List Value} {v : Value}
    (hdone : ∀ v ∈ done, v.In x) (hv : v.In x) :
    (operandValues ev env operands k done v).Keeps limit n n x fun y vs => ∀ v ∈ vs, v.In y := by
  -- on the number of operands still allowed: evaluating one leaves a step less
  induction k generalizing n x done v with
  | zero =>
    obtain rfl : n = 0 := by omega
    cases v with
    | pair r => exact keeps_outOfFuel
    | nil => exact keeps_values hdone
    | _ => exact keeps_fail _
  | succ k ih =>
    cases v with
    | pair r =>
      refine (keeps_head r).bind fun y head hy hhead => ?_
      refine (hev n y head env hn hhead (hy.frame_lt henv)).bind fun z w hz hw => ?_
      refine (keeps_tail r).bind fun z' rest hz' hrest => ?_
      have hxz := (hy.trans hz).trans hz'
      have hdone' : ∀ v ∈ w :: done, v.In z' :=
        List.forall_mem_cons.mpr ⟨hw.mono hz', fun v hv => (hdone v hv).mono hxz⟩
      have hk' : n - 1 ≤ k := by omega
      have hn' : n - 1 ≤ fuel := by omega
      have hothers := ih hk' hn' (hxz.frame_lt henv) hdone' hrest
      exact hothers.mono (Nat.sub_le n 1)
    | nil => exact keeps_values hdone
    | _ => exact keeps_fail _

theorem keeps_unwrapAll (hev : ev.Keeps limit fuel) (hn : n ≤ fuel) (henv : env < x.frames)
    {combiner operands : Value} (hc : combiner.In x) (ho : operands.In x) :
    (unwrapAll ev env fuel combiner operands).Keeps limit n n x
      fun y c => c.1.In y ∧ c.2.In y := by
  induction combiner generalizing operands x with
  | applicative label underlying ih =>
    have hvalues := keeps_operandValues hev operands hn hn henv
      (fun _ hv => absurd hv List.not_mem_nil) ho
    refine hvalues.bind fun y vs hy hvs => ?_
    have hlist : (Deed.makes fun s => s.list vs .nil).Keeps y fun y v => v.In y :=
      Deed.keeps_makes fun z s hz hs => hs.list (fun v hv => (hvs v hv).mono hz) trivial
    refine (keeps_act hlist).bind fun z fresh hz hfresh => ?_
    have hxz := hy.trans hz
    exact ih (hxz.frame_lt henv) (hc.2.mono hxz) hfresh
  | _ => exact keeps_pure fun y hy => ⟨hc.mono hy, ho.mono hy⟩

theorem keeps_resolve (hev : ev.Keeps limit fuel) (hn : n ≤ fuel) (henv : env < x.frames)
    (r : Nat) : (resolve ev fuel r env).Keeps limit n n x fun y c => c.1.In y ∧ c.2.In y := by
  refine (keeps_head r).bind fun y head hy hhead => ?_
  have henv' := hy.frame_lt henv
  refine ((hev n y head env hn hhead henv').mono (Nat.sub_le n 1)).bind fun z operator hz hop => ?_
  refine (keeps_tail r).bind fun z' operands hz' hoperands => ?_
  exact keeps_unwrapAll hev hn ((hz.trans hz').frame_lt henv')
    (hop.mono hz') hoperands

theorem keeps_runForms (hev : ev.Keeps limit fuel) (hn : n ≤ fuel) (henv : env < x.frames)
    {forms : List Value} (hforms : ∀ v ∈ forms, v.In x) :
    (runForms ev env forms).Keeps limit n n x fun y a => a.In y := by
  induction forms generalizing x with
  | nil => exact keeps_pure fun _ _ => trivial
  | cons form rest ih =>
    obtain ⟨hform, hrest⟩ := List.forall_mem_cons.mp hforms
    cases rest with
    | nil => exact keeps_pure fun y hy => ⟨hform.mono hy, hy.frame_lt henv⟩
    | cons next rest =>
      refine ((hev n x form env hn hform henv).mono (Nat.sub_le n 1)).bind fun y _ hy _ => ?_
      exact ih (hy.frame_lt henv) fun v hv => (hrest v hv).mono hy

theorem keeps_bindDynamic (frame : Nat) (henv : env < x.frames) (v : Value) :
    (bindDynamic frame env v).Keeps x fun _ _ => True := by
  cases v with
  | sym name =>
    have hdefine : (Deed.changes fun s => s.define frame name (.env env)).Keeps x
        fun _ _ => True := by
      refine Deed.keeps_changes fun y s hy hs => ?_
      have hin : (Value.env env).In y := hy.frame_lt henv
      exact hs.define frame name hin
    exact hdefine
  | _ => exact Deed.keeps_pure fun _ _ => trivial

theorem keeps_callOperative (hev : ev.Keeps limit fuel) (hn : n ≤ fuel) (henv : env < x.frames)
    {o : Operative} (hop : o.In x) {operands : Value} (ho : operands.In x) :
    (callOperative ev o operands env).Keeps limit n n x fun y a => a.In y := by
  have hframe : (Deed.makes fun s => s.newFrame (some o.scope)).Keeps x fun y e => e < y.frames := by
    refine Deed.keeps_makes fun y s hy hs => hs.newFrame fun p hp => ?_
    cases hp
    exact hy.frame_lt hop.scope
  refine (keeps_act hframe).bind fun y frame hy hf => ?_
  refine (keeps_act (Deed.keeps_binds (hop.formals.mono hy) (ho.mono hy) frame)).bind fun z _ hz _ => ?_
  have henv' := (hy.trans hz).frame_lt henv
  refine (keeps_act (keeps_bindDynamic frame henv' o.dynamic)).bind fun w _ hw _ => ?_
  have hyw := hz.trans hw
  exact keeps_runForms hev hn (hyw.frame_lt hf)
    fun v hv => (hop.body v hv).mono (hy.trans hyw)

theorem keeps_define (hev : ev.Keeps limit fuel) (hn : n ≤ fuel) (henv : env < x.frames)
    {definiend expression : Value} (hd : definiend.In x) (he : expression.In x) :
    (Form.define.perform ev env [definiend, expression]).Keeps limit n n x fun y a => a.In y := by
  have hnames : (Deed.tries fun s => s.formalNames definiend).Keeps x fun _ _ => True :=
    Deed.keeps_tries (fun _ _ _ _ _ _ => trivial)
      fun _ _ _ hy hs he => hs.formalNames_due (hd.mono hy) he
  refine (keeps_act hnames).bind fun y _ hy _ => ?_
  have henv' := hy.frame_lt henv
  have hvalue := hev n y expression env hn (he.mono hy) henv'
  refine (hvalue.mono (Nat.sub_le n 1)).bind fun z v hz hv => ?_
  refine (keeps_act (Deed.keeps_binds (hd.mono (hy.trans hz)) hv env)).bind fun w _ _ _ => ?_
  have hinert : ∀ w, (pure (.value .inert) : Action Answer).Keeps limit n n w fun y a => a.In y :=
    fun _ => keeps_pure fun _ _ => trivial
  cases definiend with
  | sym name =>
    exact (keeps_act (Deed.keeps_changes fun _ _ _ hs => hs.giveName v name)).bind
      fun w _ _ _ => hinert w
  | _ => exact hinert w

theorem keeps_assign (hev : ev.Keeps limit fuel) (hn : n ≤ fuel) (henv : env < x.frames)
    {target expression : Value} (he : expression.In x) :
    (Form.assign.perform ev env [target, expression]).Keeps limit n n x fun y a => a.In y := by
  cases target with
  | sym name =>
    refine ((hev n x expression env hn he henv).mono (Nat.sub_le n 1)).bind fun y v _ hv => ?_
    have howner : (Deed.reads fun s => s.owner? env name).Keeps y fun _ _ => True :=
      Deed.keeps_reads fun _ _ _ _ => trivial
    refine (keeps_act howner).bind fun z owner hz _ => ?_
    cases owner with
    | none => exact keeps_fail _
    | some o =>
      have hdefine : (Deed.changes fun s => s.define o name v).Keeps z fun _ _ => True :=
        Deed.keeps_changes fun w s hw hs => hs.define o name (hv.mono (hz.trans hw))
      exact (keeps_act hdefine).bind fun _ _ _ _ => keeps_pure fun _ _ => trivial
  | _ => exact keeps_fail _

theorem keeps_form (hev : ev.Keeps limit fuel) (hn : n ≤ fuel) (henv : env < x.frames)
    (f : Form) {vs : List Value} (hvs : ∀ v ∈ vs, v.In x) :
    (f.perform ev env vs).Keeps limit n n x fun y a => a.In y := by
  cases f with
  | define =>
    match vs with
    | [definiend, expression] =>
      exact keeps_define hev hn henv (hvs definiend (by simp)) (hvs expression (by simp))
    | [] | [_] | _ :: _ :: _ :: _ => exact keeps_fail _
  | assign =>
    match vs with
    | [target, expression] => exact keeps_assign hev hn henv (hvs expression (by simp))
    | [] | [_] | _ :: _ :: _ :: _ => exact keeps_fail _
  | sequence => exact keeps_runForms hev hn henv hvs

theorem keeps_checkedOperands (signature : Signature) {operands : Value} (ho : operands.In x) :
    (checkedOperands signature operands).Keeps x fun y vs => ∀ v ∈ vs, v.In y := by
  intro y w hy hw
  have ho := ho.mono hy
  simp only [checkedOperands, Deed.reads, Bind.bind, EStateM.bind]
  cases hspine : w.store.spine? operands with
  | none => exact ⟨⟨y, .refl y, hw⟩, hw.cyclic_of_spine ho hspine⟩
  | some r =>
    obtain ⟨vs, last⟩ := r
    have hfail : ∀ f, y.Ends World.store (fun z (vs : List Value) _ => ∀ v ∈ vs, v.In z)
        (fun e w => e.Due w.store) ((Deed.fail f : Deed (List Value)) w) :=
      fun f => ⟨⟨y, .refl y, hw⟩, trivial⟩
    cases last with
    | nil =>
      by_cases hadmits : signature.admits vs.length = true
      · simp only [hadmits, if_true]
        exact ⟨y, .refl y, hw, hw.spine? ho hspine⟩
      · simp only [hadmits]
        exact hfail _
    | _ => exact hfail _

end Combining

section Calling

variable {limit : Option Int} {fuel n : Nat} {x : Extent} {env : Nat} {ev : Evaluation}
  {cfg : Settings}

theorem keeps_callPrimitive (hcfg : cfg.Keeps limit) (hev : ev.Keeps limit fuel) (hn : n ≤ fuel)
    (henv : env < x.frames) (room : Nat) (p : Primitive) {operands : Value} (ho : operands.In x) :
    (callPrimitive cfg ev room p operands env).Keeps limit n n x fun y a => a.In y := by
  refine (keeps_act (keeps_checkedOperands p.signature ho)).bind fun y vs hy hvs => ?_
  have henv' := hy.frame_lt henv
  cases p with
  | form f => exact keeps_form hev hn henv' f hvs
  | operation o => exact keeps_act (o.keeps_perform room henv' hvs)
  | host slot name signature =>
    cases hf : cfg.functions[slot]? with
    | none => simpa only [hf] using keeps_pure fun _ _ => trivial
    | some f => simpa only [hf] using hcfg f (Array.mem_of_getElem? hf) n y vs env hvs henv'

theorem keeps_select (hev : ev.Keeps limit fuel) (hn : n ≤ fuel) (henv : env < x.frames)
    (b : Bool) {operands : Value} (ho : operands.In x) :
    (select ev env fuel b operands).Keeps limit n n x fun y a => a.In y := by
  have hvalues := keeps_operandValues hev operands hn hn henv
    (fun _ hv => absurd hv List.not_mem_nil) ho
  refine hvalues.bind fun y vs _ hvs => ?_
  match vs with
  | [v, w] =>
    refine keeps_pure fun z hz => ?_
    have hv := hvs v (by simp)
    have hw := hvs w (by simp)
    cases b
    · exact hw.mono hz
    · exact hv.mono hz
  | [] | [_] | _ :: _ :: _ :: _ => exact keeps_fail _

theorem keeps_combine (hcfg : cfg.Keeps limit) (hev : ev.Keeps limit fuel) (hn : n ≤ fuel)
    (henv : env < x.frames) (room : Nat) {combiner operands : Value} (hc : combiner.In x)
    (ho : operands.In x) :
    (combine cfg ev fuel room combiner operands env).Keeps limit n n x fun y a => a.In y := by
  cases combiner with
  | operative r =>
    have hread : (Deed.reads fun s => s.operative r).Keeps x fun y o => o.In y :=
      Deed.keeps_reads fun y s hy hs => hs.operative (Nat.lt_of_lt_of_le hc hy.operatives)
    refine (keeps_act hread).bind fun y o hy hop => (keeps_notes _ _).bind fun z _ hz _ => ?_
    have hxz := hy.trans hz
    exact keeps_callOperative hev hn (hxz.frame_lt henv) (hop.mono hz)
      (ho.mono hxz)
  | primitive p =>
    refine (keeps_notes _ _).bind fun y _ hy _ => ?_
    exact keeps_callPrimitive hcfg hev hn (hy.frame_lt henv) room p (ho.mono hy)
  | bool b => exact keeps_select hev hn henv b ho
  | _ => exact keeps_fail _

theorem keeps_turn (hcfg : cfg.Keeps limit) (hlimit : ∀ l, limit = some l → cfg.stepLimit = some l)
    (hev : ev.Keeps limit fuel) (hn : n ≤ fuel + 1) (room base : Nat) {expr : Value}
    (he : expr.In x) (henv : env < x.frames) :
    (turn cfg ev fuel room base expr env).Keeps limit n (n - 1) x fun y a => a.In y := by
  refine (keeps_tick hlimit).bind fun y _ hy _ => ?_
  have he := he.mono hy
  have henv := hy.frame_lt henv
  cases expr with
  | sym name =>
    have hlookup : (Deed.reads fun s => s.lookup? env name).Keeps y
        fun z found => ∀ v, found = some v → v.In z :=
      Deed.keeps_reads fun _ _ _ hs _ hv => hs.lookup? hv
    refine (keeps_act hlookup).bind fun z found _ hfound => ?_
    cases found with
    | some v => exact keeps_pure fun w hw => (hfound v rfl).mono hw
    | none => exact keeps_fail _
  | pair r =>
    refine (keeps_enter base _).bind fun z _ hz _ => ?_
    have henv := hz.frame_lt henv
    refine (keeps_resolve hev (by omega) henv r).bind fun z' c hz' hc => ?_
    exact keeps_combine hcfg hev (by omega) (hz'.frame_lt henv) room hc.1 hc.2
  | _ => exact keeps_pure fun z hz => he.mono hz

theorem keeps_reduce (hcfg : cfg.Keeps limit)
    (hlimit : ∀ l, limit = some l → cfg.stepLimit = some l) (fuel : Nat) :
    ∀ n x room base expr env, n ≤ fuel → expr.In x → env < x.frames →
      (reduce cfg fuel room base expr env).Keeps limit n (n - 1) x fun y v => v.In y := by
  -- fuel for the steps that are left: a turn and each nested activation use one up
  induction fuel with
  | zero =>
    intro n x room base expr env hn he henv
    obtain rfl : n = 0 := by omega
    exact keeps_outOfFuel
  | succ fuel ih =>
    intro n x room base expr env hn he henv
    have hev : Evaluation.Keeps limit fuel (nested (reduce cfg fuel) room) := by
      intro k y expr' env' hk he' henv' z m hz hm hl
      cases room with
      | zero => exact keeps_fail _ z m hz hm hl
      | succ room => exact ih k y room m.stack.size expr' env' hk he' henv' z m hz hm hl
    refine (keeps_turn hcfg hlimit hev hn room base he henv).bind fun y a hy ha => ?_
    cases a with
    | value v => exact keeps_leave base fun z hz => Value.In.mono ha hz
    | proceed expr' env' =>
      exact (ih (n - 1) y room base expr' env' (by omega) ha.1 ha.2).mono (Nat.sub_le _ _)

theorem keeps_evaluate (hcfg : cfg.Keeps limit)
    (hlimit : ∀ l, limit = some l → cfg.stepLimit = some l) (hn : n ≤ cfg.fuel) {expr : Value}
    (he : expr.In x) (henv : env < x.frames) :
    (evaluate cfg expr env).Keeps limit n (n - 1) x fun y v => v.In y :=
  fun y m hy hm hl => keeps_reduce hcfg hlimit cfg.fuel n x cfg.room m.stack.size expr env hn he henv
    y m hy hm hl

end Calling

end Vau
