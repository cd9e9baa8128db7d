import Vau.Proofs.Hiding
import Vau.Proofs.Items

/-! Rounds of evaluation. A combiner with some wrappers around it has its operands evaluated from
left to right once for each wrapper, what one round gives being evaluated in the next, and receives
a list of what the last round gives. The list that a round makes is not known to any program before
the combiner has it, so what the rounds evaluate cannot change it. -/

namespace Vau

namespace Store

/-- The pairs from `v` along the tails, up to what ends them. -/
inductive Pairs (s : Store) (last : Value) : Value → List Nat → Prop
  | done : Pairs s last last []
  | pair {r : Nat} {refs : List Nat} (hr : r < s.cells.size) (htail : Pairs s last (s.tail r) refs) :
    Pairs s last (.pair r) (r :: refs)

variable {s t : Store} {last v : Value} {refs : List Nat}

theorem Pairs.items (h : s.Pairs last v refs) : s.Items last v (refs.map s.head) := by
  induction h with
  | done => exact .done
  | pair hr _ ih => exact .pair hr ih

theorem Pairs.larger (h : s.Pairs last v refs) (hs : s.Extends t) : t.Pairs last v refs := by
  induction h with
  | done => exact .done
  | @pair r refs hr _ ih =>
    refine .pair (Nat.lt_of_lt_of_le hr hs.cells) ?_
    rwa [Store.tail, hs.cell r hr]

/-- A fresh list has fresh pairs. -/
theorem pairs_list (s : Store) (vs : List Value) (last : Value) :
    ∃ refs, (s.list vs last).2.Pairs last (s.list vs last).1 refs ∧
      refs.map (s.list vs last).2.head = vs ∧
      ∀ r ∈ refs, s.cells.size ≤ r ∧ r < (s.list vs last).2.cells.size := by
  induction vs with
  | nil => exact ⟨[], .done, rfl, List.forall_mem_nil _⟩
  | cons v vs ih =>
    obtain ⟨refs, hpairs, hheads, hrefs⟩ := ih
    have hextends : (s.list vs last).2.Extends (s.list (v :: vs) last).2 := .cons _ _ _ _
    let new := (s.list vs last).2.cells.size
    have hcell : (s.list (v :: vs) last).2.cell new = ⟨v, (s.list vs last).1, none⟩ := by
      simp [Store.list, cell_cons, new]
    have hlt : new < (s.list (v :: vs) last).2.cells.size := by simp [Store.list, new]
    have htail : (s.list (v :: vs) last).2.tail new = (s.list vs last).1 := congrArg Cell.tail hcell
    have hhead : (s.list (v :: vs) last).2.head new = v := congrArg Cell.head hcell
    refine ⟨new :: refs, .pair hlt (htail ▸ hpairs.larger hextends), ?_, ?_⟩
    · rw [List.map_cons, hhead]
      refine congrArg (v :: ·) ((List.map_congr_left fun r hr => ?_).trans hheads)
      exact congrArg Cell.head (hextends.cell r (hrefs r hr).2)
    · have hle := (Store.Extends.list s vs last).cells
      refine List.forall_mem_cons.mpr ⟨⟨hle, hlt⟩, fun r hr => ?_⟩
      exact ⟨(hrefs r hr).1, Nat.lt_trans (hrefs r hr).2 hlt⟩

end Store

/-- The combiner inside the wrappers, the outermost of which comes first. -/
def Value.wrapped (labels : List Nat) (c : Value) : Value := labels.foldr Value.applicative c

namespace Evaluation

/-- The values of the expressions, found from left to right. -/
def each (ev : Evaluation) (env : Nat) (es : List Value) : Action (List Value) :=
  es.mapM fun e => ev e env

/-- Rounds in which the values of the expressions are found, then the values of these, and so on.
Each round ends with a fresh list of its values; the last list is returned, with all the values. -/
def rounds (ev : Evaluation) (env : Nat) : Nat → Value → List Value →
    Action (Value × List (List Value))
  | 0, operands, _ => pure (operands, [])
  | k + 1, _, es => do
    let vs ← ev.each env es
    let fresh ← (Deed.makes fun s => s.list vs .nil).act
    let (given, later) ← ev.rounds env k fresh vs
    return (given, vs :: later)

/-- As long as the evaluation of the expressions goes on, it leaves the pairs as they are. -/
def Spares (ev : Evaluation) (env : Nat) (refs : List Nat) (es : List Value) (m : Machine) : Prop :=
  ∀ done later vs m', es = done ++ later → ev.each env done m = .ok vs m' →
    ∀ r ∈ refs, m'.store.cell r = m.store.cell r

variable {ev : Evaluation} {env : Nat} {m m' : Machine}

theorem each_cons (e : Value) (es : List Value) :
    ev.each env (e :: es) = do
      let v ← ev e env
      let vs ← ev.each env es
      return v :: vs :=
  List.mapM_cons

theorem each_snoc {es vs : List Value} {e v : Value} {m₁ m₂ : Machine}
    (hes : ev.each env es m = .ok vs m₁) (he : ev e env m₁ = .ok v m₂) :
    ev.each env (es ++ [e]) m = .ok (vs ++ [v]) m₂ := by
  have happend : ev.each env (es ++ [e]) = do
      let vs ← ev.each env es
      let v ← ev e env
      return vs ++ [v] := by
    simp [each, List.mapM_append]
  simp only [happend, Bind.bind, EStateM.bind, hes, he]
  rfl

end Evaluation

theorem Deed.act_reads {α : Type} (f : Store → α) (m : Machine) :
    (Deed.reads f).act m = .ok (f m.store) m :=
  rfl

/-- What becomes of the values of an operand list that `last` ends. -/
def closed (whole last : Value) (vs : List Value) : Action (List Value) :=
  if last = .nil then pure vs else Action.fail (.arity (.text "proper operand list") whole)

section Operands

variable {ev : Evaluation} {env : Nat} {whole last : Value}

theorem operandValues_ended (hlast : last.isPair = false) (fuel : Nat) (done : List Value) :
    operandValues ev env whole fuel done last = closed whole last done.reverse := by
  cases last with
  | pair r => cases hlast
  | nil => cases fuel <;> rfl
  | _ => cases fuel <;> rfl

theorem operandValues_rest (hlast : last.isPair = false) {refs : List Nat} {m : Machine}
    (hspares : ev.Spares env refs (refs.map m.store.head) m) (before : List Nat) {after : List Nat}
    (hrefs : refs = before ++ after) {v : Value} (hpairs : m.store.Pairs last v after)
    {fuel : Nat} (hfuel : after.length ≤ fuel) {vs : List Value} {m' : Machine}
    (hbefore : ev.each env (before.map m.store.head) m = .ok vs m') :
    operandValues ev env whole fuel vs.reverse v m' =
      (ev.each env (after.map m.store.head) >>= fun us => closed whole last (vs ++ us)) m' := by
  -- on the pairs that are left; what was evaluated before has not changed them
  induction hpairs generalizing before fuel vs m' with
  | done =>
    rw [operandValues_ended hlast, List.reverse_reverse]
    simp [Evaluation.each]
  | @pair r after hr _ ih =>
    obtain ⟨fuel, rfl⟩ : ∃ k, fuel = k + 1 := ⟨fuel - 1, by simp at hfuel; omega⟩
    have hmem : r ∈ refs := hrefs ▸ List.mem_append_right _ List.mem_cons_self
    have hhead : m'.store.head r = m.store.head r := by
      have hsplit : refs.map m.store.head =
          before.map m.store.head ++ (r :: after).map m.store.head := by
        rw [hrefs, List.map_append]
      exact congrArg Cell.head (hspares _ _ _ _ hsplit hbefore r hmem)
    rw [operandValues, List.map_cons, Evaluation.each_cons]
    simp only [Bind.bind, EStateM.bind, Deed.act_reads, hhead]
    cases he : ev (m.store.head r) env m' with
    | error e m'' => rfl
    | ok w m'' =>
      have hsnoc := Evaluation.each_snoc hbefore he
      rw [← List.map_singleton, ← List.map_append] at hsnoc
      have hrefs' : refs = (before ++ [r]) ++ after := by rw [hrefs, List.append_assoc]; rfl
      have htail : m''.store.tail r = m.store.tail r := by
        have hsplit : refs.map m.store.head =
            (before ++ [r]).map m.store.head ++ after.map m.store.head := by
          rw [hrefs', List.map_append]
        exact congrArg Cell.tail (hspares _ _ _ _ hsplit hsnoc r hmem)
      have hrest := ih (before ++ [r]) hrefs' (by simpa using hfuel) hsnoc
      rw [List.reverse_append] at hrest
      simp only [htail]
      refine Eq.trans hrest ?_
      simp only [Bind.bind, EStateM.bind]
      cases ev.each env (after.map m.store.head) m'' with
      | error e m₃ => rfl
      | ok us m₃ => simp [Pure.pure, EStateM.pure]

/-- An operand list that its own evaluation does not change is evaluated as the list it is. -/
theorem operandValues_each (whole : Value) (hlast : last.isPair = false) {refs : List Nat} {v : Value}
    {m : Machine} (hpairs : m.store.Pairs last v refs) {fuel : Nat} (hfuel : refs.length ≤ fuel)
    (hspares : ev.Spares env refs (refs.map m.store.head) m) :
    operandValues ev env whole fuel [] v m =
      (ev.each env (refs.map m.store.head) >>= closed whole last) m :=
  operandValues_rest hlast hspares [] rfl hpairs hfuel rfl

end Operands

theorem Action.bind_eq_ok {α β : Type} {x : Action α} {f : α → Action β} {m m' : Machine} {b : β}
    (h : (x >>= f) m = .ok b m') : ∃ a m₁, x m = .ok a m₁ ∧ f a m₁ = .ok b m' := by
  simp only [Bind.bind, EStateM.bind] at h
  cases hx : x m with
  | error e m₁ =>
    rw [hx] at h
    cases h
  | ok a m₁ =>
    rw [hx] at h
    exact ⟨a, m₁, rfl, h⟩

/-- A list may be made of pairs that are hidden. -/
theorem Store.Hides.fresh_list {s : Store} {H : Hidden} {x : Extent} (h : s.Hides H x)
    {vs : List Value} (hvs : ∀ v ∈ vs, H.Public x v) {env : Nat} (henv : ¬ H.frame env)
    (henvIn : env < x.frames) :
    ∃ H' y refs, (s.list vs .nil).2.Hides H' y ∧
      (s.list vs .nil).2.Pairs .nil (s.list vs .nil).1 refs ∧
      refs.map (s.list vs .nil).2.head = vs ∧ (∀ r ∈ refs, H'.cell r) ∧
      (∀ v ∈ vs, H'.Public y v) ∧ ¬ H'.frame env ∧ env < y.frames := by
  obtain ⟨refs, hpairs, hheads, hfresh⟩ := s.pairs_list vs .nil
  have hextends : s.Extends (s.list vs .nil).2 := .list s vs .nil
  refine ⟨H.more s (s.list vs .nil).2, _, refs, h.more hextends (Nat.zero_lt_of_lt henvIn), hpairs,
    hheads, fun r hr => .inr (hfresh r hr), fun v hv => h.public_more hextends (hvs v hv), ?_,
    (h.measures.within_padded hextends).frame_lt henvIn⟩
  rintro (hhidden | hnew)
  · exact henv hhidden
  · have hmeasures : s.frames.size = x.frames := h.measures.frames
    omega

section Hiding

variable {cfg : Settings} (hcfg : cfg.Honest) {fuel room env : Nat} {H : Hidden} {x : Extent}
include hcfg

/-- What is evaluated in turn, and is not handed anything hidden, changes nothing hidden. -/
theorem each_hides {es vs : List Value} {m m' : Machine} (hm : m.store.Hides H x)
    (hes : ∀ e ∈ es, H.Public x e) (henv : ¬ H.frame env) (henvIn : env < x.frames)
    (h : Evaluation.each (nested (reduce cfg fuel) room) env es m = .ok vs m') :
    ∃ y, x.Within y ∧ m'.store.Hides H y ∧ (∀ v ∈ vs, H.Public y v) ∧ vs.length = es.length ∧
      m.store.Spares H.terms.link m'.store := by
  induction es generalizing x vs m with
  | nil =>
    cases h
    exact ⟨x, .refl x, hm, List.forall_mem_nil _, rfl, .refl _⟩
  | cons e es ih =>
    obtain ⟨he, hes⟩ := List.forall_mem_cons.mp hes
    rw [Evaluation.each_cons] at h
    obtain ⟨v, m₁, hv, h⟩ := Action.bind_eq_ok h
    obtain ⟨us, m₂, hus, h⟩ := Action.bind_eq_ok h
    cases h
    obtain ⟨y, hy, hhides, hpublic, hspares⟩ := nested_hides hcfg hm he henv henvIn hv
    obtain ⟨z, hz, hhides', hpublic', hlength, hspares'⟩ :=
      ih hhides (fun u hu => (hes u hu).mono hy) (hy.frame_lt henvIn) hus
    exact ⟨z, hy.trans hz, hhides', List.forall_mem_cons.mpr ⟨hpublic.mono hz, hpublic'⟩,
      congrArg (· + 1) hlength, hspares.trans hspares'⟩

/-- Hidden pairs stay as they are. -/
theorem spares_hidden {es : List Value} {m : Machine} (hm : m.store.Hides H x)
    (hes : ∀ e ∈ es, H.Public x e) (henv : ¬ H.frame env) (henvIn : env < x.frames)
    {refs : List Nat} (hrefs : ∀ r ∈ refs, H.cell r) :
    Evaluation.Spares (nested (reduce cfg fuel) room) env refs es m := by
  intro done later vs m' hsplit hdone r hr
  have hpublic : ∀ e ∈ done, H.Public x e := fun e he => hes e (hsplit ▸ List.mem_append_left _ he)
  obtain ⟨-, -, -, -, -, hspares⟩ := each_hides hcfg hm hpublic henv henvIn hdone
  by_contra hne
  obtain ⟨⟨r', hlinked⟩, -⟩ := hspares.cell r (hm.hidden_lt.1 r (hrefs r hr)) hne
  exact hlinked.2 (hrefs r hr)

/-- A combiner in wrappers is to receive what as many rounds of evaluation give. -/
theorem unwrapAll_rounds {c : Value} (hc : c.isApplicative = false) (labels : List Nat)
    {operands : Value} {refs : List Nat} {m : Machine} (hm : m.store.Hides H x)
    (hes : ∀ e ∈ refs.map m.store.head, H.Public x e) (henv : ¬ H.frame env)
    (henvIn : env < x.frames) (hpairs : m.store.Pairs .nil operands refs)
    (hfuel : refs.length ≤ fuel)
    (hspares : Evaluation.Spares (nested (reduce cfg fuel) room) env refs
      (refs.map m.store.head) m) :
    unwrapAll (nested (reduce cfg fuel) room) env fuel (c.wrapped labels) operands m =
      (do
        let (given, _) ← Evaluation.rounds (nested (reduce cfg fuel) room) env labels.length operands
          (refs.map m.store.head)
        return (c, given)) m := by
  -- on the wrappers; the list that a round makes is hidden from the rounds after it
  induction labels generalizing operands refs m H x with
  | nil =>
    rw [Value.wrapped, List.foldr_nil, unwrapAll_plain hc]
    rfl
  | cons label labels ih =>
    have hround := operandValues_each operands rfl hpairs hfuel hspares
    have hclosed : closed operands .nil = fun vs => pure vs := funext fun vs => if_pos rfl
    rw [hclosed, bind_pure] at hround
    rw [Value.wrapped, List.foldr_cons, unwrapAll, List.length_cons, Evaluation.rounds]
    simp only [Bind.bind, EStateM.bind, hround]
    cases heach : Evaluation.each (nested (reduce cfg fuel) room) env (refs.map m.store.head) m with
    | error e m' => rfl
    | ok vs m₁ =>
      obtain ⟨y, hy, hhides, hpublic, hlength, -⟩ := each_hides hcfg hm hes henv henvIn heach
      obtain ⟨⟨store, effects⟩, stack, steps, calls⟩ := m₁
      obtain ⟨H', z, refs', hhides', hpairs', hheads, hhidden, hpublic', henv', henvIn'⟩ :=
        (show store.Hides H y from hhides).fresh_list hpublic henv (hy.frame_lt henvIn)
      have hlength' : refs'.length = refs.length := by
        have hmapped := congrArg List.length hheads
        rw [List.length_map] at hmapped
        rw [hmapped, hlength, List.length_map]
      let m₂ : Machine := ⟨⟨(store.list vs .nil).2, effects⟩, stack, steps, calls⟩
      have hvs : ∀ v ∈ refs'.map m₂.store.head, H'.Public z v :=
        (show refs'.map m₂.store.head = vs from hheads) ▸ hpublic'
      have hunmoved : Evaluation.Spares (nested (reduce cfg fuel) room) env refs'
          (refs'.map m₂.store.head) m₂ :=
        spares_hidden hcfg (m := m₂) hhides' hvs henv' henvIn' hhidden
      have hrest := ih (m := m₂) hhides' hvs henv' henvIn' hpairs' (hlength' ▸ hfuel) hunmoved
      rw [show refs'.map m₂.store.head = vs from hheads] at hrest
      have hmade : (Deed.makes fun s => s.list vs .nil).act ⟨⟨store, effects⟩, stack, steps, calls⟩ =
          .ok (store.list vs .nil).1 m₂ := rfl
      simp only [hmade]
      refine Eq.trans hrest ?_
      simp only [Bind.bind, EStateM.bind]
      cases Evaluation.rounds (nested (reduce cfg fuel) room) env labels.length
        (store.list vs .nil).1 vs m₂ with
      | error e m₃ => rfl
      | ok r m₃ => rfl

end Hiding

namespace Evaluation

variable {ev : Evaluation} {env : Nat} {m m' : Machine}

theorem length_each {es vs : List Value} (h : ev.each env es m = .ok vs m') :
    vs.length = es.length := by
  induction es generalizing vs m with
  | nil =>
    cases h
    rfl
  | cons e es ih =>
    rw [each_cons] at h
    obtain ⟨v, m₁, -, h⟩ := Action.bind_eq_ok h
    obtain ⟨us, m₂, hus, h⟩ := Action.bind_eq_ok h
    cases h
    exact congrArg (· + 1) (ih hus)

/-- As many rounds are made as are asked for, with as many values in each, and what is returned is a
list of the last ones. -/
theorem rounds_ok {k : Nat} {operands given : Value} {es : List Value} {rounds : List (List Value)}
    (hitems : m.store.Items .nil operands es)
    (h : ev.rounds env k operands es m = .ok (given, rounds) m') :
    rounds.length = k ∧ (∀ vs ∈ rounds, vs.length = es.length) ∧
      m'.store.Items .nil given (rounds.getLast?.getD es) := by
  induction k generalizing operands es rounds m with
  | zero =>
    cases h
    exact ⟨rfl, List.forall_mem_nil _, hitems⟩
  | succ k ih =>
    obtain ⟨vs, m₁, hvs, h⟩ := Action.bind_eq_ok h
    obtain ⟨fresh, m₂, hfresh, h⟩ := Action.bind_eq_ok h
    obtain ⟨⟨given', later⟩, m₃, hlater, h⟩ := Action.bind_eq_ok h
    cases h
    have hitems' : m₂.store.Items .nil fresh vs := by
      obtain ⟨⟨store, effects⟩, stack, steps, calls⟩ := m₁
      cases hfresh
      exact store.items_list vs .nil
    obtain ⟨hlength, hlengths, hgiven⟩ := ih hitems' hlater
    have hvs := length_each hvs
    refine ⟨congrArg (· + 1) hlength, List.forall_mem_cons.mpr ⟨hvs, fun us hus => ?_⟩, ?_⟩
    · exact (hlengths us hus).trans hvs
    · rwa [List.getLast?_cons, Option.getD_some]

/-- Where there are rounds at all, what is returned is a list of the values of a last one. -/
theorem rounds_given {k : Nat} (hk : 0 < k) {operands given : Value} {es : List Value}
    {rounds : List (List Value)} (hitems : m.store.Items .nil operands es)
    (h : ev.rounds env k operands es m = .ok (given, rounds) m') :
    rounds.length = k ∧ rounds.flatten.length = k * es.length ∧
      ∃ vs, rounds.getLast? = some vs ∧ m'.store.Items .nil given vs := by
  obtain ⟨hlength, hlengths, hgiven⟩ := rounds_ok hitems h
  have hcount : rounds.flatten.length = k * es.length := by
    rw [List.length_flatten, List.map_congr_left hlengths, List.map_const', List.sum_replicate_nat,
      hlength]
  have hne : rounds ≠ [] := List.length_pos_iff.mp (hlength ▸ hk)
  rw [List.getLast?_eq_some_getLast hne, Option.getD_some] at hgiven
  exact ⟨hlength, hcount, _, List.getLast?_eq_some_getLast hne, hgiven⟩

end Evaluation

/-- What an activation does with a combination until it has the value of the operator. -/
def operatorValue (cfg : Settings) (ev : Evaluation) (base r env : Nat) : Action Value := do
  Action.tick cfg.stepLimit
  Action.enter base (.pair r)
  let head ← (Deed.reads fun s => s.head r).act
  ev head env

theorem reduce_pair (cfg : Settings) (fuel room base r env : Nat) :
    reduce cfg (fuel + 1) room base (.pair r) env = (do
      let operator ← operatorValue cfg (nested (reduce cfg fuel) room) base r env
      let operands ← (Deed.reads fun s => s.tail r).act
      let (combiner, given) ← unwrapAll (nested (reduce cfg fuel) room) env fuel operator operands
      finish cfg room combiner given env fuel base) := by
  have hreduce : reduce cfg (fuel + 1) room base (.pair r) env =
      (turn cfg (nested (reduce cfg fuel) room) fuel room base (.pair r) env >>=
        conclude base (reduce cfg fuel room base)) := by
    rw [reduce]
    congr 1
  simp only [hreduce, turn, operatorValue, resolve, finish, bind_assoc]

theorem reduce_of_operator {cfg : Settings} {fuel room base r env : Nat} {operator : Value}
    {m m₁ : Machine}
    (h : operatorValue cfg (nested (reduce cfg fuel) room) base r env m = .ok operator m₁) :
    reduce cfg (fuel + 1) room base (.pair r) env m = (do
      let (combiner, given) ←
        unwrapAll (nested (reduce cfg fuel) room) env fuel operator (m₁.store.tail r)
      finish cfg room combiner given env fuel base) m₁ := by
  refine (congrFun (reduce_pair cfg fuel room base r env) m).trans ?_
  simp only [Bind.bind, EStateM.bind, h]
  rfl

open Vau.Action in
theorem keeps_operatorValue {cfg : Settings} (hcfg : cfg.Honest) (fuel room base r : Nat) {env : Nat}
    {x : Extent} (henv : env < x.frames) :
    (operatorValue cfg (nested (reduce cfg fuel) room) base r env).Keeps none 0 0 x
      fun y v => v.In y := by
  have htick : (tick cfg.stepLimit).Keeps none 0 0 x fun _ _ => True := keeps_tick fun _ h => nomatch h
  refine htick.bind fun y _ hy _ => ?_
  refine (keeps_enter base _).bind fun z _ hz _ => ?_
  refine (keeps_head r).bind fun u head hu hhead => ?_
  exact keeps_nested hcfg.keeps fuel room 0 u head env (Nat.zero_le _) hhead
    (((hy.trans hz).trans hu).frame_lt henv)

/-- A list that is not proper is refused in the first round, when its elements have been evaluated. -/
theorem unwrapAll_dotted {ev : Evaluation} {env fuel : Nat} {u operands last : Value} {refs : List Nat}
    {m : Machine} (label : Nat) (hlast : last.isPair = false) (hdotted : last ≠ .nil)
    (hpairs : m.store.Pairs last operands refs) (hfuel : refs.length ≤ fuel)
    (hspares : ev.Spares env refs (refs.map m.store.head) m) :
    unwrapAll ev env fuel (.applicative label u) operands m = (do
      let _ ← ev.each env (refs.map m.store.head)
      Action.fail (.arity (.text "proper operand list") operands)) m := by
  have hround := operandValues_each operands hlast hpairs hfuel hspares
  have hclosed : closed operands last =
      fun _ => Action.fail (.arity (.text "proper operand list") operands) :=
    funext fun vs => if_neg hdotted
  rw [hclosed] at hround
  rw [unwrapAll]
  simp only [Bind.bind, EStateM.bind] at hround ⊢
  rw [hround]
  cases ev.each env (refs.map m.store.head) m with
  | error e m' => rfl
  | ok vs m' => rfl

theorem reduce_rounds {cfg : Settings} (hcfg : cfg.Honest) {fuel room base r env : Nat} {x : Extent}
    {m m₁ : Machine} (hsound : m.store.Sound x) (henv : env < x.frames) {c : Value}
    (hc : c.isApplicative = false) {labels : List Nat}
    (hoperator : operatorValue cfg (nested (reduce cfg fuel) room) base r env m =
      .ok (c.wrapped labels) m₁) {refs : List Nat}
    (hpairs : m₁.store.Pairs .nil (m₁.store.tail r) refs) (hfuel : refs.length ≤ fuel)
    (hspares : Evaluation.Spares (nested (reduce cfg fuel) room) env refs
      (refs.map m₁.store.head) m₁) :
    reduce cfg (fuel + 1) room base (.pair r) env m = (do
      let (given, _) ← Evaluation.rounds (nested (reduce cfg fuel) room) env labels.length
        (m₁.store.tail r) (refs.map m₁.store.head)
      finish cfg room c given env fuel base) m₁ := by
  have hkept := keeps_operatorValue hcfg fuel room base r henv x m (.refl x) hsound
    fun _ hl => nomatch hl
  rw [hoperator] at hkept
  obtain ⟨y, hy, hsound₁, -, -⟩ := hkept
  have hpublic : ∀ e ∈ refs.map m₁.store.head, Hidden.none.Public y e := by
    intro e he
    obtain ⟨q, -, rfl⟩ := List.mem_map.mp he
    exact ⟨.none _, hsound₁.head q⟩
  have hunwrap := unwrapAll_rounds hcfg hc labels hsound₁.hides hpublic (fun h => h)
    (hy.frame_lt henv) hpairs hfuel hspares
  rw [reduce_of_operator hoperator]
  simp only [Bind.bind, EStateM.bind] at hunwrap ⊢
  rw [hunwrap]
  cases Evaluation.rounds (nested (reduce cfg fuel) room) env labels.length (m₁.store.tail r)
    (refs.map m₁.store.head) m₁ with
  | error e m' => rfl
  | ok given m' => rfl

/-- When the operator has come to a combiner in wrappers, the operands are evaluated in as many
rounds, and the combiner is called with the list of what the last round gives; if a round fails, so
does the combination, and the combiner is not called. A list that is not proper is refused in the
first round, when its elements have been evaluated. -/
theorem wrapped_in_rounds {cfg : Settings} (hcfg : cfg.Honest) {fuel room base r env : Nat}
    {x : Extent} {m m₁ : Machine} (hsound : m.store.Sound x) (henv : env < x.frames) {c : Value}
    (hc : c.isApplicative = false) {labels : List Nat} (hlabels : labels ≠ [])
    (hoperator : operatorValue cfg (nested (reduce cfg fuel) room) base r env m =
      .ok (c.wrapped labels) m₁) {last : Value} (hlast : last.isPair = false) {refs : List Nat}
    (hpairs : m₁.store.Pairs last (m₁.store.tail r) refs) (hfuel : refs.length ≤ fuel)
    (hspares : Evaluation.Spares (nested (reduce cfg fuel) room) env refs
      (refs.map m₁.store.head) m₁) :
    let ev := nested (reduce cfg fuel) room
    let operands := m₁.store.tail r
    let es := refs.map m₁.store.head
    let outcome := reduce cfg (fuel + 1) room base (.pair r) env m
    (last = .nil →
      outcome = (do
        let (given, _) ← ev.rounds env labels.length operands es
        finish cfg room c given env fuel base) m₁ ∧
      (∀ e m', ev.rounds env labels.length operands es m₁ = .error e m' → outcome = .error e m') ∧
      ∀ given rounds m', ev.rounds env labels.length operands es m₁ = .ok (given, rounds) m' →
        rounds.length = labels.length ∧ rounds.flatten.length = labels.length * es.length ∧
        (∃ vs, rounds.getLast? = some vs ∧ m'.store.Items .nil given vs) ∧
        outcome = finish cfg room c given env fuel base m') ∧
    (last ≠ .nil → outcome = (do
      let _ ← ev.each env es
      Action.fail (.arity (.text "proper operand list") operands)) m₁) := by
  intro ev operands es outcome
  refine ⟨?_, fun hdotted => ?_⟩
  · rintro rfl
    have hrounds : outcome = (do
        let (given, _) ← ev.rounds env labels.length operands es
        finish cfg room c given env fuel base) m₁ :=
      reduce_rounds hcfg hsound henv hc hoperator hpairs hfuel hspares
    refine ⟨hrounds, fun e m' h => ?_, fun given rounds m' h => ?_⟩
    · rw [hrounds]
      simp only [Bind.bind, EStateM.bind, h]
    · obtain ⟨hlength, hcount, hgiven⟩ :=
        Evaluation.rounds_given (List.length_pos_iff.mpr hlabels) hpairs.items h
      refine ⟨hlength, hcount, hgiven, ?_⟩
      rw [hrounds]
      simp only [Bind.bind, EStateM.bind, h]
  · obtain ⟨label, labels, rfl⟩ := List.exists_cons_of_ne_nil hlabels
    have hrefused := unwrapAll_dotted (u := c.wrapped labels) label hlast hdotted hpairs hfuel hspares
    have hstart : outcome = _ := reduce_of_operator hoperator
    rw [hstart, Value.wrapped, List.foldr_cons, ← Value.wrapped]
    simp only [Bind.bind, EStateM.bind] at hrefused ⊢
    rw [hrefused]
    cases ev.each env es m₁ with
    | error e m' => rfl
    | ok vs m' => rfl

/-- The combination `(f a a)` where `f` is `cons` in two wrappers and `a` stands for a symbol. -/
def twiceMachine : Machine :=
  { world := { store := {
      cells := #[⟨.applicative 1 (.applicative 0 (.primitive (.operation .cons))), .pair 1, none⟩,
        ⟨.sym "a", .pair 2, none⟩, ⟨.sym "a", .nil, none⟩]
      frames := #[⟨[("a", .sym "b"), ("b", .int 7)], none⟩]
      wrappers := 2 } } }

theorem sound_twice : twiceMachine.store.Sound
    ⟨3, 1, 0, [.primitive (.operation .cons), .applicative 0 (.primitive (.operation .cons))]⟩ where
  cells_size := rfl
  frames_size := rfl
  operatives_size := rfl
  wrappers_eq := rfl
  cells := by
    intro i c hc
    rcases i with _ | _ | _ | i <;> cases hc <;>
      simp [Cell.In, Value.In, twiceMachine, Machine.store]
  frames := by
    intro i f hf
    rcases i with _ | i <;> cases hf
    simp [Frame.In, Value.In, twiceMachine, Machine.store]
  operatives := by
    intro i o ho
    cases ho

theorem wrapped_in_rounds_twice :
    let ev := nested (reduce {} 10) 2
    let m₁ : Machine := { twiceMachine with stack := #[.pair 0], steps := 2 }
    ∃ given m', ev.rounds 0 2 (.pair 1) [.sym "a", .sym "a"] m₁ =
        .ok (given, [[.sym "b", .sym "b"], [.int 7, .int 7]]) m' ∧
      reduce {} 11 2 0 (.pair 0) 0 twiceMachine =
        finish {} 2 (.primitive (.operation .cons)) given 0 10 0 m' := by
  intro ev m₁
  have hoperator : operatorValue {} ev 0 0 0 twiceMachine =
      .ok ((Value.primitive (.operation .cons)).wrapped [1, 0]) m₁ := rfl
  have hpairs : m₁.store.Pairs .nil (m₁.store.tail 0) [1, 2] :=
    .pair (by decide) (.pair (by decide) .done)
  have hspares : Evaluation.Spares ev 0 [1, 2] ([1, 2].map m₁.store.head) m₁ := by
    intro done later vs m' hsplit hdone r hr
    rcases done with _ | ⟨e, _ | ⟨e', _ | ⟨e'', done⟩⟩⟩ <;> cases hsplit <;> cases hdone <;> rfl
  obtain ⟨hproper, -⟩ := wrapped_in_rounds (.of_empty rfl) sound_twice (by decide) rfl (by decide)
    hoperator rfl hpairs (by decide) hspares
  obtain ⟨-, -, hdone⟩ := hproper rfl
  have hrounds : ∃ given m', ev.rounds 0 2 (.pair 1) [.sym "a", .sym "a"] m₁ =
      .ok (given, [[.sym "b", .sym "b"], [.int 7, .int 7]]) m' := ⟨_, _, rfl⟩
  obtain ⟨given, m', h⟩ := hrounds
  exact ⟨given, m', h, (hdone given _ m' h).2.2.2⟩

end Vau
