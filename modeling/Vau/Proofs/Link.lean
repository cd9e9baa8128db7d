import Mathlib.Data.List.Forall2
import Mathlib.Data.Option.Basic
import Vau.Proofs.Respect

/-! Runs side by side. Two runs of the evaluator that start from corresponding values in
corresponding worlds take the same course, as soon as what is done with the worlds on the way
keeps them in correspondence. What corresponds to what is left open: the pairs of one store may
have other places in the other, the one run may have more room, or both runs may be the same and
the correspondence tell what a program can get hold of. -/

namespace Vau

/-- Which places in one store stand for which in another, and the names and primitives that occur
in corresponding values. -/
structure Link where
  cell : Nat → Nat → Prop := Eq
  frame : Nat → Nat → Prop := Eq
  operative : Nat → Nat → Prop := Eq
  name : String → Prop := fun _ => True
  primitive : Primitive → Prop := fun _ => True

inductive Value.Linked (l : Link) : Value → Value → Prop
  | nil : Linked l .nil .nil
  | ignore : Linked l .ignore .ignore
  | inert : Linked l .inert .inert
  | bool (b : Bool) : Linked l (.bool b) (.bool b)
  | int (n : Int) : Linked l (.int n) (.int n)
  | str (s : String) : Linked l (.str s) (.str s)
  | sym {name : String} (h : l.name name) : Linked l (.sym name) (.sym name)
  | pair {r r' : Nat} (h : l.cell r r') : Linked l (.pair r) (.pair r')
  | env {e e' : Nat} (h : l.frame e e') : Linked l (.env e) (.env e')
  | operative {r r' : Nat} (h : l.operative r r') : Linked l (.operative r) (.operative r')
  | applicative (label : Nat) {u u' : Value} (h : Linked l u u') :
    Linked l (.applicative label u) (.applicative label u')
  | primitive {p : Primitive} (h : l.primitive p) : Linked l (.primitive p) (.primitive p)

structure Operative.Linked (l : Link) (o o' : Operative) : Prop where
  scope : l.frame o.scope o'.scope
  formals : o.formals.Linked l o'.formals
  dynamic : o.dynamic.Linked l o'.dynamic
  body : List.Forall₂ (Value.Linked l) o.body o'.body
  name : o'.name = o.name

inductive Answer.Linked (l : Link) : Answer → Answer → Prop
  | value {v v' : Value} (h : v.Linked l v') : Linked l (.value v) (.value v')
  | proceed {v v' : Value} {e e' : Nat} (h : v.Linked l v') (he : l.frame e e') :
    Linked l (.proceed v e) (.proceed v' e')

inductive Failure.Linked (l : Link) : Failure → Failure → Prop
  | unbound (name : String) : Linked l (.unbound name) (.unbound name)
  | arity (s : String) {v v' : Value} (h : v.Linked l v') :
    Linked l (.arity (.text s) v) (.arity (.text s) v')
  | shape {p p' v v' : Value} (hp : p.Linked l p') (h : v.Linked l v') :
    Linked l (.arity (.shape p) v) (.arity (.shape p') v')
  | notCombinable {v v' : Value} (h : v.Linked l v') :
    Linked l (.notCombinable v) (.notCombinable v')
  | typeMismatch (s : String) {v v' : Value} (h : v.Linked l v') :
    Linked l (.typeMismatch s v) (.typeMismatch s v')
  | stackExhausted : Linked l .stackExhausted .stackExhausted
  | stepLimit (n : Int) : Linked l (.stepLimit n) (.stepLimit n)
  | divisionByZero (s : String) (n : Int) : Linked l (.divisionByZero s n) (.divisionByZero s n)
  | user (s : String) {vs vs' : List Value} (h : List.Forall₂ (Value.Linked l) vs vs') :
    Linked l (.user s vs) (.user s vs')

inductive Stop.Linked (l : Link) : Stop → Stop → Prop
  | failure {f f' : Failure} (h : f.Linked l f') : Linked l (.failure f) (.failure f')
  | digits : Linked l .digits .digits
  | endless : Linked l .endless .endless
  | outOfFuel : Linked l .outOfFuel .outOfFuel

namespace Value.Linked

variable {l : Link} {v v' : Value}

theorem isPair_eq (h : v.Linked l v') : v'.isPair = v.isPair := by cases h <;> rfl

theorem isCombiner_eq (h : v.Linked l v') : v'.isCombiner = v.isCombiner := by cases h <;> rfl

theorem nil_iff (h : v.Linked l v') : v' = .nil ↔ v = .nil := by cases h <;> simp

theorem holds_eq (h : v.Linked l v') (t : Test) : t.holds v' = t.holds v := by
  cases h <;> cases t <;> rfl

end Value.Linked

/-- How two runs are compared: what is linked, and the stops of the first run after which nothing
is said of the second. -/
structure Terms where
  link : Link
  quits : Stop → Prop

/-- What is left to the first run is left to the second as well, or else enough more that the first
one's reaching its limit can be a reason to quit. -/
def Terms.Fits (c : Terms) (n n' : Nat) : Prop :=
  n' = n ∨ n ≤ n' ∧ c.quits .outOfFuel ∧ c.quits (.failure .stackExhausted)

theorem Terms.Fits.of_succ {c : Terms} {n n' : Nat} (h : c.Fits (n + 1) n') :
    ∃ k, n' = k + 1 ∧ c.Fits n k := by
  rcases h with rfl | ⟨hle, hquits⟩
  · exact ⟨n, rfl, .inl rfl⟩
  · exact ⟨n' - 1, by omega, .inr ⟨by omega, hquits⟩⟩

/-- Two courses of evaluation that are compared, and how their worlds and the entries of their call
stacks correspond. -/
structure Course extends Terms where
  world : World → World → Prop
  entry : Value → Value → Prop

/-- Ends that correspond. -/
inductive Course.Ends (c : Course) {σ τ α β : Type} (S : σ → τ → Prop) (R : α → β → Prop) :
    EStateM.Result Stop σ α → EStateM.Result Stop τ β → Prop
  | ok {a : α} {b : β} {s : σ} {t : τ} (hR : R a b) (hS : S s t) : Ends c S R (.ok a s) (.ok b t)
  | error {e e' : Stop} {s : σ} {t : τ} (he : e.Linked c.link e') (hS : S s t) :
    Ends c S R (.error e s) (.error e' t)
  | quit {e : Stop} {s : σ} {r : EStateM.Result Stop τ β} (he : c.quits e) :
    Ends c S R (.error e s) r

namespace Course

/-- Machines in corresponding worlds, with as many steps and corresponding frames. -/
structure Machines (c : Course) (m m' : Machine) : Prop where
  world : c.world m.world m'.world
  stack : List.Forall₂ c.entry m.stack.toList m'.stack.toList
  steps : m'.steps = m.steps

end Course

/-- Two deeds that from corresponding worlds come to corresponding ends. -/
def Deed.Tied (c : Course) {α β : Type} (R : α → β → Prop) (d : Deed α) (d' : Deed β) : Prop :=
  ∀ w w', c.world w w' → c.Ends c.world R (d w) (d' w')

/-- Two actions that from corresponding machines come to corresponding ends. -/
def Action.Tied (c : Course) {α β : Type} (R : α → β → Prop) (x : Action α) (y : Action β) : Prop :=
  ∀ m m', c.Machines m m' → c.Ends c.Machines R (x m) (y m')

theorem Course.Ends.bind {c : Course} {σ τ α β γ δ : Type} {S : σ → τ → Prop} {R : α → β → Prop}
    {Q : γ → δ → Prop} {x : EStateM Stop σ α} {y : EStateM Stop τ β} {f : α → EStateM Stop σ γ}
    {g : β → EStateM Stop τ δ} {s : σ} {t : τ} (h : c.Ends S R (x s) (y t))
    (hf : ∀ a b s t, R a b → S s t → c.Ends S Q (f a s) (g b t)) :
    c.Ends S Q ((x >>= f) s) ((y >>= g) t) := by
  simp only [Bind.bind, EStateM.bind]
  generalize x s = r, y t = r' at h ⊢
  cases h with
  | ok hR hS => exact hf _ _ _ _ hR hS
  | error he hS => exact .error he hS
  | quit he => exact .quit he

namespace Deed

variable {c : Course} {α β γ δ : Type} {R : α → β → Prop} {Q : γ → δ → Prop}

theorem Tied.bind {d : Deed α} {d' : Deed β} {f : α → Deed γ} {g : β → Deed δ}
    (h : Tied c R d d') (hf : ∀ a b, R a b → Tied c Q (f a) (g b)) :
    Tied c Q (d >>= f) (d' >>= g) :=
  fun _ _ hw => (h _ _ hw).bind fun a b _ _ hR hS => hf a b hR _ _ hS

theorem tied_pure {a : α} {b : β} (h : R a b) : Tied c R (pure a) (pure b) :=
  fun _ _ hw => .ok h hw

theorem tied_fail {f f' : Failure} (h : f.Linked c.link f') : Tied c R (fail f) (fail f') :=
  fun _ _ hw => .error (.failure h) hw

theorem tied_computed {r : Except Failure α} {r' : Except Failure β}
    (h : (∃ a b, r = .ok a ∧ r' = .ok b ∧ R a b) ∨
      ∃ f f', r = .error f ∧ r' = .error f' ∧ f.Linked c.link f') :
    Tied c R (Operation.computed r) (Operation.computed r') := by
  rcases h with ⟨a, b, rfl, rfl, hR⟩ | ⟨f, f', rfl, rfl, hf⟩
  · exact tied_pure hR
  · exact tied_fail hf

end Deed

/-- What the evaluator does with two worlds keeps them in correspondence. -/
structure Course.Kept (c : Course) : Prop where
  entry : ∀ {r r'}, c.link.cell r r' → c.entry (.pair r) (.pair r')
  head : ∀ {r r'}, c.link.cell r r' → Deed.Tied c (Value.Linked c.link)
    (Deed.reads fun s => s.head r) (Deed.reads fun s => s.head r')
  tail : ∀ {r r'}, c.link.cell r r' → Deed.Tied c (Value.Linked c.link)
    (Deed.reads fun s => s.tail r) (Deed.reads fun s => s.tail r')
  lookup : ∀ {e e' name}, c.link.frame e e' → c.link.name name →
    Deed.Tied c (Option.Rel (Value.Linked c.link))
      (Deed.reads fun s => s.lookup? e name) (Deed.reads fun s => s.lookup? e' name)
  owner : ∀ {e e' name}, c.link.frame e e' → c.link.name name →
    Deed.Tied c (Option.Rel c.link.frame)
      (Deed.reads fun s => s.owner? e name) (Deed.reads fun s => s.owner? e' name)
  operative : ∀ {r r'}, c.link.operative r r' → Deed.Tied c (Operative.Linked c.link)
    (Deed.reads fun s => s.operative r) (Deed.reads fun s => s.operative r')
  operands : ∀ signature {v v'}, v.Linked c.link v' →
    Deed.Tied c (List.Forall₂ (Value.Linked c.link))
      (checkedOperands signature v) (checkedOperands signature v')
  names : ∀ {v v'}, v.Linked c.link v' → Deed.Tied c Eq
    (Deed.tries fun s => s.formalNames v) (Deed.tries fun s => s.formalNames v')
  binds : ∀ {e e' p p' o o'}, c.link.frame e e' → p.Linked c.link p' → o.Linked c.link o' →
    Deed.Tied c (fun _ _ => True) (Deed.binds e p o) (Deed.binds e' p' o')
  equal : ∀ {room room' vs vs'}, c.Fits room room' → List.Forall₂ (Value.Linked c.link) vs vs' →
    Deed.Tied c Eq (Deed.tries fun s => s.allEqual room vs) (Deed.tries fun s => s.allEqual room' vs')
  identical : ∀ {a a' b b'}, Value.Linked c.link a a' → Value.Linked c.link b b' →
    a'.identical b' = a.identical b
  texts : ∀ {room room' vs vs'}, c.Fits room room' → List.Forall₂ (Value.Linked c.link) vs vs' →
    Deed.Tied c Eq (Deed.tries fun s => vs.mapM (s.format room .shown))
      (Deed.tries fun s => vs'.mapM (s.format room' .shown))
  records : ∀ e, Deed.Tied c (fun _ _ => True) (Deed.records e) (Deed.records e)
  cons : ∀ {x x' y y'}, x.Linked c.link x' → y.Linked c.link y' →
    Deed.Tied c (Value.Linked c.link)
      (Deed.makes fun s => s.cons x y none) (Deed.makes fun s => s.cons x' y' none)
  list : ∀ {vs vs'}, List.Forall₂ (Value.Linked c.link) vs vs' →
    Deed.Tied c (Value.Linked c.link)
      (Deed.makes fun s => s.list vs .nil) (Deed.makes fun s => s.list vs' .nil)
  newFrame : ∀ {p p'}, Option.Rel c.link.frame p p' → Deed.Tied c c.link.frame
    (Deed.makes fun s => s.newFrame p) (Deed.makes fun s => s.newFrame p')
  newOperative : ∀ {o o'}, Operative.Linked c.link o o' → o.name = none →
    Deed.Tied c (Value.Linked c.link)
      (Deed.makes fun s => s.newOperative o) (Deed.makes fun s => s.newOperative o')
  wrap : ∀ {v v'}, v.Linked c.link v' → Deed.Tied c (Value.Linked c.link)
    (Deed.makes fun s => s.wrap v) (Deed.makes fun s => s.wrap v')
  define : ∀ {e e' name v v'}, c.link.frame e e' → c.link.name name → v.Linked c.link v' →
    Deed.Tied c (fun _ _ => True)
      (Deed.changes fun s => s.define e name v) (Deed.changes fun s => s.define e' name v')
  giveName : ∀ {name v v'}, v.Linked c.link v' → Deed.Tied c (fun _ _ => True)
    (Deed.changes fun s => s.giveName v name) (Deed.changes fun s => s.giveName v' name)
  setHead : ∀ {r r' v v'}, c.link.primitive (.operation .setHead) → c.link.cell r r' →
    v.Linked c.link v' → Deed.Tied c (fun _ _ => True)
      (Deed.changes fun s => s.setHead r v) (Deed.changes fun s => s.setHead r' v')
  setTail : ∀ {r r' v v'}, c.link.primitive (.operation .setTail) → c.link.cell r r' →
    v.Linked c.link v' → Deed.Tied c (fun _ _ => True)
      (Deed.changes fun s => s.setTail r v) (Deed.changes fun s => s.setTail r' v')

namespace Operation

open Deed

variable {c : Course} {v v' : Value} {vs vs' : List Value}

theorem tied_pairOperand (h : v.Linked c.link v') :
    Tied c c.link.cell (pairOperand v) (pairOperand v') := by
  cases h with
  | pair hr => exact tied_pure hr
  | _ => exact tied_fail (.typeMismatch _ (by constructor <;> assumption))

theorem tied_envOperand (h : v.Linked c.link v') :
    Tied c c.link.frame (envOperand v) (envOperand v') := by
  cases h with
  | env he => exact tied_pure he
  | _ => exact tied_fail (.typeMismatch _ (by constructor <;> assumption))

theorem tied_checkDynamic (names : List String) (h : v.Linked c.link v') :
    Tied c (fun _ _ => True) (checkDynamic names v) (checkDynamic names v') := by
  cases h with
  | @sym name hname =>
    simp only [checkDynamic]
    split
    · exact tied_fail (.typeMismatch _ (.sym hname))
    · exact tied_pure trivial
  | ignore | nil => exact tied_pure trivial
  | _ => exact tied_fail (.typeMismatch _ (by constructor <;> assumption))

theorem integerOperands_linked (operator : String) (h : List.Forall₂ (Value.Linked c.link) vs vs') :
    (∃ ns, integerOperands operator vs = .ok ns ∧ integerOperands operator vs' = .ok ns) ∨
      ∃ f f', integerOperands operator vs = .error f ∧ integerOperands operator vs' = .error f' ∧
        f.Linked c.link f' := by
  induction h with
  | nil => exact .inl ⟨[], rfl, rfl⟩
  | @cons v v' vs vs' hv _ ih =>
    have hfirst : (∃ n, integerOperand operator v = .ok n ∧ integerOperand operator v' = .ok n) ∨
        ∃ f f', integerOperand operator v = .error f ∧ integerOperand operator v' = .error f' ∧
          f.Linked c.link f' := by
      cases hv with
      | int n => exact .inl ⟨n, rfl, rfl⟩
      | _ => exact .inr ⟨_, _, rfl, rfl, .typeMismatch _ (by constructor <;> assumption)⟩
    simp only [integerOperands, List.mapM_cons] at ih ⊢
    rcases hfirst with ⟨n, hn, hn'⟩ | ⟨f, f', hf, hf', hlinked⟩
    · rw [hn, hn']
      rcases ih with ⟨ns, hns, hns'⟩ | ⟨f, f', hf, hf', hlinked⟩
      · rw [hns, hns']
        exact .inl ⟨n :: ns, rfl, rfl⟩
      · rw [hf, hf']
        exact .inr ⟨f, f', rfl, rfl, hlinked⟩
    · rw [hf, hf']
      exact .inr ⟨f, f', rfl, rfl, hlinked⟩

theorem compute_linked (a : Arithmetic) (ns : List Int) {f : Failure}
    (h : a.compute ns = .error f) : f.Linked c.link f := by
  unfold Arithmetic.compute at h
  split at h
  case h_5 | h_6 | h_7 =>
    unfold Arithmetic.divide at h
    split at h
    · cases h
      exact .divisionByZero _ _
    · cases h
  case h_8 =>
    cases h
    exact .arity _ .nil
  all_goals cases h

theorem tied_arithmetic (a : Arithmetic) (h : List.Forall₂ (Value.Linked c.link) vs vs') :
    Tied c Eq (computed (a.apply vs)) (computed (a.apply vs')) := by
  refine tied_computed ?_
  unfold Arithmetic.apply
  rcases integerOperands_linked a.name h with ⟨ns, hns, hns'⟩ | ⟨f, f', hf, hf', hlinked⟩
  · rw [hns, hns']
    cases hr : a.compute ns with
    | ok n => exact .inl ⟨n, n, hr, hr, rfl⟩
    | error f => exact .inr ⟨f, f, hr, hr, compute_linked a ns hr⟩
  · rw [hf, hf']
    exact .inr ⟨f, f', rfl, rfl, hlinked⟩

theorem tied_compare (o : Comparison) (h : List.Forall₂ (Value.Linked c.link) vs vs') :
    Tied c Eq (computed (o.apply vs)) (computed (o.apply vs')) := by
  refine tied_computed ?_
  unfold Comparison.apply
  rcases integerOperands_linked o.name h with ⟨ns, hns, hns'⟩ | ⟨f, f', hf, hf', hlinked⟩
  · rw [hns, hns']
    exact .inl ⟨_, _, rfl, rfl, rfl⟩
  · rw [hf, hf']
    exact .inr ⟨f, f', rfl, rfl, hlinked⟩

theorem raised_linked (h : List.Forall₂ (Value.Linked c.link) vs vs') :
    (raised vs).Linked c.link (raised vs') := by
  cases h with
  | nil => exact .user _ .nil
  | cons hv hvs =>
    cases hv with
    | str s => exact .user s hvs
    | _ => exact .user _ (.cons (by constructor <;> assumption) hvs)

variable (h : c.Kept)
include h

theorem tied_value {room room' env env' : Nat} (hroom : c.Fits room room')
    (henv : c.link.frame env env') {o : Operation} (ho : c.link.primitive (.operation o))
    (hvs : List.Forall₂ (Value.Linked c.link) vs vs') :
    Tied c (Value.Linked c.link) (o.value room env vs) (o.value room' env' vs') := by
  have hfail : Tied c (Value.Linked c.link) (fail (.arity (.text o.signature.text) .nil))
      (fail (.arity (.text o.signature.text) .nil)) := tied_fail (.arity _ .nil)
  cases o with
  | arithmetic a => exact (tied_arithmetic a hvs).bind fun n _ hn => hn ▸ tied_pure (.int n)
  | compare o => exact (tied_compare o hvs).bind fun b _ hb => hb ▸ tied_pure (.bool b)
  | equal => exact (h.equal hroom hvs).bind fun b _ hb => hb ▸ tied_pure (.bool b)
  | display =>
    refine (h.texts hroom hvs).bind fun texts _ htexts => htexts ▸ ?_
    exact (h.records _).bind fun _ _ _ => tied_pure .inert
  | error => exact tied_fail (raised_linked hvs)
  | eval => cases hvs <;> exact hfail
  | vau =>
    rcases hvs with _ | ⟨hformals, _ | ⟨hdynamic, hbody⟩⟩
    · exact hfail
    · exact hfail
    · refine (h.names hformals).bind fun names _ hnames => hnames ▸ ?_
      refine (tied_checkDynamic names hdynamic).bind fun _ _ _ => ?_
      exact h.newOperative ⟨henv, hformals, hdynamic, hbody, rfl⟩ rfl
  | wrap =>
    rcases hvs with _ | ⟨hv, _ | ⟨hv', hrest⟩⟩
    · exact hfail
    · simp only [value, hv.isCombiner_eq]
      split
      · exact h.wrap hv
      · exact tied_fail (.typeMismatch _ hv)
    · exact hfail
  | unwrap =>
    rcases hvs with _ | ⟨hv, _ | ⟨hv', hrest⟩⟩
    · exact hfail
    · cases hv with
      | applicative label hu => exact tied_pure hu
      | _ => exact tied_fail (.typeMismatch _ (by constructor <;> assumption))
    · cases hv <;> exact hfail
  | makeEnvironment =>
    rcases hvs with _ | ⟨hv, _ | ⟨hv', hrest⟩⟩
    · exact (h.newFrame .none).bind fun _ _ he => tied_pure (.env he)
    · exact (tied_envOperand hv).bind fun _ _ hp =>
        (h.newFrame (.some hp)).bind fun _ _ he => tied_pure (.env he)
    · exact hfail
  | cons =>
    rcases hvs with _ | ⟨hx, _ | ⟨hy, _ | ⟨hz, hrest⟩⟩⟩
    · exact hfail
    · exact hfail
    · exact h.cons hx hy
    · exact hfail
  | head =>
    rcases hvs with _ | ⟨hv, _ | ⟨hv', hrest⟩⟩
    · exact hfail
    · exact (tied_pairOperand hv).bind fun _ _ => h.head
    · exact hfail
  | tail =>
    rcases hvs with _ | ⟨hv, _ | ⟨hv', hrest⟩⟩
    · exact hfail
    · exact (tied_pairOperand hv).bind fun _ _ => h.tail
    · exact hfail
  | setHead =>
    rcases hvs with _ | ⟨hv, _ | ⟨hx, _ | ⟨hz, hrest⟩⟩⟩
    · exact hfail
    · exact hfail
    · exact (tied_pairOperand hv).bind fun _ _ hr =>
        (h.setHead ho hr hx).bind fun _ _ _ => tied_pure .inert
    · exact hfail
  | setTail =>
    rcases hvs with _ | ⟨hv, _ | ⟨hx, _ | ⟨hz, hrest⟩⟩⟩
    · exact hfail
    · exact hfail
    · exact (tied_pairOperand hv).bind fun _ _ hr =>
        (h.setTail ho hr hx).bind fun _ _ _ => tied_pure .inert
    · exact hfail
  | same =>
    rcases hvs with _ | ⟨ha, _ | ⟨hb, _ | ⟨hz, hrest⟩⟩⟩
    · exact hfail
    · exact hfail
    · simp only [value, h.identical ha hb]
      exact tied_pure (.bool _)
    · exact hfail
  | test t =>
    rcases hvs with _ | ⟨hv, _ | ⟨hv', hrest⟩⟩
    · exact hfail
    · simp only [value, hv.holds_eq t]
      exact tied_pure (.bool _)
    · exact hfail

theorem tied_perform {room room' env env' : Nat} (hroom : c.Fits room room')
    (henv : c.link.frame env env') {o : Operation} (ho : c.link.primitive (.operation o))
    (hvs : List.Forall₂ (Value.Linked c.link) vs vs') :
    Tied c (Answer.Linked c.link) (o.perform room env vs) (o.perform room' env' vs') := by
  have hvalue := (tied_value h hroom henv ho hvs).bind (Q := Answer.Linked c.link)
    fun _ _ hv => tied_pure (.value hv)
  cases o with
  | eval =>
    rcases hvs with _ | ⟨hv, _ | ⟨he, _ | ⟨hz, hrest⟩⟩⟩
    · exact hvalue
    · exact hvalue
    · exact (tied_envOperand he).bind fun _ _ he => tied_pure (.proceed hv he)
    · exact hvalue
  | _ => exact hvalue

end Operation

namespace Action

variable {c : Course}

section Combinators

variable {α β γ δ : Type} {R : α → β → Prop} {Q : γ → δ → Prop}

theorem Tied.bind {x : Action α} {y : Action β} {f : α → Action γ} {g : β → Action δ}
    (h : Tied c R x y) (hf : ∀ a b, R a b → Tied c Q (f a) (g b)) :
    Tied c Q (x >>= f) (y >>= g) :=
  fun _ _ hm => (h _ _ hm).bind fun a b _ _ hR hS => hf a b hR _ _ hS

theorem tied_act {d : Deed α} {d' : Deed β} (h : Deed.Tied c R d d') :
    Tied c R d.act d'.act := by
  intro m m' hm
  have hends := h _ _ hm.world
  simp only [Deed.act]
  generalize d m.world = r, d' m'.world = r' at hends ⊢
  cases hends with
  | ok hR hS => exact .ok hR ⟨hS, hm.stack, hm.steps⟩
  | error he hS => exact .error he ⟨hS, hm.stack, hm.steps⟩
  | quit he => exact .quit he

theorem tied_pure {a : α} {b : β} (h : R a b) : Tied c R (pure a) (pure b) :=
  fun _ _ hm => .ok h hm

theorem tied_fail {f f' : Failure} (h : f.Linked c.link f') : Tied c R (fail f) (fail f') :=
  fun _ _ hm => .error (.failure h) hm

theorem tied_outOfFuel : Tied c R (throw .outOfFuel) (throw .outOfFuel) :=
  fun _ _ hm => .error .outOfFuel hm

theorem tied_quit {e : Stop} (h : c.quits e) {y : Action β} : Tied c R (throw e) y :=
  fun _ _ _ => .quit h

end Combinators

theorem tied_notes (logging : Bool) (call : String) :
    Tied c (fun _ _ => True) (notes logging call) (notes logging call) := by
  intro m m' hm
  cases logging <;> exact .ok trivial ⟨hm.world, hm.stack, hm.steps⟩

theorem tied_tick (limit : Option Int) :
    Tied c (fun _ _ => True) (tick limit) (tick limit) := by
  intro m m' hm
  have hticked : c.Machines { m with steps := m.steps + 1 } { m' with steps := m'.steps + 1 } :=
    ⟨hm.world, hm.stack, congrArg (· + 1) hm.steps⟩
  cases limit with
  | none => exact .ok trivial hticked
  | some l =>
    simp only [tick, hm.steps] at hticked ⊢
    split
    · exact .error (.failure (.stepLimit l)) hticked
    · exact .ok trivial hticked

theorem forall₂_set {α β : Type} {R : α → β → Prop} {as : List α} {bs : List β}
    (h : List.Forall₂ R as bs) {a : α} {b : β} (hab : R a b) (i : Nat) :
    List.Forall₂ R (as.set i a) (bs.set i b) := by
  induction h generalizing i with
  | nil => exact .nil
  | cons hx hrest ih =>
    cases i with
    | zero => exact .cons hab hrest
    | succ i => exact .cons hx (ih i)

theorem tied_enter (base : Nat) {v v' : Value} (hv : c.entry v v') :
    Tied c (fun _ _ => True) (enter base v) (enter base v') := by
  intro m m' hm
  have hsize : m'.stack.size = m.stack.size := by
    simpa only [Array.length_toList] using hm.stack.length_eq.symm
  refine .ok trivial ⟨hm.world, ?_, hm.steps⟩
  simp only [hsize]
  split
  · rw [Array.toList_setIfInBounds, Array.toList_setIfInBounds]
    exact forall₂_set hm.stack hv base
  · rw [Array.toList_push, Array.toList_push]
    exact List.rel_append hm.stack (.cons hv .nil)

theorem tied_leave {α β : Type} {R : α → β → Prop} (base : Nat) {a : α} {b : β} (h : R a b) :
    Tied c R (leave base a) (leave base b) := by
  intro m m' hm
  refine .ok h ⟨hm.world, ?_, hm.steps⟩
  simp only [Array.toList_shrink]
  exact List.forall₂_take base hm.stack

end Action

/-- Two evaluations that from corresponding machines bring corresponding expressions to
corresponding ends. -/
def Evaluation.Tied (c : Course) (ev ev' : Evaluation) : Prop :=
  ∀ expr expr' env env', expr.Linked c.link expr' → c.link.frame env env' →
    Action.Tied c (Value.Linked c.link) (ev expr env) (ev' expr' env')

/-- The functions of the host keep what corresponds in correspondence. -/
def Settings.Tied (c : Course) (cfg : Settings) : Prop :=
  ∀ f ∈ cfg.functions, ∀ vs vs' env env', List.Forall₂ (Value.Linked c.link) vs vs' →
    c.link.frame env env' → Action.Tied c (Answer.Linked c.link) (f vs env) (f vs' env')

section Combining

open Vau.Action

variable {c : Course} (h : c.Kept) {ev ev' : Evaluation} (hev : Evaluation.Tied c ev ev')
include h hev

theorem tied_operandValues {env env' : Nat} (henv : c.link.frame env env') {operands operands' : Value}
    (hoperands : operands.Linked c.link operands') {fuel fuel' : Nat} (hfuel : c.Fits fuel fuel')
    {done done' : List Value} (hdone : List.Forall₂ (Value.Linked c.link) done done') {v v' : Value}
    (hv : v.Linked c.link v') :
    Tied c (List.Forall₂ (Value.Linked c.link)) (operandValues ev env operands fuel done v)
      (operandValues ev' env' operands' fuel' done' v') := by
  have hfail : Tied c (List.Forall₂ (Value.Linked c.link))
      (fail (.arity (.text "proper operand list") operands))
      (fail (.arity (.text "proper operand list") operands')) := tied_fail (.arity _ hoperands)
  induction fuel generalizing fuel' done done' v v' with
  | zero =>
    cases hv with
    | pair hr =>
      rcases hfuel with rfl | ⟨-, hquits, -⟩
      · exact tied_outOfFuel
      · exact tied_quit hquits
    | nil =>
      cases fuel' <;> exact tied_pure (List.forall₂_reverse_iff.mpr hdone)
    | _ => cases fuel' <;> exact hfail
  | succ fuel ih =>
    obtain ⟨fuel', rfl, hfuel'⟩ := hfuel.of_succ
    cases hv with
    | pair hr =>
      refine (tied_act (h.head hr)).bind fun _ _ hhead => ?_
      refine (hev _ _ _ _ hhead henv).bind fun _ _ hv => ?_
      exact (tied_act (h.tail hr)).bind fun _ _ hrest => ih hfuel' (.cons hv hdone) hrest
    | nil => exact tied_pure (List.forall₂_reverse_iff.mpr hdone)
    | _ => exact hfail

theorem tied_unwrapAll {env env' : Nat} (henv : c.link.frame env env') {fuel fuel' : Nat}
    (hfuel : c.Fits fuel fuel') {v v' operands operands' : Value} (hv : v.Linked c.link v')
    (hoperands : operands.Linked c.link operands') :
    Tied c (fun p p' => p.1.Linked c.link p'.1 ∧ p.2.Linked c.link p'.2)
      (unwrapAll ev env fuel v operands) (unwrapAll ev' env' fuel' v' operands') := by
  induction hv generalizing operands operands' with
  | applicative label hu ih =>
    refine (tied_operandValues h hev henv hoperands hfuel .nil hoperands).bind fun _ _ hvs => ?_
    exact (tied_act (h.list hvs)).bind fun _ _ hfresh => ih hfresh
  | _ => exact tied_pure ⟨by constructor <;> assumption, hoperands⟩

omit h in
theorem tied_runForms {env env' : Nat} (henv : c.link.frame env env') {forms forms' : List Value}
    (hforms : List.Forall₂ (Value.Linked c.link) forms forms') :
    Tied c (Answer.Linked c.link) (runForms ev env forms) (runForms ev' env' forms') := by
  induction hforms with
  | nil => exact tied_pure (.value .inert)
  | cons hform hrest ih =>
    cases hrest with
    | nil => exact tied_pure (.proceed hform henv)
    | cons _ _ => exact (hev _ _ _ _ hform henv).bind fun _ _ _ => ih

omit hev in
theorem tied_bindDynamic {frame frame' env env' : Nat} (hframe : c.link.frame frame frame')
    (henv : c.link.frame env env') {v v' : Value} (hv : v.Linked c.link v') :
    Tied c (fun _ _ => True) (bindDynamic frame env v).act (bindDynamic frame' env' v').act := by
  cases hv with
  | sym hname => exact tied_act (h.define hframe hname (.env henv))
  | _ => exact tied_act (Deed.tied_pure trivial)

theorem tied_callOperative {o o' : Operative} (ho : o.Linked c.link o') {operands operands' : Value}
    (hoperands : operands.Linked c.link operands') {env env' : Nat} (henv : c.link.frame env env') :
    Tied c (Answer.Linked c.link) (callOperative ev o operands env)
      (callOperative ev' o' operands' env') := by
  refine (tied_act (h.newFrame (.some ho.scope))).bind fun _ _ hframe => ?_
  refine (tied_act (h.binds hframe ho.formals hoperands)).bind fun _ _ _ => ?_
  refine (tied_bindDynamic h hframe henv ho.dynamic).bind fun _ _ _ => ?_
  exact tied_runForms hev hframe ho.body

theorem tied_define {env env' : Nat} (henv : c.link.frame env env')
    {definiend definiend' expression expression' : Value} (hd : definiend.Linked c.link definiend')
    (he : expression.Linked c.link expression') :
    Tied c (Answer.Linked c.link) (Form.define.perform ev env [definiend, expression])
      (Form.define.perform ev' env' [definiend', expression']) := by
  refine (tied_act (h.names hd)).bind fun _ _ _ => ?_
  refine (hev _ _ _ _ he henv).bind fun _ _ hv => ?_
  refine (tied_act (h.binds henv hd hv)).bind fun _ _ _ => ?_
  cases hd with
  | sym hname => exact (tied_act (h.giveName hv)).bind fun _ _ _ => tied_pure (.value .inert)
  | _ => exact tied_pure (.value .inert)

theorem tied_assign {env env' : Nat} (henv : c.link.frame env env')
    {target target' expression expression' : Value} (ht : target.Linked c.link target')
    (he : expression.Linked c.link expression') :
    Tied c (Answer.Linked c.link) (Form.assign.perform ev env [target, expression])
      (Form.assign.perform ev' env' [target', expression']) := by
  cases ht with
  | @sym name hname =>
    refine (hev _ _ _ _ he henv).bind fun _ _ hv => ?_
    refine (tied_act (h.owner henv hname)).bind fun _ _ howner => ?_
    cases howner with
    | none => exact tied_fail (.unbound name)
    | some ho =>
      exact (tied_act (h.define ho hname hv)).bind fun _ _ _ => tied_pure (.value .inert)
  | _ => exact tied_fail (.typeMismatch _ (by constructor <;> assumption))

theorem tied_form {env env' : Nat} (henv : c.link.frame env env') (f : Form) {vs vs' : List Value}
    (hvs : List.Forall₂ (Value.Linked c.link) vs vs') :
    Tied c (Answer.Linked c.link) (f.perform ev env vs) (f.perform ev' env' vs') := by
  have hfail : Tied c (Answer.Linked c.link) (fail (.arity (.text f.signature.text) .nil))
      (fail (.arity (.text f.signature.text) .nil)) := tied_fail (.arity _ .nil)
  cases f with
  | sequence => exact tied_runForms hev henv hvs
  | define =>
    rcases hvs with _ | ⟨hd, _ | ⟨he, _ | ⟨hz, hrest⟩⟩⟩
    · exact hfail
    · exact hfail
    · exact tied_define h hev henv hd he
    · exact hfail
  | assign =>
    rcases hvs with _ | ⟨ht, _ | ⟨he, _ | ⟨hz, hrest⟩⟩⟩
    · exact hfail
    · exact hfail
    · exact tied_assign h hev henv ht he
    · exact hfail

theorem tied_select {env env' : Nat} (henv : c.link.frame env env') {fuel fuel' : Nat}
    (hfuel : c.Fits fuel fuel') (b : Bool) {operands operands' : Value}
    (hoperands : operands.Linked c.link operands') :
    Tied c (Answer.Linked c.link) (select ev env fuel b operands)
      (select ev' env' fuel' b operands') := by
  refine (tied_operandValues h hev henv hoperands hfuel .nil hoperands).bind fun _ _ hvs => ?_
  have hfail : Tied c (Answer.Linked c.link) (fail (.arity (.text "2 operands") operands))
      (fail (.arity (.text "2 operands") operands')) := tied_fail (.arity _ hoperands)
  rcases hvs with _ | ⟨hx, _ | ⟨hy, _ | ⟨hz, hrest⟩⟩⟩
  · exact hfail
  · exact hfail
  · cases b
    · exact tied_pure (.value hy)
    · exact tied_pure (.value hx)
  · exact hfail

theorem tied_resolve {env env' : Nat} (henv : c.link.frame env env') {fuel fuel' : Nat}
    (hfuel : c.Fits fuel fuel') {r r' : Nat} (hr : c.link.cell r r') :
    Tied c (fun p p' => p.1.Linked c.link p'.1 ∧ p.2.Linked c.link p'.2)
      (resolve ev fuel r env) (resolve ev' fuel' r' env') := by
  refine (tied_act (h.head hr)).bind fun _ _ hhead => ?_
  refine (hev _ _ _ _ hhead henv).bind fun _ _ hoperator => ?_
  exact (tied_act (h.tail hr)).bind fun _ _ hrest => tied_unwrapAll h hev henv hfuel hoperator hrest

variable {cfg : Settings} (hcfg : cfg.Tied c)
include hcfg

theorem tied_callPrimitive {room room' : Nat} (hroom : c.Fits room room') {p : Primitive}
    (hp : c.link.primitive p) {operands operands' : Value}
    (hoperands : operands.Linked c.link operands') {env env' : Nat} (henv : c.link.frame env env') :
    Tied c (Answer.Linked c.link) (callPrimitive cfg ev room p operands env)
      (callPrimitive cfg ev' room' p operands' env') := by
  refine (tied_act (h.operands _ hoperands)).bind fun _ _ hvs => ?_
  cases p with
  | form f => exact tied_form h hev henv f hvs
  | operation o => exact tied_act (Operation.tied_perform h hroom henv hp hvs)
  | host slot name signature =>
    cases hf : cfg.functions[slot]? with
    | none => simpa only [hf] using tied_pure (.value .inert)
    | some f => simpa only [hf] using hcfg f (Array.mem_of_getElem? hf) _ _ _ _ hvs henv

theorem tied_combine {fuel fuel' room room' : Nat} (hfuel : c.Fits fuel fuel')
    (hroom : c.Fits room room') {v v' operands operands' : Value} (hv : v.Linked c.link v')
    (hoperands : operands.Linked c.link operands') {env env' : Nat} (henv : c.link.frame env env') :
    Tied c (Answer.Linked c.link) (combine cfg ev fuel room v operands env)
      (combine cfg ev' fuel' room' v' operands' env') := by
  cases hv with
  | operative hr =>
    refine (tied_act (h.operative hr)).bind fun o o' ho => ?_
    rw [ho.name]
    exact (tied_notes _ _).bind fun _ _ _ => tied_callOperative h hev ho hoperands henv
  | primitive hp =>
    exact (tied_notes _ _).bind fun _ _ _ =>
      tied_callPrimitive h hev hcfg hroom hp hoperands henv
  | bool b => exact tied_select h hev henv hfuel b hoperands
  | _ => exact tied_fail (.notCombinable (by constructor <;> assumption))

theorem tied_turn {fuel fuel' room room' : Nat} (hfuel : c.Fits fuel fuel')
    (hroom : c.Fits room room') (base : Nat) {expr expr' : Value}
    (hexpr : expr.Linked c.link expr') {env env' : Nat} (henv : c.link.frame env env') :
    Tied c (Answer.Linked c.link) (turn cfg ev fuel room base expr env)
      (turn cfg ev' fuel' room' base expr' env') := by
  refine (tied_tick _).bind fun _ _ _ => ?_
  cases hexpr with
  | @sym name hname =>
    refine (tied_act (h.lookup henv hname)).bind fun _ _ hfound => ?_
    cases hfound with
    | none => exact tied_fail (.unbound name)
    | some hv => exact tied_pure (.value hv)
  | pair hr =>
    refine (tied_enter base (h.entry hr)).bind fun _ _ _ => ?_
    exact (tied_resolve h hev henv hfuel hr).bind fun _ _ hc =>
      tied_combine h hev hcfg hfuel hroom hc.1 hc.2 henv
  | _ => exact tied_pure (.value (by constructor <;> assumption))

end Combining

section Running

open Vau.Action

variable {c : Course} (h : c.Kept) {cfg : Settings} (hcfg : cfg.Tied c)
include h hcfg

/-- Corresponding expressions are reduced to corresponding ends. -/
theorem tied_reduce {fuel fuel' room room' : Nat} (hfuel : c.Fits fuel fuel')
    (hroom : c.Fits room room') (base : Nat) {expr expr' : Value}
    (hexpr : expr.Linked c.link expr') {env env' : Nat} (henv : c.link.frame env env') :
    Tied c (Value.Linked c.link) (reduce cfg fuel room base expr env)
      (reduce cfg fuel' room' base expr' env') := by
  induction fuel generalizing fuel' room room' base expr expr' env env' with
  | zero =>
    rcases hfuel with rfl | ⟨-, hquits, -⟩
    · exact tied_outOfFuel
    · exact tied_quit hquits
  | succ fuel ih =>
    obtain ⟨fuel', rfl, hfuel'⟩ := hfuel.of_succ
    have hnested : Evaluation.Tied c (nested (reduce cfg fuel) room)
        (nested (reduce cfg fuel') room') := by
      intro expr expr' env env' hexpr henv
      cases room with
      | zero =>
        rcases hroom with rfl | ⟨-, -, hquits⟩
        · exact tied_fail .stackExhausted
        · exact tied_quit hquits
      | succ room =>
        obtain ⟨room', rfl, hroom'⟩ := hroom.of_succ
        intro m m' hm
        have hsize : m'.stack.size = m.stack.size := by
          simpa only [Array.length_toList] using hm.stack.length_eq.symm
        simp only [nested, hsize]
        exact ih hfuel' hroom' m.stack.size hexpr henv m m' hm
    refine (tied_turn h hnested hcfg hfuel' hroom base hexpr henv).bind fun _ _ ha => ?_
    cases ha with
    | value hv => exact tied_leave base hv
    | proceed hv he => exact ih hfuel' hroom base hv he

theorem tied_evaluate {expr expr' : Value} (hexpr : expr.Linked c.link expr') {env env' : Nat}
    (henv : c.link.frame env env') :
    Tied c (Value.Linked c.link) (evaluate cfg expr env) (evaluate cfg expr' env') := by
  intro m m' hm
  have hsize : m'.stack.size = m.stack.size := by
    simpa only [Array.length_toList] using hm.stack.length_eq.symm
  simp only [evaluate, hsize]
  exact tied_reduce h hcfg (.inl rfl) (.inl rfl) m.stack.size hexpr henv m m' hm

theorem tied_runProgram {root root' : Nat} (hroot : c.link.frame root root')
    {forms forms' : List Value} (hforms : List.Forall₂ (Value.Linked c.link) forms forms')
    {last last' : Value} (hlast : last.Linked c.link last') :
    Tied c (Value.Linked c.link) (runProgram cfg root forms last)
      (runProgram cfg root' forms' last') := by
  induction hforms generalizing last last' with
  | nil => exact tied_pure hlast
  | cons hform _ ih =>
    have hreset : Tied c (fun _ _ => True) (modify Machine.reset : Action PUnit)
        (modify Machine.reset) := fun _ _ hm => .ok trivial ⟨hm.world, .nil, rfl⟩
    refine hreset.bind fun _ _ _ => ?_
    exact (tied_evaluate h hcfg hform hroot).bind fun _ _ hv => ih hv

end Running

end Vau
