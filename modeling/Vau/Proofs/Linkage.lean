import Vau.Proofs.Link
import Vau.Proofs.Search
import Vau.Proofs.Truncation

/-! Linked stores: the parts of one that stand for parts of another have the same content, as far
as what they contain is linked, and whatever is made next in both is linked. What the evaluator
reads from linked stores corresponds. -/

namespace Vau

/-- No place stands for two, and no two for one. -/
structure Link.OneToOne (l : Link) : Prop where
  cell : ∀ {a a' b b'}, l.cell a a' → l.cell b b' → (a' = b' ↔ a = b)
  frame : ∀ {a a' b b'}, l.frame a a' → l.frame b b' → (a' = b' ↔ a = b)
  operative : ∀ {a a' b b'}, l.operative a a' → l.operative b b' → (a' = b' ↔ a = b)

theorem Value.Linked.eq_iff {l : Link} (hl : l.OneToOne) {v v' u u' : Value} (hv : v.Linked l v')
    (hu : u.Linked l u') : v' = u' ↔ v = u := by
  induction hv generalizing u u' with
  | pair h => cases hu with
    | pair h' => simpa using hl.cell h h'
    | _ => simp
  | env h => cases hu with
    | env h' => simpa using hl.frame h h'
    | _ => simp
  | operative h => cases hu with
    | operative h' => simpa using hl.operative h h'
    | _ => simp
  | applicative label h ih => cases hu with
    | applicative label' h' => simp [ih h']
    | _ => simp
  | _ => cases hu <;> simp

namespace Value.Linked

variable {l : Link} (hl : l.OneToOne) {v v' u u' : Value}
include hl

theorem beq_eq (hv : v.Linked l v') (hu : u.Linked l u') : (v' == u') = (v == u) := by
  rw [Bool.eq_iff_iff]
  simpa using hv.eq_iff hl hu

theorem atomEq_eq (hv : v.Linked l v') (hu : u.Linked l u') : v'.atomEq u' = v.atomEq u := by
  have hbeq := hv.beq_eq hl hu
  cases hv with
  | applicative label h => cases hu with
    | applicative label' h' => exact h.beq_eq hl h'
    | _ => exact hbeq
  | _ => exact hbeq

theorem identical_eq (hv : v.Linked l v') (hu : u.Linked l u') :
    v'.identical u' = v.identical u := by
  simp only [Value.identical, hv.isPair_eq, hu.isPair_eq, hv.beq_eq hl hu, hv.atomEq_eq hl hu]

end Value.Linked

/-- Frames with the same names in the same order and linked values of the names that are known. -/
structure Frame.Linked (l : Link) (f f' : Frame) : Prop where
  bindings : List.Forall₂ (fun b b' => b'.1 = b.1 ∧ (l.name b.1 → b.2.Linked l b'.2))
    f.bindings f'.bindings
  parent : Option.Rel l.frame f.parent f'.parent

namespace Frame.Linked

variable {l : Link} {f f' : Frame} {name : String}

theorem get? (h : f.Linked l f') (hname : l.name name) :
    Option.Rel (Value.Linked l) (f.get? name) (f'.get? name) := by
  obtain ⟨bs, p⟩ := f
  obtain ⟨bs', p'⟩ := f'
  have hbs := h.bindings
  simp only [Frame.get?] at hbs ⊢
  induction hbs with
  | nil => exact .none
  | @cons b b' bs bs' hb _ ih =>
    rw [List.lookup_cons, List.lookup_cons, hb.1]
    cases hkey : name == b.1 with
    | true => exact .some (hb.2 (beq_iff_eq.mp hkey ▸ hname))
    | false => exact ih ⟨‹_›, h.parent⟩

theorem binds_eq (h : f.Linked l f') (hname : l.name name) : f'.binds name = f.binds name := by
  have hget := h.get? hname
  simp only [Frame.binds]
  generalize f.get? name = v, f'.get? name = v' at hget ⊢
  cases hget <;> rfl

theorem define (h : f.Linked l f') {v v' : Value} (hv : v.Linked l v') :
    (f.define name v).Linked l (f'.define name v') := by
  refine ⟨?_, h.parent⟩
  obtain ⟨bs, p⟩ := f
  obtain ⟨bs', p'⟩ := f'
  have hbs := h.bindings
  simp only [Frame.define] at hbs ⊢
  clear h
  induction hbs with
  | nil => exact .cons ⟨rfl, fun _ => hv⟩ .nil
  | @cons b b' bs bs' hb hrest ih =>
    simp only [put, hb.1]
    split
    · exact .cons ⟨rfl, fun _ => hv⟩ hrest
    · exact .cons hb ih

end Frame.Linked

/-- What is left to the first walk is left to the second as well, or else enough more that an
endless first walk is a reason to quit. -/
def Terms.Spans (c : Terms) (n n' : Nat) : Prop := n' = n ∨ n ≤ n' ∧ c.quits .endless

namespace Terms.Spans

variable {c : Terms} {n n' : Nat}

theorem of_succ (h : c.Spans (n + 1) n') : ∃ k, n' = k + 1 ∧ c.Spans n k := by
  rcases h with rfl | ⟨hle, hquits⟩
  · exact ⟨n, rfl, .inl rfl⟩
  · exact ⟨n' - 1, by omega, .inr ⟨by omega, hquits⟩⟩

theorem succ (h : c.Spans n n') : c.Spans (n + 1) (n' + 1) := by
  rcases h with rfl | ⟨hle, hquits⟩
  · exact .inl rfl
  · exact .inr ⟨by omega, hquits⟩

theorem square (h : c.Spans n n') : c.Spans (n * n) (n' * n') := by
  rcases h with rfl | ⟨hle, hquits⟩
  · exact .inl rfl
  · exact .inr ⟨Nat.mul_le_mul hle hle, hquits⟩

end Terms.Spans

structure Store.Linked (c : Terms) (s s' : Store) : Prop where
  cells : c.Spans s.cells.size s'.cells.size
  freshCell : ∀ i, c.link.cell (s.cells.size + i) (s'.cells.size + i)
  head : ∀ {r r'}, c.link.cell r r' → (s.head r).Linked c.link (s'.head r')
  tail : ∀ {r r'}, c.link.cell r r' → (s.tail r).Linked c.link (s'.tail r')
  frames : s'.frames.size = s.frames.size
  freshFrame : ∀ i, c.link.frame (s.frames.size + i) (s'.frames.size + i)
  frame : ∀ {e e'}, c.link.frame e e' → (s.frame e).Linked c.link (s'.frame e')
  freshOperative : ∀ i, c.link.operative (s.operatives.size + i) (s'.operatives.size + i)
  operative : ∀ {r r'}, c.link.operative r r' → (s.operative r).Linked c.link (s'.operative r')
  wrappers : s'.wrappers = s.wrappers

/-- Stores that are linked but for how many frames they have. -/
structure Store.Parallel (c : Terms) (s s' : Store) : Prop where
  cells : c.Spans s.cells.size s'.cells.size
  freshCell : ∀ i, c.link.cell (s.cells.size + i) (s'.cells.size + i)
  head : ∀ {r r'}, c.link.cell r r' → (s.head r).Linked c.link (s'.head r')
  tail : ∀ {r r'}, c.link.cell r r' → (s.tail r).Linked c.link (s'.tail r')
  freshFrame : ∀ i, c.link.frame (s.frames.size + i) (s'.frames.size + i)
  frame : ∀ {e e'}, c.link.frame e e' → (s.frame e).Linked c.link (s'.frame e')
  freshOperative : ∀ i, c.link.operative (s.operatives.size + i) (s'.operatives.size + i)
  operative : ∀ {r r'}, c.link.operative r r' → (s.operative r).Linked c.link (s'.operative r')
  wrappers : s'.wrappers = s.wrappers

theorem Store.Linked.parallel {c : Terms} {s s' : Store} (h : s.Linked c s') : s.Parallel c s' :=
  { h with }

theorem Store.Parallel.linked {c : Terms} {s s' : Store} (h : s.Parallel c s')
    (hframes : s'.frames.size = s.frames.size) : s.Linked c s' :=
  { h with frames := hframes }

/-- Answers of two computations that correspond. -/
inductive Corresponds {ε α β : Type} (E : ε → ε → Prop) (Q : ε → Prop) (R : α → β → Prop) :
    Except ε α → Except ε β → Prop
  | ok {a : α} {b : β} (h : R a b) : Corresponds E Q R (.ok a) (.ok b)
  | error {e e' : ε} (h : E e e') : Corresponds E Q R (.error e) (.error e')
  | quit {e : ε} {r : Except ε β} (h : Q e) : Corresponds E Q R (.error e) r

namespace Corresponds

variable {ε ζ α β γ δ : Type} {E : ε → ε → Prop} {Q : ε → Prop} {R : α → β → Prop}
  {S : γ → δ → Prop} {r : Except ε α} {r' : Except ε β}

theorem bind {f : α → Except ε γ} {g : β → Except ε δ} (h : Corresponds E Q R r r')
    (hf : ∀ a b, R a b → Corresponds E Q S (f a) (g b)) :
    Corresponds E Q S (r >>= f) (r' >>= g) := by
  cases h with
  | ok h => exact hf _ _ h
  | error h => exact .error h
  | quit h => exact .quit h

theorem mono {R' : α → β → Prop} (h : Corresponds E Q R r r') (hR : ∀ a b, R a b → R' a b) :
    Corresponds E Q R' r r' := by
  cases h with
  | ok h => exact .ok (hR _ _ h)
  | error h => exact .error h
  | quit h => exact .quit h

theorem mapM {f : α → Except ε γ} {g : β → Except ε δ}
    (hf : ∀ a b, R a b → Corresponds E Q S (f a) (g b)) {as : List α} {bs : List β}
    (h : List.Forall₂ R as bs) : Corresponds E Q (List.Forall₂ S) (as.mapM f) (bs.mapM g) := by
  induction h with
  | nil => exact .ok .nil
  | cons hab _ ih =>
    simp only [List.mapM_cons]
    exact (hf _ _ hab).bind fun _ _ hfirst => ih.bind fun _ _ hrest => .ok (.cons hfirst hrest)

theorem foldlM {f : γ → α → Except ε γ} {g : γ → β → Except ε γ}
    (hf : ∀ x a b, R a b → Corresponds E Q Eq (f x a) (g x b)) {as : List α} {bs : List β}
    (h : List.Forall₂ R as bs) (x : γ) : Corresponds E Q Eq (as.foldlM f x) (bs.foldlM g x) := by
  induction h generalizing x with
  | nil => exact .ok rfl
  | cons hab _ ih =>
    simp only [List.foldlM_cons]
    exact (hf x _ _ hab).bind fun y _ hy => hy ▸ ih y

theorem mapError {E' : ζ → ζ → Prop} {Q' : ζ → Prop} {f g : ε → ζ} (h : Corresponds E Q R r r')
    (he : ∀ e e', E e e' → E' (f e) (g e')) (hq : ∀ e, Q e → Q' (f e)) :
    Corresponds E' Q' R (r.mapError f) (r'.mapError g) := by
  cases h with
  | ok h => exact .ok h
  | error h => exact .error (he _ _ h)
  | quit h => exact .quit (hq _ h)

end Corresponds

/-- The stops of comparing and printing, which tell of no value. -/
inductive Stop.Plain : Stop → Prop
  | digits : Plain .digits
  | endless : Plain .endless
  | stackExhausted : Plain (.failure .stackExhausted)

theorem Stop.Plain.linked {e : Stop} (h : e.Plain) (l : Link) : e.Linked l e := by
  cases h with
  | digits => exact .digits
  | endless => exact .endless
  | stackExhausted => exact .failure .stackExhausted

/-- The same answer of two comparisons or prints, unless the first one quits. -/
abbrev Terms.Same (c : Terms) {α : Type} (r r' : Except Stop α) : Prop :=
  Corresponds (fun e e' => e' = e ∧ e.Plain) c.quits Eq r r'

namespace Terms.Same

variable {c : Terms} {α : Type} {r r' : Except Stop α}

theorem linked (h : c.Same r r') : Corresponds (Stop.Linked c.link) c.quits Eq r r' := by
  cases h with
  | ok h => exact .ok h
  | error h => exact .error (h.1 ▸ h.2.linked c.link)
  | quit h => exact .quit h

theorem eq_of_stays (h : c.Same r r') (hstays : ∀ e, ¬ c.quits e) : r' = r := by
  cases h with
  | ok h => exact congrArg Except.ok h.symm
  | error h => exact congrArg Except.error h.1
  | quit h => exact absurd h (hstays _)

end Terms.Same

theorem Deed.tied_reads {c : Course} {α β : Type} {R : α → β → Prop} {f : Store → α} {g : Store → β}
    (h : ∀ w w', c.world w w' → R (f w.store) (g w'.store)) : Tied c R (reads f) (reads g) :=
  fun _ _ hw => .ok (h _ _ hw) hw

theorem Deed.tied_tries {c : Course} {α β : Type} {R : α → β → Prop} {f : Store → Except Stop α}
    {g : Store → Except Stop β}
    (h : ∀ w w', c.world w w' → Corresponds (Stop.Linked c.link) c.quits R (f w.store) (g w'.store)) :
    Tied c R (tries f) (tries g) := by
  intro w w' hw
  have hends := h w w' hw
  simp only [tries]
  generalize f w.store = r, g w'.store = r' at hends ⊢
  cases hends with
  | ok hR => exact .ok hR hw
  | error he => exact .error he hw
  | quit hq => exact .quit hq

namespace Store.Linked

open Vau.Formals

/-- Pairs of values that are linked in step. -/
def Both (c : Terms) (p p' : Value × Value) : Prop :=
  p.1.Linked c.link p'.1 ∧ p.2.Linked c.link p'.2

/-- Bindings of the same names, which are known, to linked values. -/
def Binding (c : Terms) (b b' : String × Value) : Prop :=
  b'.1 = b.1 ∧ c.link.name b.1 ∧ b.2.Linked c.link b'.2

/-- What quits a match: it goes on for ever. -/
def Endless (c : Terms) (m : Mismatch) : Prop := m = .endless ∧ c.quits .endless

end Store.Linked

namespace Store.Parallel

open Store.Linked (Both Binding Endless)

variable {c : Terms} {s s' : Store} (h : s.Parallel c s')
include h

theorem walk {fuel fuel' : Nat} (hfuel : c.Spans fuel fuel') {heads heads' : List Value}
    (hheads : List.Forall₂ (Value.Linked c.link) heads heads') {v v' : Value}
    (hv : v.Linked c.link v') :
    Option.Rel (fun p p' => List.Forall₂ (Value.Linked c.link) p.1 p'.1 ∧ p.2.Linked c.link p'.2)
        (s.walk fuel heads v) (s'.walk fuel' heads' v') ∨
      s.walk fuel heads v = none ∧ c.quits .endless := by
  have hend := List.forall₂_reverse_iff.mpr hheads
  induction fuel generalizing fuel' heads heads' v v' with
  | zero =>
    cases hv with
    | pair hr =>
      rcases hfuel with rfl | ⟨-, hquits⟩
      · exact .inl .none
      · exact .inr ⟨rfl, hquits⟩
    | _ => cases fuel' <;> exact .inl (.some ⟨hend, by constructor <;> assumption⟩)
  | succ fuel ih =>
    obtain ⟨fuel', rfl, hfuel'⟩ := hfuel.of_succ
    cases hv with
    | pair hr =>
      have hheads' := List.Forall₂.cons (h.head hr) hheads
      exact ih hfuel' hheads' (h.tail hr) (List.forall₂_reverse_iff.mpr hheads')
    | _ => exact .inl (.some ⟨hend, by constructor <;> assumption⟩)

theorem spine? {v v' : Value} (hv : v.Linked c.link v') :
    Option.Rel (fun p p' => List.Forall₂ (Value.Linked c.link) p.1 p'.1 ∧ p.2.Linked c.link p'.2)
        (s.spine? v) (s'.spine? v') ∨
      s.spine? v = none ∧ c.quits .endless :=
  h.walk h.cells .nil hv

theorem nameOf?_eq {v v' : Value} (hv : v.Linked c.link v') : s'.nameOf? v' = s.nameOf? v := by
  induction hv with
  | operative hr => exact (h.operative hr).name
  | applicative label _ ih => exact ih
  | _ => rfl

section Environments

variable {name : String} (hname : c.link.name name)
include hname

theorem lookupWithin (fuel : Nat) {e e' : Nat} (he : c.link.frame e e') :
    Option.Rel (Value.Linked c.link) (s.lookupWithin name fuel e) (s'.lookupWithin name fuel e') := by
  induction fuel generalizing e e' with
  | zero => exact .none
  | succ fuel ih =>
    have hframe := h.frame he
    have hget := hframe.get? hname
    have hparent := hframe.parent
    simp only [Store.lookupWithin]
    generalize (s.frame e).get? name = v, (s'.frame e').get? name = v' at hget ⊢
    cases hget with
    | some hv => exact .some hv
    | none =>
      generalize (s.frame e).parent = p, (s'.frame e').parent = p' at hparent ⊢
      cases hparent with
      | none => exact .none
      | some hp => exact ih hp

theorem lookup? {e e' : Nat} (he : c.link.frame e e') :
    Option.Rel (Value.Linked c.link) (s.lookup? e name) (s'.lookup? e' name) := by
  rw [← s.lookupWithin_eq name e (Nat.le_add_right _ s'.frames.size),
    ← s'.lookupWithin_eq name e' (Nat.le_add_left _ s.frames.size)]
  exact h.lookupWithin hname _ he

theorem ownerWithin (fuel : Nat) {e e' : Nat} (he : c.link.frame e e') :
    Option.Rel c.link.frame (s.ownerWithin name fuel e) (s'.ownerWithin name fuel e') := by
  induction fuel generalizing e e' with
  | zero => exact .none
  | succ fuel ih =>
    have hframe := h.frame he
    have hparent := hframe.parent
    simp only [Store.ownerWithin, hframe.binds_eq hname]
    split
    · exact .some he
    · generalize (s.frame e).parent = p, (s'.frame e').parent = p' at hparent ⊢
      cases hparent with
      | none => exact .none
      | some hp => exact ih hp

theorem owner? {e e' : Nat} (he : c.link.frame e e') :
    Option.Rel c.link.frame (s.owner? e name) (s'.owner? e' name) := by
  rw [← s.ownerWithin_eq name e (Nat.le_add_right _ s'.frames.size),
    ← s'.ownerWithin_eq name e' (Nat.le_add_left _ s.frames.size)]
  exact h.ownerWithin hname _ he

end Environments

section Matching

open Vau.Formals

theorem descend {fuel fuel' : Nat} (hfuel : c.Spans fuel fuel') {heads heads' : List (Value × Value)}
    (hheads : List.Forall₂ (Both c) heads heads') {p p' o o' : Value} (hp : p.Linked c.link p')
    (ho : o.Linked c.link o') :
    Corresponds Eq (Endless c)
      (fun d d' => d.pattern.Linked c.link d'.pattern ∧ d.operand.Linked c.link d'.operand ∧
        List.Forall₂ (Both c) d.heads d'.heads)
      (Formals.descend s fuel heads p o) (Formals.descend s' fuel' heads' p' o') := by
  induction fuel generalizing fuel' heads heads' p p' o o' with
  | zero =>
    cases hp with
    | pair hr =>
      cases ho with
      | pair hr' =>
        rcases hfuel with rfl | ⟨-, hquits⟩
        · exact .error rfl
        · exact .quit ⟨rfl, hquits⟩
      | _ => cases fuel' <;> exact .error rfl
    | _ => cases fuel' <;> exact .ok ⟨by constructor <;> assumption, ho, hheads⟩
  | succ fuel ih =>
    obtain ⟨fuel', rfl, hfuel'⟩ := hfuel.of_succ
    cases hp with
    | pair hr =>
      cases ho with
      | pair hr' =>
        exact ih hfuel' (.cons ⟨h.head hr, h.head hr'⟩ hheads) (h.tail hr) (h.tail hr')
      | _ => exact .error rfl
    | _ => exact .ok ⟨by constructor <;> assumption, ho, hheads⟩

omit h in
theorem leaf {p p' o o' : Value} (hp : p.Linked c.link p') (ho : o.Linked c.link o') :
    Corresponds Eq (Endless c) (List.Forall₂ (Binding c)) (Formals.leaf p o) (Formals.leaf p' o') := by
  cases hp with
  | sym hname => exact .ok (.cons ⟨rfl, hname, ho⟩ .nil)
  | ignore => exact .ok .nil
  | nil => cases ho with
    | nil => exact .ok .nil
    | _ => exact .error rfl
  | _ => exact .error rfl

theorem matchWithin {spine spine' room room' : Nat} (hspine : c.Spans spine spine')
    (hroom : c.Spans room room') {p p' o o' : Value} (hp : p.Linked c.link p')
    (ho : o.Linked c.link o') :
    Corresponds Eq (Endless c) (List.Forall₂ (Binding c))
      (Formals.matchWithin s spine room p o) (Formals.matchWithin s' spine' room' p' o') := by
  induction room generalizing room' p p' o o' with
  | zero =>
    rcases hroom with rfl | ⟨-, hquits⟩
    · exact .error rfl
    · exact .quit ⟨rfl, hquits⟩
  | succ room ih =>
    obtain ⟨room', rfl, hroom'⟩ := hroom.of_succ
    refine (h.descend hspine .nil hp ho).bind fun d d' ⟨hpattern, hoperand, hheads⟩ => ?_
    refine (leaf hpattern hoperand).bind fun here here' hhere => ?_
    refine (Corresponds.mapM (fun _ _ hb => ih hroom' hb.1 hb.2) hheads).bind
      fun inside inside' hinside => ?_
    exact .ok (List.rel_append hhere (List.rel_flatten hinside))

theorem matchFormals {p p' o o' : Value} (hp : p.Linked c.link p') (ho : o.Linked c.link o') :
    Corresponds (Stop.Linked c.link) c.quits (List.Forall₂ (Binding c))
      (s.matchFormals p o) (s'.matchFormals p' o') := by
  refine (h.matchWithin h.cells.square h.cells.square.succ hp ho).mapError ?_ ?_
  · rintro e _ rfl
    cases e with
    | shape => exact .failure (.shape hp ho)
    | notFormal | repeated => exact .failure (.typeMismatch _ hp)
    | endless => exact .endless
  · rintro _ ⟨rfl, hquits⟩
    exact hquits

omit h in
theorem leafNames_linked (seen : List String) {v v' : Value} (hv : v.Linked c.link v') :
    Corresponds Eq (Endless c) Eq (Formals.leafNames seen v) (Formals.leafNames seen v') := by
  cases hv with
  | sym hname =>
    simp only [Formals.leafNames]
    split
    · exact .error rfl
    · exact .ok rfl
  | ignore | nil => exact .ok rfl
  | _ => exact .error rfl

theorem namesWithin {room room' : Nat} (hroom : c.Spans room room') (seen : List String)
    {v v' : Value} (hv : v.Linked c.link v') :
    Corresponds Eq (Endless c) Eq (Formals.namesWithin s room seen v)
      (Formals.namesWithin s' room' seen v') := by
  induction room generalizing room' seen v v' with
  | zero =>
    rcases hroom with rfl | ⟨-, hquits⟩
    · exact .error rfl
    · exact .quit ⟨rfl, hquits⟩
  | succ room ih =>
    obtain ⟨room', rfl, hroom'⟩ := hroom.of_succ
    have hspine := h.spine? hv
    simp only [Formals.namesWithin]
    generalize s.spine? v = p, s'.spine? v' = p' at hspine ⊢
    rcases hspine with hspine | ⟨rfl, hquits⟩
    · cases hspine with
      | none => exact .error rfl
      | some hp =>
        refine (leafNames_linked seen hp.2).bind fun seen _ hseen => hseen ▸ ?_
        exact .foldlM (R := Value.Linked c.link) (fun seen _ _ hhead => ih hroom' seen hhead)
          (List.forall₂_reverse_iff.mpr hp.1) seen
    · exact .quit ⟨rfl, hquits⟩

theorem formalNames {p p' : Value} (hp : p.Linked c.link p') :
    Corresponds (Stop.Linked c.link) c.quits Eq (s.formalNames p) (s'.formalNames p') := by
  refine (h.namesWithin h.cells.succ [] hp).mapError ?_ ?_
  · rintro e _ rfl
    cases e with
    | shape => exact .failure (.shape hp .nil)
    | notFormal | repeated => exact .failure (.typeMismatch _ hp)
    | endless => exact .endless
  · rintro _ ⟨rfl, hquits⟩
    exact hquits

end Matching

section Comparing

variable (hl : c.link.OneToOne)
include hl

theorem equalSpine {f f' : Value → Value → Except Stop Bool}
    (hf : ∀ {a a' b b'}, Value.Linked c.link a a' → Value.Linked c.link b b' → c.Same (f a b) (f' a' b'))
    {fuel fuel' : Nat} (hfuel : c.Spans fuel fuel') {a a' b b' : Value} (ha : a.Linked c.link a')
    (hb : b.Linked c.link b') :
    c.Same (s.equalSpine f fuel a b) (s'.equalSpine f' fuel' a' b') := by
  have hatom : c.Same (.ok (a.atomEq b)) (.ok (a'.atomEq b')) := .ok (ha.atomEq_eq hl hb).symm
  induction fuel generalizing fuel' a a' b b' with
  | zero =>
    cases ha with
    | @pair r r' hr =>
      cases hb with
      | @pair q q' hq =>
        by_cases hrq : r = q
        · have hrq' : r' = q' := (hl.cell hr hq).mpr hrq
          cases fuel' <;> simpa [Store.equalSpine, hrq, hrq'] using .ok rfl
        · rcases hfuel with rfl | ⟨-, hquits⟩
          · simpa [Store.equalSpine, hrq, hl.cell hr hq] using .error ⟨rfl, .endless⟩
          · simpa [Store.equalSpine, hrq] using .quit hquits
      | _ => cases fuel' <;> exact hatom
    | _ => cases fuel' <;> exact hatom
  | succ fuel ih =>
    obtain ⟨fuel', rfl, hfuel'⟩ := hfuel.of_succ
    cases ha with
    | pair hr =>
      cases hb with
      | pair hr' =>
        simp only [Store.equalSpine, hl.cell hr hr']
        split
        · exact .ok rfl
        · have hheads := hf (h.head hr) (h.head hr')
          generalize f _ _ = r, f' _ _ = r' at hheads ⊢
          cases hheads with
          | error he => exact .error he
          | quit hq => exact .quit hq
          | @ok x y hxy =>
            subst hxy
            cases x with
            | false => exact .ok rfl
            | true =>
              have ht := h.tail hr
              have ht' := h.tail hr'
              exact ih hfuel' ht ht' (.ok (ht.atomEq_eq hl ht').symm)
      | _ => exact hatom
    | _ => exact hatom

theorem equal {room room' : Nat} (hroom : c.Fits room room') {a a' b b' : Value}
    (ha : a.Linked c.link a') (hb : b.Linked c.link b') :
    c.Same (s.equal room a b) (s'.equal room' a' b') := by
  induction room generalizing room' a a' b b' with
  | zero =>
    rcases hroom with rfl | ⟨-, -, hquits⟩
    · exact .error ⟨rfl, .stackExhausted⟩
    · exact .quit hquits
  | succ room ih =>
    obtain ⟨room', rfl, hroom'⟩ := hroom.of_succ
    exact h.equalSpine hl (ih hroom') h.cells.square ha hb

theorem allEqual {room room' : Nat} (hroom : c.Fits room room') {vs vs' : List Value}
    (hvs : List.Forall₂ (Value.Linked c.link) vs vs') :
    c.Same (s.allEqual room vs) (s'.allEqual room' vs') := by
  induction hvs with
  | nil => exact .ok rfl
  | cons ha hrest ih =>
    cases hrest with
    | nil => exact .ok rfl
    | cons hb hrest =>
      have hequal := h.equal hl hroom ha hb
      simp only [Store.allEqual]
      generalize s.equal room _ _ = r, s'.equal room' _ _ = r' at hequal ⊢
      cases hequal with
      | error he => exact .error he
      | quit hq => exact .quit hq
      | @ok x y hxy =>
        subst hxy
        cases x with
        | false => exact .ok rfl
        | true => exact ih

end Comparing

section Printing

variable (st : Style)

theorem atom {v v' : Value} (hv : v.Linked c.link v') :
    c.Same (Printer.atom st s v) (Printer.atom st s' v') := by
  cases hv with
  | int n =>
    simp only [Printer.atom]
    cases writeDecimal? n with
    | none => exact .error ⟨rfl, .digits⟩
    | some text => exact .ok rfl
  | operative hr =>
    simp only [Printer.atom, (h.operative hr).name]
    exact .ok rfl
  | applicative label hu =>
    simp only [Printer.atom, h.nameOf?_eq hu]
    exact .ok rfl
  | _ => exact .ok rfl

theorem parts {f f' : Value → Except Stop (List Char)}
    (hf : ∀ {v v'}, Value.Linked c.link v v' → c.Same (f v) (f' v'))
    {fuel fuel' : Nat} (hfuel : c.Spans fuel fuel') (used : Nat) (done : List (List Char))
    {v v' : Value} (hv : v.Linked c.link v') :
    c.Same (Printer.parts st s f fuel used done v) (Printer.parts st s' f' fuel' used done v') := by
  have hlast : ∀ {fuel fuel' used : Nat} {done : List (List Char)} {v v' : Value},
      v.Linked c.link v' → v.isPair = false →
      c.Same (Printer.parts st s f fuel used done v) (Printer.parts st s' f' fuel' used done v') := by
    intro fuel fuel' used done v v' hv hpair
    have htext := hf hv
    rw [Printer.parts_ending st s f hpair, Printer.parts_ending st s' f' (hv.isPair_eq.trans hpair)]
    simp only [hv.nil_iff]
    split
    · exact .ok rfl
    · generalize f v = r, f' v' = r' at htext ⊢
      cases htext with
      | ok htext => exact .ok (htext ▸ rfl)
      | error he => exact .error he
      | quit hq => exact .quit hq
  induction fuel generalizing fuel' used done v v' with
  | zero =>
    cases hv with
    | pair hr =>
      rcases hfuel with rfl | ⟨-, hquits⟩
      · exact .error ⟨rfl, .endless⟩
      · exact .quit hquits
    | _ => exact hlast (by constructor <;> assumption) rfl
  | succ fuel ih =>
    obtain ⟨fuel', rfl, hfuel'⟩ := hfuel.of_succ
    cases hv with
    | pair hr =>
      have htext := hf (h.head hr)
      simp only [Printer.parts]
      generalize f (s.head _) = r, f' (s'.head _) = r' at htext ⊢
      cases htext with
      | error he => exact .error he
      | quit hq => exact .quit hq
      | @ok text _ htext =>
        subst htext
        simp only
        split
        · exact .ok rfl
        · exact ih hfuel' _ _ (h.tail hr)
    | _ => exact hlast (by constructor <;> assumption) rfl

theorem budget : c.Spans (st.budget s) (st.budget s') := by
  obtain ⟨display, width⟩ := st
  cases width with
  | none => exact h.cells
  | some w => exact .inl rfl

theorem write {room room' : Nat} (hroom : c.Fits room room') (depth : Nat) {v v' : Value}
    (hv : v.Linked c.link v') :
    c.Same (Printer.write st s room depth v) (Printer.write st s' room' depth v') := by
  induction room generalizing room' depth v v' with
  | zero =>
    cases hv with
    | pair hr =>
      by_cases homits : st.omits depth = true
      · cases room' <;> simpa [Printer.write, homits] using .ok rfl
      · rcases hroom with rfl | ⟨-, -, hquits⟩
        · simpa [Printer.write, homits] using .error ⟨rfl, .stackExhausted⟩
        · simpa [Printer.write, homits] using .quit hquits
    | _ => cases room' <;> exact h.atom st (by constructor <;> assumption)
  | succ room ih =>
    obtain ⟨room', rfl, hroom'⟩ := hroom.of_succ
    cases hv with
    | pair hr =>
      have hparts := h.parts st (fun hv => ih hroom' (depth + 1) hv) (h.budget st) 0 [] (.pair hr)
      simp only [Printer.write]
      split
      · exact .ok rfl
      · generalize Printer.parts st s _ _ _ _ _ = r, Printer.parts st s' _ _ _ _ _ = r' at hparts ⊢
        cases hparts with
        | ok htexts => exact .ok (htexts ▸ rfl)
        | error he => exact .error he
        | quit hq => exact .quit hq
    | _ => exact h.atom st (by constructor <;> assumption)

theorem format {room room' : Nat} (hroom : c.Fits room room') {v v' : Value}
    (hv : v.Linked c.link v') :
    c.Same (s.format room st v) (s'.format room' st v') := by
  have hwrite := h.write st hroom 0 hv
  simp only [Store.format]
  generalize Printer.write st s room 0 v = r, Printer.write st s' room' 0 v' = r' at hwrite ⊢
  cases hwrite with
  | ok htext => exact .ok (htext ▸ rfl)
  | error he => exact .error he
  | quit hq => exact .quit hq

theorem print_eq (hstays : ∀ e, ¬ c.quits e) {v v' : Value} (hv : v.Linked c.link v') :
    s'.print st v' = s.print st v :=
  (h.format st (.inl rfl) hv).eq_of_stays hstays

end Printing

end Store.Parallel

theorem Store.Linked.print_eq {c : Terms} {s s' : Store} (h : s.Linked c s') (st : Style)
    (hstays : ∀ e, ¬ c.quits e) {v v' : Value} (hv : v.Linked c.link v') :
    s'.print st v' = s.print st v :=
  h.parallel.print_eq st hstays hv

end Vau
