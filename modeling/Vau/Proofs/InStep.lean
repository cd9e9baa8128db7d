import Vau.Proofs.Linkage

/-! Changes made in step. Linked stores stay linked when both are changed at places that stand for
each other, and a change goes no further than the places, names and primitives that are linked. -/

namespace Vau

/-- The link seen from the other side. -/
def Link.flip (l : Link) : Link :=
  { l with cell r' r := l.cell r r', frame e' e := l.frame e e', operative r' r := l.operative r r' }

namespace Store

theorem cell_modify (s : Store) (f : Cell → Cell) (r q : Nat) :
    ({ s with cells := s.cells.modify r f } : Store).cell q =
      if q = r ∧ r < s.cells.size then f (s.cell q) else s.cell q := by
  by_cases hq : q = r
  · subst hq
    by_cases hlt : q < s.cells.size
    · simp [cell, hlt, Array.getElem_modify]
    · simp [cell, hlt]
  · have hr : r ≠ q := fun h => hq h.symm
    simp [cell, Array.getElem?_modify, hq, hr]

theorem frame_modify (s : Store) (f : Frame → Frame) (e d : Nat) :
    ({ s with frames := s.frames.modify e f } : Store).frame d =
      if d = e ∧ e < s.frames.size then f (s.frame d) else s.frame d := by
  by_cases hd : d = e
  · subst hd
    by_cases hlt : d < s.frames.size
    · simp [frame, hlt, Array.getElem_modify]
    · simp [frame, hlt]
  · have he : e ≠ d := fun h => hd h.symm
    simp [frame, Array.getElem?_modify, hd, he]

theorem operative_modify (s : Store) (f : Operative → Operative) (r q : Nat) :
    ({ s with operatives := s.operatives.modify r f } : Store).operative q =
      if q = r ∧ r < s.operatives.size then f (s.operative q) else s.operative q := by
  by_cases hq : q = r
  · subst hq
    by_cases hlt : q < s.operatives.size
    · simp [operative, hlt, Array.getElem_modify]
    · simp [operative, hlt]
  · have hr : r ≠ q := fun h => hq h.symm
    simp [operative, Array.getElem?_modify, hq, hr]

theorem operative_newOperative (s : Store) (o : Operative) (r : Nat) :
    (s.newOperative o).2.operative r = if r = s.operatives.size then o else s.operative r := by
  by_cases h : r = s.operatives.size
  · simp [operative, newOperative, h]
  · simp [operative, newOperative, Array.getElem?_push, h]

theorem frames_list (s : Store) (vs : List Value) (tail : Value) :
    (s.list vs tail).2.frames = s.frames := by
  induction vs with
  | nil => rfl
  | cons v vs ih => exact ih

/-- `t` differs from `s` in linked places only: old pairs are changed where there is a primitive
for that, and old frames in known names. -/
structure Spares (l : Link) (s t : Store) : Prop where
  cells : s.cells.size ≤ t.cells.size
  cell : ∀ r < s.cells.size, t.cell r ≠ s.cell r → (∃ r', l.cell r r') ∧
    (l.primitive (.operation .setHead) ∨ l.primitive (.operation .setTail))
  frames : s.frames.size ≤ t.frames.size
  binding : ∀ e < s.frames.size, ∀ name, (t.frame e).get? name ≠ (s.frame e).get? name →
    (∃ e', l.frame e e') ∧ l.name name

namespace Spares

variable {l : Link} {s t u : Store}

theorem of_same (hc : t.cells = s.cells) (hf : t.frames = s.frames) : s.Spares l t := by
  refine ⟨by simp [hc], fun r _ h => ?_, by simp [hf], fun e _ name h => ?_⟩
  · simp [Store.cell, hc] at h
  · simp [Store.frame, hf] at h

theorem refl (s : Store) : s.Spares l s := of_same rfl rfl

theorem trans (h : s.Spares l t) (h' : t.Spares l u) : s.Spares l u := by
  refine ⟨Nat.le_trans h.cells h'.cells, fun r hr hne => ?_, Nat.le_trans h.frames h'.frames,
    fun e he name hne => ?_⟩
  · by_cases ht : t.cell r = s.cell r
    · exact h'.cell r (Nat.lt_of_lt_of_le hr h.cells) (ht ▸ hne)
    · exact h.cell r hr ht
  · by_cases ht : (t.frame e).get? name = (s.frame e).get? name
    · exact h'.binding e (Nat.lt_of_lt_of_le he h.frames) name (ht ▸ hne)
    · exact h.binding e he name ht

theorem cons (s : Store) (x y : Value) (at_ : Option Location) : s.Spares l (s.cons x y at_).2 := by
  refine ⟨by simp, fun r hr hne => ?_, Nat.le_refl _, fun _ _ _ hne => absurd rfl hne⟩
  rw [cell_cons, if_neg (by omega)] at hne
  exact absurd rfl hne

theorem list (s : Store) (vs : List Value) (tail : Value) : s.Spares l (s.list vs tail).2 := by
  induction vs with
  | nil => exact .refl s
  | cons v vs ih => exact ih.trans (.cons _ _ _ _)

theorem newFrame (s : Store) (p : Option Nat) : s.Spares l (s.newFrame p).2 := by
  refine ⟨Nat.le_refl _, fun _ _ hne => absurd rfl hne, by simp [Store.newFrame],
    fun e he name hne => ?_⟩
  rw [frame_newFrame, if_neg (by omega)] at hne
  exact absurd rfl hne

theorem setHead {r r' : Nat} (hp : l.primitive (.operation .setHead)) (hr : l.cell r r')
    (s : Store) (v : Value) : s.Spares l (s.setHead r v) := by
  refine ⟨by simp [Store.setHead], fun q _ hne => ?_, Nat.le_refl _, fun _ _ _ hne => absurd rfl hne⟩
  rw [Store.setHead, cell_modify] at hne
  split at hne
  case isTrue hq => exact ⟨⟨r', hq.1 ▸ hr⟩, .inl hp⟩
  case isFalse => exact absurd rfl hne

theorem setTail {r r' : Nat} (hp : l.primitive (.operation .setTail)) (hr : l.cell r r')
    (s : Store) (v : Value) : s.Spares l (s.setTail r v) := by
  refine ⟨by simp [Store.setTail], fun q _ hne => ?_, Nat.le_refl _, fun _ _ _ hne => absurd rfl hne⟩
  rw [Store.setTail, cell_modify] at hne
  split at hne
  case isTrue hq => exact ⟨⟨r', hq.1 ▸ hr⟩, .inr hp⟩
  case isFalse => exact absurd rfl hne

theorem define {e e' : Nat} {name : String} (he : l.frame e e') (hname : l.name name) (s : Store)
    (v : Value) : s.Spares l (s.define e name v) := by
  refine ⟨Nat.le_refl _, fun _ _ hne => absurd rfl hne, by simp [Store.define],
    fun d _ key hne => ?_⟩
  rw [Store.define, frame_modify] at hne
  split at hne
  case isTrue hd =>
    rw [Frame.get?_define] at hne
    split at hne
    case isTrue hkey => exact ⟨⟨e', hd.1 ▸ he⟩, hkey ▸ hname⟩
    case isFalse => exact absurd rfl hne
  case isFalse => exact absurd rfl hne

theorem giveName (s : Store) (v : Value) (name : String) : s.Spares l (s.giveName v name) := by
  unfold Store.giveName
  split <;> exact .of_same rfl rfl

end Spares

end Store

theorem lt_iff_of_fresh {R : Nat → Nat → Prop}
    (hR : ∀ {a a' b b'}, R a a' → R b b' → (a' = b' ↔ a = b)) {n n' : Nat}
    (hfresh : ∀ i, R (n + i) (n' + i)) {a a' : Nat} (h : R a a') : a' < n' ↔ a < n := by
  constructor
  · intro hlt
    by_contra hge
    have hn := hfresh (a - n)
    rw [Nat.add_sub_cancel' (by omega)] at hn
    have := (hR h hn).mpr rfl
    omega
  · intro hlt
    by_contra hge
    have hn := hfresh (a' - n')
    rw [Nat.add_sub_cancel' (by omega)] at hn
    have := (hR h hn).mp rfl
    omega

namespace Store.Parallel

variable {c : Terms} {s s' : Store}

theorem cons (h : s.Parallel c s') (hl : c.link.OneToOne) {x x' y y' : Value}
    (hx : x.Linked c.link x') (hy : y.Linked c.link y') (place place' : Option Location) :
    (s.cons x y place).2.Parallel c (s'.cons x' y' place').2 := by
  have hnew : ∀ {r r'}, c.link.cell r r' → (r' = s'.cells.size ↔ r = s.cells.size) :=
    fun hr => hl.cell hr (h.freshCell 0)
  refine { h with
    cells := ?cells, freshCell := fun i => ?fresh, head := fun {r r'} hr => ?head,
    tail := fun {r r'} hr => ?tail }
  case cells => simpa using h.cells.succ
  case fresh => simpa [Nat.add_assoc, Nat.add_comm 1 i] using h.freshCell (i + 1)
  case head =>
    simp only [Store.head, cell_cons, hnew hr]
    split
    · exact hx
    · exact h.head hr
  case tail =>
    simp only [Store.tail, cell_cons, hnew hr]
    split
    · exact hy
    · exact h.tail hr

theorem list (h : s.Parallel c s') (hl : c.link.OneToOne) {vs vs' : List Value}
    (hvs : List.Forall₂ (Value.Linked c.link) vs vs') {v v' : Value} (hv : v.Linked c.link v') :
    (s.list vs v).1.Linked c.link (s'.list vs' v').1 ∧
      (s.list vs v).2.Parallel c (s'.list vs' v').2 := by
  induction hvs with
  | nil => exact ⟨hv, h⟩
  | cons hx _ ih => exact ⟨.pair (ih.2.freshCell 0), ih.2.cons hl hx ih.1 _ _⟩

theorem setHead (h : s.Parallel c s') (hl : c.link.OneToOne) {r r' : Nat} (hr : c.link.cell r r')
    {v v' : Value} (hv : v.Linked c.link v') : (s.setHead r v).Parallel c (s'.setHead r' v') := by
  have hlt := lt_iff_of_fresh hl.cell h.freshCell hr
  refine { h with
    cells := ?cells, freshCell := fun i => ?fresh, head := fun {q q'} hq => ?head,
    tail := fun {q q'} hq => ?tail }
  case cells => simpa [Store.setHead] using h.cells
  case fresh => simpa [Store.setHead] using h.freshCell i
  case head =>
    simp only [Store.setHead, Store.head, cell_modify, hl.cell hq hr, hlt]
    split
    · exact hv
    · exact h.head hq
  case tail =>
    simp only [Store.setHead, Store.tail, cell_modify, hl.cell hq hr, hlt]
    split <;> exact h.tail hq

theorem setTail (h : s.Parallel c s') (hl : c.link.OneToOne) {r r' : Nat} (hr : c.link.cell r r')
    {v v' : Value} (hv : v.Linked c.link v') : (s.setTail r v).Parallel c (s'.setTail r' v') := by
  have hlt := lt_iff_of_fresh hl.cell h.freshCell hr
  refine { h with
    cells := ?cells, freshCell := fun i => ?fresh, head := fun {q q'} hq => ?head,
    tail := fun {q q'} hq => ?tail }
  case cells => simpa [Store.setTail] using h.cells
  case fresh => simpa [Store.setTail] using h.freshCell i
  case head =>
    simp only [Store.setTail, Store.head, cell_modify, hl.cell hq hr, hlt]
    split <;> exact h.head hq
  case tail =>
    simp only [Store.setTail, Store.tail, cell_modify, hl.cell hq hr, hlt]
    split
    · exact hv
    · exact h.tail hq

theorem newFrame (h : s.Parallel c s') (hl : c.link.OneToOne) {p p' : Option Nat}
    (hp : Option.Rel c.link.frame p p') : (s.newFrame p).2.Parallel c (s'.newFrame p').2 := by
  refine { h with freshFrame := fun i => ?fresh, frame := fun {e e'} he => ?frame }
  case fresh => simpa [Store.newFrame, Nat.add_assoc, Nat.add_comm 1 i] using h.freshFrame (i + 1)
  case frame =>
    have hnew : e' = s'.frames.size ↔ e = s.frames.size := hl.frame he (h.freshFrame 0)
    simp only [frame_newFrame, hnew]
    split
    · exact ⟨.nil, hp⟩
    · exact h.frame he

theorem define (h : s.Parallel c s') (hl : c.link.OneToOne) {e e' : Nat} (he : c.link.frame e e')
    (name : String) {v v' : Value} (hv : v.Linked c.link v') :
    (s.define e name v).Parallel c (s'.define e' name v') := by
  have hlt := lt_iff_of_fresh hl.frame h.freshFrame he
  refine { h with freshFrame := fun i => ?fresh, frame := fun {d d'} hd => ?frame }
  case fresh => simpa [Store.define] using h.freshFrame i
  case frame =>
    simp only [Store.define, frame_modify, hl.frame hd he, hlt]
    split
    · exact (h.frame hd).define hv
    · exact h.frame hd

theorem newOperative (h : s.Parallel c s') (hl : c.link.OneToOne) {o o' : Operative}
    (ho : o.Linked c.link o') : (s.newOperative o).2.Parallel c (s'.newOperative o').2 := by
  refine { h with freshOperative := fun i => ?fresh, operative := fun {r r'} hr => ?operative }
  case fresh =>
    simpa [Store.newOperative, Nat.add_assoc, Nat.add_comm 1 i] using h.freshOperative (i + 1)
  case operative =>
    have hnew : r' = s'.operatives.size ↔ r = s.operatives.size :=
      hl.operative hr (h.freshOperative 0)
    simp only [operative_newOperative, hnew]
    split
    · exact ho
    · exact h.operative hr

theorem giveName (h : s.Parallel c s') (hl : c.link.OneToOne) {v v' : Value}
    (hv : v.Linked c.link v') (name : String) :
    (s.giveName v name).Parallel c (s'.giveName v' name) := by
  induction hv with
  | @operative r r' hr =>
    have hlt := lt_iff_of_fresh hl.operative h.freshOperative hr
    refine { h with freshOperative := fun i => ?fresh, operative := fun {q q'} hq => ?named }
    case fresh => simpa [Store.giveName, Value.core] using h.freshOperative i
    case named =>
      have ho := h.operative hq
      simp only [Store.giveName, Value.core, operative_modify, hl.operative hq hr, hlt, ho.name]
      split
      · split
        · exact ⟨ho.scope, ho.formals, ho.dynamic, ho.body, rfl⟩
        · exact ho
      · exact ho
  | applicative label _ ih => exact ih
  | _ => exact h

theorem wrap (h : s.Parallel c s') (v v' : Value) : (s.wrap v).2.Parallel c (s'.wrap v').2 :=
  { h with wrappers := congrArg (· + 1) h.wrappers }

end Store.Parallel

namespace Store.Linked

variable {c : Terms} {s s' : Store}

theorem cons (h : s.Linked c s') (hl : c.link.OneToOne) {x x' y y' : Value}
    (hx : x.Linked c.link x') (hy : y.Linked c.link y') (place place' : Option Location) :
    (s.cons x y place).2.Linked c (s'.cons x' y' place').2 :=
  (h.parallel.cons hl hx hy place place').linked h.frames

theorem list (h : s.Linked c s') (hl : c.link.OneToOne) {vs vs' : List Value}
    (hvs : List.Forall₂ (Value.Linked c.link) vs vs') {v v' : Value} (hv : v.Linked c.link v') :
    (s.list vs v).1.Linked c.link (s'.list vs' v').1 ∧
      (s.list vs v).2.Linked c (s'.list vs' v').2 := by
  obtain ⟨hlinked, hstores⟩ := h.parallel.list hl hvs hv
  refine ⟨hlinked, hstores.linked ?_⟩
  rw [frames_list, frames_list, h.frames]

theorem newFrame (h : s.Linked c s') (hl : c.link.OneToOne) {p p' : Option Nat}
    (hp : Option.Rel c.link.frame p p') : (s.newFrame p).2.Linked c (s'.newFrame p').2 :=
  (h.parallel.newFrame hl hp).linked (by simp [Store.newFrame, h.frames])

end Store.Linked

/-- A course along linked stores, kept up by all changes in step that go no further than what is
linked. -/
structure Course.Upheld (c : Course) : Prop where
  entry : ∀ {r r'}, c.link.cell r r' → c.entry (.pair r) (.pair r')
  oneToOne : c.link.OneToOne
  stores : ∀ {w w'}, c.world w w' → w.store.Linked c.toTerms w'.store
  moves : ∀ {w w' t t'}, c.world w w' → t.Linked c.toTerms t' → w.store.Spares c.link t →
    w'.store.Spares c.link.flip t' → c.world ⟨t, w.effects⟩ ⟨t', w'.effects⟩
  records : ∀ {w w'} (e : Effect), c.world w w' →
    c.world ⟨w.store, w.effects.push e⟩ ⟨w'.store, w'.effects.push e⟩

/-- The same of a course along parallel stores. -/
structure Course.Borne (c : Course) : Prop where
  entry : ∀ {r r'}, c.link.cell r r' → c.entry (.pair r) (.pair r')
  oneToOne : c.link.OneToOne
  stores : ∀ {w w'}, c.world w w' → w.store.Parallel c.toTerms w'.store
  moves : ∀ {w w' t t'}, c.world w w' → t.Parallel c.toTerms t' → w.store.Spares c.link t →
    w'.store.Spares c.link.flip t' → c.world ⟨t, w.effects⟩ ⟨t', w'.effects⟩
  records : ∀ {w w'} (e : Effect), c.world w w' →
    c.world ⟨w.store, w.effects.push e⟩ ⟨w'.store, w'.effects.push e⟩

/-- Linked stores that come to be parallel ones have as many frames as each other. -/
theorem Course.Upheld.borne {c : Course} (hc : c.Upheld) : c.Borne where
  entry := hc.entry
  oneToOne := hc.oneToOne
  stores hw := (hc.stores hw).parallel
  moves := by
    intro w w' t t' hw ht hspares hspares'
    have hlinked := hc.stores hw
    have hold := hlinked.freshFrame (t.frames.size - w.store.frames.size)
    rw [hlinked.frames, Nat.add_sub_cancel' hspares.frames] at hold
    exact hc.moves hw (ht.linked ((hc.oneToOne.frame (ht.freshFrame 0) hold).mpr rfl)) hspares hspares'
  records := hc.records

namespace Course.Borne

variable {c : Course} (hc : c.Borne)
include hc

theorem tied_makes {α β : Type} {R : α → β → Prop} {f : Store → α × Store} {g : Store → β × Store}
    (h : ∀ s s', s.Parallel c.toTerms s' → R (f s).1 (g s').1 ∧ (f s).2.Parallel c.toTerms (g s').2 ∧
      s.Spares c.link (f s).2 ∧ s'.Spares c.link.flip (g s').2) :
    Deed.Tied c R (Deed.makes f) (Deed.makes g) := by
  intro w w' hw
  obtain ⟨hR, hlinked, hspares, hspares'⟩ := h _ _ (hc.stores hw)
  exact .ok hR (hc.moves hw hlinked hspares hspares')

theorem tied_changes {f g : Store → Store}
    (h : ∀ s s', s.Parallel c.toTerms s' →
      (f s).Parallel c.toTerms (g s') ∧ s.Spares c.link (f s) ∧ s'.Spares c.link.flip (g s')) :
    Deed.Tied c (fun _ _ => True) (Deed.changes f) (Deed.changes g) := by
  intro w w' hw
  obtain ⟨hlinked, hspares, hspares'⟩ := h _ _ (hc.stores hw)
  exact .ok trivial (hc.moves hw hlinked hspares hspares')

theorem tied_define {e e' : Nat} {name : String} {v v' : Value} (he : c.link.frame e e')
    (hname : c.link.name name) (hv : v.Linked c.link v') : Deed.Tied c (fun _ _ => True)
      (Deed.changes fun s => s.define e name v) (Deed.changes fun s => s.define e' name v') :=
  hc.tied_changes fun _ _ h =>
    ⟨h.define hc.oneToOne he name hv, .define he hname _ v,
      .define (l := c.link.flip) he hname _ v'⟩

theorem tied_defineAll {e e' : Nat} (he : c.link.frame e e') {bs bs' : List (String × Value)}
    (hbs : List.Forall₂ (Store.Linked.Binding c.toTerms) bs bs') : Deed.Tied c (fun _ _ => True)
      (Deed.changes fun s => s.defineAll e bs) (Deed.changes fun s => s.defineAll e' bs') := by
  refine hc.tied_changes fun s s' h => ?_
  induction hbs generalizing s s' with
  | nil => exact ⟨h, .refl s, .refl s'⟩
  | @cons b b' bs bs' hb _ ih =>
    obtain ⟨hname, hknown, hv⟩ := hb
    obtain ⟨hlinked, hspares, hspares'⟩ := ih _ _ (h.define hc.oneToOne he b.1 hv)
    simp only [Store.defineAll, List.foldl_cons, hname] at hlinked hspares hspares' ⊢
    exact ⟨hlinked, (Store.Spares.define he hknown s b.2).trans hspares,
      (Store.Spares.define (l := c.link.flip) he hknown s' b'.2).trans hspares'⟩

theorem tied_binds {e e' : Nat} {p p' o o' : Value} (he : c.link.frame e e')
    (hp : p.Linked c.link p') (ho : o.Linked c.link o') :
    Deed.Tied c (fun _ _ => True) (Deed.binds e p o) (Deed.binds e' p' o') :=
  (Deed.tied_tries fun _ _ hw => (hc.stores hw).matchFormals hp ho).bind
    fun _ _ hbs => hc.tied_defineAll he hbs

theorem tied_operands (signature : Signature) {v v' : Value} (hv : v.Linked c.link v') :
    Deed.Tied c (List.Forall₂ (Value.Linked c.link)) (checkedOperands signature v)
      (checkedOperands signature v') := by
  refine Deed.Tied.bind (R := fun p p' => Option.Rel (fun p p' =>
      List.Forall₂ (Value.Linked c.link) p.1 p'.1 ∧ p.2.Linked c.link p'.2) p p' ∨
        p = none ∧ c.quits .endless)
    (Deed.tied_reads fun _ _ hw => (hc.stores hw).spine? hv) fun p p' hspine => ?_
  rcases hspine with hspine | ⟨rfl, hquits⟩
  · cases hspine with
    | none => exact fun _ _ hw => .error .endless hw
    | @some p p' hp =>
      have hfail : Deed.Tied c (List.Forall₂ (Value.Linked c.link))
          (Deed.fail (.arity (.text signature.text) v))
          (Deed.fail (.arity (.text signature.text) v')) := Deed.tied_fail (.arity _ hv)
      obtain ⟨vs, last⟩ := p
      obtain ⟨vs', last'⟩ := p'
      obtain ⟨hvs, hlast⟩ := hp
      cases hlast with
      | nil =>
        simp only [← hvs.length_eq]
        split
        · exact Deed.tied_pure hvs
        · exact hfail
      | _ => exact hfail
  · exact fun _ _ _ => .quit hquits

theorem kept : c.Kept where
  entry := hc.entry
  head hr := Deed.tied_reads fun _ _ hw => (hc.stores hw).head hr
  tail hr := Deed.tied_reads fun _ _ hw => (hc.stores hw).tail hr
  lookup he hname := Deed.tied_reads fun _ _ hw => (hc.stores hw).lookup? hname he
  owner he hname := Deed.tied_reads fun _ _ hw => (hc.stores hw).owner? hname he
  operative hr := Deed.tied_reads fun _ _ hw => (hc.stores hw).operative hr
  operands := hc.tied_operands
  names hv := Deed.tied_tries fun _ _ hw => (hc.stores hw).formalNames hv
  binds := hc.tied_binds
  equal hroom hvs := Deed.tied_tries fun _ _ hw =>
    ((hc.stores hw).allEqual hc.oneToOne hroom hvs).linked
  identical ha hb := ha.identical_eq hc.oneToOne hb
  texts hroom hvs := Deed.tied_tries fun _ _ hw =>
    (Corresponds.mapM (R := Value.Linked c.link)
      (fun _ _ hv => ((hc.stores hw).format .shown hroom hv).linked) hvs).mono
      fun _ _ htexts => List.forall₂_eq_eq_eq ▸ htexts
  records e _ _ hw := .ok trivial (hc.records e hw)
  cons hx hy := hc.tied_makes fun _ _ h =>
    ⟨.pair (h.freshCell 0), h.cons hc.oneToOne hx hy _ _, .cons _ _ _ _, .cons _ _ _ _⟩
  list hvs := hc.tied_makes fun _ _ h =>
    ⟨(h.list hc.oneToOne hvs .nil).1, (h.list hc.oneToOne hvs .nil).2, .list _ _ _, .list _ _ _⟩
  newFrame hp := hc.tied_makes fun _ _ h =>
    ⟨h.freshFrame 0, h.newFrame hc.oneToOne hp, .newFrame _ _, .newFrame _ _⟩
  newOperative ho _ := hc.tied_makes fun _ _ h =>
    ⟨.operative (h.freshOperative 0), h.newOperative hc.oneToOne ho, .of_same rfl rfl,
      .of_same rfl rfl⟩
  wrap hv := hc.tied_makes fun s s' h =>
    ⟨by simpa only [Store.wrap, h.wrappers] using .applicative _ hv, h.wrap _ _, .of_same rfl rfl,
      .of_same rfl rfl⟩
  define := hc.tied_define
  giveName hv := hc.tied_changes fun _ _ h =>
    ⟨h.giveName hc.oneToOne hv _, .giveName _ _ _, .giveName _ _ _⟩
  setHead hp hr hv := hc.tied_changes fun _ _ h =>
    ⟨h.setHead hc.oneToOne hr hv, .setHead hp hr _ _, .setHead (l := c.link.flip) hp hr _ _⟩
  setTail hp hr hv := hc.tied_changes fun _ _ h =>
    ⟨h.setTail hc.oneToOne hr hv, .setTail hp hr _ _, .setTail (l := c.link.flip) hp hr _ _⟩

end Course.Borne

theorem Course.Upheld.kept {c : Course} (hc : c.Upheld) : c.Kept := hc.borne.kept

end Vau
