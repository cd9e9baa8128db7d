import Vau.Proofs.InStep
import Vau.Proofs.Items
import Vau.Proofs.Loading
import Vau.Proofs.Matching

/-! Binding, all or nothing. The whole of a pattern is matched before the first name is bound, and
what the evaluating forms check is checked before they evaluate. So a binding that fails leaves
the world as it was, and one that succeeds binds the symbols of the pattern in one frame, each to the
part of the operands at its position, and changes no other binding. -/

namespace Vau

open Formals

/-- From a pair one goes down to its head or to its tail. -/
inductive Way where
  | head
  | tail

/-- The part of a value at a position, which is the way down to it from pair to pair. -/
def Store.part? (s : Store) : List Way → Value → Option Value
  | [], v => some v
  | .head :: below, .pair r => s.part? below (s.head r)
  | .tail :: below, .pair r => s.part? below (s.tail r)
  | _ :: _, _ => none

namespace Tree

/-- The symbols of a tree with their positions, those of a tail before those of the head. -/
def positions : Tree → List (String × List Way)
  | .leaf (.sym name) => [(name, [])]
  | .leaf _ => []
  | .node h t =>
    t.positions.map (fun p => (p.1, .tail :: p.2)) ++ h.positions.map (fun p => (p.1, .head :: p.2))

theorem positions_fst (t : Tree) : t.positions.map Prod.fst = t.symbols := by
  induction t with
  | leaf v => cases v <;> rfl
  | node h t ihh iht =>
    simp only [positions, List.map_append, List.map_map, symbols_node]
    rw [← iht, ← ihh]
    rfl

theorem matched_parts {s : Store} {t : Tree} {o : Value} {bs : List (String × Value)}
    (h : t.matched s o = .ok bs) :
    bs.map (fun b => (b.1, some b.2)) = t.positions.map fun p => (p.1, s.part? p.2 o) := by
  induction t generalizing o bs with
  | leaf v =>
    cases v with
    | sym name =>
      cases h
      rfl
    | ignore =>
      cases h
      rfl
    | nil =>
      cases o with
      | nil =>
        cases h
        rfl
      | _ => cases h
    | _ => cases h
  | node p q ihp ihq =>
    cases o with
    | pair r =>
      obtain ⟨below, hbelow, hrest⟩ := Except.bind_eq_ok h
      obtain ⟨here, hhere, hall⟩ := Except.bind_eq_ok hrest
      cases hall
      simp only [positions, List.map_append, List.map_map, ihq hbelow, ihp hhere]
      rfl
    | _ => cases h

end Tree

namespace Store

variable {s : Store} {e : Nat} {v o : Value} {bs : List (String × Value)}

/-- A descent that ends where the rest matches has gone down a tree, which matches with the heads
that were put off on the way. -/
theorem shows_of_descend {f : Value → Value → Except Mismatch (List (String × Value))}
    (hf : ∀ v o bs, f v o = .ok bs → ∃ t, s.Shows v t ∧ t.matched s o = .ok bs)
    {fuel : Nat} {heads : List (Value × Value)} {d : Descent} {here : List (String × Value)}
    {inside : List (List (String × Value))} (hd : descend s fuel heads v o = .ok d)
    (hhere : Formals.leaf d.pattern d.operand = .ok here)
    (hinside : d.heads.mapM (fun h => f h.1 h.2) = .ok inside) :
    ∃ t bs before, s.Shows v t ∧ t.matched s o = .ok (here ++ bs) ∧
      heads.mapM (fun h => f h.1 h.2) = .ok before ∧ inside.flatten = bs ++ before.flatten := by
  -- the heads put off grow with each step, so what was before them is split off at the end
  induction fuel generalizing heads v o with
  | zero =>
    have hleaf : v.isPair = false ∧ d = ⟨v, o, heads⟩ := by
      cases v with
      | pair r => cases o <;> cases hd
      | _ =>
        cases hd
        exact ⟨rfl, rfl⟩
    obtain ⟨hpair, rfl⟩ := hleaf
    exact ⟨.leaf v, [], inside, .leaf hpair, by simpa [Tree.matched] using hhere, hinside, rfl⟩
  | succ fuel ih =>
    by_cases hpair : v.isPair = true
    · obtain ⟨p, rfl⟩ := Value.eq_pair_of_isPair hpair
      cases o with
      | pair q =>
        obtain ⟨t, bs, before, ht, hmatched, hbefore, hflatten⟩ := ih hd
        rw [List.mapM_cons] at hbefore
        obtain ⟨x, hx, hrest⟩ := Except.bind_eq_ok hbefore
        obtain ⟨before, hheads, hcons⟩ := Except.bind_eq_ok hrest
        cases hcons
        obtain ⟨u, hu, hmatched'⟩ := hf _ _ _ hx
        refine ⟨.node u t, bs ++ x, before, .node hu ht, ?_, hheads, ?_⟩
        · simp only [Tree.matched, hmatched, hmatched']
          simp [Bind.bind, Except.bind, Pure.pure, Except.pure]
        · rw [hflatten, List.flatten_cons, List.append_assoc]
      | _ => cases hd
    · have hleaf : d = ⟨v, o, heads⟩ := by
        cases v with
        | pair r => exact absurd rfl hpair
        | _ =>
          cases hd
          rfl
      subst hleaf
      have hshows : s.Shows v (.leaf v) := .leaf (Bool.eq_false_iff.mpr hpair)
      exact ⟨.leaf v, [], inside, hshows, by simpa [Tree.matched] using hhere, hinside, rfl⟩

theorem shows_of_matchWithin {spine room : Nat} (h : matchWithin s spine room v o = .ok bs) :
    ∃ t, s.Shows v t ∧ t.matched s o = .ok bs := by
  induction room generalizing v o bs with
  | zero => cases h
  | succ room ih =>
    obtain ⟨d, hd, hrest⟩ := Except.bind_eq_ok h
    obtain ⟨here, hhere, hrest⟩ := Except.bind_eq_ok hrest
    obtain ⟨inside, hinside, hall⟩ := Except.bind_eq_ok hrest
    cases hall
    obtain ⟨t, bs, before, ht, hmatched, hbefore, hflatten⟩ :=
      shows_of_descend (fun _ _ _ => ih) hd hhere hinside
    cases hbefore
    refine ⟨t, ht, ?_⟩
    rw [hmatched, hflatten]
    simp

theorem shows_of_matchFormals (h : s.matchFormals v o = .ok bs) :
    ∃ t, s.Shows v t ∧ t.matched s o = .ok bs :=
  shows_of_matchWithin (Except.ok_of_mapError h)

theorem Shows.unique {t u : Tree} (ht : s.Shows v t) (hu : s.Shows v u) : t = u := by
  induction ht generalizing u with
  | leaf hv =>
    cases hu with
    | leaf _ => rfl
    | node _ _ => cases hv
  | node _ _ ihh iht =>
    cases hu with
    | leaf hv => cases hv
    | node hh ht => rw [ihh hh, iht ht]

theorem frame_define_of_ne {d : Nat} (hd : d ≠ e) (s : Store) (name : String) (v : Value) :
    (s.define e name v).frame d = s.frame d := by
  rw [define, frame_modify, if_neg fun h => hd h.1]

theorem frame_defineAll_of_ne {d : Nat} (hd : d ≠ e) (s : Store) (bs : List (String × Value)) :
    (s.defineAll e bs).frame d = s.frame d := by
  induction bs generalizing s with
  | nil => rfl
  | cons b bs ih => exact (ih _).trans (frame_define_of_ne hd s b.1 b.2)

/-- A frame that does not exist cannot be changed. -/
theorem frame_defineAll_of_le (he : s.frames.size ≤ e) (bs : List (String × Value)) (d : Nat) :
    (s.defineAll e bs).frame d = s.frame d := by
  by_cases hd : d = e
  · have hsize := size_defineAll s e bs
    have hnew : e ≥ (s.defineAll e bs).frames.size := hsize ▸ he
    subst hd
    simp [frame, he, hnew]
  · exact frame_defineAll_of_ne hd s bs

theorem lookup_of_mem {name : String} (hnodup : (bs.map Prod.fst).Nodup) (hmem : (name, v) ∈ bs) :
    bs.lookup name = some v := by
  obtain ⟨before, after, rfl⟩ := List.append_of_mem hmem
  refine List.lookup_eq_some_iff.mpr ⟨before, after, rfl, fun b hb => ?_⟩
  rw [List.map_append, List.nodup_append] at hnodup
  have hne := hnodup.2.2 b.1 (List.mem_map_of_mem hb) name List.mem_cons_self
  exact bne_iff_ne.mpr hne.symm

theorem lookup_of_not_mem {name : String} (hnew : name ∉ bs.map Prod.fst) :
    bs.lookup name = none := by
  refine List.lookup_eq_none_iff.mpr fun b hb => bne_iff_ne.mpr fun hname => hnew ?_
  exact hname ▸ List.mem_map_of_mem hb

end Store

/-- In `w'` the symbols of the tree are bound in the frame `e`, each to the part of the operands at
its position; no other binding and nothing but bindings and names of operatives is different. -/
structure World.Binds (w w' : World) (e : Nat) (t : Tree) (o : Value) : Prop where
  cells : w'.store.cells = w.store.cells
  wrappers : w'.store.wrappers = w.store.wrappers
  effects : w'.effects = w.effects
  frames : w'.store.frames.size = w.store.frames.size
  parent : ∀ d, (w'.store.frame d).parent = (w.store.frame d).parent
  part : e < w.store.frames.size → t.symbols.Nodup → ∀ p ∈ t.positions,
    ∃ v, w.store.part? p.2 o = some v ∧ (w'.store.frame e).get? p.1 = some v
  other : ∀ d name, ¬ (d = e ∧ name ∈ t.symbols) →
    (w'.store.frame d).get? name = (w.store.frame d).get? name

namespace World.Binds

variable {w : World} {e : Nat} {t : Tree} {o : Value} {bs : List (String × Value)}

theorem of_matched (h : t.matched w.store o = .ok bs) :
    w.Binds { w with store := w.store.defineAll e bs } e t o := by
  have hparts := Tree.matched_parts h
  have hnames : bs.map Prod.fst = t.symbols := by
    rw [← t.positions_fst]
    simpa [Function.comp_def] using congrArg (List.map Prod.fst) hparts
  have heq := w.store.defineAll_eq e bs
  have hcells : (w.store.defineAll e bs).cells = w.store.cells := by rw [heq]
  have hwrappers : (w.store.defineAll e bs).wrappers = w.store.wrappers := by rw [heq]
  refine {
    cells := hcells
    wrappers := hwrappers
    effects := rfl
    frames := Store.size_defineAll _ _ _
    parent := fun d => ?_
    part := fun he hnodup p hp => ?_
    other := fun d name hname => ?_ }
  · by_cases hd : d = e
    · subst hd
      by_cases he : d < w.store.frames.size
      · exact Store.parent_defineAll _ he bs
      · exact congrArg Frame.parent (Store.frame_defineAll_of_le (Nat.le_of_not_lt he) bs d)
    · exact congrArg Frame.parent (Store.frame_defineAll_of_ne hd _ bs)
  · have hmem : (p.1, w.store.part? p.2 o) ∈ bs.map fun b => (b.1, some b.2) :=
      hparts ▸ List.mem_map_of_mem hp
    obtain ⟨b, hb, hpart⟩ := List.mem_map.mp hmem
    obtain ⟨hname, hvalue⟩ := Prod.mk.inj hpart
    have hlookup : bs.reverse.lookup p.1 = some b.2 := by
      have hdistinct : (bs.reverse.map Prod.fst).Nodup := by
        rwa [List.map_reverse, List.nodup_reverse, hnames]
      exact Store.lookup_of_mem hdistinct (List.mem_reverse.mpr (hname ▸ hb))
    refine ⟨b.2, hvalue.symm, ?_⟩
    exact (Store.get?_defineAll _ he bs p.1).trans (by rw [hlookup]; rfl)
  · by_cases hd : d = e
    · subst hd
      have hnew : name ∉ bs.reverse.map Prod.fst := by
        rw [List.map_reverse, List.mem_reverse, hnames]
        exact fun hmem => hname ⟨rfl, hmem⟩
      by_cases he : d < w.store.frames.size
      · have hlookup : bs.reverse.lookup name = none := Store.lookup_of_not_mem hnew
        exact (Store.get?_defineAll _ he bs name).trans (by rw [hlookup]; rfl)
      · exact congrArg (Frame.get? · name)
          (Store.frame_defineAll_of_le (Nat.le_of_not_lt he) bs d)
    · exact congrArg (Frame.get? · name) (Store.frame_defineAll_of_ne hd _ bs)

theorem giveName {w' : World} (h : w.Binds w' e t o) (v : Value) (name : String) :
    w.Binds { w' with store := w'.store.giveName v name } e t o := by
  have heq := w'.store.giveName_eq v name
  have hcells : (w'.store.giveName v name).cells = w'.store.cells := by rw [heq]
  have hframes : (w'.store.giveName v name).frames = w'.store.frames := by rw [heq]
  have hwrappers : (w'.store.giveName v name).wrappers = w'.store.wrappers := by rw [heq]
  have hframe : ∀ d, (w'.store.giveName v name).frame d = w'.store.frame d := fun d =>
    congrArg (fun frames : Array Frame => frames.getD d {}) hframes
  exact {
    cells := hcells.trans h.cells
    wrappers := hwrappers.trans h.wrappers
    effects := h.effects
    frames := (congrArg Array.size hframes).trans h.frames
    parent := fun d => (congrArg Frame.parent (hframe d)).trans (h.parent d)
    part := fun he hnodup p hp => by
      obtain ⟨u, hu, hget⟩ := h.part he hnodup p hp
      exact ⟨u, hu, (congrArg (Frame.get? · p.1) (hframe e)).trans hget⟩
    other := fun d name hname =>
      (congrArg (Frame.get? · name) (hframe d)).trans (h.other d name hname) }

end World.Binds

namespace Deed

variable {w : World} {e : Nat} {v o : Value}

/-- A binding fails with the world as it was, or binds a pattern that is a tree. -/
theorem binds_cases (e : Nat) (v o : Value) (w : World) :
    (∃ err, Deed.binds e v o w = .error err w) ∨
      ∃ t w', Deed.binds e v o w = .ok () w' ∧ w.store.Shows v t ∧ w.Binds w' e t o ∧
        w'.store.operatives = w.store.operatives := by
  cases hmatch : w.store.matchFormals v o with
  | error err =>
    refine .inl ⟨err, ?_⟩
    simp only [Deed.binds, Bind.bind, EStateM.bind, Deed.tries, hmatch]
  | ok bs =>
    obtain ⟨t, ht, hmatched⟩ := Store.shows_of_matchFormals hmatch
    refine .inr ⟨t, { w with store := w.store.defineAll e bs }, ?_, ht, .of_matched hmatched, ?_⟩
    · simp only [Deed.binds, Bind.bind, EStateM.bind, Deed.tries, Deed.changes, hmatch]
    · show (w.store.defineAll e bs).operatives = w.store.operatives
      rw [w.store.defineAll_eq e bs]

end Deed

/-- How `($define! definiend expression)` ends, from the machine `m`: the definiend is rejected before
the expression is evaluated; the expression is evaluated to no value; what it is evaluated to does
not match; or the definiend is bound, and its value has a name if it is an operative without one
and the definiend is a symbol. -/
inductive Defines (ev : Evaluation) (env : Nat) (definiend expression : Value) (m : Machine) :
    EStateM.Result Stop Machine Answer → Prop
  | rejected {e : Stop} (h : m.store.formalNames definiend = .error e) :
    Defines ev env definiend expression m (.error e m)
  | raised {names : List String} {e : Stop} {m' : Machine}
    (h : m.store.formalNames definiend = .ok names) (hev : ev expression env m = .error e m') :
    Defines ev env definiend expression m (.error e m')
  | unmatched {names : List String} {v : Value} {e : Stop} {m' : Machine}
    (h : m.store.formalNames definiend = .ok names) (hev : ev expression env m = .ok v m') :
    Defines ev env definiend expression m (.error e m')
  | bound {names : List String} {v : Value} {t : Tree} {m' : Machine} {w : World}
    (h : m.store.formalNames definiend = .ok names) (hev : ev expression env m = .ok v m')
    (ht : m'.store.Shows definiend t) (hw : m'.world.Binds w env t v)
    (hoperative : ∀ q, w.store.operative q = m'.store.operative q ∨
      ∃ name, definiend = .sym name ∧ v.core = .operative q ∧ (m'.store.operative q).name = none ∧
        w.store.operative q = { m'.store.operative q with name := some name }) :
    Defines ev env definiend expression m (.ok (.value .inert) { m' with world := w })

/-- How `($set! target expression)` ends, from the machine `m`: the target is no symbol; the expression
is evaluated to no value; no frame binds the symbol then; or the first that does has it bound anew. -/
inductive Assigns (ev : Evaluation) (env : Nat) (target expression : Value) (m : Machine) :
    EStateM.Result Stop Machine Answer → Prop
  | rejected (h : target.isSymbol = false) :
    Assigns ev env target expression m (.error (.failure (.typeMismatch "symbol" target)) m)
  | raised {name : String} {e : Stop} {m' : Machine} (h : target = .sym name)
    (hev : ev expression env m = .error e m') : Assigns ev env target expression m (.error e m')
  | unbound {name : String} {v : Value} {m' : Machine} (h : target = .sym name)
    (hev : ev expression env m = .ok v m') (howner : m'.store.owner? env name = none) :
    Assigns ev env target expression m (.error (.failure (.unbound name)) m')
  | bound {name : String} {v : Value} {o : Nat} {m' : Machine} {w : World} (h : target = .sym name)
    (hev : ev expression env m = .ok v m') (howner : m'.store.owner? env name = some o)
    (ho : o < m'.store.frames.size) (hw : m'.world.Binds w o (.leaf (.sym name)) v)
    (hoperatives : w.store.operatives = m'.store.operatives) :
    Assigns ev env target expression m (.ok (.value .inert) { m' with world := w })

theorem Store.operative_giveName (s : Store) (v : Value) (name : String) (q : Nat) :
    (s.giveName v name).operative q = s.operative q ∨
      v.core = .operative q ∧ (s.operative q).name = none ∧
        (s.giveName v name).operative q = { s.operative q with name := some name } := by
  unfold Store.giveName
  split
  · rename_i r hcore
    rw [operative_modify]
    by_cases hq : q = r ∧ r < s.operatives.size
    · rw [if_pos hq]
      by_cases hname : (s.operative q).name.isNone = true
      · rw [if_pos hname]
        exact .inr ⟨hq.1 ▸ hcore, Option.isNone_iff_eq_none.mp hname, rfl⟩
      · rw [if_neg hname]
        exact .inl rfl
    · rw [if_neg hq]
      exact .inl rfl
  · exact .inl rfl

theorem Store.owner?_lt {s : Store} {e o : Nat} {name : String} (h : s.owner? e name = some o) :
    o < s.frames.size := by
  have hwithin : ∀ fuel e, s.ownerWithin name fuel e = some o → o < s.frames.size := by
    intro fuel
    induction fuel with
    | zero =>
      intro e h
      cases h
    | succ fuel ih =>
      intro e h
      rw [Store.ownerWithin] at h
      by_cases hb : (s.frame e).binds name = true
      · rw [if_pos hb] at h
        cases h
        by_contra hlt
        have hempty : s.frame o = {} := by simp [Store.frame, Nat.le_of_not_lt hlt]
        rw [hempty] at hb
        cases hb
      · rw [if_neg hb] at h
        cases hp : (s.frame e).parent with
        | none =>
          rw [hp] at h
          cases h
        | some p =>
          rw [hp] at h
          exact ih p h
  exact hwithin s.frames.size e h

namespace Action

variable {α β : Type} {x : Action α} {f : α → Action β} {d : Deed α} {a : α} {e : Stop}
  {m m' : Machine} {w : World}

theorem bind_of_ok (h : x m = .ok a m') : (x >>= f) m = f a m' := by
  simp only [Bind.bind, EStateM.bind, h]

theorem bind_of_error (h : x m = .error e m') : (x >>= f) m = .error e m' := by
  simp only [Bind.bind, EStateM.bind, h]

theorem act_of_ok (h : d m.world = .ok a w) : d.act m = .ok a { m with world := w } := by
  cases m
  simp only [Deed.act, show d _ = _ from h]

theorem act_of_error (h : d m.world = .error e w) : d.act m = .error e { m with world := w } := by
  cases m
  simp only [Deed.act, show d _ = _ from h]

end Action

section Forms

variable {ev : Evaluation} {env : Nat} {m : Machine} {operands : Value}

theorem defines_value {definiend expression v : Value} {names : List String} {m' : Machine}
    (h : m.store.formalNames definiend = .ok names) (hev : ev expression env m = .ok v m') :
    Defines ev env definiend expression m (Form.define.perform ev env [definiend, expression] m) := by
  have hnames : (Deed.tries fun s => s.formalNames definiend).act m = .ok names m :=
    Action.act_of_ok (by simp only [Deed.tries, show m.world.store.formalNames definiend = _ from h])
  rw [Form.perform, Action.bind_of_ok hnames, Action.bind_of_ok hev]
  rcases Deed.binds_cases env definiend v m'.world with ⟨e, he⟩ | ⟨t, w, hbind, ht, hw, hsame⟩
  · rw [Action.bind_of_error (Action.act_of_error he)]
    exact .unmatched h hev
  · rw [Action.bind_of_ok (Action.act_of_ok hbind)]
    by_cases hsymbol : ∃ name, definiend = .sym name
    · obtain ⟨name, rfl⟩ := hsymbol
      refine .bound h hev ht (hw.giveName v name) fun q => ?_
      have hq : w.store.operative q = m'.store.operative q :=
        congrArg (fun os : Array Operative => os.getD q ⟨0, .nil, .nil, [], none⟩) hsame
      rw [← hq]
      refine (w.store.operative_giveName v name q).imp_right ?_
      rintro ⟨hcore, hname, hgiven⟩
      exact ⟨name, rfl, hcore, hname, hgiven⟩
    · have hbound : Defines ev env definiend expression m (.ok (.value .inert) { m' with world := w }) :=
        .bound h hev ht hw fun q => .inl
          (congrArg (fun os : Array Operative => os.getD q ⟨0, .nil, .nil, [], none⟩) hsame)
      cases definiend with
      | sym name => exact absurd ⟨name, rfl⟩ hsymbol
      | _ => exact hbound

theorem defines_perform (ev : Evaluation) (env : Nat) (definiend expression : Value) (m : Machine) :
    Defines ev env definiend expression m (Form.define.perform ev env [definiend, expression] m) := by
  cases h : m.store.formalNames definiend with
  | error e =>
    have hnames : (Deed.tries fun s => s.formalNames definiend).act m = .error e m :=
      Action.act_of_error
        (by simp only [Deed.tries, show m.world.store.formalNames definiend = _ from h])
    rw [Form.perform, Action.bind_of_error hnames]
    exact .rejected h
  | ok names =>
    cases hev : ev expression env m with
    | error e m' =>
      have hnames : (Deed.tries fun s => s.formalNames definiend).act m = .ok names m :=
        Action.act_of_ok
          (by simp only [Deed.tries, show m.world.store.formalNames definiend = _ from h])
      rw [Form.perform, Action.bind_of_ok hnames, Action.bind_of_error hev]
      exact .raised h hev
    | ok v m' => exact defines_value h hev

theorem assigns_perform (ev : Evaluation) (env : Nat) (target expression : Value) (m : Machine) :
    Assigns ev env target expression m (Form.assign.perform ev env [target, expression] m) := by
  by_cases hsymbol : target.isSymbol = true
  · obtain ⟨name, rfl⟩ : ∃ name, target = .sym name := by
      cases target with
      | sym name => exact ⟨name, rfl⟩
      | _ => cases hsymbol
    cases hev : ev expression env m with
    | error e m' =>
      rw [Form.perform, Action.bind_of_error hev]
      exact .raised rfl hev
    | ok v m' =>
      have hreads : (Deed.reads fun s => s.owner? env name).act m' = .ok (m'.store.owner? env name) m' :=
        Action.act_of_ok rfl
      rw [Form.perform, Action.bind_of_ok hev, Action.bind_of_ok hreads]
      cases howner : m'.store.owner? env name with
      | none => exact .unbound rfl hev howner
      | some o =>
        have hmatched : (Tree.leaf (.sym name)).matched m'.store v = .ok [(name, v)] := rfl
        exact .bound rfl hev howner (Store.owner?_lt howner) (.of_matched hmatched) rfl
  · have hrun : Form.assign.perform ev env [target, expression] m =
        .error (.failure (.typeMismatch "symbol" target)) m := by
      cases target with
      | sym name => exact absurd rfl hsymbol
      | _ => rfl
    rw [hrun]
    exact .rejected (Bool.eq_false_iff.mpr hsymbol)

theorem callPrimitive_form (cfg : Settings) (ev : Evaluation) (room env : Nat) {f : Form}
    {vs : List Value} (hspine : m.store.spine? operands = some (vs, .nil))
    (hadmits : f.signature.admits vs.length = true) :
    callPrimitive cfg ev room (.form f) operands env m = f.perform ev env vs m := by
  have hoperands : (checkedOperands f.signature operands).act m = .ok vs m := by
    refine Action.act_of_ok ?_
    simp only [checkedOperands, Deed.reads, Bind.bind, EStateM.bind,
      show m.world.store.spine? operands = _ from hspine, hadmits, if_true]
    rfl
  exact Action.bind_of_ok hoperands

end Forms

/-- A pattern that is accepted is bound whole, in the frame given, or not at all. A definition and
an assignment check what they are to bind before they evaluate, with whatever evaluator, and what
fails after that leaves the world as the evaluation left it. -/
theorem binding_all_or_nothing :
    (∀ (w : World) (e : Nat) (v o : Value) (names : List String),
      w.store.formalNames v = .ok names →
      (∃ err, Deed.binds e v o w = .error err w) ∨
        ∃ t w', Deed.binds e v o w = .ok () w' ∧ w.store.Shows v t ∧ t.symbols = names ∧
          names.Nodup ∧ w.Binds w' e t o ∧ w'.store.operatives = w.store.operatives) ∧
    ∀ (cfg : Settings) (ev : Evaluation) (room env : Nat) (operands target expression : Value)
      (m : Machine), m.store.spine? operands = some ([target, expression], .nil) →
      Defines ev env target expression m (callPrimitive cfg ev room (.form .define) operands env m) ∧
        Assigns ev env target expression m
          (callPrimitive cfg ev room (.form .assign) operands env m) := by
  constructor
  · intro w e v o names hnames
    refine (Deed.binds_cases e v o w).imp_right ?_
    rintro ⟨t, w', hbind, ht, hw, hsame⟩
    obtain ⟨u, hu, hadd⟩ := Store.shows_of_formalNames hnames
    obtain rfl := hu.unique ht
    obtain ⟨-, hnodup, hsymbols⟩ := (Tree.addNames_iff List.nodup_nil).mp hadd
    rw [List.nil_append] at hnodup hsymbols
    exact ⟨u, w', hbind, ht, hsymbols.symm, hsymbols ▸ hnodup, hw, hsame⟩
  · intro cfg ev room env operands target expression m hspine
    rw [callPrimitive_form cfg ev room env hspine rfl, callPrimitive_form cfg ev room env hspine rfl]
    exact ⟨defines_perform ev env target expression m, assigns_perform ev env target expression m⟩

/-- The formals `((a . #ignore) . b)`, and a list of them and of `7`. -/
def nestedDefinition : World where
  store := {
    cells := Store.nestedFormals.cells ++ #[⟨.int 7, .nil, none⟩, ⟨.pair 1, .pair 4, none⟩]
    frames := #[{}] }

/-- The nested symbol is bound to the part at its place, and what does not match binds nothing. -/
theorem binding_all_or_nothing_nested :
    nestedDefinition.store.formalNames (.pair 1) = .ok ["b", "a"] ∧
    (∃ w, Deed.binds 0 (.pair 1) (.pair 3) nestedDefinition = .ok () w ∧
      (w.store.frame 0).get? "a" = some (.int 1)) ∧
    nestedDefinition.store.spine? (.pair 5) = some ([.pair 1, .int 7], .nil) ∧
    Defines (nested (reduce {} 5) 5) 0 (.pair 1) (.int 7) { world := nestedDefinition }
      (callPrimitive {} (nested (reduce {} 5) 5) 5 (.form .define) (.pair 5) 0
        { world := nestedDefinition }) := by
  have hnames : nestedDefinition.store.formalNames (.pair 1) = .ok ["b", "a"] := by decide
  have hspine : nestedDefinition.store.spine? (.pair 5) = some ([.pair 1, .int 7], .nil) := by decide
  obtain ⟨hbinding, hforms⟩ := binding_all_or_nothing
  have hdefines := hforms {} (nested (reduce {} 5) 5) 5 0 (.pair 5) (.pair 1) (.int 7)
    { world := nestedDefinition } hspine
  refine ⟨hnames, ?_, hspine, hdefines.1⟩
  have hrun : ∃ w, Deed.binds 0 (.pair 1) (.pair 3) nestedDefinition = .ok () w := ⟨_, rfl⟩
  rcases hbinding nestedDefinition 0 (.pair 1) (.pair 3) _ hnames with
    ⟨e, he⟩ | ⟨t, w, hw, ht, hsymbols, hnodup, hbinds, -⟩
  · obtain ⟨w, hw⟩ := hrun
    rw [hw] at he
    cases he
  · have hshows : nestedDefinition.store.Shows (.pair 1)
        (.node (.node (.leaf (.sym "a")) (.leaf .ignore)) (.leaf (.sym "b"))) :=
      .node (.node (.leaf rfl) (.leaf rfl)) (.leaf rfl)
    obtain rfl := ht.unique hshows
    have hmem : ("a", [Way.head, Way.head]) ∈ Tree.positions
        (.node (.node (.leaf (.sym "a")) (.leaf .ignore)) (.leaf (.sym "b"))) := by
      simp [Tree.positions]
    obtain ⟨u, hu, hget⟩ := hbinds.part (by decide) (hsymbols ▸ hnodup) _ hmem
    cases hu
    exact ⟨w, hw, hget⟩

end Vau
