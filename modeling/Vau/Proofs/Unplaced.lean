import Vau.Proofs.Respect

/-! Programs without places. Where a list was written is kept with its first pair, but nothing
that a program can do looks at it: an evaluation in a store stripped of all locations takes the
same course, and ends in the store, stripped, that it ends in otherwise. -/

namespace Vau

def Cell.unplaced (c : Cell) : Cell := { c with location := none }

namespace Store

/-- The store without the locations of its pairs. -/
def unplaced (s : Store) : Store := { s with cells := s.cells.map Cell.unplaced }

variable {s : Store}

@[simp] theorem size_unplaced : s.unplaced.cells.size = s.cells.size := by simp [unplaced]

theorem cell_unplaced (r : Nat) : s.unplaced.cell r = (s.cell r).unplaced := by
  by_cases hr : r < s.cells.size
  · simp [cell, unplaced, hr]
  · simp [cell, unplaced, Nat.le_of_not_lt hr, Cell.unplaced]

@[simp] theorem head_unplaced (r : Nat) : s.unplaced.head r = s.head r := by
  simp [head, cell_unplaced, Cell.unplaced]

@[simp] theorem tail_unplaced (r : Nat) : s.unplaced.tail r = s.tail r := by
  simp [tail, cell_unplaced, Cell.unplaced]

@[simp] theorem frame_unplaced (e : Nat) : s.unplaced.frame e = s.frame e := rfl

theorem walk_unplaced (fuel : Nat) (heads : List Value) (v : Value) :
    s.unplaced.walk fuel heads v = s.walk fuel heads v := by
  induction fuel generalizing heads v with
  | zero => cases v <;> rfl
  | succ fuel ih =>
    cases v with
    | pair r => simp only [walk, head_unplaced, tail_unplaced, ih]
    | _ => rfl

@[simp] theorem spine?_unplaced (v : Value) : s.unplaced.spine? v = s.spine? v := by
  simp only [spine?, size_unplaced, walk_unplaced]

@[simp] theorem nameOf?_unplaced (v : Value) : s.unplaced.nameOf? v = s.nameOf? v := by
  induction v with
  | applicative label u ih => exact ih
  | _ => rfl

theorem ownerWithin_unplaced (name : String) (fuel e : Nat) :
    s.unplaced.ownerWithin name fuel e = s.ownerWithin name fuel e := by
  induction fuel generalizing e with
  | zero => rfl
  | succ fuel ih => simp only [ownerWithin, frame_unplaced, ih]

@[simp] theorem owner?_unplaced (e : Nat) (name : String) :
    s.unplaced.owner? e name = s.owner? e name :=
  ownerWithin_unplaced name _ e

theorem lookupWithin_unplaced (name : String) (fuel e : Nat) :
    s.unplaced.lookupWithin name fuel e = s.lookupWithin name fuel e := by
  induction fuel generalizing e with
  | zero => rfl
  | succ fuel ih => simp only [lookupWithin, frame_unplaced, ih]

@[simp] theorem lookup?_unplaced (e : Nat) (name : String) :
    s.unplaced.lookup? e name = s.lookup? e name :=
  lookupWithin_unplaced name _ e

section Formals

open Vau.Formals

theorem descend_unplaced (fuel : Nat) (heads : List (Value × Value)) (p o : Value) :
    descend s.unplaced fuel heads p o = descend s fuel heads p o := by
  induction fuel generalizing heads p o with
  | zero => cases p <;> cases o <;> rfl
  | succ fuel ih =>
    cases p with
    | pair p =>
      cases o with
      | pair o => simp only [descend, head_unplaced, tail_unplaced, ih]
      | _ => rfl
    | _ => rfl

theorem matchWithin_unplaced (spine room : Nat) (p o : Value) :
    matchWithin s.unplaced spine room p o = matchWithin s spine room p o := by
  induction room generalizing p o with
  | zero => rfl
  | succ room ih => simp only [matchWithin, descend_unplaced, ih]

@[simp] theorem matchFormals_unplaced (p o : Value) :
    s.unplaced.matchFormals p o = s.matchFormals p o := by
  simp only [matchFormals, places, size_unplaced, matchWithin_unplaced]

theorem namesWithin_unplaced (room : Nat) (seen : List String) (v : Value) :
    namesWithin s.unplaced room seen v = namesWithin s room seen v := by
  induction room generalizing seen v with
  | zero => rfl
  | succ room ih => simp only [namesWithin, spine?_unplaced, ih]

@[simp] theorem formalNames_unplaced (p : Value) : s.unplaced.formalNames p = s.formalNames p := by
  simp only [formalNames, size_unplaced, namesWithin_unplaced]

end Formals

section Comparing

theorem equalSpine_unplaced (heads : Value → Value → Except Stop Bool) (fuel : Nat) (a b : Value) :
    s.unplaced.equalSpine heads fuel a b = s.equalSpine heads fuel a b := by
  induction fuel generalizing a b with
  | zero => cases a <;> cases b <;> rfl
  | succ fuel ih =>
    cases a with
    | pair p =>
      cases b with
      | pair q => simp only [equalSpine, head_unplaced, tail_unplaced, ih]
      | _ => rfl
    | _ => rfl

theorem equal_unplaced (room : Nat) : s.unplaced.equal room = s.equal room := by
  induction room with
  | zero => rfl
  | succ room ih =>
    funext a b
    simp only [equal, ih, size_unplaced, equalSpine_unplaced]

@[simp] theorem allEqual_unplaced (room : Nat) (vs : List Value) :
    s.unplaced.allEqual room vs = s.allEqual room vs := by
  induction vs with
  | nil => rfl
  | cons a vs ih =>
    cases vs with
    | nil => rfl
    | cons b vs => simp only [allEqual, equal_unplaced, ih]

end Comparing

section Printing

open Vau.Printer

theorem atom_unplaced (st : Style) (v : Value) : atom st s.unplaced v = atom st s v := by
  cases v with
  | applicative label u => simp only [atom, nameOf?_unplaced]
  | _ => rfl

theorem parts_unplaced (st : Style) (write : Value → Except Stop (List Char)) (fuel used : Nat)
    (done : List (List Char)) (v : Value) :
    parts st s.unplaced write fuel used done v = parts st s write fuel used done v := by
  induction fuel generalizing used done v with
  | zero => cases v <;> rfl
  | succ fuel ih =>
    cases v with
    | pair r => simp only [parts, head_unplaced, tail_unplaced, ih]
    | _ => rfl

theorem write_unplaced (st : Style) (room : Nat) :
    ∀ depth v, write st s.unplaced room depth v = write st s room depth v := by
  have hbudget : st.budget s.unplaced = st.budget s := by
    simp only [Style.budget, size_unplaced]
  induction room with
  | zero =>
    intro depth v
    cases v with
    | pair r => rfl
    | _ => exact atom_unplaced st _
  | succ room ih =>
    intro depth v
    cases v with
    | pair r =>
      have hwrite : write st s.unplaced room (depth + 1) = write st s room (depth + 1) :=
        funext fun v => ih (depth + 1) v
      simp only [write, hwrite, hbudget, parts_unplaced]
    | _ => exact atom_unplaced st _

@[simp] theorem format_unplaced (room : Nat) (st : Style) (v : Value) :
    s.unplaced.format room st v = s.format room st v := by
  simp only [format, write_unplaced]

@[simp] theorem print_unplaced (st : Style) (v : Value) : s.unplaced.print st v = s.print st v :=
  format_unplaced hostRoom st v

@[simp] theorem describe_unplaced (v : Value) : s.unplaced.describe v = s.describe v :=
  print_unplaced _ v

end Printing

section Changing

theorem cons_unplaced (x y : Value) (l : Option Location) :
    s.unplaced.cons x y none = ((s.cons x y l).1, (s.cons x y l).2.unplaced) := by
  simp [cons, unplaced, Cell.unplaced]

theorem list_unplaced (items : List Value) (tail : Value) :
    s.unplaced.list items tail = ((s.list items tail).1, (s.list items tail).2.unplaced) := by
  induction items with
  | nil => rfl
  | cons v vs ih =>
    simp only [list, List.foldr_cons] at ih ⊢
    rw [ih]
    exact cons_unplaced _ _ none

theorem setHead_unplaced (r : Nat) (v : Value) :
    s.unplaced.setHead r v = (s.setHead r v).unplaced := by
  have hcells : (s.cells.map Cell.unplaced).modify r (fun c => { c with head := v }) =
      (s.cells.modify r fun c => { c with head := v }).map Cell.unplaced := by
    apply Array.ext (by simp)
    intro i hi hi'
    simp only [Array.getElem_modify, Array.getElem_map, apply_ite Cell.unplaced]
    rfl
  simp only [setHead, unplaced, hcells]

theorem setTail_unplaced (r : Nat) (v : Value) :
    s.unplaced.setTail r v = (s.setTail r v).unplaced := by
  have hcells : (s.cells.map Cell.unplaced).modify r (fun c => { c with tail := v }) =
      (s.cells.modify r fun c => { c with tail := v }).map Cell.unplaced := by
    apply Array.ext (by simp)
    intro i hi hi'
    simp only [Array.getElem_modify, Array.getElem_map, apply_ite Cell.unplaced]
    rfl
  simp only [setTail, unplaced, hcells]

theorem defineAll_unplaced (e : Nat) (bs : List (String × Value)) :
    s.unplaced.defineAll e bs = (s.defineAll e bs).unplaced := by
  induction bs generalizing s with
  | nil => rfl
  | cons b bs ih => exact ih (s := s.define e b.1 b.2)

theorem giveName_unplaced (v : Value) (name : String) :
    s.unplaced.giveName v name = (s.giveName v name).unplaced := by
  unfold giveName
  split <;> rfl

end Changing

end Store

namespace Datum

/-- The datum without the locations of its lists. -/
def unplaced : Datum → Datum
  | .pair head tail _ => .pair head.unplaced tail.unplaced none
  | .group items => .group items.unplaced
  | d => d

end Datum

namespace Store

theorem load_unplaced (s : Store) (d : Datum) :
    s.unplaced.load d.unplaced = ((s.load d).1, (s.load d).2.unplaced) := by
  induction d generalizing s with
  | pair head tail l ihh iht =>
    simp only [load, Datum.unplaced, iht, ihh]
    exact cons_unplaced _ _ l
  | group items ih => exact ih s
  | _ => rfl

theorem loadAll_unplaced (s : Store) (data : List Datum) :
    s.unplaced.loadAll (data.map Datum.unplaced) =
      ((s.loadAll data).1, (s.loadAll data).2.unplaced) := by
  induction data generalizing s with
  | nil => rfl
  | cons d ds ih => simp only [List.map_cons, loadAll, load_unplaced, ih]

theorem describeAll_unplaced (s : Store) (message : String) (irritants : List Value) :
    s.unplaced.describeAll message irritants = s.describeAll message irritants := by
  have htexts : s.unplaced.describe = s.describe := funext fun v => describe_unplaced v
  simp only [describeAll, htexts]

end Store

theorem Failure.describe_unplaced (s : Store) (f : Failure) :
    f.describe s.unplaced = f.describe s := by
  unfold Failure.describe
  split
  case h_9 message irritants => exact s.describeAll_unplaced message irritants
  all_goals simp only [Store.describe_unplaced]

/-- The same ending in another state. -/
def inState {σ α : Type} (f : σ → σ) : EStateM.Result Stop σ α → EStateM.Result Stop σ α
  | .ok a s => .ok a (f s)
  | .error e s => .error e (f s)

def World.unplaced (w : World) : World := { w with store := w.store.unplaced }

def Machine.unplaced (m : Machine) : Machine := { m with world := m.world.unplaced }

namespace Deed

/-- A deed that does the same without locations. -/
def Blind {α : Type} (d : Deed α) : Prop := ∀ w, d w.unplaced = inState World.unplaced (d w)

variable {α β : Type}

theorem blind_pure (a : α) : (pure a : Deed α).Blind := fun _ => rfl

theorem blind_throw (e : Stop) : (throw e : Deed α).Blind := fun _ => rfl

theorem blind_fail (f : Failure) : (fail f : Deed α).Blind := fun _ => rfl

theorem blind_reads {f : Store → α} (h : ∀ s, f s.unplaced = f s) : (reads f).Blind := by
  intro w
  simp only [reads, World.unplaced, h, inState]

theorem blind_tries {f : Store → Except Stop α} (h : ∀ s, f s.unplaced = f s) :
    (tries f).Blind := by
  intro w
  simp only [tries, World.unplaced, h]
  cases f w.store <;> rfl

theorem blind_makes {f : Store → α × Store} (h : ∀ s, f s.unplaced = ((f s).1, (f s).2.unplaced)) :
    (makes f).Blind := by
  intro w
  simp only [makes, World.unplaced, h, inState]

theorem blind_changes {f : Store → Store} (h : ∀ s, f s.unplaced = (f s).unplaced) :
    (changes f).Blind := by
  intro w
  simp only [changes, World.unplaced, h, inState]

theorem blind_records (e : Effect) : (records e).Blind := fun _ => rfl

theorem Blind.bind {d : Deed α} {f : α → Deed β} (hd : d.Blind) (hf : ∀ a, (f a).Blind) :
    (d >>= f).Blind := by
  intro w
  simp only [Bind.bind, EStateM.bind, hd w]
  cases d w with
  | error e w' => rfl
  | ok a w' => exact hf a w'

theorem blind_binds (e : Nat) (pattern operands : Value) : (binds e pattern operands).Blind :=
  (blind_tries fun _ => Store.matchFormals_unplaced pattern operands).bind fun bs =>
    blind_changes fun _ => Store.defineAll_unplaced e bs

end Deed

namespace Operation

open Deed

theorem blind_checkDynamic (names : List String) (v : Value) : (checkDynamic names v).Blind := by
  rcases checkDynamic_eq names v with h | ⟨f, h⟩
  · rw [h]
    exact blind_pure ()
  · rw [h]
    exact blind_fail f

theorem blind_vau (room env : Nat) (formals dynamic : Value) (body : List Value) :
    (value room env .vau (formals :: dynamic :: body)).Blind :=
  (blind_tries fun _ => Store.formalNames_unplaced formals).bind fun names =>
    (blind_checkDynamic names dynamic).bind fun _ => blind_makes fun _ => rfl

theorem blind_wrap (room env : Nat) (v : Value) : (value room env .wrap [v]).Blind := by
  simp only [value]
  split
  · exact blind_makes fun _ => rfl
  · exact blind_fail _

theorem blind_display (room env : Nat) (vs : List Value) : (value room env .display vs).Blind := by
  have htexts : ∀ s : Store, vs.mapM (s.unplaced.format room .shown) =
      vs.mapM (s.format room .shown) := by
    intro s
    rw [funext fun v => s.format_unplaced room .shown v]
  exact (blind_tries htexts).bind fun _ => (blind_records _).bind fun _ => blind_pure _

end Operation

theorem Deed.blind_stock : Deed.Stock Deed.Blind where
  pure := blind_pure
  throw _ := blind_throw _
  bind := Blind.bind
  head r := blind_reads fun _ => Store.head_unplaced r
  tail r := blind_reads fun _ => Store.tail_unplaced r
  spine v := blind_reads fun _ => Store.spine?_unplaced v
  lookup env name := blind_reads fun _ => Store.lookup?_unplaced env name
  owner env name := blind_reads fun _ => Store.owner?_unplaced env name
  operative _ := blind_reads fun _ => rfl
  names v := blind_tries fun _ => Store.formalNames_unplaced v
  equal room vs := blind_tries fun _ => Store.allEqual_unplaced room vs
  frame _ := blind_makes fun _ => rfl
  cons x y := blind_makes fun _ => Store.cons_unplaced x y none
  list vs := blind_makes fun _ => Store.list_unplaced vs .nil
  vau := Operation.blind_vau
  wrap := Operation.blind_wrap
  setHead r v := blind_changes fun _ => Store.setHead_unplaced r v
  setTail r v := blind_changes fun _ => Store.setTail_unplaced r v
  binds := blind_binds
  define _ _ _ := blind_changes fun _ => rfl
  giveName v name := blind_changes fun _ => Store.giveName_unplaced v name

/-- An action that does the same without locations. -/
def Action.Blind {α : Type} (x : Action α) : Prop :=
  ∀ m, x m.unplaced = inState Machine.unplaced (x m)

/-- The functions of the host do not look at locations. -/
def Settings.Blind (cfg : Settings) : Prop := ∀ f ∈ cfg.functions, ∀ vs env, (f vs env).Blind

namespace Action

theorem blind_act {α : Type} {d : Deed α} (hd : d.Blind) : d.act.Blind := by
  intro m
  simp only [Deed.act, Machine.unplaced, hd m.world]
  cases d m.world <;> rfl

theorem Blind.bind {α β : Type} {x : Action α} {f : α → Action β} (hx : x.Blind)
    (hf : ∀ a, (f a).Blind) : (x >>= f).Blind := by
  intro m
  simp only [Bind.bind, EStateM.bind, hx m]
  cases x m with
  | error e m' => rfl
  | ok a m' => exact hf a m'

theorem blind_tick (limit : Option Int) : (tick limit).Blind := by
  intro m
  cases limit with
  | none => rfl
  | some l =>
    simp only [tick, Machine.unplaced, apply_ite (inState Machine.unplaced)]
    rfl

theorem pervasive_blind : Pervasive Deed.Blind fun x => Action.Blind x where
  congruent := {
    repertoire := Deed.blind_stock.repertoire_of_display Operation.blind_display
    deed := blind_act
    notes := fun logging _ _ => by cases logging <;> rfl
    bind := Blind.bind }
  tick := blind_tick
  enter _ _ _ := rfl
  leave _ _ _ := rfl
  reset _ := rfl
  sized hx m := hx m.stack.size m

end Action

end Vau
