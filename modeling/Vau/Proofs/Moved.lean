import Vau.Proofs.Children

/-! Parse trees at other places. When every origin in a tree is moved, what the tree is converted
to has its locations moved likewise and is the same otherwise. -/

namespace Vau

theorem Except.toOption_map {ε α β : Type} (f : α → β) (r : Except ε α) :
    (r.map f).toOption = r.toOption.map f := by
  cases r <;> rfl

theorem Except.toOption_bind {ε α β : Type} (r : Except ε α) (f : α → Except ε β) :
    (r >>= f).toOption = r.toOption.bind fun a => (f a).toOption := by
  cases r <;> rfl

theorem Except.ok_of_toOption {ε α : Type} {r : Except ε α} {a : α} (h : r.toOption = some a) :
    r = .ok a := by
  cases r with
  | error e => cases h
  | ok a' => exact congrArg _ (Option.some.inj h)

namespace Datum

variable (g : Option Location → Option Location)

def moved : Datum → Datum
  | .pair head tail location => .pair head.moved tail.moved (g location)
  | .group items => .group items.moved
  | d => d

variable {g}

theorem moved_of_isAtom {d : Datum} (h : d.isAtom = true) : d.moved g = d := by
  cases d with
  | pair | group => cases h
  | _ => rfl

variable (hnone : g none = none)
include hnone

theorem foldr_moved (ds : List Datum) (tail : Datum) :
    (ds.foldr (fun d t => Datum.pair d t none) tail).moved g =
      (ds.map (moved g)).foldr (fun d t => Datum.pair d t none) (tail.moved g) := by
  induction ds with
  | nil => rfl
  | cons d ds ih => simp only [List.foldr_cons, List.map_cons, moved, ih, hnone]

theorem listAt_moved (l : Option Location) (ds : List Datum) (tail : Datum) :
    (listAt l ds tail).moved g = listAt (g l) (ds.map (moved g)) (tail.moved g) := by
  cases ds with
  | nil => rfl
  | cons d ds => simp only [listAt, List.map_cons, moved, foldr_moved hnone]

theorem ofItems_moved (ds : List Datum) : (ofItems ds).moved g = ofItems (ds.map (moved g)) := by
  simp only [ofItems, moved, foldr_moved hnone]

end Datum

namespace Node

section Moved

variable (f : Origin → Origin) (g : Option Location → Option Location)

mutual

def moved : Node → Node
  | .datum d => .datum (d.moved g)
  | .sequence items => .sequence (movedAll items)
  | .tree tag text o children => .tree tag text (f o) (movedAll children)

def movedAll : List Node → List Node
  | [] => []
  | n :: ns => n.moved :: movedAll ns

end

end Moved

variable {source : Option String} {f : Origin → Origin} {g : Option Location → Option Location}

theorem movedAll_eq_map (ns : List Node) : movedAll f g ns = ns.map (moved f g) := by
  induction ns with
  | nil => rfl
  | cons n ns ih => rw [movedAll, ih, List.map_cons]

theorem isTail_moved (n : Node) : (n.moved f g).isTail = n.isTail := by
  cases n with
  | tree tag text o children => cases tag <;> rfl
  | _ => rfl

theorem isEmpty_movedAll (ns : List Node) : (movedAll f g ns).isEmpty = ns.isEmpty := by
  cases ns <;> rfl

theorem checkTail_moved (o o' : Origin) (ns : List Node) :
    (checkTail o' (movedAll f g ns)).toOption = (checkTail o ns).toOption := by
  unfold checkTail
  rw [movedAll_eq_map, List.getLast?_map, List.length_map]
  cases ns.getLast? with
  | none => rfl
  | some last =>
    cases last with
    | tree tag text origin dotted =>
      cases tag with
      | tail =>
        simp only [Option.map_some, moved, movedAll_eq_map, List.length_map]
        split
        · rfl
        · split <;> rfl
      | _ => rfl
    | _ => rfl

/-- A node and those after it are converted one by one. -/
theorem conversion_cons (n : Node) {m : Node} {r r' : Except Refusal (List Datum)}
    (hn : (toDatum source m).toOption = (toDatum source n).toOption.map (Datum.moved g))
    (hr : r'.toOption = r.toOption.map (List.map (Datum.moved g))) :
    (do let d ← toDatum source m; let ds ← r'; return d :: ds : Except Refusal _).toOption =
      (do let d ← toDatum source n; let ds ← r; return d :: ds : Except Refusal _).toOption.map
        (List.map (Datum.moved g)) := by
  simp only [Except.toOption_bind, hn, hr]
  cases (toDatum source n).toOption with
  | none => rfl
  | some d => cases r.toOption <;> rfl

/-- The places of a dotted tail do not make it another node. -/
theorem tail_of_moved {n : Node} {ns : List Node}
    (h : ∀ text o m ms, n = .tree .tail text o (m :: ms) → ns ≠ []) :
    ∀ text o m ms, n.moved f g = .tree .tail text o (m :: ms) → movedAll f g ns ≠ [] := by
  intro text o m ms hn hempty
  cases ns with
  | cons _ _ => cases hempty
  | nil =>
    cases n with
    | tree tag text' o' children =>
      cases children with
      | nil => cases hn
      | cons m' more' =>
        obtain rfl : tag = .tail := (Node.tree.inj hn).1
        exact h text' o' m' more' rfl rfl
    | _ => cases hn

/-- What a node is converted to elsewhere is what it is converted to, with moved locations. -/
theorem conversion_moved (hnone : g none = none)
    (hlocation : ∀ o, (f o).location source = g (o.location source)) :
    (∀ n, (toDatum source (n.moved f g)).toOption =
      (toDatum source n).toOption.map (Datum.moved g)) ∧
    (∀ ns, (toElements source (movedAll f g ns)).toOption =
      (toElements source ns).toOption.map (List.map (Datum.moved g))) ∧
    (∀ ns, (toEnding source (movedAll f g ns)).toOption =
      (toEnding source ns).toOption.map (Datum.moved g)) ∧
    (∀ ns, (toItems source (movedAll f g ns)).toOption =
      (toItems source ns).toOption.map (List.map (Datum.moved g))) := by
  have hsequence : ∀ {items : List Node}, (toItems source (movedAll f g items)).toOption =
      (toItems source items).toOption.map (List.map (Datum.moved g)) →
      ((toItems source (movedAll f g items)).map Datum.ofItems).toOption =
        ((toItems source items).map Datum.ofItems).toOption.map (Datum.moved g) := by
    intro items h
    rw [Except.toOption_map, Except.toOption_map, h]
    cases (toItems source items).toOption with
    | none => rfl
    | some ds => exact congrArg some (Datum.ofItems_moved hnone ds).symm
  apply conversion_induction
  case made => exact fun _ => rfl
  case sequence => exact fun items h => hsequence h
  case program => exact fun _ _ children h => hsequence h
  case list =>
    intro text o children helements hending
    simp only [moved, toDatum, Except.toOption_bind, checkTail_moved o (f o) children, hending,
      helements]
    cases (checkTail o children).toOption with
    | none => rfl
    | some _ =>
      cases (toEnding source children).toOption with
      | none => rfl
      | some tail =>
        cases (toElements source children).toOption with
        | none => rfl
        | some ds =>
          have hlist := Datum.listAt_moved hnone (o.location source) ds tail
          rw [← hlocation] at hlist
          exact congrArg some hlist.symm
  case atom =>
    intro tag text o children hprogram hlist
    rw [moved]
    rcases atom_cases tag text hprogram hlist with ⟨d, hatom, hd⟩ | ⟨-, -, hd⟩ | he
    · rw [hd, hd]
      exact congrArg some (Datum.moved_of_isAtom hatom).symm
    · rw [hd, hd]
      rfl
    · obtain ⟨e, he'⟩ := he source (f o) (movedAll f g children)
      obtain ⟨e', he⟩ := he source o children
      rw [he, he']
      rfl
  case elements_nil | ending_nil | items_nil => rfl
  case elements_tail =>
    intro n rest h
    have h' : ((n.moved f g).isTail && (movedAll f g rest).isEmpty) = true := by
      rwa [isTail_moved, isEmpty_movedAll]
    rw [movedAll, toElements, toElements, if_pos h, if_pos h']
    rfl
  case elements_cons =>
    intro n rest h hn hrest
    have h' : ¬ ((n.moved f g).isTail && (movedAll f g rest).isEmpty) = true := by
      rwa [isTail_moved, isEmpty_movedAll]
    rw [movedAll, toElements_cons h, toElements_cons h']
    exact conversion_cons n hn hrest
  case ending_tail => exact fun _ _ _ _ hn => hn
  case ending_cons =>
    intro n rest hother hrest
    rw [movedAll, toEnding_cons hother, toEnding_cons (tail_of_moved hother), hrest]
  case items_cons =>
    intro n rest hn hrest
    rw [movedAll, toItems, toItems]
    exact conversion_cons n hn hrest

end Node

end Vau
