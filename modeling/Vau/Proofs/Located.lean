import Vau.Proofs.Forms
import Vau.Proofs.Locations
import Vau.Proofs.Openings

/-! Located lists. The locations in the data that are read from a text are those of its lists that
are not empty, each once and in the order of the text; only the first pair of a list has one. -/

namespace Vau

namespace Datum

/-- The locations in the datum, that of a pair before those in its head and those before the ones
in its tail. -/
def locations : Datum → List Location
  | .pair head tail location => location.toList ++ (head.locations ++ tail.locations)
  | .group items => items.locations
  | _ => []

theorem locations_foldr (items : List Datum) (tail : Datum) :
    (items.foldr (fun d t => Datum.pair d t none) tail).locations =
      items.flatMap locations ++ tail.locations := by
  induction items with
  | nil => rfl
  | cons d ds ih => simp [locations, ih]

theorem locations_listAt (l : Option Location) {items : List Datum} (hne : items ≠ [])
    (tail : Datum) : (listAt l items tail).locations =
      l.toList ++ (items.flatMap locations ++ tail.locations) := by
  cases items with
  | nil => exact absurd rfl hne
  | cons d ds => simp [listAt, locations, locations_foldr]

end Datum

namespace Node

mutual

/-- The datum that a parse tree stands for, its lists located where they open. -/
def located (source : Option String) : Node → Datum
  | .tree .list _ o children => locatedChain source (o.location source) children
  | n => n.form

/-- The pairs of a list, the first of which has its location. -/
def locatedChain (source : Option String) (location : Option Location) : List Node → Datum
  | [] => .nil
  | [.tree .tail _ _ [n]] => n.located source
  | n :: rest => .pair (n.located source) (locatedChain source none rest) location

end

variable {source : Option String} {ns : List Node} {text : String} {o : Origin} {m : Node}

theorem located_form {tag : Tag} (h : tag ≠ .list) (children : List Node) :
    (Node.tree tag text o children).located source = (Node.tree tag text o children).form := by
  rw [located]
  rintro _ _ _ he
  exact h (Node.tree.inj he).1

theorem locatedChain_cons (h : m.isTail = false) (l : Option Location) (ns : List Node) :
    locatedChain source l (m :: ns) = .pair (m.located source) (locatedChain source none ns) l := by
  rw [locatedChain]
  rintro _ _ _ rfl
  cases h

section Chain

variable (hns : ∀ n ∈ ns, n.isTail = false)
include hns

theorem locatedChain_proper (l : Option Location) :
    locatedChain source l ns = Datum.listAt l (ns.map (located source)) .nil := by
  have hlater : ∀ {ns : List Node}, (∀ n ∈ ns, n.isTail = false) → locatedChain source none ns =
      (ns.map (located source)).foldr (fun d t => Datum.pair d t none) .nil := by
    intro ns hns
    induction ns with
    | nil => rw [locatedChain, List.map_nil, List.foldr_nil]
    | cons n ns ih =>
      obtain ⟨hn, hns⟩ := List.forall_mem_cons.mp hns
      rw [locatedChain_cons hn, ih hns, List.map_cons, List.foldr_cons]
  cases ns with
  | nil => rw [locatedChain, List.map_nil, Datum.listAt]
  | cons n ns =>
    obtain ⟨hn, hns⟩ := List.forall_mem_cons.mp hns
    rw [locatedChain_cons hn, hlater hns, List.map_cons, Datum.listAt]

theorem locatedChain_dotted (hne : ns ≠ []) (l : Option Location) :
    locatedChain source l (ns ++ [.tree .tail text o [m]]) =
      Datum.listAt l (ns.map (located source)) (m.located source) := by
  have hlater : ∀ {ns : List Node}, (∀ n ∈ ns, n.isTail = false) →
      locatedChain source none (ns ++ [.tree .tail text o [m]]) =
        (ns.map (located source)).foldr (fun d t => Datum.pair d t none) (m.located source) := by
    intro ns hns
    induction ns with
    | nil => rw [List.nil_append, locatedChain, List.map_nil, List.foldr_nil]
    | cons n ns ih =>
      obtain ⟨hn, hns⟩ := List.forall_mem_cons.mp hns
      rw [List.cons_append, locatedChain_cons hn, ih hns, List.map_cons, List.foldr_cons]
  cases ns with
  | nil => exact absurd rfl hne
  | cons n ns =>
    obtain ⟨hn, hns⟩ := List.forall_mem_cons.mp hns
    rw [List.cons_append, locatedChain_cons hn, hlater hns, List.map_cons, Datum.listAt]

end Chain

theorem readDecimal?_eq {x : List Char} {n : Int} (h : readDecimal? x = some n) :
    n = numeralValue x := by
  have hdigits : ∀ ds : List Char, readDigits? ds = none ∨ readDigits? ds = digitsValue ds := by
    intro ds
    unfold readDigits?
    split
    · exact .inr rfl
    · exact .inl rfl
  unfold readDecimal? at h
  split at h
  case h_1 ds =>
    rcases hdigits ds with hds | hds <;> rw [hds] at h <;> cases h
    rfl
  case h_2 ds =>
    rcases hdigits ds with hds | hds <;> rw [hds] at h <;> cases h
    rfl
  case h_3 hminus hplus =>
    rw [numeralValue.eq_3 x hminus hplus]
    rcases hdigits x with hds | hds <;> rw [hds] at h <;> cases h
    rfl

/-- An atom is converted to what it stands for, which has no location. -/
theorem located_atom {tag : Tag} (hlist : tag ≠ .list) (hprogram : tag ≠ .program) {d : Datum}
    (h : toDatum source (.tree tag text o []) = .ok d) :
    d = (Node.tree tag text o []).located source ∧ d.locations = [] := by
  rw [located_form hlist]
  cases tag with
  | list => exact absurd rfl hlist
  | program => exact absurd rfl hprogram
  | tail | other name => cases h
  | integer =>
    rw [toDatum, integer] at h
    split at h
    case h_2 => cases h
    case h_1 n hn =>
    cases h
    exact ⟨by rw [form, readDecimal?_eq hn], rfl⟩
  | string =>
    rw [toDatum, string] at h
    split at h
    case h_2 => cases h
    case h_1 content hcontent =>
    cases h
    exact ⟨by rw [form, hcontent], rfl⟩
  | boolean =>
    rw [toDatum] at h
    cases h
    exact ⟨by rw [form, Bool.decide_or]; rfl, rfl⟩
  | constant =>
    rw [toDatum] at h
    cases h
    rw [form]
    exact ⟨rfl, by split <;> rfl⟩
  | nil | symbol =>
    rw [toDatum] at h
    cases h
    exact ⟨by rw [form], rfl⟩

/-- The nodes are converted to what they stand for, with the locations of their lists. -/
def LocatedAll (source : Option String) (ms : List Node) : Prop :=
  ∀ ⦃ds⦄, toItems source ms = .ok ds → ds = ms.map (located source) ∧
    ds.flatMap Datum.locations = (openingsAll ms).filterMap (Origin.location · source)

theorem locatedAll_cons {ms : List Node} (hm : ∀ d, toDatum source m = .ok d →
      d = m.located source ∧ d.locations = m.openings.filterMap (Origin.location · source))
    (hms : LocatedAll source ms) : LocatedAll source (m :: ms) := by
  intro ds h
  rw [toItems] at h
  obtain ⟨d, hd, h⟩ := Except.bind_eq_ok h
  obtain ⟨ds', hds', h⟩ := Except.bind_eq_ok h
  cases h
  obtain ⟨rfl, hd⟩ := hm d hd
  obtain ⟨rfl, hds'⟩ := hms hds'
  rw [List.flatMap_cons, hd, hds', openingsAll, List.filterMap_append]
  exact ⟨rfl, rfl⟩

theorem locatedAll_nil : LocatedAll source [] := by
  intro ds h
  cases h
  exact ⟨rfl, rfl⟩

section Lists

variable {ms : List Node} (hms : ∀ n ∈ ms, n.isTail = false) (hall : LocatedAll source ms)
include hms hall

theorem located_list {d : Datum} (h : toDatum source (.tree .list text o ms) = .ok d) :
    d = (Node.tree .list text o ms).located source ∧
      d.locations = (Node.tree .list text o ms).openings.filterMap (Origin.location · source) := by
  rw [toDatum, checkTail_proper hms, toEnding_proper hms, toElements_proper hms] at h
  obtain ⟨_, -, h⟩ := Except.bind_eq_ok h
  obtain ⟨tail, htail, h⟩ := Except.bind_eq_ok h
  obtain ⟨ds, hds, h⟩ := Except.bind_eq_ok h
  cases htail
  cases h
  obtain ⟨rfl, hlocations⟩ := hall hds
  refine ⟨by rw [located, locatedChain_proper hms], ?_⟩
  by_cases hempty : ms = []
  · subst hempty
    rfl
  · rw [Datum.locations_listAt _ (by simpa using hempty), hlocations, openings,
      if_neg (by simpa using hempty), List.filterMap_cons]
    cases o.location source <;> simp [Datum.locations]

theorem located_dotted {t : String} {p : Origin} (hlast : LocatedAll source [m]) {d : Datum}
    (h : toDatum source (.tree .list text o (ms ++ [.tree .tail t p [m]])) = .ok d) :
    d = (Node.tree .list text o (ms ++ [.tree .tail t p [m]])).located source ∧
      d.locations = (Node.tree .list text o (ms ++ [.tree .tail t p [m]])).openings.filterMap
        (Origin.location · source) := by
  by_cases hempty : ms = []
  · subst hempty
    rw [toDatum] at h
    cases h
  rw [toDatum, checkTail_dotted hempty, toEnding_dotted hms, toElements_dotted hms] at h
  obtain ⟨_, -, h⟩ := Except.bind_eq_ok h
  obtain ⟨tail, htail, h⟩ := Except.bind_eq_ok h
  obtain ⟨ds, hds, h⟩ := Except.bind_eq_ok h
  cases h
  obtain ⟨rfl, hlocations⟩ := hall hds
  have hone : toItems source [m] = .ok [tail] := by
    rw [toItems, toItems, htail]
    rfl
  obtain ⟨htail, hending⟩ := hlast hone
  rw [List.flatMap_singleton] at hending
  obtain rfl := List.singleton_inj.mp htail
  refine ⟨by rw [located, locatedChain_dotted hms hempty], ?_⟩
  have hopenings : openingsAll (ms ++ [.tree .tail t p [m]]) = openingsAll ms ++ openingsAll [m] := by
    rw [openingsAll_append]
    simp only [openingsAll, openings, List.append_nil]
  rw [Datum.locations_listAt _ (by simpa using hempty), hlocations, hending, openings,
    if_neg (by simp), List.filterMap_cons, hopenings, List.filterMap_append]
  cases o.location source <;> simp

end Lists

end Node

open Node Grammar

/-- The parse trees of derived data are converted to data located at their lists. -/
theorem Grammar.located_of_derives {source : Option String} {ls : List Lexeme} {ns ms : List Node}
    (h : Derives ls ns) (hvalid : ∀ l ∈ ls, l.Valid) (hms : unplacedAll ms = ns) :
    LocatedAll source ms := by
  induction h generalizing ms with
  | done =>
    obtain rfl : ms = [] := by rwa [unplacedAll_eq_map, List.map_eq_nil_iff] at hms
    exact locatedAll_nil
  | atom tag text _ ih =>
    obtain ⟨hatom, hvalid⟩ := List.forall_mem_cons.mp hvalid
    obtain ⟨m, ms, rfl, hm, hrest⟩ := of_unplacedAll_cons hms
    obtain ⟨o, cs, rfl, hcs⟩ := of_unplaced_tree hm
    obtain rfl : cs = [] := by rwa [unplacedAll_eq_map, List.map_eq_nil_iff] at hcs
    refine locatedAll_cons (fun d hd => ?_) (ih hvalid hrest)
    have hmem := hatom.tag_mem
    have hlist : tag ≠ .list := by
      rintro rfl
      exact absurd hmem (by decide)
    have hprogram : tag ≠ .program := by
      rintro rfl
      exact absurd hmem (by decide)
    rw [openings_leaf]
    exact located_atom hlist hprogram hd
  | @list inner rest ns _ hinner _ ihinner ihrest =>
    obtain ⟨m, ms, rfl, hm, hrest⟩ := of_unplacedAll_cons hms
    obtain ⟨o, cs, rfl, hcs⟩ := of_unplaced_tree hm
    obtain ⟨hvalid, hothers⟩ := Lexeme.forall_valid_list.mp hvalid
    have htails := isTail_of_unplacedAll hcs (hinner.isTail hvalid)
    exact locatedAll_cons (fun d hd => located_list htails (ihinner hvalid hcs) hd)
      (ihrest hothers hrest)
  | @dotted inner last rest ns _ n hinner _ _ ihinner ihlast ihrest =>
    obtain ⟨m, ms, rfl, hm, hrest⟩ := of_unplacedAll_cons hms
    obtain ⟨o, p, cs, m', rfl, hcs, hm'⟩ := of_unplaced_dotted hm
    obtain ⟨hvalid, hvalid', hothers⟩ := Lexeme.forall_valid_dotted.mp hvalid
    have htails := isTail_of_unplacedAll hcs (hinner.isTail hvalid)
    have hone : unplacedAll [m'] = [n] := by rw [unplacedAll_eq_map, List.map_singleton, hm']
    exact locatedAll_cons
      (fun d hd => located_dotted htails (ihinner hvalid hcs) (ihlast hvalid' hone) hd)
      (ihrest hothers hrest)

/-- The locations in what is read are the places where the lists of the text open that are not
empty, from left to right. What is read are the data that the text derives, and only the first
pair of a written list has its location. -/
theorem read_openings {source text : String} {data : List Datum}
    (h : read source text = .ok data) :
    data.flatMap Datum.locations =
      (openings text.toList).map (fun p => ⟨p.line, p.column, some source⟩) ∧
    (openings text.toList).Pairwise Position.Before ∧
    (∀ p, p ∈ openings text.toList ↔
      ∃ before after, text.toList = before ++ '(' :: after ∧ Position.start.advance before = p ∧
        (Token.Mode.after .between before).Opens '(' after) ∧
    ∃ nodes, Derivation text.toList (Node.unplacedAll nodes) ∧
      (∀ n ∈ nodes, n.Placed text.toList) ∧ data = nodes.map (Node.located (some source)) := by
  rw [read, readText] at h
  cases hparse : parse nestingLimit text.toList with
  | error e =>
    rw [hparse] at h
    cases h
  | ok nodes =>
    rw [hparse] at h
    obtain ⟨hderivation, -⟩ := derivation_of_parse hparse
    obtain ⟨ls, hlexes, hderives⟩ := hderivation
    obtain ⟨hdata, hlocations⟩ := located_of_derives hderives (lexes_iff.mp hlexes).2 rfl h
    refine ⟨?_, pairwise_openingsFrom _ _ _, fun p => mem_openingsFrom,
      nodes, ⟨ls, hlexes, hderives⟩, parse_placed hparse, hdata⟩
    rw [hlocations, openings_of_parse hparse, List.filterMap_map]
    exact congrFun List.filterMap_eq_map' _

/-- One list after the dot of another, an empty one, and parentheses that are no tokens. -/
def spreadText : String := "(a . (\"(\" ())) ; (b)\n ((c) . ())"

def spreadData : List Datum :=
  [.pair (.sym "a") (.pair (.str "(") (.pair .nil .nil none) (some ⟨1, 6, some "script"⟩))
      (some ⟨1, 1, some "script"⟩),
    .pair (.pair (.sym "c") .nil (some ⟨2, 3, some "script"⟩)) .nil (some ⟨2, 2, some "script"⟩)]

theorem read_openings_spread :
    read "script" spreadText = .ok spreadData ∧
    openings spreadText.toList = [⟨1, 1⟩, ⟨1, 6⟩, ⟨2, 2⟩, ⟨2, 3⟩] ∧
    spreadData.flatMap Datum.locations =
      (openings spreadText.toList).map (fun p => ⟨p.line, p.column, some "script"⟩) := by
  have hread : read "script" spreadText = .ok spreadData := by
    have hsome : (read "script" spreadText).toOption = some spreadData := by decide +kernel
    exact Except.ok_of_toOption hsome
  exact ⟨hread, by decide +kernel, (read_openings hread).1⟩

end Vau
