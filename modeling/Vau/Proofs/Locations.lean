import Vau.Proofs.Extent
import Vau.Proofs.Placed

/-! The locations that reading gives. In the data made of a text the first pair of a list has the
place of the parenthesis that opens the list, and the name of the text; no other pair has one. -/

namespace Vau

/-- The datum has a list with the location. -/
def Datum.Locates (l : Location) : Datum → Prop
  | .pair head tail location => location = some l ∨ head.Locates l ∨ tail.Locates l
  | .group items => items.Locates l
  | _ => False

theorem Datum.locates_foldr {l : Location} {items : List Datum} {tail : Datum}
    (h : (items.foldr (fun d t => Datum.pair d t none) tail).Locates l) :
    (∃ d ∈ items, d.Locates l) ∨ tail.Locates l := by
  induction items with
  | nil => exact .inr h
  | cons d ds ih =>
    rcases h with h | h | h
    · cases h
    · exact .inl ⟨d, List.mem_cons_self, h⟩
    · rcases ih h with ⟨e, he, h⟩ | h
      · exact .inl ⟨e, List.mem_cons_of_mem _ he, h⟩
      · exact .inr h

theorem Datum.locates_listAt {l : Location} {location : Option Location} {items : List Datum}
    {tail : Datum} (h : (Datum.listAt location items tail).Locates l) :
    location = some l ∨ (∃ d ∈ items, d.Locates l) ∨ tail.Locates l := by
  cases items with
  | nil => exact h.elim
  | cons d ds =>
    rcases h with h | h | h
    · exact .inl h
    · exact .inr (.inl ⟨d, List.mem_cons_self, h⟩)
    · rcases Datum.locates_foldr h with ⟨e, he, h⟩ | h
      · exact .inr (.inl ⟨e, List.mem_cons_of_mem _ he, h⟩)
      · exact .inr (.inr h)

theorem Datum.not_locates_of_isAtom {d : Datum} (h : d.isAtom = true) (l : Location) :
    ¬ d.Locates l := by
  cases d with
  | pair | group => cases h
  | _ => exact id

def Location.position (l : Location) : Position := ⟨l.line, l.column⟩

namespace Node

variable {text : List Char} {source : Option String}

/-- The locations in the datum are those of lists in the nodes, in the source of that name. -/
def Account (source : Option String) (ns : List Node) (d : Datum) : Prop :=
  ∀ l, d.Locates l → l.source = source ∧ ∃ n ∈ ns, n.HasList l.position

theorem Account.mono {ns ms : List Node} {d : Datum} (h : Account source ns d)
    (hsub : ∀ n ∈ ns, n ∈ ms) : Account source ms d := by
  intro l hl
  obtain ⟨hs, n, hn, hlist⟩ := h l hl
  exact ⟨hs, n, hsub n hn, hlist⟩

theorem Account.inside {children : List Node} {d : Datum} (h : Account source children d)
    (tag : Tag) (written : String) (o : Origin) :
    Account source [.tree tag written o children] d := by
  intro l hl
  obtain ⟨hs, n, hn, hlist⟩ := h l hl
  exact ⟨hs, _, List.mem_singleton_self _, .inside hn hlist⟩

theorem account_atom {ns : List Node} {d : Datum} (h : ∀ l, ¬ d.Locates l) : Account source ns d :=
  fun l hl => absurd hl (h l)

/-- What is made of a node and of those after it. -/
theorem account_cons {n : Node} {rest : List Node} {r : Except Refusal (List Datum)}
    {ds : List Datum} (hn : ∀ d, toDatum source n = .ok d → Account source [n] d)
    (hrest : ∀ ds, r = .ok ds → ∀ d ∈ ds, Account source rest d)
    (h : (do let d ← toDatum source n; let ds ← r; return d :: ds) = .ok ds) :
    ∀ d ∈ ds, Account source (n :: rest) d := by
  obtain ⟨d, hd, h⟩ := Except.bind_eq_ok h
  obtain ⟨ds', hds', h⟩ := Except.bind_eq_ok h
  cases h
  refine List.forall_mem_cons.mpr ⟨(hn d hd).mono fun m hm => ?_, fun e he => ?_⟩
  · exact List.mem_singleton.mp hm ▸ List.mem_cons_self
  · exact (hrest ds' hds' e he).mono fun m hm => List.mem_cons_of_mem n hm

theorem eq_ofPosition {o : Origin} {l : Location} (h : o.location source = some l) :
    o = .ofPosition l.position ∧ l.source = source := by
  obtain ⟨line, column⟩ := o
  cases line <;> cases column <;> cases h
  exact ⟨rfl, rfl⟩

theorem account_list {written : String} {o : Origin} {children : List Node} {items : List Datum}
    {tail : Datum} (hitems : ∀ d ∈ items, Account source children d)
    (htail : Account source children tail) :
    Account source [.tree .list written o children]
      (Datum.listAt (o.location source) items tail) := by
  intro l hl
  rcases Datum.locates_listAt hl with hl | ⟨d, hd, hl⟩ | hl
  · obtain ⟨rfl, hs⟩ := eq_ofPosition hl
    exact ⟨hs, _, List.mem_singleton_self _, .here⟩
  · exact (hitems d hd).inside .list written o l hl
  · exact htail.inside .list written o l hl

/-- What is made of the nodes of a text has the locations of their lists. -/
theorem conversion_account :
    (∀ n : Node, n.Placed text → ∀ d, toDatum source n = .ok d → Account source [n] d) ∧
    (∀ ns : List Node, (∀ n ∈ ns, n.Placed text) → ∀ ds, toElements source ns = .ok ds →
      ∀ d ∈ ds, Account source ns d) ∧
    (∀ ns : List Node, (∀ n ∈ ns, n.Placed text) → ∀ e, toEnding source ns = .ok e →
      Account source ns e) ∧
    (∀ ns : List Node, (∀ n ∈ ns, n.Placed text) → ∀ ds, toItems source ns = .ok ds →
      ∀ d ∈ ds, Account source ns d) := by
  apply conversion_induction
  case made => exact fun d hn => nomatch hn
  case sequence => exact fun items ih hn => nomatch hn
  case program =>
    intro written o children ih hn d hd
    obtain ⟨-, -, hchildren⟩ := hn
    cases hitems : toItems source children with
    | error e =>
      simp only [toDatum, hitems] at hd
      cases hd
    | ok ds =>
      simp only [toDatum, hitems] at hd
      cases hd
      intro l hl
      rcases Datum.locates_foldr hl with ⟨e, he, hl⟩ | hl
      · exact (ih hchildren ds hitems e he).inside .program written o l hl
      · exact hl.elim
  case list =>
    intro written o children helements hending hn d hd
    obtain ⟨-, -, hchildren⟩ := hn
    rw [toDatum] at hd
    obtain ⟨_, -, hd⟩ := Except.bind_eq_ok hd
    obtain ⟨tail, htail, hd⟩ := Except.bind_eq_ok hd
    obtain ⟨items, hitems, hd⟩ := Except.bind_eq_ok hd
    cases hd
    exact account_list (helements hchildren items hitems) (hending hchildren tail htail)
  case atom =>
    intro tag written o children hprogram hlist _ d hd
    rcases atom_cases tag written hprogram hlist with ⟨d', hatom, hd'⟩ | ⟨-, -, hd'⟩ | hd'
    · cases (hd' source o children).symm.trans hd
      exact account_atom (Datum.not_locates_of_isAtom hatom)
    · cases (hd' source o children).symm.trans hd
    · obtain ⟨e, he⟩ := hd' source o children
      cases he.symm.trans hd
  case elements_nil | items_nil =>
    intro _ ds hds
    cases hds
    exact fun d hd => absurd hd List.not_mem_nil
  case elements_tail =>
    intro n rest hlast _ ds hds
    rw [toElements, if_pos hlast] at hds
    cases hds
    exact fun d hd => absurd hd List.not_mem_nil
  case elements_cons =>
    intro n rest hnot hn hrest hall ds hds
    obtain ⟨hplaced, hothers⟩ := List.forall_mem_cons.mp hall
    rw [toElements_cons hnot] at hds
    exact account_cons (hn hplaced) (hrest hothers) hds
  case ending_nil =>
    intro _ e he
    cases he
    exact account_atom fun _ => id
  case ending_tail =>
    intro written o n more hn hall e he
    obtain ⟨-, -, hchildren⟩ := hall _ (List.mem_singleton_self _)
    have hfirst : Account source (n :: more) e := by
      refine (hn (hchildren n List.mem_cons_self) e he).mono fun m hm => ?_
      exact List.mem_singleton.mp hm ▸ List.mem_cons_self
    exact hfirst.inside .tail written o
  case ending_cons =>
    intro n rest hother hrest hall e he
    rw [toEnding_cons hother] at he
    exact (hrest (fun m hm => hall m (List.mem_cons_of_mem n hm)) e he).mono
      fun m hm => List.mem_cons_of_mem n hm
  case items_cons =>
    intro n rest hn hrest hall ds hds
    obtain ⟨hplaced, hothers⟩ := List.forall_mem_cons.mp hall
    rw [toItems] at hds
    exact account_cons (hn hplaced) (hrest hothers) hds

end Node

/-- A list of the text begins at the position, with a parenthesis that is there. -/
def ListAt (text : String) (p : Position) : Prop :=
  (∃ ns, parse nestingLimit text.toList = .ok ns ∧ ∃ n ∈ ns, n.HasList p) ∧
    ∃ before after, text.toList = before ++ '(' :: after ∧ Position.start.advance before = p

/-- The data that are read have the locations of the lists in the text, and its name. -/
theorem read_locates {source text : String} {data : List Datum}
    (h : read source text = .ok data) {d : Datum} (hd : d ∈ data) {l : Location}
    (hl : d.Locates l) : l.source = some source ∧ ListAt text l.position := by
  rw [read, readText] at h
  cases hparse : parse nestingLimit text.toList with
  | error e =>
    rw [hparse] at h
    cases h
  | ok ns =>
    rw [hparse] at h
    have hplaced := Grammar.parse_placed hparse
    obtain ⟨-, -, -, hitems⟩ := @Node.conversion_account text.toList (some source)
    obtain ⟨hsource, n, hn, hlist⟩ := hitems ns hplaced data h d hd l hl
    exact ⟨hsource, ⟨ns, hparse, n, hn, hlist⟩, hlist.opens (hplaced n hn)⟩

end Vau
