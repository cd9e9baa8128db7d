import Vau.Proofs.Layout
import Vau.Proofs.Lexemes

/-! Derivations. Up to the limit on nesting, the texts that are parsed are those whose lexemes are
derived by the rules `program := datum*` and `datum := atom | '(' datum* ['.' datum] ')'`. What is
found is the derivation, of which a text has at most one. -/

namespace Vau

namespace Node

mutual

/-- How deep data nest in the node: an atom is one deep, a list one deeper than its elements. -/
def nesting : Node → Nat
  | .tree .tail _ _ children => nestingAll children
  | .tree _ _ _ children => nestingAll children + 1
  | _ => 0

def nestingAll : List Node → Nat
  | [] => 0
  | n :: ns => max n.nesting (nestingAll ns)

end

theorem nestingAll_append (ns ms : List Node) :
    nestingAll (ns ++ ms) = max (nestingAll ns) (nestingAll ms) := by
  induction ns with
  | nil => simp [nestingAll]
  | cons n ns ih => simp only [List.cons_append, nestingAll, ih, Nat.max_assoc]

theorem nesting_atom {tag : Tag}
    (h : tag ∈ [Tag.integer, .string, .boolean, .constant, .nil, .symbol]) (text : String)
    (o : Origin) : (Node.tree tag text o []).nesting = 1 := by
  rw [nesting, nestingAll]
  rintro rfl
  exact absurd h (by decide)

theorem nesting_list (text : String) (o : Origin) (children : List Node) :
    (Node.tree .list text o children).nesting = nestingAll children + 1 := by
  rw [nesting]
  exact Tag.noConfusion

theorem nestingAll_tail (text : String) (o : Origin) (n : Node) :
    nestingAll [.tree .tail text o [n]] = n.nesting := by
  simp only [nestingAll, nesting, Nat.max_zero]

end Node

namespace Grammar

/-- The lexemes are those of data with these parse trees: each is an atom, or data in parentheses,
with or without a dot and one datum after them. -/
inductive Derives : List Lexeme → List Node → Prop
  | done : Derives [] []
  | atom {rest : List Lexeme} {ns : List Node} (tag : Tag) (text : List Char)
    (hrest : Derives rest ns) :
    Derives (.atom tag text :: rest) (.tree tag (String.ofList text) {} [] :: ns)
  | list {inner rest : List Lexeme} {ms ns : List Node} (hinner : Derives inner ms)
    (hrest : Derives rest ns) :
    Derives (.opening :: (inner ++ .closing :: rest)) (.tree .list "" {} ms :: ns)
  | dotted {inner last rest : List Lexeme} {ms ns : List Node} {n : Node}
    (hinner : Derives inner ms) (hlast : Derives last [n]) (hrest : Derives rest ns) :
    Derives (.opening :: (inner ++ .dot :: (last ++ .closing :: rest)))
      (.tree .list "" {} (ms ++ [.tree .tail "" {} [n]]) :: ns)

theorem Derives.append {ls ls' : List Lexeme} {ns ns' : List Node} (h : Derives ls ns)
    (h' : Derives ls' ns') : Derives (ls ++ ls') (ns ++ ns') := by
  induction h with
  | done => exact h'
  | atom tag text _ ih => exact .atom tag text ih
  | list hinner _ _ ih =>
    rw [List.cons_append, List.append_assoc]
    exact .list hinner ih
  | dotted hinner hlast _ _ _ ih =>
    rw [List.cons_append, List.append_assoc, List.cons_append, List.append_assoc]
    exact .dotted hinner hlast ih

/-- The parse trees of the data that the text consists of. -/
def Derivation (text : List Char) (ns : List Node) : Prop := ∃ ls, Lexes text ls ∧ Derives ls ns

/-- Lexemes of tokens that a text begins with are found to be one datum. -/
def Takes (room : Nat) (ls : List Lexeme) (n : Node) : Prop :=
  ∀ ⦃c us⦄, Faces c.rest (ls.map Lexeme.token ++ us) →
    ∃ m next, datum room c = .found m next ∧ m.unplaced = n ∧ tokens next.rest = us

/-- Lexemes of tokens that a text begins with, up to where no datum begins, are found to be data. -/
def Gathers (room : Nat) (ls : List Lexeme) (ns : List Node) : Prop :=
  ∀ ⦃c us fuel⦄, Faces c.rest (ls.map Lexeme.token ++ us) → Stops us → ls.length ≤ fuel →
    ∃ ms last, many (datum room) fuel c = .found ms last ∧ Node.unplacedAll ms = ns ∧
      Faces last.rest us

section Complete

variable {room : Nat} {inner last : List Lexeme} {ms : List Node} {n : Node}

theorem takes_atom {tag : Tag} {text : List Char} (h : (Lexeme.atom tag text).Valid) :
    Takes (room + 1) [.atom tag text] (.tree tag (String.ofList text) {} []) := by
  intro c us hc
  refine datum_first hc ?_ room c.position
  rcases h.kind with rfl | hkind
  · rfl
  · rw [List.map_singleton, Lexeme.token_atom (ne_string_of_kind? hkind), List.singleton_append,
      firstAtom?, hkind]
    rfl

/-- The data after an opening parenthesis. -/
theorem gathers_inner (h : Gathers room inner ms) {c : Cursor} {rest : List Char} {us : List Token}
    (hrest : tokens rest = inner.map Lexeme.token ++ us) (hus : Stops us) :
    ∃ items next, manyFrom (datum room) (gap (c.after ['('] rest)) = .found items next ∧
      Node.unplacedAll items = ms ∧ Faces next.rest us := by
  have hfaces := faces_gap (c.after ['('] rest)
  rw [show (c.after ['('] rest).rest = rest from rfl, hrest] at hfaces
  refine h hfaces hus (Nat.le_trans ?_ hfaces.length_le)
  simp only [List.length_append, List.length_map]
  omega

theorem takes_list (h : Gathers room inner ms) :
    Takes (room + 1) (.opening :: (inner ++ [.closing])) (.tree .list "" {} ms) := by
  intro c us hc
  have htokens : (Lexeme.opening :: (inner ++ [.closing])).map Lexeme.token ++ us =
      .opening :: (inner.map Lexeme.token ++ .closing :: us) := by simp [Lexeme.token]
  rw [htokens] at hc
  obtain ⟨rest, hopen, hrest⟩ := hc.eq_opening
  obtain ⟨items, next, hitems, hms, hnext⟩ :=
    gathers_inner h (c := c) hrest.symm (stops_closing us)
  obtain ⟨rest', hclose, hus⟩ := hnext.eq_closing
  have hdotted : dotted (datum room) next = .absent := by
    obtain ⟨p, cs⟩ := next
    cases hclose
    exact dotted_close (datum room) p rest'
  refine ⟨.tree .list "" (.ofPosition c.position) items, next.after [')'] rest', datum_list ?_, ?_,
    hus.symm⟩
  · simp only [list, hopen, hitems, hdotted, close, hclose]
  · rw [Node.unplaced, hms]

theorem datum_of_many {d : Cursor → Match Node} {fuel : Nat} {c last : Cursor} {m : Node}
    (h : many d fuel c = .found [m] last) : ∃ next, d c = .found m next ∧ last = gap next := by
  have hnone : ∀ {fuel : Nat} {c last : Cursor}, many d fuel c = .found [] last → last = c := by
    intro fuel c last h
    cases fuel with
    | zero => exact (Match.found.inj h).2.symm
    | succ fuel =>
      rw [many] at h
      split at h
      · exact (Match.found.inj h).2.symm
      · cases h
      · split at h <;> cases h
  cases fuel with
  | zero => cases h
  | succ fuel =>
    rw [many] at h
    split at h
    · cases h
    · cases h
    · rename_i n next hn
      split at h
      · rename_i hrest
        cases h
        exact ⟨next, hn, hnone hrest⟩
      · cases h
      · cases h

theorem takes_dotted (h : Gathers room inner ms) (hlast : Gathers room last [n]) :
    Takes (room + 1) (.opening :: (inner ++ .dot :: (last ++ [.closing])))
      (.tree .list "" {} (ms ++ [.tree .tail "" {} [n]])) := by
  intro c us hc
  have htokens : (Lexeme.opening :: (inner ++ .dot :: (last ++ [.closing]))).map Lexeme.token ++ us =
      .opening :: (inner.map Lexeme.token ++
        .word ['.'] :: (last.map Lexeme.token ++ .closing :: us)) := by simp [Lexeme.token]
  rw [htokens] at hc
  obtain ⟨rest, hopen, hrest⟩ := hc.eq_opening
  obtain ⟨items, next, hitems, hms, hnext⟩ := gathers_inner h (c := c) hrest.symm (stops_dot _)
  have hdot := dot_faces hnext
  rw [if_pos List.head?_cons] at hdot
  obtain ⟨⟨taken, after⟩, hdot, hafter⟩ := Option.map_eq_some_iff.mp hdot
  have htail := faces_gap (next.after taken after)
  rw [show tokens (next.after taken after).rest = _ from (List.cons.inj hafter).2] at htail
  obtain ⟨tails, ending, htails, htail, hclosing⟩ :=
    hlast htail (stops_closing us) (Nat.le_refl last.length)
  rw [Node.unplacedAll_eq_map, List.map_eq_singleton_iff] at htail
  obtain ⟨m, rfl, rfl⟩ := htail
  obtain ⟨after', hm, rfl⟩ := datum_of_many htails
  obtain ⟨rest', hclose, hus⟩ := hclosing.eq_closing
  refine ⟨.tree .list "" (.ofPosition c.position)
    (items ++ [.tree .tail "" (.ofPosition next.position) [m]]), (gap after').after [')'] rest',
    datum_list ?_, ?_, hus.symm⟩
  · simp only [list, hopen, hitems, dotted, hdot, hm, close, hclose]
  · rw [Node.unplaced, Node.unplacedAll_append, hms]
    rfl

theorem gathers_nil : Gathers room [] [] := by
  intro c us fuel hc hus _
  refine ⟨[], c, ?_, rfl, hc⟩
  cases fuel with
  | zero => rfl
  | succ fuel => rw [many, show datum room c = .absent from datum_absent hc hus room c.position]

theorem gathers_cons {l : Lexeme} {first rest : List Lexeme} {ns : List Node}
    (h : Takes room (l :: first) n) (hrest : Gathers room rest ns) :
    Gathers room (l :: (first ++ rest)) (n :: ns) := by
  intro c us fuel hc hus hfuel
  rw [← List.cons_append, List.map_append, List.append_assoc] at hc
  rw [List.length_cons, List.length_append] at hfuel
  obtain ⟨fuel, rfl⟩ : ∃ f, fuel = f + 1 := ⟨fuel - 1, by omega⟩
  obtain ⟨m, next, hm, rfl, hnext⟩ := h hc
  have hfaces := faces_gap next
  rw [hnext] at hfaces
  obtain ⟨ms, last, hms, rfl, hlast⟩ := hrest hfaces hus (by omega : _ ≤ fuel)
  refine ⟨m :: ms, last, ?_, rfl, hlast⟩
  simp only [many, hm, hms]

end Complete

/-- What is derived within the limit on nesting is found. -/
theorem gathers_of_derives {ls : List Lexeme} {ns : List Node} (h : Derives ls ns) {room : Nat}
    (hvalid : ∀ l ∈ ls, l.Valid) (hroom : Node.nestingAll ns ≤ room) : Gathers room ls ns := by
  induction h generalizing room with
  | done => exact gathers_nil
  | atom tag text _ ih =>
    obtain ⟨hatom, hvalid⟩ := List.forall_mem_cons.mp hvalid
    rw [Node.nestingAll, Node.nesting_atom hatom.tag_mem, Nat.max_le] at hroom
    obtain ⟨room, rfl⟩ : ∃ r, room = r + 1 := ⟨room - 1, by omega⟩
    exact gathers_cons (takes_atom hatom) (ih hvalid hroom.2)
  | @list inner rest ms ns _ _ ihinner ihrest =>
    rw [Node.nestingAll, Node.nesting_list, Nat.max_le] at hroom
    obtain ⟨room, rfl⟩ : ∃ r, room = r + 1 := ⟨room - 1, by omega⟩
    obtain ⟨hinner, hrest⟩ := Lexeme.forall_valid_list.mp hvalid
    have hfirst := takes_list (ihinner hinner (Nat.le_of_succ_le_succ hroom.1))
    have hall := gathers_cons hfirst (ihrest hrest hroom.2)
    rwa [List.append_assoc] at hall
  | @dotted inner last rest ms ns n _ _ _ ihinner ihlast ihrest =>
    rw [Node.nestingAll, Node.nesting_list, Node.nestingAll_append, Node.nestingAll_tail,
      Nat.max_le] at hroom
    obtain ⟨room, rfl⟩ : ∃ r, room = r + 1 := ⟨room - 1, by omega⟩
    obtain ⟨hms, hn⟩ := Nat.max_le.mp (Nat.le_of_succ_le_succ hroom.1)
    obtain ⟨hinner, hlast, hrest⟩ := Lexeme.forall_valid_dotted.mp hvalid
    have hfirst := takes_dotted (ihinner hinner hms)
      (ihlast hlast (by rwa [Node.nestingAll, Node.nestingAll, Nat.max_zero]))
    have hall := gathers_cons hfirst (ihrest hrest hroom.2)
    simpa only [List.append_assoc, List.cons_append, List.nil_append] using hall

theorem lexeme_of_firstAtom? {ts us : List Token} {n : Node} (h : firstAtom? ts = some (n, us)) :
    ∃ tag text, ts = (Lexeme.atom tag text).token :: us ∧ (Lexeme.atom tag text).Valid ∧
      n = .tree tag (String.ofList text) {} [] := by
  unfold firstAtom? at h
  split at h
  · rename_i text us'
    cases h
    exact ⟨.string, text, rfl, rfl, rfl⟩
  · rename_i text us'
    obtain ⟨tag, htag, he⟩ := Option.map_eq_some_iff.mp h
    cases he
    have hword : text ≠ ['.'] := by
      rintro rfl
      cases htag
    have htoken := Lexeme.token_atom (ne_string_of_kind? htag) text
    refine ⟨tag, text, by rw [htoken], ?_, rfl⟩
    rw [Lexeme.Valid, htoken, lexeme?, if_neg hword, htag]
    rfl
  · cases h

theorem close_found {opening c next : Cursor} {children : List Node} {n : Node}
    (h : close opening children c = .found n next) :
    n = .tree .list "" (.ofPosition opening.position) children ∧ c.rest = ')' :: next.rest := by
  unfold close at h
  split at h
  · rename_i rest hrest
    cases h
    exact ⟨rfl, hrest⟩
  · cases h

section Sound

/-- What the rule finds is derived from the lexemes that the text begins with. -/
def Sound (room : Nat) (d : Cursor → Match Node) : Prop :=
  ∀ ⦃c ts n next⦄, Faces c.rest ts → d c = .found n next →
    ∃ ls, ts = ls.map Lexeme.token ++ tokens next.rest ∧ (∀ l ∈ ls, l.Valid) ∧
      Derives ls [n.unplaced] ∧ n.unplaced.nesting ≤ room

variable {room : Nat} {d : Cursor → Match Node} (hd : Sound room d)
include hd

theorem many_sound {fuel : Nat} {c last : Cursor} {ts : List Token} {ns : List Node}
    (hc : Faces c.rest ts) (h : many d fuel c = .found ns last) :
    ∃ ls us, ts = ls.map Lexeme.token ++ us ∧ (∀ l ∈ ls, l.Valid) ∧
      Derives ls (Node.unplacedAll ns) ∧ Node.nestingAll (Node.unplacedAll ns) ≤ room ∧
      Faces last.rest us := by
  induction fuel generalizing c ts ns with
  | zero =>
    cases h
    exact ⟨[], ts, rfl, by simp, .done, Nat.zero_le room, hc⟩
  | succ fuel ih =>
    rw [many] at h
    cases hfirst : d c with
    | absent =>
      rw [hfirst] at h
      cases h
      exact ⟨[], ts, rfl, by simp, .done, Nat.zero_le room, hc⟩
    | tooDeep =>
      rw [hfirst] at h
      cases h
    | found n next =>
      cases hrest : many d fuel (gap next) with
      | absent | tooDeep =>
        simp only [hfirst, hrest] at h
        cases h
      | found ms last' =>
        simp only [hfirst, hrest] at h
        cases h
        obtain ⟨first, rfl, hvalid, hone, hnesting⟩ := hd hc hfirst
        obtain ⟨ls, us, heq, hvalid', hall, hnestings, hlast⟩ := ih (faces_gap next) hrest
        refine ⟨first ++ ls, us, ?_, ?_, hone.append hall, Nat.max_le.mpr ⟨hnesting, hnestings⟩,
          hlast⟩
        · rw [heq, List.map_append, List.append_assoc]
        · exact List.forall_mem_append.mpr ⟨hvalid, hvalid'⟩

theorem dotted_sound {c next : Cursor} {ts : List Token} {tail : Node} (hc : Faces c.rest ts)
    (h : dotted d c = .found tail next) :
    ∃ ls us n, ts = Lexeme.dot.token :: (ls.map Lexeme.token ++ us) ∧ (∀ l ∈ ls, l.Valid) ∧
      tail.unplaced = .tree .tail "" {} [n] ∧ Derives ls [n] ∧ n.nesting ≤ room ∧
      Faces next.rest us := by
  have hdot := dot_faces hc
  unfold dotted at h
  split at h
  case h_1 => cases h
  case h_2 taken rest htaken =>
  rw [htaken] at hdot
  split at hdot
  case isFalse => cases hdot
  obtain rfl := Option.some.inj hdot
  split at h
  case h_2 | h_3 => cases h
  case h_1 n last hn =>
  cases h
  obtain ⟨ls, heq, hvalid, hone, hnesting⟩ := hd (faces_gap (c.after taken rest)) hn
  exact ⟨ls, tokens last.rest, n.unplaced, congrArg (Token.word ['.'] :: ·) heq, hvalid, rfl, hone,
    hnesting, faces_gap last⟩

theorem list_sound : Sound (room + 1) (list d) := by
  intro c ts n next hc h
  unfold list at h
  split at h
  case h_2 => cases h
  case h_1 rest hopen =>
  rw [hopen] at hc
  obtain rfl := hc.opening_eq
  split at h
  case h_1 | h_2 => cases h
  case h_3 items ending hitems =>
  obtain ⟨inner, us, hinner, hvalid, hall, hnestings, hending⟩ :=
    many_sound hd (faces_gap (c.after ['('] rest)) hitems
  replace hinner : tokens rest = inner.map Lexeme.token ++ us := hinner
  rw [hinner]
  split at h
  case h_1 => cases h
  case h_2 =>
    obtain ⟨rfl, hclose⟩ := close_found h
    rw [hclose] at hending
    obtain rfl := hending.closing_eq
    refine ⟨.opening :: (inner ++ [.closing]), by simp [Lexeme.token],
      Lexeme.forall_valid_list.mpr ⟨hvalid, by simp⟩, .list hall .done, ?_⟩
    rw [Node.unplaced, Node.nesting_list]
    exact Nat.succ_le_succ hnestings
  case h_3 tail last hdotted =>
    obtain ⟨ls, us, m, rfl, hvalid', htail, hone, hnesting, hlast⟩ := dotted_sound hd hending hdotted
    obtain ⟨rfl, hclose⟩ := close_found h
    rw [hclose] at hlast
    obtain rfl := hlast.closing_eq
    rw [Node.unplaced, Node.unplacedAll_append, Node.unplacedAll, htail, Node.unplacedAll,
      Node.nesting_list, Node.nestingAll_append, Node.nestingAll_tail]
    exact ⟨.opening :: (inner ++ .dot :: (ls ++ [.closing])), by simp [Lexeme.token],
      Lexeme.forall_valid_dotted.mpr ⟨hvalid, hvalid', by simp⟩, .dotted hall hone .done,
      Nat.succ_le_succ (Nat.max_le.mpr ⟨hnestings, hnesting⟩)⟩

end Sound

/-- What is found with room for some nesting is derived within it. -/
theorem sound_datum (room : Nat) : Sound room (datum room) := by
  induction room with
  | zero =>
    intro c ts n next _ h
    rw [datum] at h
    split at h <;> cases h
  | succ room ih =>
    intro c ts n next hc h
    rw [datum] at h
    cases hlist : list (datum room) c with
    | found m last =>
      rw [hlist] at h
      cases h
      exact list_sound ih hc hlist
    | tooDeep =>
      rw [hlist] at h
      cases h
    | absent =>
      have hfaces := atom_faces hc c.position
      cases hatom : atom c with
      | none =>
        simp only [hlist, hatom] at h
        cases h
      | some r =>
        simp only [hlist, hatom] at h
        cases h
        rw [show atom ⟨c.position, c.rest⟩ = _ from hatom] at hfaces
        obtain ⟨tag, text, rfl, hvalid, hn⟩ := lexeme_of_firstAtom? hfaces.symm
        refine ⟨[.atom tag text], rfl, List.forall_mem_singleton.mpr hvalid, ?_, ?_⟩
        · rw [hn]
          exact .atom tag text .done
        · rw [hn, Node.nesting_atom hvalid.tag_mem]
          exact Nat.succ_pos room

theorem derivation_of_parse {room : Nat} {text : List Char} {ns : List Node}
    (h : parse room text = .ok ns) :
    Derivation text (Node.unplacedAll ns) ∧ Node.nestingAll (Node.unplacedAll ns) ≤ room := by
  unfold parse program at h
  split at h
  case h_2 => cases h
  case h_1 nodes last hmany =>
  split at h
  case isFalse => cases h
  case isTrue hend =>
  cases h
  obtain ⟨ls, us, heq, hvalid, hall, hnestings, hlast⟩ :=
    many_sound (sound_datum room) (faces_gap (Cursor.start text)) hmany
  rw [List.isEmpty_iff.mp hend] at hlast
  obtain rfl : us = [] := List.length_eq_zero_iff.mp (Nat.le_zero.mp hlast.length_le)
  rw [List.append_nil] at heq
  exact ⟨⟨ls, lexes_iff.mpr ⟨heq, hvalid⟩, hall⟩, hnestings⟩

theorem parse_of_derivation {room : Nat} {text : List Char} {ns : List Node}
    (h : Derivation text ns) (hroom : Node.nestingAll ns ≤ room) :
    ∃ nodes, parse room text = .ok nodes ∧ Node.unplacedAll nodes = ns := by
  obtain ⟨ls, hlexes, hderives⟩ := h
  obtain ⟨heq, hvalid⟩ := lexes_iff.mp hlexes
  have hfaces := faces_gap (Cursor.start text)
  rw [show tokens (Cursor.start text).rest = ls.map Lexeme.token ++ [] from
    heq.trans (List.append_nil _).symm] at hfaces
  have hlength : ls.length ≤ (gap (Cursor.start text)).rest.length := by
    simpa using hfaces.length_le
  obtain ⟨nodes, last, hmany, hns, hlast⟩ :=
    gathers_of_derives hderives hvalid hroom hfaces stops_nil hlength
  have hend : last.rest = [] := by
    generalize last.rest = cs at hlast
    cases hlast
    rfl
  refine ⟨nodes, ?_, hns⟩
  rw [parse, program, manyFrom, hmany]
  simp [hend]

/-- A text has at most one derivation. -/
theorem Derivation.unique {text : List Char} {ns ms : List Node} (h : Derivation text ns)
    (h' : Derivation text ms) : ns = ms := by
  obtain ⟨nodes, hparse, rfl⟩ :=
    parse_of_derivation h (Nat.le_max_left (Node.nestingAll ns) (Node.nestingAll ms))
  obtain ⟨nodes', hparse', rfl⟩ := parse_of_derivation h' (Nat.le_max_right _ _)
  rw [hparse] at hparse'
  rw [Except.ok.inj hparse']

end Grammar

end Vau
