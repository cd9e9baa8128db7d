import Mathlib.Data.List.Forall2
import Vau.Proofs.Children
import Vau.Proofs.Literal
import Vau.Proofs.Written

/-! Reading what was written. The text of a legible tree, before a boundary, is one datum to
the grammar, and the datum has that tree. -/

namespace Vau

/-- The node is no dotted tail and is converted to a datum with the tree. -/
def Node.Stands (source : Option String) (n : Node) (t : Tree) : Prop :=
  n.isTail = false ∧ ∃ d, n.toDatum source = .ok d ∧ d.tree = t

namespace Node

variable {source : Option String} {ns tl : List Node} {hs : List Tree} {w : Value}

/-- What may follow the elements among the children of a list that `w` ends. -/
inductive Ends (source : Option String) : List Node → Value → Prop where
  | proper : Ends source [] .nil
  | dotted {n : Node} {text : String} {o : Origin} {w : Value} :
    w ≠ .nil → n.Stands source (.leaf w) → Ends source [.tree .tail text o [n]] w

theorem isTail_of_stands (hns : List.Forall₂ (Stands source) ns hs) :
    ∀ n ∈ ns, n.isTail = false := by
  induction hns with
  | nil => simp
  | cons h _ ih => exact List.forall_mem_cons.mpr ⟨h.1, ih⟩

theorem checkTail_ends (hns : List.Forall₂ (Stands source) ns hs) (htl : Ends source tl w)
    (hne : ns ≠ [] ∨ w = .nil) (o : Origin) : checkTail o (ns ++ tl) = .ok () := by
  cases htl with
  | proper =>
    rw [List.append_nil]
    exact checkTail_proper (isTail_of_stands hns)
  | dotted hw _ => exact checkTail_dotted (hne.resolve_right hw)

theorem toItems_stands (hns : List.Forall₂ (Stands source) ns hs) :
    ∃ ds, toItems source ns = .ok ds ∧ ds.map Datum.tree = hs := by
  induction hns with
  | nil => exact ⟨[], by rw [toItems], rfl⟩
  | cons h _ ih =>
    obtain ⟨-, d, hd, rfl⟩ := h
    obtain ⟨ds, hds, rfl⟩ := ih
    refine ⟨d :: ds, ?_, rfl⟩
    rw [toItems, hd, hds]
    rfl

theorem toElements_ends (hns : List.Forall₂ (Stands source) ns hs) (htl : Ends source tl w) :
    ∃ ds, toElements source (ns ++ tl) = .ok ds ∧ ds.map Datum.tree = hs := by
  have hproper := isTail_of_stands hns
  have helements : toElements source (ns ++ tl) = toItems source ns := by
    cases htl with
    | proper => rw [List.append_nil, toElements_proper hproper]
    | dotted _ _ => exact toElements_dotted hproper
  rw [helements]
  exact toItems_stands hns

theorem toEnding_ends (hns : List.Forall₂ (Stands source) ns hs) (htl : Ends source tl w) :
    ∃ e, toEnding source (ns ++ tl) = .ok e ∧ e.tree = .leaf w := by
  have hproper := isTail_of_stands hns
  cases htl with
  | proper => exact ⟨.nil, by rw [List.append_nil, toEnding_proper hproper], rfl⟩
  | dotted _ h =>
    obtain ⟨-, d, hd, ht⟩ := h
    exact ⟨d, by rw [toEnding_dotted hproper, hd], ht⟩

theorem stands_list (hns : List.Forall₂ (Stands source) ns hs) (htl : Ends source tl w)
    (hne : ns ≠ [] ∨ w = .nil) (text : String) (o : Origin) :
    (Node.tree .list text o (ns ++ tl)).Stands source (hs.foldr .node (.leaf w)) := by
  obtain ⟨ds, hds, hmap⟩ := toElements_ends hns htl
  obtain ⟨e, he, ht⟩ := toEnding_ends hns htl
  refine ⟨rfl, Datum.listAt (o.location source) ds e, ?_, ?_⟩
  · rw [toDatum, checkTail_ends hns htl hne, he, hds]
    rfl
  · cases ds with
    | nil =>
      subst hmap
      cases hns
      obtain rfl := hne.resolve_left (· rfl)
      rfl
    | cons d ds => rw [Datum.tree_listAt _ (List.cons_ne_nil d ds), hmap, ht]

end Node

namespace Grammar

/-- A text that begins with neither a blank nor a comment. -/
def Inked (x : List Char) : Prop := ∃ c cs, x = c :: cs ∧ isBlank c = false ∧ c ≠ ';'

theorem Inked.append {x : List Char} (h : Inked x) (y : List Char) : Inked (x ++ y) := by
  obtain ⟨c, cs, rfl, hc⟩ := h
  exact ⟨c, cs ++ y, rfl, hc⟩

theorem gap_inked {x : List Char} (h : Inked x) (p : Position) : gap ⟨p, x⟩ = ⟨p, x⟩ := by
  obtain ⟨c, cs, rfl, hb, hs⟩ := h
  simp [gap, skip, hb, hs]

theorem gap_space (p : Position) (x : List Char) :
    gap ⟨p, ' ' :: x⟩ = gap ⟨p.step ' ', x⟩ := by
  have hb : isBlank ' ' = true := by decide
  simp [gap, skip, hb]

theorem gap_close (p : Position) (x : List Char) : gap ⟨p, ')' :: x⟩ = ⟨p, ')' :: x⟩ :=
  gap_inked ⟨')', x, rfl, by decide⟩ p

theorem gap_dot (p : Position) (x : List Char) : gap ⟨p, '.' :: x⟩ = ⟨p, '.' :: x⟩ :=
  gap_inked ⟨'.', x, rfl, by decide⟩ p

theorem atBoundary_space (x : List Char) : atBoundary (' ' :: x) = true :=
  (by decide : isDelimiter ' ' = true)

theorem atBoundary_close (x : List Char) : atBoundary (')' :: x) = true :=
  (by decide : isDelimiter ')' = true)

theorem IsWord.inked {x : List Char} (h : IsWord x) : Inked x := by
  obtain ⟨c, cs, rfl⟩ := List.exists_cons_of_ne_nil h.ne_nil
  have hc := h.plain c List.mem_cons_self
  simp only [isDelimiter, Bool.or_eq_false_iff, beq_eq_false_iff_ne] at hc
  exact ⟨c, cs, rfl, hc.1.1.1.1, hc.2⟩

theorem datum_atom {x : List Char} (hx : x.head? ≠ some '(') (room : Nat) (p : Position) :
    datum (room + 1) ⟨p, x⟩ =
      match atom ⟨p, x⟩ with
      | some (n, next) => .found n next
      | none => .absent := by
  have hlist : list (datum room) ⟨p, x⟩ = .absent := by
    unfold list
    split
    · rename_i h
      simp only at h
      simp [h] at hx
    · rfl
  cases h : atom ⟨p, x⟩ <;> simp [datum, hlist, h]

theorem datum_list {c next : Cursor} {n : Node} {room : Nat}
    (h : list (datum room) c = .found n next) : datum (room + 1) c = .found n next := by
  simp only [datum, h]

section Boundary

variable {rest : List Char} (hrest : atBoundary rest = true)
include hrest

theorem datum_word {x : List Char} (hx : IsWord x) (room : Nat) (p : Position) :
    datum (room + 1) ⟨p, x ++ rest⟩ =
      match kind? x with
      | some tag => .found (.tree tag (String.ofList x) (.ofPosition p) []) ⟨p.advance x, rest⟩
      | none => .absent := by
  have hhead : (x ++ rest).head? ≠ some '(' := by
    obtain ⟨c, cs, rfl⟩ := List.exists_cons_of_ne_nil hx.ne_nil
    intro h
    have hc := hx.plain c List.mem_cons_self
    cases h
    exact absurd hc (by decide)
  rw [datum_atom hhead, atom_word hx hrest]
  cases kind? x <;> rfl

end Boundary

theorem datum_close (room : Nat) (p : Position) (rest : List Char) :
    datum room ⟨p, ')' :: rest⟩ = .absent := by
  have hd : isDelimiter ')' = true := by decide
  have hatom : atom ⟨p, ')' :: rest⟩ = none := by
    simp [atom, atoms, integer, digits, string, boolean, constant, nil, symbol, dot, words,
      following?, hd, List.findSome?]
  cases room with
  | zero => simp [datum, begins, hatom]
  | succ room => rw [datum_atom (by simp), hatom]

theorem datum_dot {rest : List Char} (hrest : atBoundary rest = true) (room : Nat)
    (p : Position) : datum (room + 1) ⟨p, '.' :: rest⟩ = .absent := by
  have hx : IsWord ['.'] := ⟨by decide, plain_of_all (by decide)⟩
  have hkind : kind? ['.'] = none := by decide
  have hword := datum_word hrest hx room p
  rwa [hkind] at hword

/-- Before a boundary the text is one datum, which has the tree. -/
def Reads (source : Option String) (room : Nat) (x : List Char) (t : Tree) : Prop :=
  ∀ p rest, atBoundary rest = true →
    ∃ n next, datum room ⟨p, x ++ rest⟩ = .found n next ∧ next.rest = rest ∧ n.Stands source t

variable {source : Option String}

theorem reads_word {x : List Char} (hx : IsWord x) {tag : Tag} (hk : kind? x = some tag)
    {t : Tree} (ht : ∀ o, (Node.tree tag (String.ofList x) o []).Stands source t) (room : Nat) :
    Reads source (room + 1) x t := by
  intro p rest hrest
  refine ⟨.tree tag (String.ofList x) (.ofPosition p) [], ⟨p.advance x, rest⟩, ?_, rfl, ht _⟩
  rw [datum_word hrest hx, hk]

theorem isWord_literal {v : Value} (hv : v.Legible) (hnil : v ≠ .nil) (hstr : ∀ t, v ≠ .str t) :
    IsWord v.literal := by
  cases v with
  | nil => exact absurd rfl hnil
  | ignore => exact ⟨by decide, plain_of_all (by decide)⟩
  | inert => exact ⟨by decide, plain_of_all (by decide)⟩
  | bool b => cases b <;> exact ⟨by decide, plain_of_all (by decide)⟩
  | int n => exact isWord_of_isNumeral (isNumeral_decimalText n)
  | str t => exact absurd rfl (hstr t)
  | sym name => exact hv.1
  | _ => exact hv.elim

theorem reads_str (t : String) (room : Nat) :
    Reads source (room + 1) (Quoted.encode t.toList) (.leaf (.str t)) := by
  intro p rest _
  have hint : integer (Quoted.encode t.toList ++ rest) = none := by
    simp [Quoted.encode, integer, digits]
  have hatom : atom ⟨p, Quoted.encode t.toList ++ rest⟩ = some
      (.tree .string (String.ofList (Quoted.encode t.toList)) (.ofPosition p) [],
        ⟨p.advance (Quoted.encode t.toList), rest⟩) := by
    simp only [atom, atoms, List.findSome?_cons, hint, string_encode]
    rfl
  refine ⟨_, _, by rw [datum_atom (by simp [Quoted.encode]), hatom], rfl, rfl, .str t, ?_, rfl⟩
  rw [Node.toDatum, Node.string, String.toList_ofList, Quoted.decode_encode]
  simp

theorem reads_leaf {v : Value} (hv : v.Legible) (hnil : v ≠ .nil) (room : Nat) :
    Reads source (room + 1) v.literal (.leaf v) := by
  have hword := isWord_literal hv hnil
  cases v with
  | nil => exact absurd rfl hnil
  | ignore =>
    have hw : IsWord "#ignore".toList := hword fun _ => Value.noConfusion
    have hk : kind? "#ignore".toList = some .constant := by decide
    refine reads_word hw hk (fun o => ⟨rfl, .ignore, ?_, rfl⟩) room
    simp [Node.toDatum]
  | inert =>
    have hw : IsWord "#inert".toList := hword fun _ => Value.noConfusion
    have hk : kind? "#inert".toList = some .constant := by decide
    refine reads_word hw hk (fun o => ⟨rfl, .inert, ?_, rfl⟩) room
    simp [Node.toDatum]
  | bool b =>
    have hk : kind? (Value.bool b).literal = some .boolean := by cases b <;> decide
    have hb : (String.ofList (Value.bool b).literal == "#t" ||
        String.ofList (Value.bool b).literal == "#true") = b := by cases b <;> decide
    refine reads_word (hword fun _ => Value.noConfusion) hk (fun o => ⟨rfl, .bool b, ?_, rfl⟩) room
    rw [Node.toDatum, hb]
  | int n =>
    have hw : IsWord (decimalText n) := hword fun _ => Value.noConfusion
    have hk : kind? (decimalText n) = some .integer := if_pos (isNumeral_decimalText n)
    refine reads_word hw hk (fun o => ⟨rfl, .int n, ?_, rfl⟩) room
    rw [Node.toDatum, Node.integer, String.toList_ofList, readDecimal?_decimalText hv]
  | str t => exact reads_str t room
  | sym name =>
    obtain ⟨hw, hhash, hdot, hnil, hnum⟩ := hv
    have hdot' : name.toList ≠ ['.'] := fun h => hdot (String.toList_inj.mp (h.trans (by decide)))
    have hnil' : name.toList ≠ "nil".toList := fun h => hnil (String.toList_inj.mp h)
    refine reads_word hw (kind?_symbol hnum hhash hdot' hnil') (fun o => ⟨rfl, .sym name, ?_, rfl⟩)
      room
    rw [Node.toDatum, String.ofList_toList]
  | _ => exact hv.elim

theorem inked_literal {v : Value} (hv : v.Legible) : Inked v.literal := by
  by_cases hnil : v = .nil
  · subst hnil
    exact ⟨'(', [')'], rfl, by decide⟩
  by_cases hstr : ∃ t, v = .str t
  · obtain ⟨t, rfl⟩ := hstr
    exact ⟨'"', _, rfl, by decide⟩
  exact (isWord_literal hv hnil (not_exists.mp hstr)).inked

theorem inked_text {t : Tree} (ht : t.Legible) : Inked t.text := by
  cases t with
  | leaf v => exact inked_literal ht
  | node h t => exact ⟨'(', _, rfl, by decide⟩

theorem ending_leaf {w : Value} (hw : w ≠ .nil) :
    (Tree.leaf w).ending = ' ' :: '.' :: ' ' :: (w.literal ++ [')']) := by
  cases w with
  | nil => exact absurd rfl hw
  | _ => rfl

theorem atBoundary_ending (t : Tree) (rest : List Char) :
    atBoundary (t.ending ++ rest) = true := by
  cases t with
  | leaf v =>
    by_cases hv : v = .nil
    · subst hv
      exact atBoundary_close rest
    · rw [ending_leaf hv]
      exact atBoundary_space _
  | node h t => exact atBoundary_space _

theorem many_leaf {w : Value} (room : Nat) (fuel : Nat) (p : Position) (rest : List Char) :
    many (datum (room + 1)) fuel (gap ⟨p, (Tree.leaf w).ending ++ rest⟩) =
      .found [] (gap ⟨p, (Tree.leaf w).ending ++ rest⟩) := by
  cases fuel with
  | zero => rfl
  | succ fuel =>
    have habsent : datum (room + 1) (gap ⟨p, (Tree.leaf w).ending ++ rest⟩) = .absent := by
      by_cases hw : w = .nil
      · subst hw
        have hgap : gap ⟨p, (Tree.leaf .nil).ending ++ rest⟩ = ⟨p, ')' :: rest⟩ := gap_close p rest
        rw [hgap, datum_close]
      · rw [ending_leaf hw]
        simp only [List.cons_append, gap_space, gap_dot]
        exact datum_dot (atBoundary_space _) room _
    simp only [many, habsent]

theorem dotted_close (d : Cursor → Match Node) (p : Position) (rest : List Char) :
    dotted d ⟨p, ')' :: rest⟩ = .absent := by
  have hdot : dot (')' :: rest) = none := by simp [dot, words, following?]
  simp only [dotted, hdot]

theorem dotted_leaf {w : Value} (hw : w.Legible) (hnil : w ≠ .nil) (room : Nat) (p : Position)
    (rest : List Char) :
    ∃ o n p', dotted (datum (room + 1)) (gap ⟨p, (Tree.leaf w).ending ++ rest⟩) =
      .found (.tree .tail "" o [n]) ⟨p', ')' :: rest⟩ ∧ n.Stands source (.leaf w) := by
  have hdot : ∀ x, dot ('.' :: ' ' :: x) = some (['.'], ' ' :: x) := fun x => by
    simp [dot, words, following?, atBoundary_space]
  rw [ending_leaf hnil]
  simp only [List.cons_append, List.append_assoc, gap_space, gap_dot, dotted, hdot, Cursor.after,
    gap_inked ((inked_literal hw).append _), List.nil_append]
  obtain ⟨n, ⟨p', x⟩, hn, rfl, hstands⟩ := reads_leaf hw hnil room
    (((p.step ' ').advance ['.']).step ' ') _ (atBoundary_close rest)
  refine ⟨.ofPosition (p.step ' '), n, p', ?_, hstands⟩
  simp only [hn, gap_close]

/-- The elements of a list up to its end are data that stand for `hs`. -/
def Collects (source : Option String) (room fuel : Nat) (c : Cursor) (hs : List Tree) (w : Value)
    (rest : List Char) : Prop :=
  ∃ ns p, many (datum room) fuel c = .found ns (gap ⟨p, (Tree.leaf w).ending ++ rest⟩) ∧
    List.Forall₂ (Node.Stands source) ns hs

theorem reads_nil (room : Nat) : Reads source (room + 1) ['(', ')'] (.leaf .nil) := by
  intro p rest _
  have hmany : manyFrom (datum room) ⟨p.step '(', ')' :: rest⟩ =
      .found [] ⟨p.step '(', ')' :: rest⟩ := by
    simp only [manyFrom, List.length_cons, many, datum_close]
  refine ⟨.tree .list "" (.ofPosition p) [], ⟨(p.step '(').step ')', rest⟩, ?_, rfl,
    Node.stands_list .nil .proper (.inr rfl) "" (.ofPosition p)⟩
  apply datum_list
  simp only [list, List.cons_append, List.nil_append, Cursor.after, Position.advance_cons,
    Position.advance_nil, gap_close, hmany, dotted_close, close]

/-- A list of data that stand for some trees, ended by a leaf, is one datum. -/
theorem list_reads {w : Value} (hw : w.Legible) {hs : List Tree} (hne : hs ≠ [])
    {room : Nat} {p : Position} {x rest : List Char}
    (hmany : Collects source (room + 1) (gap ⟨p.step '(', x⟩).rest.length (gap ⟨p.step '(', x⟩)
      hs w rest) :
    ∃ n next, datum (room + 2) ⟨p, '(' :: x⟩ = .found n next ∧ next.rest = rest ∧
      n.Stands source (hs.foldr .node (.leaf w)) := by
  obtain ⟨ns, p', hmany, hns⟩ := hmany
  change manyFrom _ _ = _ at hmany
  have hne' : ns ≠ [] ∨ w = .nil := by
    refine .inl ?_
    rintro rfl
    exact hne (List.forall₂_nil_left_iff.mp hns)
  by_cases hnil : w = .nil
  · subst hnil
    have hgap : gap ⟨p', (Tree.leaf .nil).ending ++ rest⟩ = ⟨p', ')' :: rest⟩ := gap_close p' rest
    rw [hgap] at hmany
    refine ⟨.tree .list "" (.ofPosition p) ns, ⟨p'.step ')', rest⟩, ?_, rfl, ?_⟩
    · apply datum_list
      simp only [list, Cursor.after, Position.advance_cons, Position.advance_nil, hmany,
        dotted_close, close]
    · have hstands := Node.stands_list hns .proper hne' "" (.ofPosition p)
      rwa [List.append_nil] at hstands
  · have hdotted : ∃ o n p'', dotted (datum (room + 1)) (gap ⟨p', (Tree.leaf w).ending ++ rest⟩) =
        .found (.tree .tail "" o [n]) ⟨p'', ')' :: rest⟩ ∧ n.Stands source (.leaf w) :=
      dotted_leaf hw hnil room p' rest
    obtain ⟨o, n, p'', hdotted, hn⟩ := hdotted
    refine ⟨.tree .list "" (.ofPosition p) (ns ++ [.tree .tail "" o [n]]), ⟨p''.step ')', rest⟩,
      ?_, rfl, Node.stands_list hns (.dotted hnil hn) hne' "" (.ofPosition p)⟩
    apply datum_list
    simp only [list, Cursor.after, Position.advance_cons, Position.advance_nil, hmany, hdotted,
      close]

theorem collects_cons {room fuel : Nat} {h t : Tree} {hs : List Tree} {w : Value}
    {rest : List Char} (hh : Reads source room h.text h)
    (hrest : ∀ p, Collects source room fuel (gap ⟨p, t.ending ++ rest⟩) hs w rest) (p : Position) :
    Collects source room (fuel + 1) ⟨p, h.text ++ (t.ending ++ rest)⟩ (h :: hs) w rest := by
  obtain ⟨n, ⟨p₁, x⟩, hn, rfl, hstands⟩ := hh p _ (atBoundary_ending t rest)
  obtain ⟨ns, p₂, hns, hall⟩ := hrest p₁
  refine ⟨n :: ns, p₂, ?_, .cons hstands hall⟩
  simp only [many, hn, hns]

/-- With room for its depth the text of a legible tree reads as the tree, and what ends
a list reads as the elements that it holds. -/
theorem reads_tree {t : Tree} (ht : t.Legible) :
    (∀ room, t.depth ≤ room → Reads source (room + 1) t.text t) ∧
    ∀ room fuel p rest, t.depth ≤ room + 1 → t.chain ≤ fuel →
      Collects source (room + 1) fuel (gap ⟨p, t.ending ++ rest⟩) t.heads t.last rest := by
  -- an element is read as a datum, but a tail as the rest of the list
  induction t with
  | leaf v =>
    refine ⟨fun room _ => ?_, fun room fuel p rest _ _ =>
      ⟨[], p, many_leaf room fuel p rest, .nil⟩⟩
    by_cases hnil : v = .nil
    · subst hnil
      exact reads_nil room
    · exact reads_leaf ht hnil room
  | node h t ihh iht =>
    obtain ⟨hread, -⟩ := ihh ht.1
    obtain ⟨-, hcollect⟩ := iht ht.2
    have hink : ∀ x, Inked (h.text ++ x) := (inked_text ht.1).append
    constructor
    · intro room hroom p rest _
      simp only [Tree.depth, Nat.max_le] at hroom
      obtain ⟨room, rfl⟩ : ∃ k, room = k + 1 := ⟨room - 1, by omega⟩
      obtain ⟨c, cs, hc, -⟩ := inked_text ht.1
      have hlen : t.chain ≤ (cs ++ (t.ending ++ rest)).length := by
        have hle := t.chain_le_ending
        simp only [List.length_append]
        omega
      have hall := collects_cons (hread room (by omega))
        (fun p => hcollect room _ p rest hroom.2 hlen) (p.step '(')
      have hlist : Collects source (room + 1)
          (gap ⟨p.step '(', h.text ++ (t.ending ++ rest)⟩).rest.length
          (gap ⟨p.step '(', h.text ++ (t.ending ++ rest)⟩) (h :: t.heads) t.last rest := by
        rw [gap_inked (hink _)]
        rw [hc] at hall ⊢
        exact hall
      have hread := list_reads (p := p) (ht.2.last) (List.cons_ne_nil _ _) hlist
      simpa only [Tree.text, List.cons_append, List.append_assoc, List.foldr_cons, t.foldr_heads]
        using hread
    · intro room fuel p rest hroom hfuel
      simp only [Tree.depth, Nat.max_le] at hroom
      simp only [Tree.chain] at hfuel
      obtain ⟨fuel, rfl⟩ : ∃ k, fuel = k + 1 := ⟨fuel - 1, by omega⟩
      simp only [Tree.ending, List.cons_append, List.append_assoc, gap_space, gap_inked (hink _)]
      exact collects_cons (hread room (by omega))
        (fun p => hcollect room fuel p rest hroom.2 (by omega)) _

end Grammar

end Vau
