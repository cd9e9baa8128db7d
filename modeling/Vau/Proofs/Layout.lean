import Vau.Proofs.Moved
import Vau.Proofs.Tokens
import Vau.Proofs.Unplaced

/-! Layout. The grammar looks at the tokens of a text only: two texts with the same tokens are
both read or both refused, and what is read differs in places alone. -/

namespace Vau

theorem Datum.unplaced_eq (d : Datum) : d.unplaced = d.moved fun _ => none := by
  induction d with
  | pair head tail location ihh iht => rw [unplaced, moved, ihh, iht]
  | group items ih => rw [unplaced, moved, ih]
  | _ => rfl

namespace Node

mutual

/-- The node without the places where its parts begin. -/
def unplaced : Node → Node
  | .datum d => .datum d.unplaced
  | .sequence items => .sequence (unplacedAll items)
  | .tree tag text _ children => .tree tag text {} (unplacedAll children)

def unplacedAll : List Node → List Node
  | [] => []
  | n :: ns => n.unplaced :: unplacedAll ns

end

variable {source : Option String}

mutual

theorem unplaced_eq : ∀ n : Node, n.unplaced = n.moved (fun _ => {}) fun _ => none
  | .datum d => by rw [unplaced, moved, d.unplaced_eq]
  | .sequence items => by rw [unplaced, moved, unplacedAll_eq items]
  | .tree tag text o children => by rw [unplaced, moved, unplacedAll_eq children]

theorem unplacedAll_eq : ∀ ns : List Node, unplacedAll ns = movedAll (fun _ => {}) (fun _ => none) ns
  | [] => rfl
  | n :: ns => by rw [unplacedAll, movedAll, unplaced_eq n, unplacedAll_eq ns]

end

theorem unplacedAll_eq_map (ns : List Node) : unplacedAll ns = ns.map unplaced := by
  induction ns with
  | nil => rfl
  | cons n ns ih => rw [unplacedAll, ih, List.map_cons]

theorem unplacedAll_append (ns ms : List Node) :
    unplacedAll (ns ++ ms) = unplacedAll ns ++ unplacedAll ms := by
  simp only [unplacedAll_eq_map, List.map_append]

/-- What nodes are converted to without places is what they are converted to, without them. -/
theorem toItems_unplaced (ns : List Node) : (toItems source (unplacedAll ns)).toOption =
    (toItems source ns).toOption.map (List.map Datum.unplaced) := by
  obtain ⟨-, -, -, hitems⟩ := @conversion_moved source (fun _ => {}) (fun _ => none) rfl fun _ => rfl
  rw [unplacedAll_eq, hitems, funext Datum.unplaced_eq]

end Node

namespace Grammar

/-- Both texts begin with the same token, and no more than `k` tokens are left. -/
def Facing (k : Nat) (c c' : Cursor) : Prop :=
  ∃ ts, Faces c.rest ts ∧ Faces c'.rest ts ∧ ts.length ≤ k

/-- The same tokens are left of both texts, fewer than `k`. -/
def Leaving (k : Nat) (c c' : Cursor) : Prop :=
  tokens c'.rest = tokens c.rest ∧ (tokens c.rest).length < k

theorem facing_gap {k : Nat} (c c' : Cursor) (h : tokens c'.rest = tokens c.rest)
    (hk : (tokens c.rest).length ≤ k) : Facing k (gap c) (gap c') :=
  ⟨tokens c.rest, faces_gap c, h ▸ faces_gap c', hk⟩

/-- Two outcomes of a rule that are the same but for places. -/
inductive Alike {α : Type} (strip : α → α) (goesOn : Cursor → Cursor → Prop) :
    Match α → Match α → Prop
  | found {a a' : α} {next next' : Cursor} (hvalue : strip a' = strip a)
    (hnext : goesOn next next') : Alike strip goesOn (.found a next) (.found a' next')
  | absent : Alike strip goesOn .absent .absent
  | tooDeep : Alike strip goesOn .tooDeep .tooDeep

/-- The atom that the first token is, and the tokens after it. -/
def firstAtom? : List Token → Option (Node × List Token)
  | .literal text :: ts => some (.tree .string (String.ofList text) {} [], ts)
  | .word text :: ts => (kind? text).map fun tag => (.tree tag (String.ofList text) {} [], ts)
  | _ => none

theorem atom_faces {cs : List Char} {ts : List Token} (h : Faces cs ts) (p : Position) :
    (atom ⟨p, cs⟩).map (fun r => (r.1.unplaced, tokens r.2.rest)) = firstAtom? ts := by
  cases h with
  | done => rfl
  | opening rest =>
    have hd : isDelimiter '(' = true := by decide
    have hatom : atom ⟨p, '(' :: rest⟩ = none := by
      simp [atom, atoms, integer, digits, string, boolean, constant, nil, symbol, dot, words,
        following?, hd, List.findSome?]
    rw [hatom]
    rfl
  | closing rest =>
    have hd : isDelimiter ')' = true := by decide
    have hatom : atom ⟨p, ')' :: rest⟩ = none := by
      simp [atom, atoms, integer, digits, string, boolean, constant, nil, symbol, dot, words,
        following?, hd, List.findSome?]
    rw [hatom]
    rfl
  | @literal x rest hstring =>
    have hint : integer ('"' :: (x ++ rest)) = none := by simp [integer, digits]
    simp only [atom, atoms, List.findSome?_cons, hint, hstring]
    rfl
  | @broken cs hstring =>
    have hd : isDelimiter '"' = true := by decide
    have hatom : atom ⟨p, '"' :: cs⟩ = none := by
      simp [atom, atoms, integer, digits, hstring, boolean, constant, nil, symbol, dot, words,
        following?, hd, List.findSome?]
    rw [hatom]
    rfl
  | @word x rest hx hrest =>
    rw [atom_word hx hrest]
    cases hk : kind? x with
    | none => simp [firstAtom?, hk]
    | some tag => simp [firstAtom?, hk, Node.unplaced, Node.unplacedAll]

theorem length_of_firstAtom? {ts rest : List Token} {n : Node}
    (h : firstAtom? ts = some (n, rest)) : rest.length < ts.length := by
  unfold firstAtom? at h
  split at h
  · cases h
    exact Nat.lt_succ_self _
  · obtain ⟨tag, -, he⟩ := Option.map_eq_some_iff.mp h
    cases he
    exact Nat.lt_succ_self _
  · cases h

theorem Faces.opening_eq {rest : List Char} {ts : List Token} (h : Faces ('(' :: rest) ts) :
    ts = .opening :: tokens rest := by
  generalize hcs : '(' :: rest = cs at h
  cases h with
  | opening rest => cases hcs; rfl
  | word hx hrest =>
    obtain ⟨c, cs, rfl⟩ := List.exists_cons_of_ne_nil hx.ne_nil
    cases hcs
    exact absurd (hx.plain '(' List.mem_cons_self) (by decide)
  | _ => cases hcs

theorem Faces.closing_eq {rest : List Char} {ts : List Token} (h : Faces (')' :: rest) ts) :
    ts = .closing :: tokens rest := by
  generalize hcs : ')' :: rest = cs at h
  cases h with
  | closing rest => cases hcs; rfl
  | word hx hrest =>
    obtain ⟨c, cs, rfl⟩ := List.exists_cons_of_ne_nil hx.ne_nil
    cases hcs
    exact absurd (hx.plain ')' List.mem_cons_self) (by decide)
  | _ => cases hcs

theorem Faces.eq_opening {cs : List Char} {ts : List Token} (h : Faces cs (.opening :: ts)) :
    ∃ rest, cs = '(' :: rest ∧ ts = tokens rest := by
  cases h
  exact ⟨_, rfl, rfl⟩

theorem Faces.eq_closing {cs : List Char} {ts : List Token} (h : Faces cs (.closing :: ts)) :
    ∃ rest, cs = ')' :: rest ∧ ts = tokens rest := by
  cases h
  exact ⟨_, rfl, rfl⟩

theorem dot_faces {cs : List Char} {ts : List Token} (h : Faces cs ts) :
    (dot cs).map (fun r => Token.word ['.'] :: tokens r.2) =
      if ts.head? = some (.word ['.']) then some ts else none := by
  cases h with
  | @word x rest hx hrest =>
    have hplain : ∀ w ∈ ["."], ∀ d ∈ w.toList, isDelimiter d = false :=
      List.forall_mem_singleton.mpr (plain_of_all (by decide))
    have hdot := words_word hrest hplain hx.plain
    change dot (x ++ rest) = _ at hdot
    rw [hdot]
    by_cases he : x = ['.']
    · subst he
      rfl
    · simp [he]
  | _ => simp [dot, words, following?]

/-- No datum begins with the first of the tokens. -/
def Stops (ts : List Token) : Prop := ts.head? ≠ some .opening ∧ firstAtom? ts = none

theorem stops_nil : Stops [] := ⟨by simp, rfl⟩

theorem stops_closing (ts : List Token) : Stops (.closing :: ts) := ⟨by simp, rfl⟩

theorem stops_dot (ts : List Token) : Stops (.word ['.'] :: ts) := by
  have hkind : kind? ['.'] = none := by decide
  exact ⟨by simp, by rw [firstAtom?, hkind]; rfl⟩

theorem Faces.head_ne {cs : List Char} {ts : List Token} (h : Faces cs ts)
    (hts : ts.head? ≠ some .opening) : cs.head? ≠ some '(' := by
  intro hopen
  obtain ⟨rest, rfl⟩ := List.head?_eq_some_iff.mp hopen
  obtain rfl := h.opening_eq
  exact hts rfl

theorem datum_absent {cs : List Char} {ts : List Token} (h : Faces cs ts) (hts : Stops ts)
    (room : Nat) (p : Position) : datum room ⟨p, cs⟩ = .absent := by
  have hhead := h.head_ne hts.1
  have hatom : atom ⟨p, cs⟩ = none := by
    have hfaces := atom_faces h p
    rw [hts.2] at hfaces
    exact Option.map_eq_none_iff.mp hfaces
  cases room with
  | zero => simp [datum, begins, hatom, hhead]
  | succ room => rw [datum_atom hhead, hatom]

theorem datum_first {cs : List Char} {ts us : List Token} {n : Node} (h : Faces cs ts)
    (hfirst : firstAtom? ts = some (n, us)) (room : Nat) (p : Position) :
    ∃ m next, datum (room + 1) ⟨p, cs⟩ = .found m next ∧ m.unplaced = n ∧
      tokens next.rest = us := by
  have hts : ts.head? ≠ some .opening := by
    intro hopen
    obtain ⟨rest, rfl⟩ := List.head?_eq_some_iff.mp hopen
    cases hfirst
  have hfaces := atom_faces h p
  rw [hfirst] at hfaces
  obtain ⟨⟨m, next⟩, hatom, he⟩ := Option.map_eq_some_iff.mp hfaces
  cases he
  exact ⟨m, next, by rw [datum_atom (h.head_ne hts), hatom], rfl, rfl⟩

section Rules

variable {k : Nat} {c c' : Cursor}

theorem Alike.mono {α : Type} {strip : α → α} {goesOn goesOn' : Cursor → Cursor → Prop}
    {r r' : Match α} (h : Alike strip goesOn r r') (hgo : ∀ c c', goesOn c c' → goesOn' c c') :
    Alike strip goesOn' r r' := by
  cases h with
  | found hvalue hnext => exact .found hvalue (hgo _ _ hnext)
  | absent => exact .absent
  | tooDeep => exact .tooDeep

theorem Facing.mono {k' : Nat} (h : Facing k c c') (hk : k ≤ k') : Facing k' c c' := by
  obtain ⟨ts, hc, hc', hts⟩ := h
  exact ⟨ts, hc, hc', Nat.le_trans hts hk⟩

theorem atom_alike (h : Facing k c c') : (atom c = none ∧ atom c' = none) ∨
    ∃ n n' next next', atom c = some (n, next) ∧ atom c' = some (n', next') ∧
      n'.unplaced = n.unplaced ∧ Leaving k next next' := by
  obtain ⟨ts, hc, hc', hts⟩ := h
  have hatom := atom_faces hc c.position
  have hatom' := atom_faces hc' c'.position
  cases hfirst : firstAtom? ts with
  | none =>
    rw [hfirst] at hatom hatom'
    exact .inl ⟨Option.map_eq_none_iff.mp hatom, Option.map_eq_none_iff.mp hatom'⟩
  | some r =>
    rw [hfirst] at hatom hatom'
    obtain ⟨⟨n, next⟩, ha, rfl⟩ := Option.map_eq_some_iff.mp hatom
    obtain ⟨⟨n', next'⟩, ha', he⟩ := Option.map_eq_some_iff.mp hatom'
    obtain ⟨hn, hnext⟩ := Prod.mk.inj he
    have hlt := length_of_firstAtom? hfirst
    exact .inr ⟨n, n', next, next', ha, ha', hn, hnext, Nat.lt_of_lt_of_le hlt hts⟩

/-- A rule whose outcome depends on the tokens alone, and which takes one or more. -/
structure Tokenwise (d : Cursor → Match Node) : Prop where
  empty : ∀ p, d ⟨p, []⟩ = .absent
  alike : ∀ {k c c'}, Facing k c c' → Alike Node.unplaced (Leaving k) (d c) (d c')

variable {d : Cursor → Match Node} (hd : Tokenwise d)
include hd

theorem many_empty (fuel : Nat) (p : Position) : many d fuel ⟨p, []⟩ = .found [] ⟨p, []⟩ := by
  cases fuel with
  | zero => rfl
  | succ fuel => simp only [many, hd.empty]

theorem many_alike {fuel fuel' : Nat} (h : Facing k c c') (hfuel : k ≤ fuel) (hfuel' : k ≤ fuel') :
    Alike Node.unplacedAll (Facing k) (many d fuel c) (many d fuel' c') := by
  -- on the number of tokens, since fuel is counted in characters
  induction k generalizing c c' fuel fuel' with
  | zero =>
    obtain ⟨p, cs⟩ := c
    obtain ⟨p', cs'⟩ := c'
    obtain ⟨ts, hc, hc', hts⟩ := h
    obtain rfl := List.length_eq_zero_iff.mp (Nat.le_zero.mp hts)
    cases hc
    cases hc'
    rw [many_empty hd, many_empty hd]
    exact .found rfl ⟨[], .done, .done, Nat.le_refl 0⟩
  | succ k ih =>
    obtain ⟨fuel, rfl⟩ : ∃ f, fuel = f + 1 := ⟨fuel - 1, by omega⟩
    obtain ⟨fuel', rfl⟩ : ∃ f, fuel' = f + 1 := ⟨fuel' - 1, by omega⟩
    have hfirst := hd.alike h
    simp only [many]
    generalize d c = r, d c' = r' at hfirst ⊢
    cases hfirst with
    | absent => exact .found rfl h
    | tooDeep => exact .tooDeep
    | @found n n' next next' hn hnext =>
      have hleft : Facing k (gap next) (gap next') :=
        facing_gap next next' hnext.1 (Nat.le_of_lt_succ hnext.2)
      have hrest := ih hleft (Nat.le_of_succ_le_succ hfuel) (Nat.le_of_succ_le_succ hfuel')
      dsimp only
      generalize many d fuel (gap next) = s, many d fuel' (gap next') = s' at hrest ⊢
      cases hrest with
      | absent => exact .absent
      | tooDeep => exact .tooDeep
      | found hns hlast =>
        refine .found ?_ (hlast.mono (Nat.le_succ k))
        simp only [Node.unplacedAll, hn, hns]

/-- Steps beyond the number of tokens that are left make no difference. -/
theorem many_ample {fuel fuel' : Nat} (h : Facing k c c) (hfuel : k ≤ fuel) (hfuel' : k ≤ fuel') :
    many d fuel c = many d fuel' c := by
  induction k generalizing c fuel fuel' with
  | zero =>
    obtain ⟨p, cs⟩ := c
    obtain ⟨ts, hc, -, hts⟩ := h
    obtain rfl := List.length_eq_zero_iff.mp (Nat.le_zero.mp hts)
    cases hc
    rw [many_empty hd, many_empty hd]
  | succ k ih =>
    obtain ⟨fuel, rfl⟩ : ∃ f, fuel = f + 1 := ⟨fuel - 1, by omega⟩
    obtain ⟨fuel', rfl⟩ : ∃ f, fuel' = f + 1 := ⟨fuel' - 1, by omega⟩
    have hfirst := hd.alike h
    simp only [many]
    cases hc : d c with
    | absent | tooDeep => rfl
    | found n next =>
      rw [hc] at hfirst
      cases hfirst with
      | found _ hnext =>
        have hleft := facing_gap next next rfl (Nat.le_of_lt_succ hnext.2)
        have hrest := ih hleft (Nat.le_of_succ_le_succ hfuel) (Nat.le_of_succ_le_succ hfuel')
        dsimp only
        rw [hrest]

theorem manyFrom_alike (h : Facing k c c') :
    Alike Node.unplacedAll (Facing k) (manyFrom d c) (manyFrom d c') := by
  obtain ⟨ts, hc, hc', hts⟩ := h
  have hall := many_alike hd ⟨ts, hc, hc', Nat.le_refl _⟩ hc.length_le hc'.length_le
  exact hall.mono fun _ _ hlast => hlast.mono hts

theorem dotted_alike (h : Facing k c c') :
    Alike Node.unplaced (Facing k) (dotted d c) (dotted d c') := by
  obtain ⟨ts, hc, hc', hts⟩ := h
  have hdot := dot_faces hc
  have hdot' := dot_faces hc'
  unfold dotted
  by_cases hfirst : ts.head? = some (.word ['.'])
  · rw [if_pos hfirst] at hdot hdot'
    obtain ⟨⟨taken, rest⟩, hr, rfl⟩ := Option.map_eq_some_iff.mp hdot
    obtain ⟨⟨taken', rest'⟩, hr', he⟩ := Option.map_eq_some_iff.mp hdot'
    have hrest : tokens rest' = tokens rest := (List.cons.inj he).2
    have hdatum := hd.alike
      (facing_gap (c.after taken rest) (c'.after taken' rest') hrest (Nat.le_of_succ_le hts))
    simp only [hr, hr']
    generalize d (gap (c.after taken rest)) = r, d (gap (c'.after taken' rest')) = r' at hdatum ⊢
    cases hdatum with
    | absent => exact .absent
    | tooDeep => exact .tooDeep
    | found hn hnext =>
      refine .found ?_ (facing_gap _ _ hnext.1 (Nat.le_of_lt hnext.2))
      simp only [Node.unplaced, Node.unplacedAll, hn]
  · rw [if_neg hfirst] at hdot hdot'
    simp only [Option.map_eq_none_iff.mp hdot, Option.map_eq_none_iff.mp hdot']
    exact .absent

omit hd in
theorem close_alike (h : Facing k c c') {ns ns' : List Node}
    (hns : Node.unplacedAll ns' = Node.unplacedAll ns) (opening opening' : Cursor) :
    Alike Node.unplaced (Leaving k) (close opening ns c) (close opening' ns' c') := by
  obtain ⟨ts, hc, hc', hts⟩ := h
  unfold close
  split
  · rename_i rest hrest
    rw [hrest] at hc
    obtain rfl := hc.closing_eq
    obtain ⟨rest', hrest', hsame⟩ := hc'.eq_closing
    simp only [hrest']
    refine .found ?_ ⟨hsame.symm, hts⟩
    simp only [Node.unplaced, hns]
  · rename_i hnot
    split
    · rename_i rest' hrest'
      rw [hrest'] at hc'
      obtain rfl := hc'.closing_eq
      obtain ⟨rest, hrest, -⟩ := hc.eq_closing
      exact absurd hrest (hnot rest)
    · exact .absent

theorem list_alike (h : Facing k c c') :
    Alike Node.unplaced (Leaving k) (list d c) (list d c') := by
  obtain ⟨ts, hc, hc', hts⟩ := h
  unfold list
  split
  · rename_i rest hrest
    rw [hrest] at hc
    obtain rfl := hc.opening_eq
    obtain ⟨rest', hrest', hsame⟩ := hc'.eq_opening
    have hinner := facing_gap (c.after ['('] rest) (c'.after ['('] rest') hsame.symm
      (Nat.le_of_succ_le hts)
    have hitems := manyFrom_alike hd hinner
    simp only [hrest']
    generalize manyFrom d (gap (c.after ['('] rest)) = r,
      manyFrom d (gap (c'.after ['('] rest')) = r' at hitems ⊢
    cases hitems with
    | absent => exact .absent
    | tooDeep => exact .tooDeep
    | @found ns ns' next next' hns hnext =>
      have htail := dotted_alike hd hnext
      dsimp only
      generalize dotted d next = s, dotted d next' = s' at htail ⊢
      cases htail with
      | absent => exact close_alike hnext hns c c'
      | tooDeep => exact .tooDeep
      | found hn hlast =>
        refine close_alike hlast ?_ c c'
        simp only [Node.unplacedAll_append, Node.unplacedAll, hns, hn]
  · rename_i hnot
    split
    · rename_i rest' hrest'
      rw [hrest'] at hc'
      obtain rfl := hc'.opening_eq
      obtain ⟨rest, hrest, -⟩ := hc.eq_opening
      exact absurd hrest (hnot rest)
    · exact .absent

end Rules

theorem opening_alike {cs cs' : List Char} {ts : List Token} (h : Faces cs ts) (h' : Faces cs' ts)
    (hopen : cs.head? = some '(') : cs'.head? = some '(' := by
  obtain ⟨rest, rfl⟩ := List.head?_eq_some_iff.mp hopen
  obtain rfl := h.opening_eq
  obtain ⟨rest', rfl, -⟩ := h'.eq_opening
  rfl

theorem begins_alike {k : Nat} {c c' : Cursor} (h : Facing k c c') : begins c' = begins c := by
  have hatom : (atom c').isSome = (atom c).isSome := by
    rcases atom_alike h with ⟨hn, hn'⟩ | ⟨n, n', next, next', hs, hs', -⟩
    · rw [hn, hn']
    · rw [hs, hs']
      rfl
  obtain ⟨ts, hc, hc', -⟩ := h
  have hopen : (c'.rest.head? == some '(') = (c.rest.head? == some '(') := by
    rw [Bool.eq_iff_iff, beq_iff_eq, beq_iff_eq]
    exact ⟨opening_alike hc' hc, opening_alike hc hc'⟩
  rw [begins, begins, hopen, hatom]

theorem tokenwise_datum (room : Nat) : Tokenwise (datum room) := by
  induction room with
  | zero =>
    refine ⟨fun p => rfl, fun {k c c'} h => ?_⟩
    simp only [datum, begins_alike h]
    split
    · exact .tooDeep
    · exact .absent
  | succ room ih =>
    refine ⟨fun p => rfl, fun {k c c'} h => ?_⟩
    have hlist := list_alike ih h
    simp only [datum]
    generalize list (datum room) c = r, list (datum room) c' = r' at hlist ⊢
    cases hlist with
    | found hn hnext => exact .found hn hnext
    | tooDeep => exact .tooDeep
    | absent =>
      rcases atom_alike h with ⟨hn, hn'⟩ | ⟨n, n', next, next', hs, hs', hsame, hleft⟩
      · simp only [hn, hn']
        exact .absent
      · simp only [hs, hs']
        exact .found hsame hleft

theorem program_alike (room : Nat) {text text' : List Char} (h : tokens text' = tokens text) :
    ∃ k, Alike Node.unplacedAll (Facing k) (program room text) (program room text') :=
  ⟨_, manyFrom_alike (tokenwise_datum room)
    (facing_gap (Cursor.start text) (Cursor.start text') h (Nat.le_refl _))⟩

theorem parse_alike {room : Nat} {text text' : List Char} (h : tokens text' = tokens text)
    {ns : List Node} (hparse : parse room text = .ok ns) :
    ∃ ns', parse room text' = .ok ns' ∧ Node.unplacedAll ns' = Node.unplacedAll ns := by
  obtain ⟨k, hprogram⟩ := program_alike room h
  unfold parse at hparse ⊢
  generalize program room text = r, program room text' = r' at hprogram hparse ⊢
  cases hprogram with
  | absent => cases hparse
  | tooDeep => cases hparse
  | @found _ ns' next next' hns hnext =>
    obtain ⟨ts, hc, hc', -⟩ := hnext
    dsimp only at hparse ⊢
    split at hparse
    · rename_i hend
      cases hparse
      rw [List.isEmpty_iff] at hend
      rw [hend] at hc
      obtain rfl : ts = [] := List.length_eq_zero_iff.mp (Nat.le_zero.mp hc.length_le)
      have hend' : next'.rest = [] := by
        generalize next'.rest = cs' at hc'
        cases hc'
        rfl
      exact ⟨ns', by simp [hend'], hns⟩
    · cases hparse

end Grammar

theorem toItems_alike {source : Option String} {ns ns' : List Node}
    (h : Node.unplacedAll ns' = Node.unplacedAll ns) {ds : List Datum}
    (hds : Node.toItems source ns = .ok ds) :
    ∃ ds', Node.toItems source ns' = .ok ds' ∧
      ds'.map Datum.unplaced = ds.map Datum.unplaced := by
  have hsame := @Node.toItems_unplaced source ns'
  rw [h, Node.toItems_unplaced ns, hds] at hsame
  obtain ⟨ds', hds', hunplaced⟩ := Option.map_eq_some_iff.mp hsame.symm
  exact ⟨ds', Except.ok_of_toOption hds', hunplaced⟩

/-- A text with the tokens of one that is read is read as well, as the same data elsewhere. -/
theorem read_alike {source text text' : String} (h : tokens text'.toList = tokens text.toList)
    {data : List Datum} (hread : read source text = .ok data) :
    ∃ data', read source text' = .ok data' ∧
      data'.map Datum.unplaced = data.map Datum.unplaced := by
  unfold read readText at hread ⊢
  cases hparse : parse nestingLimit text.toList with
  | error e =>
    rw [hparse] at hread
    cases hread
  | ok ns =>
    rw [hparse] at hread
    obtain ⟨ns', hparse', hns⟩ := Grammar.parse_alike h hparse
    rw [hparse']
    exact toItems_alike hns hread

end Vau
