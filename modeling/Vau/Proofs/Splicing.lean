import Vau.Proofs.Lowered
import Vau.Proofs.Placed

/-! A text before another. What is read of a text is read of it in the same places when a line feed
and another text follow, and then the other text is read, as many lines further down as it begins
there. -/

namespace Vau

open Token

/-- The cursor in a text that goes on after where it ended. -/
def Cursor.before (c : Cursor) (more : List Char) : Cursor := ⟨c.position, c.rest ++ more⟩

namespace Grammar

variable {more : List Char}

theorem gap_before {c : Cursor} (h : (gap c).rest ≠ []) : gap (c.before more) = (gap c).before more := by
  have hskip : ∀ (comment : Bool) (p : Position) (cs : List Char),
      (skip comment p cs).rest ≠ [] → skip comment p (cs ++ more) = (skip comment p cs).before more := by
    intro comment p cs
    induction cs generalizing comment p with
    | nil => exact fun h => absurd rfl h
    | cons c cs ih =>
      simp only [List.cons_append, skip]
      intro h
      split at h
      case isTrue hc => simpa only [hc, if_true] using ih _ _ h
      case isFalse hc =>
        simp only [hc, if_false, Bool.false_eq_true]
        split at h
        case isTrue hsemi => simpa only [hsemi, if_true] using ih _ _ h
        case isFalse hsemi =>
          simp only [hsemi, if_false]
          split at h
          case isTrue hblank => simpa only [hblank, if_true] using ih _ _ h
          case isFalse hblank => simp [hblank, Cursor.before]
  exact hskip false c.position c.rest h

/-- A gap up to the end of a text ends the line, and goes on in the text after it. -/
theorem gap_end {c : Cursor} (h : (gap c).rest = []) (text : List Char) :
    gap (c.before ('\n' :: text)) = gap ⟨(gap c).position.step '\n', text⟩ := by
  have hskip : ∀ (comment : Bool) (p : Position) (cs : List Char), (skip comment p cs).rest = [] →
      skip comment p (cs ++ '\n' :: text) =
        skip false ((skip comment p cs).position.step '\n') text := by
    intro comment p cs
    induction cs generalizing comment p with
    | nil =>
      have hblank : isBlank '\n' = true := by decide
      intro _
      cases comment <;> simp [skip, hblank]
    | cons c cs ih =>
      simp only [List.cons_append, skip]
      intro h
      split at h
      case isTrue hc => simpa only [hc, if_true] using ih _ _ h
      case isFalse hc =>
        simp only [hc, if_false, Bool.false_eq_true]
        split at h
        case isTrue hsemi => simpa only [hsemi, if_true] using ih _ _ h
        case isFalse hsemi =>
          simp only [hsemi, if_false]
          split at h
          case isTrue hblank => simpa only [hblank, if_true] using ih _ _ h
          case isFalse hblank => cases h
  exact hskip false c.position c.rest h

theorem atBoundary_append {rest : List Char} (h : atBoundary rest = true)
    (hmore : atBoundary more = true) : atBoundary (rest ++ more) = true := by
  cases rest with
  | nil => exact hmore
  | cons c cs => exact h

theorem dot_boundary {rest : List Char} (h : atBoundary rest = true) :
    dot ('.' :: rest) = some (['.'], rest) := by
  simp [dot, words, following?, h]

theorem dot_eq {cs taken rest : List Char} (h : dot cs = some (taken, rest)) :
    cs = '.' :: rest ∧ taken = ['.'] ∧ atBoundary rest = true := by
  cases cs with
  | nil => simp [dot, words, following?] at h
  | cons c cs =>
    obtain rfl | hc := eq_or_ne c '.'
    · by_cases hrest : atBoundary cs = true
      · rw [dot_boundary hrest] at h
        cases h
        exact ⟨rfl, rfl, hrest⟩
      · simp [dot, words, following?, hrest] at h
    · simp [dot, words, following?, hc.symm] at h

section Rules

variable (hmore : atBoundary more = true)
include hmore

theorem atom_before {c next : Cursor} {n : Node} {ts : List Token} (hc : Faces c.rest ts)
    (h : atom c = some (n, next)) : atom (c.before more) = some (n, next.before more) := by
  obtain ⟨p, cs⟩ := c
  have hfaces := atom_faces hc p
  rw [h] at hfaces
  cases hc with
  | done | opening | closing | broken => cases hfaces
  | @literal x rest hstring =>
    have hint : ∀ cs, integer ('"' :: cs) = none := fun cs => by simp [integer, digits]
    have hlonger : string ('"' :: (x ++ rest ++ more)) = some ('"' :: x, rest ++ more) := by
      obtain ⟨r, hr, he⟩ := Option.map_eq_some_iff.mp hstring
      cases he
      rw [string, List.append_assoc, (stringBody_iff.mp hr).1.scanned]
      rfl
    simp only [atom, atoms, List.findSome?_cons, hint, hstring] at h
    cases h
    simp only [Cursor.before, List.cons_append, atom, atoms, List.findSome?_cons, hint, hlonger]
    rfl
  | @word x rest hx hrest =>
    change atom ⟨p, x ++ rest⟩ = some (n, next) at h
    change atom ⟨p, x ++ rest ++ more⟩ = some (n, next.before more)
    rw [atom_word hx hrest] at h
    obtain ⟨tag, htag, he⟩ := Option.map_eq_some_iff.mp h
    cases he
    rw [List.append_assoc, atom_word hx (atBoundary_append hrest hmore), htag]
    rfl

/-- The list, or what else the datum is in, goes on here: with its end or a dotted tail. -/
inductive GoesOn : List Char → Prop
  | closing (rest : List Char) : GoesOn (')' :: rest)
  | dot {rest : List Char} (h : atBoundary rest = true) : GoesOn ('.' :: rest)

/-- A rule that finds the same when more text follows, and nothing where a list goes on. -/
structure Steady (more : List Char) (d : Cursor → Match Node) : Prop where
  found : ∀ {c n next ts}, Faces c.rest ts → d c = .found n next →
    d (c.before more) = .found n (next.before more)
  absent : ∀ {p rest}, GoesOn rest → d ⟨p, rest⟩ = .absent
  empty : ∀ p, d ⟨p, []⟩ = .absent

omit hmore in
theorem GoesOn.ne_nil {cs : List Char} (h : GoesOn cs) : cs ≠ [] := by
  cases h <;> exact List.cons_ne_nil _ _

theorem GoesOn.append {cs : List Char} (h : GoesOn cs) : GoesOn (cs ++ more) := by
  cases h with
  | closing rest => exact .closing (rest ++ more)
  | dot hrest => exact .dot (atBoundary_append hrest hmore)

variable {d : Cursor → Match Node} (hd : Steady more d)
include hd

omit hmore in
theorem Steady.ne_nil {c next : Cursor} {n : Node} (h : d c = .found n next) : c.rest ≠ [] := by
  obtain ⟨p, cs⟩ := c
  rintro rfl
  rw [hd.empty] at h
  cases h

omit hmore in
theorem many_ne_nil {fuel : Nat} {c last : Cursor} {ns : List Node}
    (h : many d fuel c = .found ns last) (hlast : last.rest ≠ []) : c.rest ≠ [] := by
  obtain ⟨p, cs⟩ := c
  rintro rfl
  cases fuel with
  | zero =>
    cases h
    exact hlast rfl
  | succ fuel =>
    simp only [many, hd.empty] at h
    cases h
    exact hlast rfl

theorem many_before {fuel fuel' : Nat} {c last : Cursor} {ns : List Node} {ts : List Token}
    (hc : Faces c.rest ts) (h : many d fuel c = .found ns last) (hlast : GoesOn last.rest)
    (hfuel : fuel ≤ fuel') : many d fuel' (c.before more) = .found ns (last.before more) := by
  have hdone : ∀ (fuel' : Nat) {c : Cursor}, GoesOn c.rest →
      many d fuel' (c.before more) = .found [] (c.before more) := by
    intro fuel' c hc
    cases fuel' with
    | zero => rfl
    | succ fuel' => simp only [many, show d (c.before more) = .absent from hd.absent (hc.append hmore)]
  induction fuel generalizing fuel' c ns ts with
  | zero =>
    cases h
    exact hdone fuel' hlast
  | succ fuel ih =>
    obtain ⟨fuel', rfl⟩ : ∃ f, fuel' = f + 1 := ⟨fuel' - 1, by omega⟩
    rw [many] at h
    cases hfirst : d c with
    | absent =>
      rw [hfirst] at h
      cases h
      exact hdone (fuel' + 1) hlast
    | tooDeep =>
      rw [hfirst] at h
      cases h
    | found n next =>
      cases hrest : many d fuel (gap next) with
      | absent =>
        simp only [hfirst, hrest] at h
        cases h
      | tooDeep =>
        simp only [hfirst, hrest] at h
        cases h
      | found ns' last' =>
        simp only [hfirst, hrest] at h
        cases h
        have hnext : (gap next).rest ≠ [] := many_ne_nil hd hrest hlast.ne_nil
        have hmany := ih (faces_gap next) hrest (Nat.le_of_succ_le_succ hfuel)
        simp only [many, hd.found hc hfirst, gap_before hnext, hmany]

theorem dotted_before {c next : Cursor} {n : Node} (h : dotted d c = .found n next)
    (hnext : next.rest ≠ []) : dotted d (c.before more) = .found n (next.before more) := by
  unfold dotted at h ⊢
  cases hdot : dot c.rest with
  | none =>
    rw [hdot] at h
    cases h
  | some r =>
    obtain ⟨taken, rest⟩ := r
    obtain ⟨hcs, rfl, hrest⟩ := dot_eq hdot
    have hlonger : dot (c.before more).rest = some (['.'], rest ++ more) := by
      rw [Cursor.before, hcs, List.cons_append, dot_boundary (atBoundary_append hrest hmore)]
    simp only [hdot] at h
    simp only [hlonger]
    cases hdatum : d (gap (c.after ['.'] rest)) with
    | absent =>
      rw [hdatum] at h
      cases h
    | tooDeep =>
      rw [hdatum] at h
      cases h
    | found m last =>
      rw [hdatum] at h
      cases h
      have hinner := Steady.ne_nil hd hdatum
      have hmatch : d (gap ((c.before more).after ['.'] (rest ++ more))) =
          .found m (last.before more) := by
        rw [show (c.before more).after ['.'] (rest ++ more) = (c.after ['.'] rest).before more from rfl,
          gap_before hinner]
        exact hd.found (faces_gap _) hdatum
      rw [hmatch]
      simp only [gap_before hnext]
      rfl

omit hmore hd in
theorem close_before (more : List Char) {opening c next : Cursor} {children : List Node} {n : Node}
    (h : close opening children c = .found n next) :
    close (opening.before more) children (c.before more) = .found n (next.before more) ∧
      ∃ rest, c.rest = ')' :: rest := by
  unfold close at h ⊢
  split at h
  case h_1 rest hrest =>
    cases h
    simp only [Cursor.before, hrest, List.cons_append]
    exact ⟨rfl, rest, rfl⟩
  case h_2 => cases h

theorem list_before {c next : Cursor} {n : Node} (h : list d c = .found n next) :
    list d (c.before more) = .found n (next.before more) := by
  unfold list at h ⊢
  split at h
  case h_2 => cases h
  case h_1 rest hrest =>
    have hopen : (c.before more).rest = '(' :: (rest ++ more) := by
      simp [Cursor.before, hrest]
    simp only [hopen]
    cases hitems : manyFrom d (gap (c.after ['('] rest)) with
    | absent =>
      rw [hitems] at h
      cases h
    | tooDeep =>
      rw [hitems] at h
      cases h
    | found items last =>
      rw [hitems] at h
      have hmany : GoesOn last.rest → manyFrom d (gap ((c.before more).after ['('] (rest ++ more))) =
          .found items (last.before more) := by
        intro hlast
        have hinner := many_ne_nil hd hitems hlast.ne_nil
        rw [show (c.before more).after ['('] (rest ++ more) = (c.after ['('] rest).before more from rfl,
          gap_before hinner]
        refine many_before hmore hd (faces_gap _) hitems hlast ?_
        simp [Cursor.before]
      cases htail : dotted d last with
      | tooDeep =>
        simp only [htail] at h
        cases h
      | absent =>
        simp only [htail] at h
        obtain ⟨hclose, r, hr⟩ := close_before more h
        have hnodot : dotted d (last.before more) = .absent := by
          simp [dotted, Cursor.before, hr, dot, words, following?]
        simp only [hmany (hr ▸ .closing r), hnodot, hclose]
      | found tail ending =>
        simp only [htail] at h
        obtain ⟨hclose, r, hr⟩ := close_before more h
        have hdotted := dotted_before hmore hd htail (by simp [hr])
        have hdot : GoesOn last.rest := by
          unfold dotted at htail
          cases hdot : dot last.rest with
          | none =>
            rw [hdot] at htail
            cases htail
          | some r =>
            obtain ⟨hrest, -, hbound⟩ := dot_eq hdot
            exact hrest ▸ .dot hbound
        simp only [hmany hdot, hdotted, hclose]

end Rules

theorem steady_datum (hmore : atBoundary more = true) (room : Nat) : Steady more (datum room) := by
  have habsent : ∀ room p {rest}, GoesOn rest → datum room ⟨p, rest⟩ = .absent := by
    intro room p rest h
    cases h with
    | closing rest => exact datum_absent (.closing rest) (stops_closing _) room p
    | dot hrest =>
      have hword : IsWord ['.'] := ⟨by decide, plain_of_all (by decide)⟩
      exact datum_absent (.word hword hrest) (stops_dot _) room p
  induction room with
  | zero =>
    refine ⟨fun {c n next ts} hc h => ?_, habsent 0 _, fun p => rfl⟩
    simp only [datum] at h
    split at h <;> cases h
  | succ room ih =>
    refine ⟨fun {c n next ts} hc h => ?_, habsent (room + 1) _, fun p => rfl⟩
    cases hlist : list (datum room) c with
    | found m last =>
      rw [datum_list hlist] at h
      cases h
      exact datum_list (list_before hmore ih hlist)
    | tooDeep =>
      simp only [datum, hlist] at h
      cases h
    | absent =>
      cases hatom : atom c with
      | none =>
        simp only [datum, hlist, hatom] at h
        cases h
      | some r =>
        obtain ⟨m, last⟩ := r
        simp only [datum, hlist, hatom] at h
        cases h
        have hlonger := atom_before hmore hc hatom
        have hhead : (c.rest ++ more).head? ≠ some '(' := by
          obtain ⟨p, cs⟩ := c
          have hfaces := atom_faces hc p
          rw [hatom] at hfaces
          cases hc with
          | done | opening | closing | broken => cases hfaces
          | literal => simp
          | word hx _ =>
            obtain ⟨e, es, rfl⟩ := List.exists_cons_of_ne_nil hx.ne_nil
            intro he
            cases he
            exact absurd (hx.plain '(' List.mem_cons_self) (by decide)
        have hdatum := datum_atom hhead room c.position
        rw [show (⟨c.position, c.rest ++ more⟩ : Cursor) = c.before more from rfl, hlonger] at hdatum
        exact hdatum

/-- The cursor after a gap, in a text that another one follows on the next line. -/
def onward (text : List Char) (c : Cursor) : Cursor :=
  if c.rest = [] then gap ⟨c.position.step '\n', text⟩ else c.before ('\n' :: text)

theorem gap_onward (text : List Char) (c : Cursor) :
    gap (c.before ('\n' :: text)) = onward text (gap c) := by
  unfold onward
  split
  case isTrue h => exact gap_end h text
  case isFalse h => exact gap_before h

/-- The nodes before those that a rule finds. -/
def Match.prepend (ns : List Node) : Match (List Node) → Match (List Node)
  | .found ms last => .found (ns ++ ms) last
  | r => r

/-- When a text has been read to its end, the text after it is read. -/
theorem many_onward {room : Nat} {text : List Char} {fuel fuel' : Nat} {c last : Cursor}
    {ns : List Node} (hc : Faces c.rest (tokens c.rest))
    (h : many (datum room) fuel c = .found ns last) (hlast : last.rest = [])
    (hfuel : (tokens c.rest).length + (tokens text).length ≤ fuel') :
    ∃ fuel'', (tokens text).length ≤ fuel'' ∧ many (datum room) fuel' (onward text c) =
      (many (datum room) fuel'' (gap ⟨last.position.step '\n', text⟩)).prepend ns := by
  have hbound : atBoundary ('\n' :: text) = true := (by decide : isDelimiter '\n' = true)
  have hd := steady_datum hbound room
  have hnone : ∀ {c : Cursor} {fuel'}, c.rest = [] → (tokens c.rest).length + (tokens text).length ≤ fuel' →
      ∃ fuel'', (tokens text).length ≤ fuel'' ∧ many (datum room) fuel' (onward text c) =
        (many (datum room) fuel'' (gap ⟨c.position.step '\n', text⟩)).prepend [] := by
    intro c fuel' hrest hfuel
    refine ⟨fuel', by omega, ?_⟩
    rw [onward, if_pos hrest]
    cases many (datum room) fuel' (gap ⟨c.position.step '\n', text⟩) <;> rfl
  induction fuel generalizing fuel' c ns with
  | zero =>
    cases h
    exact hnone hlast hfuel
  | succ fuel ih =>
    rw [many] at h
    cases hfirst : datum room c with
    | absent =>
      rw [hfirst] at h
      cases h
      exact hnone hlast hfuel
    | tooDeep =>
      rw [hfirst] at h
      cases h
    | found n next =>
      have hleaves := (tokenwise_datum room).alike (⟨_, hc, hc, Nat.le_refl _⟩ : Facing _ c c)
      rw [hfirst] at hleaves
      cases hleaves with
      | found _ hnext =>
        cases hrest : many (datum room) fuel (gap next) with
        | absent =>
          simp only [hfirst, hrest] at h
          cases h
        | tooDeep =>
          simp only [hfirst, hrest] at h
          cases h
        | found ns' last' =>
          simp only [hfirst, hrest] at h
          cases h
          have hlt := hnext.2
          obtain ⟨fuel', rfl⟩ : ∃ f, fuel' = f + 1 := ⟨fuel' - 1, by omega⟩
          have hfaces : Faces (gap next).rest (tokens (gap next).rest) := by
            rw [tokens_gap]
            exact faces_gap next
          obtain ⟨fuel'', hle, hmany⟩ := ih (c := gap next) hfaces hrest
            (by rw [tokens_gap]; omega : _ ≤ fuel')
          refine ⟨fuel'', hle, ?_⟩
          rw [onward, if_neg (Steady.ne_nil hd hfirst), many, hd.found hc hfirst]
          simp only [gap_onward, hmany]
          cases many (datum room) fuel'' (gap ⟨last.position.step '\n', text⟩) <;> rfl

/-- A text is read before another on the next lines as it is read alone, and the other text is
read as it is alone, on those lines. -/
theorem parse_joined {room : Nat} {text text' : List Char} {ns ms : List Node}
    (h : parse room text = .ok ns) (h' : parse room text' = .ok ms) :
    parse room (text ++ '\n' :: text') =
      .ok (ns ++ ms.map (Node.lowered (1 + text.count '\n'))) := by
  unfold parse program at h h' ⊢
  have hstart : gap (Cursor.start (text ++ '\n' :: text')) = onward text' (gap (Cursor.start text)) :=
    gap_onward text' (Cursor.start text)
  rw [hstart]
  have hc : Faces (gap (Cursor.start text)).rest (tokens (gap (Cursor.start text)).rest) := by
    rw [tokens_gap]
    exact faces_gap _
  have hin := in_gap (Cursor.in_start text)
  generalize gap (Cursor.start text) = c at h hc hin ⊢
  cases hmany : manyFrom (datum room) c with
  | absent | tooDeep => simp [hmany] at h
  | found items last =>
    simp only [hmany] at h
    split at h
    case isFalse => cases h
    case isTrue hlast =>
      cases h
      rw [List.isEmpty_iff] at hlast
      have hfuel : (tokens c.rest).length + (tokens text').length ≤ (onward text' c).rest.length := by
        have hle := hc.length_le
        have hle' := length_tokens text'
        unfold onward
        split
        case isTrue hempty =>
          rw [hempty]
          simpa [tokens, scan, Mode.last] using (faces_gap ⟨c.position.step '\n', text'⟩).length_le
        case isFalse =>
          simp only [Cursor.before, List.length_append, List.length_cons]
          omega
      obtain ⟨fuel, hle, honward⟩ := many_onward hc hmany hlast hfuel
      -- the other text begins on the line after this one's last
      obtain ⟨before, htext, hposition⟩ := (many_placed datum_placed hin hmany).1
      rw [hlast, List.append_nil] at htext
      rw [hposition, ← htext, Position.next_line] at honward
      have hlowered := many_lowered (lowers_datum (k := 1 + text.count '\n') room) fuel
        (gap (Cursor.start text'))
      rw [← gap_lowered] at hlowered
      change many (datum room) fuel (gap ⟨Position.start.lowered _, text'⟩) = _ at hlowered
      have hfacing := facing_gap (Cursor.start text') (Cursor.start text') rfl (Nat.le_refl _)
      rw [manyFrom, many_ample (tokenwise_datum room) hfacing (faces_gap _).length_le hle] at h'
      rw [manyFrom, honward, hlowered]
      cases hrest : many (datum room) fuel (gap (Cursor.start text')) with
      | absent | tooDeep =>
        rw [hrest] at h'
        cases h'
      | found items' last' =>
        simp only [hrest] at h'
        split at h'
        case isFalse => cases h'
        case isTrue hend =>
          cases h'
          simp only [Match.lowered, Match.prepend, Cursor.rest_lowered, hend, if_true]

end Grammar

theorem Node.toItems_append {source : Option String} {ns ms : List Node} {ds es : List Datum}
    (h : toItems source ns = .ok ds) (h' : toItems source ms = .ok es) :
    toItems source (ns ++ ms) = .ok (ds ++ es) := by
  induction ns generalizing ds with
  | nil =>
    cases h
    exact h'
  | cons n ns ih =>
    rw [toItems] at h
    cases hn : toDatum source n with
    | error e =>
      rw [hn] at h
      cases h
    | ok d =>
      cases hrest : toItems source ns with
      | error e =>
        rw [hn, hrest] at h
        cases h
      | ok ds' =>
        rw [hn, hrest] at h
        cases h
        rw [List.cons_append, toItems, hn, ih hrest]
        rfl

theorem readText_joined {source : String} {text text' : List Char} {data data' : List Datum}
    (h : readText source text = .ok data) (h' : readText source text' = .ok data') :
    readText source (text ++ '\n' :: text') =
      .ok (data ++ data'.map (Datum.lowered (1 + text.count '\n'))) := by
  unfold readText at h h' ⊢
  cases hparse : parse nestingLimit text with
  | error e =>
    rw [hparse] at h
    cases h
  | ok ns =>
    cases hparse' : parse nestingLimit text' with
    | error e =>
      rw [hparse'] at h'
      cases h'
    | ok ms =>
      rw [hparse] at h
      rw [hparse'] at h'
      rw [Grammar.parse_joined hparse hparse']
      exact Node.toItems_append h (Node.toItems_lowered _ h')

/-- Two texts that are read one by one are read as one text, the second after a line feed. -/
theorem read_joined {source text text' : String} {data data' : List Datum}
    (h : read source text = .ok data) (h' : read source text' = .ok data') :
    ∃ joined, read source (text ++ "\n" ++ text') = .ok joined ∧
      joined.map Datum.unplaced = (data ++ data').map Datum.unplaced := by
  have htext : (text ++ "\n" ++ text').toList = text.toList ++ '\n' :: text'.toList := by simp
  unfold read
  rw [htext]
  refine ⟨_, readText_joined h h', ?_⟩
  rw [List.map_append, List.map_append, List.map_map]
  congr 1
  exact List.map_congr_left fun d _ => d.unplaced_lowered _

/-- A text and then another on the next lines are read as the one and then the other is, with the
places in the second moved down by the lines of the first and by nothing else. -/
theorem read_lines {source text text' : String} {data data' : List Datum}
    (h : read source text = .ok data) (h' : read source text' = .ok data') :
    read source (text ++ "\n" ++ text') =
      .ok (data ++ data'.map (Datum.lowered (1 + text.toList.count '\n'))) := by
  have htext : (text ++ "\n" ++ text').toList = text.toList ++ '\n' :: text'.toList := by simp
  unfold read
  rw [htext]
  exact readText_joined h h'

def seamData : List Datum :=
  let place (line column : Int) : Option Location := some ⟨line, column, some "script"⟩
  [.pair (.sym "a") (.pair (.pair (.sym "b") .nil (place 2 2)) .nil none) (place 1 1)]

/-- What is read of `d` and on the next line `(e . (f))`, with the first line having the number. -/
def seamRest (line : Int) : List Datum :=
  let place (line column : Int) : Option Location := some ⟨line, column, some "script"⟩
  [.sym "d", .pair (.sym "e") (.pair (.sym "f") .nil (place (line + 1) 6)) (place (line + 1) 1)]

/-- The first text ends in a comment, which the line feed ends, and the second begins with a gap
and has a list in a dotted tail. -/
theorem read_lines_comment :
    read "script" "(a\n (b)) ; c (" = .ok seamData ∧
    read "script" " d\n(e . (f))" = .ok (seamRest 1) ∧
    read "script" ("(a\n (b)) ; c (" ++ "\n" ++ " d\n(e . (f))") = .ok (seamData ++ seamRest 3) := by
  have hfirst : read "script" "(a\n (b)) ; c (" = .ok seamData :=
    Except.ok_of_toOption (by decide +kernel)
  have hsecond : read "script" " d\n(e . (f))" = .ok (seamRest 1) :=
    Except.ok_of_toOption (by decide +kernel)
  have hlower : (seamRest 1).map (Datum.lowered (1 + "(a\n (b)) ; c (".toList.count '\n')) =
      seamRest 3 := by decide +kernel
  refine ⟨hfirst, hsecond, ?_⟩
  rw [← hlower]
  exact read_lines hfirst hsecond

end Vau
