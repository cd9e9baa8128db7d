import Vau.Proofs.Derivation
import Vau.Proofs.Placed

/-! Openings. The parentheses that open the lists of a text, other than those of empty lists, are
found by a scan from left to right. The grammar finds a list at each of them and at no other place,
in the same order. -/

namespace Vau

open Token

namespace Token

/-- Where the scan stands after some characters. -/
def Mode.after (mode : Mode) (cs : List Char) : Mode := cs.foldl (fun m c => (m.step c).2) mode

/-- The character opens a list that the text after it does not close at once. -/
def Mode.Opens (mode : Mode) (c : Char) (cs : List Char) : Prop :=
  .opening ∈ (mode.step c).1 ∧ (tokens cs).head? ≠ some .closing

instance (mode : Mode) (c : Char) (cs : List Char) : Decidable (mode.Opens c cs) :=
  inferInstanceAs (Decidable (_ ∧ _))

end Token

/-- The places of the parentheses in the rest of a text that open lists with something in them. -/
def openingsFrom (mode : Mode) (p : Position) : List Char → List Position
  | [] => []
  | c :: cs =>
    let later := openingsFrom (mode.step c).2 (p.step c) cs
    if mode.Opens c cs then p :: later else later

def openings (text : List Char) : List Position := openingsFrom .between .start text

/-- The parentheses in the literal and in the comment open nothing, nor do those of `()`. -/
example : openings "(a \"(b\" . (c)) ; (d)\n (() e)".toList = [⟨1, 1⟩, ⟨1, 11⟩, ⟨2, 2⟩] := by
  decide

namespace Token

theorem opening_mem_enter {c : Char} : .opening ∈ (Mode.enter c).1 ↔ c = '(' := by
  constructor
  · intro h
    unfold Mode.enter at h
    by_contra hc
    simp only [hc, if_false] at h
    repeat' split at h
    all_goals simp at h
  · rintro rfl
    decide

/-- A list is opened by a parenthesis, and not in a comment or a literal. -/
theorem opening_mem_step {mode : Mode} {c : Char} : .opening ∈ (mode.step c).1 ↔
    c = '(' ∧ (mode = .between ∨ ∃ seen, mode = .word seen) := by
  cases mode with
  | between =>
    simp only [Mode.step, true_or, and_true]
    exact opening_mem_enter
  | word seen =>
    by_cases hc : isDelimiter c = true
    · simpa [Mode.step, hc] using opening_mem_enter
    · have hne : c ≠ '(' := by
        rintro rfl
        exact hc (by decide)
      simp [Mode.step, hc, hne]
  | literal seen =>
    simp only [Mode.step]
    split <;> simp
  | comment | escape seen | broken => simp [Mode.step]

end Token

section Places

/-- The place is on an earlier line, or farther left on the same line. -/
def Position.Before (p q : Position) : Prop :=
  p.line < q.line ∨ p.line = q.line ∧ p.column < q.column

theorem Position.Before.trans {p q r : Position} (h : p.Before q) (h' : q.Before r) :
    p.Before r := by
  unfold Position.Before at *
  omega

theorem Position.before_step (p : Position) (c : Char) : p.Before (p.step c) := by
  unfold Position.step
  split
  · exact .inl (Int.lt_succ p.line)
  · exact .inr ⟨rfl, Int.lt_succ p.column⟩

variable {mode : Mode} {p q : Position} {cs : List Char}

theorem before_of_mem (h : q ∈ openingsFrom mode p cs) : q = p ∨ p.Before q := by
  induction cs generalizing mode p with
  | nil => exact absurd h List.not_mem_nil
  | cons c cs ih =>
    have hlater : q ∈ openingsFrom (mode.step c).2 (p.step c) cs → p.Before q := by
      intro hq
      rcases ih hq with rfl | hq
      · exact p.before_step c
      · exact (p.before_step c).trans hq
    rw [openingsFrom] at h
    split at h
    · exact (List.mem_cons.mp h).imp_right hlater
    · exact .inr (hlater h)

/-- The places come in the order of the text, and none of them twice. -/
theorem pairwise_openingsFrom (mode : Mode) (p : Position) (cs : List Char) :
    (openingsFrom mode p cs).Pairwise Position.Before := by
  induction cs generalizing mode p with
  | nil => exact .nil
  | cons c cs ih =>
    rw [openingsFrom]
    split
    · refine List.pairwise_cons.mpr ⟨fun q hq => ?_, ih _ _⟩
      rcases before_of_mem hq with rfl | hq
      · exact p.before_step c
      · exact (p.before_step c).trans hq
    · exact ih _ _

/-- A place is found if the text has a parenthesis there that opens a list, which is not empty. -/
theorem mem_openingsFrom : q ∈ openingsFrom mode p cs ↔
    ∃ before after, cs = before ++ '(' :: after ∧ p.advance before = q ∧
      (mode.after before).Opens '(' after := by
  induction cs generalizing mode p with
  | nil => simp [openingsFrom]
  | cons c cs ih =>
    have hlater : q ∈ openingsFrom (mode.step c).2 (p.step c) cs ↔
        ∃ before after, c :: cs = (c :: before) ++ '(' :: after ∧ p.advance (c :: before) = q ∧
          (mode.after (c :: before)).Opens '(' after := by
      simp [ih, Mode.after]
    have hiff : q ∈ openingsFrom mode p (c :: cs) ↔
        (p = q ∧ mode.Opens c cs) ∨ q ∈ openingsFrom (mode.step c).2 (p.step c) cs := by
      rw [openingsFrom]
      split
      · rename_i hopens
        simp [hopens, eq_comm]
      · rename_i hnot
        simp [hnot]
    rw [hiff, hlater]
    constructor
    · rintro (⟨rfl, hopens⟩ | ⟨before, after, h⟩)
      · obtain rfl := (opening_mem_step.mp hopens.1).1
        exact ⟨[], cs, rfl, rfl, hopens⟩
      · exact ⟨c :: before, after, h⟩
    · rintro ⟨before, after, hcs, hp, hopens⟩
      cases before with
      | nil =>
        cases hcs
        exact .inl ⟨hp, hopens⟩
      | cons b before =>
        obtain rfl : c = b := (List.cons.inj hcs).1
        exact .inr ⟨before, after, hcs, hp, hopens⟩

end Places

namespace Node

mutual

/-- Where the lists of a parse tree begin that have something in them, from left to right. -/
def openings : Node → List Origin
  | .tree .list _ o children =>
    if children.isEmpty then [] else o :: openingsAll children
  | .tree _ _ _ children => openingsAll children
  | _ => []

def openingsAll : List Node → List Origin
  | [] => []
  | n :: ns => n.openings ++ openingsAll ns

end

theorem openingsAll_append (ns ms : List Node) :
    openingsAll (ns ++ ms) = openingsAll ns ++ openingsAll ms := by
  induction ns with
  | nil => simp [openingsAll]
  | cons n ns ih => simp [openingsAll, ih]

theorem openings_leaf (tag : Tag) (text : String) (o : Origin) :
    (Node.tree tag text o []).openings = [] := by
  cases tag <;> simp [openings, openingsAll]

end Node

namespace Grammar

/-- The lists that open in the text from the cursor on. -/
def ahead (c : Cursor) : List Origin :=
  (openingsFrom .between c.position c.rest).map .ofPosition

section Scanning

variable {p : Position}

theorem openingsFrom_quiet {mode mode' : Mode} {c : Char} (h : mode.step c = ([], mode'))
    (p : Position) (cs : List Char) :
    openingsFrom mode p (c :: cs) = openingsFrom mode' (p.step c) cs := by
  have hnot : ¬ mode.Opens c cs := by simp [Mode.Opens, h]
  rw [openingsFrom, if_neg hnot, h]

theorem openingsFrom_skip (comment : Bool) (p : Position) (cs : List Char) :
    openingsFrom .between (skip comment p cs).position (skip comment p cs).rest =
      openingsFrom (if comment then .comment else .between) p cs := by
  induction cs generalizing comment p with
  | nil => cases comment <;> rfl
  | cons c cs ih =>
    cases comment with
    | true =>
      have hstep : Mode.comment.step c = ([], if (c != '\n') = true then .comment else .between) := by
        by_cases hc : c = '\n' <;> simp [Mode.step, hc]
      rw [skip, if_pos rfl, if_pos rfl, ih, openingsFrom_quiet hstep]
    | false =>
      simp only [skip, if_false, Bool.false_eq_true]
      by_cases hc : c = ';'
      · subst hc
        rw [if_pos rfl, ih, openingsFrom_quiet (by decide : Mode.between.step ';' = ([], .comment))]
        rfl
      · by_cases hb : isBlank c = true
        · have hstep : Mode.between.step c = ([], .between) := if_pos hb
          rw [if_neg hc, if_pos hb, ih, openingsFrom_quiet hstep]
          rfl
        · rw [if_neg hc, if_neg hb]

theorem openingsFrom_word (seen : List Char) (p : Position) {x rest : List Char}
    (hx : ∀ c ∈ x, isDelimiter c = false) (hrest : atBoundary rest = true) :
    openingsFrom (.word seen) p (x ++ rest) = openingsFrom .between (p.advance x) rest := by
  induction x generalizing seen p with
  | nil =>
    cases rest with
    | nil => rfl
    | cons d ds =>
      have hd : isDelimiter d = true := hrest
      have hstep : ((Mode.word seen).step d).2 = (Mode.between.step d).2 := by simp [Mode.step, hd]
      have hopens : (Mode.word seen).Opens d ds ↔ Mode.between.Opens d ds := by
        simp [Mode.Opens, Mode.step, hd]
      simp only [List.nil_append, openingsFrom, hstep, hopens, Position.advance_nil]
  | cons c cs ih =>
    obtain ⟨hc, hcs⟩ := List.forall_mem_cons.mp hx
    have hstep : (Mode.word seen).step c = ([], .word (seen ++ [c])) := by simp [Mode.step, hc]
    rw [List.cons_append, openingsFrom_quiet hstep, ih _ _ hcs, Position.advance_cons]

theorem openingsFrom_literal (seen : List Char) (p : Position) {x : List Char} (hx : LiteralBody x)
    (rest : List Char) :
    openingsFrom (.literal seen) p (x ++ rest) = openingsFrom .between (p.advance x) rest := by
  induction hx generalizing seen p with
  | close =>
    have hnot : ¬ (Mode.literal seen).Opens '"' rest := by simp [Mode.Opens, Mode.step]
    simp only [List.cons_append, List.nil_append, openingsFrom, if_neg hnot]
    rfl
  | @escape c x hc _ ih =>
    have hslash : (Mode.literal seen).step '\\' = ([], .escape (seen ++ ['\\'])) := rfl
    have hescape : (Mode.escape (seen ++ ['\\'])).step c =
        ([], .literal (seen ++ ['\\'] ++ [c])) := by simp [Mode.step, hc]
    rw [List.cons_append, List.cons_append, openingsFrom_quiet hslash, openingsFrom_quiet hescape,
      ih, Position.advance_cons, Position.advance_cons]
  | @plain c x hquote hslash _ ih =>
    have hstep : (Mode.literal seen).step c = ([], .literal (seen ++ [c])) := by
      simp [Mode.step, hquote, hslash]
    rw [List.cons_append, openingsFrom_quiet hstep, ih, Position.advance_cons]

end Scanning

theorem ahead_gap (c : Cursor) : ahead (gap c) = ahead c :=
  congrArg (List.map Origin.ofPosition) (openingsFrom_skip false c.position c.rest)

theorem ahead_word {x rest : List Char} (hx : IsWord x) (hrest : atBoundary rest = true)
    (p : Position) : ahead ⟨p, x ++ rest⟩ = ahead ⟨p.advance x, rest⟩ := by
  obtain ⟨c, cs, rfl⟩ := List.exists_cons_of_ne_nil hx.ne_nil
  obtain ⟨hc, hcs⟩ := List.forall_mem_cons.mp hx.plain
  have hstep : Mode.between.step c = ([], .word [c]) := by
    simp only [isDelimiter, Bool.or_eq_false_iff, beq_eq_false_iff_ne] at hc
    simp [Mode.step, Mode.enter, hc]
  simp only [ahead, List.cons_append, openingsFrom_quiet hstep, openingsFrom_word _ _ hcs hrest,
    Position.advance_cons]

theorem ahead_literal {x rest : List Char}
    (h : string ('"' :: (x ++ rest)) = some ('"' :: x, rest)) (p : Position) :
    ahead ⟨p, '"' :: (x ++ rest)⟩ = ahead ⟨p.advance ('"' :: x), rest⟩ := by
  obtain ⟨⟨y, rest'⟩, hbody, he⟩ := Option.map_eq_some_iff.mp h
  cases he
  have hstep : Mode.between.step '"' = ([], .literal ['"']) := by decide
  simp only [ahead, openingsFrom_quiet hstep, openingsFrom_literal _ _ (stringBody_iff.mp hbody).1,
    Position.advance_cons]

theorem atom_literal {x rest : List Char} (h : string ('"' :: (x ++ rest)) = some ('"' :: x, rest))
    (p : Position) : atom ⟨p, '"' :: (x ++ rest)⟩ =
      some (.tree .string (String.ofList ('"' :: x)) (.ofPosition p) [],
        ⟨p.advance ('"' :: x), rest⟩) := by
  have hint : integer ('"' :: (x ++ rest)) = none := by simp [integer, digits]
  simp only [atom, atoms, List.findSome?_cons, hint, h]
  rfl

theorem Faces.eq_word {cs x : List Char} {ts : List Token} (h : Faces cs (.word x :: ts)) :
    IsWord x ∧ ∃ rest, cs = x ++ rest ∧ ts = tokens rest ∧ atBoundary rest = true := by
  generalize hus : Token.word x :: ts = us at h
  cases h with
  | word hx hrest =>
    cases hus
    exact ⟨hx, _, rfl, rfl, hrest⟩
  | _ => cases hus

/-- Up to the end of what the rule finds, the lists that open in the text are those it finds. -/
def Spans (d : Cursor → Match Node) : Prop :=
  ∀ ⦃c ts n next⦄, Faces c.rest ts → d c = .found n next →
    ahead c = n.openings ++ ahead next ∧ ts.head? ≠ some .closing

theorem atom_spans {c next : Cursor} {ts : List Token} {n : Node} (hc : Faces c.rest ts)
    (h : atom c = some (n, next)) :
    ahead c = n.openings ++ ahead next ∧ ts.head? ≠ some .closing := by
  obtain ⟨p, cs⟩ := c
  have hfirst := atom_faces hc p
  rw [h] at hfirst
  cases hc with
  | done | opening | closing | broken => cases hfirst
  | literal hstring =>
    rw [atom_literal hstring] at h
    cases h
    refine ⟨(ahead_literal hstring p).trans ?_, by simp⟩
    rw [Node.openings_leaf, List.nil_append]
  | word hx hrest =>
    obtain ⟨tag, -, he⟩ := Option.map_eq_some_iff.mp ((atom_word hx hrest p).symm.trans h)
    cases he
    refine ⟨(ahead_word hx hrest p).trans ?_, by simp⟩
    rw [Node.openings_leaf, List.nil_append]

section Rules

variable {d : Cursor → Match Node} (hd : Spans d)
include hd

theorem many_spans {fuel : Nat} {c last : Cursor} {ts : List Token} {ns : List Node}
    (hc : Faces c.rest ts) (h : many d fuel c = .found ns last) :
    ahead c = Node.openingsAll ns ++ ahead last ∧ (ns ≠ [] → ts.head? ≠ some .closing) ∧
      ∃ us, Faces last.rest us ∧ (ns = [] → us = ts) := by
  induction fuel generalizing c ts ns with
  | zero =>
    cases h
    exact ⟨rfl, fun hne => absurd rfl hne, ts, hc, fun _ => rfl⟩
  | succ fuel ih =>
    rw [many] at h
    cases hfirst : d c with
    | absent =>
      rw [hfirst] at h
      cases h
      exact ⟨rfl, fun hne => absurd rfl hne, ts, hc, fun _ => rfl⟩
    | tooDeep =>
      rw [hfirst] at h
      cases h
    | found n next =>
      cases hrest : many d fuel (gap next) with
      | absent | tooDeep =>
        simp only [hfirst, hrest] at h
        cases h
      | found ms last' =>
        simp only [hfirst, hrest] at h
        cases h
        obtain ⟨hahead, hhead⟩ := hd hc hfirst
        obtain ⟨hlater, -, us, hus, -⟩ := ih (faces_gap next) hrest
        refine ⟨?_, fun _ => hhead, us, hus, fun hnil => absurd hnil (List.cons_ne_nil n ms)⟩
        rw [hahead, ← ahead_gap next, hlater, Node.openingsAll, List.append_assoc]

theorem dotted_spans {c next : Cursor} {ts : List Token} {tail : Node} (hc : Faces c.rest ts)
    (h : dotted d c = .found tail next) :
    ahead c = tail.openings ++ ahead next ∧ ts.head? ≠ some .closing ∧
      ∃ us, Faces next.rest us := by
  have hdot := dot_faces hc
  unfold dotted at h
  split at h
  case h_1 => cases h
  case h_2 taken rest htaken =>
  rw [htaken] at hdot
  split at hdot
  case isFalse => cases hdot
  case isTrue hword =>
  split at h
  case h_2 | h_3 => cases h
  case h_1 n last hn =>
  cases h
  obtain ⟨us, rfl⟩ := List.head?_eq_some_iff.mp hword
  obtain ⟨hx, rest', hcs, -, hrest⟩ := hc.eq_word
  obtain ⟨htaken, hsplit⟩ := taken_of_words htaken
  obtain rfl : taken = ['.'] := by simpa using htaken
  obtain rfl : rest = rest' := List.append_cancel_left (hsplit.symm.trans hcs)
  have hdot : ahead c = ahead (c.after ['.'] rest) := by
    obtain ⟨p, cs⟩ := c
    subst hcs
    exact ahead_word hx hrest p
  obtain ⟨hahead, -⟩ := hd (faces_gap (c.after ['.'] rest)) hn
  refine ⟨?_, by simp, _, faces_gap last⟩
  rw [hdot, ← ahead_gap (c.after ['.'] rest), hahead, ahead_gap last]
  simp only [Node.openings, Node.openingsAll, List.append_nil]

omit hd in
theorem ahead_closing (p : Position) (rest : List Char) :
    ahead ⟨p, ')' :: rest⟩ = ahead ⟨p.step ')', rest⟩ := by
  have hnot : ¬ Mode.between.Opens ')' rest := fun h => absurd (opening_mem_step.mp h.1).1 (by decide)
  have hstep : (Mode.between.step ')').2 = .between := by decide
  simp only [ahead, openingsFrom, if_neg hnot, hstep]

omit hd in
theorem ahead_opening (p : Position) (rest : List Char) : ahead ⟨p, '(' :: rest⟩ =
    if (tokens rest).head? = some .closing then ahead ⟨p.step '(', rest⟩
    else .ofPosition p :: ahead ⟨p.step '(', rest⟩ := by
  have hmem : Token.opening ∈ (Mode.between.step '(').1 := by decide
  have hstep : (Mode.between.step '(').2 = .between := by decide
  by_cases hclosing : (tokens rest).head? = some .closing
  · have hnot : ¬ Mode.between.Opens '(' rest := fun h => h.2 hclosing
    simp only [ahead, openingsFrom, if_neg hnot, hstep, if_pos hclosing]
  · have hopens : Mode.between.Opens '(' rest := ⟨hmem, hclosing⟩
    simp only [ahead, openingsFrom, if_pos hopens, hstep, if_neg hclosing, List.map_cons]

omit hd in
theorem close_spans {opening c next : Cursor} {children : List Node} {n : Node}
    (h : close opening children c = .found n next) :
    n = .tree .list "" (.ofPosition opening.position) children ∧ ahead c = ahead next ∧
      ∃ rest, c.rest = ')' :: rest := by
  obtain ⟨p, cs⟩ := c
  unfold close at h
  split at h
  case h_2 => cases h
  case h_1 rest hrest =>
  cases h
  cases hrest
  exact ⟨rfl, ahead_closing p rest, rest, rfl⟩

/-- The scan finds the list that opens here if and only if it has children. -/
theorem list_spans : Spans (list d) := by
  intro c ts n next hc h
  obtain ⟨p, cs⟩ := c
  unfold list at h
  split at h
  case h_2 => cases h
  case h_1 rest hopen =>
  cases hopen
  obtain rfl := hc.opening_eq
  refine ⟨?_, by simp⟩
  split at h
  case h_1 | h_2 => cases h
  case h_3 items ending hitems =>
  obtain ⟨hinner, hfirst, us, hus, hnone⟩ := many_spans hd (faces_gap _) hitems
  replace hinner : ahead ⟨p.step '(', rest⟩ = Node.openingsAll items ++ ahead ending :=
    (ahead_gap _).symm.trans hinner
  have hopened : ∀ {children : List Node}, children ≠ [] →
      (tokens rest).head? ≠ some .closing →
      ahead ⟨p.step '(', rest⟩ = Node.openingsAll children ++ ahead next →
      ahead ⟨p, '(' :: rest⟩ =
        (Node.tree .list "" (.ofPosition p) children).openings ++ ahead next := by
    intro children hne hhead hchildren
    rw [ahead_opening, if_neg hhead, hchildren, Node.openings, if_neg (by simpa using hne),
      List.cons_append]
  split at h
  case h_1 => cases h
  case h_2 =>
    obtain ⟨rfl, hclose, after, hrest⟩ := close_spans h
    rw [hclose] at hinner
    by_cases hempty : items = []
    · obtain rfl := hnone hempty
      subst hempty
      rw [hrest] at hus
      have hhead : (tokens rest).head? = some .closing := congrArg List.head? hus.closing_eq
      rw [ahead_opening, if_pos hhead, hinner]
      rfl
    · exact hopened hempty (hfirst hempty) hinner
  case h_3 tail last hdotted =>
    obtain ⟨htail, hhead, -⟩ := dotted_spans hd hus hdotted
    obtain ⟨rfl, hclose, -⟩ := close_spans h
    refine hopened (by simp) ?_ ?_
    · by_cases hempty : items = []
      · exact hnone hempty ▸ hhead
      · exact hfirst hempty
    · rw [hinner, htail, hclose, Node.openingsAll_append, Node.openingsAll, Node.openingsAll,
        List.append_nil, List.append_assoc]

end Rules

theorem spans_datum (room : Nat) : Spans (datum room) := by
  induction room with
  | zero =>
    intro c ts n next _ h
    rw [datum] at h
    split at h <;> cases h
  | succ room ih =>
    intro c ts n next hc h
    rw [datum] at h
    cases hlist : list (datum room) c with
    | found m last =>
      rw [hlist] at h
      cases h
      exact list_spans ih hc hlist
    | tooDeep =>
      rw [hlist] at h
      cases h
    | absent =>
      cases hatom : atom c with
      | none =>
        simp only [hlist, hatom] at h
        cases h
      | some r =>
        simp only [hlist, hatom] at h
        cases h
        exact atom_spans hc hatom

/-- The lists of a parse begin at the places that the scan finds. -/
theorem openings_of_parse {room : Nat} {text : List Char} {ns : List Node}
    (h : parse room text = .ok ns) :
    Node.openingsAll ns = (openings text).map .ofPosition := by
  unfold parse program at h
  split at h
  case h_2 => cases h
  case h_1 nodes last hmany =>
  split at h
  case isFalse => cases h
  case isTrue hdone =>
  cases h
  obtain ⟨hahead, -⟩ := many_spans (spans_datum room) (faces_gap _) hmany
  have hend : ahead last = [] := by
    rw [ahead, List.isEmpty_iff.mp hdone]
    rfl
  rw [ahead_gap, hend, List.append_nil] at hahead
  exact hahead.symm

end Grammar

end Vau
