import Vau.Proofs.Reading

/-! Tokens. A text is a sequence of parentheses, string literals and words, the dot being one,
with blanks and comments between them. Two texts with the same tokens differ in nothing but
their layout. -/

namespace Vau

inductive Token where
  | opening
  | closing
  /-- A string literal with its quotes. -/
  | literal (text : List Char)
  | word (text : List Char)
  /-- A string literal that is not closed. -/
  | broken
deriving DecidableEq, Repr

namespace Token

/-- Where a scan from left to right stands, with what it has seen of a token. -/
inductive Mode where
  | between
  | comment
  | word (seen : List Char)
  | literal (seen : List Char)
  | escape (seen : List Char)
  | broken
deriving DecidableEq, Repr

namespace Mode

/-- The token, if any, that a character is, and what it begins; no token is open before it. -/
def enter (c : Char) : List Token × Mode :=
  if isBlank c then ([], .between)
  else if c = ';' then ([], .comment)
  else if c = '(' then ([.opening], .between)
  else if c = ')' then ([.closing], .between)
  else if c = '"' then ([], .literal [c])
  else ([], .word [c])

/-- The tokens that end before or with a character, and where the scan goes on after it. -/
def step : Mode → Char → List Token × Mode
  | .between, c => enter c
  | .comment, c => ([], if c = '\n' then .between else .comment)
  | .word seen, c =>
    if isDelimiter c then (.word seen :: (enter c).1, (enter c).2) else ([], .word (seen ++ [c]))
  | .literal seen, c =>
    if c = '"' then ([.literal (seen ++ [c])], .between)
    else ([], if c = '\\' then .escape (seen ++ [c]) else .literal (seen ++ [c]))
  | .escape seen, c => ([], if c = '\n' then .broken else .literal (seen ++ [c]))
  | .broken, _ => ([], .broken)

/-- The token that is open where the text ends. -/
def last : Mode → List Token
  | .between => []
  | .comment => []
  | .word seen => [.word seen]
  | _ => [.broken]

end Mode

def scan (mode : Mode) : List Char → List Token
  | [] => mode.last
  | c :: cs => (mode.step c).1 ++ scan (mode.step c).2 cs

end Token

open Token

def tokens (text : List Char) : List Token := scan .between text

/-- The words `a` and `b` merge without the blank; a mark in a string begins no comment. -/
example : tokens "(a b . \"x;\") ; c".toList =
    [.opening, .word ['a'], .word ['b'], .word ['.'], .literal ['"', 'x', ';', '"'],
      .closing] := by decide

theorem tokens_cons (c : Char) (cs : List Char) :
    tokens (c :: cs) = (Mode.enter c).1 ++ scan (Mode.enter c).2 cs := rfl

theorem length_step (mode : Mode) (c : Char) :
    (mode.step c).1.length + (mode.step c).2.last.length ≤ mode.last.length + 1 := by
  have henter : (Mode.enter c).1.length + (Mode.enter c).2.last.length ≤ 1 := by
    unfold Mode.enter
    repeat' split
    all_goals simp [Mode.last]
  cases mode with
  | between => exact henter
  | comment =>
    simp only [Mode.step]
    split <;> simp [Mode.last]
  | word seen =>
    simp only [Mode.step]
    split
    · change (Mode.enter c).1.length + 1 + (Mode.enter c).2.last.length ≤ 1 + 1
      omega
    · simp [Mode.last]
  | literal seen =>
    simp only [Mode.step]
    repeat' split
    all_goals simp [Mode.last]
  | escape seen =>
    simp only [Mode.step]
    split <;> simp [Mode.last]
  | broken => simp [Mode.step, Mode.last]

theorem length_scan (mode : Mode) (cs : List Char) :
    (scan mode cs).length ≤ mode.last.length + cs.length := by
  induction cs generalizing mode with
  | nil => simp [scan]
  | cons c cs ih =>
    have hstep := length_step mode c
    have hrest := ih (mode.step c).2
    simp only [scan, List.length_append, List.length_cons]
    omega

/-- Every token takes a character or more. -/
theorem length_tokens (cs : List Char) : (tokens cs).length ≤ cs.length :=
  Nat.zero_add cs.length ▸ length_scan .between cs

namespace Grammar

theorem scan_skip (comment : Bool) (p : Position) (cs : List Char) :
    tokens (skip comment p cs).rest = scan (if comment then .comment else .between) cs := by
  induction cs generalizing comment p with
  | nil => cases comment <;> rfl
  | cons c cs ih =>
    cases comment with
    | true =>
      simp only [skip, if_true, ih, scan, Mode.step, List.nil_append]
      by_cases hc : c = '\n' <;> simp [hc]
    | false =>
      simp only [skip, if_false, Bool.false_eq_true]
      by_cases hc : c = ';'
      · have hblank : isBlank ';' = false := by decide
        subst hc
        simp [ih, scan, Mode.step, Mode.enter, hblank]
      · by_cases hb : isBlank c = true
        · simp [hc, hb, ih, scan, Mode.step, Mode.enter]
        · simp [hc, hb, tokens]

theorem tokens_gap (c : Cursor) : tokens (gap c).rest = tokens c.rest :=
  scan_skip false c.position c.rest

theorem skip_settles (comment : Bool) (p : Position) (cs : List Char) :
    (skip comment p cs).rest = [] ∨ Inked (skip comment p cs).rest := by
  induction cs generalizing comment p with
  | nil => exact .inl rfl
  | cons c cs ih =>
    cases comment with
    | true => exact ih _ _
    | false =>
      simp only [skip, if_false, Bool.false_eq_true]
      split
      · exact ih _ _
      · split
        · exact ih _ _
        · rename_i hsemi hblank
          exact .inr ⟨c, cs, rfl, by simpa using hblank, hsemi⟩

theorem scan_word (seen : List Char) {x rest : List Char} (hx : ∀ c ∈ x, isDelimiter c = false)
    (hrest : atBoundary rest = true) :
    scan (.word seen) (x ++ rest) = .word (seen ++ x) :: tokens rest := by
  induction x generalizing seen with
  | nil =>
    cases rest with
    | nil => simp [scan, Mode.last, tokens]
    | cons d ds =>
      have hd : isDelimiter d = true := hrest
      simp [scan, Mode.step, hd, tokens]
  | cons c cs ih =>
    obtain ⟨hc, hcs⟩ := List.forall_mem_cons.mp hx
    simp [scan, Mode.step, hc, ih _ hcs]

theorem tokens_word {x rest : List Char} (hx : IsWord x) (hrest : atBoundary rest = true) :
    tokens (x ++ rest) = .word x :: tokens rest := by
  obtain ⟨c, cs, rfl⟩ := List.exists_cons_of_ne_nil hx.ne_nil
  obtain ⟨hc, hcs⟩ := List.forall_mem_cons.mp hx.plain
  have henter : Mode.enter c = ([], .word [c]) := by
    simp only [isDelimiter, Bool.or_eq_false_iff, beq_eq_false_iff_ne] at hc
    simp [Mode.enter, hc]
  rw [List.cons_append, tokens_cons, henter]
  exact scan_word [c] hcs hrest

theorem scan_broken (cs : List Char) : scan .broken cs = [.broken] := by
  induction cs with
  | nil => rfl
  | cons c cs ih => exact ih

/-- A literal is scanned up to where its body ends, if it does. -/
theorem scan_literal (seen cs : List Char) :
    scan (.literal seen) cs =
      match stringBody cs with
      | some r => .literal (seen ++ r.1) :: tokens r.2
      | none => [.broken] := by
  induction cs using stringBody.induct generalizing seen with
  | case1 => rfl
  | case2 rest => rfl
  | case3 => rfl
  | case4 rest => exact scan_broken rest
  | case5 c rest hc ih =>
    have hstep : scan (.literal seen) ('\\' :: c :: rest) =
        scan (.literal (seen ++ ['\\'] ++ [c])) rest := by
      simp [scan, Mode.step, hc]
    rw [hstep, ih, stringBody_escape hc]
    cases stringBody rest <;> simp
  | case6 c rest hquote hend hnext ih =>
    have hslash : c ≠ '\\' := by
      rintro rfl
      cases rest with
      | nil => exact hend rfl rfl
      | cons d ds => exact hnext d ds rfl rfl
    have hstep : scan (.literal seen) (c :: rest) = scan (.literal (seen ++ [c])) rest := by
      simp [scan, Mode.step, show c ≠ '"' from hquote, hslash]
    rw [hstep, ih, stringBody_plain hquote hslash]
    cases stringBody rest <;> simp

/-- The text begins with the first of its tokens. -/
inductive Faces : List Char → List Token → Prop
  | done : Faces [] []
  | opening (rest : List Char) : Faces ('(' :: rest) (.opening :: tokens rest)
  | closing (rest : List Char) : Faces (')' :: rest) (.closing :: tokens rest)
  | literal {x rest : List Char} (h : string ('"' :: (x ++ rest)) = some ('"' :: x, rest)) :
    Faces ('"' :: (x ++ rest)) (.literal ('"' :: x) :: tokens rest)
  | broken {cs : List Char} (h : string ('"' :: cs) = none) : Faces ('"' :: cs) [.broken]
  | word {x rest : List Char} (hx : IsWord x) (hrest : atBoundary rest = true) :
    Faces (x ++ rest) (.word x :: tokens rest)

theorem Inked.faces {cs : List Char} (h : Inked cs) : Faces cs (tokens cs) := by
  obtain ⟨c, cs, rfl, hblank, hsemi⟩ := h
  by_cases hopen : c = '('
  · subst hopen
    exact .opening cs
  by_cases hclose : c = ')'
  · subst hclose
    exact .closing cs
  by_cases hquote : c = '"'
  · subst hquote
    have hscan : tokens ('"' :: cs) = scan (.literal ['"']) cs := rfl
    rw [hscan, scan_literal]
    cases hbody : stringBody cs with
    | none => exact .broken (by simp [string, hbody])
    | some r =>
      obtain ⟨x, rest⟩ := r
      obtain rfl := (stringBody_iff.mp hbody).2
      exact .literal (by simp [string, hbody])
  have hplain : isDelimiter c = false := by simp [isDelimiter, hblank, hopen, hclose, hquote, hsemi]
  let isPlain := fun d => !isDelimiter d
  have hword : IsWord (c :: cs.takeWhile isPlain) := by
    refine ⟨List.cons_ne_nil _ _, List.forall_mem_cons.mpr ⟨hplain, fun d hd => ?_⟩⟩
    have hall := List.all_takeWhile (p := isPlain) (l := cs)
    simpa [isPlain] using List.all_eq_true.mp hall d hd
  have hrest : atBoundary (cs.dropWhile isPlain) = true := by
    have hstop := List.head?_dropWhile_not isPlain cs
    cases hr : cs.dropWhile isPlain with
    | nil => rfl
    | cons d ds => simpa [hr, isPlain, atBoundary] using hstop
  have hsplit : c :: cs = (c :: cs.takeWhile isPlain) ++ cs.dropWhile isPlain := by simp
  rw [hsplit, tokens_word hword hrest]
  exact .word hword hrest

/-- After a gap a text begins with the first of its tokens. -/
theorem faces_gap (c : Cursor) : Faces (gap c).rest (tokens c.rest) := by
  have hsettled : (gap c).rest = [] ∨ Inked (gap c).rest := skip_settles false c.position c.rest
  rw [← tokens_gap c]
  rcases hsettled with h | h
  · rw [h]
    exact .done
  · exact h.faces

theorem Faces.length_le {cs : List Char} {ts : List Token} (h : Faces cs ts) :
    ts.length ≤ cs.length := by
  cases h with
  | done => exact Nat.le_refl 0
  | opening rest | closing rest => exact Nat.succ_le_succ (length_tokens rest)
  | @literal x rest _ =>
    have hrest := length_tokens rest
    simp only [List.length_cons, List.length_append]
    omega
  | broken => simp
  | @word x rest hx hrest =>
    have hpos := List.length_pos_of_ne_nil hx.ne_nil
    have hrest := length_tokens rest
    simp only [List.length_cons, List.length_append]
    omega

end Grammar

end Vau
