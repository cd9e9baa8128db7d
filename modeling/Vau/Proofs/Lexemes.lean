import Vau.Proofs.Tokens

/-! Lexemes. A text splits into gaps, parentheses, string literals and words in at most one way,
and a word is an atom of some kind, the dot, or nothing that can be read. -/

namespace Vau

open Token

namespace Grammar

/-- The text is made of the tokens with gaps between them. A comment goes up to the end of its
line, and a word up to a delimiter or the end of the text. -/
inductive Splits : List Char → List Token → Prop
  | done : Splits [] []
  | blank {c : Char} {text : List Char} {ts : List Token} (hc : isBlank c = true)
    (h : Splits text ts) : Splits (c :: text) ts
  | comment {note text : List Char} {ts : List Token} (hnote : '\n' ∉ note)
    (hend : text = [] ∨ text.head? = some '\n') (h : Splits text ts) :
    Splits (';' :: (note ++ text)) ts
  | opening {text : List Char} {ts : List Token} (h : Splits text ts) :
    Splits ('(' :: text) (.opening :: ts)
  | closing {text : List Char} {ts : List Token} (h : Splits text ts) :
    Splits (')' :: text) (.closing :: ts)
  | literal {x text : List Char} {ts : List Token} (hx : LiteralBody x) (h : Splits text ts) :
    Splits ('"' :: (x ++ text)) (.literal ('"' :: x) :: ts)
  | word {x text : List Char} {ts : List Token} (hx : IsWord x) (hend : atBoundary text = true)
    (h : Splits text ts) : Splits (x ++ text) (.word x :: ts)

theorem tokens_blank {c : Char} (hc : isBlank c = true) (text : List Char) :
    tokens (c :: text) = tokens text := by
  rw [tokens_cons, Mode.enter, if_pos hc]
  rfl

theorem tokens_comment {note text : List Char} (hnote : '\n' ∉ note)
    (hend : text = [] ∨ text.head? = some '\n') : tokens (';' :: (note ++ text)) = tokens text := by
  have hscan : scan .comment (note ++ text) = tokens text := by
    induction note with
    | nil =>
      rcases hend with rfl | hhead
      · rfl
      · obtain ⟨rest, rfl⟩ := List.head?_eq_some_iff.mp hhead
        rfl
    | cons c note ih =>
      obtain ⟨hc, hnote⟩ := List.ne_and_not_mem_of_not_mem_cons hnote
      rw [List.cons_append, scan, Mode.step, if_neg hc.symm]
      exact ih hnote
  exact hscan

theorem tokens_literal {x : List Char} (hx : LiteralBody x) (text : List Char) :
    tokens ('"' :: (x ++ text)) = .literal ('"' :: x) :: tokens text := by
  have hscan : tokens ('"' :: (x ++ text)) = scan (.literal ['"']) (x ++ text) := rfl
  rw [hscan, scan_literal, hx.scanned]
  rfl

theorem Splits.tokens_eq {text : List Char} {ts : List Token} (h : Splits text ts) :
    tokens text = ts := by
  induction h with
  | done => rfl
  | blank hc _ ih => rw [tokens_blank hc, ih]
  | comment hnote hend _ ih => rw [tokens_comment hnote hend, ih]
  | opening _ ih => exact congrArg (Token.opening :: ·) ih
  | closing _ ih => exact congrArg (Token.closing :: ·) ih
  | literal hx _ ih => rw [tokens_literal hx, ih]
  | word hx hend _ ih => rw [tokens_word hx hend, ih]

theorem Splits.unbroken {text : List Char} {ts : List Token} (h : Splits text ts) :
    .broken ∉ ts := by
  induction h with
  | done => exact List.not_mem_nil
  | blank _ _ ih | comment _ _ _ ih => exact ih
  | opening _ ih | closing _ ih | literal _ _ ih | word _ _ _ ih => simpa using ih

/-- A text splits unless a string literal in it is not closed. -/
theorem splits_tokens {text : List Char} (h : .broken ∉ tokens text) :
    Splits text (tokens text) := by
  induction hlength : text.length using Nat.strongRecOn generalizing text with
  | ind k ih =>
  subst hlength
  have hafter : ∀ {rest : List Char}, rest.length < text.length → .broken ∉ tokens rest →
      Splits rest (tokens rest) := fun hlt hrest => ih _ hlt hrest rfl
  cases text with
  | nil => exact .done
  | cons c cs =>
    by_cases hblank : isBlank c = true
    · rw [tokens_blank hblank] at h ⊢
      exact .blank hblank (hafter (Nat.lt_succ_self _) h)
    by_cases hsemi : c = ';'
    · subst hsemi
      let inLine := fun d : Char => d != '\n'
      have hnote : '\n' ∉ cs.takeWhile inLine := fun hmem => by
        simpa [inLine] using List.all_eq_true.mp (List.all_takeWhile (p := inLine) (l := cs)) _ hmem
      have hend : cs.dropWhile inLine = [] ∨ (cs.dropWhile inLine).head? = some '\n' := by
        have hstop := List.head?_dropWhile_not inLine cs
        cases hrest : cs.dropWhile inLine with
        | nil => exact .inl rfl
        | cons d ds => exact .inr (by simpa [hrest, inLine] using hstop)
      have hle : (cs.dropWhile inLine).length ≤ cs.length := (List.dropWhile_sublist inLine).length_le
      rw [← List.takeWhile_append_dropWhile (p := inLine) (l := cs), tokens_comment hnote hend] at h ⊢
      exact .comment hnote hend (hafter (Nat.lt_succ_of_le hle) h)
    have hinked : Inked (c :: cs) := ⟨c, cs, rfl, by simpa using hblank, hsemi⟩
    have hfaces := hinked.faces
    generalize c :: cs = text, tokens (c :: cs) = ts at h hafter hfaces ⊢
    cases hfaces with
    | done => exact .done
    | opening rest => exact .opening (hafter (Nat.lt_succ_self _) (List.not_mem_of_not_mem_cons h))
    | closing rest => exact .closing (hafter (Nat.lt_succ_self _) (List.not_mem_of_not_mem_cons h))
    | @literal x rest hstring =>
      obtain ⟨⟨y, rest'⟩, hbody, he⟩ := Option.map_eq_some_iff.mp hstring
      cases he
      refine .literal (stringBody_iff.mp hbody).1 (hafter ?_ (List.not_mem_of_not_mem_cons h))
      simp only [List.length_cons, List.length_append]
      omega
    | broken => exact absurd List.mem_cons_self h
    | @word x rest hx hrest =>
      have hpos := List.length_pos_of_ne_nil hx.ne_nil
      refine .word hx hrest (hafter ?_ (List.not_mem_of_not_mem_cons h))
      simp only [List.length_append]
      omega

theorem splits_iff {text : List Char} {ts : List Token} :
    Splits text ts ↔ tokens text = ts ∧ .broken ∉ ts := by
  constructor
  · exact fun h => ⟨h.tokens_eq, h.unbroken⟩
  · rintro ⟨rfl, h⟩
    exact splits_tokens h

end Grammar

/-- What the grammar of data is about: parentheses, the dot, and atoms of some kind. -/
inductive Lexeme where
  | opening
  | closing
  | dot
  | atom (tag : Tag) (text : List Char)
deriving DecidableEq, Repr

namespace Grammar

theorem mem_of_kind? {x : List Char} {tag : Tag} (h : kind? x = some tag) :
    tag ∈ [Tag.integer, .boolean, .constant, .nil, .symbol] := by
  unfold kind? at h
  repeat' split at h
  all_goals
    cases h
    try decide

theorem ne_string_of_kind? {x : List Char} {tag : Tag} (h : kind? x = some tag) :
    tag ≠ .string := by
  rintro rfl
  exact absurd (mem_of_kind? h) (by decide)

/-- The lexeme that a token is, if it can be read. -/
def lexeme? : Token → Option Lexeme
  | .opening => some .opening
  | .closing => some .closing
  | .literal text => some (.atom .string text)
  | .word text => if text = ['.'] then some .dot else (kind? text).map fun tag => .atom tag text
  | .broken => none

def Lexes (text : List Char) (ls : List Lexeme) : Prop :=
  ∃ ts, Splits text ts ∧ ts.map lexeme? = ls.map some

end Grammar

namespace Lexeme

open Grammar

def token : Lexeme → Token
  | .opening => .opening
  | .closing => .closing
  | .dot => .word ['.']
  | .atom .string text => .literal text
  | .atom _ text => .word text

/-- The lexeme of a token. -/
def Valid (l : Lexeme) : Prop := lexeme? l.token = some l

instance : DecidablePred Valid := fun l => inferInstanceAs (Decidable (lexeme? l.token = some l))

theorem forall_valid_list {inner rest : List Lexeme} :
    (∀ l ∈ opening :: (inner ++ closing :: rest), l.Valid) ↔
      (∀ l ∈ inner, l.Valid) ∧ ∀ l ∈ rest, l.Valid := by
  have hopening : opening.Valid := rfl
  have hclosing : closing.Valid := rfl
  simp only [List.forall_mem_cons, List.forall_mem_append, hopening, hclosing, true_and]

theorem forall_valid_dotted {inner last rest : List Lexeme} :
    (∀ l ∈ opening :: (inner ++ dot :: (last ++ closing :: rest)), l.Valid) ↔
      (∀ l ∈ inner, l.Valid) ∧ (∀ l ∈ last, l.Valid) ∧ ∀ l ∈ rest, l.Valid := by
  have hopening : opening.Valid := rfl
  have hclosing : closing.Valid := rfl
  have hdot : dot.Valid := rfl
  simp only [List.forall_mem_cons, List.forall_mem_append, hopening, hclosing, hdot, true_and]

theorem token_atom {tag : Tag} (h : tag ≠ .string) (text : List Char) :
    (atom tag text).token = .word text := by
  cases tag with
  | string => exact absurd rfl h
  | _ => rfl

theorem token_of_lexeme? {t : Token} {l : Lexeme} (h : lexeme? t = some l) : l.token = t := by
  cases t with
  | opening | closing | literal text =>
    cases h
    rfl
  | broken => cases h
  | word text =>
    rw [lexeme?] at h
    split at h
    · rename_i hdot
      cases h
      rw [hdot]
      rfl
    · obtain ⟨tag, htag, rfl⟩ := Option.map_eq_some_iff.mp h
      exact token_atom (ne_string_of_kind? htag) text

theorem token_ne_broken (l : Lexeme) : l.token ≠ .broken := by
  cases l with
  | atom tag text => cases tag <;> exact Token.noConfusion
  | _ => exact Token.noConfusion

theorem Valid.kind {tag : Tag} {text : List Char} (h : (atom tag text).Valid) :
    tag = .string ∨ kind? text = some tag := by
  by_cases hstring : tag = .string
  · exact .inl hstring
  rw [Valid, token_atom hstring, lexeme?] at h
  split at h
  · cases h
  · obtain ⟨tag', htag, he⟩ := Option.map_eq_some_iff.mp h
    cases he
    exact .inr htag

theorem Valid.tag_mem {tag : Tag} {text : List Char} (h : (atom tag text).Valid) :
    tag ∈ [Tag.integer, .string, .boolean, .constant, .nil, .symbol] := by
  rcases h.kind with rfl | hkind
  · decide
  · have hmem := mem_of_kind? hkind
    simp only [List.mem_cons, List.not_mem_nil, or_false] at hmem ⊢
    rcases hmem with rfl | rfl | rfl | rfl | rfl <;> simp

end Lexeme

namespace Grammar

theorem lexes_iff {text : List Char} {ls : List Lexeme} :
    Lexes text ls ↔ tokens text = ls.map Lexeme.token ∧ ∀ l ∈ ls, l.Valid := by
  have htokens : ∀ {ts : List Token} {ls : List Lexeme}, ts.map lexeme? = ls.map some →
      ts = ls.map Lexeme.token ∧ ∀ l ∈ ls, l.Valid := by
    intro ts ls h
    induction ls generalizing ts with
    | nil => exact ⟨List.map_eq_nil_iff.mp h, fun _ hl => absurd hl List.not_mem_nil⟩
    | cons l ls ih =>
      obtain ⟨t, ts, rfl, ht, hts⟩ := List.map_eq_cons_iff.mp h
      obtain ⟨rfl, hvalid⟩ := ih hts
      have htoken := Lexeme.token_of_lexeme? ht
      subst htoken
      exact ⟨rfl, List.forall_mem_cons.mpr ⟨ht, hvalid⟩⟩
  constructor
  · rintro ⟨ts, hsplits, hlexemes⟩
    rw [hsplits.tokens_eq]
    exact htokens hlexemes
  · rintro ⟨heq, hvalid⟩
    refine ⟨ls.map Lexeme.token, splits_iff.mpr ⟨heq, fun hbroken => ?_⟩, ?_⟩
    · obtain ⟨l, -, hl⟩ := List.mem_map.mp hbroken
      exact l.token_ne_broken hl
    · rw [List.map_map]
      exact List.map_congr_left hvalid

theorem Lexes.unique {text : List Char} {ls ms : List Lexeme} (h : Lexes text ls)
    (h' : Lexes text ms) : ls = ms := by
  obtain ⟨ts, hsplits, hlexemes⟩ := h
  obtain ⟨ts', hsplits', hlexemes'⟩ := h'
  obtain rfl : ts = ts' := hsplits.tokens_eq.symm.trans hsplits'.tokens_eq
  exact List.map_injective_iff.mpr (fun _ _ => Option.some.inj) (hlexemes.symm.trans hlexemes')

end Grammar

end Vau
