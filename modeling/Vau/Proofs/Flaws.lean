import Vau.Printer
import Vau.Proofs.Literal

/-! Flaws of string literals. The scanner of literals takes a backslash together with whatever comes
after it, while decoding knows some escapes only. Both find the same end of a literal all the same,
and decoding refuses it for the leftmost of its flaws. -/

namespace Vau

open Grammar

namespace Grammar

variable {c : Char} {x more rest : List Char}

theorem literalBody_plain (hquote : c ≠ '"') (hslash : c ≠ '\\') :
    LiteralBody (c :: x) ↔ LiteralBody x := by
  refine ⟨fun h => ?_, fun h => .plain hquote hslash h⟩
  cases h with
  | close => exact absurd rfl hquote
  | escape => exact absurd rfl hslash
  | plain _ _ h => exact h

theorem literalBody_escape (hc : c ≠ '\n') : LiteralBody ('\\' :: c :: x) ↔ LiteralBody x := by
  refine ⟨fun h => ?_, fun h => .escape hc h⟩
  cases h with
  | escape _ h => exact h
  | plain _ hslash => exact absurd rfl hslash

/-- A character that neither ends a literal nor escapes the next one is in the literal. -/
theorem LiteralBody.uncons (h : LiteralBody x) (hquote : c ≠ '"') (hslash : c ≠ '\\')
    (hx : x ++ more = c :: rest) : ∃ y, x = c :: y ∧ LiteralBody y ∧ y ++ more = rest := by
  cases x with
  | nil => cases h
  | cons d y =>
    obtain ⟨rfl, hrest⟩ := List.cons.inj hx
    exact ⟨y, rfl, (literalBody_plain hquote hslash).mp h, hrest⟩

theorem literalBody_of_string {literal : List Char} (h : string x = some (literal, rest)) :
    ∃ body, LiteralBody body ∧ x = '"' :: (body ++ rest) ∧ literal = '"' :: body := by
  unfold string at h
  split at h
  case h_2 => cases h
  case h_1 tail =>
  obtain ⟨⟨body, rest'⟩, hbody, he⟩ := Option.map_eq_some_iff.mp h
  cases he
  obtain ⟨hliteral, rfl⟩ := stringBody_iff.mp hbody
  exact ⟨body, hliteral, rfl, rfl⟩

end Grammar

namespace Quoted

/-- Up to here whole characters and escapes of a literal have been taken. -/
def Whole (before : List Char) : Prop := LiteralBody (before ++ ['"'])

def HexDigit (c : Char) : Prop :=
  '0' ≤ c ∧ c ≤ '9' ∨ 'a' ≤ c ∧ c ≤ 'f' ∨ 'A' ≤ c ∧ c ≤ 'F'

instance (c : Char) : Decidable (HexDigit c) := inferInstanceAs (Decidable (_ ∨ _))

/-- Four hexadecimal digits come next. -/
def FourDigits (text : List Char) : Prop :=
  ∃ ds rest, text = ds ++ rest ∧ ds.length = 4 ∧ ∀ d ∈ ds, HexDigit d

/-- The characters that may come after a backslash in a literal. -/
def escapes : List Char := ['"', '\\', '/', 'b', 'f', 'n', 'r', 't', 'u']

end Quoted

/-- What comes next may not be in a literal. -/
inductive Flaw.Begins : Flaw → List Char → Prop
  | control {c : Char} {rest : List Char} (h : c.toNat < 0x20) : Begins .control (c :: rest)
  | escape {c : Char} {rest : List Char} (h : c ∉ Quoted.escapes) :
    Begins .escape ('\\' :: c :: rest)
  | unicode {rest : List Char} (h : ¬ Quoted.FourDigits rest) :
    Begins .unicode ('\\' :: 'u' :: rest)

namespace Quoted

/-- The literal has the flaw where the text before it ends. -/
def FlawAt (body before : List Char) (flaw : Flaw) : Prop :=
  ∃ rest, body = before ++ rest ∧ Whole before ∧ flaw.Begins rest

/-- Every other flaw of the literal is farther to the right. -/
def LeftmostAt (body before : List Char) (flaw : Flaw) : Prop :=
  FlawAt body before flaw ∧ ∀ before' flaw', FlawAt body before' flaw' →
    before' = before ∧ flaw' = flaw ∨ before.length < before'.length

section Escapes

variable {c : Char} {rest x more : List Char} {flaw : Flaw}

theorem hexValue?_isSome : (hexValue? c).isSome = true ↔ HexDigit c := by
  unfold hexValue? HexDigit
  repeat' split
  all_goals simp_all

theorem unit?_isSome {a b c d : Char} :
    (unit? a b c d).isSome = true ↔ ∀ x ∈ [a, b, c, d], HexDigit x := by
  simp only [← hexValue?_isSome, List.forall_mem_cons, unit?]
  cases hexValue? a <;> cases hexValue? b <;> cases hexValue? c <;> cases hexValue? d <;> simp

theorem plain_of_hexDigit (h : HexDigit c) : c ≠ '"' ∧ c ≠ '\\' ∧ ¬ c.toNat < 0x20 := by
  refine ⟨?_, ?_, ?_⟩
  · rintro rfl
    revert h
    decide
  · rintro rfl
    revert h
    decide
  · intro hc
    have hle : ∀ d : Char, d ≤ c ↔ d.toNat ≤ c.toNat := fun d => Iff.rfl
    simp only [HexDigit, hle] at h
    have hdigits : '0'.toNat = 48 ∧ 'a'.toNat = 97 ∧ 'A'.toNat = 65 := by decide
    omega

theorem escaped?_eq_none (hu : c ≠ 'u') : escaped? c = none ↔ c ∉ escapes := by
  unfold escaped? escapes
  simp only [List.mem_cons, List.not_mem_nil, or_false, hu]
  repeat' split
  all_goals simp_all

/-- Digits that come next in a literal are all in it, since none of them ends it. -/
theorem digits_inside {ds : List Char} (hds : ∀ d ∈ ds, HexDigit d) (hx : LiteralBody x)
    (htext : x ++ more = ds ++ rest) : ∃ y, x = ds ++ y ∧ LiteralBody y := by
  induction ds generalizing x with
  | nil => exact ⟨x, rfl, hx⟩
  | cons d ds ih =>
    obtain ⟨hd, hds⟩ := List.forall_mem_cons.mp hds
    obtain ⟨hquote, hslash, -⟩ := plain_of_hexDigit hd
    obtain ⟨x', rfl, hx', htext⟩ := hx.uncons hquote hslash htext
    obtain ⟨y, rfl, hy⟩ := ih hds hx' htext
    exact ⟨y, rfl, hy⟩

theorem decodeBody_unicode (h : ¬ FourDigits rest) :
    decodeBody ('\\' :: 'u' :: rest) = .error .unicode := by
  rcases rest with _ | ⟨a, _ | ⟨b, _ | ⟨c, _ | ⟨d, rest⟩⟩⟩⟩
  case cons.cons.cons.cons =>
    have hnone : unit? a b c d = none := by
      rw [← Option.not_isSome_iff_eq_none, unit?_isSome]
      exact fun hdigits => h ⟨[a, b, c, d], rest, rfl, rfl, hdigits⟩
    rw [decodeBody, hnone]
  all_goals rfl

theorem decodeBody_unit {a b c d : Char} {u : Nat} (hu : unit? a b c d = some u)
    (hrest : rest ≠ []) : decodeBody ('\\' :: 'u' :: a :: b :: c :: d :: rest) =
      prepend (.unit u) (decodeBody rest) := by
  have hmore : rest.isEmpty = false := by simpa using hrest
  simp only [decodeBody, hu, hmore, Bool.false_eq_true, if_false]

theorem decodeBody_escape {e : Char} (hu : c ≠ 'u') (he : escaped? c = some e) :
    decodeBody ('\\' :: c :: rest) = prepend (.char e) (decodeBody rest) := by
  rw [decodeBody, he]
  all_goals simp_all

theorem decodeBody_unknown (hu : c ≠ 'u') (he : escaped? c = none) :
    decodeBody ('\\' :: c :: rest) = .error .escape := by
  rw [decodeBody, he]
  all_goals simp_all

theorem decodeBody_plain (hquote : c ≠ '"') (hslash : c ≠ '\\') : decodeBody (c :: rest) =
    if c.toNat < 0x20 then .error .control else prepend (.char c) (decodeBody rest) := by
  rw [decodeBody]
  all_goals simp_all

end Escapes

section Places

variable {c : Char} {x y before : List Char} {flaw flaw' : Flaw}

theorem Begins.unique (h : flaw.Begins x) (h' : flaw'.Begins x) : flaw = flaw' := by
  have hslash : ¬ '\\'.toNat < 0x20 := by decide
  have hu : ¬ 'u' ∉ escapes := by decide
  cases h with
  | control h =>
    cases h' with
    | control => rfl
    | escape | unicode => exact absurd h hslash
  | escape h =>
    cases h' with
    | control h' => exact absurd h' hslash
    | escape => rfl
    | unicode => exact absurd h hu
  | unicode h =>
    cases h' with
    | control h' => exact absurd h' hslash
    | escape h' => exact absurd h' hu
    | unicode => rfl

theorem flawAt_nil : FlawAt x [] flaw ↔ flaw.Begins x := by
  constructor
  · rintro ⟨rest, rfl, -, hbegins⟩
    exact hbegins
  · exact fun hbegins => ⟨x, rfl, .close, hbegins⟩

theorem not_flawAt_close : ¬ FlawAt ['"'] before flaw := by
  rintro ⟨rest, hx, -, hbegins⟩
  have hrest : rest <:+ ['"'] := ⟨before, hx.symm⟩
  rcases List.suffix_cons_iff.mp hrest with rfl | hnil
  · cases hbegins with
    | control h => exact absurd h (by decide)
  · rw [List.suffix_nil] at hnil
    subst hnil
    cases hbegins

theorem flawAt_plain (hquote : c ≠ '"') (hslash : c ≠ '\\') : FlawAt (c :: x) before flaw ↔
    before = [] ∧ flaw.Begins (c :: x) ∨
      ∃ before', before = c :: before' ∧ FlawAt x before' flaw := by
  cases before with
  | nil => simp [flawAt_nil]
  | cons b before =>
    constructor
    · rintro ⟨rest, hx, hbefore, hbegins⟩
      obtain ⟨rfl, hrest⟩ := List.cons.inj hx
      exact .inr ⟨before, rfl, rest, hrest, (literalBody_plain hquote hslash).mp hbefore, hbegins⟩
    · rintro (⟨hnil, -⟩ | ⟨before', hb, rest, rfl, hbefore, hbegins⟩)
      · cases hnil
      · cases hb
        exact ⟨rest, rfl, (literalBody_plain hquote hslash).mpr hbefore, hbegins⟩

theorem flawAt_escape (hc : c ≠ '\n') : FlawAt ('\\' :: c :: x) before flaw ↔
    before = [] ∧ flaw.Begins ('\\' :: c :: x) ∨
      ∃ before', before = '\\' :: c :: before' ∧ FlawAt x before' flaw := by
  rcases before with _ | ⟨b, _ | ⟨d, before⟩⟩
  · simp [flawAt_nil]
  · -- a literal does not end between a backslash and what it escapes
    have hhalf : ¬ FlawAt ('\\' :: c :: x) [b] flaw := by
      rintro ⟨rest, hx, hbefore, -⟩
      obtain ⟨rfl, -⟩ := List.cons.inj hx
      have hnil : LiteralBody [] := (literalBody_escape (by decide)).mp hbefore
      cases hnil
    simp [hhalf]
  · constructor
    · rintro ⟨rest, hx, hbefore, hbegins⟩
      obtain ⟨hb, hafter⟩ := List.cons.inj hx
      obtain ⟨rfl, hrest⟩ := List.cons.inj hafter
      subst hb
      exact .inr ⟨before, rfl, rest, hrest, (literalBody_escape hc).mp hbefore, hbegins⟩
    · rintro (⟨hnil, -⟩ | ⟨before', hb, rest, rfl, hbefore, hbegins⟩)
      · cases hnil
      · cases hb
        exact ⟨rest, rfl, (literalBody_escape hc).mpr hbefore, hbegins⟩

end Places

section Decoding

variable {c : Char} {x y u v : List Char} {p : Piece} {flaw : Flaw}

/-- Decoding ends where the literal does, or refuses it for its leftmost flaw, whatever follows. -/
def Judged (x : List Char) : Prop :=
  (∃ ps, (∀ more, decodeBody (x ++ more) = .ok (ps, more)) ∧
    ∀ before flaw, ¬ FlawAt x before flaw) ∨
  ∃ flaw before, (∀ more, decodeBody (x ++ more) = .error flaw) ∧ LeftmostAt x before flaw

/-- Whatever flaws there are come after the part `u`. -/
def Clean (u y : List Char) : Prop :=
  ∀ before flaw, FlawAt (u ++ y) before flaw ↔
    ∃ before', before = u ++ before' ∧ FlawAt y before' flaw

theorem Clean.append (h : Clean u (v ++ y)) (h' : Clean v y) : Clean (u ++ v) y := by
  intro before flaw
  rw [List.append_assoc, h]
  constructor
  · rintro ⟨between, rfl, hflaw⟩
    obtain ⟨before', rfl, hlater⟩ := (h' between flaw).mp hflaw
    exact ⟨before', (List.append_assoc u v before').symm, hlater⟩
  · rintro ⟨before', rfl, hflaw⟩
    exact ⟨v ++ before', List.append_assoc u v before', (h' _ flaw).mpr ⟨before', rfl, hflaw⟩⟩

theorem clean_plain (hquote : c ≠ '"') (hslash : c ≠ '\\') (hc : ¬ c.toNat < 0x20) :
    Clean [c] y := by
  intro before flaw
  refine (flawAt_plain hquote hslash).trans ⟨fun h => h.resolve_left ?_, .inr⟩
  rintro ⟨-, hbegins⟩
  cases hbegins with
  | control h => exact hc h
  | escape | unicode => exact hslash rfl

theorem clean_digits {ds : List Char} (hds : ∀ d ∈ ds, HexDigit d) : Clean ds y := by
  induction ds with
  | nil => exact fun before flaw => by simp
  | cons d ds ih =>
    obtain ⟨hd, hds⟩ := List.forall_mem_cons.mp hds
    obtain ⟨hquote, hslash, hcontrol⟩ := plain_of_hexDigit hd
    exact (clean_plain hquote hslash hcontrol).append (ih hds)

theorem clean_escape (hc : c ∈ escapes) (hu : c = 'u' → FourDigits y) : Clean ['\\', c] y := by
  have hnewline : c ≠ '\n' := by
    rintro rfl
    revert hc
    decide
  intro before flaw
  refine (flawAt_escape hnewline).trans ⟨fun h => h.resolve_left ?_, .inr⟩
  rintro ⟨-, hbegins⟩
  cases hbegins with
  | control h => exact absurd h (by decide)
  | escape h => exact h hc
  | unicode h => exact h (hu rfl)

theorem Judged.after (h : Judged y) (hclean : Clean u y)
    (hdecode : ∀ more, decodeBody (u ++ (y ++ more)) = prepend p (decodeBody (y ++ more))) :
    Judged (u ++ y) := by
  rcases h with ⟨ps, hps, hnone⟩ | ⟨flaw, before, herror, hflaw, hleft⟩
  · refine .inl ⟨p :: ps, fun more => ?_, fun before flaw h => ?_⟩
    · rw [List.append_assoc, hdecode, hps]
      rfl
    · obtain ⟨before', -, h⟩ := (hclean before flaw).mp h
      exact hnone before' flaw h
  · refine .inr ⟨flaw, u ++ before, fun more => ?_, (hclean _ _).mpr ⟨before, rfl, hflaw⟩, ?_⟩
    · rw [List.append_assoc, hdecode, herror]
      rfl
    · intro before' flaw' h
      obtain ⟨after, rfl, hafter⟩ := (hclean before' flaw').mp h
      rcases hleft after flaw' hafter with ⟨rfl, rfl⟩ | hless
      · exact .inl ⟨rfl, rfl⟩
      · exact .inr (by simpa using hless)

theorem judged_of_begins (h : flaw.Begins x)
    (hdecode : ∀ more, decodeBody (x ++ more) = .error flaw) : Judged x := by
  refine .inr ⟨flaw, [], hdecode, flawAt_nil.mpr h, fun before' flaw' h' => ?_⟩
  cases before' with
  | nil => exact .inl ⟨rfl, (Begins.unique (flawAt_nil.mp h') h)⟩
  | cons b before' => exact .inr (by simp)

theorem judged_unit {ds : List Char} (hlength : ds.length = 4) (hds : ∀ d ∈ ds, HexDigit d)
    (hy : LiteralBody y) (h : Judged y) : Judged ('\\' :: 'u' :: (ds ++ y)) := by
  have hclean : Clean (['\\', 'u'] ++ ds) y :=
    (clean_escape (by decide) fun _ => ⟨ds, y, rfl, hlength, hds⟩).append (clean_digits hds)
  have hne : y ≠ [] := by
    rintro rfl
    cases hy
  obtain ⟨a, b, c, d, rfl⟩ : ∃ a b c d, ds = [a, b, c, d] := by
    rcases ds with _ | ⟨a, _ | ⟨b, _ | ⟨c, _ | ⟨d, _ | ⟨e, ds⟩⟩⟩⟩⟩ <;> simp at hlength
    exact ⟨a, b, c, d, rfl⟩
  obtain ⟨n, hn⟩ := Option.isSome_iff_exists.mp (unit?_isSome.mpr hds)
  exact h.after hclean (p := .unit n) fun more =>
    decodeBody_unit hn (List.append_ne_nil_of_left_ne_nil hne more)

/-- The induction is on the length, since decoding takes an escape of four digits at once, and the
scanner its backslash and each digit. -/
theorem judged {x : List Char} (hx : LiteralBody x) : Judged x := by
  induction hlength : x.length using Nat.strongRecOn generalizing x with
  | ind n ih =>
    subst hlength
    cases hx with
    | close => exact .inl ⟨[], fun more => rfl, fun _ _ => not_flawAt_close⟩
    | @escape c y hc hy =>
      by_cases hu : c = 'u'
      · subst hu
        by_cases hfour : FourDigits y
        · obtain ⟨ds, z, rfl, hlength, hds⟩ := hfour
          obtain ⟨z', hz, hz'⟩ := digits_inside hds hy (List.append_nil _)
          obtain rfl := List.append_cancel_left hz
          have hlt : z.length < ('\\' :: 'u' :: (ds ++ z)).length := by
            rw [List.length_cons, List.length_cons, List.length_append]
            omega
          exact judged_unit hlength hds hz' (ih z.length hlt hz' rfl)
        · refine judged_of_begins (.unicode hfour) fun more => decodeBody_unicode fun h => hfour ?_
          obtain ⟨ds, rest, htext, hlength, hds⟩ := h
          obtain ⟨z, rfl, -⟩ := digits_inside hds hy htext
          exact ⟨ds, z, rfl, hlength, hds⟩
      · cases he : escaped? c with
        | none =>
          exact judged_of_begins (.escape ((escaped?_eq_none hu).mp he)) fun more =>
            decodeBody_unknown hu he
        | some e =>
          have hmem : c ∈ escapes := by
            have hsome : ¬ escaped? c = none := by simp [he]
            exact Decidable.not_not.mp (mt (escaped?_eq_none hu).mpr hsome)
          have hlt : y.length < ('\\' :: c :: y).length :=
            Nat.lt_trans (Nat.lt_succ_self _) (Nat.lt_succ_self _)
          exact (ih y.length hlt hy rfl).after (clean_escape hmem fun h => absurd h hu) fun more =>
            decodeBody_escape hu he
    | @plain c y hquote hslash hy =>
      by_cases hc : c.toNat < 0x20
      · exact judged_of_begins (.control hc) fun more =>
          (decodeBody_plain hquote hslash).trans (if_pos hc)
      · have hrest : Judged y := ih y.length (Nat.lt_succ_self _) hy rfl
        exact hrest.after (clean_plain hquote hslash hc) fun more =>
          (decodeBody_plain hquote hslash).trans (if_neg hc)

theorem decode_of_ok {ps : List Piece} (h : decodeBody x = .ok (ps, [])) :
    decode ('"' :: x) = .ok (assemble ps) := by
  have hquote : isPadding '"' = false := by decide
  simp only [decode, List.dropWhile_cons, hquote, Bool.false_eq_true, if_false, h]
  rfl

theorem decode_of_error (h : decodeBody x = .error flaw) : decode ('"' :: x) = .error flaw := by
  have hquote : isPadding '"' = false := by decide
  simp only [decode, List.dropWhile_cons, hquote, Bool.false_eq_true, if_false, h]

end Decoding

end Quoted

open Quoted

/-- Wherever the scanner finds a literal, decoding finds the same end and no flaw, or it refuses the
literal for the leftmost of its flaws. What is printed for a string is a literal, whatever follows,
and decodes to the string. -/
theorem literal_agreement :
    (∀ cs literal rest, Grammar.string cs = some (literal, rest) →
      ∃ body, cs = '"' :: (body ++ rest) ∧ literal = '"' :: body ∧
        ((∃ ps, decodeBody (body ++ rest) = .ok (ps, rest) ∧ decode literal = .ok (assemble ps) ∧
            ∀ before flaw, ¬ FlawAt body before flaw) ∨
          ∃ flaw before, decode literal = .error flaw ∧
            (flaw = .control ∨ flaw = .escape ∨ flaw = .unicode) ∧
            LeftmostAt body before flaw)) ∧
    ∀ (s : Store) (text : String) (rest : List Char), ∃ literal,
      s.print .plain (.str text) = .ok literal ∧
      Grammar.string (literal.toList ++ rest) = some (literal.toList, rest) ∧
      decode literal.toList = .ok text.toList := by
  refine ⟨fun cs literal rest h => ?_, fun s text rest => ?_⟩
  · obtain ⟨body, hbody, rfl, rfl⟩ := literalBody_of_string h
    refine ⟨body, rfl, rfl, ?_⟩
    rcases judged hbody with ⟨ps, hps, hnone⟩ | ⟨flaw, before, herror, hflaw⟩
    · have hall := hps []
      rw [List.append_nil] at hall
      exact .inl ⟨ps, hps rest, decode_of_ok hall, hnone⟩
    · have hall := herror []
      rw [List.append_nil] at hall
      refine .inr ⟨flaw, before, decode_of_error hall, ?_, hflaw⟩
      obtain ⟨⟨_, -, -, hbegins⟩, -⟩ := hflaw
      cases hbegins <;> simp
  · refine ⟨String.ofList (encode text.toList), rfl, ?_, ?_⟩
    · rw [String.toList_ofList]
      exact string_encode text.toList rest
    · rw [String.toList_ofList]
      exact decode_encode text.toList

/-- The body of a literal: a backslash, a character in hexadecimal and another one cut short. -/
def shortBody : List Char := "\\\\\\u00e9\\u12\"".toList

/-- The digits after the literal are no part of it. -/
theorem literal_agreement_short :
    Grammar.string ('"' :: (shortBody ++ ['3', '4', '"'])) =
      some ('"' :: shortBody, ['3', '4', '"']) ∧
    decode ('"' :: shortBody) = .error .unicode ∧
    ∃ before, LeftmostAt shortBody before .unicode := by
  have hstring : Grammar.string ('"' :: (shortBody ++ ['3', '4', '"'])) =
      some ('"' :: shortBody, ['3', '4', '"']) := by decide
  have hdecode : decode ('"' :: shortBody) = .error .unicode := rfl
  obtain ⟨body, -, hbody, ⟨ps, -, hps, -⟩ | ⟨flaw, before, hflaw, -, hleft⟩⟩ :=
    literal_agreement.1 _ _ _ hstring
  · rw [hdecode] at hps
    cases hps
  · obtain rfl := (List.cons.inj hbody).2
    obtain rfl := Except.error.inj (hflaw.symm.trans hdecode)
    exact ⟨hstring, hdecode, before, hleft⟩

end Vau
