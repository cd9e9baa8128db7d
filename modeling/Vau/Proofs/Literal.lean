import Vau.Reader.Grammar

/-! String literals. The literal written for a text ends where the scanner of literals says
it does, and decodes to the text. -/

namespace Vau

namespace Quoted

theorem hexDigit_plain (n : Nat) : hexDigit n ≠ '"' ∧ hexDigit n ≠ '\\' := by
  have h : ∀ k < 16, Nat.digitChar k ≠ '"' ∧ Nat.digitChar k ≠ '\\' := by decide
  exact h _ (Nat.mod_lt n (by decide))

theorem hexValue?_hexDigit (n : Nat) : hexValue? (hexDigit n) = some (n % 16) := by
  have h : ∀ k < 16, hexValue? (Nat.digitChar k) = some k := by decide
  exact h _ (Nat.mod_lt n (by decide))

theorem unit?_control {n : Nat} (h : n < 0x20) :
    unit? '0' '0' (hexDigit (n / 16)) (hexDigit n) = some n := by
  have hzero : hexValue? '0' = some 0 := by decide
  simp only [unit?, hzero, hexValue?_hexDigit]
  congr 1
  omega

/-- A character is written plainly, with a letter after a backslash, or in hexadecimal. -/
theorem encodeChar_cases (c : Char) :
    (encodeChar c = [c] ∧ c ≠ '"' ∧ c ≠ '\\' ∧ ¬ c.toNat < 0x20) ∨
    (∃ e, encodeChar c = ['\\', e] ∧ e ≠ 'u' ∧ e ≠ '\n' ∧ escaped? e = some c) ∨
    (encodeChar c = ['\\', 'u', '0', '0', hexDigit (c.toNat / 16), hexDigit c.toNat] ∧
      c.toNat < 0x20) := by
  unfold encodeChar
  by_cases hq : c = '"'
  · exact .inr (.inl ⟨'"', by simp [hq, escaped?]⟩)
  by_cases hb : c = '\\'
  · exact .inr (.inl ⟨'\\', by simp [hb, escaped?]⟩)
  by_cases hn : c = '\n'
  · exact .inr (.inl ⟨'n', by simp [hn, escaped?]⟩)
  by_cases hr : c = '\r'
  · exact .inr (.inl ⟨'r', by simp [hr, escaped?]⟩)
  by_cases ht : c = '\t'
  · exact .inr (.inl ⟨'t', by simp [ht, escaped?]⟩)
  by_cases h8 : c = '\x08'
  · exact .inr (.inl ⟨'b', by simp [h8, escaped?]⟩)
  by_cases hf : c = '\x0c'
  · exact .inr (.inl ⟨'f', by simp [hf, escaped?]⟩)
  simp only [if_neg hq, if_neg hb, if_neg hn, if_neg hr, if_neg ht, if_neg h8, if_neg hf]
  by_cases hc : c.toNat < 0x20
  · exact .inr (.inr ⟨by rw [if_pos hc], hc⟩)
  · exact .inl ⟨by rw [if_neg hc], hq, hb, hc⟩

theorem assemble_unit {u : Nat} (hu : u < 0xD800) (ps : List Piece) :
    assemble (.unit u :: ps) = Char.ofNat u :: assemble ps := by
  have hhigh : isHigh u = false := by simp [isHigh]; omega
  have hlow : isLow u = false := by simp [isLow]; omega
  have hsingle : single u = Char.ofNat u := by simp [single, hhigh, hlow]
  match ps with
  | [] | .char _ :: _ => simp [assemble, hsingle]
  | .unit _ :: _ => simp [assemble, hhigh, hsingle]

theorem decodeBody_encodeChar (c : Char) {rest : List Char} (hrest : rest ≠ []) :
    ∃ p, decodeBody (encodeChar c ++ rest) = prepend p (decodeBody rest) ∧
      ∀ ps, assemble (p :: ps) = c :: assemble ps := by
  rcases encodeChar_cases c with ⟨h, hq, hb, hc⟩ | ⟨e, h, hu, -, he⟩ | ⟨h, hc⟩
  · refine ⟨.char c, ?_, fun ps => by simp [assemble]⟩
    rw [h, List.singleton_append, decodeBody, if_neg hc]
    all_goals simp_all
  · refine ⟨.char c, ?_, fun ps => by simp [assemble]⟩
    obtain ⟨x, xs, rfl⟩ := List.exists_cons_of_ne_nil hrest
    rw [h, List.cons_append, List.singleton_append, decodeBody, he]
    all_goals simp_all
  · refine ⟨.unit c.toNat, ?_, fun ps => ?_⟩
    · simp [h, decodeBody, unit?_control hc, hrest]
    · rw [assemble_unit (by omega), Char.ofNat_toNat]

theorem decodeBody_encode (s : List Char) :
    ∃ ps, decodeBody (s.flatMap encodeChar ++ ['"']) = .ok (ps, []) ∧ assemble ps = s := by
  induction s with
  | nil => exact ⟨[], rfl, rfl⟩
  | cons c cs ih =>
    obtain ⟨ps, hps, has⟩ := ih
    obtain ⟨p, hp, hap⟩ := decodeBody_encodeChar c (List.append_ne_nil_of_right_ne_nil
      (cs.flatMap encodeChar) (List.cons_ne_nil '"' []))
    refine ⟨p :: ps, ?_, by rw [hap, has]⟩
    rw [List.flatMap_cons, List.append_assoc, hp, hps]
    rfl

theorem decode_encode (s : List Char) : decode (encode s) = .ok s := by
  obtain ⟨ps, hps, has⟩ := decodeBody_encode s
  have hpad : isPadding '"' = false := by decide
  simp only [decode, encode, List.dropWhile_cons, hpad, Bool.false_eq_true, if_false, hps]
  simp [has]

end Quoted

namespace Grammar

theorem stringBody_plain {c : Char} (hq : c ≠ '"') (hb : c ≠ '\\') (rest : List Char) :
    stringBody (c :: rest) = (stringBody rest).map fun r => (c :: r.1, r.2) := by
  rw [stringBody]
  all_goals simp_all

theorem stringBody_escape {c : Char} (hc : c ≠ '\n') (rest : List Char) :
    stringBody ('\\' :: c :: rest) =
      (stringBody rest).map fun r => ('\\' :: c :: r.1, r.2) := by
  rw [stringBody, if_neg hc]

theorem stringBody_encodeChar (c : Char) (rest : List Char) :
    stringBody (Quoted.encodeChar c ++ rest) =
      (stringBody rest).map fun r => (Quoted.encodeChar c ++ r.1, r.2) := by
  rcases Quoted.encodeChar_cases c with ⟨h, hq, hb, -⟩ | ⟨e, h, -, he, -⟩ | ⟨h, -⟩
  · simp [h, stringBody_plain hq hb]
  · simp [h, stringBody_escape he]
  · have hhigh := Quoted.hexDigit_plain (c.toNat / 16)
    have hlow := Quoted.hexDigit_plain c.toNat
    have hzero : ('0' ≠ '"') ∧ ('0' ≠ '\\') := by decide
    simp only [h, List.cons_append, List.nil_append, stringBody_escape (by decide : 'u' ≠ '\n'),
      stringBody_plain hzero.1 hzero.2, stringBody_plain hhigh.1 hhigh.2,
      stringBody_plain hlow.1 hlow.2]
    cases stringBody rest <;> rfl

theorem string_encode (s rest : List Char) :
    string (Quoted.encode s ++ rest) = some (Quoted.encode s, rest) := by
  have hbody : stringBody (s.flatMap Quoted.encodeChar ++ '"' :: rest) =
      some (s.flatMap Quoted.encodeChar ++ ['"'], rest) := by
    induction s with
    | nil => simp [stringBody]
    | cons c cs ih =>
      rw [List.flatMap_cons, List.append_assoc, stringBody_encodeChar, ih]
      simp
  simp [string, Quoted.encode, hbody]

/-- What follows the opening quote of a string literal, up to the quote that closes it. -/
inductive LiteralBody : List Char → Prop
  | close : LiteralBody ['"']
  | escape {c : Char} {x : List Char} (hc : c ≠ '\n') (h : LiteralBody x) :
    LiteralBody ('\\' :: c :: x)
  | plain {c : Char} {x : List Char} (hquote : c ≠ '"') (hslash : c ≠ '\\') (h : LiteralBody x) :
    LiteralBody (c :: x)

theorem LiteralBody.scanned {x : List Char} (h : LiteralBody x) (rest : List Char) :
    stringBody (x ++ rest) = some (x, rest) := by
  induction h with
  | close => rfl
  | escape hc _ ih =>
    rw [List.cons_append, List.cons_append, stringBody_escape hc, ih]
    rfl
  | plain hquote hslash _ ih =>
    rw [List.cons_append, stringBody_plain hquote hslash, ih]
    rfl

theorem stringBody_iff {cs x rest : List Char} :
    stringBody cs = some (x, rest) ↔ LiteralBody x ∧ cs = x ++ rest := by
  constructor
  · intro h
    induction cs using stringBody.induct generalizing x with
    | case1 | case3 | case4 => cases h
    | case2 =>
      cases h
      exact ⟨.close, rfl⟩
    | case5 c cs hc ih =>
      rw [stringBody_escape hc] at h
      obtain ⟨⟨y, rest'⟩, hr, he⟩ := Option.map_eq_some_iff.mp h
      cases he
      obtain ⟨hy, rfl⟩ := ih hr
      exact ⟨.escape hc hy, rfl⟩
    | case6 c cs hquote hend hnext ih =>
      have hslash : c ≠ '\\' := by
        rintro rfl
        cases cs with
        | nil => exact hend rfl rfl
        | cons d ds => exact hnext d ds rfl rfl
      rw [stringBody_plain hquote hslash] at h
      obtain ⟨⟨y, rest'⟩, hr, he⟩ := Option.map_eq_some_iff.mp h
      cases he
      obtain ⟨hy, rfl⟩ := ih hr
      exact ⟨.plain hquote hslash hy, rfl⟩
  · rintro ⟨hx, rfl⟩
    exact hx.scanned rest

end Grammar

end Vau
