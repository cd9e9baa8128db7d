import Vau.Proofs.Written

/-! Printing within a width. The text of a list is given up at elements beyond the width and at
lists nested deeper than it, and what is put there lies outside the part that is shown: the
shown text is the whole text, cut once. -/

namespace Vau

/-- Two texts that are the same, or that go on differently beyond their first `k` characters. -/
def SameFor (k : Nat) (a b : List Char) : Prop :=
  b = a ∨ k < a.length ∧ k < b.length ∧ b.take k = a.take k

namespace SameFor

variable {k k' : Nat} {a b x y : List Char}

theorem refl (k : Nat) (a : List Char) : SameFor k a a := .inl rfl

theorem mono (h : SameFor k a b) (hk : k' ≤ k) : SameFor k' a b := by
  rcases h with rfl | ⟨ha, hb, hsame⟩
  · exact .refl k' b
  · refine .inr ⟨Nat.lt_of_le_of_lt hk ha, Nat.lt_of_le_of_lt hk hb, ?_⟩
    have htake := congrArg (List.take k') hsame
    rwa [List.take_take, List.take_take, Nat.min_eq_left hk] at htake

/-- Texts that differ within a longer one leave it no part to tell them apart by. -/
theorem zero (ha : a ≠ []) (hb : b ≠ []) : SameFor 0 a b :=
  .inr ⟨List.length_pos_iff.mpr ha, List.length_pos_iff.mpr hb, rfl⟩

theorem prepend (p : List Char) (h : SameFor (k - p.length) x y) :
    SameFor k (p ++ x) (p ++ y) := by
  rcases h with rfl | ⟨hx, hy, hsame⟩
  · exact .refl k _
  · refine .inr ⟨?_, ?_, ?_⟩
    · rw [List.length_append]
      omega
    · rw [List.length_append]
      omega
    · rw [List.take_append, List.take_append, hsame]

/-- What follows texts that differ does not matter. -/
theorem append_of_ne (h : SameFor k a b) (hne : b ≠ a) : SameFor k (a ++ x) (b ++ y) := by
  obtain ⟨ha, hb, hsame⟩ := h.resolve_left hne
  refine .inr ⟨?_, ?_, ?_⟩
  · rw [List.length_append]
    omega
  · rw [List.length_append]
    omega
  · rw [List.take_append_of_le_length (Nat.le_of_lt ha),
      List.take_append_of_le_length (Nat.le_of_lt hb), hsame]

theorem replace_head {c d : Char} (h : SameFor k (c :: a) (c :: b)) :
    SameFor k (d :: a) (d :: b) := by
  rcases h with h | ⟨ha, hb, hsame⟩
  · rw [(List.cons.inj h).2]
    exact .refl k _
  · refine .inr ⟨ha, hb, ?_⟩
    cases k with
    | zero => rfl
    | succ k =>
      simp only [List.take_succ_cons, List.cons.injEq, true_and] at hsame ⊢
      exact hsame

theorem cons (c : Char) (h : SameFor (k - 1) a b) : SameFor k (c :: a) (c :: b) :=
  prepend [c] h

end SameFor

theorem Value.eq_pair_of_isPair {v : Value} (h : v.isPair = true) : ∃ r, v = .pair r := by
  cases v with
  | pair r => exact ⟨r, rfl⟩
  | _ => cases h

namespace Printer

/-- What stands after the opening parenthesis of a list, with the space that it takes there. -/
def closing : List (List Char) → List Char
  | [] => [')']
  | text :: texts => ' ' :: (text ++ closing texts)

theorem closing_ne_nil (texts : List (List Char)) : closing texts ≠ [] := by
  cases texts <;> exact List.cons_ne_nil _ _

theorem closing_cons (text : List Char) (texts : List (List Char)) :
    closing (text :: texts) = ' ' :: ([' '].intercalate (text :: texts) ++ [')']) := by
  induction texts generalizing text with
  | nil => simp [closing]
  | cons next texts ih => rw [closing, ih, List.intercalate_cons_cons]; simp

theorem closing_sameFor {k used : Nat} {text text' : List Char} {rest rest' : List (List Char)}
    (h : SameFor (k - 1) text text')
    (hrest : text' = text → SameFor (k - (used + text.length + 1)) (closing rest) (closing rest')) :
    SameFor (k - used) (closing (text :: rest)) (closing (text' :: rest')) := by
  by_cases heq : text' = text
  · subst heq
    have hlater : SameFor (k - used - (' ' :: text').length) (closing rest) (closing rest') := by
      rw [List.length_cons, show k - used - (text'.length + 1) = k - (used + text'.length + 1) by omega]
      exact hrest rfl
    exact hlater.prepend (' ' :: text')
  · exact ((h.append_of_ne heq).cons ' ').mono (Nat.sub_le k used)

/-- What a chain of pairs ends in is written as an atom, after a dot unless it is the empty list. -/
theorem parts_ending (st : Style) (s : Store) (write : Value → Except Stop (List Char))
    {v : Value} (hv : v.isPair = false) (fuel used : Nat) (done : List (List Char)) :
    parts st s write fuel used done v =
      if v = .nil then .ok done.reverse
      else (write v).map fun text => done.reverse ++ [['.'], text] := by
  cases v with
  | pair r => cases hv
  | nil => cases fuel <;> rfl
  | _ =>
    rw [if_neg (by simp)]
    cases fuel <;> simp only [parts] <;> split <;> simp_all [Except.map]

section Elements

variable {s : Store} {display : Bool} {w : Int} {write write' : Value → Except Stop (List Char)}
  {fuel fuel' used used' : Nat} {done done' texts : List (List Char)} {v : Value}

theorem ending_same (hatom : write' v = write v) (hv : v.isPair = false) {st st' : Style}
    (h : parts st s write fuel used done v = .ok texts) :
    ∃ rest, texts = done.reverse ++ rest ∧
      parts st' s write' fuel' used' done' v = .ok (done'.reverse ++ rest) := by
  rw [parts_ending _ _ _ hv] at h ⊢
  rw [hatom]
  split at h
  · cases h
    exact ⟨[], by simp, by simp [*]⟩
  · rename_i hnil
    cases hw : write v with
    | error e =>
      rw [hw] at h
      cases h
    | ok text =>
      rw [hw] at h
      cases h
      exact ⟨[['.'], text], rfl, by simp [hnil, Except.map]⟩

/-- Elements that are the same for `k - 1` characters are the same, written one after another,
for what the characters before them leave of `k`; `fuel'` of them exceed the width. -/
theorem parts_sameFor {k : Nat} (fuel' used' : Nat) (done' : List (List Char)) (hk : k ≤ w.toNat)
    (hwrite : ∀ v text, write v = .ok text →
      ∃ text', write' v = .ok text' ∧ SameFor (k - 1) text text')
    (hatom : ∀ v, v.isPair = false → write' v = write v)
    (h : parts ⟨display, none⟩ s write fuel used done v = .ok texts)
    (hfuel : w.toNat < used' + fuel') (hused : used' ≤ w.toNat) :
    ∃ rest rest', texts = done.reverse ++ rest ∧
      parts ⟨display, some w⟩ s write' fuel' used' done' v = .ok (done'.reverse ++ rest') ∧
      SameFor (k - used') (closing rest) (closing rest') ∧
      (v.isPair = true → rest ≠ [] ∧ rest' ≠ []) := by
  induction fuel generalizing used done v fuel' used' done' with
  | zero =>
    cases hv : v.isPair with
    | true =>
      obtain ⟨r, rfl⟩ := Value.eq_pair_of_isPair hv
      cases h
    | false =>
      obtain ⟨rest, htexts, hparts⟩ := ending_same (hatom v hv) hv h
      exact ⟨rest, rest, htexts, hparts, .refl _ _, fun hp => absurd hp Bool.false_ne_true⟩
  | succ fuel ih =>
    cases hv : v.isPair with
    | false =>
      obtain ⟨rest, htexts, hparts⟩ := ending_same (hatom v hv) hv h
      exact ⟨rest, rest, htexts, hparts, .refl _ _, fun hp => absurd hp Bool.false_ne_true⟩
    | true =>
      obtain ⟨r, rfl⟩ := Value.eq_pair_of_isPair hv
      obtain ⟨fuel', rfl⟩ : ∃ f, fuel' = f + 1 := ⟨fuel' - 1, by omega⟩
      cases hhead : write (s.head r) with
      | error e =>
        simp only [parts, hhead] at h
        cases h
      | ok text =>
        obtain ⟨text', htext', hsame⟩ := hwrite _ _ hhead
        simp only [parts, hhead, Style.exceeds, Bool.false_eq_true, if_false] at h
        simp only [parts, htext', Style.exceeds, decide_eq_true_eq]
        by_cases hover : w < ((used' + text'.length + 1 : Nat) : Int)
        · rw [if_pos hover]
          -- what follows lies beyond the width, and here only has to be something
          obtain ⟨rest, -, htexts, -⟩ :=
            ih (w.toNat + 1) 0 [] h (by omega) (Nat.zero_le _)
          refine ⟨text :: rest, [text', ['.', '.', '.']], by simp [htexts], by simp, ?_,
            fun _ => ⟨List.cons_ne_nil _ _, List.cons_ne_nil _ _⟩⟩
          refine closing_sameFor hsame fun heq => ?_
          subst heq
          rw [show k - (used' + text'.length + 1) = 0 by omega]
          exact .zero (closing_ne_nil _) (closing_ne_nil _)
        · rw [if_neg hover]
          obtain ⟨rest, rest', htexts, hparts, hsameRest, -⟩ :=
            ih fuel' (used' + text'.length + 1) (text' :: done') h (by omega) (by omega)
          refine ⟨text :: rest, text' :: rest', by simp [htexts], by simp [hparts], ?_,
            fun _ => ⟨List.cons_ne_nil _ _, List.cons_ne_nil _ _⟩⟩
          exact closing_sameFor hsame fun heq => by rwa [← heq]

end Elements

theorem atom_width (s : Store) (display : Bool) (w : Option Int) (v : Value) :
    atom ⟨display, w⟩ s v = atom ⟨display, none⟩ s v := by
  cases v <;> rfl

/-- A value that is written at all is written within a width as well, as a text that is the same
for what the nesting leaves of the width. -/
theorem write_sameFor {s : Store} {display : Bool} {w : Int} {room depth : Nat} {v : Value}
    {text : List Char} (h : write ⟨display, none⟩ s room depth v = .ok text) :
    ∃ text', write ⟨display, some w⟩ s room depth v = .ok text' ∧
      SameFor (w - depth).toNat text text' := by
  induction room generalizing depth v text with
  | zero =>
    cases hv : v.isPair with
    | true =>
      obtain ⟨r, rfl⟩ := Value.eq_pair_of_isPair hv
      cases h
    | false =>
      rw [write_leaf _ _ _ _ hv] at h ⊢
      exact ⟨text, (atom_width s display _ v).trans h, .refl _ _⟩
  | succ room ih =>
    cases hv : v.isPair with
    | false =>
      rw [write_leaf _ _ _ _ hv] at h ⊢
      exact ⟨text, (atom_width s display _ v).trans h, .refl _ _⟩
    | true =>
      obtain ⟨r, rfl⟩ := Value.eq_pair_of_isPair hv
      obtain ⟨texts, hparts, rfl⟩ : ∃ texts,
          parts ⟨display, none⟩ s (write ⟨display, none⟩ s room (depth + 1)) s.cells.size 0 []
            (.pair r) = .ok texts ∧ '(' :: ([' '].intercalate texts ++ [')']) = text := by
        simp only [write, Style.omits, Style.budget, Bool.false_eq_true, if_false] at h
        split at h
        · cases h
        · exact ⟨_, ‹_›, Except.ok.inj h⟩
      by_cases hdeep : w ≤ depth
      · -- nested deeper than the width: nothing of the list can be shown
        refine ⟨['.', '.', '.'], by simp [write, Style.omits, hdeep], ?_⟩
        rw [show (w - depth).toNat = 0 by omega]
        exact .zero (List.cons_ne_nil _ _) (List.cons_ne_nil _ _)
      · have hwrite : ∀ v text, write ⟨display, none⟩ s room (depth + 1) v = .ok text →
            ∃ text', write ⟨display, some w⟩ s room (depth + 1) v = .ok text' ∧
              SameFor ((w - depth).toNat - 1) text text' := by
          intro v text hv
          obtain ⟨text', htext', hsame⟩ := ih hv
          refine ⟨text', htext', ?_⟩
          rwa [show (w - depth).toNat - 1 = (w - (depth + 1 : Nat)).toNat by omega]
        have hatom : ∀ v, v.isPair = false → write ⟨display, some w⟩ s room (depth + 1) v =
            write ⟨display, none⟩ s room (depth + 1) v := by
          intro v hv
          rw [write_leaf _ _ _ _ hv, write_leaf _ _ _ _ hv, atom_width]
        obtain ⟨rest, rest', rfl, hparts', hsame, hpair⟩ :=
          parts_sameFor (w := w) (k := (w - depth).toNat) (w.toNat + 1) 0 [] (by omega) hwrite hatom
            hparts (by omega) (Nat.zero_le _)
        refine ⟨'(' :: ([' '].intercalate rest' ++ [')']),
          by simp [write, Style.omits, hdeep, Style.budget, hparts'], ?_⟩
        obtain ⟨hrest, hrest'⟩ := hpair rfl
        obtain ⟨text, texts, rfl⟩ := List.exists_cons_of_ne_nil hrest
        obtain ⟨text', texts', rfl⟩ := List.exists_cons_of_ne_nil hrest'
        rw [closing_cons, closing_cons] at hsame
        exact hsame.replace_head

end Printer

/-- A value that can be printed at all, which no cyclic one can, is printed within a width as the
same text if it is no longer than that, and otherwise as its beginning and three dots. -/
theorem Store.print_within_width (s : Store) (display : Bool) (w : Int) (v : Value) (text : String)
    (h : s.print { display := display } v = .ok text) :
    s.print { display := display, width := some w } v =
      .ok (if (text.length : Int) ≤ w then text
        else String.ofList (text.toList.take (w - 3).toNat) ++ "...") := by
  obtain ⟨chars, hchars, rfl⟩ : ∃ chars,
      Printer.write ⟨display, none⟩ s hostRoom 0 v = .ok chars ∧ String.ofList chars = text := by
    unfold print format at h
    cases hw : Printer.write ⟨display, none⟩ s hostRoom 0 v with
    | error e =>
      rw [hw] at h
      cases h
    | ok chars =>
      rw [hw] at h
      exact ⟨chars, rfl, Except.ok.inj h⟩
  obtain ⟨chars', hchars', hsame⟩ := Printer.write_sameFor (w := w) hchars
  have hprint : s.print { display := display, width := some w } v =
      .ok (String.ofList (Style.cut { display := display, width := some w } chars')) := by
    simp only [print, format, hchars', Except.map]
  rw [hprint]
  simp only [Style.cut, String.length_ofList, String.toList_ofList]
  rcases hsame with rfl | ⟨hlong, hlong', hsame⟩
  · by_cases hw : w < chars'.length
    · rw [if_pos hw, if_neg (by omega), String.ofList_append]
    · rw [if_neg hw, if_pos (by omega)]
  · have htake := congrArg (List.take (w - 3).toNat) hsame
    rw [List.take_take, List.take_take, Nat.min_eq_left (by omega)] at htake
    rw [if_pos (by omega), if_neg (by omega), htake, String.ofList_append]

/-- The list `(((x) "" y) z)`. -/
def nestedStore : Store where
  cells := #[⟨.pair 2, .pair 1, none⟩, ⟨.sym "z", .nil, none⟩, ⟨.pair 5, .pair 3, none⟩,
    ⟨.str "", .pair 4, none⟩, ⟨.sym "y", .nil, none⟩, ⟨.sym "x", .nil, none⟩]

/-- With a width of two the innermost list is not visited, with one of seven the spines are left
early; an element without characters counts as well. -/
theorem print_within_width_nested :
    nestedStore.print { display := true } (.pair 0) = .ok "(((x)  y) z)" ∧
    nestedStore.print { display := true, width := some 2 } (.pair 0) = .ok "..." ∧
    nestedStore.print { display := true, width := some 7 } (.pair 0) = .ok "(((x..." ∧
    nestedStore.print { display := true, width := some 12 } (.pair 0) = .ok "(((x)  y) z)" := by
  have hplain : nestedStore.print { display := true } (.pair 0) = .ok "(((x)  y) z)" := by
    rfl
  refine ⟨hplain, ?_, ?_, ?_⟩
  · exact nestedStore.print_within_width true 2 (.pair 0) _ hplain
  · exact nestedStore.print_within_width true 7 (.pair 0) _ hplain
  · exact nestedStore.print_within_width true 12 (.pair 0) _ hplain

end Vau
