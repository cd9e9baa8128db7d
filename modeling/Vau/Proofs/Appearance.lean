import Vau.Proofs.Equivalence
import Vau.Proofs.RoundTrip
import Vau.Proofs.Truncation

/-! How values look. Equal values are printed as the same text in every style, and readable values
that are printed as the same text are equal. -/

namespace Vau

namespace Printer

variable {s : Store} {st : Style} {v w : Value} {t u : Tree}

theorem atom_same (st : Style) (s : Store) (h : v.atomEq w = true) : atom st s v = atom st s w := by
  cases v with
  | applicative label x =>
    cases w with
    | applicative label' y =>
      obtain rfl : x = y := by simpa [Value.atomEq] using h
      rfl
    | _ => simp [Value.atomEq] at h
  | _ =>
    obtain rfl : _ = w := by simpa [Value.atomEq] using h
    rfl

theorem nil_iff_of_atomEq (h : v.atomEq w = true) : v = .nil ↔ w = .nil := by
  have hnil : ∀ {w : Value}, Value.nil.atomEq w = true → w = .nil := by
    intro w h
    cases w <;> first | rfl | cases h
  constructor
  · rintro rfl
    exact hnil h
  · rintro rfl
    exact hnil ((Value.atomEq_comm _ _).trans h)

/-- The elements of chains with the same trees are written alike if they are written alike one by
one. -/
theorem parts_same {f : Value → Except Stop (List Char)}
    (hf : ∀ {v w t u}, s.Unfolds v t → s.Unfolds w u → t.same u = true → f v = f w)
    (hv : s.Unfolds v t) (hw : s.Unfolds w u) (h : t.same u = true) (fuel used : Nat)
    (done : List (List Char)) : parts st s f fuel used done v = parts st s f fuel used done w := by
  induction hv generalizing w u fuel used done with
  | @leaf v hv =>
    cases hw with
    | node _ _ _ => cases h
    | leaf hw =>
      have hfv : f v = f w := hf (.leaf hv) (.leaf hw) h
      rw [parts_ending _ _ _ hv, parts_ending _ _ _ hw, hfv]
      simp only [nil_iff_of_atomEq h]
  | node _ hh _ _ ih =>
    cases hw with
    | leaf _ => cases h
    | node _ hh' ht' =>
      simp only [Tree.same, Bool.and_eq_true] at h
      cases fuel with
      | zero => rfl
      | succ fuel => simp only [parts, hf hh hh' h.1, ih ht' h.2]

/-- Values with the same trees are written alike, or stop the printer alike. -/
theorem write_same (hv : s.Unfolds v t) (hw : s.Unfolds w u) (h : t.same u = true)
    (room depth : Nat) : write st s room depth v = write st s room depth w := by
  have hleaf : ∀ room depth {v w : Value}, v.isPair = false → w.isPair = false →
      v.atomEq w = true → write st s room depth v = write st s room depth w := by
    intro room depth v w hv hw h
    rw [write_leaf _ _ _ _ hv, write_leaf _ _ _ _ hw, atom_same st s h]
  induction room generalizing depth v w t u with
  | zero =>
    cases hv with
    | leaf hv =>
      cases hw with
      | leaf hw => exact hleaf 0 depth hv hw h
      | node _ _ _ => cases h
    | node _ _ _ =>
      cases hw with
      | leaf _ => cases h
      | node _ _ _ => rfl
  | succ room ih =>
    cases hv with
    | leaf hv =>
      cases hw with
      | leaf hw => exact hleaf _ depth hv hw h
      | node _ _ _ => cases h
    | node hr hh ht =>
      cases hw with
      | leaf _ => cases h
      | node hr' hh' ht' =>
        have hparts := @parts_same _ st _ _ _ _ _ (fun hv hw h => ih hv hw h (depth + 1))
          (.node hr hh ht) (.node hr' hh' ht') h (st.budget s) 0 []
        simp only [write, hparts]

/-- Nothing but lack of room for nesting and integers of too many digits keeps elements that are
written one by one from being written as a list. -/
theorem parts_error {room : Nat} {f : Value → Except Stop (List Char)} {e : Stop}
    (hf : ∀ {v t}, s.Unfolds v t → f v = .error e →
      e = .digits ∨ e = .failure .stackExhausted ∧ room < t.depth)
    (hv : s.Unfolds v t) {fuel used : Nat} (hfuel : st.width = none → t.chain ≤ fuel)
    (hused : ∀ w, st.width = some w → used ≤ w ∧ w < fuel + used) {done : List (List Char)}
    (h : parts st s f fuel used done v = .error e) :
    e = .digits ∨ e = .failure .stackExhausted ∧ room + 1 < t.depth := by
  induction hv generalizing fuel used done with
  | @leaf v hv =>
    rw [parts_ending _ _ _ hv] at h
    split at h
    · cases h
    · refine (hf (.leaf hv) (Except.error_of_map h)).imp_right fun hdeep => ?_
      exact absurd hdeep.2 (Nat.not_lt_zero _)
  | @node r hd tl hr hh ht _ ih =>
    cases fuel with
    | zero =>
      cases hwidth : st.width with
      | none => exact absurd (hfuel hwidth) (by simp [Tree.chain])
      | some w =>
        have := hused w hwidth
        omega
    | succ fuel =>
      simp only [Tree.depth]
      cases hhead : f (s.head r) with
      | error e' =>
        simp only [parts, hhead] at h
        cases h
        exact (hf hh hhead).imp_right fun hdeep => ⟨hdeep.1, by omega⟩
      | ok text =>
        simp only [parts, hhead] at h
        split at h
        · cases h
        · rename_i hexceeds
          refine (ih (fun hwidth => ?_) (fun w hwidth => ?_) h).imp_right fun hdeep => ⟨hdeep.1, by omega⟩
          · exact Nat.le_of_succ_le_succ (hfuel hwidth)
          · simp only [Style.exceeds, hwidth, decide_eq_true_eq] at hexceeds
            have := hused w hwidth
            push_cast at this hexceeds ⊢
            omega

theorem write_error {room depth : Nat} {e : Stop} (hv : s.Unfolds v t)
    (h : write st s room depth v = .error e) :
    e = .digits ∨ e = .failure .stackExhausted ∧ room < t.depth := by
  induction room generalizing depth v t with
  | zero =>
    cases hv with
    | leaf hv =>
      rw [write_leaf _ _ _ _ hv] at h
      exact .inl (atom_error h)
    | node _ _ _ =>
      rw [write] at h
      split at h
      · cases h
      · cases h
        exact .inr ⟨rfl, by simp only [Tree.depth]; omega⟩
  | succ room ih =>
    cases hv with
    | leaf hv =>
      rw [write_leaf _ _ _ _ hv] at h
      exact .inl (atom_error h)
    | @node r _ _ hr hh ht =>
      rw [write] at h
      split at h
      · cases h
      · rename_i homits
        cases hparts : parts st s (write st s room (depth + 1)) (st.budget s) 0 [] (.pair r) with
        | ok texts =>
          simp only [hparts] at h
          cases h
        | error e' =>
          simp only [hparts] at h
          cases h
          have hnode : s.Unfolds (.pair r) _ := .node hr hh ht
          refine parts_error (fun hv h => ih hv h) hnode (fun hwidth => ?_) (fun w hwidth => ?_) hparts
          · simp only [Style.budget, hwidth]
            exact hnode.chain_le
          · simp only [Style.omits, Style.budget, hwidth, decide_eq_true_eq] at homits ⊢
            omega

theorem text_of_write {room depth : Nat} {chars : List Char} (hv : s.Unfolds v t) (ht : t.Legible)
    (h : write .plain s room depth v = .ok chars) : chars = t.text := by
  -- with ample room the text is that of the tree, and more room does not change a text
  have hample := write_unfolds depth hv ht (Nat.le_max_right room t.depth)
  rcases write_settles .plain s (Nat.le_max_left room t.depth) depth v with hs | ⟨e, -, hs⟩
  · rw [hs, h] at hample
    exact Except.ok.inj hample
  · rw [h] at hs
    cases hs

end Printer

theorem Tree.text_injective {t u : Tree} (ht : t.Legible) (hu : u.Legible) (h : t.text = u.text) :
    t = u := by
  have hread : ∀ {v : Tree}, v.Legible → v.levels ≤ max t.levels u.levels →
      ∃ n, parse (max t.levels u.levels + 1) v.text = .ok [n] ∧ n.Stands none v :=
    fun hv hle => Grammar.parse_text hv hle
  obtain ⟨n, hn, -, d, hd, rfl⟩ := hread ht (Nat.le_max_left _ _)
  obtain ⟨m, hm, -, d', hd', rfl⟩ := hread hu (Nat.le_max_right _ _)
  rw [h, hm] at hn
  obtain rfl : m = n := by simpa using hn
  rw [hd] at hd'
  rw [Except.ok.inj hd']

namespace Store

theorem text_of_format {s : Store} {v : Value} {t : Tree} {room : Nat} {text : String}
    (hv : s.Unfolds v t) (ht : t.Legible) (h : s.format room .plain v = .ok text) :
    text = String.ofList t.text := by
  unfold format at h
  cases hw : Printer.write .plain s room 0 v with
  | error e =>
    rw [hw] at h
    cases h
  | ok chars =>
    rw [hw, Printer.text_of_write hv ht hw] at h
    exact (Except.ok.inj h).symm

/-- Equal values have the same text in every style, or none for the same reason, and a text is
missing for lack of room or for too many digits only. Readable values with the same plain text
are equal. -/
theorem equal_shown {s : Store} {a b : Value} {t u : Tree} (ha : s.Unfolds a t)
    (hb : s.Unfolds b u) :
    (∀ room, s.equal room a b = .ok true →
      ∀ room' st, s.format room' st a = s.format room' st b) ∧
    (∀ room st e, s.format room st a = .error e →
      e = .digits ∨ e = .failure .stackExhausted ∧ room < t.depth) ∧
    (t.Legible → u.Legible → ∀ room room' text, s.format room .plain a = .ok text →
      s.format room' .plain b = .ok text → ∀ ample, t.depth < ample →
        s.equal ample a b = .ok true) := by
  refine ⟨fun room h room' st => ?_, fun room st e h => ?_,
    fun ht hu room room' text h h' ample hroom => ?_⟩
  · have hsame := (ha.same_iff hb).mpr (equals_of_equal ha hb h)
    rw [format, format, Printer.write_same ha hb hsame]
  · exact Printer.write_error ha (Except.error_of_map h)
  · have htexts : String.ofList t.text = String.ofList u.text :=
      (text_of_format ha ht h).symm.trans (text_of_format hb hu h')
    obtain rfl : t = u := Tree.text_injective ht hu (String.ofList_injective htexts)
    rw [equal_unfolds ha hb hroom, t.same_refl]

theorem sharedTree_legible : sharedTree.Legible := ⟨⟨trivial, trivial⟩, trivial, trivial⟩

/-- A list that shares a pair and one that does not have one text, and from it they are equal. -/
theorem equal_shown_sharing :
    sharingStore.Unfolds (.pair 1) sharedTree ∧ sharingStore.Unfolds (.pair 3) sharedTree ∧
    sharedTree.Legible ∧
    sharingStore.format hostRoom (.within 4) (.pair 1) =
      sharingStore.format hostRoom (.within 4) (.pair 3) ∧
    sharingStore.format 2 .plain (.pair 1) = .ok "((\"x\") \"x\")" ∧
    sharingStore.format 2 .plain (.pair 3) = .ok "((\"x\") \"x\")" ∧
    sharingStore.equal 3 (.pair 1) (.pair 3) = .ok true := by
  have hfirst := sharingStore_unfolds 1 (.inl rfl)
  have hsecond := sharingStore_unfolds 3 (.inr rfl)
  obtain ⟨hshown, -, hequal⟩ := equal_shown hfirst hsecond
  have htext₁ : sharingStore.format 2 .plain (.pair 1) = .ok "((\"x\") \"x\")" := rfl
  have htext₃ : sharingStore.format 2 .plain (.pair 3) = .ok "((\"x\") \"x\")" := rfl
  have hanswer : sharingStore.equal 3 (.pair 1) (.pair 3) = .ok true :=
    hequal sharedTree_legible sharedTree_legible 2 2 _ htext₁ htext₃ 3 (by decide)
  exact ⟨hfirst, hsecond, sharedTree_legible, hshown 3 hanswer hostRoom (.within 4), htext₁, htext₃,
    hanswer⟩

end Store

end Vau
