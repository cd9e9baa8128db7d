import Vau.Proofs.Boundary
import Vau.Proofs.Truncation

/-! Printing within a width ends, also where the pairs are cyclic. Whatever is visited in a list has
taken a character of the width before the next is, and a list is entered only where its nesting is
less than the width. -/

namespace Vau

namespace Printer

/-- Where the printer is: at a value, or at what is left of a list of which so many characters are
written. -/
inductive Place where
  | value (depth : Nat) (v : Value)
  | rest (depth used : Nat) (v : Value)

/-- The ways of the printer from one place to the next. -/
inductive Visits (st : Style) (s : Store) : Place → Place → Prop
  | enter {depth r : Nat} (h : st.omits depth = false) :
    Visits st s (.value depth (.pair r)) (.rest (depth + 1) 0 (.pair r))
  | element (depth used r : Nat) :
    Visits st s (.rest depth used (.pair r)) (.value depth (s.head r))
  /-- The list goes on unless the text of the element has exceeded the width. -/
  | next {depth used r room : Nat} {text : List Char}
    (htext : write st s room depth (s.head r) = .ok text)
    (h : st.exceeds (used + text.length + 1) = false) :
    Visits st s (.rest depth used (.pair r)) (.rest depth (used + text.length + 1) (s.tail r))
  | ending {depth used : Nat} {v : Value} (hv : v.isPair = false) (hnil : v ≠ .nil) :
    Visits st s (.rest depth used v) (.value depth v)

/-- The printer meets `u` on its way through `v`. -/
def Meets (st : Style) (s : Store) (v u : Value) : Prop :=
  ∃ depth, Relation.ReflTransGen (Visits st s) (.value 0 v) (.value depth u)

namespace Place

/-- What is left of the width for nesting, and for the characters of a list. -/
def left (w : Nat) : Place → Nat × Nat × Nat
  | value depth _ => (w - depth, 0, 0)
  | rest depth used _ => (w - depth, 1, w - used)

end Place

variable {s : Store} {st : Style} {w : Int}

theorem visits_wellFounded (hst : st.width = some w) :
    WellFounded fun q p => Visits st s p q := by
  refine Subrelation.wf (fun {q p} h => ?_) (InvImage.wf (Place.left w.toNat)
    (Prod.lex Nat.lt_wfRel (Prod.lex Nat.lt_wfRel Nat.lt_wfRel)).wf)
  cases h with
  | enter h =>
    simp only [Style.omits, hst, decide_eq_false_iff_not] at h
    exact .left _ _ (show w.toNat - (_ + 1) < w.toNat - _ by omega)
  | element => exact .right _ (.left _ _ Nat.zero_lt_one)
  | @next depth used r room text htext h =>
    simp only [Style.exceeds, hst, decide_eq_false_iff_not] at h
    exact .right _ (.right _ (show w.toNat - (used + text.length + 1) < w.toNat - used by omega))
  | ending => exact .right _ (.left _ _ Nat.zero_lt_one)

/-- From the place the printer comes to an integer that is too long to write. -/
def Place.Bulky (st : Style) (s : Store) (p : Place) : Prop :=
  ∃ depth u, Relation.ReflTransGen (Visits st s) p (.value depth u) ∧ u.Bulky

theorem Place.Bulky.before {p q : Place} (h : q.Bulky st s) (hpq : Visits st s p q) :
    p.Bulky st s := by
  obtain ⟨depth, u, hq, hu⟩ := h
  exact ⟨depth, u, .head hpq hq, hu⟩

theorem parts_meets {room depth fuel used : Nat} {done : List (List Char)} {v : Value}
    (hwrite : ∀ u, write st s room depth u = .error .digits → (Place.value depth u).Bulky st s)
    (h : parts st s (write st s room depth) fuel used done v = .error .digits) :
    (Place.rest depth used v).Bulky st s := by
  have hending : ∀ {fuel used done} {v : Value}, v.isPair = false →
      parts st s (write st s room depth) fuel used done v = .error .digits →
      (Place.rest depth used v).Bulky st s := by
    intro fuel used done v hv h
    rw [parts_ending _ _ _ hv] at h
    by_cases hnil : v = .nil
    · rw [if_pos hnil] at h
      cases h
    · rw [if_neg hnil] at h
      exact (hwrite v (Except.error_of_map h)).before (.ending hv hnil)
  induction fuel generalizing used done v with
  | zero =>
    cases v with
    | pair r => cases h
    | _ => exact hending rfl h
  | succ fuel ih =>
    cases v with
    | pair r =>
      rw [parts] at h
      cases htext : write st s room depth (s.head r) with
      | error e =>
        rw [htext] at h
        cases h
        exact (hwrite _ htext).before (.element depth used r)
      | ok text =>
        rw [htext] at h
        dsimp only at h
        split at h
        · cases h
        · exact (ih h).before (.next htext (Bool.eq_false_iff.mpr ‹_›))
    | _ => exact hending rfl h

theorem write_meets {room depth : Nat} {v : Value} (h : write st s room depth v = .error .digits) :
    (Place.value depth v).Bulky st s := by
  have hatom : ∀ {room depth} {v : Value}, v.isPair = false →
      write st s room depth v = .error .digits → (Place.value depth v).Bulky st s := by
    intro room depth v hv h
    rw [write_leaf st s room depth hv] at h
    exact ⟨depth, v, .refl, atom_bulky h⟩
  induction room generalizing depth v with
  | zero =>
    cases v with
    | pair r =>
      rw [write] at h
      split at h <;> cases h
    | _ => exact hatom rfl h
  | succ room ih =>
    cases v with
    | pair r =>
      rw [write] at h
      split at h
      · cases h
      · rename_i homits
        cases hparts : parts st s (write st s room (depth + 1)) (st.budget s) 0 [] (.pair r) with
        | error e =>
          simp only [hparts] at h
          cases h
          exact (parts_meets (fun _ hu => ih hu) hparts).before
            (.enter (Bool.eq_false_iff.mpr homits))
        | ok texts =>
          simp only [hparts] at h
          cases h
    | _ => exact hatom rfl h

end Printer

theorem Style.length_cut {st : Style} {w : Int} (hst : st.width = some w) (text : List Char) :
    ((st.cut text).length : Int) ≤ max w 3 := by
  simp only [Style.cut, hst]
  split
  · simp only [List.length_append, List.length_take, List.length_cons, List.length_nil]
    omega
  · omega

/-- Printing within a width comes to no more characters than that or than the three dots, or stops
for an integer that it meets, or for want of room that is less than the width. Its way ends, so it
never goes round a cycle for ever; so do the description of a failure and the trace of the call
stack, which find all the room that they need. -/
theorem bounded_printing (m : Machine) (display : Bool) (w : Int) (v : Value) (room : Nat) :
    (WellFounded fun q p => Printer.Visits ⟨display, some w⟩ m.store p q) ∧
    ((∃ text, m.store.format room ⟨display, some w⟩ v = .ok text ∧ (text.length : Int) ≤ max w 3) ∨
      (m.store.format room ⟨display, some w⟩ v = .error .digits ∧
        ∃ u, Printer.Meets ⟨display, some w⟩ m.store v u ∧ u.Bulky) ∨
      m.store.format room ⟨display, some w⟩ v = .error (.failure .stackExhausted) ∧ room < w) ∧
    (∀ f : Failure, (∃ text, f.describe m.store = .ok text) ∨
      f.describe m.store = .error .digits ∧ (f.Bulky ∨ m.store.Bulky)) ∧
    ∀ depth, (∃ text, stackTrace m depth = .ok text) ∨
      stackTrace m depth = .error .digits ∧ ((∃ u ∈ m.stack, u.Bulky) ∨ m.store.Bulky) := by
  refine ⟨Printer.visits_wellFounded rfl, ?_, fun f => ?_, fun depth => ?_⟩
  · unfold Store.format
    cases hwrite : Printer.write ⟨display, some w⟩ m.store room 0 v with
    | ok text =>
      refine .inl ⟨_, rfl, ?_⟩
      rw [String.length_ofList]
      exact Style.length_cut rfl text
    | error e =>
      rcases Printer.write_within rfl hwrite with rfl | ⟨rfl, hlt⟩
      · obtain ⟨depth, u, hmeets, hu⟩ := Printer.write_meets hwrite
        exact .inr (.inl ⟨rfl, u, ⟨depth, hmeets⟩, hu⟩)
      · exact .inr (.inr ⟨rfl, by omega⟩)
  · cases hf : f.describe m.store with
    | ok text => exact .inl ⟨text, rfl⟩
    | error e =>
      obtain ⟨rfl, hbulky⟩ := Failure.describe_error hf
      exact .inr ⟨rfl, hbulky⟩
  · cases htrace : stackTrace m depth with
    | ok text => exact .inl ⟨text, rfl⟩
    | error e =>
      obtain ⟨u, hu, hprint⟩ := exists_frame_of_stackTrace_error htrace
      obtain ⟨rfl, hbulky⟩ := Store.print_error (by decide) hprint
      exact .inr ⟨rfl, hbulky.imp_left fun hb => ⟨u, hu, hb⟩⟩

/-- A pair that is its own head and its own tail. -/
def knot : Store where
  cells := #[⟨.pair 0, .pair 0, none⟩]

/-- Of a knot, texts of a width and of none are as long as they may be. -/
example : knot.print ⟨true, some 9⟩ (.pair 0) = .ok "((((((..." ∧
    knot.print ⟨false, some (-2)⟩ (.pair 0) = .ok "..." := by decide

end Vau
