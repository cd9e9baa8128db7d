import Vau.Proofs.Boundary

/-! The trace of the call stack. It shows the innermost frames, as many as its depth, and says how
many it leaves out. A depth of zero is none: all the frames are shown then, and said to be left
out. -/

namespace Vau

theorem List.forall₂_of_mapM {ε α β : Type} {f : α → Except ε β} {l : List α} {bs : List β}
    (h : l.mapM f = .ok bs) : List.Forall₂ (fun a b => f a = .ok b) l bs := by
  induction l generalizing bs with
  | nil =>
    cases h
    exact .nil
  | cons a l ih =>
    rw [List.mapM_cons] at h
    obtain ⟨b, hb, h⟩ := Except.bind_eq_ok h
    obtain ⟨bs', hbs, h⟩ := Except.bind_eq_ok h
    cases h
    exact .cons hb (ih hbs)

/-- What a trace says of the frames that it leaves out. -/
def omission (outer : List Value) : List String :=
  if outer = [] then [] else ["... " ++ toString outer.length ++ " more"]

/-- The trace of frames that are printed so, when others outside them are left out. -/
def traceText (outer : List Value) (texts : List String) : String :=
  "Kern stacktrace: " ++ " ".intercalate (omission outer ++ texts)

section Frames

variable {depth : Int} {m : Machine} {outer stack : List Value}

theorem length_tracedFrames (hdepth : 0 < depth) (stack : List Value) :
    ((tracedFrames depth stack).length : Int) = min (stack.length : Int) depth := by
  rw [tracedFrames, if_pos hdepth, List.length_drop]
  omega

theorem exists_outer (hdepth : 0 < depth) (stack : List Value) :
    ∃ outer, stack = outer ++ tracedFrames depth stack := by
  refine ⟨stack.take (stack.length - depth.toNat), ?_⟩
  rw [tracedFrames, if_pos hdepth, List.take_append_drop]

/-- The frames that are not shown are as many as the stack is deeper than the trace. -/
theorem length_outer (hdepth : 0 < depth) (hsplit : stack = outer ++ tracedFrames depth stack) :
    (outer.length : Int) = max 0 (stack.length - depth) := by
  have hsum : stack.length = outer.length + (tracedFrames depth stack).length := by
    rw [← List.length_append, ← hsplit]
  have hshown := length_tracedFrames hdepth stack
  omega

theorem outer_ne_nil_iff (hdepth : 0 < depth) (hsplit : stack = outer ++ tracedFrames depth stack) :
    outer ≠ [] ↔ depth < stack.length := by
  have hlength := length_outer hdepth hsplit
  rw [Ne, ← List.length_eq_zero_iff]
  omega

theorem omission_eq (hdepth : 0 < depth) (hsplit : stack = outer ++ tracedFrames depth stack) :
    omission outer =
      if depth < stack.length then ["... " ++ toString ((stack.length : Int) - depth) ++ " more"]
      else [] := by
  by_cases hless : depth < stack.length
  · have hnumber : (stack.length : Int) - depth = outer.length := by
      have hlength := length_outer hdepth hsplit
      omega
    rw [omission, if_neg ((outer_ne_nil_iff hdepth hsplit).mpr hless), if_pos hless, hnumber]
    rfl
  · have hnil : outer = [] := not_not.mp (mt (outer_ne_nil_iff hdepth hsplit).mp hless)
    rw [omission, if_pos hnil, if_neg hless]

theorem stackTrace_eq (hdepth : 0 < depth) (hstack : m.stack.toList ≠ [])
    (hsplit : m.stack.toList = outer ++ tracedFrames depth m.stack.toList) :
    stackTrace m depth =
      ((tracedFrames depth m.stack.toList).mapM (m.store.print (.within 40))).map
        (traceText outer) := by
  have hempty : m.stack.toList.isEmpty = false := by simpa using hstack
  simp only [stackTrace, hempty, ← omission_eq hdepth hsplit, Bool.false_eq_true, if_false]
  have hwidth : Style.within frameWidth = .within 40 := rfl
  rw [hwidth]
  cases (tracedFrames depth m.stack.toList).mapM (m.store.print (.within 40)) <;> rfl

/-- A trace shows the innermost frames, the outer ones of them first, and tells how many more there
are if there are any, unless a frame to be shown has an integer of too many digits. -/
theorem trace_innermost (hdepth : 0 < depth) (hstack : m.stack.toList ≠ []) :
    ∃ outer inner, m.stack.toList = outer ++ inner ∧
      (inner.length : Int) = min (m.stack.size : Int) depth ∧
      (outer ≠ [] ↔ depth < m.stack.size) ∧
      ((∃ texts, List.Forall₂ (fun v text => m.store.print (.within 40) v = .ok text) inner texts ∧
          stackTrace m depth = .ok (traceText outer texts)) ∨
        stackTrace m depth = .error .digits ∧
          ∃ v ∈ inner, m.store.print (.within 40) v = .error .digits) := by
  obtain ⟨outer, hsplit⟩ := exists_outer hdepth m.stack.toList
  refine ⟨outer, tracedFrames depth m.stack.toList, hsplit, length_tracedFrames hdepth _,
    outer_ne_nil_iff hdepth hsplit, ?_⟩
  rw [stackTrace_eq hdepth hstack hsplit]
  cases htexts : (tracedFrames depth m.stack.toList).mapM (m.store.print (.within 40)) with
  | ok texts => exact .inl ⟨texts, List.forall₂_of_mapM htexts, rfl⟩
  | error e =>
    obtain ⟨v, hv, hprint⟩ := List.exists_of_mapM_error htexts
    obtain ⟨rfl, -⟩ := Store.print_error (by decide) hprint
    exact .inr ⟨rfl, v, hv, hprint⟩

end Frames

/-- The evaluation of `(cons 1 (head 5))` has come to `(head 5)`. -/
def nestedCalls : Machine where
  world := { store := { cells := #[⟨.sym "cons", .pair 1, none⟩, ⟨.int 1, .pair 2, none⟩,
    ⟨.pair 3, .nil, none⟩, ⟨.sym "head", .pair 4, none⟩, ⟨.int 5, .nil, none⟩] } }
  stack := #[.pair 0, .pair 3]

theorem trace_innermost_nested :
    (0 : Int) < 1 ∧ nestedCalls.stack.toList ≠ [] ∧
    (∃ outer inner, nestedCalls.stack.toList = outer ++ inner ∧ inner.length = 1 ∧ outer ≠ [] ∧
      ∃ texts, stackTrace nestedCalls 1 = .ok (traceText outer texts)) ∧
    stackTrace nestedCalls 1 = .ok "Kern stacktrace: ... 1 more (head 5)" := by
  have hstack : nestedCalls.stack.toList ≠ [] := by decide
  have htrace : stackTrace nestedCalls 1 = .ok "Kern stacktrace: ... 1 more (head 5)" := by
    decide +kernel
  obtain ⟨outer, inner, hsplit, hlength, houter, ⟨texts, -, htexts⟩ | ⟨hdigits, -⟩⟩ :=
    trace_innermost (by decide : (0 : Int) < 1) hstack
  · have hone : inner.length = 1 := Int.ofNat.inj hlength
    exact ⟨by decide, hstack, ⟨outer, inner, hsplit, hone, houter.mpr (by decide), texts, htexts⟩,
      htrace⟩
  · rw [htrace] at hdigits
    cases hdigits

/-- A trace of depth zero shows all the frames and says that there are as many more. -/
theorem trace_of_no_depth :
    stackTrace nestedCalls 0 = .ok "Kern stacktrace: ... 2 more (cons 1 (head 5)) (head 5)" ∧
    ¬ ∃ outer inner texts, nestedCalls.stack.toList = outer ++ inner ∧ inner.length = 0 ∧
      List.Forall₂ (fun v text => nestedCalls.store.print (.within 40) v = .ok text) inner texts ∧
      stackTrace nestedCalls 0 = .ok (traceText outer texts) := by
  have htrace : stackTrace nestedCalls 0 =
      .ok "Kern stacktrace: ... 2 more (cons 1 (head 5)) (head 5)" := by decide +kernel
  refine ⟨htrace, ?_⟩
  rintro ⟨outer, inner, texts, hsplit, hnone, hprinted, hclaimed⟩
  obtain rfl := List.length_eq_zero_iff.mp hnone
  obtain rfl := List.forall₂_nil_left_iff.mp hprinted
  rw [List.append_nil] at hsplit
  rw [htrace, ← hsplit] at hclaimed
  revert hclaimed
  decide +kernel

end Vau
