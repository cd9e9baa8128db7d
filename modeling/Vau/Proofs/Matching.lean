import Vau.Proofs.FormalTree

/-! Matching and its rule. Patterns are matched along their spines, with the heads put off; the
rule goes down the tree of the pattern instead, the tail of a pair before its head. Both come to
the same bindings in the same order, and to the same mismatch where there are several. -/

namespace Vau

open Formals

/-- What may stand at a leaf of formal parameters. -/
def Value.isFormal : Value → Bool
  | .sym _ => true
  | .nil => true
  | .ignore => true
  | _ => false

def Value.symbol? : Value → Option String
  | .sym name => some name
  | _ => none

namespace Tree

/-- The rule by which the tree of a pattern is matched against operands. -/
inductive Matches (s : Store) : Tree → Value → Except Mismatch (List (String × Value)) → Prop
  | symbol (name : String) (o : Value) : Matches s (.leaf (.sym name)) o (.ok [(name, o)])
  | ignore (o : Value) : Matches s (.leaf .ignore) o (.ok [])
  | nil : Matches s (.leaf .nil) .nil (.ok [])
  | excess {o : Value} (ho : o ≠ .nil) : Matches s (.leaf .nil) o (.error .shape)
  | foreign {v : Value} (o : Value) (hv : v.isFormal = false) :
    Matches s (.leaf v) o (.error .notFormal)
  | lack {p q : Tree} {o : Value} (ho : o.isPair = false) : Matches s (.node p q) o (.error .shape)
  | tail {p q : Tree} {r : Nat} {e : Mismatch} (hq : Matches s q (s.tail r) (.error e)) :
    Matches s (.node p q) (.pair r) (.error e)
  | head {p q : Tree} {r : Nat} {below : List (String × Value)} {e : Mismatch}
    (hq : Matches s q (s.tail r) (.ok below)) (hp : Matches s p (s.head r) (.error e)) :
    Matches s (.node p q) (.pair r) (.error e)
  | both {p q : Tree} {r : Nat} {below here : List (String × Value)}
    (hq : Matches s q (s.tail r) (.ok below)) (hp : Matches s p (s.head r) (.ok here)) :
    Matches s (.node p q) (.pair r) (.ok (below ++ here))

variable {s : Store} {t : Tree} {o : Value} {r : Except Mismatch (List (String × Value))}

theorem matches_matched (s : Store) (t : Tree) (o : Value) : t.Matches s o (t.matched s o) := by
  induction t generalizing o with
  | leaf v =>
    cases v with
    | sym name => exact .symbol name o
    | ignore => exact .ignore o
    | nil =>
      by_cases ho : o = .nil
      · subst ho
        exact .nil
      · have hshape : matched s (.leaf .nil) o = .error .shape := by
          cases o <;> first | rfl | exact absurd rfl ho
        rw [hshape]
        exact .excess ho
    | _ => exact .foreign o rfl
  | node p q ihp ihq =>
    cases o with
    | pair r =>
      have hq := ihq (s.tail r)
      have hp := ihp (s.head r)
      simp only [matched]
      cases htail : q.matched s (s.tail r) with
      | error e =>
        rw [htail] at hq
        exact .tail hq
      | ok below =>
        rw [htail] at hq
        cases hhead : p.matched s (s.head r) with
        | error e =>
          rw [hhead] at hp
          exact .head hq hp
        | ok here =>
          rw [hhead] at hp
          exact .both hq hp
    | _ => exact .lack rfl

theorem Matches.unique (h : t.Matches s o r) : t.matched s o = r := by
  induction h with
  | symbol | ignore | nil => rfl
  | @excess o ho => cases o <;> first | rfl | exact absurd rfl ho
  | @foreign v o hv =>
    cases v with
    | sym _ | nil | ignore => cases hv
    | _ => rfl
  | @lack p q o ho =>
    cases o with
    | pair r => cases ho
    | _ => rfl
  | tail _ ihq => simp only [matched, ihq]; rfl
  | head _ _ ihq ihp => simp only [matched, ihq, ihp]; rfl
  | both _ _ ihq ihp => simp only [matched, ihq, ihp]; rfl

theorem matches_iff : t.Matches s o r ↔ t.matched s o = r :=
  ⟨Matches.unique, fun h => h ▸ t.matches_matched s o⟩

/-- A mismatch of the rule is one of shape, or a leaf that is no formal parameter. -/
theorem Matches.mismatch {e : Mismatch} (h : t.Matches s o (.error e)) :
    e = .shape ∨ e = .notFormal := by
  generalize hr : (Except.error e : Except Mismatch (List (String × Value))) = r at h
  induction h with
  | symbol | ignore | nil | both => cases hr
  | excess | lack =>
    cases hr
    exact .inl rfl
  | foreign =>
    cases hr
    exact .inr rfl
  | tail _ ih => exact ih hr
  | head _ _ _ ih => exact ih hr

/-- The leaves of a tree, those of a tail before those of the head. -/
def fringe : Tree → List Value
  | .leaf v => [v]
  | .node h t => t.fringe ++ h.fringe

/-- The symbols among the leaves. -/
def symbols (t : Tree) : List String := t.fringe.filterMap Value.symbol?

@[simp] theorem symbols_node (h t : Tree) : (node h t).symbols = t.symbols ++ h.symbols :=
  List.filterMap_append

theorem leafNames_iff {v : Value} {seen names : List String} (hseen : seen.Nodup) :
    leafNames seen v = .ok names ↔ v.isFormal = true ∧ (seen ++ (leaf v).symbols).Nodup ∧
      names = seen ++ (leaf v).symbols := by
  cases v with
  | sym name =>
    have hsymbols : (leaf (.sym name)).symbols = [name] := rfl
    have hnodup : (seen ++ [name]).Nodup ↔ name ∉ seen := by
      rw [List.nodup_append]
      constructor
      · rintro ⟨-, -, hne⟩ hmem
        exact hne name hmem name (List.mem_singleton.mpr rfl) rfl
      · intro hnew
        refine ⟨hseen, List.nodup_singleton name, fun a ha b hb hab => hnew ?_⟩
        rwa [← List.mem_singleton.mp hb, ← hab]
    rw [hsymbols, hnodup, leafNames]
    by_cases hmem : name ∈ seen
    · simp [hmem]
    · simp [hmem, Value.isFormal, eq_comm]
  | nil | ignore =>
    have hempty : (leaf .nil).symbols = [] ∧ (leaf .ignore).symbols = [] := ⟨rfl, rfl⟩
    simp [leafNames, Value.isFormal, hempty, hseen, eq_comm]
  | _ => simp [leafNames, Value.isFormal]

/-- The names of a tree can be collected just if it is one of formal parameters and has no symbol
twice, and then they are its symbols. -/
theorem addNames_iff {t : Tree} {seen names : List String} (hseen : seen.Nodup) :
    t.addNames seen = .ok names ↔ (∀ v ∈ t.fringe, v.isFormal = true) ∧
      (seen ++ t.symbols).Nodup ∧ names = seen ++ t.symbols := by
  induction t generalizing seen names with
  | leaf v =>
    have hleaf : (∀ u ∈ (leaf v).fringe, u.isFormal = true) ↔ v.isFormal = true :=
      List.forall_mem_singleton
    rw [addNames, leafNames_iff hseen, hleaf]
  | node head tail ihh iht =>
    have hleaves : (∀ v ∈ (node head tail).fringe, v.isFormal = true) ↔
        (∀ v ∈ tail.fringe, v.isFormal = true) ∧ ∀ v ∈ head.fringe, v.isFormal = true :=
      List.forall_mem_append
    rw [hleaves, symbols_node, ← List.append_assoc]
    constructor
    · intro h
      obtain ⟨mid, hmid, hrest⟩ := Except.bind_eq_ok h
      obtain ⟨htail, hnodup, rfl⟩ := (iht hseen).mp hmid
      obtain ⟨hhead, hall, hnames⟩ := (ihh hnodup).mp hrest
      exact ⟨⟨htail, hhead⟩, hall, hnames⟩
    · rintro ⟨⟨htail, hhead⟩, hall, hnames⟩
      have hnodup : (seen ++ tail.symbols).Nodup := (List.nodup_append.mp hall).1
      have hmid : tail.addNames seen = .ok (seen ++ tail.symbols) :=
        (iht hseen).mpr ⟨htail, hnodup, rfl⟩
      rw [addNames, hmid]
      exact (ihh hnodup).mpr ⟨hhead, hall, hnames⟩

theorem addNames_error {t : Tree} {seen : List String} {e : Mismatch}
    (h : t.addNames seen = .error e) : e = .repeated ∨ e = .notFormal := by
  induction t generalizing seen with
  | leaf v =>
    cases v with
    | sym name =>
      rw [addNames, leafNames] at h
      by_cases hmem : name ∈ seen
      · rw [if_pos hmem] at h
        cases h
        exact .inl rfl
      · rw [if_neg hmem] at h
        cases h
    | nil | ignore => cases h
    | _ =>
      cases h
      exact .inr rfl
  | node head tail ihh iht =>
    rw [addNames] at h
    cases hmid : tail.addNames seen with
    | error k =>
      rw [hmid] at h
      cases h
      exact iht hmid
    | ok mid =>
      rw [hmid] at h
      exact ihh h

end Tree

namespace Store

variable {s : Store} {v : Value} {t : Tree}

/-- A pattern that unfolds is matched by its rule: to the same bindings in the same order, and with
the failure that goes with the mismatch, which names the whole of the pattern and its operands. -/
theorem matchFormals_by_rule (hv : s.Unfolds v t) (o : Value) :
    (∀ bs, s.matchFormals v o = .ok bs ↔ t.Matches s o (.ok bs)) ∧
      ∀ e, s.matchFormals v o = .error e ↔
        t.Matches s o (.error .shape) ∧ e = .failure (.arity (.shape v) o) ∨
          t.Matches s o (.error .notFormal) ∧
            e = .failure (.typeMismatch "formal parameter tree" v) := by
  have hrule := t.matches_matched s o
  rw [matchFormals_unfolds hv]
  simp only [Tree.matches_iff]
  cases hr : t.matched s o with
  | ok bs => simp [Except.mapError]
  | error k =>
    rw [hr] at hrule
    rcases hrule.mismatch with rfl | rfl <;>
      simp [Except.mapError, Mismatch.stop, eq_comm]

/-- The formals `((a . #ignore) . b)`. -/
def nestedFormals : Store where
  cells := #[⟨.sym "a", .ignore, none⟩, ⟨.pair 0, .sym "b", none⟩, ⟨.int 1, .int 2, none⟩,
    ⟨.pair 2, .int 3, none⟩]

theorem nestedFormals_unfolds : nestedFormals.Unfolds (.pair 1)
    (.node (.node (.leaf (.sym "a")) (.leaf .ignore)) (.leaf (.sym "b"))) :=
  .node (by decide) (.node (by decide) (.leaf rfl) (.leaf rfl)) (.leaf rfl)

/-- The tail of the operands is bound before what is in their head, and operands without a pair for
the head are of another shape. -/
theorem matchFormals_by_rule_nested :
    nestedFormals.matchFormals (.pair 1) (.pair 3) = .ok [("b", .int 3), ("a", .int 1)] ∧
      nestedFormals.matchFormals (.pair 1) (.pair 2) =
        .error (.failure (.arity (.shape (.pair 1)) (.pair 2))) := by
  constructor
  · have hhead : Tree.Matches nestedFormals (.node (.leaf (.sym "a")) (.leaf .ignore)) (.pair 2)
        (.ok ([] ++ [("a", .int 1)])) := .both (.ignore (.int 2)) (.symbol "a" (.int 1))
    have htail : Tree.Matches nestedFormals (.leaf (.sym "b")) (.int 3) (.ok [("b", .int 3)]) :=
      .symbol "b" (.int 3)
    have hboth : Tree.Matches nestedFormals _ (.pair 3) (.ok ([("b", .int 3)] ++ [("a", .int 1)])) :=
      .both htail hhead
    exact ((matchFormals_by_rule nestedFormals_unfolds (.pair 3)).1 _).mpr hboth
  · refine ((matchFormals_by_rule nestedFormals_unfolds (.pair 2)).2 _).mpr (.inl ⟨?_, rfl⟩)
    exact .head (.symbol "b" (.int 2)) (.lack rfl)

/-- The formals of a tree are accepted just if its leaves are symbols, empty lists and `#ignore` and
no symbol comes twice. Their names are then the symbols, each once, and operands bind just
these in their order or are of another shape. Formals that are not accepted are reported whole. -/
theorem formalNames_of_tree (hv : s.Unfolds v t) :
    (∀ names, s.formalNames v = .ok names ↔
      (∀ u ∈ t.fringe, u.isFormal = true) ∧ t.symbols.Nodup ∧ names = t.symbols) ∧
    (∀ e, s.formalNames v = .error e →
      e = .failure (.typeMismatch "formal parameter tree" v) ∨
        e = .failure (.typeMismatch "formal tree without repeated symbols" v)) ∧
    ∀ names, s.formalNames v = .ok names → ∀ o,
      s.matchFormals v o = .error (.failure (.arity (.shape v) o)) ∨
        ∃ bs, s.matchFormals v o = .ok bs ∧ bs.map Prod.fst = names := by
  have hnames := formalNames_unfolds hv
  refine ⟨fun names => ?_, fun e he => ?_, fun names h o => ?_⟩
  · have haccepted : t.addNames [] = .ok names ↔ _ := Tree.addNames_iff List.nodup_nil
    rw [List.nil_append] at haccepted
    rw [hnames, ← haccepted]
    cases t.addNames [] <;> simp [Except.mapError]
  · rw [hnames] at he
    obtain ⟨k, hk, rfl⟩ := Except.error_of_mapError he
    rcases Tree.addNames_error hk with rfl | rfl
    · exact .inr rfl
    · exact .inl rfl
  · rw [hnames] at h
    exact matchFormals_of_names hv (Except.ok_of_mapError h) o

theorem formalNames_of_tree_nested :
    nestedFormals.formalNames (.pair 1) = .ok ["b", "a"] ∧
      ∀ o, nestedFormals.matchFormals (.pair 1) o =
          .error (.failure (.arity (.shape (.pair 1)) o)) ∨
        ∃ bs, nestedFormals.matchFormals (.pair 1) o = .ok bs ∧ bs.map Prod.fst = ["b", "a"] := by
  obtain ⟨haccepted, -, hmatched⟩ := formalNames_of_tree nestedFormals_unfolds
  have hnames : nestedFormals.formalNames (.pair 1) = .ok ["b", "a"] :=
    (haccepted _).mpr ⟨by decide, by decide, rfl⟩
  exact ⟨hnames, hmatched _ hnames⟩

end Store

end Vau
