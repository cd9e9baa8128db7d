import Mathlib.Data.List.Chain
import Vau.Proofs.Division
import Vau.Proofs.Respect

/-! Comparisons, sums, products and differences of any number of integers. Comparing each integer
with the next one decides the relation for every two of them. The first operand that is no integer
is reported, whatever the integers before it are. -/

namespace Vau

/-- A call in this state comes to the value, or fails, and changes nothing. -/
def Operation.Returns (o : Operation) (operands : Value) (m : Machine) (r : Except Failure Value) :
    Prop :=
  ∀ cfg ev room env, callPrimitive cfg ev room (.operation o) operands env m =
    match r with
    | .ok v => .ok (.value v) m
    | .error f => .error (.failure f) m

namespace Comparison

/-- The relation between integers that is asked for. -/
def Relation : Comparison → Int → Int → Prop
  | .less, x, y => x < y
  | .greater, x, y => y < x
  | .lessEq, x, y => x ≤ y
  | .greaterEq, x, y => y ≤ x

variable {c : Comparison}

theorem holds_iff {x y : Int} : c.holds x y = true ↔ c.Relation x y := by
  cases c <;> exact decide_eq_true_iff

theorem Relation.trans {x y z : Int} (h : c.Relation x y) (h' : c.Relation y z) :
    c.Relation x z := by
  cases c <;> simp only [Relation] at * <;> omega

theorem chain_iff_isChain {ns : List Int} : c.chain ns = true ↔ ns.IsChain c.Relation := by
  induction ns with
  | nil => simp [chain]
  | cons x rest ih =>
    cases rest with
    | nil => simp [chain]
    | cons y rest =>
      have hfirst : c.chain (x :: y :: rest) = (c.holds x y && c.chain (y :: rest)) := rfl
      rw [hfirst, Bool.and_eq_true, holds_iff, List.isChain_cons_cons]
      exact and_congr_right fun _ => ih

/-- Neighbours are enough, since each relation is transitive. -/
theorem chain_iff_pairwise {ns : List Int} : c.chain ns = true ↔ ns.Pairwise c.Relation := by
  have : IsTrans Int c.Relation := ⟨fun _ _ _ => Relation.trans⟩
  exact chain_iff_isChain.trans List.isChain_iff_pairwise

end Comparison

section Operands

variable {operator : String} {vs : List Value} {v : Value}

theorem integerOperands_int (operator : String) (ns : List Int) :
    integerOperands operator (ns.map .int) = .ok ns := by
  induction ns with
  | nil => rfl
  | cons n ns ih =>
    rw [integerOperands] at ih
    rw [integerOperands, List.map_cons, List.mapM_cons, ih]
    rfl

theorem integerOperands_other (h : vs.find? (fun u => !Test.integer.holds u) = some v) :
    integerOperands operator vs =
      .error (.typeMismatch ("integer operand for " ++ operator) v) := by
  obtain ⟨hv, before, after, rfl, hbefore⟩ := List.find?_eq_some_iff_append.mp h
  have hother := Arithmetic.integerOperand_of_test operator (by simpa using hv)
  clear h
  induction before with
  | nil =>
    rw [integerOperands, List.nil_append, List.mapM_cons, hother]
    rfl
  | cons u before ih =>
    obtain ⟨hu, hbefore⟩ := List.forall_mem_cons.mp hbefore
    replace ih := ih hbefore
    rw [integerOperands] at ih
    cases u with
    | int n =>
      rw [integerOperands, List.cons_append, List.mapM_cons, ih]
      rfl
    | _ => cases hu

theorem exists_integers (h : vs.find? (fun u => !Test.integer.holds u) = none) :
    ∃ ns : List Int, vs = ns.map .int := by
  induction vs with
  | nil => exact ⟨[], rfl⟩
  | cons u vs ih =>
    cases u with
    | int n =>
      have hrest : vs.find? (fun u => !Test.integer.holds u) = none := h
      obtain ⟨ns, rfl⟩ := ih hrest
      exact ⟨n :: ns, rfl⟩
    | _ => cases h

end Operands

theorem foldl_sub (n : Int) (ns : List Int) : ns.foldl (· - ·) n = n - ns.sum := by
  induction ns generalizing n with
  | nil => simp
  | cons m ns ih =>
    rw [List.foldl_cons, ih, List.sum_cons]
    omega

namespace Operation

/-- The primitives that take integers, as many as there are. -/
def variadic : List Operation :=
  [.compare .less, .compare .greater, .compare .lessEq, .compare .greaterEq,
    .arithmetic .add, .arithmetic .multiply, .arithmetic .subtract]

variable {o : Operation} {m : Machine} {operands : Value} {vs : List Value} {ns : List Int}
  {v : Value}

theorem variadic_cases (ho : o ∈ variadic) : (∃ c, o = .compare c) ∨ o = .arithmetic .add ∨
    o = .arithmetic .multiply ∨ o = .arithmetic .subtract := by
  cases o with
  | compare c => exact .inl ⟨c, rfl⟩
  | arithmetic a => exact .inr (by simpa [variadic] using ho)
  | _ => simp [variadic] at ho

theorem Returns.unique {r r' : Except Failure Value} (h : o.Returns operands m r)
    (h' : o.Returns operands m r') : r = r' := by
  have hsame := (h {} (fun _ _ => pure .nil) 0 0).symm.trans (h' {} (fun _ _ => pure .nil) 0 0)
  cases r <;> cases r' <;> cases hsame <;> rfl

section Calls

variable (hspine : m.store.spine? operands = some (vs, .nil))
  (hadmits : o.signature.admits vs.length = true)
include hspine hadmits

theorem callPrimitive_eq (cfg : Settings) (ev : Evaluation) (room env : Nat) :
    callPrimitive cfg ev room (.operation o) operands env m = (o.perform room env vs).act m := by
  have hchecked : checkedOperands o.signature operands m.world = .ok vs m.world := by
    have hspine' : m.world.store.spine? operands = some (vs, .nil) := hspine
    simp only [checkedOperands, Deed.reads, Bind.bind, EStateM.bind, hspine', hadmits, if_true]
    rfl
  have hcall : callPrimitive cfg ev room (.operation o) operands env =
      (checkedOperands o.signature operands >>= fun vs => o.perform room env vs).act :=
    (Deed.act_bind _ _).symm
  rw [hcall]
  simp only [Deed.act, Bind.bind, EStateM.bind, hchecked]

theorem returns_of_perform {r : Except Failure Value}
    (h : ∀ room env, o.perform room env vs = computed (r.map .value)) :
    o.Returns operands m r := by
  intro cfg ev room env
  rw [callPrimitive_eq hspine hadmits, h]
  cases r <;> rfl

end Calls

section Results

variable (hspine : m.store.spine? operands = some (vs, .nil))
include hspine

theorem returns_arithmetic {a : Arithmetic} (hadmits : a.signature.admits vs.length = true) :
    (arithmetic a).Returns operands m ((a.apply vs).map .int) := by
  refine returns_of_perform (o := .arithmetic a) hspine hadmits fun room env => ?_
  rw [Arithmetic.returns_iff.mpr rfl room env]
  cases a.apply vs <;> rfl

theorem returns_compare {c : Comparison} (hadmits : (compare c).signature.admits vs.length = true) :
    (compare c).Returns operands m ((c.apply vs).map .bool) := by
  refine returns_of_perform hspine hadmits fun room env => ?_
  simp only [perform, value]
  cases c.apply vs <;> rfl

theorem returns_computed {a : Arithmetic} {n : Int} (hvs : vs = ns.map .int)
    (hadmits : a.signature.admits vs.length = true) (h : a.compute ns = .ok n) :
    (arithmetic a).Returns operands m (.ok (.int n)) := by
  have happly : a.apply vs = .ok n := by
    rw [Arithmetic.apply, hvs, integerOperands_int]
    exact h
  have hreturns := returns_arithmetic hspine hadmits
  rwa [happly] at hreturns

theorem returns_chain {c : Comparison} (hvs : vs = ns.map .int)
    (hadmits : (compare c).signature.admits vs.length = true) :
    (compare c).Returns operands m (.ok (.bool (c.chain ns))) := by
  have happly : c.apply vs = .ok (c.chain ns) := by
    rw [Comparison.apply, hvs, integerOperands_int]
    rfl
  have hreturns := returns_compare hspine hadmits
  rwa [happly] at hreturns

/-- The operands are checked before anything is computed. -/
theorem returns_mismatch (ho : o ∈ variadic) (hadmits : o.signature.admits vs.length = true)
    (hfirst : vs.find? (fun u => !Test.integer.holds u) = some v) :
    o.Returns operands m (.error (.typeMismatch ("integer operand for " ++ o.name) v)) := by
  have harithmetic : ∀ a : Arithmetic, a.signature.admits vs.length = true →
      (arithmetic a).Returns operands m
        (.error (.typeMismatch ("integer operand for " ++ a.name) v)) := by
    intro a hadmits
    have hreturns := returns_arithmetic hspine hadmits
    rwa [Arithmetic.apply, integerOperands_other hfirst] at hreturns
  rcases variadic_cases ho with ⟨c, rfl⟩ | rfl | rfl | rfl
  · have hreturns := returns_compare hspine hadmits
    rwa [Comparison.apply, integerOperands_other hfirst] at hreturns
  · exact harithmetic .add hadmits
  · exact harithmetic .multiply hadmits
  · exact harithmetic .subtract hadmits

theorem returns_difference {n : Int} {rest : List Int} (hvs : vs = (n :: rest).map .int) :
    (arithmetic .subtract).Returns operands m
      (.ok (.int (if rest = [] then -n else n - rest.sum))) := by
  have hadmits : Arithmetic.subtract.signature.admits vs.length = true := by
    simp [hvs, Arithmetic.signature, Signature.atLeast, Signature.admits]
  refine returns_computed hspine hvs hadmits ?_
  cases rest with
  | nil => rfl
  | cons k rest => rw [if_neg (List.cons_ne_nil k rest), ← foldl_sub]; rfl

theorem returns_integer (ho : o ∈ variadic) (hadmits : o.signature.admits vs.length = true)
    (hvs : vs = ns.map .int) : ∃ v, o.Returns operands m (.ok v) := by
  rcases variadic_cases ho with ⟨c, rfl⟩ | rfl | rfl | rfl
  · exact ⟨_, returns_chain hspine hvs hadmits⟩
  · exact ⟨_, returns_computed hspine hvs hadmits rfl⟩
  · exact ⟨_, returns_computed hspine hvs hadmits rfl⟩
  · obtain ⟨n, rest, rfl⟩ : ∃ n rest, ns = n :: rest := by
      refine List.exists_cons_of_ne_nil fun hnil => ?_
      simp [hvs, hnil, signature, Arithmetic.signature, Signature.atLeast, Signature.admits] at hadmits
    exact ⟨_, returns_difference hspine hvs⟩

theorem returns_failure_iff (ho : o ∈ variadic) (hadmits : o.signature.admits vs.length = true)
    (f : Failure) : o.Returns operands m (.error f) ↔
      ∃ v, vs.find? (fun u => !Test.integer.holds u) = some v ∧
        f = .typeMismatch ("integer operand for " ++ o.name) v := by
  constructor
  · intro h
    cases hfirst : vs.find? (fun u => !Test.integer.holds u) with
    | none =>
      obtain ⟨ns, hns⟩ := exists_integers hfirst
      obtain ⟨v, hv⟩ := returns_integer hspine ho hadmits hns
      cases h.unique hv
    | some v =>
      have hmismatch := returns_mismatch hspine ho hadmits hfirst
      exact ⟨v, rfl, Except.error.inj (h.unique hmismatch)⟩
  · rintro ⟨v, hfirst, rfl⟩
    exact returns_mismatch hspine ho hadmits hfirst

end Results

end Operation

open Operation

/-- Of integers, a comparison tells whether the relation holds between each and every later one, and
the others come to the sum, the product and the difference. Each of these primitives fails if and
only if an operand is no integer, and then with the first such operand. -/
theorem variadic_laws {m : Machine} {operands : Value} {vs : List Value}
    (hspine : m.store.spine? operands = some (vs, .nil)) :
    (∀ ns : List Int, vs = ns.map .int →
      (2 ≤ ns.length → ∀ c, ∃ b, (compare c).Returns operands m (.ok (.bool b)) ∧
        (b = true ↔ ns.Pairwise c.Relation)) ∧
      (arithmetic .add).Returns operands m (.ok (.int ns.sum)) ∧
      (arithmetic .multiply).Returns operands m (.ok (.int ns.prod)) ∧
      (∀ n, ns = [n] → (arithmetic .subtract).Returns operands m (.ok (.int (-n)))) ∧
      ∀ n rest, ns = n :: rest → rest ≠ [] →
        (arithmetic .subtract).Returns operands m (.ok (.int (n - rest.sum)))) ∧
    ∀ o ∈ variadic, o.signature.admits vs.length = true →
      ((∃ expected v, o.Returns operands m (.error (.typeMismatch expected v))) ↔
        ∃ v ∈ vs, Test.integer.holds v = false) ∧
      ∀ f, o.Returns operands m (.error f) ↔
        ∃ v, vs.find? (fun u => !Test.integer.holds u) = some v ∧
          f = .typeMismatch ("integer operand for " ++ o.name) v := by
  refine ⟨fun ns hvs => ⟨fun htwo c => ?_, ?_, ?_, ?_, ?_⟩, fun o ho hadmits => ?_⟩
  · have hadmits : (compare c).signature.admits vs.length = true := by
      simpa [hvs, signature, Signature.atLeast, Signature.admits] using htwo
    exact ⟨c.chain ns, returns_chain hspine hvs hadmits, c.chain_iff_pairwise⟩
  · refine returns_computed hspine hvs rfl ?_
    rw [Arithmetic.compute, List.sum_eq_foldl]
  · refine returns_computed hspine hvs rfl ?_
    rw [Arithmetic.compute, List.prod_eq_foldl]
  · rintro n rfl
    exact returns_difference hspine hvs
  · rintro n rest rfl hrest
    have hreturns := returns_difference hspine hvs
    rwa [if_neg hrest] at hreturns
  · refine ⟨⟨?_, ?_⟩, returns_failure_iff hspine ho hadmits⟩
    · rintro ⟨expected, v, h⟩
      obtain ⟨u, hfirst, -⟩ := (returns_failure_iff hspine ho hadmits _).mp h
      exact ⟨u, List.mem_of_find?_eq_some hfirst, by simpa using List.find?_some hfirst⟩
    · rintro ⟨v, hv, hother⟩
      have hsome : (vs.find? (fun u => !Test.integer.holds u)).isSome = true :=
        List.find?_isSome.mpr ⟨v, hv, by simp [hother]⟩
      obtain ⟨u, hfirst⟩ := Option.isSome_iff_exists.mp hsome
      exact ⟨_, u, returns_mismatch hspine ho hadmits hfirst⟩

/-- The lists `(7 4 2)` and `(4 7 #t "a")`. -/
def comparedNumbers : Machine where
  world := { store := { cells := #[⟨.int 7, .pair 1, none⟩, ⟨.int 4, .pair 2, none⟩,
    ⟨.int 2, .nil, none⟩, ⟨.int 4, .pair 4, none⟩, ⟨.int 7, .pair 5, none⟩,
    ⟨.bool true, .pair 6, none⟩, ⟨.str "a", .nil, none⟩] } }

/-- That `4` is not greater than `7` does not keep `#t` from being reported. -/
theorem variadic_laws_boolean :
    comparedNumbers.store.spine? (.pair 0) = some ([.int 7, .int 4, .int 2], .nil) ∧
    comparedNumbers.store.spine? (.pair 3) =
      some ([.int 4, .int 7, .bool true, .str "a"], .nil) ∧
    (∃ b, (compare .greater).Returns (.pair 0) comparedNumbers (.ok (.bool b)) ∧
      (b = true ↔ [7, 4, 2].Pairwise Comparison.greater.Relation)) ∧
    (arithmetic .subtract).Returns (.pair 0) comparedNumbers (.ok (.int 1)) ∧
    (compare .greater).Returns (.pair 3) comparedNumbers
      (.error (.typeMismatch "integer operand for >" (.bool true))) := by
  have hnumbers : comparedNumbers.store.spine? (.pair 0) =
      some ([.int 7, .int 4, .int 2], .nil) := by decide
  have hmixed : comparedNumbers.store.spine? (.pair 3) =
      some ([.int 4, .int 7, .bool true, .str "a"], .nil) := by decide
  obtain ⟨hcompare, -, -, -, hsubtract⟩ := (variadic_laws hnumbers).1 [7, 4, 2] rfl
  obtain ⟨-, hfailure⟩ := (variadic_laws hmixed).2 (.compare .greater) (by decide) (by decide)
  exact ⟨hnumbers, hmixed, hcompare (by decide) .greater, hsubtract 7 [4, 2] rfl (by decide),
    (hfailure _).mpr ⟨.bool true, by decide, by decide⟩⟩

end Vau
