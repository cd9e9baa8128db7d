import Vau.Equality
import Vau.Proofs.Tree

/-! Structural equality compares trees. It decides, for values that unfold, whether their
trees have the same shape and equal leaves. -/

namespace Vau

namespace Tree

/-- The same shape with leaves that are equal as values. -/
def same : Tree → Tree → Bool
  | .leaf v, .leaf w => v.atomEq w
  | .node h t, .node h' t' => h.same h' && t.same t'
  | _, _ => false

theorem same_refl (t : Tree) : t.same t = true := by
  induction t with
  | leaf v => cases v <;> simp [same, Value.atomEq]
  | node h t ihh iht => simp [same, ihh, iht]

end Tree

theorem Value.atomEq_pair {v : Value} (hv : v.isPair = false) (r : Nat) :
    v.atomEq (.pair r) = false ∧ (Value.pair r).atomEq v = false := by
  cases v with
  | pair _ => simp [Value.isPair] at hv
  | _ => simp [Value.atomEq]

namespace Store

variable {s : Store}

theorem equalSpine_leaf {f : Value → Value → Except Stop Bool} (fuel : Nat) {a b : Value}
    (h : a.isPair = false ∨ b.isPair = false) :
    s.equalSpine f fuel a b = .ok (a.atomEq b) := by
  unfold equalSpine
  split
  · simp [Value.isPair] at h
  · rfl

theorem equalSpine_unfolds {f : Value → Value → Except Stop Bool} {room fuel : Nat}
    {a b : Value} {t u : Tree} (ha : s.Unfolds a t) (hb : s.Unfolds b u) (hroom : t.depth ≤ room)
    (hfuel : t.chain ≤ fuel)
    (hf : ∀ {a b t u}, s.Unfolds a t → s.Unfolds b u → t.depth < room → f a b = .ok (t.same u)) :
    s.equalSpine f fuel a b = .ok (t.same u) := by
  induction ha generalizing fuel b u with
  | leaf hv =>
    rw [equalSpine_leaf fuel (.inl hv)]
    cases hb with
    | leaf _ => rfl
    | node _ _ _ =>
      rw [(Value.atomEq_pair hv _).1]
      rfl
  | @node r h t hr hh ht _ ih =>
    cases hb with
    | leaf hw =>
      rw [equalSpine_leaf fuel (.inr hw), (Value.atomEq_pair hw _).2]
      rfl
    | @node r' h' t' hr' hh' ht' =>
      simp only [Tree.depth, Nat.max_le] at hroom
      simp only [Tree.chain] at hfuel
      obtain ⟨fuel, rfl⟩ : ∃ k, fuel = k + 1 := ⟨fuel - 1, by omega⟩
      by_cases hrr : r = r'
      · subst hrr
        rw [hh.unique hh', ht.unique ht', Tree.same_refl]
        simp [equalSpine]
      · simp only [equalSpine, if_neg hrr, hf hh hh' hroom.1, Tree.same]
        cases h.same h' with
        | false => rfl
        | true =>
          have hrest := ih ht' hroom.2 (Nat.le_of_succ_le_succ hfuel)
          simpa using hrest

/-- Structural equality, with room for the levels of one side, decides whether trees are
the same. -/
theorem equal_unfolds {room : Nat} {a b : Value} {t u : Tree} (ha : s.Unfolds a t)
    (hb : s.Unfolds b u) (hroom : t.depth < room) : s.equal room a b = .ok (t.same u) := by
  induction room generalizing a b t u with
  | zero => omega
  | succ room ih =>
    have hfuel : t.chain ≤ s.cells.size * s.cells.size :=
      Nat.le_trans ha.chain_le (Nat.le_mul_self _)
    exact equalSpine_unfolds ha hb (Nat.le_of_lt_succ hroom) hfuel ih

end Store

end Vau
