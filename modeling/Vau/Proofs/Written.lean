import Vau.Printer
import Vau.Proofs.Tree
import Vau.Proofs.Word

/-! Legible trees and their text. The reader has a notation for every leaf of a legible tree,
and a value that unfolds to one is printed as the text of the tree. -/

namespace Vau

/-- What the reader can give back: a symbol is a word that is nothing else, and the digits
of an integer are not too many. -/
def Value.Legible : Value → Prop
  | .nil | .ignore | .inert | .bool _ | .str _ => True
  | .int n => n.natAbs < digitBound
  | .sym name => Grammar.IsWord name.toList ∧ name.toList.head? ≠ some '#' ∧ name ≠ "." ∧
    name ≠ "nil" ∧ isNumeral name.toList = false
  | _ => False

def Value.literal : Value → List Char
  | .nil => ['(', ')']
  | .ignore => "#ignore".toList
  | .inert => "#inert".toList
  | .bool b => if b then ['#', 't'] else ['#', 'f']
  | .int n => decimalText n
  | .str t => Quoted.encode t.toList
  | .sym name => name.toList
  | _ => []

namespace Tree

def Legible : Tree → Prop
  | .leaf v => v.Legible
  | .node h t => h.Legible ∧ t.Legible

/-- Levels of lists in the text, where the empty list counts as one. -/
def levels : Tree → Nat
  | .leaf .nil => 1
  | .leaf _ => 0
  | .node h t => max (h.levels + 1) t.levels

mutual

def text : Tree → List Char
  | .leaf v => v.literal
  | .node h t => '(' :: (h.text ++ t.ending)

/-- What stands after an element when the rest of the list is the tree. -/
def ending : Tree → List Char
  | .leaf .nil => [')']
  | .leaf v => ' ' :: '.' :: ' ' :: (v.literal ++ [')'])
  | .node h t => ' ' :: (h.text ++ t.ending)

end

def elements : Tree → List (List Char)
  | .leaf .nil => []
  | .leaf v => [['.'], v.literal]
  | .node h t => h.text :: t.elements

theorem depth_le_levels (t : Tree) : t.depth ≤ t.levels := by
  induction t with
  | leaf v => exact Nat.zero_le _
  | node h t ihh iht =>
    simp only [depth, levels]
    omega

theorem Legible.last {t : Tree} (ht : t.Legible) : t.last.Legible := by
  induction t with
  | leaf v => exact ht
  | node h t _ ih => exact ih ht.2

theorem chain_le_ending (t : Tree) : t.chain ≤ t.ending.length := by
  induction t with
  | leaf v => exact Nat.zero_le _
  | node h t _ ih =>
    simp only [chain, ending, List.length_cons, List.length_append]
    omega

theorem intercalate_elements (x : List Char) (t : Tree) :
    [' '].intercalate (x :: t.elements) ++ [')'] = x ++ t.ending := by
  induction t generalizing x with
  | leaf v => cases v <;> simp [elements, ending, List.intercalate]
  | node h t _ ih =>
    have hnext := ih h.text
    simp only [List.intercalate] at hnext
    simp [elements, ending, List.intercalate, ← hnext]

end Tree

namespace Printer

variable {s : Store} {v : Value} {t : Tree}

theorem atom_legible (s : Store) (hv : v.Legible) : atom .plain s v = .ok v.literal := by
  cases v with
  | int n =>
    have hn : writeDecimal? n = some (decimalText n) := writeDecimal?_of_lt hv
    simp only [atom, hn]
    rfl
  | nil | ignore | inert | bool _ | str _ | sym _ => rfl
  | _ => exact hv.elim

theorem write_leaf (st : Style) (s : Store) (room depth : Nat) (hv : v.isPair = false) :
    write st s room depth v = atom st s v := by
  cases v with
  | pair _ => simp [Value.isPair] at hv
  | _ => cases room <;> rfl

/-- The texts of a chain of pairs, when heads at most as deep as `room` are written as the
texts of their trees. -/
theorem parts_unfolds {f : Value → Except Stop (List Char)} {room : Nat}
    (hf : ∀ {v t}, s.Unfolds v t → t.Legible → t.depth ≤ room → f v = .ok t.text)
    (hv : s.Unfolds v t) (ht : t.Legible) (hroom : t.depth ≤ room + 1) {fuel : Nat}
    (hfuel : t.chain ≤ fuel) (used : Nat) (done : List (List Char)) :
    parts .plain s f fuel used done v = .ok (done.reverse ++ t.elements) := by
  induction hv generalizing fuel used done with
  | @leaf v hv =>
    have hw := hf (.leaf hv) ht (Nat.zero_le room)
    cases v with
    | pair _ => simp [Value.isPair] at hv
    | nil => simp [parts, Tree.elements]
    | _ => simp [parts, hw, Tree.elements, Tree.text]
  | @node r h t _ hh _ _ ih =>
    simp only [Tree.depth, Nat.max_le] at hroom
    simp only [Tree.chain] at hfuel
    obtain ⟨fuel, rfl⟩ : ∃ k, fuel = k + 1 := ⟨fuel - 1, by omega⟩
    have hhead := hf hh ht.1 (Nat.le_of_succ_le_succ hroom.1)
    have hrest := ih ht.2 hroom.2 (Nat.le_of_succ_le_succ hfuel) (used + h.text.length + 1)
      (h.text :: done)
    simp [parts, hhead, Style.exceeds, Style.plain, Tree.elements] at hrest ⊢
    exact hrest

theorem write_unfolds {room : Nat} (depth : Nat) (hv : s.Unfolds v t) (ht : t.Legible)
    (hroom : t.depth ≤ room) : write .plain s room depth v = .ok t.text := by
  induction room generalizing depth v t with
  | zero =>
    cases hv with
    | leaf hv => rw [write_leaf _ _ _ _ hv, atom_legible s ht, Tree.text]
    | node _ _ _ =>
      simp only [Tree.depth] at hroom
      omega
  | succ room ih =>
    cases hv with
    | leaf hv => rw [write_leaf _ _ _ _ hv, atom_legible s ht, Tree.text]
    | @node r h t hr hh htl =>
      have hv := Store.Unfolds.node hr hh htl
      have hparts := parts_unfolds (ih (depth + 1)) hv ht hroom hv.chain_le 0 []
      simp only [write, Style.omits, Style.plain, Style.budget] at hparts ⊢
      rw [hparts]
      simp [Tree.elements, Tree.text, Tree.intercalate_elements]

end Printer

theorem Store.print_unfolds {s : Store} {v : Value} {t : Tree} (hv : s.Unfolds v t)
    (ht : t.Legible) (hroom : t.depth ≤ hostRoom) :
    s.print .plain v = .ok (String.ofList t.text) := by
  rw [print, format, Printer.write_unfolds 0 hv ht hroom]
  rfl

end Vau
