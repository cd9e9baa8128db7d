import Vau.Reader.Node

/-! The children of a list. What is read of a list is read of its elements one by one, and of the
node after the dot if there is one. -/

namespace Vau

/-- The datum has no parts. -/
def Datum.isAtom : Datum → Bool
  | .pair _ _ _ => false
  | .group _ => false
  | _ => true

namespace Node

section Conversion

variable {source : Option String} {ns : List Node} {n : Node}

/-- A tree that is neither a program nor a list is converted to an atom wherever it stands, or
refused: for its digits if it is an integer, or with an error. -/
theorem atom_cases (tag : Tag) (text : String) (hprogram : tag ≠ .program) (hlist : tag ≠ .list) :
    (∃ d : Datum, d.isAtom = true ∧ ∀ source o ns, toDatum source (.tree tag text o ns) = .ok d) ∨
    (tag = .integer ∧ integer text = .error .digits ∧
      ∀ source o ns, toDatum source (.tree tag text o ns) = .error .digits) ∨
    ∀ source o ns, ∃ e, toDatum source (.tree tag text o ns) = .error (.error e) := by
  cases tag with
  | program => exact absurd rfl hprogram
  | list => exact absurd rfl hlist
  | integer =>
    cases hread : readDecimal? text.toList with
    | none =>
      have hdigits : integer text = .error .digits := by rw [integer, hread]
      exact .inr (.inl ⟨rfl, hdigits, fun _ _ _ => hdigits⟩)
    | some k => exact .inl ⟨.int k, rfl, fun _ _ _ => by rw [toDatum, integer, hread]⟩
  | string =>
    cases hdecode : Quoted.decode text.toList with
    | error flaw => exact .inr (.inr fun _ o _ => ⟨_, by rw [toDatum, string, hdecode]⟩)
    | ok content => exact .inl ⟨_, rfl, fun _ _ _ => by rw [toDatum, string, hdecode]⟩
  | constant => exact .inl ⟨_, by split <;> rfl, fun _ _ _ => rfl⟩
  | boolean | nil | symbol => exact .inl ⟨_, rfl, fun _ _ _ => rfl⟩
  | tail | other name => exact .inr (.inr fun _ _ _ => ⟨_, rfl⟩)

theorem toElements_cons (h : ¬ (n.isTail && ns.isEmpty) = true) :
    toElements source (n :: ns) = do
      let d ← toDatum source n
      let ds ← toElements source ns
      return d :: ds := by
  rw [toElements, if_neg h]

theorem toEnding_cons (h : ∀ text o m ms, n = .tree .tail text o (m :: ms) → ns ≠ []) :
    toEnding source (n :: ns) = toEnding source ns := by
  rw [toEnding]
  exact h

/-- Induction along the conversion: over nodes, over the children of a list up to a dotted tail,
over children for what is at their end, and over sequences. -/
theorem conversion_induction {datum : Node → Prop} {elements ending items : List Node → Prop}
    (made : ∀ d, datum (.datum d))
    (sequence : ∀ ns, items ns → datum (.sequence ns))
    (program : ∀ text o ns, items ns → datum (.tree .program text o ns))
    (list : ∀ text o ns, elements ns → ending ns → datum (.tree .list text o ns))
    (atom : ∀ tag text o ns, tag ≠ .program → tag ≠ .list → datum (.tree tag text o ns))
    (elements_nil : elements [])
    (elements_tail : ∀ n ns, (n.isTail && ns.isEmpty) = true → elements (n :: ns))
    (elements_cons : ∀ n ns, ¬ (n.isTail && ns.isEmpty) = true → datum n → elements ns →
      elements (n :: ns))
    (ending_nil : ending [])
    (ending_tail : ∀ text o n ns, datum n → ending [.tree .tail text o (n :: ns)])
    (ending_cons : ∀ n ns, (∀ text o m ms, n = .tree .tail text o (m :: ms) → ns ≠ []) →
      ending ns → ending (n :: ns))
    (items_nil : items [])
    (items_cons : ∀ n ns, datum n → items ns → items (n :: ns)) :
    (∀ n, datum n) ∧ (∀ ns, elements ns) ∧ (∀ ns, ending ns) ∧ ∀ ns, items ns :=
  toDatum.mutual_induct datum elements ending items made sequence program
    (fun text o ns hending helements => list text o ns helements hending)
    (fun text o ns => atom .integer text o ns nofun nofun)
    (fun text o ns => atom .string text o ns nofun nofun)
    (fun text o ns => atom .boolean text o ns nofun nofun)
    (fun text o ns => atom .constant text o ns nofun nofun)
    (fun text o ns => atom .nil text o ns nofun nofun)
    (fun text o ns => atom .symbol text o ns nofun nofun)
    (fun tag text o ns hprogram hlist _ _ _ _ _ _ => atom tag text o ns hprogram hlist)
    elements_nil elements_tail elements_cons ending_nil ending_tail ending_cons items_nil items_cons

end Conversion

variable {source : Option String} {ns ms : List Node} {m : Node} {text : String} {o o' : Origin}
  (hns : ∀ n ∈ ns, n.isTail = false)
include hns

theorem checkTail_proper : checkTail o ns = .ok () := by
  unfold checkTail
  split
  · rename_i h
    have hlast := hns _ (List.mem_of_getLast? h)
    cases hlast
  · rfl

omit hns in
theorem checkTail_dotted (hne : ns ≠ []) :
    checkTail o (ns ++ [.tree .tail text o' [m]]) = .ok () := by
  simp [checkTail, hne]

theorem toElements_proper : toElements source ns = toItems source ns := by
  induction ns with
  | nil => simp [toElements, toItems]
  | cons n ns ih =>
    obtain ⟨hn, hns⟩ := List.forall_mem_cons.mp hns
    simp [toElements, toItems, hn, ih hns]

theorem toElements_dotted :
    toElements source (ns ++ [.tree .tail text o ms]) = toItems source ns := by
  induction ns with
  | nil => simp [toElements, toItems, isTail]
  | cons n ns ih =>
    obtain ⟨hn, hns⟩ := List.forall_mem_cons.mp hns
    simp [toElements, toItems, hn, ih hns]

theorem toEnding_proper : toEnding source ns = .ok .nil := by
  induction ns with
  | nil => simp [toEnding]
  | cons n ns ih =>
    obtain ⟨hn, hns⟩ := List.forall_mem_cons.mp hns
    rw [toEnding, ih hns]
    rintro _ _ _ _ rfl
    cases hn

theorem toEnding_dotted : toEnding source (ns ++ [.tree .tail text o [m]]) = toDatum source m := by
  induction ns with
  | nil => simp [toEnding]
  | cons n ns ih =>
    obtain ⟨hn, hns⟩ := List.forall_mem_cons.mp hns
    rw [List.cons_append, toEnding, ih hns]
    rintro _ _ _ _ rfl
    cases hn

end Node

end Vau
