import Vau.Reader.Datum

/-! Values as trees. A value unfolds if no heads and tails can be taken from it for ever;
its tree forgets where the pairs are and which of them are shared. -/

namespace Vau

inductive Tree where
  | leaf (v : Value)
  | node (head tail : Tree)
deriving DecidableEq, Repr

namespace Tree

def chain : Tree → Nat
  | .leaf _ => 0
  | .node _ t => t.chain + 1

def depth : Tree → Nat
  | .leaf _ => 0
  | .node h t => max (h.depth + 1) t.depth

def height : Tree → Nat
  | .leaf _ => 0
  | .node h t => max h.height t.height + 1

theorem chain_le_height (t : Tree) : t.chain ≤ t.height := by
  induction t with
  | leaf v => exact Nat.le_refl _
  | node h t _ ih =>
    simp only [chain, height]
    omega

theorem depth_le_height (t : Tree) : t.depth ≤ t.height := by
  induction t with
  | leaf v => exact Nat.le_refl _
  | node h t ihh iht =>
    simp only [depth, height]
    omega

def heads : Tree → List Tree
  | .leaf _ => []
  | .node h t => h :: t.heads

def last : Tree → Value
  | .leaf v => v
  | .node _ t => t.last

theorem foldr_heads (t : Tree) : t.heads.foldr node (.leaf t.last) = t := by
  induction t with
  | leaf v => rfl
  | node h t _ ih => simp [heads, last, ih]

end Tree

namespace Store

inductive Unfolds (s : Store) : Value → Tree → Prop where
  | leaf {v : Value} : v.isPair = false → Unfolds s v (.leaf v)
  | node {r : Nat} {h t : Tree} :
    r < s.cells.size → Unfolds s (s.head r) h → Unfolds s (s.tail r) t →
      Unfolds s (.pair r) (.node h t)

variable {s s' : Store} {v : Value} {t u : Tree}

theorem Unfolds.unique (ht : s.Unfolds v t) (hu : s.Unfolds v u) : t = u := by
  induction ht generalizing u with
  | leaf hv =>
    cases hu with
    | leaf _ => rfl
    | node _ _ _ => simp [Value.isPair] at hv
  | node _ _ _ ihh iht =>
    cases hu with
    | leaf hv => simp [Value.isPair] at hv
    | node _ hh ht => rw [ihh hh, iht ht]

/-- Downwards no pair comes twice, since the trees that start there differ in height. -/
theorem Unfolds.refs (ht : s.Unfolds v t) :
    ∃ refs : List Nat, refs.length = t.height ∧ refs.Nodup ∧
      ∀ r ∈ refs, r < s.cells.size ∧ ∃ u, s.Unfolds (.pair r) u ∧ u.height ≤ t.height := by
  induction ht with
  | leaf _ => exact ⟨[], rfl, List.nodup_nil, by simp⟩
  | @node r h t hr hh ht ihh iht =>
    have hnode : s.Unfolds (.pair r) (.node h t) := .node hr hh ht
    -- the way down goes through the higher of the two
    have hdown : ∃ refs : List Nat, refs.length = max h.height t.height ∧ refs.Nodup ∧
        ∀ r ∈ refs, r < s.cells.size ∧
          ∃ u, s.Unfolds (.pair r) u ∧ u.height ≤ max h.height t.height := by
      rcases Nat.le_total h.height t.height with hle | hle
      · rwa [Nat.max_eq_right hle]
      · rwa [Nat.max_eq_left hle]
    obtain ⟨refs, hlen, hnodup, hrefs⟩ := hdown
    have hnew : r ∉ refs := by
      intro hmem
      obtain ⟨-, u, hu, hle⟩ := hrefs r hmem
      rw [hu.unique hnode] at hle
      simp only [Tree.height] at hle
      omega
    refine ⟨r :: refs, by simp [Tree.height, hlen], List.nodup_cons.mpr ⟨hnew, hnodup⟩, ?_⟩
    intro r' hmem
    rcases List.mem_cons.mp hmem with rfl | hmem
    · exact ⟨hr, _, hnode, Nat.le_refl _⟩
    · obtain ⟨hr', u, hu, hle⟩ := hrefs r' hmem
      exact ⟨hr', u, hu, Nat.le_succ_of_le hle⟩

theorem Unfolds.height_le (ht : s.Unfolds v t) : t.height ≤ s.cells.size := by
  obtain ⟨refs, hlen, hnodup, hrefs⟩ := ht.refs
  have hsub : refs ⊆ List.range s.cells.size := fun r hr => List.mem_range.mpr (hrefs r hr).1
  have hle := hnodup.length_le_of_subset hsub
  rwa [hlen, List.length_range] at hle

theorem Unfolds.chain_le (ht : s.Unfolds v t) : t.chain ≤ s.cells.size :=
  Nat.le_trans t.chain_le_height ht.height_le

theorem Unfolds.depth_le (ht : s.Unfolds v t) : t.depth ≤ s.cells.size :=
  Nat.le_trans t.depth_le_height ht.height_le

def Keeps (s s' : Store) : Prop :=
  s.cells.size ≤ s'.cells.size ∧ ∀ r < s.cells.size, s'.cell r = s.cell r

theorem Keeps.refl (s : Store) : s.Keeps s := ⟨Nat.le_refl _, fun _ _ => rfl⟩

theorem Keeps.trans {s₁ s₂ s₃ : Store} (h : s₁.Keeps s₂) (h' : s₂.Keeps s₃) : s₁.Keeps s₃ :=
  ⟨Nat.le_trans h.1 h'.1, fun r hr => (h'.2 r (Nat.lt_of_lt_of_le hr h.1)).trans (h.2 r hr)⟩

theorem keeps_cons (s : Store) (x y : Value) (l : Option Location) :
    s.Keeps (s.cons x y l).2 := by
  refine ⟨by simp, fun r hr => ?_⟩
  rw [cell_cons, if_neg (by omega)]

theorem Unfolds.keeps (ht : s.Unfolds v t) (h : s.Keeps s') : s'.Unfolds v t := by
  induction ht with
  | leaf hv => exact .leaf hv
  | @node r hd tl hr _ _ ihh iht =>
    refine .node (Nat.lt_of_lt_of_le hr h.1) ?_ ?_
    · rwa [head, h.2 r hr]
    · rwa [tail, h.2 r hr]

theorem unfolds_cons {x y : Value} (hx : s.Unfolds x t) (hy : s.Unfolds y u)
    (l : Option Location) : (s.cons x y l).2.Unfolds (s.cons x y l).1 (.node t u) := by
  have hcell : (s.cons x y l).2.cell s.cells.size = ⟨x, y, l⟩ := by simp [cell_cons]
  refine .node (by simp) ?_ ?_
  · rw [head, hcell]
    exact hx.keeps (keeps_cons s x y l)
  · rw [tail, hcell]
    exact hy.keeps (keeps_cons s x y l)

end Store

/-- The tree of a datum; locations are forgotten, and a group is the list of its items. -/
def Datum.tree : Datum → Tree
  | .nil => .leaf .nil
  | .ignore => .leaf .ignore
  | .inert => .leaf .inert
  | .bool b => .leaf (.bool b)
  | .int n => .leaf (.int n)
  | .str t => .leaf (.str t)
  | .sym name => .leaf (.sym name)
  | .pair head tail _ => .node head.tree tail.tree
  | .group items => items.tree

theorem Datum.tree_listAt (l : Option Location) {items : List Datum} (hi : items ≠ [])
    (tail : Datum) : (Datum.listAt l items tail).tree =
      (items.map Datum.tree).foldr Tree.node tail.tree := by
  obtain ⟨first, rest, rfl⟩ := List.exists_cons_of_ne_nil hi
  have hrest : (rest.foldr (fun d t => .pair d t none) tail).tree =
      (rest.map Datum.tree).foldr Tree.node tail.tree := by
    induction rest with
    | nil => rfl
    | cons d ds ih => simp [Datum.tree, ih (List.cons_ne_nil _ _)]
  simp [Datum.listAt, Datum.tree, hrest]

namespace Store

/-- A datum brought into a store unfolds to its tree, and nothing else changes. -/
theorem load_unfolds (s : Store) (d : Datum) :
    s.Keeps (s.load d).2 ∧ (s.load d).2.Unfolds (s.load d).1 d.tree := by
  induction d generalizing s with
  | pair head tail l ihh iht =>
    obtain ⟨hk, hu⟩ := iht s
    obtain ⟨hk', hu'⟩ := ihh (s.load tail).2
    exact ⟨(hk.trans hk').trans (keeps_cons _ _ _ _), unfolds_cons hu' (hu.keeps hk') l⟩
  | group items ih => exact ih s
  | _ => exact ⟨.refl s, .leaf rfl⟩

end Store

end Vau
