import Vau.Proofs.FormalTree
import Vau.Proofs.Scene
import Vau.Proofs.Library

/-! Items of chains. The items of a chain of pairs are the heads along its tails, up to what ends
the chain; formal parameters that are symbols are matched by as many items. -/

namespace Vau

namespace Store

/-- A chain of pairs from `v` that holds the items and is ended by `last`. -/
inductive Items (s : Store) (last : Value) : Value → List Value → Prop
  | done : Items s last last []
  | pair {r : Nat} {vs : List Value} (hr : r < s.cells.size) (htail : Items s last (s.tail r) vs) :
    Items s last (.pair r) (s.head r :: vs)

variable {s s' : Store} {last v : Value} {vs us : List Value}

namespace Items

theorem larger (h : s.Items last v vs) (hs : s.Extends s') : s'.Items last v vs := by
  induction h with
  | done => exact .done
  | @pair r vs hr _ ih =>
    have hcell := hs.cell r hr
    rw [show s.head r = s'.head r from congrArg Cell.head hcell.symm]
    exact .pair (Nat.lt_of_lt_of_le hr hs.cells) (by rwa [Store.tail, hcell])

/-- The first items end where the chain of the others begins. -/
theorem split (h : s.Items last v (us ++ vs)) : ∃ x, s.Items x v us ∧ s.Items last x vs := by
  induction us generalizing v with
  | nil => exact ⟨v, .done, h⟩
  | cons u us ih =>
    obtain _ | ⟨hr, htail⟩ := h
    obtain ⟨x, hus, hvs⟩ := ih htail
    exact ⟨x, .pair hr hus, hvs⟩

theorem unique (hlast : last.isPair = false) (h : s.Items last v vs) (h' : s.Items last v us) :
    vs = us := by
  induction h generalizing us with
  | done =>
    cases h' with
    | done => rfl
    | pair _ _ => cases hlast
  | pair _ _ ih =>
    cases h' with
    | done => cases hlast
    | pair _ htail => rw [ih htail]

/-- No pair comes twice along a chain that ends. -/
theorem refs (hlast : last.isPair = false) (h : s.Items last v vs) :
    ∃ refs : List Nat, refs.length = vs.length ∧ refs.Nodup ∧ ∀ r ∈ refs, r < s.cells.size ∧
      ∃ us, s.Items last (.pair r) us ∧ us.length ≤ vs.length := by
  induction h with
  | done => exact ⟨[], rfl, List.nodup_nil, List.forall_mem_nil _⟩
  | @pair r vs hr htail ih =>
    obtain ⟨refs, hlength, hnodup, hrefs⟩ := ih
    refine ⟨r :: refs, by simp [hlength], List.nodup_cons.mpr ⟨fun hmem => ?_, hnodup⟩, ?_⟩
    · obtain ⟨-, us, hus, hle⟩ := hrefs r hmem
      rw [hus.unique hlast (.pair hr htail), List.length_cons] at hle
      omega
    · refine List.forall_mem_cons.mpr ⟨⟨hr, _, .pair hr htail, Nat.le_refl _⟩, fun q hq => ?_⟩
      obtain ⟨hlt, us, hus, hle⟩ := hrefs q hq
      exact ⟨hlt, us, hus, Nat.le_succ_of_le hle⟩

theorem length_le (hlast : last.isPair = false) (h : s.Items last v vs) :
    vs.length ≤ s.cells.size := by
  obtain ⟨refs, hlength, hnodup, hrefs⟩ := h.refs hlast
  have hsub : refs ⊆ List.range s.cells.size := fun r hr => List.mem_range.mpr (hrefs r hr).1
  have hle := hnodup.length_le_of_subset hsub
  rwa [hlength, List.length_range] at hle

theorem walk (hlast : last.isPair = false) (h : s.Items last v vs) {fuel : Nat}
    (hfuel : vs.length ≤ fuel) (heads : List Value) :
    s.walk fuel heads v = some (heads.reverse ++ vs, last) := by
  induction h generalizing fuel heads with
  | done =>
    cases last with
    | pair r => cases hlast
    | _ => cases fuel <;> simp [Store.walk]
  | @pair r vs _ _ ih =>
    obtain ⟨fuel, rfl⟩ : ∃ k, fuel = k + 1 := ⟨fuel - 1, by simp at hfuel; omega⟩
    simpa [Store.walk] using ih (by simpa using hfuel) (s.head r :: heads)

theorem spine? (hlast : last.isPair = false) (h : s.Items last v vs) :
    s.spine? v = some (vs, last) :=
  h.walk hlast (h.length_le hlast) []

end Items

theorem items_list (s : Store) (vs : List Value) (last : Value) :
    (s.list vs last).2.Items last (s.list vs last).1 vs := by
  induction vs with
  | nil => exact .done
  | cons v vs ih =>
    have hcell : (s.list (v :: vs) last).2.cell (s.list vs last).2.cells.size =
        ⟨v, (s.list vs last).1, none⟩ := by
      simp [Store.list, cell_cons]
    have hnew : (s.list (v :: vs) last).2.Items last
        (.pair (s.list vs last).2.cells.size)
        ((s.list (v :: vs) last).2.head (s.list vs last).2.cells.size :: vs) := by
      refine .pair (by simp [Store.list]) ?_
      rw [Store.tail, hcell]
      exact ih.larger (.cons _ _ _ _)
    rwa [Store.head, hcell] at hnew

/-- Symbols, and a last one for the rest, are matched by as many items. -/
theorem Items.matched (h : s.Items last v vs) {names : List String} (hlength : names.length = vs.length)
    {p : Value} {bs : List (String × Value)} (hp : Formals.leaf p last = .ok bs) :
    (Tree.dotted (names.map Tree.sym) (.leaf p)).matched s v = .ok (bs ++ (names.zip vs).reverse) := by
  induction h generalizing names with
  | done =>
    obtain rfl : names = [] := List.length_eq_zero_iff.mp hlength
    simpa [Tree.dotted, Tree.matched] using hp
  | @pair r vs _ _ ih =>
    obtain ⟨name, names, rfl⟩ := List.exists_cons_of_length_eq_add_one hlength
    have hrest := ih (by simpa using hlength)
    simp only [Tree.dotted] at hrest
    simp only [Tree.dotted, List.map_cons, List.foldr_cons, Tree.matched, hrest, Tree.sym]
    simp [Formals.leaf, Bind.bind, Except.bind, Pure.pure, Except.pure]

theorem defineAll_eq (s : Store) (e : Nat) (bs : List (String × Value)) :
    s.defineAll e bs = { s with frames := (s.defineAll e bs).frames } := by
  induction bs generalizing s with
  | nil => rfl
  | cons b bs ih => exact ih (s.define e b.1 b.2)

theorem size_defineAll (s : Store) (e : Nat) (bs : List (String × Value)) :
    (s.defineAll e bs).frames.size = s.frames.size := by
  induction bs generalizing s with
  | nil => rfl
  | cons b bs ih => exact (ih _).trans (by simp [Store.define])

theorem parent_defineAll (s : Store) {e : Nat} (he : e < s.frames.size)
    (bs : List (String × Value)) : ((s.defineAll e bs).frame e).parent = (s.frame e).parent := by
  induction bs generalizing s with
  | nil => rfl
  | cons b bs ih =>
    refine (ih (s.define e b.1 b.2) (by simpa [Store.define] using he)).trans ?_
    rw [frame_define _ _ _ _ _ he, if_pos rfl]
    rfl

theorem get?_defineAll (s : Store) {e : Nat} (he : e < s.frames.size) (bs : List (String × Value))
    (name : String) :
    ((s.defineAll e bs).frame e).get? name = (bs.reverse.lookup name).or ((s.frame e).get? name) := by
  induction bs generalizing s with
  | nil => rfl
  | cons b bs ih =>
    have hsize : e < (s.define e b.1 b.2).frames.size := by simpa [Store.define] using he
    have hlookup : (bs.reverse ++ [b]).lookup name =
        (bs.reverse.lookup name).or (if name = b.1 then some b.2 else none) := by
      rw [List.lookup_append, List.lookup_cons]
      by_cases hb : name = b.1
      · simp [hb]
      · simp [hb, beq_false_of_ne hb]
    rw [show s.defineAll e (b :: bs) = (s.define e b.1 b.2).defineAll e bs from rfl, ih _ hsize,
      frame_define _ _ _ _ _ he, if_pos rfl, Frame.get?_define, List.reverse_cons, hlookup]
    split <;> simp

/-- The store with a new frame inside the frame `p` that binds what is listed, the last first. -/
def opened (s : Store) (p : Nat) (bs : List (String × Value)) : Store :=
  (s.newFrame (some p)).2.defineAll s.frames.size bs

theorem Extends.opened (s : Store) (p : Nat) (bs : List (String × Value)) :
    s.Extends (s.opened p bs) :=
  (Extends.newFrame s (some p)).defineAll (Nat.le_refl _) bs

end Store

end Vau
