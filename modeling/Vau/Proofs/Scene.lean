import Vau.Proofs.Cycle
import Vau.Proofs.Evolution
import Vau.Proofs.Tree

/-! Scenes. A scene is a world in which some pairs and some bindings are held fast: whatever comes
later leaves them as they are. What is known of code that is held, of names that are held and of
the frames of calls stays true from one scene to the next. -/

namespace Vau

namespace Store

/-- `s'` has all that `s` has, unchanged, and may have more. -/
structure Extends (s s' : Store) : Prop where
  cells : s.cells.size ≤ s'.cells.size
  cell : ∀ r < s.cells.size, s'.cell r = s.cell r
  frames : s.frames.size ≤ s'.frames.size
  frame : ∀ e < s.frames.size, s'.frame e = s.frame e
  operatives : s.operatives.size ≤ s'.operatives.size
  operative : ∀ q < s.operatives.size, s'.operative q = s.operative q
  wrappers : s.wrappers ≤ s'.wrappers

namespace Extends

variable {s s' s'' : Store}

theorem refl (s : Store) : s.Extends s :=
  ⟨Nat.le_refl _, fun _ _ => rfl, Nat.le_refl _, fun _ _ => rfl, Nat.le_refl _, fun _ _ => rfl,
    Nat.le_refl _⟩

theorem trans (h : s.Extends s') (h' : s'.Extends s'') : s.Extends s'' where
  cells := Nat.le_trans h.cells h'.cells
  cell r hr := (h'.cell r (Nat.lt_of_lt_of_le hr h.cells)).trans (h.cell r hr)
  frames := Nat.le_trans h.frames h'.frames
  frame e he := (h'.frame e (Nat.lt_of_lt_of_le he h.frames)).trans (h.frame e he)
  operatives := Nat.le_trans h.operatives h'.operatives
  operative q hq := (h'.operative q (Nat.lt_of_lt_of_le hq h.operatives)).trans (h.operative q hq)
  wrappers := Nat.le_trans h.wrappers h'.wrappers

theorem cons (s : Store) (x y : Value) (place : Option Location) :
    s.Extends (s.cons x y place).2 :=
  { refl s with
    cells := by simp
    cell := fun r hr => by rw [cell_cons, if_neg (by omega)] }

theorem list (s : Store) (vs : List Value) (last : Value) : s.Extends (s.list vs last).2 := by
  induction vs with
  | nil => exact refl s
  | cons v vs ih => exact ih.trans (cons _ _ _ _)

theorem newFrame (s : Store) (parent : Option Nat) : s.Extends (s.newFrame parent).2 :=
  { refl s with
    frames := by simp [Store.newFrame]
    frame := fun e he => by rw [frame_newFrame, if_neg (by omega)] }

/-- Definitions in a frame that is new change nothing that was there. -/
theorem define {e : Nat} (h : s.Extends s') (he : s.frames.size ≤ e) (name : String) (v : Value) :
    s.Extends (s'.define e name v) :=
  { h with
    frames := by simpa [Store.define] using h.frames
    frame := fun d hd => by
      rw [← h.frame d hd]
      simp [Store.frame, Store.define, Array.getElem?_modify, show e ≠ d by omega] }

theorem defineAll {e : Nat} (h : s.Extends s') (he : s.frames.size ≤ e)
    (bs : List (String × Value)) : s.Extends (s'.defineAll e bs) := by
  induction bs generalizing s' with
  | nil => exact h
  | cons b bs ih => exact ih (h.define he b.1 b.2)

theorem newOperative (s : Store) (o : Operative) : s.Extends (s.newOperative o).2 :=
  { refl s with
    operatives := by simp [Store.newOperative]
    operative := fun q hq => by
      simp [Store.operative, Store.newOperative, Array.getElem?_push, show q ≠ s.operatives.size by omega] }

theorem wrap (s : Store) (v : Value) : s.Extends (s.wrap v).2 :=
  { refl s with wrappers := Nat.le_succ _ }

theorem evolves (h : s.Extends s') : s.Evolves s' where
  frames := h.frames
  parent e he := congrArg Frame.parent (h.frame e he)
  bound e name hb := by
    rcases Nat.lt_or_ge e s.frames.size with he | he
    · rw [h.frame e he, hb]
    · simp [Store.frame, he, Frame.binds, Frame.get?] at hb
  operatives := h.operatives
  made r hr := by rw [h.operative r hr]; exact ⟨rfl, rfl, rfl, rfl⟩
  named r hr name hn := by rw [h.operative r hr, hn]

end Extends

end Store

/-- A world in which the pairs `cell`, the tails of the pairs `spine` and the bindings `binding` are
held fast. -/
structure Scene where
  world : World
  cell : Nat → Prop
  spine : Nat → Prop
  binding : Nat → String → Prop
  cell_lt : ∀ {r}, cell r → r < world.store.cells.size
  spine_lt : ∀ {r}, spine r → r < world.store.cells.size
  frame_lt : ∀ {e name}, binding e name → e < world.store.frames.size

namespace Scene

abbrev store (σ : Scene) : Store := σ.world.store

/-- Later the scene may be another one, but what was held is the same and is held. -/
structure Onward (σ τ : Scene) : Prop where
  evolves : σ.store.Evolves τ.store
  cells : σ.store.cells.size ≤ τ.store.cells.size
  cell : ∀ {r}, σ.cell r → τ.cell r ∧ τ.store.cell r = σ.store.cell r
  spine : ∀ {r}, σ.spine r → τ.spine r ∧ τ.store.tail r = σ.store.tail r
  binding : ∀ {e name}, σ.binding e name → τ.binding e name ∧
    (τ.store.frame e).get? name = (σ.store.frame e).get? name

/-- Nothing has changed, but there may be more, and all that is new is held. -/
structure Grown (σ τ : Scene) : Prop where
  larger : σ.store.Extends τ.store
  effects : τ.world.effects = σ.world.effects
  cell : ∀ r, τ.cell r ↔ σ.cell r ∨ σ.store.cells.size ≤ r ∧ r < τ.store.cells.size
  spine : τ.spine = σ.spine
  binding : ∀ e name,
    τ.binding e name ↔ σ.binding e name ∨ σ.store.frames.size ≤ e ∧ e < τ.store.frames.size

variable {σ τ υ : Scene}

namespace Onward

theorem refl (σ : Scene) : σ.Onward σ :=
  ⟨.refl _, Nat.le_refl _, fun h => ⟨h, rfl⟩, fun h => ⟨h, rfl⟩, fun h => ⟨h, rfl⟩⟩

theorem trans (h : σ.Onward τ) (h' : τ.Onward υ) : σ.Onward υ where
  evolves := h.evolves.trans h'.evolves
  cells := Nat.le_trans h.cells h'.cells
  cell hr := ⟨(h'.cell (h.cell hr).1).1, (h'.cell (h.cell hr).1).2.trans (h.cell hr).2⟩
  spine hr := ⟨(h'.spine (h.spine hr).1).1, (h'.spine (h.spine hr).1).2.trans (h.spine hr).2⟩
  binding hb :=
    ⟨(h'.binding (h.binding hb).1).1, (h'.binding (h.binding hb).1).2.trans (h.binding hb).2⟩

theorem head (h : σ.Onward τ) {r : Nat} (hr : σ.cell r) : τ.store.head r = σ.store.head r :=
  congrArg Cell.head (h.cell hr).2

theorem tail (h : σ.Onward τ) {r : Nat} (hr : σ.cell r) : τ.store.tail r = σ.store.tail r :=
  congrArg Cell.tail (h.cell hr).2

end Onward

namespace Grown

theorem refl (σ : Scene) : σ.Grown σ where
  larger := .refl _
  effects := rfl
  cell r := ⟨.inl, fun h => h.resolve_right (by omega)⟩
  spine := rfl
  binding e name := ⟨.inl, fun h => h.resolve_right (by omega)⟩

theorem trans (h : σ.Grown τ) (h' : τ.Grown υ) : σ.Grown υ where
  larger := h.larger.trans h'.larger
  effects := h'.effects.trans h.effects
  spine := h'.spine.trans h.spine
  cell r := by
    have hle := h.larger.cells
    have hle' := h'.larger.cells
    rw [h'.cell, h.cell]
    constructor
    · rintro ((h | h) | h)
      · exact .inl h
      · exact .inr ⟨h.1, by omega⟩
      · exact .inr ⟨by omega, h.2⟩
    · rintro (h | h)
      · exact .inl (.inl h)
      · rcases Nat.lt_or_ge r τ.store.cells.size with hr | hr
        · exact .inl (.inr ⟨h.1, hr⟩)
        · exact .inr ⟨hr, h.2⟩
  binding e name := by
    have hle := h.larger.frames
    have hle' := h'.larger.frames
    rw [h'.binding, h.binding]
    constructor
    · rintro ((h | h) | h)
      · exact .inl h
      · exact .inr ⟨h.1, by omega⟩
      · exact .inr ⟨by omega, h.2⟩
    · rintro (h | h)
      · exact .inl (.inl h)
      · rcases Nat.lt_or_ge e τ.store.frames.size with he | he
        · exact .inl (.inr ⟨h.1, he⟩)
        · exact .inr ⟨he, h.2⟩

theorem onward (h : σ.Grown τ) : σ.Onward τ where
  evolves := h.larger.evolves
  cells := h.larger.cells
  cell {r} hr := ⟨(h.cell r).mpr (.inl hr), h.larger.cell r (σ.cell_lt hr)⟩
  spine {r} hr :=
    ⟨h.spine ▸ hr, congrArg Cell.tail (h.larger.cell r (σ.spine_lt hr))⟩
  binding {e name} hb :=
    ⟨(h.binding e name).mpr (.inl hb), by rw [h.larger.frame e (σ.frame_lt hb)]⟩

end Grown

/-- The scene in a larger store, with all that is new held. -/
def grow (σ : Scene) (s : Store) (h : σ.store.Extends s) : Scene where
  world := ⟨s, σ.world.effects⟩
  cell r := σ.cell r ∨ σ.store.cells.size ≤ r ∧ r < s.cells.size
  spine := σ.spine
  binding e name := σ.binding e name ∨ σ.store.frames.size ≤ e ∧ e < s.frames.size
  cell_lt hr := hr.elim (fun hr => Nat.lt_of_lt_of_le (σ.cell_lt hr) h.cells) And.right
  spine_lt hr := Nat.lt_of_lt_of_le (σ.spine_lt hr) h.cells
  frame_lt hb := hb.elim (fun hb => Nat.lt_of_lt_of_le (σ.frame_lt hb) h.frames) And.right

theorem grown_grow (σ : Scene) {s : Store} (h : σ.store.Extends s) : σ.Grown (σ.grow s h) :=
  ⟨h, rfl, fun _ => .rfl, rfl, fun _ _ => .rfl⟩

/-- The value unfolds to the tree, by pairs that are held. -/
inductive Holds (σ : Scene) : Value → Tree → Prop
  | leaf {v : Value} (h : v.isPair = false) : Holds σ v (.leaf v)
  | node {r : Nat} {h t : Tree} (hr : σ.cell r) (hhead : Holds σ (σ.store.head r) h)
    (htail : Holds σ (σ.store.tail r) t) : Holds σ (.pair r) (.node h t)

theorem Holds.unfolds {v : Value} {t : Tree} (h : σ.Holds v t) : σ.store.Unfolds v t := by
  induction h with
  | leaf hv => exact .leaf hv
  | node hr _ _ ihh iht => exact .node (σ.cell_lt hr) ihh iht

theorem Holds.onward {v : Value} {t : Tree} (h : σ.Holds v t) (hτ : σ.Onward τ) : τ.Holds v t := by
  induction h with
  | leaf hv => exact .leaf hv
  | node hr _ _ ihh iht =>
    obtain ⟨hheld, hcell⟩ := hτ.cell hr
    exact .node hheld (by rwa [Store.head, hcell]) (by rwa [Store.tail, hcell])

theorem Holds.tail {r : Nat} {t : Tree} (h : σ.Holds (σ.store.tail r) t) (hr : σ.cell r)
    (hτ : σ.Onward τ) : τ.Holds (τ.store.tail r) t :=
  hτ.tail hr ▸ h.onward hτ

/-- From the frame `e` the name stands for `v`, by bindings that are held. -/
inductive Sees (σ : Scene) (name : String) (v : Value) : Nat → Prop
  | here {e : Nat} (hheld : σ.binding e name) (h : (σ.store.frame e).get? name = some v) :
    Sees σ name v e
  | outer {e p : Nat} (hheld : σ.binding e name) (h : (σ.store.frame e).get? name = none)
    (hparent : (σ.store.frame e).parent = some p) (hlt : p < e) (hp : Sees σ name v p) :
    Sees σ name v e

namespace Sees

variable {name : String} {v : Value} {e : Nat}

theorem onward (h : σ.Sees name v e) (hτ : σ.Onward τ) : τ.Sees name v e := by
  induction h with
  | here hheld h =>
    obtain ⟨hheld', hget⟩ := hτ.binding hheld
    exact .here hheld' (hget.trans h)
  | outer hheld h hparent hlt _ ih =>
    obtain ⟨hheld', hget⟩ := hτ.binding hheld
    exact .outer hheld' (hget.trans h)
      ((hτ.evolves.parent _ (σ.frame_lt hheld)).trans hparent) hlt ih

theorem lookupWithin (h : σ.Sees name v e) {fuel : Nat} (hfuel : e < fuel) :
    σ.store.lookupWithin name fuel e = some v := by
  induction h generalizing fuel with
  | here hheld h =>
    obtain ⟨fuel, rfl⟩ : ∃ k, fuel = k + 1 := ⟨fuel - 1, by omega⟩
    simp only [Store.lookupWithin, h]
  | outer hheld h hparent hlt _ ih =>
    obtain ⟨fuel, rfl⟩ : ∃ k, fuel = k + 1 := ⟨fuel - 1, by omega⟩
    simp only [Store.lookupWithin, h, hparent]
    exact ih (by omega)

theorem frame_lt (h : σ.Sees name v e) : e < σ.store.frames.size := by
  cases h with
  | here hheld _ => exact σ.frame_lt hheld
  | outer hheld _ _ _ _ => exact σ.frame_lt hheld

theorem lookup (h : σ.Sees name v e) : σ.store.lookup? e name = some v :=
  h.lookupWithin h.frame_lt

end Sees

/-- The frame `e` inside the frame `p` binds just what is listed, and is held. -/
structure Scope (σ : Scene) (e : Nat) (bs : List (String × Value)) (p : Nat) : Prop where
  held : ∀ name, σ.binding e name
  get? : ∀ name, (σ.store.frame e).get? name = bs.lookup name
  parent : (σ.store.frame e).parent = some p
  lt : p < e

namespace Scope

variable {e p : Nat} {bs : List (String × Value)} {name : String} {v : Value}

theorem onward (h : σ.Scope e bs p) (hτ : σ.Onward τ) : τ.Scope e bs p where
  held name := (hτ.binding (h.held name)).1
  get? name := (hτ.binding (h.held name)).2.trans (h.get? name)
  parent := (hτ.evolves.parent e (σ.frame_lt (h.held ""))).trans h.parent
  lt := h.lt

theorem sees (h : σ.Scope e bs p) (hname : bs.lookup name = some v) : σ.Sees name v e :=
  .here (h.held name) ((h.get? name).trans hname)

theorem sees_outer (h : σ.Scope e bs p) (hname : bs.lookup name = none) (hp : σ.Sees name v p) :
    σ.Sees name v e :=
  .outer (h.held name) ((h.get? name).trans hname) h.parent h.lt hp

end Scope

end Scene

end Vau
