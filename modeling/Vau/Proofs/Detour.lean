import Vau.Proofs.Additions
import Vau.Proofs.Hiding
import Vau.Proofs.Outcome

/-! Detours. Two evaluations may come to the same from one store though one of them makes some pairs
and frames on the way that the other does without. From there on they go side by side: what both of
them make stands in other places in one store than in the other, and nothing else tells them apart. -/

namespace Vau

/-- Places in two stores that come from one with `old` places. The first store has made one more at
most, and this one is at `place` in the second store, which may have made others. -/
structure Detour where
  old : Nat
  next : Nat
  place : Nat
  next' : Nat
  old_le : old ≤ next
  next_le : next ≤ old + 1
  old_le' : old ≤ next'
  old_le_place : old < next → old ≤ place
  place_lt : old < next → place < next'

namespace Detour

/-- The place `a` of the first store stands for the place `a'` of the second one. -/
def Leads (d : Detour) (a a' : Nat) : Prop :=
  a < d.old ∧ a' = a ∨ (d.old ≤ a ∧ a < d.next) ∧ a' = d.place ∨
    ∃ i, a = d.next + i ∧ a' = d.next' + i

variable {d : Detour} {a a' b b' : Nat}

theorem Leads.eq_iff (h : d.Leads a a') (h' : d.Leads b b') : a' = b' ↔ a = b := by
  obtain ⟨old, next, place, next', hold, hnext, hold', hplace, hlt⟩ := d
  rcases h with h | h | ⟨i, h⟩ <;> rcases h' with h' | h' | ⟨j, h'⟩ <;>
    simp only at h h' <;> omega

theorem leads_old (h : a < d.old) : d.Leads a a := .inl ⟨h, rfl⟩

theorem leads_place (h : d.old < d.next) : d.Leads d.old d.place :=
  .inr (.inl ⟨⟨Nat.le_refl _, h⟩, rfl⟩)

theorem leads_next (i : Nat) : d.Leads (d.next + i) (d.next' + i) := .inr (.inr ⟨i, rfl, rfl⟩)

/-- What stands at places that stand for each other is old, or it is what the first store has made,
or neither store has made it yet. -/
theorem Leads.getD {α : Type} {s t t' : Array α} {x : α}
    (hd : d.old = s.size ∧ d.next = t.size ∧ d.next' = t'.size)
    (ht : ∀ i < s.size, t.getD i x = s.getD i x) (ht' : ∀ i < s.size, t'.getD i x = s.getD i x)
    (h : d.Leads a a') : (t.getD a x = s.getD a x ∧ t'.getD a' x = s.getD a x) ∨
      (d.old < d.next ∧ a = d.old ∧ a' = d.place) ∨ t.getD a x = x ∧ t'.getD a' x = x := by
  obtain ⟨hold, hnext, hnext'⟩ := hd
  have hone := d.next_le
  rcases h with ⟨ha, rfl⟩ | ⟨ha, rfl⟩ | ⟨i, rfl, rfl⟩
  · rw [hold] at ha
    exact .inl ⟨ht a' ha, ht' a' ha⟩
  · exact .inr (.inl ⟨by omega, by omega, rfl⟩)
  · refine .inr (.inr ⟨Array.getD_of_size_le ?_ _, Array.getD_of_size_le ?_ _⟩)
    · omega
    · omega

end Detour

/-- Pairs and frames that stand for others; all else stands for itself. -/
def Link.places (cell frame : Nat → Nat → Prop) : Link := { cell := cell, frame := frame }

theorem Link.oneToOne_detours (cells frames : Detour) :
    (Link.places cells.Leads frames.Leads).OneToOne where
  cell h h' := h.eq_iff h'
  frame h h' := h.eq_iff h'
  operative h h' := by rw [← show _ = _ from h, ← show _ = _ from h']

/-- Runs of a program in two parallel stores, with the same effects. An evaluation that goes on for
ever is not compared. -/
def Course.parallel (l : Link) : Course where
  link := l
  quits := (· = .endless)
  world w w' := w.store.Parallel ⟨l, (· = .endless)⟩ w'.store ∧ w'.effects = w.effects
  entry _ _ := True

theorem Course.borne_parallel {l : Link} (hl : l.OneToOne) : (Course.parallel l).Borne where
  entry _ := trivial
  oneToOne := hl
  stores h := h.1
  moves hw ht _ _ := ⟨ht, hw.2⟩
  records e hw := ⟨hw.1, congrArg (·.push e) hw.2⟩

/-- Functions of the host that take no notice of where things are, nor of the records that are kept
for the host. -/
structure Settings.Neutral (cfg : Settings) : Prop where
  abreast : ∀ f ∈ cfg.functions, ∀ vs env, (f vs env).Abreast (f vs env)
  tied : ∀ cell frame, (Link.places cell frame).OneToOne →
    cfg.Tied (Course.parallel (.places cell frame))

theorem Settings.Neutral.of_empty {cfg : Settings} (h : cfg.functions = #[]) : cfg.Neutral := by
  refine ⟨fun f hf => ?_, fun _ _ _ f hf => ?_⟩
  all_goals
    rw [h] at hf
    exact absurd hf (Array.not_mem_empty f)

section Itself

variable {cell frame : Nat → Nat → Prop} {x : Extent} (hcell : ∀ r < x.cells, cell r r)
  (hframe : ∀ e < x.frames, frame e e)
include hcell hframe

theorem Value.In.linked {v : Value} (hv : v.In x) : v.Linked (.places cell frame) v := by
  induction v with
  | nil => exact .nil
  | ignore => exact .ignore
  | inert => exact .inert
  | bool b => exact .bool b
  | int n => exact .int n
  | str s => exact .str s
  | sym name => exact .sym trivial
  | pair r => exact .pair (hcell r hv)
  | env e => exact .env (hframe e hv)
  | operative q => exact .operative rfl
  | applicative label u ih => exact .applicative label (ih hv.2)
  | primitive p => exact .primitive trivial

theorem Frame.linked_self {f : Frame} (hbound : ∀ b ∈ f.bindings, b.2.In x)
    (hparent : ∀ p, f.parent = some p → p < x.frames) : f.Linked (.places cell frame) f := by
  refine ⟨List.forall₂_same.mpr fun b hb => ⟨rfl, fun _ => (hbound b hb).linked hcell hframe⟩, ?_⟩
  cases hp : f.parent with
  | none => exact .none
  | some p => exact .some (hframe p (hparent p hp))

theorem Operative.In.linked {o : Operative} (ho : o.In x) : o.Linked (.places cell frame) o :=
  ⟨hframe _ ho.scope, ho.formals.linked hcell hframe, ho.dynamic.linked hcell hframe,
    List.forall₂_same.mpr fun v hv => (ho.body v hv).linked hcell hframe, rfl⟩

end Itself

/-- Two stores that have come from a sound one by making pairs and frames only. -/
theorem Store.Sound.parallel {s t t' : Store} {x : Extent} (hs : s.Sound x) (hroot : 0 < x.frames)
    (ht : s.Adds t) (ht' : s.Adds t') {cells frames : Detour}
    (hcells : cells.old = s.cells.size ∧ cells.next = t.cells.size ∧ cells.next' = t'.cells.size)
    (hframes : frames.old = s.frames.size ∧ frames.next = t.frames.size ∧
      frames.next' = t'.frames.size)
    (hle : t.cells.size ≤ t'.cells.size)
    (hhead : cells.old < cells.next →
      (t.head cells.old).Linked (.places cells.Leads frames.Leads) (t'.head cells.place))
    (htail : cells.old < cells.next →
      (t.tail cells.old).Linked (.places cells.Leads frames.Leads) (t'.tail cells.place))
    (hframe : frames.old < frames.next →
      (t.frame frames.old).Linked (.places cells.Leads frames.Leads) (t'.frame frames.place)) :
    t.Parallel ⟨.places cells.Leads frames.Leads, (· = .endless)⟩ t' := by
  have hself : ∀ r < x.cells, cells.Leads r r := fun r hr =>
    Detour.leads_old (by rw [hcells.1, hs.cells_size]; exact hr)
  have hfself : ∀ e < x.frames, frames.Leads e e := fun e he =>
    Detour.leads_old (by rw [hframes.1, hs.frames_size]; exact he)
  have hcell : ∀ {r r'}, cells.Leads r r' → (t.cell r = s.cell r ∧ t'.cell r' = s.cell r) ∨
      (cells.old < cells.next ∧ r = cells.old ∧ r' = cells.place) ∨
      t.cell r = ⟨.nil, .nil, none⟩ ∧ t'.cell r' = ⟨.nil, .nil, none⟩ :=
    fun hr => hr.getD hcells ht.larger.cell ht'.larger.cell
  refine {
    cells := .inr ⟨hle, rfl⟩
    freshCell := fun i => by rw [← hcells.2.1, ← hcells.2.2]; exact Detour.leads_next i
    head := fun {r r'} hr => ?head
    tail := fun {r r'} hr => ?tail
    freshFrame := fun i => by rw [← hframes.2.1, ← hframes.2.2]; exact Detour.leads_next i
    frame := fun {e e'} he => ?frame
    freshOperative := fun i => ?fresh
    operative := fun {q q'} hq => ?operative
    wrappers := ht'.wrappers.trans ht.wrappers.symm }
  case head =>
    rcases hcell hr with ⟨h, h'⟩ | ⟨hlt, rfl, rfl⟩ | ⟨h, h'⟩
    · rw [Store.head, Store.head, h, h']
      exact (hs.head r).linked hself hfself
    · exact hhead hlt
    · rw [Store.head, Store.head, h, h']
      exact .nil
  case tail =>
    rcases hcell hr with ⟨h, h'⟩ | ⟨hlt, rfl, rfl⟩ | ⟨h, h'⟩
    · rw [Store.tail, Store.tail, h, h']
      exact (hs.tail r).linked hself hfself
    · exact htail hlt
    · rw [Store.tail, Store.tail, h, h']
      exact .nil
  case frame =>
    rcases he.getD hframes ht.larger.frame ht'.larger.frame with ⟨h, h'⟩ | ⟨hlt, rfl, rfl⟩ | ⟨h, h'⟩
    · rw [Store.frame, Store.frame, h, h']
      exact Frame.linked_self hself hfself (hs.parent_in e).1 (hs.parent_in e).2
    · exact hframe hlt
    · rw [Store.frame, Store.frame, h, h']
      exact ⟨.nil, .none⟩
  case fresh => exact congrArg (· + i) (ht.operatives.trans ht'.operatives.symm)
  case operative =>
    obtain rfl : q = q' := hq
    have hsize := ht.operatives
    have hsize' := ht'.operatives
    rw [ht.larger.operative_same (by omega), ht'.larger.operative_same (by omega)]
    exact (hs.operative_in hroot q).linked hself hfself

/-- Evaluations of expressions that stand for each other have outcomes that do, wherever their
frames stand on the call stack. -/
theorem Settings.Neutral.outcomes {cfg : Settings} (hcfg : cfg.Neutral) (hlimit : cfg.stepLimit = none)
    {cell frame : Nat → Nat → Prop} (hone : (Link.places cell frame).OneToOne) {m m' : Machine}
    (hw : (Course.parallel (.places cell frame)).world m.world m'.world) {expr expr' : Value}
    (hexpr : expr.Linked (.places cell frame) expr') {env env' : Nat} (henv : frame env env')
    (fuel room base base' : Nat) :
    (Course.parallel (.places cell frame)).Ends (Course.parallel (.places cell frame)).world
      (Value.Linked (.places cell frame)) (outcome (reduce cfg fuel room base expr env m))
      (outcome (reduce cfg fuel room base' expr' env' m')) := by
  -- the two start from empty stacks
  have hends := tied_reduce (Course.borne_parallel hone).kept (hcfg.tied cell frame hone)
    (.inl (Eq.refl fuel)) (.inl (Eq.refl room)) 0 hexpr henv
    { world := m.world } { world := m'.world } ⟨hw, .nil, rfl⟩
  rw [← abreast_reduce hlimit hcfg.abreast fuel room base 0 expr env m { world := m.world } rfl,
    ← abreast_reduce hlimit hcfg.abreast fuel room base' 0 expr' env' m' { world := m'.world } rfl]
  generalize reduce cfg fuel room 0 expr env { world := m.world } = r,
    reduce cfg fuel room 0 expr' env' { world := m'.world } = r' at hends ⊢
  cases hends with
  | ok hv hm => exact .ok hv hm.world
  | error he hm => exact .error he hm.world
  | quit he => exact .quit he

end Vau
