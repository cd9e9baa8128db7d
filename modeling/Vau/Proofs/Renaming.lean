import Vau.Proofs.Extent
import Vau.Proofs.InStep
import Vau.Proofs.Tree
import Vau.Proofs.Unplaced

/-! Renaming. Pairs have no names that a program could see: a program that runs in a store with the
pairs in other places does the same, and leaves a store with its pairs in other places. -/

namespace Vau

namespace Value

/-- The value with its pair, if it is one, in another place. -/
def rename (ρ : Nat → Nat) : Value → Value
  | .pair r => .pair (ρ r)
  | .applicative label underlying => .applicative label (underlying.rename ρ)
  | v => v

end Value

def Cell.rename (ρ : Nat → Nat) (c : Cell) : Cell :=
  { c with head := c.head.rename ρ, tail := c.tail.rename ρ }

def Frame.rename (ρ : Nat → Nat) (f : Frame) : Frame :=
  { f with bindings := f.bindings.map fun b => (b.1, b.2.rename ρ) }

def Operative.rename (ρ : Nat → Nat) (o : Operative) : Operative :=
  { o with formals := o.formals.rename ρ, dynamic := o.dynamic.rename ρ,
           body := o.body.map (Value.rename ρ) }

@[simp] theorem Value.rename_id (v : Value) : v.rename (fun r => r) = v := by
  induction v with
  | applicative label u ih => exact congrArg _ ih
  | _ => rfl

@[simp] theorem Cell.rename_id (c : Cell) : c.rename (fun r => r) = c := by simp [rename]

@[simp] theorem Frame.rename_id (f : Frame) : f.rename (fun r => r) = f := by simp [rename]

@[simp] theorem Operative.rename_id (o : Operative) : o.rename (fun r => r) = o := by
  have hid : Value.rename (fun r => r) = id := funext Value.rename_id
  simp [rename, hid]

section Congruence

variable {ρ σ : Nat → Nat} {x : Extent} (h : ∀ r < x.cells, ρ r = σ r)
include h

theorem Value.In.rename_congr {v : Value} (hv : v.In x) : v.rename ρ = v.rename σ := by
  induction v with
  | pair r => exact congrArg _ (h r hv)
  | applicative label u ih => exact congrArg _ (ih hv.2)
  | _ => rfl

theorem map_rename_congr {vs : List Value} (hvs : ∀ v ∈ vs, v.In x) :
    vs.map (Value.rename ρ) = vs.map (Value.rename σ) :=
  List.map_congr_left fun v hv => (hvs v hv).rename_congr h

theorem Cell.In.rename_congr {c : Cell} (hc : c.In x) : c.rename ρ = c.rename σ := by
  simp only [rename, hc.1.rename_congr h, hc.2.rename_congr h]

theorem Frame.In.rename_congr {e : Nat} {f : Frame} (hf : f.In x e) : f.rename ρ = f.rename σ := by
  have hbindings : f.bindings.map (fun b => (b.1, b.2.rename ρ)) =
      f.bindings.map fun b => (b.1, b.2.rename σ) :=
    List.map_congr_left fun b hb => by rw [(hf.1 b hb).rename_congr h]
  simp only [rename, hbindings]

theorem Operative.In.rename_congr {o : Operative} (ho : o.In x) : o.rename ρ = o.rename σ := by
  simp only [rename, ho.formals.rename_congr h, ho.dynamic.rename_congr h,
    map_rename_congr h ho.body]

end Congruence

/-- Every pair of the one store stands for the pair of the other that the renaming gives. -/
def Link.renaming (ρ : Nat → Nat) : Link := { cell r r' := r' = ρ r }

theorem Link.oneToOne_renaming {ρ : Nat → Nat} (hρ : ρ.Injective) : (Link.renaming ρ).OneToOne where
  cell := by
    rintro a _ b _ rfl rfl
    exact hρ.eq_iff
  frame := by
    rintro a _ b _ rfl rfl
    rfl
  operative := by
    rintro a _ b _ rfl rfl
    rfl

section Linked

variable {ρ : Nat → Nat}

theorem linked_rename (v : Value) : v.Linked (.renaming ρ) (v.rename ρ) := by
  induction v with
  | nil => exact .nil
  | ignore => exact .ignore
  | inert => exact .inert
  | bool b => exact .bool b
  | int n => exact .int n
  | str s => exact .str s
  | sym name => exact .sym trivial
  | pair r => exact .pair rfl
  | env e => exact .env rfl
  | operative r => exact .operative rfl
  | applicative label u ih => exact .applicative label ih
  | primitive p => exact .primitive trivial

theorem eq_rename {v v' : Value} (h : v.Linked (.renaming ρ) v') : v' = v.rename ρ := by
  induction h with
  | pair h => exact congrArg _ h
  | env h => exact congrArg _ h.symm
  | operative h => exact congrArg _ h.symm
  | applicative label _ ih => exact congrArg _ ih
  | _ => rfl

theorem linked_map_rename (vs : List Value) :
    List.Forall₂ (Value.Linked (.renaming ρ)) vs (vs.map (Value.rename ρ)) := by
  induction vs with
  | nil => exact .nil
  | cons v vs ih => exact .cons (linked_rename v) ih

theorem eq_map_rename {vs vs' : List Value}
    (h : List.Forall₂ (Value.Linked (.renaming ρ)) vs vs') : vs' = vs.map (Value.rename ρ) := by
  induction h with
  | nil => rfl
  | cons hv _ ih => rw [List.map_cons, ← ih, eq_rename hv]

theorem linked_frame_rename (f : Frame) : f.Linked (.renaming ρ) (f.rename ρ) := by
  obtain ⟨bs, p⟩ := f
  refine ⟨?_, by cases p <;> constructor; rfl⟩
  induction bs with
  | nil => exact .nil
  | cons b bs ih => exact .cons ⟨rfl, fun _ => linked_rename b.2⟩ ih

theorem frame_eq_rename {f f' : Frame} (h : f.Linked (.renaming ρ) f') : f' = f.rename ρ := by
  obtain ⟨bs, p⟩ := f
  obtain ⟨bs', p'⟩ := f'
  obtain ⟨hbs, hp⟩ := h
  simp only at hbs hp
  have hparent : p' = p := by
    cases hp with
    | none => rfl
    | some h => exact congrArg some h.symm
  have hbindings : bs' = bs.map fun b => (b.1, b.2.rename ρ) := by
    induction hbs with
    | nil => rfl
    | cons hb _ ih =>
      rw [List.map_cons, ← ih, ← hb.1, ← eq_rename (hb.2 trivial)]
  simp only [Frame.rename, hbindings, hparent]

theorem linked_operative_rename (o : Operative) : o.Linked (.renaming ρ) (o.rename ρ) :=
  ⟨rfl, linked_rename _, linked_rename _, linked_map_rename _, rfl⟩

theorem operative_eq_rename {o o' : Operative} (h : o.Linked (.renaming ρ) o') :
    o' = o.rename ρ := by
  obtain ⟨scope, formals, dynamic, body, name⟩ := o
  obtain ⟨scope', formals', dynamic', body', name'⟩ := o'
  obtain ⟨hscope, hformals, hdynamic, hbody, hname⟩ := h
  simp only at hscope hformals hdynamic hbody hname
  obtain rfl : scope = scope' := hscope
  simp only [Operative.rename, eq_rename hformals, eq_rename hdynamic, eq_map_rename hbody, hname]

end Linked

/-- `s'` is `s` with its pairs in other places, and perhaps other locations. -/
structure Store.Renamed (ρ : Nat → Nat) (s s' : Store) : Prop where
  cells : s'.cells.size = s.cells.size
  beyond : ∀ r, s.cells.size ≤ r → ρ r = r
  head : ∀ r, s'.head (ρ r) = (s.head r).rename ρ
  tail : ∀ r, s'.tail (ρ r) = (s.tail r).rename ρ
  frames : s'.frames.size = s.frames.size
  frame : ∀ e, s'.frame e = (s.frame e).rename ρ
  operatives : s'.operatives.size = s.operatives.size
  operative : ∀ r, s'.operative r = (s.operative r).rename ρ
  wrappers : s'.wrappers = s.wrappers

theorem Store.Linked.of_rename {ρ : Nat → Nat} {quits : Stop → Prop} {s s' : Store}
    (hcells : Terms.Spans ⟨.renaming ρ, quits⟩ s.cells.size s'.cells.size)
    (hfresh : ∀ i, s'.cells.size + i = ρ (s.cells.size + i))
    (hcell : ∀ r, (s'.cell (ρ r)).unplaced = ((s.cell r).rename ρ).unplaced)
    (hsize : s'.frames.size = s.frames.size) (hframe : ∀ e, s'.frame e = (s.frame e).rename ρ)
    (hmade : s'.operatives.size = s.operatives.size)
    (hoperative : ∀ r, s'.operative r = (s.operative r).rename ρ)
    (hwrappers : s'.wrappers = s.wrappers) : s.Linked ⟨.renaming ρ, quits⟩ s' where
  cells := hcells
  freshCell := hfresh
  head := by
    rintro r _ rfl
    have hhead : s'.head (ρ r) = (s.head r).rename ρ := congrArg Cell.head (hcell r)
    exact hhead ▸ linked_rename _
  tail := by
    rintro r _ rfl
    have htail : s'.tail (ρ r) = (s.tail r).rename ρ := congrArg Cell.tail (hcell r)
    exact htail ▸ linked_rename _
  frames := hsize
  freshFrame i := congrArg (· + i) hsize.symm
  frame := by
    rintro e _ rfl
    exact hframe e ▸ linked_frame_rename _
  freshOperative i := congrArg (· + i) hmade.symm
  operative := by
    rintro r _ rfl
    exact hoperative r ▸ linked_operative_rename _
  wrappers := hwrappers

theorem Store.Linked.renamed {ρ : Nat → Nat} {s s' : Store}
    (h : s.Linked ⟨.renaming ρ, fun _ => False⟩ s') : s.Renamed ρ s' where
  cells := h.cells.resolve_right fun hquits => hquits.2
  beyond r hr := by
    have hfresh := h.freshCell (r - s.cells.size)
    rw [h.cells.resolve_right fun hquits => hquits.2, Nat.add_sub_cancel' hr] at hfresh
    exact hfresh.symm
  head _ := eq_rename (h.head rfl)
  tail _ := eq_rename (h.tail rfl)
  frames := h.frames
  frame _ := frame_eq_rename (h.frame rfl)
  operatives := (h.freshOperative 0).symm
  operative _ := operative_eq_rename (h.operative rfl)
  wrappers := h.wrappers

/-- Runs of one program in two stores, the second of which has its pairs in other places. It may
have more pairs, which stay as they are in `spared`, and may begin with the effects in `before`. -/
def Course.renaming (ρ : Nat → Nat) (quits : Stop → Prop) (before : Array Effect) (spared : Store) :
    Course where
  link := .renaming ρ
  quits := quits
  world w w' := w.store.Linked ⟨.renaming ρ, quits⟩ w'.store ∧ w'.effects = before ++ w.effects ∧
    spared.cells.size ≤ w'.store.cells.size ∧
    ∀ r < spared.cells.size, (∀ n, r ≠ ρ n) → w'.store.cell r = spared.cell r
  entry v v' := v' = v.rename ρ

theorem Course.upheld_renaming {ρ : Nat → Nat} (hρ : ρ.Injective) (quits : Stop → Prop)
    (before : Array Effect) (spared : Store) : (Course.renaming ρ quits before spared).Upheld where
  entry h := congrArg Value.pair h
  oneToOne := Link.oneToOne_renaming hρ
  stores h := h.1
  moves := by
    rintro w w' t t' ⟨-, heffects, hsize, hcells⟩ ht - hspares
    refine ⟨ht, heffects, Nat.le_trans hsize hspares.cells, fun r hr hn => ?_⟩
    by_contra hne
    rw [← hcells r hr hn] at hne
    obtain ⟨⟨n, hr'⟩, -⟩ := hspares.cell r (Nat.lt_of_lt_of_le hr hsize) hne
    exact hn n hr'
  records := by
    rintro w w' e ⟨hstore, heffects, hspared⟩
    exact ⟨hstore, by simp [heffects], hspared⟩

/-- How many pairs the datum is made of. -/
def Datum.pairs : Datum → Nat
  | .pair head tail _ => head.pairs + tail.pairs + 1
  | .group items => items.pairs
  | _ => 0

def Datum.totalPairs : List Datum → Nat
  | [] => 0
  | d :: ds => d.pairs + totalPairs ds

namespace Store

theorem cell_of_le {s : Store} {r : Nat} (h : s.cells.size ≤ r) : s.cell r = ⟨.nil, .nil, none⟩ := by
  simp [cell, h]

theorem size_load_pairs (s : Store) (d : Datum) :
    (s.load d).2.cells.size = s.cells.size + d.pairs := by
  induction d generalizing s with
  | pair head tail l ihh iht =>
    simp only [load, size_cells_cons, ihh, iht, Datum.pairs]
    omega
  | group items ih => exact ih s
  | _ => rfl

/-- Data bring nothing but pairs into a store. -/
theorem load_eq (s : Store) (d : Datum) :
    (s.load d).2 = { s with cells := (s.load d).2.cells } := by
  induction d generalizing s with
  | pair head tail l ihh iht =>
    rw [load, cons, ihh, iht]
  | group items ih => exact ih s
  | _ => rfl

/-- Data that are loaded as the next pairs of two stores are the same in both, but for the places
where the next pairs are. -/
theorem load_rename (s t : Store) (d : Datum) {ρ : Nat → Nat}
    (hρ : ∀ i < d.pairs, ρ (s.cells.size + i) = t.cells.size + i) :
    (t.load d).1 = (s.load d).1.rename ρ ∧ ∀ i < d.pairs,
      (t.load d).2.cell (t.cells.size + i) = ((s.load d).2.cell (s.cells.size + i)).rename ρ := by
  induction d generalizing s t with
  | pair head tail l ihh iht =>
    have hpairs : (Datum.pair head tail l).pairs = head.pairs + tail.pairs + 1 := rfl
    obtain ⟨htail, htails⟩ := iht s t fun i hi => hρ i (by omega)
    have hsize := s.size_load_pairs tail
    have hsize' := t.size_load_pairs tail
    obtain ⟨hhead, hheads⟩ := ihh (s.load tail).2 (t.load tail).2 fun i hi => by
      rw [hsize, hsize', Nat.add_assoc, Nat.add_assoc]
      exact hρ _ (by omega)
    have hkeeps := ((s.load tail).2.load_unfolds head).1
    have hkeeps' := ((t.load tail).2.load_unfolds head).1
    have hend := (s.load tail).2.size_load_pairs head
    have hend' := (t.load tail).2.size_load_pairs head
    refine ⟨?_, fun i hi => ?_⟩
    · have hlast := hρ (tail.pairs + head.pairs) (by omega)
      simp only [load, cons, Value.rename, hend, hend', hsize, hsize', Nat.add_assoc, hlast]
    · simp only [load, cell_cons, hend, hend', hsize, hsize']
      by_cases hlast : i = tail.pairs + head.pairs
      · rw [if_pos (by omega), if_pos (by omega), hhead, htail]
        rfl
      · rw [if_neg (by omega), if_neg (by omega)]
        by_cases hfirst : i < tail.pairs
        · rw [hkeeps.2 _ (by omega), hkeeps'.2 _ (by omega)]
          exact htails i hfirst
        · have hinner := hheads (i - tail.pairs) (by omega)
          rw [hsize, hsize', Nat.add_assoc, Nat.add_assoc, Nat.add_sub_cancel' (by omega)] at hinner
          exact hinner
  | group items ih => exact ih s t hρ
  | _ => exact ⟨rfl, fun i hi => absurd hi (Nat.not_lt_zero i)⟩

theorem size_loadAll (s : Store) (data : List Datum) :
    (s.loadAll data).2.cells.size = s.cells.size + Datum.totalPairs data := by
  induction data generalizing s with
  | nil => rfl
  | cons d ds ih =>
    simp only [loadAll, ih, size_load_pairs, Datum.totalPairs]
    omega

theorem keeps_loadAll (s : Store) (data : List Datum) : s.Keeps (s.loadAll data).2 := by
  induction data generalizing s with
  | nil => exact .refl s
  | cons d ds ih => exact (s.load_unfolds d).1.trans (ih _)

theorem loadAll_eq (s : Store) (data : List Datum) :
    (s.loadAll data).2 = { s with cells := (s.loadAll data).2.cells } := by
  induction data generalizing s with
  | nil => rfl
  | cons d ds ih => rw [loadAll, ih, load_eq]

theorem loadAll_append (s : Store) (data data' : List Datum) :
    s.loadAll (data ++ data') =
      ((s.loadAll data).1 ++ ((s.loadAll data).2.loadAll data').1,
        ((s.loadAll data).2.loadAll data').2) := by
  induction data generalizing s with
  | nil => rfl
  | cons d ds ih => simp only [List.cons_append, loadAll, ih]

theorem loadAll_rename (s t : Store) (data : List Datum) {ρ : Nat → Nat}
    (hρ : ∀ i < Datum.totalPairs data, ρ (s.cells.size + i) = t.cells.size + i) :
    (t.loadAll data).1 = (s.loadAll data).1.map (Value.rename ρ) ∧
    ∀ i < Datum.totalPairs data,
      (t.loadAll data).2.cell (t.cells.size + i) =
        ((s.loadAll data).2.cell (s.cells.size + i)).rename ρ := by
  induction data generalizing s t with
  | nil => exact ⟨rfl, fun i hi => absurd hi (Nat.not_lt_zero i)⟩
  | cons d ds ih =>
    simp only [Datum.totalPairs] at hρ ⊢
    have hsize := s.size_load_pairs d
    have hsize' := t.size_load_pairs d
    obtain ⟨hfirst, hcells⟩ := s.load_rename t d fun i hi => hρ i (by omega)
    obtain ⟨hrest, hcells'⟩ := ih (s.load d).2 (t.load d).2 fun i hi => by
      rw [hsize, hsize', Nat.add_assoc, Nat.add_assoc]
      exact hρ _ (by omega)
    refine ⟨by simp only [loadAll, List.map_cons, hfirst, hrest], fun i hi => ?_⟩
    by_cases hi' : i < d.pairs
    · simp only [loadAll]
      rw [((s.load d).2.keeps_loadAll ds).2 _ (by omega),
        ((t.load d).2.keeps_loadAll ds).2 _ (by omega)]
      exact hcells i hi'
    · have hinner := hcells' (i - d.pairs) (by omega)
      rw [hsize, hsize', Nat.add_assoc, Nat.add_assoc, Nat.add_sub_cancel' (by omega)] at hinner
      exact hinner

end Store

end Vau
