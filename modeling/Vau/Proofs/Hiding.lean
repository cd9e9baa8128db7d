import Vau.Proofs.Conduct
import Vau.Proofs.Evolution
import Vau.Proofs.InStep
import Vau.Proofs.Scene
import Vau.Proofs.Yields

/-! Hidden places. What nothing else refers to, a program that is not handed it does not find: a run
that takes its course side by side with itself touches no hidden place, and what it makes does not
refer to one. Hidden places may hold anything, so the store is compared with a sound one in which all
others are the same. -/

namespace Vau

/-- Places that are hidden. -/
structure Hidden where
  cell : Nat → Prop
  frame : Nat → Prop
  operative : Nat → Prop

namespace Hidden

def none : Hidden := ⟨fun _ => False, fun _ => False, fun _ => False⟩

/-- Hidden, or not yet in the first store but in the second. -/
def more (H : Hidden) (s t : Store) : Hidden where
  cell r := H.cell r ∨ s.cells.size ≤ r ∧ r < t.cells.size
  frame e := H.frame e ∨ s.frames.size ≤ e ∧ e < t.frames.size
  operative q := H.operative q ∨ s.operatives.size ≤ q ∧ q < t.operatives.size

/-- Everything stands for itself, but hidden places do not occur. -/
def terms (H : Hidden) : Terms where
  link := {
    cell r r' := r' = r ∧ ¬ H.cell r
    frame e e' := e' = e ∧ ¬ H.frame e
    operative q q' := q' = q ∧ ¬ H.operative q }
  quits _ := False

/-- The value refers to what exists, and to no hidden place. -/
def Public (H : Hidden) (x : Extent) (v : Value) : Prop := v.Linked H.terms.link v ∧ v.In x

theorem oneToOne (H : Hidden) : H.terms.link.OneToOne where
  cell := by
    rintro a _ b _ ⟨rfl, -⟩ ⟨rfl, -⟩
    rfl
  frame := by
    rintro a _ b _ ⟨rfl, -⟩ ⟨rfl, -⟩
    rfl
  operative := by
    rintro a _ b _ ⟨rfl, -⟩ ⟨rfl, -⟩
    rfl

/-- Runs side by side that begin with the store `base` and come to no hidden place. -/
def course (H : Hidden) (base : Store) : Course where
  toTerms := H.terms
  world w w' := w.store.Linked H.terms w'.store ∧ base.Spares H.terms.link w.store
  entry _ _ := True

theorem upheld (H : Hidden) (base : Store) : (H.course base).Upheld where
  entry _ := trivial
  oneToOne := H.oneToOne
  stores h := h.1
  moves hw ht hspares _ := ⟨ht, hw.2.trans hspares⟩
  records _ h := h

end Hidden

namespace Value.Linked

variable {H : Hidden} {v v' : Value}

theorem eq_of_hidden (h : v.Linked H.terms.link v') : v' = v := by
  induction h with
  | pair h => rw [h.1]
  | env h => rw [h.1]
  | operative h => rw [h.1]
  | applicative label _ ih => rw [ih]
  | _ => rfl

theorem none (v : Value) : v.Linked Hidden.none.terms.link v := by
  induction v with
  | applicative label u ih => exact .applicative label ih
  | sym name => exact .sym trivial
  | primitive p => exact .primitive trivial
  | pair r => exact .pair ⟨rfl, id⟩
  | env e => exact .env ⟨rfl, id⟩
  | operative q => exact .operative ⟨rfl, id⟩
  | nil => exact .nil
  | ignore => exact .ignore
  | inert => exact .inert
  | bool b => exact .bool b
  | int n => exact .int n
  | str s => exact .str s

end Value.Linked

/-- How much exists in the store, as its extent says. -/
structure Extent.Measures (x : Extent) (s : Store) : Prop where
  cells : s.cells.size = x.cells
  frames : s.frames.size = x.frames
  operatives : s.operatives.size = x.operatives
  wrappers : s.wrappers = x.wrapped.length

section More

variable {H : Hidden} {x : Extent} {s t : Store} (hx : x.Measures s)
include hx

theorem Value.Linked.more {v v' : Value} (h : v.Linked H.terms.link v') (hv : v'.In x) :
    v.Linked (H.more s t).terms.link v' := by
  induction h with
  | nil => exact .nil
  | ignore => exact .ignore
  | inert => exact .inert
  | bool b => exact .bool b
  | int n => exact .int n
  | str s => exact .str s
  | sym h => exact .sym h
  | @pair _ r h =>
    have hlt : r < s.cells.size := hx.cells ▸ hv
    exact .pair ⟨h.1, fun hhidden => hhidden.elim h.2 fun hnew => by have := h.1; omega⟩
  | @env _ e h =>
    have hlt : e < s.frames.size := hx.frames ▸ hv
    exact .env ⟨h.1, fun hhidden => hhidden.elim h.2 fun hnew => by have := h.1; omega⟩
  | @operative _ q h =>
    have hlt : q < s.operatives.size := hx.operatives ▸ hv
    exact .operative ⟨h.1, fun hhidden => hhidden.elim h.2 fun hnew => by have := h.1; omega⟩
  | applicative label _ ih => exact .applicative label (ih hv.2)
  | primitive h => exact .primitive h

theorem linked_all_more {vs vs' : List Value} (h : List.Forall₂ (Value.Linked H.terms.link) vs vs')
    (hvs : ∀ v ∈ vs', v.In x) : List.Forall₂ (Value.Linked (H.more s t).terms.link) vs vs' := by
  induction h with
  | nil => exact .nil
  | cons hv _ ih =>
    obtain ⟨hin, hvs⟩ := List.forall_mem_cons.mp hvs
    exact .cons (hv.more hx hin) (ih hvs)

theorem Frame.Linked.more {f f' : Frame} (h : f.Linked H.terms.link f')
    (hbound : ∀ b ∈ f'.bindings, b.2.In x) (hin : ∀ p, f'.parent = some p → p < x.frames) :
    f.Linked (H.more s t).terms.link f' := by
  obtain ⟨hbindings, hparent⟩ := h
  constructor
  · generalize f.bindings = bs at hbindings
    generalize f'.bindings = bs' at hbindings hbound
    induction hbindings with
    | nil => exact .nil
    | cons hb _ ih =>
      obtain ⟨hin, hbound⟩ := List.forall_mem_cons.mp hbound
      exact .cons ⟨hb.1, fun hname => (hb.2 hname).more hx hin⟩ (ih hbound)
  · generalize f.parent = p at hparent
    generalize hp : f'.parent = p' at hparent
    cases hparent with
    | none => exact .none
    | some h =>
      have hlt := hx.frames ▸ hin _ hp
      exact .some ⟨h.1, fun hhidden => hhidden.elim h.2 fun hnew => by have := h.1; omega⟩

theorem Operative.Linked.more {o o' : Operative} (h : o.Linked H.terms.link o') (ho : o'.In x) :
    o.Linked (H.more s t).terms.link o' := by
  refine ⟨?_, h.formals.more hx ho.formals, h.dynamic.more hx ho.dynamic, ?_, h.name⟩
  · have hlt := ho.scope
    rw [← hx.frames] at hlt
    exact ⟨h.scope.1, fun hhidden => hhidden.elim h.scope.2 fun hnew => by have := h.scope.1; omega⟩
  · exact linked_all_more hx h.body ho.body

end More

namespace Array

variable {α : Type}

theorem getD_of_size_le {a : Array α} {i : Nat} (h : a.size ≤ i) (d : α) : a.getD i d = d := by
  rw [Array.getD_eq_getD_getElem?, Array.getElem?_eq_none h]
  rfl

theorem getD_append_replicate (a : Array α) (n i : Nat) (d : α) :
    (a ++ Array.replicate n d).getD i d = a.getD i d := by
  rw [Array.getD_eq_getD_getElem?, Array.getD_eq_getD_getElem?, Array.getElem?_append]
  by_cases hi : i < a.size
  · rw [if_pos hi]
  · rw [if_neg hi, Array.getElem?_replicate, Array.getElem?_eq_none (by omega)]
    split
    · rfl
    · rfl

end Array

theorem Each.append_replicate {α : Type} {P : Nat → α → Prop} {a : Array α} (h : Each P a) (n : Nat)
    {d : α} (hd : ∀ i, P i d) : Each P (a ++ Array.replicate n d) := by
  intro i c hc
  rw [Array.getElem?_append] at hc
  split at hc
  · exact h i c hc
  · rw [Array.getElem?_replicate] at hc
    split at hc
    · cases hc
      exact hd i
    · cases hc

/-- The extent of a sound store, with as many pairs, frames, operatives and wrappers as the other. -/
def Extent.padded (x : Extent) (s : Store) : Extent where
  cells := s.cells.size
  frames := s.frames.size
  operatives := s.operatives.size
  wrapped := x.wrapped ++ List.replicate (s.wrappers - x.wrapped.length) .nil

theorem Extent.Measures.within_padded {x : Extent} {s t : Store} (hx : x.Measures s)
    (hs : s.Extends t) : x.Within (x.padded t) :=
  ⟨hx.cells ▸ hs.cells, hx.frames ▸ hs.frames, hx.operatives ▸ hs.operatives, List.prefix_append _ _⟩

namespace Store

/-- The store with as many pairs, frames, operatives and wrappers as the other one. -/
def padded (t s : Store) : Store where
  cells := t.cells ++ Array.replicate (s.cells.size - t.cells.size) ⟨.nil, .nil, none⟩
  frames := t.frames ++ Array.replicate (s.frames.size - t.frames.size) {}
  operatives := t.operatives ++
    Array.replicate (s.operatives.size - t.operatives.size) ⟨0, .nil, .nil, [], none⟩
  wrappers := s.wrappers

theorem cell_padded (t s : Store) (r : Nat) : (t.padded s).cell r = t.cell r :=
  Array.getD_append_replicate _ _ _ _

theorem frame_padded (t s : Store) (e : Nat) : (t.padded s).frame e = t.frame e :=
  Array.getD_append_replicate _ _ _ _

theorem operative_padded (t s : Store) (q : Nat) : (t.padded s).operative q = t.operative q :=
  Array.getD_append_replicate _ _ _ _

variable {s t u : Store} {x y : Extent} {H : Hidden} {v : Value} {vs : List Value}

theorem Sound.padded (h : t.Sound x) (hx : x.Measures u) (hs : u.Extends s) (hroot : 0 < x.frames) :
    (t.padded s).Sound (x.padded s) := by
  have hwithin := hx.within_padded hs
  refine ⟨?_, ?_, ?_, ?_, ?_, ?_, ?_⟩
  · simp [Store.padded, Extent.padded, h.cells_size, hx.cells ▸ hs.cells]
  · simp [Store.padded, Extent.padded, h.frames_size, hx.frames ▸ hs.frames]
  · simp [Store.padded, Extent.padded, h.operatives_size, hx.operatives ▸ hs.operatives]
  · simp [Store.padded, Extent.padded, hx.wrappers ▸ hs.wrappers]
  · exact (h.cells.mono fun _ _ hc => hc.mono hwithin).append_replicate _ fun _ => ⟨trivial, trivial⟩
  · exact (h.frames.mono fun _ _ hf => hf.mono hwithin).append_replicate _ fun _ =>
      ⟨fun _ hb => absurd hb List.not_mem_nil, fun _ hp => by cases hp⟩
  · refine (h.operatives.mono fun _ _ ho => ho.mono hwithin).append_replicate _ fun _ => ?_
    exact ⟨hwithin.frame_lt hroot, trivial, trivial, List.forall_mem_nil _⟩

theorem Extends.cell_same (h : s.Extends t) {r : Nat} (hr : ¬ (s.cells.size ≤ r ∧ r < t.cells.size)) :
    t.cell r = s.cell r := by
  rcases Nat.lt_or_ge r s.cells.size with hlt | hge
  · exact h.cell r hlt
  · rw [Store.cell, Store.cell, Array.getD_of_size_le (by omega), Array.getD_of_size_le hge]

theorem Extends.frame_same (h : s.Extends t) {e : Nat}
    (he : ¬ (s.frames.size ≤ e ∧ e < t.frames.size)) : t.frame e = s.frame e := by
  rcases Nat.lt_or_ge e s.frames.size with hlt | hge
  · exact h.frame e hlt
  · rw [Store.frame, Store.frame, Array.getD_of_size_le (by omega), Array.getD_of_size_le hge]

theorem Extends.operative_same (h : s.Extends t) {q : Nat}
    (hq : ¬ (s.operatives.size ≤ q ∧ q < t.operatives.size)) : t.operative q = s.operative q := by
  rcases Nat.lt_or_ge q s.operatives.size with hlt | hge
  · exact h.operative q hlt
  · rw [Store.operative, Store.operative, Array.getD_of_size_le (by omega), Array.getD_of_size_le hge]

/-- Nothing that is not hidden refers to a hidden place, or to one that does not exist. -/
def Hides (s : Store) (H : Hidden) (x : Extent) : Prop := ∃ t, t.Sound x ∧ s.Linked H.terms t

theorem Sound.operative_in (h : s.Sound x) (hroot : 0 < x.frames) (q : Nat) :
    (s.operative q).In x := by
  rcases Nat.lt_or_ge q x.operatives with hlt | hge
  · exact h.operative hlt
  · rw [Store.operative, Array.getD_of_size_le (h.operatives_size ▸ hge)]
    exact ⟨hroot, trivial, trivial, List.forall_mem_nil _⟩

theorem Sound.parent_in (h : s.Sound x) (e : Nat) : (∀ b ∈ (s.frame e).bindings, b.2.In x) ∧
    ∀ p, (s.frame e).parent = some p → p < x.frames := by
  obtain ⟨hbound, hparent⟩ := h.frame e
  refine ⟨hbound, fun p hp => ?_⟩
  rcases Nat.lt_or_ge e x.frames with hlt | hge
  · exact Nat.lt_trans (hparent p hp) hlt
  · rw [Store.frame, Array.getD_of_size_le (h.frames_size ▸ hge)] at hp
    cases hp

theorem Sound.hides (h : s.Sound x) : s.Hides .none x := by
  refine ⟨s, h, .inl rfl, fun _ => ⟨rfl, id⟩, ?_, ?_, rfl, fun _ => ⟨rfl, id⟩, ?_,
    fun _ => ⟨rfl, id⟩, ?_, rfl⟩
  · rintro r _ ⟨rfl, -⟩
    exact .none _
  · rintro r _ ⟨rfl, -⟩
    exact .none _
  · rintro _ e ⟨rfl, -⟩
    refine ⟨List.forall₂_same.mpr fun _ _ => ⟨rfl, fun _ => .none _⟩, ?_⟩
    cases (s.frame e).parent with
    | none => exact .none
    | some p => exact .some ⟨rfl, id⟩
  · rintro q _ ⟨rfl, -⟩
    exact ⟨⟨rfl, id⟩, .none _, .none _, List.forall₂_same.mpr fun _ _ => .none _, rfl⟩

namespace Hides

theorem measures (h : s.Hides H x) : x.Measures s := by
  obtain ⟨t, ht, hs⟩ := h
  exact {
    cells := (hs.cells.resolve_right fun hquits => hquits.2).symm.trans ht.cells_size
    frames := hs.frames.symm.trans ht.frames_size
    operatives := (hs.freshOperative 0).1.symm.trans ht.operatives_size
    wrappers := hs.wrappers.symm.trans ht.wrappers_eq }

theorem hidden_lt (h : s.Hides H x) : (∀ r, H.cell r → r < s.cells.size) ∧
    (∀ e, H.frame e → e < s.frames.size) ∧ ∀ q, H.operative q → q < s.operatives.size := by
  obtain ⟨t, -, hs⟩ := h
  refine ⟨fun r hr => ?_, fun e he => ?_, fun q hq => ?_⟩
  · by_contra hge
    refine (hs.freshCell (r - s.cells.size)).2 ?_
    rwa [Nat.add_sub_cancel' (by omega)]
  · by_contra hge
    refine (hs.freshFrame (e - s.frames.size)).2 ?_
    rwa [Nat.add_sub_cancel' (by omega)]
  · by_contra hge
    refine (hs.freshOperative (q - s.operatives.size)).2 ?_
    rwa [Nat.add_sub_cancel' (by omega)]

/-- What comes to a store may all be hidden. -/
theorem more (h : s.Hides H x) (hs : s.Extends t) (hroot : 0 < x.frames) :
    t.Hides (H.more s t) (x.padded t) := by
  have hx := h.measures
  obtain ⟨hcell, hframe, hoperative⟩ := h.hidden_lt
  obtain ⟨u, hu, hsu⟩ := h
  -- the sound store gets empty places where something new is to be hidden
  have hsound : (u.padded t).Sound (x.padded t) := hu.padded hx hs hroot
  refine ⟨u.padded t, hsound, ?_, ?_, ?_, ?_, ?_, ?_, ?_, ?_, ?_, rfl⟩
  · exact .inl (hsound.cells_size.trans rfl)
  · refine fun i => ⟨congrArg (· + i) hsound.cells_size, fun hhidden => ?_⟩
    rcases hhidden with hr | hnew
    · have := hcell _ hr
      have := hs.cells
      omega
    · omega
  · rintro _ r ⟨rfl, hr⟩
    rw [head, head, cell_padded, hs.cell_same fun hnew => hr (.inr hnew)]
    exact (hsu.head ⟨rfl, fun hhidden => hr (.inl hhidden)⟩).more hx (hu.head r)
  · rintro _ r ⟨rfl, hr⟩
    rw [tail, tail, cell_padded, hs.cell_same fun hnew => hr (.inr hnew)]
    exact (hsu.tail ⟨rfl, fun hhidden => hr (.inl hhidden)⟩).more hx (hu.tail r)
  · exact hsound.frames_size
  · refine fun i => ⟨congrArg (· + i) hsound.frames_size, fun hhidden => ?_⟩
    rcases hhidden with hr | hnew
    · have := hframe _ hr
      have := hs.frames
      omega
    · omega
  · rintro _ e ⟨rfl, he⟩
    rw [frame_padded, hs.frame_same fun hnew => he (.inr hnew)]
    exact (hsu.frame ⟨rfl, fun hhidden => he (.inl hhidden)⟩).more hx (hu.parent_in e).1
      (hu.parent_in e).2
  · refine fun i => ⟨congrArg (· + i) hsound.operatives_size, fun hhidden => ?_⟩
    rcases hhidden with hr | hnew
    · have := hoperative _ hr
      have := hs.operatives
      omega
    · omega
  · rintro _ q ⟨rfl, hq⟩
    rw [operative_padded, hs.operative_same fun hnew => hq (.inr hnew)]
    exact (hsu.operative ⟨rfl, fun hhidden => hq (.inl hhidden)⟩).more hx (hu.operative_in hroot q)

theorem public_more (h : s.Hides H x) (hs : s.Extends t) (hv : H.Public x v) :
    (H.more s t).Public (x.padded t) v :=
  ⟨hv.1.more h.measures hv.2, hv.2.mono (h.measures.within_padded hs)⟩

theorem head (h : s.Hides H x) {r : Nat} (hr : ¬ H.cell r) : H.Public x (s.head r) := by
  obtain ⟨t, ht, hs⟩ := h
  have hhead := hs.head ⟨rfl, hr⟩
  exact ⟨hhead.eq_of_hidden ▸ hhead, hhead.eq_of_hidden ▸ ht.head r⟩

theorem list (h : s.Hides H x) (hvs : ∀ v ∈ vs, H.Public x v) : ∃ y, x.Within y ∧
    (s.list vs .nil).2.Hides H y ∧ H.Public y (s.list vs .nil).1 := by
  obtain ⟨t, ht, hs⟩ := h
  obtain ⟨y, hy, hsound, hin⟩ := ht.list (fun v hv => (hvs v hv).2) (show Value.nil.In x from trivial)
  obtain ⟨hv, hlinked⟩ := hs.list H.oneToOne (List.forall₂_same.mpr fun v hv => (hvs v hv).1) .nil
  refine ⟨y, hy, ⟨_, hsound, hlinked⟩, ?_⟩
  exact ⟨hv.eq_of_hidden ▸ hv, hv.eq_of_hidden ▸ hin⟩

end Hides

end Store

theorem Hidden.Public.mono {H : Hidden} {x y : Extent} {v : Value} (h : H.Public x v)
    (hy : x.Within y) : H.Public y v :=
  ⟨h.1, h.2.mono hy⟩

/-- What a host may supply: functions that keep stores sound, change them as programs do, and come to
no hidden place that they are not handed. -/
structure Settings.Honest (cfg : Settings) : Prop where
  keeps : cfg.Keeps none
  lawful : cfg.Lawful
  blind : ∀ (H : Hidden) (base : Store), cfg.Tied (H.course base)

theorem Settings.Honest.of_empty {cfg : Settings} (h : cfg.functions = #[]) : cfg.Honest := by
  refine ⟨fun f hf => ?_, fun f hf => ?_, fun _ _ f hf => ?_⟩
  all_goals
    rw [h] at hf
    exact absurd hf (Array.not_mem_empty f)

section Calling

open Vau.Action

variable {cfg : Settings} {c : Course} {x : Extent}

theorem tied_nested (h : c.Kept) (hcfg : cfg.Tied c) (fuel room : Nat) :
    Evaluation.Tied c (nested (reduce cfg fuel) room) (nested (reduce cfg fuel) room) := by
  intro expr expr' env env' hexpr henv
  cases room with
  | zero => exact tied_fail .stackExhausted
  | succ room =>
    intro m m' hm
    have hsize : m'.stack.size = m.stack.size := by
      simpa only [Array.length_toList] using hm.stack.length_eq.symm
    simp only [nested, hsize]
    exact tied_reduce h hcfg (.inl rfl) (.inl rfl) m.stack.size hexpr henv m m' hm

theorem tied_finish (h : c.Kept) (hcfg : cfg.Tied c) (fuel room base : Nat)
    {v v' operands operands' : Value} (hv : v.Linked c.link v')
    (hoperands : operands.Linked c.link operands') {env env' : Nat} (henv : c.link.frame env env') :
    Action.Tied c (Value.Linked c.link) (finish cfg room v operands env fuel base)
      (finish cfg room v' operands' env' fuel base) := by
  refine (tied_combine h (tied_nested h hcfg fuel room) hcfg (.inl rfl) (.inl rfl) hv hoperands
    henv).bind fun a b ha => ?_
  cases ha with
  | value hv => exact tied_leave base hv
  | proceed hv he => exact tied_reduce h hcfg (.inl rfl) (.inl rfl) base hv he

theorem keeps_nested (hcfg : cfg.Keeps none) (fuel room : Nat) :
    Evaluation.Keeps none fuel (nested (reduce cfg fuel) room) := by
  intro k y expr env hk hexpr henv z m hz hm hl
  cases room with
  | zero => exact keeps_fail _ z m hz hm hl
  | succ room =>
    exact keeps_reduce hcfg (fun _ h => nomatch h) fuel k y room m.stack.size expr env hk hexpr henv
      z m hz hm hl

theorem keeps_finish (hcfg : cfg.Keeps none) (fuel room base : Nat) {v operands : Value} {env : Nat}
    (hv : v.In x) (hoperands : operands.In x) (henv : env < x.frames) :
    (finish cfg room v operands env fuel base).Keeps none 0 0 x fun y v => v.In y := by
  refine (keeps_combine hcfg (keeps_nested hcfg fuel room) (Nat.zero_le _) henv room hv
    hoperands).bind fun y a hy ha => ?_
  cases a with
  | value v => exact keeps_leave base fun z hz => Value.In.mono ha hz
  | proceed expr env =>
    exact keeps_reduce hcfg (fun _ h => nomatch h) fuel 0 y room base expr env (Nat.zero_le _)
      ha.1 ha.2

theorem lawful_finish (hcfg : cfg.Lawful) (fuel room base : Nat) (v operands : Value) (env : Nat) :
    (finish cfg room v operands env fuel base).Lawful := by
  have hreduce := fun room => pervasive_lawful.reduce hcfg fuel room
  have hev (expr : Value) (env : Nat) : (nested (reduce cfg fuel) room expr env).Lawful :=
    pervasive_lawful.nested hreduce room expr env
  refine pervasive_lawful.bind (@Congruent.combine _ _ (nested (reduce cfg fuel) room)
    (nested (reduce cfg fuel) room) cfg pervasive_lawful.congruent hev hcfg fuel room v operands env)
    fun a => ?_
  cases a with
  | value v => exact pervasive_lawful.leave base v
  | proceed expr env => exact hreduce room base expr env

/-- A run that agrees with itself wherever hidden places hold something else changes nothing hidden,
and comes to nothing hidden. -/
theorem hides_of_tied {H : Hidden} {a : Action Value} {m m' : Machine} {v : Value}
    (hm : m.store.Hides H x) (htied : a.Tied (H.course m.store) (Value.Linked H.terms.link) a)
    (hkeeps : a.Keeps none 0 0 x fun y v => v.In y) (h : a m = .ok v m') :
    ∃ y, x.Within y ∧ m'.store.Hides H y ∧ H.Public y v ∧
      m.store.Spares H.terms.link m'.store := by
  obtain ⟨t, ht, hmt⟩ := hm
  -- `t` is sound and differs in the hidden places only, so the same run from it ends in the same way
  have hends := htied m { m with world := ⟨t, m.world.effects⟩ }
    ⟨⟨hmt, .refl _⟩, List.forall₂_same.mpr fun _ _ => trivial, rfl⟩
  have hsound := hkeeps x { m with world := ⟨t, m.world.effects⟩ } (.refl x) ht fun _ hl => nomatch hl
  rw [h] at hends
  generalize a { m with world := ⟨t, m.world.effects⟩ } = r at hends hsound
  cases hends with
  | @ok _ v' _ m'' hv hm' =>
    obtain ⟨y, hy, hsound, hin, -⟩ := hsound
    obtain rfl := hv.eq_of_hidden
    exact ⟨y, hy, ⟨m''.world.store, hsound, hm'.world.1⟩, ⟨hv, hin⟩, hm'.world.2⟩

/-- A call that is handed nothing hidden changes nothing hidden, and comes to nothing hidden. -/
theorem Calls.hides {g : Gauge} {H : Hidden} {n room env : Nat} {combiner operands v : Value}
    {w w' : World} (hcfg : g.toSettings.Honest) (hw : w.store.Hides H x)
    (hcombiner : H.Public x combiner) (hoperands : H.Public x operands) (henv : ¬ H.frame env)
    (henvIn : env < x.frames) (h : Calls g n room combiner operands env w v w') :
    ∃ y, x.Within y ∧ w'.store.Hides H y ∧ H.Public y v ∧ w.store.Spares H.terms.link w'.store ∧
      w.store.Evolves w'.store := by
  obtain ⟨k, -, h⟩ := h
  obtain ⟨m', hrun, rfl⟩ := h (n + k) (Nat.le_refl _) 0 { world := w } rfl
  have htied := tied_finish (H.upheld w.store).kept (hcfg.blind H w.store) (n + k) room 0 hcombiner.1
    hoperands.1 ⟨rfl, henv⟩
  have hkeeps := keeps_finish hcfg.keeps (n + k) room 0 hcombiner.2 hoperands.2 henvIn
  obtain ⟨y, hy, hhides, hv, hspares⟩ := hides_of_tied (m := { world := w }) hw htied hkeeps hrun
  have hlawful := lawful_finish hcfg.lawful (n + k) room 0 combiner operands env { world := w }
  rw [hrun] at hlawful
  exact ⟨y, hy, hhides, hv, hspares, hlawful.evolves⟩

/-- An evaluation that is handed nothing hidden changes nothing hidden. -/
theorem nested_hides {H : Hidden} (hcfg : cfg.Honest) {fuel room env : Nat} {expr v : Value}
    {m m' : Machine} (hm : m.store.Hides H x) (hexpr : H.Public x expr) (henv : ¬ H.frame env)
    (henvIn : env < x.frames) (h : nested (reduce cfg fuel) room expr env m = .ok v m') :
    ∃ y, x.Within y ∧ m'.store.Hides H y ∧ H.Public y v ∧
      m.store.Spares H.terms.link m'.store := by
  have htied := tied_nested (H.upheld m.store).kept (hcfg.blind H m.store) fuel room expr expr env env
    hexpr.1 ⟨rfl, henv⟩
  have hkeeps := keeps_nested hcfg.keeps fuel room 0 x expr env (Nat.zero_le _) hexpr.2 henvIn
  exact hides_of_tied hm htied hkeeps h

end Calling

end Vau
