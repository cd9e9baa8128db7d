import Vau.Environment
import Vau.Formals
import Vau.Reader.Datum

/-! Sound stores. An extent tells how much has been created; in a store of that extent every
value refers to what exists, and every frame was created after its parent. -/

namespace Vau

/-- How many pairs, frames and operatives exist, and what each wrapper was made around. -/
structure Extent where
  cells : Nat := 0
  frames : Nat := 0
  operatives : Nat := 0
  wrapped : List Value := []

structure Extent.Within (x y : Extent) : Prop where
  cells : x.cells ≤ y.cells
  frames : x.frames ≤ y.frames
  operatives : x.operatives ≤ y.operatives
  wrapped : x.wrapped <+: y.wrapped

theorem Extent.Within.refl (x : Extent) : x.Within x :=
  ⟨Nat.le_refl _, Nat.le_refl _, Nat.le_refl _, List.prefix_rfl⟩

theorem Extent.Within.trans {x y z : Extent} (h : x.Within y) (h' : y.Within z) : x.Within z :=
  ⟨Nat.le_trans h.cells h'.cells, Nat.le_trans h.frames h'.frames,
    Nat.le_trans h.operatives h'.operatives, h.wrapped.trans h'.wrapped⟩

theorem Extent.Within.frame_lt {x y : Extent} (h : x.Within y) {e : Nat} (he : e < x.frames) :
    e < y.frames :=
  Nat.lt_of_lt_of_le he h.frames

/-- The value refers to what exists, and a wrapper is one that was made around its combiner. -/
def Value.In (x : Extent) : Value → Prop
  | .pair r => r < x.cells
  | .env e => e < x.frames
  | .operative r => r < x.operatives
  | .applicative label underlying => x.wrapped[label]? = some underlying ∧ underlying.In x
  | _ => True

theorem Value.In.mono {x y : Extent} {v : Value} (hv : v.In x) (h : x.Within y) : v.In y := by
  induction v with
  | pair r => exact Nat.lt_of_lt_of_le hv h.cells
  | env e => exact h.frame_lt hv
  | operative r => exact Nat.lt_of_lt_of_le hv h.operatives
  | applicative label underlying ih =>
    obtain ⟨hlabel, hunder⟩ := hv
    obtain ⟨hlt, heq⟩ := List.getElem?_eq_some_iff.mp hlabel
    refine ⟨?_, ih hunder⟩
    rw [List.prefix_iff_getElem?.mp h.wrapped label hlt, heq]
  | _ => trivial

def Cell.In (x : Extent) (c : Cell) : Prop := c.head.In x ∧ c.tail.In x

/-- The frame `e` binds what exists and was created after its parent. -/
def Frame.In (x : Extent) (e : Nat) (f : Frame) : Prop :=
  (∀ b ∈ f.bindings, b.2.In x) ∧ ∀ p, f.parent = some p → p < e

structure Operative.In (x : Extent) (o : Operative) : Prop where
  scope : o.scope < x.frames
  formals : o.formals.In x
  dynamic : o.dynamic.In x
  body : ∀ v ∈ o.body, v.In x

section Growing

variable {x y : Extent}

theorem Cell.In.mono {c : Cell} (hc : c.In x) (hy : x.Within y) : c.In y :=
  ⟨hc.1.mono hy, hc.2.mono hy⟩

theorem Frame.In.mono {e : Nat} {f : Frame} (hf : f.In x e) (hy : x.Within y) : f.In y e :=
  ⟨fun b hb => (hf.1 b hb).mono hy, hf.2⟩

theorem Operative.In.mono {o : Operative} (ho : o.In x) (hy : x.Within y) : o.In y where
  scope := hy.frame_lt ho.scope
  formals := ho.formals.mono hy
  dynamic := ho.dynamic.mono hy
  body v hv := (ho.body v hv).mono hy

end Growing

/-- Every element of the array has the property at its place. -/
def Each {α : Type} (P : Nat → α → Prop) (a : Array α) : Prop := ∀ i c, a[i]? = some c → P i c

namespace Each

variable {α : Type} {P Q : Nat → α → Prop} {a : Array α}

theorem mono (h : Each P a) (hPQ : ∀ i c, P i c → Q i c) : Each Q a :=
  fun i c hc => hPQ i c (h i c hc)

theorem push (h : Each P a) {v : α} (hv : P a.size v) : Each P (a.push v) := by
  intro i c hc
  rw [Array.getElem?_push] at hc
  split at hc
  · rename_i hi
    cases hc
    rwa [hi]
  · exact h i c hc

theorem modify (h : Each P a) {r : Nat} {f : α → α} (hf : ∀ c, P r c → P r (f c)) :
    Each P (a.modify r f) := by
  intro i c hc
  rw [Array.getElem?_modify] at hc
  split at hc
  · rename_i hi
    subst hi
    obtain ⟨d, hd, rfl⟩ := Option.map_eq_some_iff.mp hc
    exact hf d (h r d hd)
  · exact h i c hc

theorem getD (h : Each P a) {i : Nat} {d : α} (hd : a.size ≤ i → P i d) : P i (a.getD i d) := by
  rw [Array.getD_eq_getD_getElem?]
  cases hc : a[i]? with
  | none => exact hd (Array.getElem?_eq_none_iff.mp hc)
  | some c => exact h i c hc

end Each

/-- A store of the given extent in which everything refers to what exists. -/
structure Store.Sound (x : Extent) (s : Store) : Prop where
  cells_size : s.cells.size = x.cells
  frames_size : s.frames.size = x.frames
  operatives_size : s.operatives.size = x.operatives
  wrappers_eq : s.wrappers = x.wrapped.length
  cells : Each (fun _ => Cell.In x) s.cells
  frames : Each (Frame.In x) s.frames
  operatives : Each (fun _ => Operative.In x) s.operatives

/-- A new store is sound at a larger extent, where what came with it has the property. -/
def Extent.Gains {α : Type} (x : Extent) (post : Extent → α → Prop) (r : α × Store) : Prop :=
  ∃ y, x.Within y ∧ r.2.Sound y ∧ post y r.1

theorem Except.bind_eq_ok {ε α β : Type} {r : Except ε α} {f : α → Except ε β} {b : β}
    (h : (r >>= f) = .ok b) : ∃ a, r = .ok a ∧ f a = .ok b := by
  cases r with
  | error e => cases h
  | ok a => exact ⟨a, rfl, h⟩

theorem Except.bind_eq_error {ε α β : Type} {r : Except ε α} {f : α → Except ε β} {e : ε}
    (h : (r >>= f) = .error e) : r = .error e ∨ ∃ a, r = .ok a ∧ f a = .error e := by
  cases r with
  | error e' =>
    cases h
    exact .inl rfl
  | ok a => exact .inr ⟨a, rfl, h⟩

theorem Except.ok_of_mapError {ε ε' α : Type} {r : Except ε α} {f : ε → ε'} {a : α}
    (h : r.mapError f = .ok a) : r = .ok a := by
  cases r with
  | error k => cases h
  | ok b =>
    cases h
    rfl

theorem Except.error_of_mapError {ε ε' α : Type} {r : Except ε α} {f : ε → ε'} {e : ε'}
    (h : r.mapError f = .error e) : ∃ k, r = .error k ∧ f k = e := by
  cases r with
  | error k => exact ⟨k, rfl, Except.error.inj h⟩
  | ok a => cases h

theorem List.exists_of_mapM_ok {ε α β : Type} {f : α → Except ε β} {l : List α} {bs : List β}
    (h : l.mapM f = .ok bs) {b : β} (hb : b ∈ bs) : ∃ a ∈ l, f a = .ok b := by
  induction l generalizing bs with
  | nil =>
    cases h
    exact absurd hb List.not_mem_nil
  | cons a l ih =>
    rw [List.mapM_cons] at h
    obtain ⟨c, hc, h⟩ := Except.bind_eq_ok h
    obtain ⟨cs, hcs, h⟩ := Except.bind_eq_ok h
    cases h
    rcases List.mem_cons.mp hb with rfl | hb
    · exact ⟨a, List.mem_cons_self, hc⟩
    · obtain ⟨a', ha', hfa⟩ := ih hcs hb
      exact ⟨a', List.mem_cons_of_mem _ ha', hfa⟩

namespace Store

theorem sound_empty : Store.empty.Sound {} where
  cells_size := rfl
  frames_size := rfl
  operatives_size := rfl
  wrappers_eq := rfl
  cells := fun _ _ hc => by simp [empty] at hc
  frames := fun _ _ hc => by simp [empty] at hc
  operatives := fun _ _ hc => by simp [empty] at hc

namespace Sound

variable {x : Extent} {s : Store}

section Reading

theorem cell (h : s.Sound x) (r : Nat) : (s.cell r).In x :=
  h.cells.getD fun _ => ⟨trivial, trivial⟩

theorem head (h : s.Sound x) (r : Nat) : (s.head r).In x := (h.cell r).1

theorem tail (h : s.Sound x) (r : Nat) : (s.tail r).In x := (h.cell r).2

theorem frame (h : s.Sound x) (e : Nat) : (s.frame e).In x e :=
  h.frames.getD fun _ => ⟨fun _ hb => absurd hb List.not_mem_nil, fun _ hp => nomatch hp⟩

theorem operative (h : s.Sound x) {r : Nat} (hr : r < x.operatives) : (s.operative r).In x :=
  h.operatives.getD fun hle => absurd hr (by rw [h.operatives_size] at hle; omega)

theorem parent_lt (h : s.Sound x) {e p : Nat} (hp : (s.frame e).parent = some p) : p < e :=
  (h.frame e).2 p hp

theorem get? (h : s.Sound x) {e : Nat} {name : String} {v : Value}
    (hv : (s.frame e).get? name = some v) : v.In x := by
  obtain ⟨before, after, heq, -⟩ := List.lookup_eq_some_iff.mp hv
  exact (h.frame e).1 (name, v) (by rw [heq]; simp)

theorem lookup? (h : s.Sound x) {e : Nat} {name : String} {v : Value}
    (hv : s.lookup? e name = some v) : v.In x := by
  have hwithin : ∀ fuel e, s.lookupWithin name fuel e = some v → v.In x := by
    intro fuel
    induction fuel with
    | zero => intro e hv; simp [lookupWithin] at hv
    | succ fuel ih =>
      intro e hv
      rcases Option.eq_none_or_eq_some ((s.frame e).get? name) with hg | ⟨w, hg⟩
      · cases hp : (s.frame e).parent with
        | none => simp [lookupWithin, hg, hp] at hv
        | some p => exact ih p (by simpa [lookupWithin, hg, hp] using hv)
      · have hw : w = v := by simpa [lookupWithin, hg] using hv
        exact h.get? (hw ▸ hg)
  exact hwithin s.frames.size e hv

theorem walk (h : s.Sound x) {fuel : Nat} {heads vs : List Value} {v last : Value} (hv : v.In x)
    (hheads : ∀ v ∈ heads, v.In x) (hw : s.walk fuel heads v = some (vs, last)) :
    (∀ v ∈ vs, v.In x) ∧ last.In x := by
  induction fuel generalizing heads v with
  | zero =>
    cases v with
    | pair r => simp [Store.walk] at hw
    | _ =>
      obtain ⟨rfl, rfl⟩ : heads.reverse = vs ∧ _ = last := by simpa [Store.walk] using hw
      exact ⟨fun v hv => hheads v (List.mem_reverse.mp hv), hv⟩
  | succ fuel ih =>
    cases v with
    | pair r =>
      refine ih (h.tail r) (fun v hv => ?_) hw
      rcases List.mem_cons.mp hv with rfl | hv
      · exact h.head r
      · exact hheads v hv
    | _ =>
      obtain ⟨rfl, rfl⟩ : heads.reverse = vs ∧ _ = last := by simpa [Store.walk] using hw
      exact ⟨fun v hv => hheads v (List.mem_reverse.mp hv), hv⟩

theorem spine? (h : s.Sound x) {v last : Value} {vs : List Value} (hv : v.In x)
    (hw : s.spine? v = some (vs, last)) : ∀ v ∈ vs, v.In x :=
  (h.walk hv (fun _ hv => absurd hv List.not_mem_nil) hw).1

theorem descend (h : s.Sound x) {fuel : Nat} {heads : List (Value × Value)} {p o : Value}
    {d : Formals.Descent} (ho : o.In x) (hheads : ∀ b ∈ heads, b.2.In x)
    (hd : Formals.descend s fuel heads p o = .ok d) :
    d.operand.In x ∧ ∀ b ∈ d.heads, b.2.In x := by
  fun_induction Formals.descend s fuel heads p o with
  | case1 => cases hd
  | case2 heads p o fuel ih =>
    refine ih (h.tail o) (fun b hb => ?_) hd
    rcases List.mem_cons.mp hb with rfl | hb
    · exact h.head o
    · exact hheads b hb
  | case3 => cases hd
  | case4 =>
    cases hd
    exact ⟨ho, hheads⟩

theorem matchWithin (h : s.Sound x) {spine room : Nat} {p o : Value} {bs : List (String × Value)}
    (ho : o.In x) (hm : Formals.matchWithin s spine room p o = .ok bs) : ∀ b ∈ bs, b.2.In x := by
  induction room generalizing p o bs with
  | zero => cases hm
  | succ room ih =>
    obtain ⟨d, hd, hm⟩ := Except.bind_eq_ok hm
    obtain ⟨here, hleaf, hm⟩ := Except.bind_eq_ok hm
    obtain ⟨inside, hinside, hm⟩ := Except.bind_eq_ok hm
    cases hm
    obtain ⟨hop, hheads⟩ := h.descend ho (fun _ hb => absurd hb List.not_mem_nil) hd
    have hhere : ∀ b ∈ here, b.2.In x := by
      intro b hb
      unfold Formals.leaf at hleaf
      split at hleaf
      · cases hleaf
        rw [List.mem_singleton.mp hb]
        exact hop
      all_goals cases hleaf
      all_goals exact absurd hb List.not_mem_nil
    intro b hb
    rcases List.mem_append.mp hb with hb | hb
    · exact hhere b hb
    · obtain ⟨bs, hbs, hb⟩ := List.mem_flatten.mp hb
      obtain ⟨pair, hpair, hmatch⟩ := List.exists_of_mapM_ok hinside hbs
      exact ih (hheads pair hpair) hmatch b hb

theorem matchFormals (h : s.Sound x) {p o : Value} {bs : List (String × Value)} (ho : o.In x)
    (hm : s.matchFormals p o = .ok bs) : ∀ b ∈ bs, b.2.In x :=
  h.matchWithin ho (Except.ok_of_mapError hm)

end Reading

section Making

theorem gains (h : s.Sound x) {α : Type} {post : Extent → α → Prop} {a : α} (ha : post x a) :
    x.Gains post (a, s) :=
  ⟨x, .refl x, h, ha⟩

theorem mono_parts {y : Extent} (h : s.Sound x) (hy : x.Within y) :
    Each (fun _ => Cell.In y) s.cells ∧ Each (Frame.In y) s.frames ∧
      Each (fun _ => Operative.In y) s.operatives :=
  ⟨h.cells.mono fun _ _ hc => hc.mono hy, h.frames.mono fun _ _ hf => hf.mono hy,
    h.operatives.mono fun _ _ ho => ho.mono hy⟩

theorem cons (h : s.Sound x) {a b : Value} (ha : a.In x) (hb : b.In x) (l : Option Location) :
    x.Gains (fun y v => v.In y) (s.cons a b l) := by
  let y : Extent := { x with cells := x.cells + 1 }
  have hy : x.Within y := ⟨Nat.le_succ _, Nat.le_refl _, Nat.le_refl _, List.prefix_rfl⟩
  obtain ⟨hc, hf, ho⟩ := h.mono_parts hy
  have hcell : Cell.In y ⟨a, b, l⟩ := ⟨ha.mono hy, hb.mono hy⟩
  have hnew : s.cells.size < y.cells := by simp [y, h.cells_size]
  exact ⟨y, hy, ⟨by simp [Store.cons, h.cells_size, y], h.frames_size, h.operatives_size,
    h.wrappers_eq, hc.push hcell, hf, ho⟩, hnew⟩

theorem newFrame (h : s.Sound x) {parent : Option Nat}
    (hp : ∀ p, parent = some p → p < x.frames) :
    x.Gains (fun y e => e < y.frames) (s.newFrame parent) := by
  let y : Extent := { x with frames := x.frames + 1 }
  have hy : x.Within y := ⟨Nat.le_refl _, Nat.le_succ _, Nat.le_refl _, List.prefix_rfl⟩
  obtain ⟨hc, hf, ho⟩ := h.mono_parts hy
  have hframe : Frame.In y s.frames.size { parent := parent } :=
    ⟨fun _ hb => absurd hb List.not_mem_nil, fun p hp' => by rw [h.frames_size]; exact hp p hp'⟩
  have hnew : s.frames.size < y.frames := by simp [y, h.frames_size]
  exact ⟨y, hy, ⟨h.cells_size, by simp [Store.newFrame, h.frames_size, y], h.operatives_size,
    h.wrappers_eq, hc, hf.push hframe, ho⟩, hnew⟩

theorem newOperative (h : s.Sound x) {o : Operative} (ho : o.In x) :
    x.Gains (fun y v => v.In y) (s.newOperative o) := by
  let y : Extent := { x with operatives := x.operatives + 1 }
  have hy : x.Within y := ⟨Nat.le_refl _, Nat.le_refl _, Nat.le_succ _, List.prefix_rfl⟩
  obtain ⟨hc, hf, hops⟩ := h.mono_parts hy
  have hop : Operative.In y o := ⟨ho.scope, ho.formals.mono hy, ho.dynamic.mono hy,
    fun v hv => (ho.body v hv).mono hy⟩
  have hnew : s.operatives.size < y.operatives := by simp [y, h.operatives_size]
  exact ⟨y, hy, ⟨h.cells_size, h.frames_size, by simp [Store.newOperative, h.operatives_size, y],
    h.wrappers_eq, hc, hf, hops.push hop⟩, hnew⟩

theorem wrap (h : s.Sound x) {v : Value} (hv : v.In x) :
    x.Gains (fun y v => v.In y) (s.wrap v) := by
  let y : Extent := { x with wrapped := x.wrapped ++ [v] }
  have hy : x.Within y := ⟨Nat.le_refl _, Nat.le_refl _, Nat.le_refl _, List.prefix_append _ _⟩
  obtain ⟨hc, hf, ho⟩ := h.mono_parts hy
  have hnew : (Value.applicative s.wrappers v).In y := by
    refine ⟨?_, hv.mono hy⟩
    rw [h.wrappers_eq]
    simp [y]
  exact ⟨y, hy, ⟨h.cells_size, h.frames_size, h.operatives_size,
    by simp [Store.wrap, h.wrappers_eq, y], hc, hf, ho⟩, hnew⟩

theorem list (h : s.Sound x) {items : List Value} {tail : Value} (hitems : ∀ v ∈ items, v.In x)
    (htail : tail.In x) : x.Gains (fun y v => v.In y) (s.list items tail) := by
  induction items with
  | nil => exact h.gains htail
  | cons v vs ih =>
    obtain ⟨hv, hvs⟩ := List.forall_mem_cons.mp hitems
    obtain ⟨y, hy, hs, hrest⟩ := ih hvs
    obtain ⟨z, hz, hs', hnew⟩ := hs.cons (hv.mono hy) hrest none
    exact ⟨z, hy.trans hz, hs', hnew⟩

theorem define (h : s.Sound x) (e : Nat) (name : String) {v : Value} (hv : v.In x) :
    (s.define e name v).Sound x := by
  have hput : ∀ bs : List (String × Value), (∀ b ∈ bs, b.2.In x) →
      ∀ b ∈ Frame.put name v bs, b.2.In x := by
    intro bs
    induction bs with
    | nil => simp [Frame.put, hv]
    | cons b bs ih =>
      intro hbs
      obtain ⟨hb, hbs⟩ := List.forall_mem_cons.mp hbs
      unfold Frame.put
      split
      · exact List.forall_mem_cons.mpr ⟨hv, hbs⟩
      · exact List.forall_mem_cons.mpr ⟨hb, ih hbs⟩
  have hframe : ∀ f, Frame.In x e f → Frame.In x e (f.define name v) :=
    fun f hf => ⟨hput f.bindings hf.1, hf.2⟩
  exact ⟨h.cells_size, by simp [Store.define, h.frames_size], h.operatives_size, h.wrappers_eq,
    h.cells, h.frames.modify hframe, h.operatives⟩

theorem defineAll (h : s.Sound x) (e : Nat) {bs : List (String × Value)}
    (hbs : ∀ b ∈ bs, b.2.In x) : (s.defineAll e bs).Sound x := by
  induction bs generalizing s with
  | nil => exact h
  | cons b bs ih =>
    obtain ⟨hb, hbs⟩ := List.forall_mem_cons.mp hbs
    exact ih (h.define e b.1 hb) hbs

theorem setHead (h : s.Sound x) (r : Nat) {v : Value} (hv : v.In x) : (s.setHead r v).Sound x := by
  have hcell : ∀ c, Cell.In x c → Cell.In x { c with head := v } := fun c hc => ⟨hv, hc.2⟩
  exact ⟨by simp [Store.setHead, h.cells_size], h.frames_size, h.operatives_size, h.wrappers_eq,
    h.cells.modify hcell, h.frames, h.operatives⟩

theorem setTail (h : s.Sound x) (r : Nat) {v : Value} (hv : v.In x) : (s.setTail r v).Sound x := by
  have hcell : ∀ c, Cell.In x c → Cell.In x { c with tail := v } := fun c hc => ⟨hc.1, hv⟩
  exact ⟨by simp [Store.setTail, h.cells_size], h.frames_size, h.operatives_size, h.wrappers_eq,
    h.cells.modify hcell, h.frames, h.operatives⟩

theorem giveName (h : s.Sound x) (v : Value) (name : String) : (s.giveName v name).Sound x := by
  unfold Store.giveName
  split
  · refine ⟨h.cells_size, h.frames_size, by simp [h.operatives_size], h.wrappers_eq, h.cells,
      h.frames, h.operatives.modify fun o ho => ?_⟩
    split
    · exact ⟨ho.scope, ho.formals, ho.dynamic, ho.body⟩
    · exact ho
  · exact h

theorem load (h : s.Sound x) (d : Datum) : x.Gains (fun y v => v.In y) (s.load d) := by
  induction d generalizing s x with
  | pair head tail l ihh iht =>
    obtain ⟨y, hy, hs, ht⟩ := iht h
    obtain ⟨z, hz, hs', hh⟩ := ihh hs
    obtain ⟨w, hw, hs'', hnew⟩ := hs'.cons hh (ht.mono hz) l
    exact ⟨w, (hy.trans hz).trans hw, hs'', hnew⟩
  | group items ih => exact ih h
  | _ => exact h.gains trivial

theorem loadAll (h : s.Sound x) (data : List Datum) :
    x.Gains (fun y vs => ∀ v ∈ vs, v.In y) (s.loadAll data) := by
  induction data generalizing s x with
  | nil => exact h.gains fun _ hv => absurd hv List.not_mem_nil
  | cons d ds ih =>
    obtain ⟨y, hy, hs, hv⟩ := h.load d
    obtain ⟨z, hz, hs', hvs⟩ := ih hs
    exact ⟨z, hy.trans hz, hs', List.forall_mem_cons.mpr ⟨hv.mono hz, hvs⟩⟩

end Making

end Sound

end Store

end Vau
