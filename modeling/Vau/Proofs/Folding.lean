import Vau.Proofs.Loading

/-! Folding a list. The recursion of `foldl` is a tail call, so that the nesting it needs is that of
one call of the procedure and a little more, however long the list is. What is known of the
procedure is told call by call: in whatever scene the next call is made, with nothing changed since
the one before, it comes to a value. -/

namespace Vau

/-- What a combiner is called with for an item, and what is kept of the value for the next call. It
is called with the item and with values that were kept, and no other values are kept. -/
structure Usage (α : Type) where
  args : α → Value → List Value
  next : α → Value → Value → Option α
  parts : α → List Value
  args_parts : ∀ a x, args a x ⊆ x :: parts a
  next_parts : ∀ {a x v b}, next a x v = some b → parts b ⊆ v :: x :: parts a

/-- An item of a list: the head of a pair, as it is when it is read, or a value that was read. -/
inductive Item where
  | head (r : Nat)
  | value (v : Value)

def Item.read (s : Store) : Item → Value
  | .head r => s.head r
  | .value v => v

namespace Usage

/-- What a call comes to is the first argument of the next. -/
def left : Usage Value where
  args a x := [a, x]
  next _ _ v := some v
  parts a := [a]
  args_parts a x := by simp
  next_parts h := by
    cases h
    simp

/-- What a call comes to is the last argument of the next. -/
def right : Usage Value where
  args a x := [x, a]
  next _ _ v := some v
  parts a := [a]
  args_parts a x := List.Subset.refl _
  next_parts h := by
    cases h
    simp

/-- What the calls come to is collected, the last first. -/
def each : Usage (List Value) where
  args _ x := [x]
  next vs _ v := some (v :: vs)
  parts vs := vs
  args_parts vs x := by simp
  next_parts h := by
    cases h
    simp

/-- The items for which a call comes to true are collected, the last first. -/
def choice : Usage (List Value) where
  args _ x := [x]
  next
    | xs, x, .bool b => some (if b then x :: xs else xs)
    | _, _, _ => none
  parts xs := xs
  args_parts xs x := by simp
  next_parts {xs x v ys} h := by
    cases v with
    | bool b =>
      cases h
      cases b with
      | true => simp
      | false => exact fun y hy => List.mem_cons_of_mem _ (List.mem_cons_of_mem _ hy)
    | _ => cases h

end Usage

namespace Scene

open Library Vau.Tree

/-- A proper list of which the tails are held. -/
inductive Strung (σ : Scene) : Value → List Nat → Prop
  | nil : Strung σ .nil []
  | pair {r : Nat} {rs : List Nat} (hr : σ.cell r ∨ σ.spine r)
    (htail : Strung σ (σ.store.tail r) rs) : Strung σ (.pair r) (r :: rs)

/-- A proper list of the values, the pairs of which are held. -/
inductive Carries (σ : Scene) : Value → List Value → Prop
  | nil : Carries σ .nil []
  | pair {r : Nat} {vs : List Value} (hr : σ.cell r) (htail : Carries σ (σ.store.tail r) vs) :
    Carries σ (.pair r) (σ.store.head r :: vs)

/-- For one item after the other the combiner, called from anywhere, comes to a value from which it
goes on. -/
def Serves (cfg : Gauge) (n d : Nat) (c : Value) {α : Type} (u : Usage α) :
    List Item → α → (α → Scene → Prop) → Scene → Prop
  | [], a, Q, σ => ∀ τ, σ.Grown τ → Q a τ
  | item :: items, a, Q, σ => ∀ e, σ.Invoked cfg n d c (u.args a (item.read σ.store)) e fun v τ =>
    ∃ b, u.next a (item.read σ.store) v = some b ∧ Serves cfg n d c u items b Q τ

/-- The items are heads of pairs that exist, or have been read. -/
def Steady (σ : Scene) (items : List Item) : Prop :=
  ∀ r, .head r ∈ items → r < σ.store.cells.size

variable {σ τ : Scene} {cfg : Gauge} {n N d D e p q root κ label : Nat}
  {c v a acc xs : Value}
  {rs : List Nat} {vs : List Value} {body : Tree} {Q : Value → Scene → Prop}
  {items : List Item}

theorem Strung.onward (h : σ.Strung v rs) (hτ : σ.Onward τ) : τ.Strung v rs := by
  induction h with
  | nil => exact .nil
  | pair hr _ ih =>
    rcases hr with hr | hr
    · obtain ⟨hheld, hcell⟩ := hτ.cell hr
      exact .pair (.inl hheld) (by rwa [Store.tail, hcell])
    · obtain ⟨hheld, htail⟩ := hτ.spine hr
      exact .pair (.inr hheld) (by rwa [htail])

theorem Strung.lt (h : σ.Strung v rs) : ∀ r ∈ rs, r < σ.store.cells.size := by
  induction h with
  | nil => exact List.forall_mem_nil _
  | pair hr _ ih => exact List.forall_mem_cons.mpr ⟨hr.elim σ.cell_lt σ.spine_lt, ih⟩

theorem Carries.onward (h : σ.Carries v vs) (hτ : σ.Onward τ) : τ.Carries v vs := by
  induction h with
  | nil => exact .nil
  | @pair r vs hr _ ih =>
    obtain ⟨hheld, hcell⟩ := hτ.cell hr
    rw [show σ.store.head r = τ.store.head r from congrArg Cell.head hcell.symm]
    exact .pair hheld (by rwa [Store.tail, hcell])

theorem Carries.strung (h : σ.Carries v vs) :
    ∃ rs, σ.Strung v rs ∧ rs.map σ.store.head = vs := by
  induction h with
  | nil => exact ⟨[], .nil, rfl⟩
  | pair hr _ ih =>
    obtain ⟨rs, hrs, hvs⟩ := ih
    exact ⟨_ :: rs, .pair (.inl hr) hrs, by rw [List.map_cons, hvs]⟩

theorem Grown.head (h : σ.Grown τ) {r : Nat} (hr : r < σ.store.cells.size) :
    τ.store.head r = σ.store.head r :=
  congrArg Cell.head (h.larger.cell r hr)

theorem Grown.tail (h : σ.Grown τ) {r : Nat} (hr : r < σ.store.cells.size) :
    τ.store.tail r = σ.store.tail r :=
  congrArg Cell.tail (h.larger.cell r hr)

theorem Strung.grown_heads (h : σ.Strung v rs) (hτ : σ.Grown τ) :
    rs.map τ.store.head = rs.map σ.store.head :=
  List.map_congr_left fun r hr => hτ.head (h.lt r hr)

theorem Steady.onward (h : σ.Steady items) (hτ : σ.Onward τ) : τ.Steady items :=
  fun r hr => Nat.lt_of_lt_of_le (h r hr) hτ.cells

theorem Steady.tail {item : Item} (h : σ.Steady (item :: items)) : σ.Steady items :=
  fun r hr => h r (List.mem_cons_of_mem _ hr)

theorem Steady.read (h : σ.Steady items) (hτ : σ.Grown τ) {item : Item} (hitem : item ∈ items) :
    item.read τ.store = item.read σ.store := by
  cases item with
  | head r => exact hτ.head (h r hitem)
  | value v => rfl

theorem Strung.steady (h : σ.Strung v rs) : σ.Steady (rs.map .head) := by
  intro r hr
  obtain ⟨_, hmem, ⟨⟩⟩ := List.mem_map.mp hr
  exact h.lt r hmem

theorem steady_values (σ : Scene) (vs : List Value) : σ.Steady (vs.map .value) := by
  intro r hr
  obtain ⟨_, _, ⟨⟩⟩ := List.mem_map.mp hr

theorem Invoked.grown (h : σ.Invoked cfg n d c vs e Q) (hτ : σ.Grown τ) :
    τ.Invoked cfg n d c vs e Q :=
  fun υ hυ => h υ (hτ.trans hυ)

theorem Serves.grown {α : Type} {u : Usage α} {a : α} {Q : α → Scene → Prop}
    (h : Serves cfg n d c u items a Q σ) (hitems : σ.Steady items) (hτ : σ.Grown τ) :
    Serves cfg n d c u items a Q τ := by
  cases items with
  | nil => exact fun υ hυ => h υ (hτ.trans hυ)
  | cons item items =>
    intro e
    rw [hitems.read hτ List.mem_cons_self]
    exact (h e).grown hτ

theorem grown_heads_all {lists : List Value} {rss : List (List Nat)}
    (hlists : List.Forall₂ σ.Strung lists rss) (hτ : σ.Grown τ) :
    (rss.map fun rs => rs.map τ.store.head) = rss.map fun rs => rs.map σ.store.head := by
  induction hlists with
  | nil => rfl
  | cons hv _ ih => rw [List.map_cons, List.map_cons, hv.grown_heads hτ, ih]

theorem carries_list (s : Store) (vs : List Value) (hs : (s.list vs .nil).2.Extends σ.store)
    (hheld : ∀ r, s.cells.size ≤ r → r < (s.list vs .nil).2.cells.size → σ.cell r) :
    σ.Carries (s.list vs .nil).1 vs := by
  induction vs with
  | nil => exact .nil
  | cons v vs ih =>
    have hmore : (s.list vs .nil).2.Extends (s.list (v :: vs) .nil).2 := .cons _ _ _ _
    have hcell : σ.store.cell (s.list vs .nil).2.cells.size = ⟨v, (s.list vs .nil).1, none⟩ := by
      rw [hs.cell _ (by simp [Store.list])]
      simp [Store.list, Store.cell_cons]
    have hle := (Store.Extends.list s vs .nil).cells
    have hrest : σ.Carries (σ.store.tail (s.list vs .nil).2.cells.size) vs := by
      rw [Store.tail, hcell]
      exact ih (hmore.trans hs) fun r hr hlt => hheld r hr (Nat.lt_of_lt_of_le hlt hmore.cells)
    have hpair := Carries.pair (hheld _ hle (by simp [Store.list])) hrest
    rwa [Store.head, hcell] at hpair

theorem Invoked.of_fresh (hcall : ∀ τ operands, σ.Grown τ → τ.Carries operands vs →
      τ.Called cfg n d c operands e Q) : σ.Invoked cfg n d c vs e Q := by
  intro τ hτ room hroom
  have hgrown := τ.grown_grow (.list τ.store vs .nil)
  have hcarries := carries_list (σ := τ.grow _ (.list τ.store vs .nil)) τ.store vs (.refl _)
    fun r hr hlt => .inr ⟨hr, hlt⟩
  exact .after hgrown.onward (hcall _ _ (hτ.trans hgrown) hcarries _ (.refl _) room hroom)
    fun v w hv => hv

theorem Invoked.head {r : Nat} (hr : r < σ.store.cells.size)
    (hQ : ∀ τ, σ.Grown τ → Q (σ.store.head r) τ) :
    σ.Invoked cfg n d (.primitive (.operation .head)) [.pair r] e Q := by
  refine .reads rfl (fun τ hτ _ _ => ?_) hQ
  rw [← hτ.head hr]
  rfl

theorem Invoked.tail {r : Nat} (hr : r < σ.store.cells.size)
    (hQ : ∀ τ, σ.Grown τ → Q (σ.store.tail r) τ) :
    σ.Invoked cfg n d (.primitive (.operation .tail)) [.pair r] e Q := by
  refine .reads rfl (fun τ hτ _ _ => ?_) hQ
  rw [← hτ.tail hr]
  rfl

theorem Sees.unique {name : String} {u : Value} (h : σ.Sees name v e) (h' : σ.Sees name u e) :
    v = u :=
  Option.some.inj (h.lookup.symm.trans h'.lookup)

theorem Invoked.procedure (names : List String)
    (hw : σ.Written q p (list (names.map Tree.sym)) .ignore body) (hp : p < σ.store.frames.size)
    (hlength : names.length = vs.length)
    (h : ∀ τ f, σ.Grown τ → τ.Scope f (names.zip vs) p → τ.Runs cfg n d body f Q) :
    σ.Invoked cfg n d (.operative q) vs e Q := by
  refine .of_called fun τ operands hτ hitems => ?_
  refine .operative names (hw.onward hτ.onward) (Nat.lt_of_lt_of_le hp hτ.larger.frames) hitems
    hlength rfl fun υ f hυ hscope => ?_
  exact h υ f (hτ.trans hυ) (by simpa [callerBinding] using hscope)

namespace Intact

variable (h : σ.Intact root definitions)
include h

theorem written {d : Definition} (hd : d ∈ definitions) {formals body : Tree}
    (hcode : d.code = .procedure formals body)
    (hname : σ.Sees d.name (.applicative label (.operative q)) root) :
    σ.Written q root formals .ignore body := by
  obtain ⟨q', label', hq, hname'⟩ := h.procedure hd hcode
  cases hname.unique hname'
  exact hq

end Intact

/-- A closure that calls a combiner serves for a fold, if for each item its value stands, by `R`,
for what is kept of the calls of the combiner. -/
theorem Serves.through {α : Type} {u : Usage α} {R : Value → α → Scene → Prop} {a : α}
    {Q : α → Scene → Prop} (h : Serves cfg n d c u items a Q σ) (hitems : σ.Steady items)
    (hκ : σ.Written κ p (list ["acc", "x"]) .ignore body) (hp : p < σ.store.frames.size)
    (hR : ∀ {σ τ v a}, R v a σ → σ.Onward τ → R v a τ) (ha : R acc a σ)
    (hbody : ∀ τ f acc a x P, σ.Onward τ → τ.Scope f [("acc", acc), ("x", x)] p → R acc a τ →
      (∀ e, τ.Invoked cfg n d c (u.args a x) e P) → (∀ w φ, P w φ → ∃ b, u.next a x w = some b) →
      τ.Runs cfg N D body f fun v υ =>
        ∃ w φ, P w φ ∧ τ.Onward φ ∧ φ.Grown υ ∧ ∀ b, u.next a x w = some b → R v b υ) :
    Serves cfg N D (.operative κ) .left items acc
      (fun v τ => ∃ b, R v b τ ∧ ∀ υ, τ.Grown υ → Q b υ) σ := by
  induction items generalizing σ acc a with
  | nil => exact fun τ hτ => ⟨a, hR ha hτ.onward, fun υ hυ => h υ (hτ.trans hυ)⟩
  | cons item items ih =>
    intro e
    refine .procedure ["acc", "x"] hκ hp rfl fun τ f hτ hscope => ?_
    have hcalls (e : Nat) := (h e).grown hτ
    refine (hbody τ f acc a (item.read σ.store) _ hτ.onward hscope (hR ha hτ.onward) hcalls
      fun w φ hw => ⟨hw.choose, hw.choose_spec.1⟩).mono ?_
    rintro v υ hυ ⟨w, φ, ⟨b, hb, hrest⟩, hφ, hgrown, hv⟩
    have hon := hτ.onward.trans hυ
    refine ⟨v, rfl, ih (hrest.grown (hitems.tail.onward (hτ.onward.trans hφ)) hgrown)
      (hitems.tail.onward hon) (hκ.onward hon) (Nat.lt_of_lt_of_le hp hon.evolves.frames) (hv b hb)
      ?_⟩
    exact fun ψ f acc a x P hψ => hbody ψ f acc a x P (hon.trans hψ)

/-- What is known by `K` of a list can be told while the list is made: of the empty list first, and
then of each pair that is put before it. -/
structure Gathers (σ : Scene) (K : Value → List Value → Scene → Prop) : Prop where
  nil : ∀ τ, σ.Onward τ → K .nil [] τ
  grown : ∀ {τ υ v vs}, K v vs τ → τ.Grown υ → K v vs υ
  cons : ∀ {τ υ v vs r}, σ.Onward τ → K v vs τ → τ.Grown υ → υ.cell r → τ.store.cells.size ≤ r →
    υ.store.tail r = v → K (.pair r) (υ.store.head r :: vs) υ

theorem gathers_carries (σ : Scene) : σ.Gathers fun v vs τ => τ.Carries v vs where
  nil _ _ := .nil
  grown hv hτ := hv.onward hτ.onward
  cons _ hv hυ hr _ htail := .pair hr (htail ▸ hv.onward hυ.onward)

theorem Gathers.serves_cons {ρ : Scene} {K : Value → List Value → Scene → Prop} (hK : ρ.Gathers K)
    (hσ : ρ.Onward σ) (hitems : σ.Steady items) (ha : K a vs σ)
    (hQ : ∀ τ v, σ.Grown τ → K v ((items.map (Item.read σ.store)).reverse ++ vs) τ → Q v τ) :
    Serves cfg n d (.primitive (.operation .cons)) .right items a Q σ := by
  induction items generalizing σ a vs with
  | nil => exact fun τ hτ => hQ τ a hτ (hK.grown ha hτ)
  | cons item items ih =>
    refine fun e => .cons_new fun τ r hτ hr hnew hhead htail => ⟨_, rfl, ?_⟩
    have hmade : K (.pair r) (item.read σ.store :: vs) τ := hhead ▸ hK.cons hσ ha hτ hr hnew htail
    have hsame : items.map (Item.read τ.store) = items.map (Item.read σ.store) :=
      List.map_congr_left fun i hi => hitems.tail.read hτ hi
    refine ih (hσ.trans hτ.onward) (hitems.tail.onward hτ.onward) hmade
      fun υ v hυ hv => hQ υ v (hτ.trans hυ) ?_
    rw [hsame] at hv
    simpa using hv

theorem serves_cons (hitems : σ.Steady items) (ha : σ.Carries a vs)
    (hQ : ∀ τ v, σ.Grown τ → τ.Carries v ((items.map (Item.read σ.store)).reverse ++ vs) → Q v τ) :
    Serves cfg n d (.primitive (.operation .cons)) .right items a Q σ :=
  (gathers_carries σ).serves_cons (.refl σ) hitems ha hQ

section Folding

variable (hlimit : cfg.stepLimit = none)
include hlimit

/-- The closure hands a combiner, which it finds where it was made, the item first. -/
theorem Serves.swapped {name : String} (h : Serves cfg n d c .right items a Q σ)
    (hitems : σ.Steady items) (hplain : c.isApplicative = false)
    (hκ : σ.Written κ p (list ["acc", "x"]) .ignore (list [name, "x", "acc"]))
    (hc : σ.Sees name (.applicative label c) p)
    (hfree : ∀ acc x : Value, [("acc", acc), ("x", x)].lookup name = none) (hN : n + 3 ≤ N)
    (hD : d + 1 ≤ D) :
    Serves cfg N D (.operative κ) .left items a
      (fun v τ => ∃ b, v = b ∧ ∀ υ, τ.Grown υ → Q b υ) σ := by
  obtain ⟨N, rfl⟩ : ∃ k, N = k + 3 := ⟨N - 3, by omega⟩
  refine h.through hitems hκ hc.frame_lt (fun hv _ => hv) rfl ?_
  rintro τ f _ a x P hτ hscope rfl hcalls -
  refine .apply (d := d) hlimit (hscope.sees_outer (hfree _ _) (hc.onward hτ)) hplain (by simp) hD
    fun υ hυ => ?_
  refine .symbol hlimit ((hscope.onward hυ.onward).sees rfl) fun φ hφ => ?_
  refine .symbol hlimit ((hscope.onward (hυ.trans hφ).onward).sees rfl) fun ψ hψ => ?_
  have hψ' := hυ.trans (hφ.trans hψ)
  refine (((hcalls f).grown hψ').weaken (by omega) (by omega)).mono fun v χ hχ hv => ?_
  exact ⟨v, χ, hv, hψ'.onward.trans hχ, .refl χ, fun b hb => Option.some.inj hb⟩

variable (h : σ.Intact root definitions)
include h

theorem Runs.null {name : String} {bs : List (String × Value)} (hscope : σ.Scope e bs root)
    (hname : bs.lookup name = some v) (hfree : bs.lookup "null?" = none) (hD : 1 ≤ D)
    (hQ : ∀ τ, σ.Grown τ → Q (.bool (v == .nil)) τ) :
    σ.Runs cfg (n + 2) D (list ["null?", name]) e Q := by
  obtain ⟨_, htest⟩ := h.wrapped (p := .operation (.test .null)) (by decide) rfl
  refine .apply (d := 0) hlimit (hscope.sees_outer hfree htest) rfl (by simp) hD fun τ hτ => ?_
  refine .symbol hlimit ((hscope.onward hτ.onward).sees hname) fun υ hυ => ?_
  refine .reads rfl (fun _ _ _ _ => ?_) fun φ hφ => hQ φ (hτ.trans (hυ.trans hφ))
  cases v <;> rfl

theorem Runs.empty {name : String} {bs : List (String × Value)} {t₁ t₂ : Tree}
    (hscope : σ.Scope e bs root) (hname : bs.lookup name = some xs) (hif : bs.lookup "^if" = none)
    (hnull : bs.lookup "null?" = none) (hxs : σ.Strung xs rs)
    (hnil : rs = [] → σ.Runs cfg (n + 4) D t₁ e Q) (hpair : rs ≠ [] → σ.Runs cfg (n + 4) D t₂ e Q)
    (hD : 3 ≤ D) : σ.Runs cfg (n + 6) D (list ["^if", list ["null?", name], t₁, t₂]) e Q := by
  refine .conditional (d := D - 2) hlimit h (by simp [definitions, parts])
    (fun v => hscope.sees_outer hif) ?_ (by omega) hD
  refine .null hlimit h hscope hname hnull (by omega) fun τ hτ => ?_
  cases hxs with
  | nil => exact ⟨true, rfl, (hnil rfl).grown hτ⟩
  | pair _ _ => exact ⟨false, rfl, (hpair (List.cons_ne_nil _ _)).grown hτ⟩

theorem Runs.head {name : String} {bs : List (String × Value)} {r : Nat}
    (hscope : σ.Scope e bs root) (hname : bs.lookup name = some (.pair r))
    (hfree : bs.lookup "head" = none) (hr : r < σ.store.cells.size) (hD : 1 ≤ D)
    (hQ : ∀ τ, σ.Grown τ → Q (σ.store.head r) τ) :
    σ.Runs cfg (n + 2) D (list ["head", name]) e Q := by
  obtain ⟨_, hhead⟩ := h.wrapped (p := .operation .head) (by decide) rfl
  refine .apply (d := 0) hlimit (hscope.sees_outer hfree hhead) rfl (by simp) hD fun τ hτ => ?_
  refine .symbol hlimit ((hscope.onward hτ.onward).sees hname) fun υ hυ => ?_
  have hυ' := hτ.trans hυ
  refine .head (Nat.lt_of_lt_of_le hr hυ'.larger.cells) fun φ hφ => ?_
  rw [hυ'.head hr]
  exact hQ φ (hυ'.trans hφ)

theorem Runs.tail {name : String} {bs : List (String × Value)} {r : Nat}
    (hscope : σ.Scope e bs root) (hname : bs.lookup name = some (.pair r))
    (hfree : bs.lookup "tail" = none) (hr : r < σ.store.cells.size) (hD : 1 ≤ D)
    (hQ : ∀ τ, σ.Grown τ → Q (σ.store.tail r) τ) :
    σ.Runs cfg (n + 2) D (list ["tail", name]) e Q := by
  obtain ⟨_, htail⟩ := h.wrapped (p := .operation .tail) (by decide) rfl
  refine .apply (d := 0) hlimit (hscope.sees_outer hfree htail) rfl (by simp) hD fun τ hτ => ?_
  refine .symbol hlimit ((hscope.onward hτ.onward).sees hname) fun υ hυ => ?_
  have hυ' := hτ.trans hυ
  refine .tail (Nat.lt_of_lt_of_le hr hυ'.larger.cells) fun φ hφ => ?_
  rw [hυ'.tail hr]
  exact hQ φ (hυ'.trans hφ)

/-- The operands with which `foldl` calls itself for the items that are left. -/
theorem RunsAll.folding {label' r : Nat} {P : Value → Scene → Prop} {Q : List Value → Scene → Prop}
    (hscope : σ.Scope e [("f", .applicative label' c), ("acc", a), ("xs", .pair r)] root)
    (hplain : c.isApplicative = false) (hr : σ.cell r ∨ σ.spine r)
    (hcall : σ.Invoked cfg n d c [a, σ.store.head r] e P)
    (hQ : ∀ v τ υ, σ.Onward τ → P v τ → τ.Grown υ → Q [.applicative label' c, v, σ.store.tail r] υ)
    (hN : n + 3 ≤ N) (hD : d + 2 ≤ D) :
    RunsAll cfg N D e ["f", list ["f", "acc", list ["head", "xs"]], list ["tail", "xs"]] Q σ := by
  obtain ⟨N, rfl⟩ : ∃ k, N = k + 3 := ⟨N - 3, by omega⟩
  have hlt := hr.elim σ.cell_lt σ.spine_lt
  refine .symbol hlimit (hscope.sees rfl) fun τ hτ => ?_
  refine .apply (d := D - 1) hlimit ((hscope.onward hτ.onward).sees rfl) hplain (by simp) (by omega)
    fun υ hυ => ?_
  have hυ' := hτ.trans hυ
  refine .symbol hlimit ((hscope.onward hυ'.onward).sees rfl) fun φ hφ => ?_
  have hφ' := hυ'.trans hφ
  refine .head hlimit (h.onward hφ'.onward) (hscope.onward hφ'.onward) rfl rfl
    (Nat.lt_of_lt_of_le hlt hφ'.larger.cells) (by omega) fun ψ hψ => ?_
  have hψ' := hφ'.trans hψ
  rw [hφ'.head hlt]
  refine ((hcall.grown hψ').weaken (by omega) (by omega)).mono fun v χ hχ hv => ?_
  -- the call may have changed the heads of the list, and has left its spine
  have hon := hψ'.onward.trans hχ
  have htail : χ.store.tail r = σ.store.tail r :=
    hr.elim hon.tail fun hr => (hon.spine hr).2
  refine .tail hlimit (h.onward hon) (hscope.onward hon) rfl rfl (Nat.lt_of_lt_of_le hlt hon.cells)
    (by omega) fun ω hω => ?_
  rw [htail]
  exact hQ v χ ω hon hv hω

theorem Invoked.foldl {label' : Nat}
    (hname : σ.Sees "foldl" (.applicative label (.operative q)) root) (hxs : σ.Strung xs rs)
    (hplain : c.isApplicative = false) (hc : Serves cfg n d c .left (rs.map .head) a Q σ)
    (hN : n + 3 * rs.length + 6 ≤ N) (hD : d + 3 ≤ D) :
    σ.Invoked cfg N D (.operative q) [.applicative label' c, a, xs] e Q := by
  induction rs generalizing σ xs a N e with
  | nil =>
    obtain ⟨N, rfl⟩ : ∃ k, N = k + 6 := ⟨N - 6, by simp at hN; omega⟩
    have hw := h.written (d := Library.foldl) (by simp [definitions, parts]) rfl hname
    refine .procedure ["f", "acc", "xs"] hw h.lt rfl fun τ f hτ hscope => ?_
    refine .empty hlimit (h.onward hτ.onward) hscope rfl rfl rfl (hxs.onward hτ.onward)
      (fun _ => ?_) (fun hne => absurd rfl hne) (by omega)
    exact .symbol hlimit (hscope.sees rfl) fun υ hυ => hc υ (hτ.trans hυ)
  | cons r rs ih =>
    rw [List.length_cons] at hN
    obtain ⟨N, rfl⟩ : ∃ k, N = k + 6 := ⟨N - 6, by omega⟩
    have hw := h.written (d := Library.foldl) (by simp [definitions, parts]) rfl hname
    refine .procedure ["f", "acc", "xs"] hw h.lt rfl fun τ f hτ hscope => ?_
    refine .empty hlimit (h.onward hτ.onward) hscope rfl rfl rfl (hxs.onward hτ.onward)
      (fun hnil => by cases hnil) (fun _ => ?_) (by omega)
    have hname' := hscope.sees_outer rfl (hname.onward hτ.onward)
    -- in tail position, so that the nesting is that of this call once more
    refine .apply (d := D - 1) hlimit hname' rfl (by simp) (by omega) fun υ hυ => ?_
    have hυ' := hτ.trans hυ
    have hcall := (hc f).grown hυ'
    have hsteady := hxs.steady
    have hlt := hxs.lt r List.mem_cons_self
    obtain _ | ⟨hr, hrest⟩ := hxs.onward hυ'.onward
    rw [show Item.read σ.store (.head r) = υ.store.head r from (hυ'.head hlt).symm] at hcall
    refine .folding hlimit (h.onward hυ'.onward) (hscope.onward hυ.onward) hplain hr hcall ?_
      (by omega) (by omega)
    rintro b φ ψ hφ ⟨_, ⟨⟩, hserves⟩ hψ
    have hafter := hυ'.onward.trans hφ
    have hon := hafter.trans hψ.onward
    exact ih (h.onward hon) (hname.onward hon) (hrest.onward (hφ.trans hψ.onward))
      (hserves.grown (hsteady.tail.onward hafter) hψ) (by omega)

theorem Invoked.reverse_gathers {ρ : Scene} {K : Value → List Value → Scene → Prop}
    (hK : ρ.Gathers K) (hσ : ρ.Onward σ)
    (hname : σ.Sees "reverse" (.applicative label (.operative q)) root) (hxs : σ.Strung xs rs)
    (hN : 3 * rs.length + 20 ≤ N) (hD : 6 ≤ D)
    (hQ : ∀ τ v, σ.Grown τ → K v (rs.map σ.store.head).reverse τ → Q v τ) :
    σ.Invoked cfg N D (.operative q) [xs] e Q := by
  obtain ⟨N, rfl⟩ : ∃ k, N = k + 20 := ⟨N - 20, by omega⟩
  obtain ⟨_, hcons⟩ := h.wrapped (p := .operation .cons) (by decide) rfl
  obtain ⟨q', _, -, hfoldl⟩ := h.procedure (d := Library.foldl) (by simp [definitions, parts]) rfl
  have hw := h.written (d := Library.reverse) (by simp [definitions, parts]) rfl hname
  refine .procedure ["xs"] hw h.lt rfl fun τ f hτ hscope => ?_
  have hsees {name : String} {v : Value} (hnone : [("xs", xs)].lookup name = none)
      (hv : σ.Sees name v root) : τ.Sees name v f :=
    hscope.sees_outer hnone (hv.onward hτ.onward)
  refine .apply (d := 5) hlimit (hsees rfl hfoldl) rfl (by simp) (by omega) fun υ hυ => ?_
  have hυ' := hτ.trans hυ
  refine .lambda hlimit (h.onward hυ'.onward) (by simp [definitions, parts]) ?_ rfl
    (fun φ κ _ hφ hκ => ?_) (Nat.le_refl _)
  · exact fun v hv => (hscope.onward hυ.onward).sees_outer rfl hv
  refine .constant hlimit rfl rfl fun ψ hψ => ?_
  have hψ' := hυ.trans (hφ.trans hψ)
  refine .symbol hlimit ((hscope.onward hψ'.onward).sees rfl) fun χ hχ => ?_
  have hχ' := hψ'.trans hχ
  have hall := hτ.trans hχ'
  have hserves : Serves cfg 1 0 (.primitive (.operation .cons)) .right (rs.map .head) .nil Q χ := by
    have hon := hσ.trans hall.onward
    refine hK.serves_cons hon (hxs.steady.onward hall.onward) (hK.nil χ hon) fun ω v hω hv =>
      hQ ω v (hall.trans hω) ?_
    rw [List.map_map, List.append_nil] at hv
    exact hxs.grown_heads hall ▸ hv
  have hclosure := hserves.swapped (N := 4) (D := 1) hlimit (hxs.steady.onward hall.onward) rfl
    (hκ.onward (hψ.trans hχ).onward) ((hsees rfl hcons).onward hχ'.onward) (fun _ _ => rfl)
    (Nat.le_refl _) (Nat.le_refl _)
  refine .mono (.foldl hlimit (h.onward hall.onward) (hfoldl.onward hall.onward)
    (hxs.onward hall.onward) rfl hclosure (by omega) (by omega)) ?_
  rintro v ω - ⟨_, rfl, hv⟩
  exact hv ω (.refl ω)

theorem Invoked.reverse
    (hname : σ.Sees "reverse" (.applicative label (.operative q)) root) (hxs : σ.Strung xs rs)
    (hN : 3 * rs.length + 20 ≤ N) (hD : 6 ≤ D)
    (hQ : ∀ τ v, σ.Grown τ → τ.Carries v (rs.map σ.store.head).reverse → Q v τ) :
    σ.Invoked cfg N D (.operative q) [xs] e Q :=
  .reverse_gathers hlimit h (gathers_carries σ) (.refl σ) hname hxs hN hD hQ

end Folding

end Scene

end Vau
