import Vau.Proofs.Folding

/-! The list functions that are folds. -/

namespace Vau

theorem Usage.bool_of_choice {xs : List Value} {x v : Value}
    (h : ∃ ys, Usage.choice.next xs x v = some ys) : ∃ b, v = .bool b := by
  obtain ⟨ys, h⟩ := h
  cases v with
  | bool b => exact ⟨b, rfl⟩
  | _ => cases h

theorem Usage.length_of_choice (xs : List Value) (x v : Value) (ys : List Value)
    (h : Usage.choice.next xs x v = some ys) : ys.length ≤ xs.length + 1 := by
  obtain ⟨b, rfl⟩ := bool_of_choice ⟨ys, h⟩
  cases h
  cases b with
  | true => exact Nat.le_refl _
  | false => exact Nat.le_succ _

namespace Scene

open Library Vau.Tree

variable {σ τ : Scene} {cfg : Gauge} {n N d D e p q root κ label label' : Nat}
  {c v a acc xs : Value} {rs : List Nat} {vs : List Value} {body : Tree} {Q : Value → Scene → Prop}
  {items : List Item}

/-- The items come to the same whenever they are read. -/
def Same (σ : Scene) (item item' : Item) : Prop :=
  ∀ τ, σ.Onward τ → item.read τ.store = item'.read τ.store

theorem Serves.congr {α : Type} {u : Usage α} {a : α} {Q : α → Scene → Prop}
    {items' : List Item} (h : Serves cfg n d c u items a Q σ)
    (hitems : List.Forall₂ σ.Same items items') : Serves cfg n d c u items' a Q σ := by
  induction items generalizing σ a items' with
  | nil =>
    cases hitems
    exact h
  | cons item items ih =>
    obtain _ | ⟨hitem, hrest⟩ := hitems
    intro e
    rw [← hitem σ (.refl σ)]
    refine (h e).mono fun v τ hτ hb => ?_
    obtain ⟨b, hnext, hb⟩ := hb
    exact ⟨b, hnext, ih hb (hrest.imp fun _ _ hsame υ hυ => hsame υ (hτ.trans hυ))⟩

theorem Serves.bounded {α : Type} {u : Usage α} {a : α} {Q : α → Scene → Prop} {k : Nat}
    (h : Serves cfg n d c u items a Q σ) (size : α → Nat)
    (hsize : ∀ a x v b, u.next a x v = some b → size b ≤ size a + 1)
    (hk : size a + items.length ≤ k) :
    Serves cfg n d c u items a (fun b τ => Q b τ ∧ size b ≤ k) σ := by
  induction items generalizing σ a with
  | nil => exact fun τ hτ => ⟨h τ hτ, hk⟩
  | cons item items ih =>
    refine fun e => (h e).mono fun v τ _ hb => ?_
    obtain ⟨b, hnext, hrest⟩ := hb
    have hb := hsize a _ v b hnext
    rw [List.length_cons] at hk
    exact ⟨b, hnext, ih hrest (by omega)⟩

theorem Carries.heads (h : σ.Carries v vs) : ∃ rs, σ.Strung v rs ∧
    List.Forall₂ σ.Same (vs.map .value) (rs.map .head) := by
  induction h with
  | nil => exact ⟨[], .nil, .nil⟩
  | @pair r vs hr _ ih =>
    obtain ⟨rs, hrs, hvs⟩ := ih
    refine ⟨r :: rs, .pair (.inl hr) hrs, .cons (fun τ hτ => ?_) hvs⟩
    exact (hτ.head hr).symm

section Closures

variable (hlimit : cfg.stepLimit = none)
include hlimit

/-- The closure of `map` puts what the combiner comes to before the rest. -/
theorem Serves.collected {vs : List Value} {Q : List Value → Scene → Prop}
    (h : Serves cfg n d c .each items vs Q σ) (hitems : σ.Steady items)
    (hplain : c.isApplicative = false)
    (hκ : σ.Written κ p (list ["acc", "x"]) .ignore (list ["cons", list ["f", "x"], "acc"]))
    (hf : σ.Sees "f" (.applicative label c) p)
    (hcons : σ.Sees "cons" (.applicative label' (.primitive (.operation .cons))) p)
    (ha : σ.Carries acc vs) (hN : n + 5 ≤ N) (hD : d + 2 ≤ D) :
    Serves cfg N D (.operative κ) .left items acc
      (fun v τ => ∃ vs, τ.Carries v vs ∧ ∀ υ, τ.Grown υ → Q vs υ) σ := by
  obtain ⟨N, rfl⟩ : ∃ k, N = k + 5 := ⟨N - 5, by omega⟩
  refine h.through hitems hκ hf.frame_lt (fun hv hτ => hv.onward hτ) ha ?_
  intro τ f acc vs x P hτ hscope hacc hcalls _
  refine .apply (d := d + 1) hlimit (hscope.sees_outer rfl (hcons.onward hτ)) rfl (by simp) hD
    fun υ hυ => ?_
  refine .apply (d := d) hlimit ((hscope.sees_outer rfl (hf.onward hτ)).onward hυ.onward) hplain
    (by simp) (by omega) fun φ hφ => ?_
  have hφ' := hυ.trans hφ
  refine .symbol hlimit ((hscope.onward hφ'.onward).sees rfl) fun ψ hψ => ?_
  have hψ' := hφ'.trans hψ
  refine (((hcalls f).grown hψ').weaken (by omega) (by omega)).mono fun v χ hχ hv => ?_
  have hχ' := hψ'.onward.trans hχ
  refine .symbol hlimit ((hscope.onward hχ').sees rfl) fun ω hω => ?_
  refine .cons fun α r hα hr hhead htail => ⟨v, χ, hv, hχ', hω.trans hα, ?_⟩
  rintro _ ⟨⟩
  have hrest : α.Carries (α.store.tail r) vs := htail ▸ hacc.onward (hχ'.trans (hω.trans hα).onward)
  exact hhead ▸ .pair hr hrest

/-- The closure of `filter` puts the item before the rest if the combiner comes to true. -/
theorem Serves.selected {vs : List Value} {Q : List Value → Scene → Prop}
    (h : Serves cfg n d c .choice items vs Q σ) (hitems : σ.Steady items)
    (hplain : c.isApplicative = false) (hintact : σ.Intact root definitions)
    (hκ : σ.Written κ p (list ["acc", "x"]) .ignore
      (list ["^if", list ["keep?", "x"], list ["cons", "x", "acc"], "acc"]))
    (hsees : ∀ {τ name v}, σ.Onward τ → name = "^if" ∨ name = "cons" → τ.Sees name v root →
      τ.Sees name v p)
    (hf : σ.Sees "keep?" (.applicative label c) p) (ha : σ.Carries acc vs) (hN : n + 10 ≤ N)
    (hD : d + 3 ≤ D) :
    Serves cfg N D (.operative κ) .left items acc
      (fun v τ => ∃ vs, τ.Carries v vs ∧ ∀ υ, τ.Grown υ → Q vs υ) σ := by
  obtain ⟨N, rfl⟩ : ∃ k, N = k + 10 := ⟨N - 10, by omega⟩
  obtain ⟨_, hcons⟩ := hintact.wrapped (p := .operation .cons) (by decide) rfl
  refine h.through hitems hκ hf.frame_lt (fun hv hτ => hv.onward hτ) ha ?_
  intro τ f acc vs x P hτ hscope hacc hcalls hbool
  refine .conditional (d := d + 1) hlimit (hintact.onward hτ) (by simp [definitions, parts]) ?_ ?_
    hD (by omega)
  · exact fun v hv => hscope.sees_outer rfl (hsees hτ (.inl rfl) hv)
  refine .apply (d := d) hlimit (hscope.sees_outer rfl (hf.onward hτ)) hplain (by simp) (by omega)
    fun υ hυ => ?_
  refine .symbol hlimit ((hscope.onward hυ.onward).sees rfl) fun φ hφ => ?_
  have hφ' := hυ.trans hφ
  refine (((hcalls f).grown hφ').weaken (by omega) (by omega)).mono fun v χ hχ hv => ?_
  have hχ' := hφ'.onward.trans hχ
  have hscope' := hscope.onward hχ'
  obtain ⟨b, rfl⟩ := Usage.bool_of_choice (hbool v χ hv)
  refine ⟨b, rfl, ?_⟩
  cases b with
  | false =>
    refine .symbol hlimit (hscope'.sees rfl) fun ω hω => ⟨.bool false, χ, hv, hχ', hω, ?_⟩
    rintro _ ⟨⟩
    exact hacc.onward (hχ'.trans hω.onward)
  | true =>
    have hcons' := hsees (hτ.trans hχ') (.inr rfl) (hcons.onward (hτ.trans hχ'))
    refine .apply (d := d) hlimit (hscope'.sees_outer rfl hcons') rfl (by simp) (by omega)
      fun ω hω => ?_
    refine .symbol hlimit ((hscope'.onward hω.onward).sees rfl) fun α hα => ?_
    refine .symbol hlimit ((hscope'.onward (hω.trans hα).onward).sees rfl) fun β hβ => ?_
    refine .cons fun γ r hγ hr hhead htail => ?_
    have hγ' := hω.trans (hα.trans (hβ.trans hγ))
    refine ⟨.bool true, χ, hv, hχ', hγ', ?_⟩
    rintro _ ⟨⟩
    have hrest : γ.Carries (γ.store.tail r) vs := htail ▸ hacc.onward (hχ'.trans hγ'.onward)
    exact hhead ▸ .pair hr hrest

end Closures

section Traversals

variable (hlimit : cfg.stepLimit = none) (h : σ.Intact root definitions)
include hlimit h

theorem Invoked.foldr (hname : σ.Sees "foldr" (.applicative label (.operative q)) root)
    (hxs : σ.Strung xs rs) (hplain : c.isApplicative = false)
    (hc : Serves cfg n d c .right ((rs.map σ.store.head).reverse.map .value) a Q σ)
    (hN : n + 3 * rs.length + 30 ≤ N) (hD : d + 7 ≤ D) :
    σ.Invoked cfg N D (.operative q) [.applicative label' c, a, xs] e Q := by
  obtain ⟨N, rfl⟩ : ∃ k, N = k + 30 := ⟨N - 30, by omega⟩
  obtain ⟨_, _, -, hfoldl⟩ := h.procedure (d := Library.foldl) (by simp [definitions, parts]) rfl
  obtain ⟨_, _, -, hreverse⟩ :=
    h.procedure (d := Library.reverse) (by simp [definitions, parts]) rfl
  have hw := h.written (d := Library.foldr) (by simp [definitions, parts]) rfl hname
  refine .procedure ["f", "acc", "xs"] hw h.lt rfl fun τ f hτ hscope => ?_
  have hsees {name : String} {v : Value} (hnone : [("f", Value.applicative label' c), ("acc", a),
      ("xs", xs)].lookup name = none) (hv : σ.Sees name v root) : τ.Sees name v f :=
    hscope.sees_outer hnone (hv.onward hτ.onward)
  refine .apply (d := D - 1) hlimit (hsees rfl hfoldl) rfl (by simp) (by omega) fun υ hυ => ?_
  have hυ' := hτ.trans hυ
  refine .lambda hlimit (h.onward hυ'.onward) (by simp [definitions, parts])
    (fun v hv => (hscope.onward hυ.onward).sees_outer rfl hv) rfl (fun φ κ _ hφ hκ => ?_) (by omega)
  have hφ' := hυ.trans hφ
  refine .symbol hlimit ((hscope.onward hφ'.onward).sees rfl) fun ψ hψ => ?_
  have hψ' := hφ'.trans hψ
  refine .apply (d := D - 2) hlimit ((hsees rfl hreverse).onward hψ'.onward) rfl (by simp)
    (by omega) fun χ hχ => ?_
  have hχ' := hψ'.trans hχ
  refine .symbol hlimit ((hscope.onward hχ'.onward).sees rfl) fun ω hω => ?_
  have hω' := hτ.trans (hχ'.trans hω)
  refine .reverse hlimit (h.onward hω'.onward) (hreverse.onward hω'.onward) (hxs.onward hω'.onward)
    (by omega) (by omega) fun α v hα hv => ?_
  have hall := hω'.trans hα
  -- the combiner was to work on the values, and finds them in the reversed list
  obtain ⟨rs', hrs, hsame⟩ := hv.heads
  have hlength : rs'.length = rs.length := by simpa using hsame.length_eq.symm
  rw [hxs.grown_heads hω'] at hsame
  have hserves := ((hc.grown (σ.steady_values _) hall).congr hsame).swapped (N := n + 3)
    (D := d + 1) hlimit hrs.steady hplain (hκ.onward (hψ.trans (hχ.trans (hω.trans hα))).onward)
    ((hscope.onward (hχ'.trans (hω.trans hα)).onward).sees rfl) (fun _ _ => rfl) (Nat.le_refl _)
    (Nat.le_refl _)
  refine .mono (.foldl hlimit (h.onward hall.onward) (hfoldl.onward hall.onward) hrs rfl hserves
    (by omega) (by omega)) ?_
  rintro v β - ⟨_, rfl, hQ⟩
  exact hQ β (.refl β)

/-- What a closure has put before one another in a fold is turned round. -/
theorem Runs.gather {ρ : Scene} {K : Value → List Value → Scene → Prop} (hK : ρ.Gathers K)
    (hσ : ρ.Onward σ) {f : Nat} {bs : List (String × Value)} {Q : List Value → Scene → Prop}
    (hscope : σ.Scope f bs root) (hbound : bs.lookup "xs" = some xs)
    (hfree : ∀ d ∈ [Library.reverse, Library.foldl, Library.lambda], bs.lookup d.name = none)
    (hxs : σ.Strung xs rs)
    (hserves : ∀ τ κ, σ.Grown τ → τ.Written κ f (list ["acc", "x"]) .ignore body →
      Serves cfg n d (.operative κ) .left (rs.map .head) .nil (fun v τ => ∃ vs, τ.Carries v vs ∧
        ∀ υ, τ.Grown υ → Q vs υ ∧ vs.length ≤ rs.length) τ)
    (hN : n + 3 * rs.length + 30 ≤ N) (hd : d + 4 ≤ D) (hD : 7 ≤ D) :
    σ.Runs cfg N D (list ["reverse", list ["foldl", list ["$lambda", list ["acc", "x"], body],
      .leaf .nil, "xs"]]) f fun v τ => ∃ vs, K v vs.reverse τ ∧ Q vs τ := by
  obtain ⟨N, rfl⟩ : ∃ k, N = k + 30 := ⟨N - 30, by omega⟩
  obtain ⟨_, _, -, hfoldl⟩ := h.procedure (d := Library.foldl) (by simp [definitions, parts]) rfl
  obtain ⟨_, _, -, hreverse⟩ :=
    h.procedure (d := Library.reverse) (by simp [definitions, parts]) rfl
  have hreverse' := hscope.sees_outer (hfree Library.reverse (by simp)) hreverse
  have hfoldl' := hscope.sees_outer (hfree Library.foldl (by simp)) hfoldl
  refine .apply (d := D - 1) hlimit hreverse' rfl (by simp) (by omega) fun υ hυ => ?_
  refine .apply (d := D - 2) hlimit (hfoldl'.onward hυ.onward) rfl (by simp) (by omega)
    fun φ hφ => ?_
  have hφ' := hυ.trans hφ
  refine .lambda hlimit (h.onward hφ'.onward) (by simp [definitions, parts])
    (fun v hv => (hscope.onward hφ'.onward).sees_outer (hfree Library.lambda (by simp)) hv) rfl
    (fun ψ κ _ hψ hκ => ?_) (by omega)
  have hψ' := hφ'.trans hψ
  refine .constant hlimit rfl rfl fun χ hχ => ?_
  have hχ' := hψ'.trans hχ
  refine .symbol hlimit ((hscope.onward hχ'.onward).sees hbound) fun ω hω => ?_
  have hω' := hχ'.trans hω
  have hclosure := hserves ω κ hω' (hκ.onward (hχ.trans hω).onward)
  refine .mono (.foldl hlimit (h.onward hω'.onward) (hfoldl.onward hω'.onward)
    (hxs.onward hω'.onward) rfl hclosure (by omega) (by omega)) ?_
  rintro v α hα ⟨vs, hvs, hQ⟩
  have hend := hω'.onward.trans hα
  obtain ⟨rs', hrs, hheads⟩ := hvs.strung
  -- the list to turn round has no more pairs than there were items, so the fuel is enough
  have hlength : rs'.length ≤ rs.length := by
    have hle := (hQ α (.refl α)).2
    rwa [← hheads, List.length_map] at hle
  exact .reverse_gathers hlimit (h.onward hend) hK (hσ.trans hend) (hreverse.onward hend) hrs
    (by omega) (by omega) fun β u hβ hu => ⟨vs, hheads ▸ hu, (hQ β hβ).1⟩

theorem Invoked.map_gathers {ρ : Scene} {K : Value → List Value → Scene → Prop} (hK : ρ.Gathers K)
    (hσ : ρ.Onward σ) (hname : σ.Sees "map" (.applicative label (.operative q)) root)
    (hxs : σ.Strung xs rs) (hplain : c.isApplicative = false) {Q : List Value → Scene → Prop}
    (hc : Serves cfg n d c .each (rs.map .head) [] Q σ) (hN : n + 3 * rs.length + 40 ≤ N)
    (hD : d + 7 ≤ D) :
    σ.Invoked cfg N D (.operative q) [.applicative label' c, xs] e fun v τ =>
      ∃ vs, K v vs.reverse τ ∧ Q vs τ := by
  obtain ⟨_, hcons⟩ := h.wrapped (p := .operation .cons) (by decide) rfl
  have hw := h.written (d := Library.map) (by simp [definitions, parts]) rfl hname
  refine .procedure ["f", "xs"] hw h.lt rfl fun τ f hτ hscope => ?_
  refine .gather (n := n + 5) (d := d + 2) hlimit (h.onward hτ.onward) hK (hσ.trans hτ.onward) hscope
    rfl (fun _ hd => ?_) (hxs.onward hτ.onward) (fun υ κ hυ hκ => ?_) (by omega) (by omega) (by omega)
  · simp only [List.mem_cons, List.not_mem_nil, or_false] at hd
    rcases hd with rfl | rfl | rfl <;> rfl
  · have hall := hτ.trans hυ
    have hgrown := (hc.grown hxs.steady hall).bounded (k := rs.length) List.length
      (fun _ _ _ _ hnext => by cases hnext; rfl) (by simp)
    have hcons' := (hscope.sees_outer rfl (hcons.onward hτ.onward)).onward hυ.onward
    exact hgrown.collected hlimit (hxs.steady.onward hall.onward) hplain hκ
      ((hscope.onward hυ.onward).sees rfl) hcons' .nil (Nat.le_refl _) (Nat.le_refl _)

theorem Invoked.map (hname : σ.Sees "map" (.applicative label (.operative q)) root)
    (hxs : σ.Strung xs rs) (hplain : c.isApplicative = false) {Q : List Value → Scene → Prop}
    (hc : Serves cfg n d c .each (rs.map .head) [] Q σ) (hN : n + 3 * rs.length + 40 ≤ N)
    (hD : d + 7 ≤ D) :
    σ.Invoked cfg N D (.operative q) [.applicative label' c, xs] e fun v τ =>
      ∃ vs, τ.Carries v vs.reverse ∧ Q vs τ :=
  .map_gathers hlimit h (gathers_carries σ) (.refl σ) hname hxs hplain hc hN hD

theorem Invoked.filter (hname : σ.Sees "filter" (.applicative label (.operative q)) root)
    (hxs : σ.Strung xs rs) (hplain : c.isApplicative = false) {Q : List Value → Scene → Prop}
    (hc : Serves cfg n d c .choice (rs.map .head) [] Q σ) (hN : n + 3 * rs.length + 40 ≤ N)
    (hD : d + 7 ≤ D) :
    σ.Invoked cfg N D (.operative q) [.applicative label' c, xs] e fun v τ =>
      ∃ vs, τ.Carries v vs.reverse ∧ Q vs τ := by
  have hw := h.written (d := Library.filter) (by simp [definitions, parts]) rfl hname
  refine .procedure ["keep?", "xs"] hw h.lt rfl fun τ f hτ hscope => ?_
  refine .gather (n := n + 10) (d := d + 3) hlimit (h.onward hτ.onward) (gathers_carries σ) hτ.onward
    hscope rfl (fun _ hd => ?_) (hxs.onward hτ.onward) (fun υ κ hυ hκ => ?_) (by omega) (by omega) (by omega)
  · simp only [List.mem_cons, List.not_mem_nil, or_false] at hd
    rcases hd with rfl | rfl | rfl <;> rfl
  · have hall := hτ.trans hυ
    have hgrown := (hc.grown hxs.steady hall).bounded (k := rs.length) List.length
      Usage.length_of_choice (by simp)
    refine hgrown.selected hlimit (hxs.steady.onward hall.onward) hplain (h.onward hall.onward) hκ
      ?_ ((hscope.onward hυ.onward).sees rfl) .nil (Nat.le_refl _) (Nat.le_refl _)
    rintro φ name v hφ (rfl | rfl) hv
    · exact ((hscope.onward hυ.onward).onward hφ).sees_outer rfl hv
    · exact ((hscope.onward hυ.onward).onward hφ).sees_outer rfl hv

theorem serves_append {lists : List Value} {rss : List (List Nat)}
    (hκ : σ.Written κ p (list ["xs", "acc"]) .ignore (list ["foldr", "cons", "acc", "xs"]))
    (hsees : ∀ {τ name v}, σ.Onward τ → name = "foldr" ∨ name = "cons" → τ.Sees name v root →
      τ.Sees name v p)
    (hlists : List.Forall₂ σ.Strung lists rss) (hn : ∀ rs ∈ rss, rs.length ≤ n)
    (ha : σ.Carries a vs)
    (hQ : ∀ τ v, σ.Grown τ →
      τ.Carries v ((rss.map fun rs => rs.map σ.store.head).reverse.flatten ++ vs) → Q v τ) :
    Serves cfg (3 * n + 50) 8 (.operative κ) .right (lists.map .value) a Q σ := by
  induction lists generalizing σ a vs rss with
  | nil =>
    cases hlists
    exact fun τ hτ => hQ τ a hτ (ha.onward hτ.onward)
  | cons xs lists ih =>
    obtain _ | @⟨_, rs, _, rss, hxs, hrest⟩ := hlists
    obtain ⟨hlength, hn⟩ := List.forall_mem_cons.mp hn
    obtain ⟨_, hcons⟩ := h.wrapped (p := .operation .cons) (by decide) rfl
    obtain ⟨_, _, -, hfoldr⟩ := h.procedure (d := Library.foldr) (by simp [definitions, parts]) rfl
    intro e
    have hp := (hsees (.refl σ) (.inr rfl) hcons).frame_lt
    refine .procedure ["xs", "acc"] hκ hp rfl fun τ f hτ hscope => ?_
    have hcons' := hscope.sees_outer rfl (hsees hτ.onward (.inr rfl) (hcons.onward hτ.onward))
    have hfoldr' := hscope.sees_outer rfl (hsees hτ.onward (.inl rfl) (hfoldr.onward hτ.onward))
    refine .apply (d := 0) hlimit hfoldr' rfl (by simp) (by omega) fun υ hυ => ?_
    refine .symbol hlimit (hcons'.onward hυ.onward) fun φ hφ => ?_
    have hφ' := hυ.trans hφ
    refine .symbol hlimit ((hscope.onward hφ'.onward).sees rfl) fun ψ hψ => ?_
    refine .symbol hlimit ((hscope.onward (hφ'.trans hψ).onward).sees rfl) fun χ hχ => ?_
    have hall := hτ.trans (hφ'.trans (hψ.trans hχ))
    refine .foldr (n := 1) (d := 0) hlimit (h.onward hall.onward) (hfoldr.onward hall.onward)
      (hxs.onward hall.onward) rfl ?_ (by omega) (by omega)
    -- what the inner fold has collected is what the outer one goes on with
    refine serves_cons (χ.steady_values _) (ha.onward hall.onward) fun ω v hω hv => ⟨v, rfl, ?_⟩
    have hω' := hall.trans hω
    have hread : Item.read χ.store ∘ Item.value = id := rfl
    rw [hxs.grown_heads hall, List.map_map, hread, List.map_id, List.reverse_reverse] at hv
    refine ih (h.onward hω'.onward) (hκ.onward hω'.onward) (fun hτ => hsees (hω'.onward.trans hτ))
      (hrest.imp fun _ _ hv => hv.onward hω'.onward) hn hv fun α v hα hv => ?_
    refine hQ α v (hω'.trans hα) ?_
    rw [grown_heads_all hrest hω'] at hv
    simpa using hv

theorem Invoked.append (hname : σ.Sees "append" (.applicative label (.operative q)) root)
    {lists : List Value} {rss : List (List Nat)} (hlists : List.Forall₂ σ.Strung lists rss)
    (hn : ∀ rs ∈ rss, rs.length ≤ n) (hN : 3 * n + 3 * lists.length + 100 ≤ N) (hD : 15 ≤ D)
    (hQ : ∀ τ v, σ.Grown τ → τ.Carries v (rss.flatMap fun rs => rs.map σ.store.head) → Q v τ) :
    σ.Invoked cfg N D (.operative q) lists e Q := by
  obtain ⟨N, rfl⟩ : ∃ k, N = k + 30 := ⟨N - 30, by omega⟩
  obtain ⟨_, _, -, hfoldr⟩ := h.procedure (d := Library.foldr) (by simp [definitions, parts]) rfl
  have hw := h.written (d := Library.append) (by simp [definitions, parts]) rfl hname
  refine .of_fresh fun σ' operands hσ' hoperands => ?_
  refine .operative [] (hw.onward hσ'.onward) (h.onward hσ'.onward).lt .done rfl rfl
    fun τ f hτ hscope => ?_
  have hfoldr' := hscope.sees_outer rfl (hfoldr.onward (hσ'.trans hτ).onward)
  refine .apply (d := D - 1) hlimit hfoldr' rfl (by simp) (by omega) fun υ hυ => ?_
  have hυ' := hσ'.trans (hτ.trans hυ)
  refine .lambda hlimit (h.onward hυ'.onward) (by simp [definitions, parts])
    (fun v hv => (hscope.onward hυ.onward).sees_outer rfl hv) rfl (fun φ κ _ hφ hκ => ?_) (by omega)
  refine .constant hlimit rfl rfl fun ψ hψ => ?_
  have hψ' := hυ.trans (hφ.trans hψ)
  refine .symbol hlimit ((hscope.onward hψ'.onward).sees rfl) fun χ hχ => ?_
  have hχ' := hτ.trans (hψ'.trans hχ)
  have hall := hσ'.trans hχ'
  obtain ⟨rs', hrs, hheads⟩ := (hoperands.onward hχ'.onward).strung
  have hlength : rs'.length = lists.length := by rw [← hheads, List.length_map]
  refine .foldr (n := 3 * n + 50) (d := 8) hlimit (h.onward hall.onward) (hfoldr.onward hall.onward)
    hrs rfl ?_ (by omega) (by omega)
  rw [hheads]
  have hscope' := hscope.onward (hψ'.trans hχ).onward
  have hlists' : List.Forall₂ χ.Strung lists.reverse rss.reverse :=
    List.rel_reverse (hlists.imp fun _ _ hv => hv.onward hall.onward)
  refine serves_append hlimit (h.onward hall.onward) (hκ.onward (hψ.trans hχ).onward) ?_ hlists' ?_
    Carries.nil fun ω v hω hv => hQ ω v (hall.trans hω) ?_
  · rintro ω name v hω (rfl | rfl) hv
    · exact (hscope'.onward hω).sees_outer rfl hv
    · exact (hscope'.onward hω).sees_outer rfl hv
  · exact fun rs hrs => hn rs (List.mem_reverse.mp hrs)
  · rw [List.map_reverse, List.reverse_reverse, grown_heads_all hlists hall, List.append_nil] at hv
    exact List.flatMap_def ▸ hv

end Traversals

end Scene

end Vau
