import Vau.Proofs.Relaying

/-! The list functions and the effects of what they call. They call the procedure that they are given
for one item after the other, in the order of their result, and come to what is kept of the calls; they
make pairs, frames and procedures of their own and change nothing. -/

namespace Vau

namespace Scene

open Library Vau.Tree

variable {σ τ : Scene} {cfg : Settings} {n d e f q room room' root label label' : Nat}
  {a c expr v xs : Value} {rs : List Nat} {ts : List Tree} {body : Tree} {H : Hidden} {x : Extent}
  {O : End Value → Prop}

theorem Covers.of_sound (hsound : σ.store.Sound x) (hroot : 0 < x.frames) (hτ : σ.Grown τ) :
    ∃ H y, σ.Covers H y τ ∧ ∀ u, Hidden.none.Public x u → H.Public y u :=
  ⟨_, _, (Covers.refl hsound hroot).grown hτ, fun _ hu => hsound.hides.public_more hτ.larger hu⟩

section Operands

variable {g : Gauge} {bs : List (String × Value)} (hlimit : g.stepLimit = none)
  (h : σ.Intact root definitions)
include hlimit h

/-- The operands of `foldl` where the results are put before one another. -/
theorem RunsAll.gathering (body : Tree) (hscope : σ.Scope f bs root) (hbound : bs.lookup "xs" = some xs)
    (hlambda : bs.lookup Library.lambda.name = none) :
    RunsAll g 10 5 f [list ["$lambda", list ["acc", "x"], body], .leaf .nil, "xs"]
      (fun vs τ => σ.Grown τ ∧ ∃ κ l, vs = [.applicative l (.operative κ), .nil, xs] ∧
        τ.Written κ f (list ["acc", "x"]) .ignore body) σ := by
  refine .lambda (n := 2) hlimit h (by simp [definitions, parts])
    (fun v hv => hscope.sees_outer hlambda hv) rfl (fun τ κ l hτ hκ => ?_) (Nat.le_refl _)
  refine .constant hlimit rfl rfl fun υ hυ => ?_
  refine .symbol hlimit ((hscope.onward (hτ.trans hυ).onward).sees hbound) fun φ hφ => ?_
  exact ⟨hτ.trans (hυ.trans hφ), κ, l, rfl, hκ.onward (hυ.trans hφ).onward⟩

/-- The operands of `foldl` in `foldr`. -/
theorem RunsAll.reversing (hscope : σ.Scope f [("f", v), ("acc", a), ("xs", xs)] root)
    (hxs : σ.Strung xs rs) :
    RunsAll g (3 * rs.length + 30) 6 f [list ["$lambda", list ["acc", "x"],
      list ["f", "x", "acc"]], "acc", list ["reverse", "xs"]] (fun vs τ => σ.Grown τ ∧ ∃ κ l u,
        vs = [.applicative l (.operative κ), a, u] ∧
        τ.Written κ f (list ["acc", "x"]) .ignore (list ["f", "x", "acc"]) ∧
        τ.Carries u (rs.map σ.store.head).reverse) σ := by
  obtain ⟨_, _, -, hreverse⟩ :=
    h.procedure (d := Library.reverse) (by simp [definitions, parts]) rfl
  refine .lambda (n := 3 * rs.length + 22) hlimit h (by simp [definitions, parts])
    (fun u hu => hscope.sees_outer rfl hu) rfl (fun τ κ l hτ hκ => ?_) (by omega)
  refine .symbol hlimit ((hscope.onward hτ.onward).sees rfl) fun υ hυ => ?_
  have hυ' := hτ.trans hυ
  refine .apply (n := 3 * rs.length + 28) (d := 0) hlimit
    ((hscope.sees_outer rfl hreverse).onward hυ'.onward) rfl (by simp) (by omega) fun φ hφ => ?_
  refine .symbol hlimit ((hscope.onward (hυ'.trans hφ).onward).sees rfl) fun ψ hψ => ?_
  have hψ' := hυ'.trans (hφ.trans hψ)
  refine .reverse hlimit (h.onward hψ'.onward) (hreverse.onward hψ'.onward)
    (hxs.onward hψ'.onward) (by omega) (Nat.le_refl _) fun ω u hω hu => ?_
  rw [hxs.grown_heads hψ'] at hu
  exact ⟨hψ'.trans hω, κ, l, u, rfl, hκ.onward (hυ.trans (hφ.trans (hψ.trans hω))).onward, hu⟩

end Operands

section Gathering

variable (hlimit : cfg.stepLimit = none) (hcfg : cfg.Honest)
include hlimit hcfg

/-- What a closure puts before one another in a fold is turned round. -/
theorem Covers.gathers {u : Usage (List Value)} {bs : List (String × Value)}
    (hσ : σ.Covers H x τ) (h : τ.Intact root definitions)
    (hcode : τ.Holds expr (list ["reverse", list ["foldl", list ["$lambda", list ["acc", "x"], body],
      .leaf .nil, "xs"]])) (hscope : τ.Scope f bs root) (hbound : bs.lookup "xs" = some xs)
    (hfree : ∀ d ∈ [Library.reverse, Library.foldl, Library.lambda], bs.lookup d.name = none)
    (hxs : τ.Strung xs rs) (hsteady : σ.Steady (rs.map .head)) (hroom : 6 ≤ room')
    (hrelays : ∀ υ κ, τ.Grown υ → υ.Written κ f (list ["acc", "x"]) .ignore body →
      υ.Relays cfg room c e u room' (.operative κ) fun v vs φ => φ.Carries v vs)
    (hc : H.Public x c) (hparts : ∀ v ∈ u.parts [], H.Public x v)
    (hitems : ∀ item ∈ rs.map Item.head, item.Public H x) (he : H.Public x (.env e))
    (hO : ∀ o, Evaluates cfg (room' + 2) expr f τ.world o → O o) :
    Folds cfg room c e u O (fun vs φ => ∃ υ v, φ.Grown υ ∧ υ.store.Items .nil v vs.reverse ∧
      O (.ok v υ.world)) (rs.map .head) [] σ := by
  have hlimit' : cfg.uncounted.stepLimit = none := hlimit
  obtain ⟨_, _, -, hfoldl⟩ := h.procedure (d := Library.foldl) (by simp [definitions, parts]) rfl
  obtain ⟨_, _, -, hreverse⟩ :=
    h.procedure (d := Library.reverse) (by simp [definitions, parts]) rfl
  obtain ⟨inner, υ, hυ, hinner, hfailed, hends⟩ := hcode.argument (n := 1) (d := 0) [] [] [] hlimit
    (hscope.sees_outer (hfree Library.reverse (by simp)) hreverse) rfl rfl (fun _ _ => rfl) (by simp)
    (Nat.zero_le (room' + 1))
  have hscope' := hscope.onward hυ.onward
  have hruns := RunsAll.gathering (g := cfg.uncounted) hlimit (h.onward hυ.onward) body hscope' hbound
    (hfree Library.lambda (by simp))
  obtain ⟨_, ψ, φ, operands, hψ, ⟨κ, l, rfl, hκ⟩, hφ, hoperands, hgo⟩ := hinner.receives hlimit
    (hscope'.sees_outer (hfree Library.foldl (by simp)) (hfoldl.onward hυ.onward)) rfl hruns (by simp)
    (show 5 + 1 ≤ room' + 1 by omega)
  have hmade := hψ.trans hφ
  have hall := hυ.trans hmade
  have hpublic : ∀ w, H.Public x w → (H.more τ.store φ.store).Public (x.padded φ.store) w :=
    fun w hw => hσ.hides.public_more hall.larger hw
  refine (hσ.grown hall).folds hlimit hcfg (h.onward hall.onward) (hfoldl.onward hall.onward)
    (show 2 ≤ room' by omega) rfl (fun hv hτ => hv.onward hτ) (hrelays φ κ hall (hκ.onward hφ.onward))
    hoperands (hxs.onward hall.onward) (List.forall₂_same.mpr fun _ _ _ _ => rfl) hsteady .nil
    (hpublic _ hc) (fun w hw => hpublic w (hparts w hw)) (fun i hi => (hitems i hi).imp hpublic)
    (hpublic _ he) f (fun stop w hw => hO _ (hfailed _ _ (hgo _ hw)))
    fun ω ω' H' x' acc vs hω hω' hcarries hdone => ?_
  obtain ⟨ψ', hψ', happlied⟩ := hends acc ω' (hmade.onward.trans hω') (hgo _ hdone)
  have hon := hall.onward.trans (hω'.trans hψ'.onward)
  obtain ⟨rs', hrs, hheads⟩ := (hcarries.onward hψ'.onward).strung
  have hreversed := Invoked.reverse (e := f) (D := 6) (Q := fun v χ => ψ'.Grown χ ∧
      χ.Carries v vs.reverse) hlimit' (h.onward hon) (hreverse.onward hon) hrs (Nat.le_refl _)
    (Nat.le_refl _) fun χ v hχ hv => ⟨hχ, hheads ▸ hv⟩
  obtain ⟨v, χ', hv, -, hχ', hvs⟩ := hreversed ψ' (.refl ψ') (room' + 2) (by omega)
  obtain ⟨χ, hχ, hworld⟩ := (hω.grown (hψ'.trans hχ')).scene
  refine ⟨χ, v, hχ, ?_, hworld ▸ hO _ (happlied _ (applied_ok.mpr hv))⟩
  rw [show χ.store = χ'.store from congrArg World.store hworld]
  exact hvs.items

section Functions

variable (h : σ.Intact root definitions) (hsound : σ.store.Sound x) (hc : Detached cfg σ.store c)
  (hin : Hidden.none.Public x c) (he : Hidden.none.Public x (.env e)) (hxs : σ.Strung xs rs)
  (hroom : 6 ≤ room)
include h hsound hc hin he hxs hroom

theorem folds_foldl (hname : σ.Sees "foldl" (.applicative label (.operative q)) root)
    (ha : Hidden.none.Public x a) (hO : ∀ o, Applied cfg (room + 1) (.operative q)
      [.applicative label' c, a, xs] e σ.world o → O o) :
    Folds cfg room c e .left O (fun a τ => ∃ υ, τ.Grown υ ∧ O (.ok a υ.world)) (rs.map .head) a σ := by
  have hτ := σ.grown_grow (.list σ.store [.applicative label' c, a, xs] .nil)
  obtain ⟨H, y, hcovers, hpublic⟩ := Covers.of_sound hsound (Nat.zero_lt_of_lt he.2) hτ
  refine hcovers.folds hlimit hcfg (h.onward hτ.onward) (hname.onward hτ.onward)
    (show 2 ≤ room by omega) hc.plain (fun hv _ => hv)
    (relays_detached (hc.evolves hτ.onward.evolves) e) (σ.store.items_list _ .nil) (hxs.onward hτ.onward) (List.forall₂_same.mpr fun _ _ _ _ => rfl)
    hxs.steady rfl (hpublic c hin) (List.forall_mem_singleton.mpr (hpublic a ha))
    (fun i hi => (public_heads hsound hxs i hi).imp hpublic) (hpublic _ he) e (fun _ _ hw => hO _ hw)
    fun τ τ' H' x' acc b hτ _ hacc hdone => ?_
  subst hacc
  obtain ⟨υ, hυ, hworld⟩ := hτ.scene
  exact ⟨υ, hυ, hO _ (hworld ▸ hdone)⟩

theorem folds_foldr (hname : σ.Sees "foldr" (.applicative label (.operative q)) root)
    (ha : Hidden.none.Public x a) (hO : ∀ o, Applied cfg (room + 1) (.operative q)
      [.applicative label' c, a, xs] e σ.world o → O o) :
    Folds cfg room c e .right O (fun a τ => ∃ υ, τ.Grown υ ∧ O (.ok a υ.world))
      ((rs.map σ.store.head).reverse.map .value) a σ := by
  obtain ⟨_, _, -, hfoldl⟩ := h.procedure (d := Library.foldl) (by simp [definitions, parts]) rfl
  have hw := h.written (d := Library.foldr) (by simp [definitions, parts]) rfl hname
  obtain ⟨τ, f, form, hτ, hscope, hform, hgo⟩ := hw.applied cfg ["f", "acc", "xs"] h.lt
    (show _ = [Value.applicative label' c, a, xs].length from rfl) e
  have hruns := RunsAll.reversing (g := cfg.uncounted) hlimit (h.onward hτ.onward) hscope
    (hxs.onward hτ.onward)
  rw [hxs.grown_heads hτ] at hruns
  obtain ⟨_, υ, φ, operands, hυ, ⟨κ, l, v, rfl, hκ, hv⟩, hφ, hoperands, hdone⟩ := hform.receives
    (n := 3 * rs.length + 29) hlimit (hscope.sees_outer rfl (hfoldl.onward hτ.onward)) rfl hruns
    (by simp) (show 6 + 1 ≤ room + 1 by omega)
  -- the items are the values, which are found in the reversed list
  obtain ⟨rs', hrs, hsame⟩ := hv.heads
  have hall := hτ.trans (hυ.trans hφ)
  obtain ⟨H, y, hcovers, hpublic⟩ := Covers.of_sound hsound (Nat.zero_lt_of_lt he.2) hall
  obtain ⟨room, rfl⟩ : ∃ k, room = k + 1 := ⟨room - 1, by omega⟩
  refine hcovers.folds hlimit hcfg (h.onward hall.onward) (hfoldl.onward hall.onward)
    (show 2 ≤ room + 1 by omega) rfl (fun hv _ => hv) (relays_swapped hlimit
      (hc.evolves hall.onward.evolves) (hκ.onward hφ.onward)
      ((hscope.onward (hυ.trans hφ).onward).sees rfl) (fun _ _ => rfl) e)
    hoperands (hrs.onward hφ.onward) (hsame.imp fun _ _ hsame τ hτ => hsame τ (hφ.onward.trans hτ))
    (σ.steady_values _) rfl (hpublic c hin) (List.forall_mem_singleton.mpr (hpublic a ha))
    (fun i hi => (public_values hsound rs i hi).imp hpublic) (hpublic _ he) f
    (fun _ _ hw => hO _ (hgo _ _ (hdone _ hw))) fun τ τ' H' x' acc b hτ _ hacc hends => ?_
  subst hacc
  obtain ⟨ω, hω, hworld⟩ := hτ.scene
  exact ⟨ω, hω, hO _ (hworld ▸ hgo _ _ (hdone _ hends))⟩

theorem folds_map (hname : σ.Sees "map" (.applicative label (.operative q)) root)
    (hO : ∀ o, Applied cfg (room + 3) (.operative q) [.applicative label' c, xs] e σ.world o → O o) :
    Folds cfg room c e .each O (fun vs τ => ∃ υ v, τ.Grown υ ∧ υ.store.Items .nil v vs.reverse ∧
      O (.ok v υ.world)) (rs.map .head) [] σ := by
  obtain ⟨_, hcons⟩ := h.wrapped (p := .operation .cons) (by decide) rfl
  have hw := h.written (d := Library.map) (by simp [definitions, parts]) rfl hname
  obtain ⟨τ, f, form, hτ, hscope, hform, hgo⟩ := hw.applied cfg ["f", "xs"] h.lt
    (show _ = [Value.applicative label' c, xs].length from rfl) e
  obtain ⟨H, y, hcovers, hpublic⟩ := Covers.of_sound hsound (Nat.zero_lt_of_lt he.2) hτ
  obtain ⟨room, rfl⟩ : ∃ k, room = k + 1 := ⟨room - 1, by omega⟩
  refine hcovers.gathers hlimit hcfg (h.onward hτ.onward) hform hscope rfl (fun d hd => ?_)
    (hxs.onward hτ.onward) hxs.steady (show 6 ≤ room + 2 by omega) (fun υ κ hυ hκ => ?_)
    (hpublic c hin) (List.forall_mem_nil _) (fun i hi => (public_heads hsound hxs i hi).imp hpublic)
    (hpublic _ he) fun o ho => hO o (hgo _ _ ho)
  · simp only [List.mem_cons, List.not_mem_nil, or_false] at hd
    rcases hd with rfl | rfl | rfl <;> rfl
  · have hcons' := (hscope.sees_outer rfl (hcons.onward hτ.onward)).onward hυ.onward
    exact relays_collected hlimit (hc.evolves (hτ.trans hυ).onward.evolves) hκ
      ((hscope.onward hυ.onward).sees rfl) hcons' e

theorem folds_filter (hname : σ.Sees "filter" (.applicative label (.operative q)) root)
    (hO : ∀ o, Applied cfg (room + 4) (.operative q) [.applicative label' c, xs] e σ.world o → O o) :
    Folds cfg room c e .choice O (fun vs τ => ∃ υ v, τ.Grown υ ∧ υ.store.Items .nil v vs.reverse ∧
      O (.ok v υ.world)) (rs.map .head) [] σ := by
  have hw := h.written (d := Library.filter) (by simp [definitions, parts]) rfl hname
  obtain ⟨τ, f, form, hτ, hscope, hform, hgo⟩ := hw.applied cfg ["keep?", "xs"] h.lt
    (show _ = [Value.applicative label' c, xs].length from rfl) e
  obtain ⟨H, y, hcovers, hpublic⟩ := Covers.of_sound hsound (Nat.zero_lt_of_lt he.2) hτ
  obtain ⟨room, rfl⟩ : ∃ k, room = k + 1 := ⟨room - 1, by omega⟩
  refine hcovers.gathers hlimit hcfg (h.onward hτ.onward) hform hscope rfl (fun d hd => ?_)
    (hxs.onward hτ.onward) hxs.steady (show 6 ≤ room + 3 by omega) (fun υ κ hυ hκ => ?_)
    (hpublic c hin) (List.forall_mem_nil _) (fun i hi => (public_heads hsound hxs i hi).imp hpublic)
    (hpublic _ he) fun o ho => hO o (hgo _ _ ho)
  · simp only [List.mem_cons, List.not_mem_nil, or_false] at hd
    rcases hd with rfl | rfl | rfl <;> rfl
  · refine relays_selected hlimit (hc.evolves (hτ.trans hυ).onward.evolves)
      (h.onward (hτ.trans hυ).onward) hκ ((hscope.onward hυ.onward).sees rfl) ?_ e
    rintro φ name v hφ (rfl | rfl) hv
    · exact ((hscope.onward hυ.onward).onward hφ).sees_outer rfl hv
    · exact ((hscope.onward hυ.onward).onward hφ).sees_outer rfl hv

end Functions

end Gathering

/-- Where each of the calls comes to a value and leaves what is held as it is, there is an end. -/
theorem Folds.comes {α : Type} {u : Usage α} {a : α} {items : List Item} {Q : α → Scene → Prop}
    {P : α → World → Prop} (h : Folds cfg room c e u O Q items a σ)
    (hworks : σ.Works cfg d c e u items a P) (hroom : d ≤ room) : ∃ b τ, Q b τ ∧ P b τ.world := by
  induction items generalizing σ a with
  | nil => exact ⟨a, σ, h, hworks σ (.refl σ)⟩
  | cons item items ih =>
    obtain ⟨τ, hτ, -, hdone⟩ := h
    obtain ⟨v, υ, hv, hυ, b, hb, hrest⟩ := hworks τ hτ room hroom
    exact ih (hdone v υ hυ (applied_ok.mpr hv) b hb) hrest

end Scene

open Library Scene

/-- `foldl`, `foldr`, `map` and `filter` call what they are given for one item after the other, from the
left or from the right, and come to what is kept of the calls. -/
theorem Library.folds_in_order {cfg : Settings} {σ : Scene} {x : Extent} {root e r room label : Nat}
    {c xs : Value} {rs : List Nat} {w : World} (hlimit : cfg.stepLimit = none) (hcfg : cfg.Honest)
    (hσ : σ.Intact root definitions) (hsound : σ.store.Sound x) (hc : Detached cfg σ.store c)
    (hin : c.In x) (he : e < x.frames) (hxs : σ.Strung xs rs) (hroom : 6 ≤ room) :
    (∀ {a : Value}, a.In x →
      σ.Reaches cfg root room e r "foldl" [.applicative label c, a, xs] w →
      Folds cfg room c e .left (Evaluates cfg (room + 1) (.pair r) e w) (fun b τ => ∃ υ, τ.Grown υ ∧
        Evaluates cfg (room + 1) (.pair r) e w (.ok b υ.world)) (rs.map .head) a σ) ∧
    (∀ {a : Value}, a.In x →
      σ.Reaches cfg root room e r "foldr" [.applicative label c, a, xs] w →
      Folds cfg room c e .right (Evaluates cfg (room + 1) (.pair r) e w) (fun b τ => ∃ υ, τ.Grown υ ∧
        Evaluates cfg (room + 1) (.pair r) e w (.ok b υ.world))
        ((rs.map σ.store.head).reverse.map .value) a σ) ∧
    (σ.Reaches cfg root (room + 2) e r "map" [.applicative label c, xs] w →
      Folds cfg room c e .each (Evaluates cfg (room + 3) (.pair r) e w) (fun vs τ => ∃ υ v, τ.Grown υ ∧
        υ.store.Items .nil v vs.reverse ∧ Evaluates cfg (room + 3) (.pair r) e w (.ok v υ.world))
        (rs.map .head) [] σ) ∧
    (σ.Reaches cfg root (room + 3) e r "filter" [.applicative label c, xs] w →
      Folds cfg room c e .choice (Evaluates cfg (room + 4) (.pair r) e w) (fun vs τ => ∃ υ v, τ.Grown υ ∧
        υ.store.Items .nil v vs.reverse ∧ Evaluates cfg (room + 4) (.pair r) e w (.ok v υ.world))
        (rs.map .head) [] σ) := by
  have hin' : Hidden.none.Public x c := ⟨.none c, hin⟩
  have he' : Hidden.none.Public x (.env e) := Hidden.public_env.mpr ⟨id, he⟩
  refine ⟨fun {a} ha h => ?_, fun {a} ha h => ?_, fun h => ?_, fun h => ?_⟩
  all_goals obtain ⟨_, _, hname, hO⟩ := h.evaluates hlimit
  · exact folds_foldl hlimit hcfg hσ hsound hc hin' he' hxs hroom hname ⟨.none a, ha⟩ hO
  · exact folds_foldr hlimit hcfg hσ hsound hc hin' he' hxs hroom hname ⟨.none a, ha⟩ hO
  · exact folds_map hlimit hcfg hσ hsound hc hin' he' hxs hroom hname hO
  · exact folds_filter hlimit hcfg hσ hsound hc hin' he' hxs hroom hname hO

/-- In a new session that has been given a list of two numbers, `(foldr cons () xs)` comes to a pair. -/
theorem Library.folds_in_order_cons : ∃ (s : Session) (σ : Scene) (e r : Nat) (xs : Value),
    Session.start .empty none true [] = .ok s ∧ s.machine.store.Extends σ.store ∧
    σ.Carries xs [.int 1, .int 2] ∧ σ.Sees "xs" xs e ∧
    σ.Carries (.pair r) [.sym "foldr", .sym "cons", .nil, .sym "xs"] ∧
    ∀ room, 6 ≤ room → ∃ v w, Evaluates s.settings (room + 1) (.pair r) e σ.world (.ok v w) ∧
      v.isPair = true := by
  obtain ⟨s, σ₀, x₀, hstart, hworld, hlimit, hcfg, hσ, hs₀⟩ := Session.start_ready
  obtain ⟨label, hcons⟩ := hσ.wrapped (p := .operation .cons) (by decide) rfl
  obtain ⟨_, _, -, hfoldr⟩ := hσ.procedure (d := Library.foldr) (by simp [definitions, parts]) rfl
  obtain ⟨σ₁, x₁, xs, hgrown₁, hs₁, hxs, hcarries⟩ := Scene.exists_list (σ := σ₀) hs₀
    (show ∀ v ∈ [Value.int 1, .int 2], v.In x₀ by simp [Value.In])
  obtain ⟨σ₂, x₂, e, hgrown₂, hs₂, hscope⟩ := Scene.exists_scope hs₁
    (Nat.lt_of_lt_of_le hσ.lt hgrown₁.larger.frames)
    (List.forall_mem_singleton.mpr (show ("xs", xs).2.In x₁ from hxs))
  obtain ⟨σ, x, expr, hgrown₃, hsound, -, hexpr⟩ := Scene.exists_list (σ := σ₂) hs₂
    (show ∀ v ∈ [Value.sym "foldr", .sym "cons", .nil, .sym "xs"], v.In x₂ by simp [Value.In])
  obtain ⟨r, rfl, hhead, hrest⟩ := hexpr.uncons
  have hgrown := hgrown₁.trans (hgrown₂.trans hgrown₃)
  have hscope' := hscope.onward hgrown₃.onward
  have hcarries' := hcarries.onward (hgrown₂.trans hgrown₃).onward
  have hname := hfoldr.onward hgrown.onward
  have happly : σ.store.Applies s.root e r "foldr"
      [.applicative label (.primitive (.operation .cons)), .nil, xs] := by
    refine ⟨σ.frame_lt (hscope'.held ""), hhead, ?_, _, hrest.items, ?_⟩
    · exact (hscope'.sees_outer rfl hname).lookup.trans hname.lookup.symm
    · refine .cons (.symbol ?_) (.cons (.constant rfl rfl) (.cons (.symbol ?_) .nil))
      · exact (hscope'.sees_outer rfl (hcons.onward hgrown.onward)).lookup
      · exact (hscope'.sees rfl).lookup
  obtain ⟨rs, hstrung, hheads⟩ := hcarries'.strung
  have hworks : σ.Works s.settings 0 (.primitive (.operation .cons)) e .right
      ((rs.map σ.store.head).reverse.map .value) .nil fun v _ => v.isPair = true := by
    refine .of_serves (Scene.serves_cons (σ.steady_values _) .nil fun τ v _ hv => ?_)
    rw [hheads] at hv
    obtain ⟨_, rfl, -⟩ := hv.uncons
    rfl
  refine ⟨s, σ, e, r, xs, hstart, ?_, hcarries', hscope'.sees rfl, hexpr, fun room hroom => ?_⟩
  · rw [Machine.store, hworld]
    exact hgrown.larger
  · obtain ⟨-, hfold, -⟩ := Library.folds_in_order (e := e) hlimit hcfg (hσ.onward hgrown.onward) hsound
      (show Detached s.settings σ.store (.primitive (.operation .cons)) by simp [Detached]) trivial
      (hsound.frames_size ▸ σ.frame_lt (hscope'.held "")) hstrung hroom
    have hends := hfold (show Value.nil.In x from trivial) (happly.reaches hlimit hname)
    obtain ⟨v, τ, ⟨υ, -, hv⟩, hpair⟩ := hends.comes hworks (Nat.zero_le room)
    exact ⟨v, υ.world, hv, hpair⟩

end Vau
