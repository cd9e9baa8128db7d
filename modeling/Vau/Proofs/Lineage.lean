import Vau.Proofs.Metering
import Vau.Proofs.Reachable

/-! Lineage of frames. In a sound store every frame comes after its parent, so the frames from
any one outwards are a finite chain. Looking a name up, finding the frame that binds it and
assigning to it go along the whole chain. -/

namespace Vau

namespace Store

variable {s s' : Store} {x : Extent}

/-- The frames from `e` outwards. -/
inductive Chain (s : Store) : Nat → List Nat → Prop
  | root {e : Nat} : (s.frame e).parent = none → Chain s e [e]
  | child {e p : Nat} {es : List Nat} :
    (s.frame e).parent = some p → Chain s p es → Chain s e (e :: es)

theorem Sound.exists_chain (h : s.Sound x) (e : Nat) :
    ∃ es, s.Chain e es ∧ es.length ≤ e + 1 := by
  induction e using Nat.strongRecOn with
  | _ e ih =>
    cases hp : (s.frame e).parent with
    | none => exact ⟨[e], .root hp, by simp⟩
    | some p =>
      have hlt := h.parent_lt hp
      obtain ⟨es, hes, hlen⟩ := ih p hlt
      refine ⟨e :: es, .child hp hes, ?_⟩
      simp only [List.length_cons]
      omega

theorem Chain.ownerWithin {e : Nat} {es : List Nat} (h : s.Chain e es) (name : String) {fuel : Nat}
    (hfuel : es.length ≤ fuel) :
    s.ownerWithin name fuel e = es.find? fun d => (s.frame d).binds name := by
  induction h generalizing fuel with
  | @root e hp =>
    obtain ⟨fuel, rfl⟩ : ∃ k, fuel = k + 1 := ⟨fuel - 1, by simp at hfuel; omega⟩
    by_cases hb : (s.frame e).binds name = true
    · simp [Store.ownerWithin, hb]
    · simp [Store.ownerWithin, hb, hp]
  | @child e p es hp _ ih =>
    simp only [List.length_cons] at hfuel
    obtain ⟨fuel, rfl⟩ : ∃ k, fuel = k + 1 := ⟨fuel - 1, by omega⟩
    by_cases hb : (s.frame e).binds name = true
    · simp [Store.ownerWithin, hb]
    · simpa [Store.ownerWithin, hb, hp] using ih (by omega : es.length ≤ fuel)

theorem Chain.lookupWithin {e : Nat} {es : List Nat} (h : s.Chain e es) (name : String)
    {fuel : Nat} (hfuel : es.length ≤ fuel) :
    s.lookupWithin name fuel e = es.findSome? fun d => (s.frame d).get? name := by
  induction h generalizing fuel with
  | @root e hp =>
    obtain ⟨fuel, rfl⟩ : ∃ k, fuel = k + 1 := ⟨fuel - 1, by simp at hfuel; omega⟩
    rcases Option.eq_none_or_eq_some ((s.frame e).get? name) with hg | ⟨v, hg⟩
    · simp [Store.lookupWithin, hg, hp]
    · simp [Store.lookupWithin, hg]
  | @child e p es hp _ ih =>
    simp only [List.length_cons] at hfuel
    obtain ⟨fuel, rfl⟩ : ∃ k, fuel = k + 1 := ⟨fuel - 1, by omega⟩
    rcases Option.eq_none_or_eq_some ((s.frame e).get? name) with hg | ⟨v, hg⟩
    · simpa [Store.lookupWithin, hg, hp] using ih (by omega : es.length ≤ fuel)
    · simp [Store.lookupWithin, hg]

/-- Every frame was created after its parent, and from each one the frames outwards are a
finite chain, which decides what a name means, whose it is and where it is assigned. -/
structure Rooted (s : Store) : Prop where
  parent_lt : ∀ e p, (s.frame e).parent = some p → p < e
  chain : ∀ e < s.frames.size, ∃ es, s.Chain e es ∧ ∀ name,
    s.lookup? e name = es.findSome? (fun d => (s.frame d).get? name) ∧
    s.owner? e name = es.find? (fun d => (s.frame d).binds name) ∧
    ∀ v, s.assign? e name v =
      (es.find? fun d => (s.frame d).binds name).map fun d => s.define d name v

theorem Sound.rooted (h : s.Sound x) : s.Rooted where
  parent_lt _ _ hp := h.parent_lt hp
  chain e he := by
    obtain ⟨es, hes, hlen⟩ := h.exists_chain e
    have hfuel : es.length ≤ s.frames.size := by omega
    refine ⟨es, hes, fun name => ?_⟩
    have howner : s.owner? e name = es.find? fun d => (s.frame d).binds name :=
      hes.ownerWithin name hfuel
    refine ⟨hes.lookupWithin name hfuel, howner, fun v => ?_⟩
    rw [assign?, howner]

end Store

theorem Value.In.underlying_eq {x y : Extent} (h : x.Within y) {label : Nat} {u u' : Value}
    (hu : (Value.applicative label u).In x) (hu' : (Value.applicative label u').In y) : u' = u := by
  have hlater := (hu.mono h).1
  rw [hu'.1] at hlater
  exact Option.some.inj hlater

/-- In every reachable session values refer to what exists and frames are rooted. Whatever is
evaluated there, and however that ends, frames, names, operatives and side effects only come to
those that were there, frames stay rooted and wrappers keep their combiners. -/
theorem reachable_evolves {supplied : List Supplied} (hfair : ∀ p ∈ supplied, p.supply.Fair)
    {s : Session} (hs : s.Reachable supplied) :
    s.machine.store.Rooted ∧ (∃ x, s.machine.store.Sound x) ∧
      ∀ (cfg : Settings) (expr : Value) (env : Nat) (m m' : Machine),
        cfg.functions = s.settings.functions → m.world = s.machine.world →
        endState (evaluate cfg expr env m) = m' →
        m.store.Evolves m'.store ∧
        (∀ e name, (m.store.lookup? e name).isSome = true →
          (m'.store.lookup? e name).isSome = true) ∧
        m.world.effects.toList <+: m'.world.effects.toList ∧
        ∀ x, m.store.Sound x → expr.In x → env < x.frames →
          m'.store.Rooted ∧ ∃ y, x.Within y ∧ m'.store.Sound y ∧
            ∀ label u u', (Value.applicative label u).In x →
              (Value.applicative label u').In y → u' = u := by
  obtain ⟨x₀, hx₀⟩ := hs.sound hfair
  refine ⟨hx₀.store.rooted, ⟨x₀, hx₀.store⟩, ?_⟩
  intro cfg expr env m m' hfunctions hm hm'
  have hlawful : cfg.Lawful := by
    unfold Settings.Lawful
    rw [hfunctions]
    exact hx₀.lawful
  have hchanges : Changes m.world m'.world := hm' ▸ Action.lawful_evaluate hlawful expr env m
  have hevolves := hchanges.evolves
  refine ⟨hevolves, fun _ _ h => hevolves.lookup h, hchanges.effects_grow, ?_⟩
  intro x hx hexpr henv
  have hkeeps : cfg.Keeps none := by
    unfold Settings.Keeps
    rw [hfunctions]
    exact hx₀.keeps none
  have hends := keeps_evaluate hkeeps nofun (Nat.zero_le _) hexpr henv x m (.refl x) hx
    fun _ hl => nomatch hl
  have hstore : ∃ y, x.Within y ∧ m'.store.Sound y := hm' ▸ hends.sound
  obtain ⟨y, hy, hs'⟩ := hstore
  exact ⟨hs'.rooted, y, hy, hs', fun _ _ _ hu hu' => hu.underlying_eq hy hu'⟩

/-- A session in which a script has bound `x`. -/
@[irreducible] def boundSession : Session := ((Session.plain none).run "($define! x 1)").2

theorem boundSession_reachable : boundSession.Reachable [] := by
  unfold boundSession
  exact ⟨none, _, Session.bare_plain none, .single (.script "($define! x 1)")⟩

/-- Wherever an evaluation in it ends, `x` is bound still. -/
theorem boundSession_evolves :
    (∀ p ∈ ([] : List Supplied), p.supply.Fair) ∧ boundSession.Reachable [] ∧
    boundSession.machine.store.Rooted ∧
    ∀ (limit : Option Int) (expr : Value) (env : Nat),
      ((endState (evaluate (boundSession.settings.limited limit) expr env
        boundSession.machine)).store.lookup? 0 "x").isSome = true := by
  have hfair : ∀ p ∈ ([] : List Supplied), p.supply.Fair := nofun
  have hbound : (boundSession.machine.store.lookup? 0 "x").isSome = true := by decide +kernel
  obtain ⟨hrooted, -, hevolves⟩ := reachable_evolves hfair boundSession_reachable
  refine ⟨hfair, boundSession_reachable, hrooted, fun limit expr env => ?_⟩
  have hfunctions : ∀ cfg : Settings, (cfg.limited limit).functions = cfg.functions := fun _ => rfl
  exact (hevolves _ expr env _ _ (hfunctions _) (Eq.refl _) (Eq.refl _)).2.1 0 "x" hbound

end Vau
