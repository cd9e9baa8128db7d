import Vau.Proofs.Reachable

/-! What a limit of steps is good for. Under a limit every evaluation ends, with fuel for the
steps that are left, except where pairs are cyclic: a walk around a ring takes no steps. -/

namespace Vau

theorem reduce_beyond {cfg : Settings} {limit : Int} (hlimit : cfg.stepLimit = some limit)
    {m : Machine} (hm : limit < m.steps + 1) (fuel room base : Nat) (expr : Value) (env : Nat) :
    ∃ m', reduce cfg (fuel + 1) room base expr env m = .error (.failure (.stepLimit limit)) m' := by
  have htick : ∃ m', Action.tick cfg.stepLimit m = .error (.failure (.stepLimit limit)) m' := by
    rw [hlimit]
    have hover : limit < ((m.steps + 1 : Nat) : Int) := by
      push_cast
      exact hm
    exact ⟨{ m with steps := m.steps + 1 }, by simp only [Action.tick, if_pos hover]⟩
  obtain ⟨m', htick⟩ := htick
  exact ⟨m', by simp only [reduce, turn, Bind.bind, EStateM.bind, htick]⟩

/-- Under a limit of steps, and with fuel for the steps that are left, every evaluation in a
reachable session ends with a value or a failure, or it stands before cyclic pairs. -/
theorem limited_evaluation_ends {supplied : List Supplied}
    (hfair : ∀ p ∈ supplied, p.supply.Fair) {s : Session} (hs : s.Reachable supplied) :
    (∃ x, s.machine.store.Sound x) ∧
      ∀ (cfg : Settings) (limit : Int) (expr : Value) (env : Nat) (m : Machine) (x : Extent),
        cfg.functions = s.settings.functions → cfg.stepLimit = some limit →
        m.world = s.machine.world → 0 < cfg.fuel → limit < m.steps + cfg.fuel →
        m.store.Sound x → expr.In x → env < x.frames →
        (∃ v m', evaluate cfg expr env m = .ok v m') ∨
        (∃ f m', evaluate cfg expr env m = .error (.failure f) m') ∨
        (∃ m', evaluate cfg expr env m = .error .digits m') ∨
        ∃ m', evaluate cfg expr env m = .error .endless m' ∧ m'.store.Cyclic := by
  obtain ⟨x₀, hx₀⟩ := hs.sound hfair
  refine ⟨⟨x₀, hx₀.store⟩, ?_⟩
  intro cfg limit expr env m x hfunctions hlimit hm hfuel hleft hx hexpr henv
  -- beyond the limit the first step fails; within it, some of the fuel is left at each step
  by_cases hover : limit < m.steps
  · obtain ⟨fuel, hfuel⟩ := Nat.exists_eq_add_of_le' (Nat.succ_le_of_lt hfuel)
    obtain ⟨m', hstop⟩ := reduce_beyond hlimit (by omega : limit < m.steps + 1) fuel cfg.room
      m.stack.size expr env
    refine .inr (.inl ⟨.stepLimit limit, m', ?_⟩)
    rw [evaluate, hfuel]
    exact hstop
  · have hkeeps : cfg.Keeps (some limit) := by
      unfold Settings.Keeps
      rw [hfunctions]
      exact hx₀.keeps (some limit)
    have hsame : ∀ l, some limit = some l → cfg.stepLimit = some l := fun l hl => hlimit.trans hl
    have hstart : m.Left (some limit) cfg.fuel := by
      intro l hl
      cases hl
      exact ⟨Int.not_lt.mp hover, hleft⟩
    have hends := keeps_evaluate hkeeps hsame (Nat.le_refl _) hexpr henv x m (.refl x) hx hstart
    cases hr : evaluate cfg expr env m with
    | ok v m' => exact .inl ⟨v, m', rfl⟩
    | error e m' =>
      rw [hr] at hends
      rcases hends.2 with hdue | ⟨-, hnone⟩
      · cases e with
        | failure f => exact .inr (.inl ⟨f, m', rfl⟩)
        | digits => exact .inr (.inr (.inl ⟨m', rfl⟩))
        | endless => exact .inr (.inr (.inr ⟨m', rfl, hdue⟩))
        | outOfFuel => exact hdue.elim
      · cases hnone

theorem Store.equalSpine_rings {s : Store} {f : Value → Value → Except Stop Bool} {p q : Nat}
    (hne : p ≠ q) (hp : s.tail p = .pair p) (hq : s.tail q = .pair q)
    (hheads : f (s.head p) (s.head q) = .ok true) (fuel : Nat) :
    s.equalSpine f fuel (.pair p) (.pair q) = .error .endless := by
  induction fuel with
  | zero => simp only [equalSpine, if_neg hne]
  | succ fuel ih => simp only [equalSpine, if_neg hne, hheads, hp, hq, ih]

namespace Session

def ringScript : String :=
  "($define! p (cons 1 1))\n(set-tail! p p)\n($define! q (cons 1 1))\n(set-tail! q q)"

@[irreducible] def ringSession : Session := ((plain (some 100)).run ringScript).2

theorem ringSession_reachable : ringSession.Reachable [] := by
  unfold ringSession
  exact ⟨some 100, _, bare_plain (some 100), .single (.script ringScript)⟩

/-- One of its rings is found before the limit is met. -/
theorem limited_evaluation_ends_ring :
    (∀ p ∈ ([] : List Supplied), p.supply.Fair) ∧ ringSession.Reachable [] ∧
    ((∃ v m', Vau.evaluate ringSession.settings (.sym "p") 0 ringSession.machine = .ok v m') ∨
      (∃ f m', Vau.evaluate ringSession.settings (.sym "p") 0 ringSession.machine =
        .error (.failure f) m') ∨
      (∃ m', Vau.evaluate ringSession.settings (.sym "p") 0 ringSession.machine =
        .error .digits m') ∨
      ∃ m', Vau.evaluate ringSession.settings (.sym "p") 0 ringSession.machine =
        .error .endless m' ∧ m'.store.Cyclic) := by
  have hfair : ∀ p ∈ ([] : List Supplied), p.supply.Fair := nofun
  obtain ⟨⟨x, hx⟩, hends⟩ := limited_evaluation_ends hfair ringSession_reachable
  obtain ⟨hlimit, hfuel, hleft, hframes⟩ :
      ringSession.settings.stepLimit = some 100 ∧ 0 < ringSession.settings.fuel ∧
      (100 : Int) < ringSession.machine.steps + ringSession.settings.fuel ∧
      0 < ringSession.machine.store.frames.size := by decide +kernel
  refine ⟨hfair, ringSession_reachable, ?_⟩
  exact hends _ 100 (.sym "p") 0 _ x (Eq.refl _) hlimit (Eq.refl _) hfuel hleft hx trivial
    (hx.frames_size ▸ hframes)

/-- The program compares its two rings. It has taken four of a hundred steps when the walk around
them begins, and that walk comes to no end. -/
theorem limited_comparison_endless :
    ringSession.Reachable [] ∧ ringSession.settings.stepLimit = some 100 ∧
    (ringSession.run "(= p q)").1 = .raised .endless ∧
    (ringSession.run "(= p q)").2.machine.steps = 4 ∧
    ∀ fuel, ringSession.machine.store.equalSpine (ringSession.machine.store.equal 999) fuel
      (.pair 20) (.pair 25) = .error .endless := by
  obtain ⟨hlimit, hp, hq, hheads⟩ :
      ringSession.settings.stepLimit = some 100 ∧
      ringSession.machine.store.tail 20 = .pair 20 ∧
      ringSession.machine.store.tail 25 = .pair 25 ∧
      ringSession.machine.store.equal 999 (ringSession.machine.store.head 20)
        (ringSession.machine.store.head 25) = .ok true := by decide +kernel
  obtain ⟨houtcome, hsteps⟩ : (ringSession.run "(= p q)").1 = .raised .endless ∧
      (ringSession.run "(= p q)").2.machine.steps = 4 := by decide +kernel
  refine ⟨ringSession_reachable, hlimit, houtcome, hsteps, fun fuel => ?_⟩
  exact Store.equalSpine_rings (by decide) hp hq hheads fuel

end Session

end Vau
