import Vau.Proofs.Reachable

/-! The vetting of formals. An operative's formals are checked once, when it is made, and are
kept by reference. While they are the tree that was checked, a call can fail to bind only by
the shape of its operands and binds each name once; a pair changed in place undoes the check. -/

namespace Vau

theorem Operation.not_mem_of_checkDynamic {names : List String} {name : String}
    (h : checkDynamic names (.sym name) = pure ()) : name ∉ names := by
  intro hmem
  have hrun := congrFun h { store := .empty }
  simp only [checkDynamic, if_pos hmem] at hrun
  cases hrun

namespace Store

variable {s s' : Store}

theorem Leads.evolves (h : s.Leads s') : s.Evolves s' := by
  induction h with
  | refl => exact .refl _
  | tail _ step ih =>
    obtain ⟨w, w', hchange, rfl, rfl⟩ := step
    exact ih.trans hchange.evolves

/-- `$vau` made the operative `r` in the store `s₁`, on the way to `s'`. -/
structure Made (s₁ s' : Store) (r : Nat) (names : List String) : Prop where
  fresh : s₁.operatives.size = r
  formals : s₁.formalNames (s'.operative r).formals = .ok names
  dynamic : Operation.checkDynamic names (s'.operative r).dynamic = pure ()
  leads : s₁.Leads s'

theorem Made.evolves {s₁ : Store} {r : Nat} {names : List String} (h : Made s₁ s r names)
    (hr : r < s.operatives.size) (hstep : s.Leads s') : Made s₁ s' r names := by
  obtain ⟨-, hformals, hdynamic, -⟩ := hstep.evolves.made r hr
  refine ⟨h.fresh, ?_, ?_, h.leads.trans hstep⟩
  · rw [hformals]
    exact h.formals
  · rw [hdynamic]
    exact h.dynamic

theorem operative_new (s : Store) (o : Operative) :
    (s.newOperative o).2.operative s.operatives.size = o := by
  simp [operative, newOperative]

theorem made_of_change {w w' : World} (h : Change w w') {r : Nat}
    (hr : w.store.operatives.size ≤ r) (hr' : r < w'.store.operatives.size) :
    ∃ names, Made w.store w'.store r names := by
  have hleads : w.store.Leads w'.store := .single ⟨w, w', h, rfl, rfl⟩
  cases h with
  | operative scope formals dynamic body names hnames hdynamic =>
    have hsize : (w.store.newOperative ⟨scope, formals, dynamic, body, none⟩).2.operatives.size =
        w.store.operatives.size + 1 := by simp [newOperative]
    obtain rfl : r = w.store.operatives.size := by
      simp only [hsize] at hr'
      omega
    refine ⟨names, rfl, ?_, ?_, hleads⟩
    · rw [operative_new]
      exact hnames
    · rw [operative_new]
      exact hdynamic
  | name v name =>
    have hsize : (w.store.giveName v name).operatives.size = w.store.operatives.size := by
      unfold giveName
      split <;> simp
    simp only [hsize] at hr'
    omega
  | _ => exact absurd hr' (Nat.not_lt.mpr hr)

/-- An operative that has come about on the way was made by `$vau`. -/
theorem Leads.made (h : s.Leads s') {r : Nat} (hr : s.operatives.size ≤ r)
    (hr' : r < s'.operatives.size) :
    ∃ s₁ names, s.Leads s₁ ∧ Made s₁ s' r names := by
  induction h with
  | refl => omega
  | @tail mid last hmid step ih =>
    by_cases hlt : r < mid.operatives.size
    · obtain ⟨s₁, names, hs₁, hmade⟩ := ih hlt
      exact ⟨s₁, names, hs₁, hmade.evolves hlt (.single step)⟩
    · obtain ⟨w, w', hchange, rfl, rfl⟩ := step
      obtain ⟨names, hmade⟩ := made_of_change hchange (Nat.not_lt.mp hlt) hr'
      exact ⟨w.store, names, hmid, hmade⟩

end Store

namespace Session

/-- Every operative that `$vau` has made in a session was made in an earlier store, where its
formals were a tree of names without the one for the caller's environment. While the formals
are that tree they have the same names, no name twice, and a call binds just these names or
fails by the shape of its operands. -/
theorem vau_formals_hold {supplied : List Supplied} (hfair : ∀ p ∈ supplied, p.supply.Fair)
    {limit : Option Int} {s₀ s : Session} (hbare : Session.bare .empty limit supplied = .ok s₀)
    (hsteps : Relation.ReflTransGen Next s₀ s) {r : Nat}
    (hold : s₀.machine.store.operatives.size ≤ r) (hr : r < s.machine.store.operatives.size)
    {o : Operative} (ho : s.machine.store.operative r = o) :
    ∃ s₁ t names, s₀.machine.store.Leads s₁ ∧ s₁.Made s.machine.store r names ∧
      s₁.Shows o.formals t ∧ names.Nodup ∧ (∀ name, o.dynamic = .sym name → name ∉ names) ∧
      (s.machine.store.Shows o.formals t →
        s.machine.store.formalNames o.formals = .ok names ∧
        ∀ operands,
          s.machine.store.matchFormals o.formals operands =
              .error (.failure (.arity (.shape o.formals) operands)) ∨
            ∃ bs, s.machine.store.matchFormals o.formals operands = .ok bs ∧
              bs.map Prod.fst = names) := by
  subst ho
  obtain ⟨x, hx, hleads⟩ := sound_of_steps (sound_bare hfair hbare) hsteps
  obtain ⟨s₁, names, hs₁, hmade⟩ := hleads.made hold hr
  obtain ⟨t, ht, hnames⟩ := Store.shows_of_formalNames hmade.formals
  refine ⟨s₁, t, names, hs₁, hmade, ht, t.addNames_keeps hnames List.nodup_nil, ?_, ?_⟩
  · intro name hname
    have hdynamic := hmade.dynamic
    rw [hname] at hdynamic
    exact Operation.not_mem_of_checkDynamic hdynamic
  · intro hnow
    have hin : (s.machine.store.operative r).formals.In x :=
      (hx.store.operative (by rwa [← hx.store.operatives_size])).formals
    have hunfolds := hnow.unfolds hx.store hin
    refine ⟨?_, Store.matchFormals_of_names hunfolds hnames⟩
    rw [Store.formalNames_unfolds hunfolds, hnames]
    rfl

def sharedFormals : String :=
  "($define! f (($vau x #ignore x) x))\n($define! g ((wrap $vau) f #ignore 1))"

@[irreducible] def sharedSession : Session := ((plain none).run sharedFormals).2

theorem sharedSession_steps : Relation.ReflTransGen Next (plain none) sharedSession := by
  unfold sharedSession
  exact .single (.script sharedFormals)

theorem vau_formals_hold_shared :
    (plain none).machine.store.operatives.size ≤ 1 ∧
    1 < sharedSession.machine.store.operatives.size ∧
    ∃ s₁ t names, (plain none).machine.store.Leads s₁ ∧
      s₁.Made sharedSession.machine.store 1 names ∧
      s₁.Shows (sharedSession.machine.store.operative 1).formals t ∧ names.Nodup ∧
      (sharedSession.machine.store.Shows (sharedSession.machine.store.operative 1).formals t →
        sharedSession.machine.store.formalNames
          (sharedSession.machine.store.operative 1).formals = .ok names) := by
  have hfair : ∀ p ∈ ([] : List Supplied), p.supply.Fair := nofun
  obtain ⟨hold, hr⟩ : (plain none).machine.store.operatives.size ≤ 1 ∧
      1 < sharedSession.machine.store.operatives.size := by decide +kernel
  obtain ⟨s₁, t, names, hleads, hmade, ht, hnodup, -, hnow⟩ :=
    vau_formals_hold hfair (bare_plain none) sharedSession_steps hold hr (Eq.refl _)
  exact ⟨hold, hr, s₁, t, names, hleads, hmade, ht, hnodup, fun h => (hnow h).1⟩

@[irreducible] def mutatedSession : Session := (sharedSession.run "(set-head! f 5)").2

theorem mutatedSession_steps : Relation.ReflTransGen Next (plain none) mutatedSession := by
  unfold mutatedSession
  exact sharedSession_steps.tail (.script "(set-head! f 5)")

/-- The formals of an operative that `$vau` made are no formals any more, and calling it fails
to bind with a type mismatch. -/
theorem formals_changed_in_place :
    Relation.ReflTransGen Next (plain none) mutatedSession ∧
    (plain none).machine.store.operatives.size ≤ 1 ∧
    1 < mutatedSession.machine.store.operatives.size ∧
    mutatedSession.machine.store.formalNames (mutatedSession.machine.store.operative 1).formals =
      .error (.failure (.typeMismatch "formal parameter tree" (.pair 0))) ∧
    (mutatedSession.run "(g 1)").1 = .failure "TypeMismatch"
      "TypeMismatch: expected formal parameter tree, got (5)
(line 1, col 1)
> 1 | (g 1)
    | ^
Kern stacktrace: (g 1)"
      (some ⟨1, 1, some "script"⟩) :=
  ⟨mutatedSession_steps, by decide +kernel⟩

end Session

end Vau
