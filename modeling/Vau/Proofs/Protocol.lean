import Vau.Proofs.CallStack
import Vau.Proofs.Reachable

/-! The protocol of scripts. A script that cannot be read evaluates nothing and leaves one
report. One that can is evaluated form by form, until a form fails; what was displayed is
recorded in order, the report of the failure comes last, and nothing of an earlier script but
its store has a part in it. -/

namespace Vau

/-- The messages are what the record of side effects has gained, all of them displayed. -/
def World.Displays (w w' : World) (messages : List String) : Prop :=
  w'.effects.toList = w.effects.toList ++ messages.map (Effect.mk .stdout)

theorem Changes.displays {w w' : World} (h : Changes w w') : ∃ messages, w.Displays w' messages := by
  induction h with
  | refl => exact ⟨[], by simp [World.Displays]⟩
  | @tail mid last _ step ih =>
    obtain ⟨messages, hmid⟩ := ih
    unfold World.Displays at hmid
    cases step with
    | shown message =>
      refine ⟨messages ++ [message], ?_⟩
      simp [World.Displays, hmid]
    | _ => exact ⟨messages, hmid⟩

/-- Forms are evaluated to values one after another in the root environment, each from an empty
call stack and a step count of zero. The value is that of the last form, or the one before. -/
inductive Completes (cfg : Settings) (root : Nat) :
    Machine → Value → List Value → List String → Machine → Value → Prop
  | done {m : Machine} {v : Value} : Completes cfg root m v [] [] m v
  | form {m m₁ m' : Machine} {last w v form : Value} {rest : List Value}
    {shown later : List String} (heval : evaluate cfg form root m.reset = .ok w m₁)
    (hshown : m.world.Displays m₁.world shown)
    (hrest : Completes cfg root m₁ w rest later m' v) :
    Completes cfg root m last (form :: rest) (shown ++ later) m' v

/-- The forms before some form complete, and that form stops: none after it is evaluated. -/
inductive Breaks (cfg : Settings) (root : Nat) :
    Machine → Value → List Value → List String → Stop → Machine → Prop
  | stop {m m₁ m' : Machine} {last v form : Value} {before : List Value}
    {shown later : List String} {e : Stop} (hdone : Completes cfg root m last before shown m₁ v)
    (heval : evaluate cfg form root m₁.reset = .error e m')
    (hshown : m₁.world.Displays m'.world later) (after : List Value) :
    Breaks cfg root m last (before ++ form :: after) (shown ++ later) e m'

section Program

variable {cfg : Settings} {root : Nat} {m m' : Machine} {forms : List Value} {last v : Value}
  {shown : List String}

theorem Completes.displays (h : Completes cfg root m last forms shown m' v) :
    m.world.Displays m'.world shown := by
  induction h with
  | done => simp [World.Displays]
  | form _ hshown _ ih =>
    unfold World.Displays at hshown ih ⊢
    rw [ih, hshown, List.append_assoc, ← List.map_append]

theorem Breaks.displays {e : Stop} (h : Breaks cfg root m last forms shown e m') :
    m.world.Displays m'.world shown := by
  obtain ⟨hdone, _, hshown, _⟩ := h
  have hbefore := hdone.displays
  unfold World.Displays at hshown hbefore ⊢
  rw [hshown, hbefore, List.append_assoc, ← List.map_append]

theorem Completes.stack_eq (hcfg : cfg.Balanced) (h : Completes cfg root m last forms shown m' v)
    (hm : m.stack = #[]) : m'.stack = #[] := by
  induction h with
  | done => exact hm
  | @form m m₁ m' last w v form rest shown later heval _ _ ih =>
    have hrun := balanced_evaluate hcfg form root m.reset
    rw [heval] at hrun
    exact ih hrun

theorem Breaks.first {form : Value} {e : Stop}
    (heval : evaluate cfg form root m.reset = .error e m') (hshown : m.world.Displays m'.world shown)
    (rest : List Value) : Breaks cfg root m last (form :: rest) shown e m' := by
  have hdone : Completes cfg root m last [] [] m last := .done
  have h := Breaks.stop hdone heval hshown rest
  exact h

theorem Breaks.next {form w : Value} {m₁ : Machine} {later : List String} {e : Stop}
    (heval : evaluate cfg form root m.reset = .ok w m₁) (hshown : m.world.Displays m₁.world shown)
    (h : Breaks cfg root m₁ w forms later e m') :
    Breaks cfg root m last (form :: forms) (shown ++ later) e m' := by
  cases h with
  | stop hdone hstop hlater after =>
    have hdone : Completes cfg root m last (form :: _) (shown ++ _) _ _ := .form heval hshown hdone
    have h := Breaks.stop hdone hstop hlater after
    rwa [List.append_assoc] at h

theorem displays_evaluate (hcfg : cfg.Lawful) (form : Value) (root : Nat) (m : Machine) :
    ∃ shown, m.world.Displays (endState (evaluate cfg form root m.reset)).world shown :=
  (Action.lawful_evaluate hcfg form root m.reset).displays

/-- A program completes all of its forms, or it breaks at one. -/
theorem runProgram_goes (hcfg : cfg.Lawful) (root : Nat) (forms : List Value) (last : Value)
    (m : Machine) :
    (∀ v m', runProgram cfg root forms last m = .ok v m' →
      ∃ shown, Completes cfg root m last forms shown m' v) ∧
    ∀ e m', runProgram cfg root forms last m = .error e m' →
      ∃ shown, Breaks cfg root m last forms shown e m' := by
  induction forms generalizing last m with
  | nil =>
    refine ⟨fun v m' h => ?_, nofun⟩
    cases h
    exact ⟨[], .done⟩
  | cons form rest ih =>
    obtain ⟨shown, hshown⟩ := displays_evaluate hcfg form root m
    have hrun : runProgram cfg root (form :: rest) last m =
        (evaluate cfg form root >>= runProgram cfg root rest) m.reset := rfl
    simp only [Bind.bind, EStateM.bind] at hrun
    rw [hrun]
    cases heval : evaluate cfg form root m.reset with
    | error e m₁ =>
      rw [heval] at hshown
      refine ⟨nofun, fun e m' h => ?_⟩
      cases h
      exact ⟨shown, .first heval hshown rest⟩
    | ok w m₁ =>
      rw [heval] at hshown
      obtain ⟨hok, herror⟩ := ih w m₁
      refine ⟨fun v m' h => ?_, fun e m' h => ?_⟩
      · obtain ⟨later, hrest⟩ := hok v m' h
        exact ⟨shown ++ later, .form heval hshown hrest⟩
      · obtain ⟨later, hbreak⟩ := herror e m' h
        exact ⟨shown ++ later, .next heval hshown hbreak⟩

end Program

namespace Session

/-- How a script that was read comes out and what machine it leaves: all of its forms complete,
or one of them fails and is reported. -/
inductive Performs (s : Session) (source : String) (forms : List Value) (start : Machine) :
    Outcome → Machine → Prop
  | success {v : Value} {m : Machine} {shown : List String}
    (hforms : Completes s.settings s.root start .inert forms shown m v) (hstack : m.stack = #[])
    (heffects : m.world.effects.toList = shown.map (Effect.mk .stdout)) :
    Performs s source forms start (.success v) m
  | failure {f : Failure} {m m' : Machine} {shown : List String} {message : String}
    (hforms : Breaks s.settings s.root start .inert forms shown (.failure f) m)
    (hmessage : failureMessage m s.traceDepth source f = .ok message)
    (hstore : m'.store = m.store)
    (heffects : m'.world.effects.toList = shown.map (Effect.mk .stdout) ++ [⟨.stderr, message⟩]) :
    Performs s source forms start (.failure f.kind message (failureLocation m)) m'

theorem performs_runData {s : Session} (hlawful : s.settings.Lawful)
    (hbalanced : s.settings.Balanced) {source : String} {data : List Datum} {forms : List Value}
    {store : Store} (hload : s.machine.store.loadAll data = (forms, store)) {outcome : Outcome}
    {s' : Session}
    (hrun : runData { s with machine := cleared s.machine } source data = (outcome, s'))
    (hreported : ∀ e, outcome ≠ .raised e) :
    s.Performs source forms { world := { store := store } } outcome s'.machine := by
  have hprogram : program { s with machine := cleared s.machine } data (cleared s.machine) =
      runProgram s.settings s.root (s.machine.store.loadAll data).1 .inert
        { world := { store := (s.machine.store.loadAll data).2 } } := rfl
  rw [hload] at hprogram
  obtain ⟨hok, herror⟩ :=
    runProgram_goes hlawful s.root forms .inert { world := { store := store } }
  unfold runData at hrun
  rw [hprogram] at hrun
  cases hr : runProgram s.settings s.root forms .inert { world := { store := store } } with
  | ok v m =>
    rw [hr] at hrun
    cases hrun
    obtain ⟨shown, hforms⟩ := hok v m hr
    exact .success hforms (hforms.stack_eq hbalanced rfl) hforms.displays
  | error e m =>
    rw [hr] at hrun
    obtain ⟨shown, hforms⟩ := herror e m hr
    have hshown : m.world.effects.toList = shown.map (Effect.mk .stdout) := hforms.displays
    cases e with
    | failure f =>
      dsimp only at hrun
      cases hmessage : failureMessage m s.traceDepth source f with
      | error e =>
        rw [hmessage] at hrun
        cases hrun
        exact absurd rfl (hreported e)
      | ok message =>
        rw [hmessage] at hrun
        cases hrun
        exact .failure hforms hmessage rfl (by simp [recordError, hshown])
    | _ =>
      cases hrun
      exact absurd rfl (hreported _)

/-- Whatever the session, a script that ends in a report was refused by the reader, when nothing
but the report is left of it, or it was performed from a cleared machine. What an earlier script
left on the stack, counted or recorded does not matter. -/
theorem script_protocol {s : Session} (hlawful : s.settings.Lawful)
    (hbalanced : s.settings.Balanced) {source : String} {outcome : Outcome} {s' : Session}
    (hrun : s.run source = (outcome, s')) (hreported : ∀ e, outcome ≠ .raised e) :
    s' = { s with machine := s'.machine } ∧
    ((∃ e message, read scriptSource source = .error (.error e) ∧
        message = "ReadError: " ++ e.message ∧ outcome = .failure "ReadError" message none ∧
        s'.machine.store = s.machine.store ∧
        s'.machine.world.effects.toList = [⟨.stderr, message⟩] ∧
        s'.machine.stack = #[] ∧ s'.machine.steps = 0) ∨
      ∃ data forms store, read scriptSource source = .ok data ∧
        s.machine.store.loadAll data = (forms, store) ∧
        s.Performs source forms { world := { store := store } } outcome s'.machine) ∧
    ∀ m, m.store = s.machine.store → ({ s with machine := m }).run source = (outcome, s') := by
  have hclear : ∀ m, m.store = s.machine.store → cleared m = cleared s.machine := by
    intro m hm
    simp only [cleared, show m.world.store = s.machine.world.store from hm]
  refine ⟨?_, ?_, fun m hm => ?_⟩
  · have hsession : (s.run source).2 = { s with machine := (s.run source).2.machine } := by
      unfold run
      dsimp only
      split
      · rfl
      · rfl
      · obtain ⟨m, hm, -⟩ := runData_session { s with machine := cleared s.machine } source ‹_›
        rw [hm]
    rwa [hrun] at hsession
  · unfold run at hrun
    dsimp only at hrun
    split at hrun
    · rename_i e hread
      cases hrun
      exact .inl ⟨e, _, hread, rfl, rfl, rfl, rfl, rfl, rfl⟩
    · cases hrun
      exact absurd rfl (hreported _)
    · rename_i data hread
      exact .inr ⟨data, _, _, hread, rfl, performs_runData hlawful hbalanced rfl hrun hreported⟩
  · rw [← hrun]
    unfold run
    simp only [hclear m hm]

/-- A session in which a script has failed and left its frame on the call stack. -/
@[irreducible] def brokenSession : Session := ((plain none).run "(head 1)").2

theorem brokenSession_reachable : brokenSession.Reachable [] := by
  unfold brokenSession
  exact (plain_reachable none).script "(head 1)"

def brokenScript : String := "(display 1) (head 2) (display 3)"

/-- The next script is performed up to its second form, from a machine that is cleared. -/
theorem script_protocol_broken :
    brokenSession.settings.Lawful ∧ brokenSession.settings.Balanced ∧
    (∀ e, (brokenSession.run brokenScript).1 ≠ .raised e) ∧
    brokenSession.machine.stack.size = 1 ∧
    ∃ data forms store, read scriptSource brokenScript = .ok data ∧
      brokenSession.machine.store.loadAll data = (forms, store) ∧
      brokenSession.Performs brokenScript forms { world := { store := store } }
        (brokenSession.run brokenScript).1 (brokenSession.run brokenScript).2.machine := by
  have hlawful : brokenSession.settings.Lawful :=
    fun f hf => absurd hf brokenSession_reachable.no_functions
  have hbalanced : brokenSession.settings.Balanced :=
    fun f hf => absurd hf brokenSession_reachable.no_functions
  obtain ⟨houtcome, hstack⟩ : (brokenSession.run brokenScript).1 = .failure "TypeMismatch"
      "TypeMismatch: expected pair, got 2
(line 1, col 13)
> 1 | (display 1) (head 2) (display 3)
    |             ^
Kern stacktrace: (head 2)"
      (some ⟨1, 13, some "script"⟩) ∧ brokenSession.machine.stack.size = 1 := by decide +kernel
  have hreported : ∀ e, (brokenSession.run brokenScript).1 ≠ .raised e := by
    rw [houtcome]
    exact nofun
  obtain ⟨-, hperforms, -⟩ := script_protocol hlawful hbalanced (Prod.eta _).symm hreported
  refine ⟨hlawful, hbalanced, hreported, hstack, ?_⟩
  rcases hperforms with ⟨e, message, -, -, hrefused, -⟩ | hperforms
  · rw [houtcome] at hrefused
    injection hrefused with hkind
    exact absurd hkind (by decide)
  · exact hperforms

end Session

end Vau
