import Vau.Proofs.Layout
import Vau.Proofs.Reachable

/-! Insensitivity to layout. A script does the same however it is laid out, and whatever places
the pairs of a session are said to have been written in. Only the place in the report of a
failure can tell two layouts apart. -/

namespace Vau

theorem Store.unplaced_ext {s s' : Store}
    (hcells : s'.cells.toList.map Cell.unplaced = s.cells.toList.map Cell.unplaced)
    (hframes : s'.frames = s.frames) (hoperatives : s'.operatives = s.operatives)
    (hwrappers : s'.wrappers = s.wrappers) : s'.unplaced = s.unplaced := by
  have hmap : s'.cells.map Cell.unplaced = s.cells.map Cell.unplaced := by
    rw [← Array.toList_inj, Array.toList_map, Array.toList_map, hcells]
  simp only [Store.unplaced, hmap, hframes, hoperatives, hwrappers]

theorem Store.print_alike {s s' : Store} (h : s'.unplaced = s.unplaced) (st : Style) (v : Value) :
    s'.print st v = s.print st v := by
  rw [← Store.print_unplaced, h, Store.print_unplaced]

/-- What a report says about a location in the source. -/
def placeText (source : String) : Option Location → String
  | none => ""
  | some l =>
    "\n(line " ++ toString l.line ++ ", col " ++ toString l.column ++ ")\n" ++
      excerpt source l.line (some l.column) excerptRadius

/-- The report of a failure, made of its parts. -/
def reportText (kind text place trace : String) : String :=
  kind ++ ": " ++ text ++ place ++ (if trace.isEmpty then "" else "\n" ++ trace)

theorem failureMessage_eq (m : Machine) (depth : Int) (source : String) (f : Failure) :
    failureMessage m depth source f = (do
      let text ← f.describe m.store
      let trace ← stackTrace m depth
      return reportText f.kind text (placeText source (failureLocation m)) trace) := by
  unfold failureMessage placeText reportText
  cases f.describe m.store with
  | error e => rfl
  | ok text => cases failureLocation m <;> rfl

section Machines

variable {m m' : Machine} (h : m'.unplaced = m.unplaced)
include h

theorem store_alike : m'.store.unplaced = m.store.unplaced := by
  have hstore : m'.unplaced.store = m.unplaced.store := by rw [h]
  exact hstore

theorem effects_alike : m'.world.effects = m.world.effects := by
  have heffects : m'.unplaced.world.effects = m.unplaced.world.effects := by rw [h]
  exact heffects

theorem stack_alike : m'.stack = m.stack := by
  have hstack : m'.unplaced.stack = m.unplaced.stack := by rw [h]
  exact hstack

theorem describe_alike (f : Failure) : f.describe m'.store = f.describe m.store := by
  rw [← f.describe_unplaced, store_alike h, f.describe_unplaced]

theorem stackTrace_alike (depth : Int) : stackTrace m' depth = stackTrace m depth := by
  have hprint : m'.store.print (.within frameWidth) = m.store.print (.within frameWidth) :=
    funext fun v => Store.print_alike (store_alike h) _ v
  simp only [stackTrace, stack_alike h, hprint]

end Machines

namespace Session

/-- Sessions that differ in where their pairs were written, and in what a script clears. -/
structure Alike (s s' : Session) : Prop where
  settings : s'.settings = s.settings
  root : s'.root = s.root
  traceDepth : s'.traceDepth = s.traceDepth
  store : s'.machine.store.unplaced = s.machine.store.unplaced

/-- Two results of a script that agree in everything but places: a value, the description of a
failure and its trace, or what else was raised, and the machines that are left. -/
inductive Agree (source source' : String) (depth : Int) :
    Outcome → Machine → Outcome → Machine → Prop
  | success {v : Value} {m m' : Machine} (h : m'.unplaced = m.unplaced) :
    Agree source source' depth (.success v) m (.success v) m'
  | failure {f : Failure} {text trace : String} {m m' : Machine} {l l' : Option Location}
    (h : m'.unplaced = m.unplaced) (htext : f.describe m.store = .ok text)
    (htrace : stackTrace m depth = .ok trace) :
    Agree source source' depth
      (.failure f.kind (reportText f.kind text (placeText source l) trace) l)
      (recordError m (reportText f.kind text (placeText source l) trace))
      (.failure f.kind (reportText f.kind text (placeText source' l') trace) l')
      (recordError m' (reportText f.kind text (placeText source' l') trace))
  | raised {e : Stop} {m m' : Machine} (h : m'.unplaced = m.unplaced) :
    Agree source source' depth (.raised e) m (.raised e) m'

variable {s s' : Session} {data data' : List Datum}

theorem program_unplaced (hblind : s.settings.Blind) (data : List Datum) (m : Machine) :
    s.program (data.map Datum.unplaced) m.unplaced =
      inState Machine.unplaced (s.program data m) := by
  have hload : m.unplaced.store.loadAll (data.map Datum.unplaced) =
      ((m.store.loadAll data).1, (m.store.loadAll data).2.unplaced) :=
    m.store.loadAll_unplaced data
  rw [program_eq, program_eq, hload]
  exact Action.pervasive_blind.runProgram hblind s.root (m.store.loadAll data).1 .inert
    { m with world := { m.world with store := (m.store.loadAll data).2 } }

theorem Alike.program (h : s.Alike s') (hblind : s.settings.Blind)
    (hdata : data'.map Datum.unplaced = data.map Datum.unplaced) :
    inState Machine.unplaced (s'.program data' (cleared s'.machine)) =
      inState Machine.unplaced (s.program data (cleared s.machine)) := by
  have hcleared : (cleared s'.machine).unplaced = (cleared s.machine).unplaced := by
    simp only [cleared, Machine.unplaced, World.unplaced,
      show s'.machine.world.store.unplaced = s.machine.world.store.unplaced from h.store]
  have hblind' : s'.settings.Blind := by rwa [h.settings]
  rw [← program_unplaced hblind', ← program_unplaced hblind, hdata, hcleared, Session.program,
    Session.program, h.settings, h.root]

theorem agree_runData (h : s.Alike s') (hblind : s.settings.Blind)
    (hdata : data'.map Datum.unplaced = data.map Datum.unplaced) (source source' : String) :
    Agree source source' s.traceDepth
      (runData { s with machine := cleared s.machine } source data).1
      (runData { s with machine := cleared s.machine } source data).2.machine
      (runData { s' with machine := cleared s'.machine } source' data').1
      (runData { s' with machine := cleared s'.machine } source' data').2.machine := by
  have hprogram := h.program hblind hdata
  have hsame : ∀ (s : Session) data m, program { s with machine := m } data = s.program data :=
    fun _ _ _ => rfl
  simp only [runData, hsame]
  generalize s.program data (cleared s.machine) = r,
    s'.program data' (cleared s'.machine) = r' at hprogram ⊢
  cases r with
  | ok v m =>
    cases r' with
    | error e' m' => cases hprogram
    | ok v' m' =>
      obtain ⟨rfl, hm⟩ : v' = v ∧ m'.unplaced = m.unplaced := by
        injection hprogram with hv hm
        exact ⟨hv, hm⟩
      exact .success hm
  | error e m =>
    cases r' with
    | ok v' m' => cases hprogram
    | error e' m' =>
      obtain ⟨rfl, hm⟩ : e' = e ∧ m'.unplaced = m.unplaced := by
        injection hprogram with he hm
        exact ⟨he, hm⟩
      cases e' with
      | failure f =>
        have htext := describe_alike hm f
        have htrace := stackTrace_alike hm s.traceDepth
        simp only [h.traceDepth, failureMessage_eq, htext, htrace]
        cases hf : f.describe m.store with
        | error e => exact .raised hm
        | ok text =>
          cases ht : stackTrace m s.traceDepth with
          | error e => exact .raised hm
          | ok trace => exact .failure hm hf ht
      | _ => exact .raised hm

/-- What two agreeing results leave: stores that differ in locations alone, and the same of
everything else but the report of a failure. -/
theorem Agree.leaves {source source' : String} {depth : Int} {outcome outcome' : Outcome}
    {m m' : Machine} (h : Agree source source' depth outcome m outcome' m') :
    m'.store.unplaced = m.store.unplaced ∧ m'.stack = m.stack ∧ m'.steps = m.steps ∧
      m'.world.effects.filter (·.channel = .stdout) =
        m.world.effects.filter (·.channel = .stdout) := by
  have hsame : ∀ {m m' : Machine}, m'.unplaced = m.unplaced →
      m'.store.unplaced = m.store.unplaced ∧ m'.stack = m.stack ∧ m'.steps = m.steps ∧
        m'.world.effects = m.world.effects := by
    intro m m' h
    have hsteps : m'.unplaced.steps = m.unplaced.steps := by rw [h]
    exact ⟨store_alike h, stack_alike h, hsteps, effects_alike h⟩
  cases h with
  | success h | raised h =>
    obtain ⟨hstore, hstack, hsteps, heffects⟩ := hsame h
    exact ⟨hstore, hstack, hsteps, by rw [heffects]⟩
  | failure h _ _ =>
    obtain ⟨hstore, hstack, hsteps, heffects⟩ := hsame h
    refine ⟨hstore, hstack, hsteps, ?_⟩
    simp [recordError, heffects]

/-- A script with the tokens of one that is read is read as well. In sessions that differ in
locations alone both come out the same: the same status, the same value in print, the same
description and trace of a failure, the same effects, steps and frames. -/
theorem layout_insensitive {s s' : Session} (hblind : s.settings.Blind) (halike : s.Alike s')
    {source source' : String} (htokens : tokens source'.toList = tokens source.toList)
    {data : List Datum} (hread : read scriptSource source = .ok data) :
    (∃ data', read scriptSource source' = .ok data') ∧
    Agree source source' s.traceDepth (s.run source).1 (s.run source).2.machine
      (s'.run source').1 (s'.run source').2.machine ∧
    (s.run source).2.Alike (s'.run source').2 ∧
    (s'.run source').2.machine.steps = (s.run source).2.machine.steps ∧
    (s'.run source').2.machine.stack = (s.run source).2.machine.stack ∧
    (∀ st v, (s'.run source').2.machine.store.print st v =
      (s.run source).2.machine.store.print st v) ∧
    (s'.run source').2.machine.world.effects.filter (·.channel = .stdout) =
      (s.run source).2.machine.world.effects.filter (·.channel = .stdout) := by
  obtain ⟨data', hread', hdata⟩ := read_alike htokens hread
  have hagree := agree_runData halike hblind hdata source source'
  obtain ⟨m, hm, -⟩ := runData_session { s with machine := cleared s.machine } source data
  obtain ⟨m', hm', -⟩ := runData_session { s' with machine := cleared s'.machine } source' data'
  rw [run_read hread, run_read hread']
  obtain ⟨hstore, hstack, hsteps, heffects⟩ := hagree.leaves
  refine ⟨⟨data', hread'⟩, hagree, ?_, hsteps, hstack, fun st v => Store.print_alike hstore st v,
    heffects⟩
  rw [hm, hm'] at hstore ⊢
  exact ⟨halike.settings, halike.root, halike.traceDepth, hstore⟩

/-- A session in which a definition was laid out over two lines. -/
@[irreducible] def spacious : Session :=
  { plain none with machine := ((plain none).run "($define! x ; a pair\n  (cons 1 2))").2.machine }

/-- A session in which it was written with no blank more than its words need. -/
@[irreducible] def crowded : Session :=
  { plain none with machine := ((plain none).run "($define! x(cons 1 2))").2.machine }

theorem spacious_blind : spacious.settings.Blind := by
  unfold spacious
  exact fun f hf => absurd hf (plain_reachable none).no_functions

theorem alike_crowded : spacious.Alike crowded := by
  obtain ⟨hcells, hframes, hoperatives, hwrappers⟩ :
      crowded.machine.store.cells.toList.map Cell.unplaced =
          spacious.machine.store.cells.toList.map Cell.unplaced ∧
        crowded.machine.store.frames = spacious.machine.store.frames ∧
        crowded.machine.store.operatives = spacious.machine.store.operatives ∧
        crowded.machine.store.wrappers = spacious.machine.store.wrappers := by decide +kernel
  have hstore := Store.unplaced_ext hcells hframes hoperatives hwrappers
  unfold spacious crowded at hstore ⊢
  exact ⟨rfl, rfl, rfl, hstore⟩

def spaciousScript : String := "(display x)\n( head ; of\n 3 )"

def crowdedScript : String := "(display x)(head 3)"

/-- A failing script in two layouts, in sessions that were laid out differently themselves. -/
theorem layout_insensitive_crowded :
    spacious.settings.Blind ∧ spacious.Alike crowded ∧
    spacious.machine.store ≠ crowded.machine.store ∧
    tokens crowdedScript.toList = tokens spaciousScript.toList ∧
    (spacious.run spaciousScript).1 ≠ (crowded.run crowdedScript).1 ∧
    Agree spaciousScript crowdedScript spacious.traceDepth
      (spacious.run spaciousScript).1 (spacious.run spaciousScript).2.machine
      (crowded.run crowdedScript).1 (crowded.run crowdedScript).2.machine := by
  have htokens : tokens crowdedScript.toList = tokens spaciousScript.toList := by decide +kernel
  obtain ⟨data, hread⟩ : ∃ data, read scriptSource spaciousScript = .ok data := by
    have hsome : (read scriptSource spaciousScript).toOption.isSome = true := by decide +kernel
    cases hr : read scriptSource spaciousScript with
    | ok data => exact ⟨data, rfl⟩
    | error e =>
      rw [hr] at hsome
      cases hsome
  have hdiffer : spacious.machine.store ≠ crowded.machine.store := by decide +kernel
  have houtcomes : (spacious.run spaciousScript).1 ≠ (crowded.run crowdedScript).1 := by
    decide +kernel
  obtain ⟨-, hagree, -⟩ := layout_insensitive spacious_blind alike_crowded htokens hread
  exact ⟨spacious_blind, alike_crowded, hdiffer, htokens, houtcomes, hagree⟩

end Session

end Vau
