import Vau.Proofs.Conduct
import Vau.Proofs.Evolution
import Vau.Session

/-! Reachable sessions. Whatever scripts have run, the store of a session is sound, and it is
reached from the first one by what programs can do to a store. -/

namespace Vau

/-- What a host may supply: functions that keep stores sound and change them as programs do,
and combiners made of what exists. -/
def Supply.Fair : Supply → Prop
  | .function _ _ run => (∀ limit n x vs env, (∀ v ∈ vs, v.In x) → env < x.frames →
      (run vs env).Keeps limit n n x fun y a => a.In y) ∧ ∀ vs env, (run vs env).Lawful
  | .combiner make => ∀ (x : Extent) (s : Store), s.Sound x → x.Gains (fun y v => v.In y) (make s)
  | .other _ => True

namespace Foundation

variable {x : Extent} {root : Nat} {f : Foundation}

/-- The functions supplied so far and a sound store in which the root exists. -/
def Stands (x : Extent) (root : Nat) (f : Foundation) : Prop :=
  f.store.Sound x ∧ root < x.frames ∧
    ∀ run ∈ f.functions, ∃ takes signature, (Supply.function takes signature run).Fair

theorem Stands.bindPrimitive (h : f.Stands x root) (name : String) (takes : Bool) (p : Primitive) :
    ∃ y, (f.bindPrimitive root name takes p).Stands y root := by
  obtain ⟨hs, hroot, hfunctions⟩ := h
  cases takes with
  | true => exact ⟨x, hs.define root name (v := .primitive p) trivial, hroot, hfunctions⟩
  | false =>
    obtain ⟨y, hy, hs', hv⟩ := hs.wrap (v := .primitive p) trivial
    exact ⟨y, hs'.define root name hv, hy.frame_lt hroot, hfunctions⟩

theorem Stands.addEntry (h : f.Stands x root) {e : Entry}
    (he : ∀ p, e = .supplied p → p.supply.Fair) {f' : Foundation}
    (hadd : addEntry root f e = .ok f') : ∃ y, f'.Stands y root := by
  cases e with
  | builtin p =>
    cases hadd
    exact h.bindPrimitive p.name p.takesOperands p
  | supplied p =>
    have hp := he p rfl
    obtain ⟨hs, hroot, hfunctions⟩ := h
    obtain ⟨name, underSymbol, supply⟩ := p
    cases supply with
    | function takes signature run =>
      cases hadd
      have hstands : Stands x root { f with functions := f.functions.push run } := by
        refine ⟨hs, hroot, fun g hg => ?_⟩
        rcases Array.mem_push.mp hg with hg | rfl
        · exact hfunctions g hg
        · exact ⟨takes, signature, hp⟩
      exact hstands.bindPrimitive name takes _
    | combiner make =>
      cases hadd
      obtain ⟨y, hy, hs', hv⟩ := hp x f.store hs
      exact ⟨y, hs'.define root name hv, hy.frame_lt hroot, hfunctions⟩
    | other inspected => cases hadd

theorem Stands.addEntries (h : f.Stands x root) {es : List Entry}
    (hes : ∀ p, .supplied p ∈ es → p.supply.Fair) {f' : Foundation}
    (hadd : es.foldlM (Foundation.addEntry root) f = .ok f') : ∃ y, f'.Stands y root := by
  induction es generalizing f x with
  | nil =>
    cases hadd
    exact ⟨x, h⟩
  | cons e es ih =>
    rw [List.foldlM_cons] at hadd
    obtain ⟨g, hg, hrest⟩ := Except.bind_eq_ok hadd
    obtain ⟨y, hy⟩ := h.addEntry (fun p hp => hes p (hp ▸ List.mem_cons_self)) hg
    exact ih hy (fun p hp => hes p (List.mem_cons_of_mem _ hp)) hrest

end Foundation

theorem Supplied.mem_of_entries {supplied : List Supplied} {p : Supplied}
    (h : .supplied p ∈ Supplied.entries supplied) : p ∈ supplied := by
  simp only [Supplied.entries, List.mem_append, List.mem_map] at h
  rcases h with ⟨q, -, hq⟩ | ⟨q, hq, heq⟩
  · split at hq
    · rename_i found hfind
      cases hq
      exact List.mem_of_find?_eq_some hfind
    · cases hq
  · cases heq
    exact (List.mem_filter.mp hq).1

namespace Session

/-- The store is sound, the root is one of its frames and the host keeps to its part. -/
structure Sound (x : Extent) (s : Session) : Prop where
  store : s.machine.store.Sound x
  root : s.root < x.frames
  keeps : ∀ limit, s.settings.Keeps limit
  lawful : s.settings.Lawful

theorem sound_bare {supplied : List Supplied} (hfair : ∀ p ∈ supplied, p.supply.Fair)
    {limit : Option Int} {s : Session} (h : Session.bare .empty limit supplied = .ok s) :
    ∃ x, s.Sound x := by
  obtain ⟨⟨root, f⟩, hbuild, h⟩ := Except.bind_eq_ok h
  cases h
  obtain ⟨f', hfold, hbuild⟩ := Except.bind_eq_ok hbuild
  cases hbuild
  have hframe : Extent.Gains {} (fun y e => e < y.frames) (Store.empty.newFrame none) :=
    Store.sound_empty.newFrame nofun
  obtain ⟨x, -, hs, hroot⟩ := hframe
  have hfirst : Foundation.Stands x 0 { store := (Store.empty.newFrame none).2 } :=
    ⟨hs, hroot, fun g hg => absurd hg (Array.not_mem_empty g)⟩
  obtain ⟨y, hs', hroot', hfunctions⟩ :=
    hfirst.addEntries (fun p hp => hfair p (Supplied.mem_of_entries hp)) hfold
  refine ⟨y, hs', hroot', fun limit g hg => ?_, fun g hg => ?_⟩
  · obtain ⟨_, _, hg⟩ := hfunctions g hg
    exact hg.1 limit
  · obtain ⟨_, _, hg⟩ := hfunctions g hg
    exact hg.2

end Session

theorem Changes.load (w : World) (d : Datum) :
    Changes w { w with store := (w.store.load d).2 } := by
  induction d generalizing w with
  | pair head tail l ihh iht => exact ((iht w).trans (ihh _)).tail (.cons _ _ l)
  | group items ih => exact ih w
  | _ => exact .refl

theorem Changes.loadAll (w : World) (data : List Datum) :
    Changes w { w with store := (w.store.loadAll data).2 } := by
  induction data generalizing w with
  | nil => exact .refl
  | cons d ds ih => exact (Changes.load w d).trans (ih _)

/-- `s'` comes from `s` by what programs can do to a store. -/
def Store.Leads (s s' : Store) : Prop :=
  Relation.ReflTransGen (fun s s' => ∃ w w', Change w w' ∧ w.store = s ∧ w'.store = s') s s'

theorem Changes.leads {w w' : World} (h : Changes w w') : w.store.Leads w'.store := by
  induction h with
  | refl => exact .refl
  | tail _ step ih => exact ih.tail ⟨_, _, step, rfl, rfl⟩

namespace Session

variable {x : Extent} {s s' : Session}

section Program

variable {cfg : Settings} {root : Nat}

open Vau.Action

theorem keeps_runProgram (hcfg : cfg.Keeps none) (hroot : root < x.frames) {forms : List Value}
    {last : Value} (hforms : ∀ v ∈ forms, v.In x) (hlast : last.In x) :
    (runProgram cfg root forms last).Keeps none 0 0 x fun y v => v.In y := by
  induction forms generalizing x last with
  | nil => exact keeps_pure fun y hy => hlast.mono hy
  | cons form rest ih =>
    obtain ⟨hform, hrest⟩ := List.forall_mem_cons.mp hforms
    have hreset : (modify Machine.reset : Action PUnit).Keeps none 0 0 x fun _ _ => True :=
      fun y m _ hm _ => ⟨y, .refl y, hm, trivial, fun _ h => nomatch h⟩
    refine hreset.bind fun y _ hy _ => ?_
    have hroot := hy.frame_lt hroot
    refine (keeps_evaluate hcfg nofun (Nat.zero_le _) (hform.mono hy) hroot).bind fun z v hz hv => ?_
    exact ih (hz.frame_lt hroot) (fun w hw => (hrest w hw).mono (hy.trans hz)) hv

end Program

/-- A program is evaluated from where its data have been brought into the store. -/
theorem program_eq (s : Session) (data : List Datum) (m : Machine) :
    s.program data m = runProgram s.settings s.root (m.store.loadAll data).1 .inert
      { m with world := { m.world with store := (m.store.loadAll data).2 } } :=
  rfl

/-- The next state of a session: the same but for the machine, with a store that is still sound
and that the one before leads to. -/
structure Follows (x : Extent) (s s' : Session) : Prop where
  settings : s'.settings = s.settings
  root : s'.root = s.root
  store : ∃ y, x.Within y ∧ s'.machine.store.Sound y
  leads : s.machine.store.Leads s'.machine.store

theorem Follows.sound (h : Follows x s s') (hs : s.Sound x) : ∃ y, x.Within y ∧ s'.Sound y := by
  obtain ⟨y, hy, hstore⟩ := h.store
  refine ⟨y, hy, hstore, ?_, ?_, ?_⟩
  · rw [h.root]
    exact hy.frame_lt hs.root
  · rw [h.settings]
    exact hs.keeps
  · rw [h.settings]
    exact hs.lawful

theorem Sound.program_keeps (h : s.Sound x) (data : List Datum) :
    (s.program data).Keeps none 0 0 x fun y v => v.In y := by
  have hload : (Deed.makes fun st => st.loadAll data).Keeps x fun y vs => ∀ v ∈ vs, v.In y :=
    Deed.keeps_makes fun _ _ _ hs => hs.loadAll data
  refine (Action.keeps_act hload).bind fun y forms hy hforms => ?_
  exact keeps_runProgram (h.keeps none) (hy.frame_lt h.root) hforms trivial

theorem Sound.program_lawful (h : s.Sound x) (data : List Datum) : (s.program data).Lawful := by
  have hload : (Deed.makes fun st => st.loadAll data).Lawful := fun w => Changes.loadAll w data
  exact Action.pervasive_lawful.bind (Action.pervasive_lawful.congruent.deed hload) fun forms =>
    Action.pervasive_lawful.runProgram h.lawful s.root forms .inert

/-- A program leaves the session sound, in whatever way it ends. -/
theorem Sound.follows_program (h : s.Sound x) (data : List Datum) {m m' : Machine}
    (hm : m.store = s.machine.store) (hm' : m'.store = (endState (s.program data m)).store) :
    Follows x s { s with machine := m' } := by
  have hsound : m.world.store.Sound x := by
    rw [show m.world.store = s.machine.store from hm]
    exact h.store
  have hkeeps := h.program_keeps data x m (.refl x) hsound fun _ hl => nomatch hl
  have hleads : m.store.Leads (endState (s.program data m)).store :=
    (h.program_lawful data m).leads
  refine ⟨rfl, rfl, ?_, ?_⟩
  · rw [hm']
    exact hkeeps.sound
  · rwa [hm', ← hm]

theorem Sound.follows_load (h : s.Sound x) {r : Except Refusal (List Datum)}
    (hload : s.load r = .ok s') : Follows x s s' := by
  unfold load at hload
  split at hload
  · cases hload
  · cases hload
  · rename_i data
    cases hr : s.program data s.machine with
    | ok v m =>
      rw [hr] at hload
      cases hload
      exact h.follows_program data rfl (by rw [hr]; rfl)
    | error e m =>
      rw [hr] at hload
      cases hload

/-- A script that is read is run from a cleared machine. -/
theorem run_read {source : String} {data : List Datum}
    (hread : read scriptSource source = .ok data) :
    s.run source = runData { s with machine := cleared s.machine } source data := by
  simp only [run, hread]

theorem runData_session (s : Session) (source : String) (data : List Datum) :
    ∃ m, (s.runData source data).2 = { s with machine := m } ∧
      m.store = (endState (s.program data s.machine)).store := by
  unfold runData
  cases hr : s.program data s.machine with
  | ok v m => exact ⟨m, rfl, rfl⟩
  | error e m =>
    cases e with
    | failure f =>
      dsimp only
      cases failureMessage m s.traceDepth source f with
      | ok message => exact ⟨_, rfl, rfl⟩
      | error e => exact ⟨m, rfl, rfl⟩
    | _ => exact ⟨m, rfl, rfl⟩

theorem Sound.follows_script (h : s.Sound x) (source : String) : Follows x s (s.run source).2 := by
  have hsame : ∀ m : Machine, m.store = s.machine.store → Follows x s { s with machine := m } :=
    fun m hm => ⟨rfl, rfl, ⟨x, .refl x, hm ▸ h.store⟩, hm ▸ .refl⟩
  unfold run
  dsimp only
  split
  · exact hsame _ rfl
  · exact hsame _ rfl
  · rename_i data _
    obtain ⟨m, hm, hstore⟩ := runData_session { s with machine := cleared s.machine } source data
    have hcleared : (cleared s.machine).store = s.machine.store := rfl
    rw [hm]
    exact h.follows_program data hcleared hstore

/-- A session goes on by loading the prelude or running a script. -/
inductive Next (s : Session) : Session → Prop
  | prelude {s' : Session} (h : s.loadPrelude = .ok s') : Next s s'
  | script (source : String) : Next s (s.run source).2

theorem Next.follows (h : s.Next s') (hs : s.Sound x) : Follows x s s' := by
  cases h with
  | prelude h => exact hs.follows_load h
  | script source => exact hs.follows_script source

/-- A session reached by any sequence of scripts from a new one with what a host supplies. -/
def Reachable (supplied : List Supplied) (s : Session) : Prop :=
  ∃ limit s₀, Session.bare .empty limit supplied = .ok s₀ ∧ Relation.ReflTransGen Next s₀ s

theorem sound_of_steps {s₀ : Session} (hs₀ : ∃ x, s₀.Sound x) (h : Relation.ReflTransGen Next s₀ s) :
    ∃ x, s.Sound x ∧ s₀.machine.store.Leads s.machine.store := by
  induction h with
  | refl =>
    obtain ⟨x, hx⟩ := hs₀
    exact ⟨x, hx, .refl⟩
  | tail _ step ih =>
    obtain ⟨x, hx, hleads⟩ := ih
    have hstep := step.follows hx
    obtain ⟨y, -, hy⟩ := hstep.sound hx
    exact ⟨y, hy, hleads.trans hstep.leads⟩

theorem Reachable.sound {supplied : List Supplied} (hfair : ∀ p ∈ supplied, p.supply.Fair)
    (h : s.Reachable supplied) : ∃ x, s.Sound x := by
  obtain ⟨limit, s₀, hbare, hsteps⟩ := h
  obtain ⟨x, hx, -⟩ := sound_of_steps (sound_bare hfair hbare) hsteps
  exact ⟨x, hx⟩

/-- A new session without the prelude and without a host's primitives. -/
def plain (limit : Option Int) : Session := (Session.bare .empty limit []).toOption.get rfl

theorem bare_plain (limit : Option Int) : Session.bare .empty limit [] = .ok (plain limit) := rfl

theorem plain_reachable (limit : Option Int) : (plain limit).Reachable [] :=
  ⟨limit, plain limit, bare_plain limit, .refl⟩

theorem Reachable.script {supplied : List Supplied} (h : s.Reachable supplied) (source : String) :
    (s.run source).2.Reachable supplied := by
  obtain ⟨limit, s₀, hbare, hsteps⟩ := h
  exact ⟨limit, s₀, hbare, hsteps.tail (.script source)⟩

/-- A session for which a host supplies nothing calls no functions of one. -/
theorem Reachable.no_functions (h : s.Reachable []) {f : HostFunction} :
    f ∉ s.settings.functions := by
  obtain ⟨limit, s₀, hbare, hsteps⟩ := h
  obtain rfl : plain limit = s₀ := Except.ok.inj ((bare_plain limit).symm.trans hbare)
  have hsound := sound_bare (List.forall_mem_nil _) hbare
  have hsettings : s.settings = (plain limit).settings := by
    induction hsteps with
    | refl => rfl
    | tail hsteps step ih =>
      obtain ⟨x, hx, -⟩ := sound_of_steps hsound hsteps
      exact ((step.follows hx).settings).trans ih
  rw [hsettings]
  exact Array.not_mem_empty f

end Session

end Vau
