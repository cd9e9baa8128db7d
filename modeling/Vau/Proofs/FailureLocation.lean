import Vau.Proofs.Locations
import Vau.Proofs.Reachable

/-! The location of a failure. Only reading gives a pair a location, and nothing a program does
gives, takes or changes one. The location that a failure is reported with is therefore that of a
list in some script: in the failing one if the list was read by it, in an earlier one if not. -/

namespace Vau

namespace Store

variable {s s' : Store}

theorem location_of_cells (h : s'.cells = s.cells) (v : Value) : s'.location v = s.location v := by
  cases v with
  | pair r => simp only [location, cell, h]
  | _ => rfl

theorem location_cons (x y : Value) (l : Option Location) (r : Nat) :
    (s.cons x y l).2.location (.pair r) =
      if r = s.cells.size then l else s.location (.pair r) := by
  simp only [location, cell_cons]
  split <;> rfl

/-- A pair that is made without a location is like one that does not exist yet. -/
theorem location_cons_none (x y v : Value) : (s.cons x y none).2.location v = s.location v := by
  cases v with
  | pair r =>
    rw [location_cons]
    split
    · rename_i hr
      simp [location, cell, hr]
    · rfl
  | _ => rfl

theorem lt_of_location {r : Nat} {l : Location} (h : s.location (.pair r) = some l) :
    r < s.cells.size := by
  by_contra hr
  simp [location, cell, Nat.le_of_not_lt hr] at h

theorem location_list (items : List Value) (tail v : Value) :
    (s.list items tail).2.location v = s.location v := by
  induction items with
  | nil => rfl
  | cons x xs ih => exact (location_cons_none _ _ v).trans ih

theorem location_setHead (r : Nat) (x v : Value) : (s.setHead r x).location v = s.location v := by
  cases v with
  | pair d =>
    simp only [location, cell, setHead, Array.getD_eq_getD_getElem?, Array.getElem?_modify]
    split
    · cases s.cells[d]? <;> rfl
    · rfl
  | _ => rfl

theorem location_setTail (r : Nat) (x v : Value) : (s.setTail r x).location v = s.location v := by
  cases v with
  | pair d =>
    simp only [location, cell, setTail, Array.getD_eq_getD_getElem?, Array.getElem?_modify]
    split
    · cases s.cells[d]? <;> rfl
    · rfl
  | _ => rfl

theorem location_defineAll (e : Nat) (bs : List (String × Value)) (v : Value) :
    (s.defineAll e bs).location v = s.location v := by
  induction bs generalizing s with
  | nil => rfl
  | cons b bs ih => exact ih.trans (location_of_cells rfl v)

theorem location_giveName (u v : Value) (name : String) :
    (s.giveName u name).location v = s.location v := by
  unfold giveName
  split
  · exact location_of_cells rfl v
  · rfl

theorem size_load (d : Datum) : s.cells.size ≤ (s.load d).2.cells.size := by
  induction d generalizing s with
  | pair head tail l ihh iht =>
    have htail := iht (s := s)
    have hhead := ihh (s := (s.load tail).2)
    simp only [load, size_cells_cons]
    omega
  | group items ih => exact ih
  | _ => exact Nat.le_refl _

/-- A located pair was there before, or the datum has its location. -/
theorem location_load {d : Datum} {r : Nat} {l : Location}
    (h : (s.load d).2.location (.pair r) = some l) :
    r < s.cells.size ∧ s.location (.pair r) = some l ∨ s.cells.size ≤ r ∧ d.Locates l := by
  induction d generalizing s with
  | pair head tail location ihh iht =>
    have htail := size_load (s := s) tail
    have hhead := size_load (s := (s.load tail).2) head
    simp only [load] at h
    rw [location_cons] at h
    split at h
    · exact .inr ⟨by omega, .inl h⟩
    · rcases ihh h with ⟨-, h⟩ | ⟨hr, h⟩
      · rcases iht h with h | ⟨hr, h⟩
        · exact .inl h
        · exact .inr ⟨hr, .inr (.inr h)⟩
      · exact .inr ⟨by omega, .inr (.inl h)⟩
  | group items ih => exact ih h
  | _ => exact .inl ⟨lt_of_location h, h⟩

theorem location_loadAll {data : List Datum} {r : Nat} {l : Location}
    (h : (s.loadAll data).2.location (.pair r) = some l) :
    r < s.cells.size ∧ s.location (.pair r) = some l ∨
      s.cells.size ≤ r ∧ ∃ d ∈ data, d.Locates l := by
  induction data generalizing s with
  | nil => exact .inl ⟨lt_of_location h, h⟩
  | cons d ds ih =>
    have hsize := size_load (s := s) d
    rcases ih h with ⟨-, h⟩ | ⟨hr, e, he, h⟩
    · rcases location_load h with h | ⟨hr, h⟩
      · exact .inl h
      · exact .inr ⟨hr, d, List.mem_cons_self, h⟩
    · exact .inr ⟨by omega, e, List.mem_cons_of_mem d he, h⟩

end Store

theorem Except.foldlM_keeps {ε α β : Type} {P : β → Prop} {f : β → α → Except ε β} {as : List α}
    (hstep : ∀ a ∈ as, ∀ b b', P b → f b a = .ok b' → P b') {b b' : β} (hb : P b)
    (h : as.foldlM f b = .ok b') : P b' := by
  induction as generalizing b with
  | nil =>
    cases h
    exact hb
  | cons a as ih =>
    rw [List.foldlM_cons] at h
    obtain ⟨c, hc, hrest⟩ := Except.bind_eq_ok h
    exact ih (fun a ha => hstep a (List.mem_cons_of_mem _ ha))
      (hstep a List.mem_cons_self b c hb hc) hrest

/-- The pairs have the same locations in both worlds. -/
def World.SameLocations (w w' : World) : Prop := ∀ v, w'.store.location v = w.store.location v

theorem World.sameLocations_refl (w : World) : w.SameLocations w := fun _ => rfl

theorem World.sameLocations_trans (u v w : World) (h : u.SameLocations v) (h' : v.SameLocations w) :
    u.SameLocations w :=
  fun x => (h' x).trans (h x)

namespace Deed

variable {α : Type}

/-- A deed that leaves the locations of pairs as they are. -/
def Unmarked (d : Deed α) : Prop := d.Moves World.SameLocations

theorem unmarked_same {d : Deed α} (h : ∀ w, endState (d w) = w) : d.Unmarked :=
  moves_same World.sameLocations_refl h

theorem unmarked_tries (f : Store → Except Stop α) : (tries f).Unmarked :=
  moves_tries World.sameLocations_refl f

theorem Unmarked.bind {β : Type} {d : Deed α} {f : α → Deed β} (hd : d.Unmarked)
    (hf : ∀ a, (f a).Unmarked) : (d >>= f).Unmarked :=
  Moves.bind World.sameLocations_trans hd hf

theorem unmarked_makes {f : Store → α × Store} (h : ∀ s v, (f s).2.location v = s.location v) :
    (makes f).Unmarked :=
  fun w => h w.store

theorem unmarked_changes {f : Store → Store} (h : ∀ s v, (f s).location v = s.location v) :
    (changes f).Unmarked :=
  fun w => h w.store

theorem unmarked_checkDynamic (names : List String) (v : Value) :
    (Operation.checkDynamic names v).Unmarked := by
  rcases Operation.checkDynamic_eq names v with h | ⟨f, h⟩
  · rw [h]
    exact unmarked_same fun _ => rfl
  · rw [h]
    exact unmarked_same fun _ => rfl

theorem unmarked_wrap (room env : Nat) (v : Value) :
    (Operation.value room env .wrap [v]).Unmarked := by
  simp only [Operation.value]
  split
  · exact unmarked_makes fun _ => Store.location_of_cells rfl
  · exact unmarked_same fun _ => rfl

theorem unmarked_display (room env : Nat) (vs : List Value) :
    (Operation.value room env .display vs).Unmarked :=
  (unmarked_tries _).bind fun _ =>
    Unmarked.bind (fun _ _ => rfl) fun _ => unmarked_same fun _ => rfl

theorem unmarked_stock : Deed.Stock Deed.Unmarked where
  pure _ := unmarked_same fun _ => rfl
  throw _ := unmarked_same fun _ => rfl
  bind := Unmarked.bind
  head _ := unmarked_same fun _ => rfl
  tail _ := unmarked_same fun _ => rfl
  spine _ := unmarked_same fun _ => rfl
  lookup _ _ := unmarked_same fun _ => rfl
  owner _ _ := unmarked_same fun _ => rfl
  operative _ := unmarked_same fun _ => rfl
  names _ := unmarked_tries _
  equal _ _ := unmarked_tries _
  frame _ := unmarked_makes fun _ => Store.location_of_cells rfl
  cons x y := unmarked_makes fun _ => Store.location_cons_none x y
  list vs := unmarked_makes fun _ => Store.location_list vs .nil
  vau _ _ _ dynamic _ :=
    (unmarked_tries _).bind fun names => (unmarked_checkDynamic names dynamic).bind fun _ =>
      unmarked_makes fun _ => Store.location_of_cells rfl
  wrap := unmarked_wrap
  setHead r x := unmarked_changes fun _ => Store.location_setHead r x
  setTail r x := unmarked_changes fun _ => Store.location_setTail r x
  binds e _ _ := (unmarked_tries _).bind fun bs =>
    unmarked_changes fun _ => Store.location_defineAll e bs
  define _ _ _ := unmarked_changes fun _ => Store.location_of_cells rfl
  giveName u name := unmarked_changes fun _ v => Store.location_giveName u v name

end Deed

/-- An action that leaves the locations of pairs as they are. -/
def Action.Unmarked {α : Type} (x : Action α) : Prop := x.Moves World.SameLocations

def Settings.Unmarked (cfg : Settings) : Prop :=
  ∀ f ∈ cfg.functions, ∀ vs env, (f vs env).Unmarked

theorem Action.pervasive_unmarked : Pervasive Deed.Unmarked fun x => Action.Unmarked x :=
  pervasive_moves World.sameLocations_refl World.sameLocations_trans
    (Deed.unmarked_stock.repertoire_of_display Deed.unmarked_display)

/-- What a host may supply that has no part in locations: functions that leave them as they are,
and combiners that are made without any. -/
def Supply.Unmarked : Supply → Prop
  | .function _ _ run => ∀ vs env, (run vs env).Unmarked
  | .combiner make => ∀ s v, (make s).2.location v = s.location v
  | .other _ => True

namespace Foundation

/-- No pair has a location, and the functions leave that as it is. -/
structure Blank (f : Foundation) : Prop where
  store : ∀ v, f.store.location v = none
  functions : ∀ run ∈ f.functions, ∀ vs env, (run vs env).Unmarked

theorem Blank.bindPrimitive {f : Foundation} (h : f.Blank) (root : Nat) (name : String)
    (takes : Bool) (p : Primitive) : (f.bindPrimitive root name takes p).Blank := by
  refine ⟨fun v => ?_, h.functions⟩
  rw [← h.store v]
  cases takes <;> exact Store.location_of_cells rfl v

theorem Blank.addEntry {f f' : Foundation} (h : f.Blank) {root : Nat} {e : Entry}
    (he : ∀ p, e = .supplied p → p.supply.Unmarked) (hadd : addEntry root f e = .ok f') :
    f'.Blank := by
  cases e with
  | builtin p =>
    cases hadd
    exact h.bindPrimitive root p.name p.takesOperands p
  | supplied p =>
    have hp := he p rfl
    obtain ⟨name, underSymbol, supply⟩ := p
    cases supply with
    | function takes signature run =>
      cases hadd
      have hblank : Blank { f with functions := f.functions.push run } := by
        refine ⟨h.store, fun g hg => ?_⟩
        rcases Array.mem_push.mp hg with hg | rfl
        · exact h.functions g hg
        · exact hp
      exact hblank.bindPrimitive root name takes _
    | combiner make =>
      cases hadd
      refine ⟨fun v => ?_, h.functions⟩
      rw [← h.store v, ← hp f.store v]
      exact Store.location_of_cells rfl v
    | other inspected => cases hadd

end Foundation

namespace Session

theorem blank_bare {supplied : List Supplied} (hsupplied : ∀ p ∈ supplied, p.supply.Unmarked)
    {limit : Option Int} {s : Session} (h : bare .empty limit supplied = .ok s) :
    s.settings.Unmarked ∧ ∀ v, s.machine.store.location v = none := by
  obtain ⟨⟨root, f⟩, hbuild, h⟩ := Except.bind_eq_ok h
  cases h
  obtain ⟨f', hfold, hbuild⟩ := Except.bind_eq_ok hbuild
  cases hbuild
  have hfirst : Foundation.Blank { store := (Store.empty.newFrame none).2 } := by
    refine ⟨fun v => ?_, fun g hg => absurd hg (Array.not_mem_empty g)⟩
    cases v <;> rfl
  have hlast : f.Blank := by
    refine Except.foldlM_keeps (fun e he f f' hf hadd => ?_) hfirst hfold
    exact hf.addEntry (fun p hp => hsupplied p (Supplied.mem_of_entries (hp ▸ he))) hadd
  exact ⟨hlast.functions, hlast.store⟩

/-- Sessions from a new one on: the prelude may be loaded, and the texts, the last one first, are
the scripts that have run. -/
inductive Ran (supplied : List Supplied) : List String → Session → Prop
  | new {limit : Option Int} {s : Session} (h : bare .empty limit supplied = .ok s) :
    Ran supplied [] s
  | prelude {texts : List String} {s s' : Session} (h : Ran supplied texts s)
    (hload : s.loadPrelude = .ok s') : Ran supplied texts s'
  | script {texts : List String} {s : Session} (h : Ran supplied texts s) (text : String) :
    Ran supplied (text :: texts) (s.run text).2

variable {s : Session}

theorem location_program (hhost : s.settings.Unmarked) (data : List Datum) (m : Machine)
    (v : Value) :
    (endState (s.program data m)).store.location v = (m.store.loadAll data).2.location v :=
  Action.pervasive_unmarked.runProgram hhost s.root (m.store.loadAll data).1 .inert
    { m with world := { m.world with store := (m.store.loadAll data).2 } } v

/-- A located pair was there before the script, or the script has its list. -/
theorem location_run (hhost : s.settings.Unmarked) {source : String} {r : Nat} {l : Location}
    (h : (s.run source).2.machine.store.location (.pair r) = some l) :
    r < s.machine.store.cells.size ∧ s.machine.store.location (.pair r) = some l ∨
      s.machine.store.cells.size ≤ r ∧ ListAt source l.position := by
  unfold run at h
  dsimp only at h
  split at h
  · exact .inl ⟨Store.lt_of_location h, h⟩
  · exact .inl ⟨Store.lt_of_location h, h⟩
  · rename_i data hread
    obtain ⟨m, hm, hstore⟩ := runData_session { s with machine := cleared s.machine } source data
    rw [hm] at h
    change m.store.location (.pair r) = some l at h
    rw [hstore] at h
    have hprogram := location_program (s := { s with machine := cleared s.machine }) hhost data
      (cleared s.machine) (.pair r)
    rw [h] at hprogram
    rcases Store.location_loadAll hprogram.symm with hold | ⟨hr, d, hd, hl⟩
    · exact .inl hold
    · exact .inr ⟨hr, (read_locates hread hd hl).2⟩

theorem settings_run (s : Session) (source : String) : (s.run source).2.settings = s.settings := by
  unfold run
  dsimp only
  split
  · rfl
  · rfl
  · rename_i data _
    obtain ⟨m, hm, -⟩ := runData_session { s with machine := cleared s.machine } source data
    rw [hm]

theorem location_load (hhost : s.settings.Unmarked) {source text : String} {s' : Session}
    (h : s.load (read source text) = .ok s') :
    s'.settings = s.settings ∧
    ∀ r l, s'.machine.store.location (.pair r) = some l →
      s.machine.store.location (.pair r) = some l ∨ l.source = some source := by
  unfold load at h
  split at h
  · cases h
  · cases h
  · rename_i data hread
    cases hr : s.program data s.machine with
    | error e m =>
      rw [hr] at h
      cases h
    | ok v m =>
      have hprogram := fun r => location_program hhost data s.machine (.pair r)
      rw [hr] at h hprogram
      cases h
      refine ⟨rfl, fun r l hl => ?_⟩
      have hloaded : (s.machine.store.loadAll data).2.location (.pair r) = some l :=
        (hprogram r).symm.trans hl
      rcases Store.location_loadAll hloaded with ⟨-, hold⟩ | ⟨-, d, hd, hl⟩
      · exact .inl hold
      · exact .inr (read_locates hread hd hl).1

/-- The locations in the scripts of a session are those of lists in the texts that have run. -/
theorem Ran.located {supplied : List Supplied} (hsupplied : ∀ p ∈ supplied, p.supply.Unmarked)
    {texts : List String} (h : s.Ran supplied texts) :
    s.settings.Unmarked ∧ ∀ r l, s.machine.store.location (.pair r) = some l →
      l.source = some scriptSource → ∃ text ∈ texts, ListAt text l.position := by
  induction h with
  | new h =>
    obtain ⟨hhost, hblank⟩ := blank_bare hsupplied h
    refine ⟨hhost, fun r l hl _ => ?_⟩
    rw [hblank] at hl
    cases hl
  | prelude h hload ih =>
    obtain ⟨hhost, hold⟩ := ih
    obtain ⟨hsettings, hload⟩ := location_load hhost hload
    refine ⟨by rwa [hsettings], fun r l hl hsource => ?_⟩
    rcases hload r l hl with hl | hcore
    · exact hold r l hl hsource
    · rw [hcore] at hsource
      exact absurd hsource (by decide)
  | script h text ih =>
    obtain ⟨hhost, hold⟩ := ih
    refine ⟨by rwa [settings_run], fun r l hl hsource => ?_⟩
    rcases location_run hhost hl with ⟨-, hl⟩ | ⟨-, hlist⟩
    · obtain ⟨t, ht, hlist⟩ := hold r l hl hsource
      exact ⟨t, List.mem_cons_of_mem text ht, hlist⟩
    · exact ⟨text, List.mem_cons_self, hlist⟩

theorem failureLocation_frame {m : Machine} {l : Location} (h : failureLocation m = some l) :
    ∃ outer r inner, m.stack.toList = outer ++ .pair r :: inner ∧
      m.store.location (.pair r) = some l ∧
      (∀ v ∈ inner, ∀ l', m.store.location v = some l' → l'.source ≠ some scriptSource) ∧
      l.source = some scriptSource := by
  obtain ⟨later, v, earlier, hstack, hfound, hnone⟩ := List.findSome?_eq_some_iff.mp h
  have hsplit : m.stack.toList = earlier.reverse ++ v :: later.reverse := by
    rw [← List.reverse_reverse m.stack.toList, hstack]
    simp
  have hplace : m.store.location v = some l ∧ l.source = some scriptSource := by
    cases hl : m.store.location v with
    | none =>
      simp only [hl] at hfound
      cases hfound
    | some l' =>
      simp only [hl] at hfound
      split at hfound
      · cases hfound
        exact ⟨rfl, ‹_›⟩
      · cases hfound
  obtain ⟨hl, hsource⟩ := hplace
  have hinner : ∀ u ∈ later.reverse, ∀ l', m.store.location u = some l' →
      l'.source ≠ some scriptSource := by
    intro u hu l' hl' hs
    have hskipped := hnone u (List.mem_reverse.mp hu)
    simp only [hl', if_pos hs] at hskipped
    cases hskipped
  cases v with
  | pair r => exact ⟨earlier.reverse, r, later.reverse, hsplit, hl, hinner, hsource⟩
  | _ => cases hl

theorem failureLocation_run {source kind message : String} {l : Option Location}
    (h : (s.run source).1 = .failure kind message l) (hl : l ≠ none) :
    failureLocation (s.run source).2.machine = l := by
  unfold run at h ⊢
  dsimp only at h ⊢
  cases hread : read scriptSource source with
  | error e =>
    cases e <;> simp only [hread] at h <;> cases h
    exact absurd rfl hl
  | ok data =>
    simp only [hread, runData] at h ⊢
    cases hprogram : program { s with machine := cleared s.machine } data (cleared s.machine) with
    | ok v m =>
      simp only [hprogram] at h
      cases h
    | error e m =>
      cases e with
      | failure f =>
        simp only [hprogram] at h ⊢
        cases hmessage : failureMessage m s.traceDepth source f with
        | error e =>
          simp only [hmessage] at h
          cases h
        | ok text =>
          simp only [hmessage] at h ⊢
          cases h
          rfl
      | _ =>
        simp only [hprogram] at h
        cases h

/-- The location of a failure is that of the innermost frame that was read from a script. If the
failing script has read it, a list of the script begins there; if not, a list of an earlier one. -/
theorem failure_location {supplied : List Supplied}
    (hsupplied : ∀ p ∈ supplied, p.supply.Unmarked) {texts : List String}
    (hran : s.Ran supplied texts) {source kind message : String} {l : Location}
    (hrun : (s.run source).1 = .failure kind message (some l)) :
    ∃ outer r inner, (s.run source).2.machine.stack.toList = outer ++ .pair r :: inner ∧
      (s.run source).2.machine.store.location (.pair r) = some l ∧
      (∀ v ∈ inner, ∀ l', (s.run source).2.machine.store.location v = some l' →
        l'.source ≠ some scriptSource) ∧
      l.source = some scriptSource ∧
      (s.machine.store.cells.size ≤ r → ListAt source l.position) ∧
      (r < s.machine.store.cells.size → ∃ text ∈ texts, ListAt text l.position) := by
  obtain ⟨hhost, hlocated⟩ := hran.located hsupplied
  have hfailure := failureLocation_run hrun nofun
  obtain ⟨outer, r, inner, hstack, hl, hinner, hsource⟩ := failureLocation_frame hfailure
  refine ⟨outer, r, inner, hstack, hl, hinner, hsource, fun hnew => ?_, fun hold => ?_⟩
  · rcases location_run hhost hl with ⟨hr, -⟩ | ⟨-, hlist⟩
    · omega
    · exact hlist
  · rcases location_run hhost hl with ⟨-, hl⟩ | ⟨hr, -⟩
    · exact hlocated r l hl hsource
    · omega

def definingScript : String := "\n\n($define! f ($vau () #ignore (head 1)))"

def callingScript : String := "(cons (f) 1)"

@[irreducible] def definingSession : Session := ((plain none).run definingScript).2

theorem definingSession_ran : definingSession.Ran [] [definingScript] := by
  unfold definingSession
  exact (Ran.new (bare_plain none)).script definingScript

theorem callingScript_fails : (definingSession.run callingScript).1 = .failure "TypeMismatch"
    "TypeMismatch: expected pair, got 1\n(line 3, col 30)\n\nKern stacktrace: (cons (f) 1) (head 1)"
    (some ⟨3, 30, some "script"⟩) := by decide +kernel

/-- The body of the operative fails when a later script calls it. -/
theorem failure_location_calling :
    (∀ p ∈ ([] : List Supplied), p.supply.Unmarked) ∧
    definingSession.Ran [] [definingScript] ∧
    ∃ outer r inner,
      (definingSession.run callingScript).2.machine.stack.toList = outer ++ .pair r :: inner ∧
      (definingSession.run callingScript).2.machine.store.location (.pair r) =
        some ⟨3, 30, some "script"⟩ ∧
      (definingSession.machine.store.cells.size ≤ r → ListAt callingScript ⟨3, 30⟩) ∧
      (r < definingSession.machine.store.cells.size → ListAt definingScript ⟨3, 30⟩) := by
  have hsupplied : ∀ p ∈ ([] : List Supplied), p.supply.Unmarked := nofun
  obtain ⟨outer, r, inner, hstack, hl, -, -, hnew, hold⟩ :=
    failure_location hsupplied definingSession_ran callingScript_fails
  refine ⟨hsupplied, definingSession_ran, outer, r, inner, hstack, hl, hnew, fun hr => ?_⟩
  obtain ⟨text, htext, hlist⟩ := hold hr
  exact List.mem_singleton.mp htext ▸ hlist

theorem advance_line {cs : List Char} (h : '\n' ∉ cs) (p : Position) :
    (p.advance cs).line = p.line := by
  induction cs generalizing p with
  | nil => rfl
  | cons c cs ih =>
    obtain ⟨hc, hcs⟩ := not_or.mp (fun hmem => h (List.mem_cons.mpr hmem))
    rw [Position.advance_cons, ih hcs, Position.step, if_neg (Ne.symm hc)]

/-- The failing script is one line long, and its failure is reported on the third. -/
theorem failure_outside_script :
    definingSession.Ran [] [definingScript] ∧
    (∃ kind message, (definingSession.run callingScript).1 =
      .failure kind message (some ⟨3, 30, some "script"⟩)) ∧
    ¬ ListAt callingScript ⟨3, 30⟩ := by
  refine ⟨definingSession_ran, ⟨_, _, callingScript_fails⟩, ?_⟩
  rintro ⟨-, before, after, htext, hposition⟩
  have hline : '\n' ∉ before := by
    intro hmem
    have hnone : callingScript.toList.contains '\n' = false := by decide
    rw [htext] at hnone
    simp [hmem] at hnone
  have hthree := advance_line hline .start
  rw [hposition] at hthree
  exact absurd hthree (by decide)

end Session

end Vau
