import Vau.Proofs.Loading
import Vau.Proofs.Vetting

/-! Integrity of code. Operatives keep their code by reference, so whoever is handed a pair of it can
change it. Programs that do not name the two primitives for that cannot get hold of them, and leave
every pair that they find as it is: the code of the prelude stays what it was when it was loaded. -/

namespace Vau

def Value.isMutator : Value → Bool
  | .sym name => name == "set-head!" || name == "set-tail!"
  | .primitive p => p == .operation .setHead || p == .operation .setTail
  | .applicative _ underlying => underlying.isMutator
  | _ => false

/-- Everything stands for itself, but the two primitives that change pairs and their names do not
occur. -/
def Link.mild : Link :=
  { name name := (Value.sym name).isMutator = false
    primitive p := (Value.primitive p).isMutator = false }

theorem Link.oneToOne_mild : Link.mild.OneToOne where
  cell h h' := by rw [← show _ = _ from h, ← show _ = _ from h']
  frame h h' := by rw [← show _ = _ from h, ← show _ = _ from h']
  operative h h' := by rw [← show _ = _ from h, ← show _ = _ from h']

theorem Value.Linked.mild {v : Value} (h : v.isMutator = false) : v.Linked .mild v := by
  induction v with
  | applicative label u ih => exact .applicative label (ih h)
  | sym name => exact .sym h
  | primitive p => exact .primitive h
  | pair r => exact .pair rfl
  | env e => exact .env rfl
  | operative q => exact .operative rfl
  | nil => exact .nil
  | ignore => exact .ignore
  | inert => exact .inert
  | bool b => exact .bool b
  | int n => exact .int n
  | str s => exact .str s

/-- The two primitives can be got hold of by their names alone. -/
def Store.Mild (s : Store) : Prop := s.Linked ⟨.mild, fun _ => False⟩ s

/-- Runs of a program in such a store, none of which changes a pair of `base`. -/
def Course.mild (base : Store) : Course where
  link := .mild
  quits _ := False
  world w w' := w.store.Linked ⟨.mild, fun _ => False⟩ w'.store ∧ base.Keeps w.store
  entry _ _ := True

theorem Course.upheld_mild (base : Store) : (Course.mild base).Upheld where
  entry _ := trivial
  oneToOne := Link.oneToOne_mild
  stores h := h.1
  moves := by
    rintro w w' t t' ⟨-, hsize, hcells⟩ ht hspares -
    refine ⟨ht, Nat.le_trans hsize hspares.cells, fun r hr => ?_⟩
    by_contra hne
    rw [← hcells r hr] at hne
    obtain ⟨-, hp | hp⟩ := hspares.cell r (Nat.lt_of_lt_of_le hr hsize) hne
    · cases hp
    · cases hp
  records _ h := h

namespace Store.Mild

variable {s : Store}

theorem load (h : s.Mild) {d : Datum} (hd : d.tree.leaves (fun v => !v.isMutator) = true) :
    (s.load d).2.Mild ∧ (s.load d).1.Linked .mild (s.load d).1 := by
  induction d generalizing s with
  | pair head tail l ihh iht =>
    obtain ⟨hhead, htail⟩ := Bool.and_eq_true_iff.mp hd
    obtain ⟨hs, ht⟩ := iht h htail
    obtain ⟨hs', hh⟩ := ihh hs hhead
    exact ⟨Store.Linked.cons hs' Link.oneToOne_mild hh ht _ _, .pair rfl⟩
  | group items ih => exact ih h hd
  | sym name => exact ⟨h, .mild (v := .sym name) (by simpa [Tree.leaves, Datum.tree] using hd)⟩
  | _ => exact ⟨h, .mild rfl⟩

theorem loadAll (h : s.Mild) {data : List Datum}
    (hdata : ∀ d ∈ data, d.tree.leaves (fun v => !v.isMutator) = true) :
    (s.loadAll data).2.Mild ∧
      List.Forall₂ (Value.Linked .mild) (s.loadAll data).1 (s.loadAll data).1 := by
  induction data generalizing s with
  | nil => exact ⟨h, .nil⟩
  | cons d ds ih =>
    obtain ⟨hd, hds⟩ := List.forall_mem_cons.mp hdata
    obtain ⟨hs, hv⟩ := h.load hd
    obtain ⟨hs', hvs⟩ := ih hs hds
    -- what is loaded later does not change what a value stands for
    exact ⟨hs', .cons hv hvs⟩

/-- A store without pairs and operatives is mild if only the two names are bound to the two. -/
theorem of_frames (hcells : s.cells = #[]) (hframes : s.frames.all (fun f => f.bindings.all fun b =>
      (Value.sym b.1).isMutator || !b.2.isMutator) = true)
    (hoperatives : s.operatives = #[]) : s.Mild where
  cells := .inl rfl
  freshCell _ := rfl
  head := by
    rintro r _ rfl
    simp only [Store.head, Store.cell, hcells]
    exact .nil
  tail := by
    rintro r _ rfl
    simp only [Store.tail, Store.cell, hcells]
    exact .nil
  frames := rfl
  freshFrame _ := rfl
  frame := by
    rintro e _ rfl
    have hbound : ∀ b ∈ (s.frame e).bindings, (Value.sym b.1).isMutator = false →
        b.2.isMutator = false := by
      intro b hb hname
      rcases Nat.lt_or_ge e s.frames.size with he | he
      · rw [Store.frame, Array.getD_eq_getD_getElem?, Array.getElem?_eq_getElem he] at hb
        have hall := List.all_eq_true.mp (Array.all_eq_true.mp hframes e he) b hb
        simpa [hname] using hall
      · simp [Store.frame, he] at hb
    refine ⟨List.forall₂_same.mpr fun b hb => ⟨rfl, fun hname => .mild (hbound b hb hname)⟩, ?_⟩
    cases (s.frame e).parent with
    | none => exact .none
    | some p => exact .some rfl
  freshOperative _ := rfl
  operative := by
    rintro q _ rfl
    simp only [Store.operative, hoperatives]
    exact ⟨rfl, .nil, .nil, .nil, rfl⟩
  wrappers := rfl

end Store.Mild

namespace Session

/-- A script that names neither of the two primitives. -/
def Gentle (source : String) : Prop :=
  ∀ data, read scriptSource source = .ok data →
    ∀ d ∈ data, d.tree.leaves (fun v => !v.isMutator) = true

/-- A session for which a host supplies nothing, in a mild store. -/
structure Mild (s : Session) : Prop where
  functions : s.settings.functions = #[]
  store : s.machine.store.Mild

variable {s s' : Session}

/-- A program leaves the store mild and its pairs as they were, in whatever way it ends. -/
theorem Mild.program (h : s.Mild) {data : List Datum}
    (hdata : ∀ d ∈ data, d.tree.leaves (fun v => !v.isMutator) = true) {m : Machine}
    (hm : m.store = s.machine.store) :
    (endState (s.program data m)).store.Mild ∧
      s.machine.store.Keeps (endState (s.program data m)).store := by
  obtain ⟨hstore, hforms⟩ := h.store.loadAll hdata
  rw [← hm] at hstore hforms
  have hkept := (Course.upheld_mild m.store).kept
  have hcfg : s.settings.Tied (Course.mild m.store) := by
    intro f hf
    rw [h.functions] at hf
    exact absurd hf (Array.not_mem_empty f)
  have hrun : Action.Tied (Course.mild m.store) (Value.Linked .mild)
      (runProgram s.settings s.root (m.store.loadAll data).1 .inert)
      (runProgram s.settings s.root (m.store.loadAll data).1 .inert) :=
    tied_runProgram hkept hcfg rfl hforms .inert
  let m₀ : Machine := { m with world := { m.world with store := (m.store.loadAll data).2 } }
  have hm₀ : (Course.mild m.store).Machines m₀ m₀ :=
    ⟨⟨hstore, m.store.keeps_loadAll data⟩, List.forall₂_same.mpr fun _ _ => trivial, rfl⟩
  have hends := hrun m₀ m₀ hm₀
  rw [s.program_eq, ← hm]
  change (endState (runProgram s.settings s.root (m.store.loadAll data).1 .inert m₀)).store.Mild ∧ _
  change _ ∧ m.store.Keeps
    (endState (runProgram s.settings s.root (m.store.loadAll data).1 .inert m₀)).store
  generalize runProgram s.settings s.root (m.store.loadAll data).1 .inert m₀ = r at hends ⊢
  cases r with
  | ok v m' =>
    obtain ⟨-, hworld⟩ := hends
    exact hworld.world
  | error e m' =>
    obtain _ | ⟨-, hworld⟩ | hquits := hends
    · exact hworld.world
    · exact hquits.elim

theorem Mild.script (h : s.Mild) {source : String} (hsource : Gentle source) :
    (s.run source).2.Mild ∧ s.machine.store.Keeps (s.run source).2.machine.store := by
  unfold run
  dsimp only
  split
  · exact ⟨⟨h.functions, h.store⟩, .refl _⟩
  · exact ⟨⟨h.functions, h.store⟩, .refl _⟩
  · rename_i data hread
    obtain ⟨m, hm, hstore⟩ := runData_session { s with machine := cleared s.machine } source data
    obtain ⟨hmild, hkeeps⟩ := h.program (hsource data hread) (m := cleared s.machine) rfl
    rw [hm]
    have hsame : m.store = (endState (s.program data (cleared s.machine))).store := hstore
    exact ⟨⟨h.functions, hsame ▸ hmild⟩, hsame ▸ hkeeps⟩

/-- The session after the scripts. -/
def after (s : Session) (sources : List String) : Session :=
  sources.foldl (fun s source => (s.run source).2) s

theorem Mild.after (h : s.Mild) {sources : List String} (hsources : ∀ source ∈ sources, Gentle source) :
    s.machine.store.Keeps (s.after sources).machine.store := by
  induction sources generalizing s with
  | nil => exact .refl _
  | cons source sources ih =>
    obtain ⟨hfirst, hrest⟩ := List.forall_mem_cons.mp hsources
    obtain ⟨hmild, hkeeps⟩ := h.script hfirst
    exact hkeeps.trans (ih hmild hrest)

theorem after_steps (s : Session) (sources : List String) :
    Relation.ReflTransGen Next s (s.after sources) := by
  induction sources generalizing s with
  | nil => exact .refl
  | cons source sources ih => exact .head (.script source) (ih _)

theorem plain_frames : (plain none).machine.store.frames.all (fun f => f.bindings.all fun b =>
    (Value.sym b.1).isMutator || !b.2.isMutator) = true := by
  decide +kernel

theorem mild_plain (limit : Option Int) : (plain limit).Mild := by
  have hstore : (plain limit).machine.store = (plain none).machine.store := rfl
  refine ⟨rfl, ?_⟩
  rw [hstore]
  exact .of_frames rfl plain_frames rfl

theorem forms_mild : Library.definitions.all (fun d =>
    (Library.form d).leaves fun v => !v.isMutator) = true := by
  decide +kernel

theorem mild_start {limit : Option Int} {s₀ : Session}
    (hstart : start .empty limit true [] = .ok s₀) : s₀.Mild := by
  rw [start_of_bare (bare_plain limit)] at hstart
  obtain ⟨data, hread, hforms⟩ := Library.read_prelude "core"
  have hdata : ∀ d ∈ data, d.tree.leaves (fun v => !v.isMutator) = true := by
    intro d hd
    have hmem : d.tree ∈ Library.definitions.map Library.form :=
      hforms ▸ List.mem_map_of_mem hd
    obtain ⟨d', hd', htree⟩ := List.mem_map.mp hmem
    exact htree ▸ List.all_eq_true.mp forms_mild d' hd'
  obtain ⟨hmild, -⟩ := (mild_plain limit).program hdata (m := (plain limit).machine) rfl
  rw [loadPrelude, hread] at hstart
  simp only [load] at hstart
  cases hrun : (plain limit).program data (plain limit).machine with
  | ok v m =>
    rw [hrun] at hstart hmild
    cases hstart
    exact ⟨(mild_plain limit).functions, hmild⟩
  | error e m =>
    rw [hrun] at hstart
    cases hstart

/-- The code of the prelude, and every operative that loading it has made, stays as it was loaded,
whatever scripts run, if they do not name the primitives that change pairs. -/
theorem prelude_code_holds {limit : Option Int} {s₀ : Session}
    (hstart : start .empty limit true [] = .ok s₀) {sources : List String}
    (hsources : ∀ source ∈ sources, Gentle source) {q : Nat} {o o' : Operative}
    (hq : q < s₀.machine.store.operatives.size) (ho : s₀.machine.store.operative q = o)
    (ho' : (s₀.after sources).machine.store.operative q = o') :
    o'.scope = o.scope ∧ o'.formals = o.formals ∧ o'.dynamic = o.dynamic ∧ o'.body = o.body ∧
      ∀ v ∈ o.formals :: o.body, ∀ t, s₀.machine.store.Unfolds v t →
        (s₀.after sources).machine.store.Unfolds v t := by
  subst ho ho'
  have hsound : ∃ x, s₀.Sound x := by
    have hprelude : (plain limit).Next s₀ :=
      .prelude ((start_of_bare (bare_plain limit)).symm.trans hstart)
    obtain ⟨x, hx, -⟩ := sound_of_steps (sound_bare (List.forall_mem_nil _) (bare_plain limit))
      (.single hprelude)
    exact ⟨x, hx⟩
  obtain ⟨-, -, hleads⟩ := sound_of_steps hsound (after_steps s₀ sources)
  obtain ⟨hscope, hformals, hdynamic, hbody⟩ := hleads.evolves.made q hq
  exact ⟨hscope, hformals, hdynamic, hbody, fun v _ t ht =>
    ht.keeps ((mild_start hstart).after hsources)⟩

def foldingScript : String := "(foldl + 0 (list 1 2))"

theorem gentle_foldingScript : Gentle foldingScript := by
  have hread : (match read scriptSource foldingScript with
      | .ok data => data.all fun d => d.tree.leaves fun v => !v.isMutator
      | .error _ => false) = true := by
    decide +kernel
  intro data hdata
  rw [hdata] at hread
  exact List.all_eq_true.mp hread

/-- The code of `foldl` once a script has used it. -/
theorem prelude_code_holds_foldl : ∃ (s₀ : Session) (q : Nat) (form : Value),
    start .empty none true [] = .ok s₀ ∧ (∀ source ∈ [foldingScript], Gentle source) ∧
      q < s₀.machine.store.operatives.size ∧
      ((s₀.after [foldingScript]).machine.store.operative q).body = [form] ∧
      (s₀.after [foldingScript]).machine.store.Unfolds form (.list ["^if", .list ["null?", "xs"], "acc",
        .list ["foldl", "f", .list ["f", "acc", .list ["head", "xs"]], .list ["tail", "xs"]]]) := by
  obtain ⟨s₀, σ, hstart, -, hworld, hintact⟩ := start_intact
  have hmem : Library.foldl ∈ Library.definitions := by decide +kernel
  obtain ⟨q, label, hq, -⟩ := hintact.procedure hmem rfl
  obtain ⟨form, hform, hheld⟩ := hq.body
  have hsources : ∀ source ∈ [foldingScript], Gentle source :=
    List.forall_mem_singleton.mpr gentle_foldingScript
  have hlt : q < s₀.machine.store.operatives.size := by
    have hlt := hq.lt
    rwa [show σ.store = s₀.machine.store from congrArg World.store hworld.symm] at hlt
  obtain ⟨-, -, -, hbody, htrees⟩ := prelude_code_holds hstart hsources hlt rfl rfl
  have hstore : σ.store = s₀.machine.store := congrArg World.store hworld.symm
  rw [hstore] at hform
  refine ⟨s₀, q, form, hstart, hsources, hlt, hbody.trans hform, htrees form ?_ _ ?_⟩
  · rw [hform]
    exact List.mem_cons_of_mem _ List.mem_cons_self
  · exact hstore ▸ hheld.unfolds

end Session

end Vau
