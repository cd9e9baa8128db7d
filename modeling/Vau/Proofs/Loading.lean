import Vau.Proofs.Intact
import Vau.Proofs.Reachable
import Vau.Proofs.Renaming
import Vau.Proofs.Reprint

/-! Loading the prelude. Every form of it defines one name, which is new; so what was defined before
it stays, and a session that starts with the prelude has a root environment that is intact. -/

namespace Vau

theorem Store.giveName_eq (s : Store) (v : Value) (name : String) :
    s.giveName v name = { s with operatives := (s.giveName v name).operatives } := by
  unfold Store.giveName
  split <;> rfl

namespace Scene

open Library Vau.Tree

/-- The scene after a definition, with the new binding held. -/
def define (σ : Scene) (e : Nat) (name : String) (v : Value) : Scene where
  world := ⟨(σ.store.define e name v).giveName v name, σ.world.effects⟩
  cell := σ.cell
  spine := σ.spine
  binding f key := σ.binding f key ∨ f = e ∧ key = name ∧ e < σ.store.frames.size
  cell_lt hr := by
    rw [Store.giveName_eq]
    exact σ.cell_lt hr
  spine_lt hr := by
    rw [Store.giveName_eq]
    exact σ.spine_lt hr
  frame_lt {f key} hb := by
    rw [Store.giveName_eq]
    have hlt : f < σ.store.frames.size := hb.elim σ.frame_lt fun h => h.1 ▸ h.2.2
    simpa [Store.define] using hlt

variable {σ τ : Scene} {cfg : Gauge} {n d D e root : Nat} {ds : List Definition} {t : Tree}
  {name : String} {v : Value} {Q : Value → Scene → Prop}

theorem get?_define (σ : Scene) (name key : String) (v : Value) (he : e < σ.store.frames.size)
    (f : Nat) : ((σ.define e name v).store.frame f).get? key =
      if f = e ∧ key = name then some v else (σ.store.frame f).get? key := by
  show (((σ.store.define e name v).giveName v name).frame f).get? key = _
  rw [Store.giveName_eq]
  refine (congrArg (Frame.get? · key) (Store.frame_define σ.store e f name v he)).trans ?_
  by_cases hf : f = e
  · simp [hf]
  · simp [hf]

/-- A name that was not held before is defined without a change of anything that was. -/
theorem onward_define (hnew : ¬ σ.binding e name) (he : e < σ.store.frames.size) :
    σ.Onward (σ.define e name v) where
  evolves := (Store.Evolves.define σ.store e name v).trans (.giveName _ v name)
  cells := by
    show _ ≤ ((σ.store.define e name v).giveName v name).cells.size
    rw [Store.giveName_eq]
    exact Nat.le_refl _
  cell {r} hr := by
    refine ⟨hr, ?_⟩
    show ((σ.store.define e name v).giveName v name).cell r = _
    rw [Store.giveName_eq]
    rfl
  spine {r} hr := by
    refine ⟨hr, ?_⟩
    show ((σ.store.define e name v).giveName v name).tail r = _
    rw [Store.giveName_eq]
    rfl
  binding {f key} hb := by
    refine ⟨.inl hb, ?_⟩
    rw [get?_define σ name key v he, if_neg]
    rintro ⟨rfl, rfl⟩
    exact hnew hb

theorem sees_define (σ : Scene) (name : String) (v : Value) (he : e < σ.store.frames.size) :
    (σ.define e name v).Sees name v e :=
  .here (.inr ⟨rfl, rfl, he⟩) (by rw [get?_define σ name name v he, if_pos ⟨rfl, rfl⟩])

theorem Runs.define {P : Value → Scene → Prop} (hlimit : cfg.stepLimit = none)
    (hdefine : σ.Sees "$define!" (.primitive (.form .define)) e) (hd : d + 1 ≤ D)
    (ht : σ.Runs cfg (n + 1) d t e P)
    (hQ : ∀ v τ, P v τ → Q .inert (τ.define e name v)) (hnew : ∀ v τ, P v τ → ¬ τ.binding e name) :
    σ.Runs cfg (n + 2) D (list ["$define!", name, t]) e Q := by
  refine .operate hlimit hdefine rfl (by omega) fun τ operands hτ hoperands => ?_
  intro υ hυ room hroom
  obtain ⟨room, rfl⟩ : ∃ k, room = k + 1 := ⟨room - 1, by omega⟩
  obtain ⟨_, _, hitems, hvs, hlast⟩ := (hoperands.onward hυ.onward).items [name, t]
  cases hlast
  obtain ⟨x, _, hx, hvs₁, rfl⟩ := List.forall₂_cons_right_iff.mp hvs
  obtain ⟨y, _, hy, hvs₂, rfl⟩ := List.forall₂_cons_right_iff.mp hvs₁
  cases hvs₂
  cases hx
  obtain ⟨v, φ, hv, hφ, hP⟩ := ht υ (hτ.trans hυ) y hy room (by omega)
  have hlt := Nat.lt_of_lt_of_le hdefine.frame_lt ((hτ.trans hυ).onward.trans hφ).evolves.frames
  exact ⟨.inert, φ.define e name v, calls_define (hitems.spine? rfl) rfl hv,
    hφ.trans (onward_define (hnew v φ hP) hlt), hQ v φ hP⟩

end Scene

namespace Library

/-- Whether `$vau` accepts the formal parameters. -/
def accepted (formals : Tree) (dynamic : Value) : Bool :=
  match formals.addNames [], dynamic with
  | .ok names, .sym name => name ∉ names
  | .ok _, .ignore => true
  | _, _ => false

def known (ds : List Definition) : List String :=
  Primitive.builtins.map Primitive.name ++ ds.map Definition.name

/-- Whether all that the code needs to be evaluated has been defined. -/
def Code.ready (ds : List Definition) : Code → Bool
  | .operative formals dynamic _ => accepted formals dynamic
  | .applicative formals dynamic _ => accepted formals dynamic
  | .procedure formals _ => accepted formals .ignore && decide (lambda ∈ ds)
  | .synonym name => decide (name ∈ known ds)

/-- Whether the definitions can be evaluated one after the other, each for a new name. -/
def readyFrom (ds : List Definition) : List Definition → Bool
  | [] => true
  | d :: rest => decide (d.name ∉ known ds) && Code.ready ds d.code && readyFrom (ds ++ [d]) rest

theorem definitions_ready : readyFrom [] definitions = true := by decide +kernel

theorem names_of_accepted {formals : Tree} {dynamic : Value}
    (h : accepted formals dynamic = true) : ∃ names, formals.addNames [] = .ok names ∧
      ∀ w, Operation.checkDynamic names dynamic w = .ok () w := by
  unfold accepted at h
  split at h
  · rename_i names name hnames
    have hnew : name ∉ names := of_decide_eq_true h
    refine ⟨names, hnames, fun w => ?_⟩
    rw [Operation.checkDynamic, if_neg hnew]
    rfl
  · rename_i names hnames
    exact ⟨names, hnames, fun w => rfl⟩
  · cases h

end Library

namespace Scene

open Library Vau.Tree

variable {σ τ : Scene} {cfg : Gauge} {n d D e root : Nat} {ds : List Definition}
  {formals body : Tree} {dynamic : Value} {Q : Value → Scene → Prop}

theorem Intact.known (h : σ.Intact root ds) {name : String} (hname : name ∈ known ds) :
    ∃ v, σ.Sees name v root := by
  rcases List.mem_append.mp hname with hname | hname
  · obtain ⟨p, hp, rfl⟩ := List.mem_map.mp hname
    obtain ⟨v, -, hv⟩ := h.primitive p hp
    exact ⟨v, hv⟩
  · obtain ⟨d, hd, rfl⟩ := List.mem_map.mp hname
    obtain ⟨v, -, hv⟩ := h.defined d hd
    exact ⟨v, hv⟩

theorem Runs.vau (hlimit : cfg.stepLimit = none)
    (hvau : σ.Sees "$vau" (.primitive (.operation .vau)) e)
    (haccepted : accepted formals dynamic = true) (hD : 1 ≤ D)
    (hQ : ∀ τ q, σ.Grown τ → τ.Written q e formals dynamic body → Q (.operative q) τ) :
    σ.Runs cfg (n + 2) D (list ["$vau", formals, .leaf dynamic, body]) e Q := by
  obtain ⟨names, hnames, hdynamic⟩ := names_of_accepted haccepted
  refine .operate hlimit hvau rfl hD fun τ operands hτ hoperands => ?_
  obtain ⟨x, _, z, hitems, hx, ⟨⟩, hz⟩ := hoperands.three
  exact .vau hitems hx hz hnames hdynamic fun υ q hυ => hQ υ q (hτ.trans hυ)

/-- The code of a definition comes to what it is to be made into. -/
theorem Runs.made (hlimit : cfg.stepLimit = none) (h : σ.Intact root ds) {c : Code}
    (hready : Code.ready ds c = true) :
    σ.Runs cfg 8 5 (Code.form c) root fun v τ => σ.Grown τ ∧ τ.Made root v c := by
  have hvau := h.unwrapped (p := .operation .vau) (by decide) rfl
  cases c with
  | operative formals dynamic body =>
    exact .vau (n := 6) hlimit hvau hready (by omega) fun τ q hτ hq => ⟨hτ, q, rfl, hq⟩
  | applicative formals dynamic body =>
    obtain ⟨_, hwrap⟩ := h.wrapped (p := .operation .wrap) (by decide) rfl
    refine .apply (n := 6) (d := 4) hlimit hwrap rfl (by simp) (by omega) fun τ hτ => ?_
    refine .vau (n := 5) hlimit (hvau.onward hτ.onward) hready (by omega) fun υ q hυ hq => ?_
    exact .wrap rfl fun φ label hφ =>
      ⟨hτ.trans (hυ.trans hφ), q, label, rfl, hq.onward hφ.onward⟩
  | procedure formals body =>
    obtain ⟨haccepted, hlambda⟩ := Bool.and_eq_true_iff.mp hready
    obtain ⟨names, hnames, -⟩ := names_of_accepted haccepted
    exact .lambda (n := 0) hlimit h (of_decide_eq_true hlambda) (fun _ hv => hv) hnames
      (fun τ q label hτ hq => ⟨hτ, q, label, rfl, hq⟩) (by omega)
  | synonym name =>
    obtain ⟨v, hv⟩ := h.known (of_decide_eq_true hready)
    exact .symbol (n := 7) hlimit hv fun τ hτ => ⟨hτ, hv.onward hτ.onward⟩

/-- The definitions have been evaluated, and no other name of the root environment is held. -/
structure Stage (σ : Scene) (root : Nat) (ds : List Definition) : Prop where
  intact : σ.Intact root ds
  known : ∀ name, σ.binding root name → name ∈ known ds

/-- One more definition is evaluated. -/
theorem Stage.define (hlimit : cfg.stepLimit = none) (h : σ.Stage root ds) {d : Definition}
    (hnew : d.name ∉ Library.known ds) (hready : Code.ready ds d.code = true) :
    σ.Runs cfg 9 6 (form d) root fun _ τ => τ.Stage root (ds ++ [d]) := by
  have hdefine := h.intact.unwrapped (p := .form .define) (by decide) rfl
  have hold : ∀ {τ name}, σ.Grown τ → τ.binding root name → name ∈ Library.known ds := by
    intro τ name hτ hb
    rcases (hτ.binding root name).mp hb with hb | hb
    · exact h.known name hb
    · exact absurd hb.1 (Nat.not_le_of_lt h.intact.lt)
  refine .define (n := 7) hlimit hdefine (Nat.le_refl _) (.made hlimit h.intact hready) ?_
    fun v τ hτ hb => hnew (hold hτ.1 hb)
  rintro v τ ⟨hτ, hmade⟩
  have hlt := (h.intact.onward hτ.onward).lt
  have hυ := τ.onward_define (v := v) (fun hb => hnew (hold hτ hb)) hlt
  have hintact := h.intact.onward (hτ.onward.trans hυ)
  refine ⟨⟨hintact.lt, hintact.primitive, fun d' hd' => ?_⟩, fun name hb => ?_⟩
  · rcases List.mem_append.mp hd' with hd' | hd'
    · exact hintact.defined d' hd'
    · obtain rfl := List.mem_singleton.mp hd'
      exact ⟨v, hmade.onward hυ, τ.sees_define _ v hlt⟩
  · rw [Library.known, List.map_append, ← List.append_assoc]
    rcases hb with hb | ⟨-, rfl, -⟩
    · exact List.mem_append_left _ (hold hτ hb)
    · exact List.mem_append_right _ (List.mem_singleton.mpr rfl)

/-- The definitions that are left are evaluated as a program. -/
theorem Stage.program {cfg : Settings} (hlimit : cfg.stepLimit = none) (hfuel : 9 ≤ cfg.fuel)
    (hroom : 6 ≤ cfg.room) (h : σ.Stage root ds) {todo : List Definition} (hready : readyFrom ds todo = true)
    {forms : List Value} (hforms : List.Forall₂ σ.Holds forms (todo.map form)) (last : Value)
    {m : Machine} (hm : m.world = σ.world) :
    ∃ v m', ∃ τ : Scene, runProgram cfg root forms last m = .ok v m' ∧ m'.world = τ.world ∧
      τ.Stage root (ds ++ todo) := by
  induction todo generalizing σ ds forms last m with
  | nil =>
    cases hforms
    exact ⟨last, m, σ, rfl, hm, by rwa [List.append_nil]⟩
  | cons d todo ih =>
    simp only [readyFrom, Bool.and_eq_true, decide_eq_true_eq] at hready
    obtain ⟨⟨hnew, hcode⟩, hrest⟩ := hready
    cases hforms with
    | @cons f _ fs _ hform hforms =>
    obtain ⟨v, τ, ⟨_, hcounted, hv⟩, hτ, hstage⟩ :=
      h.define (show (Gauge.mk cfg true).stepLimit = none from hlimit) hnew hcode σ (.refl σ) _ hform
        cfg.room hroom
    obtain rfl := hcounted rfl
    obtain ⟨m₁, hrun, hm₁⟩ := hv cfg.fuel hfuel m.reset.stack.size m.reset hm
    obtain ⟨v', m₂, υ, hrest', hm₂, hend⟩ :=
      ih hstage hrest (hforms.imp fun _ _ hheld => hheld.onward hτ) v hm₁
    refine ⟨v', m₂, υ, ?_, hm₂, by rwa [List.append_assoc] at hend⟩
    have hevaluate : evaluate cfg f root m.reset = .ok v m₁ := hrun
    have hprogram : runProgram cfg root (f :: fs) last m =
        (evaluate cfg f root >>= runProgram cfg root fs) m.reset := rfl
    rw [hprogram]
    simp only [Bind.bind, EStateM.bind, hevaluate, hrest']

end Scene

theorem Scene.Holds.of_unfolds {σ : Scene} (hall : ∀ r < σ.store.cells.size, σ.cell r) {v : Value}
    {t : Tree} (h : σ.store.Unfolds v t) : σ.Holds v t := by
  induction h with
  | leaf hv => exact .leaf hv
  | node hr _ _ ihh iht => exact .node (hall _ hr) ihh iht

namespace Session

open Library Scene

/-- The session with data loaded: all pairs and the names of the primitives are held. -/
def loaded (s : Session) (hroot : s.root < s.machine.store.frames.size) (data : List Datum) :
    Scene where
  world := { s.machine.world with store := (s.machine.store.loadAll data).2 }
  cell r := r < (s.machine.store.loadAll data).2.cells.size
  spine _ := False
  binding e name := e = s.root ∧ name ∈ known []
  cell_lt h := h
  spine_lt h := h.elim
  frame_lt h := by
    rw [Store.loadAll_eq, h.1]
    exact hroot

variable {s : Session}

theorem stage_loaded (hroot : s.root < s.machine.store.frames.size) (hbound : ∀ p ∈
      Primitive.builtins, ∃ v, fits p v = true ∧
        (s.machine.store.frame s.root).get? p.name = some v) (data : List Datum) :
    (s.loaded hroot data).Stage s.root [] where
  intact := by
    have hlt : s.root < (s.loaded hroot data).store.frames.size := by
      show s.root < (s.machine.store.loadAll data).2.frames.size
      rwa [Store.loadAll_eq]
    refine ⟨hlt, fun p hp => ?_, List.forall_mem_nil _⟩
    obtain ⟨v, hfits, hv⟩ := hbound p hp
    refine ⟨v, hfits, .here ⟨rfl, List.mem_append_left _ (List.mem_map_of_mem hp)⟩ ?_⟩
    show ((s.machine.store.loadAll data).2.frame s.root).get? p.name = some v
    rwa [Store.loadAll_eq]
  known _ h := h.2

/-- Without a limit of steps the prelude loads, and leaves the root environment intact. -/
theorem loadPrelude_intact (hlimit : s.settings.stepLimit = none) (hfuel : 9 ≤ s.settings.fuel)
    (hroom : 6 ≤ s.settings.room) (hroot : s.root < s.machine.store.frames.size)
    (hbound : ∀ p ∈ Primitive.builtins, ∃ v, fits p v = true ∧
      (s.machine.store.frame s.root).get? p.name = some v) :
    ∃ m, ∃ σ : Scene, s.loadPrelude = .ok { s with machine := m } ∧ m.world = σ.world ∧
      σ.Intact s.root definitions := by
  obtain ⟨data, hread, hforms⟩ := read_prelude "core"
  have hheld : List.Forall₂ (s.loaded hroot data).Holds (s.machine.store.loadAll data).1
      (definitions.map form) := by
    rw [← hforms]
    obtain ⟨-, hunfolds⟩ := Store.loadAll_unfolds (Prod.eta (s.machine.store.loadAll data)).symm
    exact hunfolds.imp fun _ _ h => .of_unfolds (fun _ hr => hr) h
  obtain ⟨v, m, τ, hrun, hm, hstage⟩ := (stage_loaded hroot hbound data).program hlimit hfuel hroom
    definitions_ready hheld .inert
    (m := { s.machine with world := (s.loaded hroot data).world }) rfl
  have hprogram : s.program data s.machine = .ok v m := hrun
  refine ⟨m.reset, τ, ?_, hm, hstage.intact⟩
  rw [loadPrelude, hread]
  simp only [load, hprogram]

theorem start_of_bare {store : Store} {limit : Option Int} {supplied : List Supplied}
    (h : bare store limit supplied = .ok s) : start store limit true supplied = s.loadPrelude := by
  simp only [start, h, Bind.bind, Except.bind, if_true]

theorem start_sound {limit : Option Int} (h : start .empty limit true [] = .ok s) : ∃ x, s.Sound x := by
  have hprelude : (plain limit).Next s := .prelude ((start_of_bare (bare_plain limit)).symm.trans h)
  obtain ⟨x, hx, -⟩ :=
    sound_of_steps (sound_bare (List.forall_mem_nil _) (bare_plain limit)) (.single hprelude)
  exact ⟨x, hx⟩

theorem plain_bound : 0 < (plain none).machine.store.frames.size ∧
    Primitive.builtins.all (fun p =>
      (((plain none).machine.store.frame 0).get? p.name).any (fits p)) = true := by
  decide +kernel

/-- A session that starts with the prelude has it in its root environment. -/
theorem start_intact : ∃ (s : Session) (σ : Scene), start .empty none true [] = .ok s ∧
    s.settings = (plain none).settings ∧ s.machine.world = σ.world ∧
    σ.Intact s.root definitions := by
  have hbound : ∀ p ∈ Primitive.builtins, ∃ v, fits p v = true ∧
      ((plain none).machine.store.frame 0).get? p.name = some v := by
    intro p hp
    obtain ⟨v, hv, hfits⟩ :=
      (Option.any_eq_true _ _).mp (List.all_eq_true.mp plain_bound.2 p hp)
    exact ⟨v, hfits, hv⟩
  obtain ⟨m, σ, hload, hm, hσ⟩ :=
    loadPrelude_intact (s := plain none) rfl (by decide) (by decide) plain_bound.1 hbound
  exact ⟨_, σ, (start_of_bare (bare_plain none)).trans hload, rfl, hm, hσ⟩

end Session

end Vau
