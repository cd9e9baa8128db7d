import Vau.Proofs.Boundary
import Vau.Proofs.Insensitivity
import Vau.Proofs.Renaming
import Vau.Proofs.Splicing

/-! Splitting a script. The pairs of a script that is run in two halves are made in another order
than those of the whole script: the second half is read before the first is run, or after. That is
all the difference there is. -/

namespace Vau

/-- The names of pairs from `a` on are kept free for `k` more. -/
def shifted (a k n : Nat) : Nat := if n < a then n else n + k

theorem shifted_of_lt {a k n : Nat} (h : n < a) : shifted a k n = n := if_pos h

theorem shifted_of_le {a k n : Nat} (h : a ≤ n) : shifted a k n = n + k := if_neg (by omega)

theorem shifted_injective (a k : Nat) : (shifted a k).Injective := by
  intro m n h
  simp only [shifted] at h
  split at h <;> split at h <;> omega

/-- The `k` names from `b` on come before those from `a` up to `b`. -/
def rotated (a b k n : Nat) : Nat :=
  if n < a then n else if n < b then n + k else if n < b + k then n - b + a else n

theorem rotated_of_lt {a b k n : Nat} (hn : n < b) : rotated a b k n = shifted a k n := by
  simp only [rotated, shifted, hn, if_true]

theorem rotated_add {a b k i : Nat} (hab : a ≤ b) (hi : i < k) : rotated a b k (b + i) = a + i := by
  rw [rotated, if_neg (by omega), if_neg (by omega), if_pos (by omega)]
  omega

theorem rotated_of_le {a b k n : Nat} (hab : a ≤ b) (hn : b + k ≤ n) : rotated a b k n = n := by
  rw [rotated, if_neg (by omega), if_neg (by omega), if_neg (by omega)]

def rotation (a b k : Nat) (hab : a ≤ b) : Equiv.Perm Nat where
  toFun := rotated a b k
  invFun n := if n < a then n else if n < a + k then n - a + b else if n < b + k then n - k else n
  left_inv n := by
    simp only [rotated]
    repeat' split
    all_goals omega
  right_inv n := by
    simp only [rotated]
    repeat' split
    all_goals omega

/-- The functions of the host take no notice of which pairs they are given. -/
def Settings.Oblivious (cfg : Settings) : Prop :=
  ∀ (c : Course) (ρ : Nat → Nat), ρ.Injective → c.link = .renaming ρ → c.Upheld → cfg.Tied c

theorem runProgram_append (cfg : Settings) (root : Nat) (forms forms' : List Value) (last : Value) :
    runProgram cfg root (forms ++ forms') last = (do
      let v ← runProgram cfg root forms last
      runProgram cfg root forms' v) := by
  induction forms generalizing last with
  | nil => rfl
  | cons form rest ih =>
    funext m
    simp only [List.cons_append, runProgram, ih, bind_assoc]

/-- The first form of a program clears the call stack and the step count. -/
theorem runProgram_reset (cfg : Settings) (root : Nat) {forms : List Value} (hforms : forms ≠ [])
    (last last' : Value) (m : Machine) :
    runProgram cfg root forms last m = runProgram cfg root forms last' m.reset := by
  cases forms with
  | nil => exact absurd rfl hforms
  | cons form rest => rfl

namespace Store

variable {x : Extent} {s t : Store}

/-- What the operatives of a sound store are under a renaming of its pairs. -/
theorem Sound.operative_rename (h : s.Sound x) {ρ σ : Nat → Nat} (hρ : ∀ r < x.cells, ρ r = σ r)
    (r : Nat) : (s.operative r).rename ρ = (s.operative r).rename σ := by
  by_cases hr : r < x.operatives
  · exact (h.operative hr).rename_congr hρ
  · have hnone : s.operative r = ⟨0, .nil, .nil, [], none⟩ := by
      simp [Store.operative, show s.operatives.size ≤ r by rw [h.operatives_size]; omega]
    rw [hnone]
    rfl

/-- A store is linked to itself with more pairs, as long as no walk is endless in it. -/
theorem Sound.linked_more (h : s.Sound x) {k : Nat} (hsize : t.cells.size = s.cells.size + k)
    (hcells : ∀ r < s.cells.size, (t.cell r).unplaced = (s.cell r).unplaced)
    (hrest : t = { s with cells := t.cells }) :
    s.Linked ⟨.renaming (shifted s.cells.size k), (· = .endless)⟩ t := by
  have hfixed : ∀ r < x.cells, shifted s.cells.size k r = r :=
    fun r hr => shifted_of_lt (h.cells_size ▸ hr)
  have hframes : t.frames = s.frames := by rw [hrest]
  have hoperatives : t.operatives = s.operatives := by rw [hrest]
  refine .of_rename (.inr ⟨by omega, rfl⟩) (fun i => ?fresh) (fun r => ?cell)
    (by rw [hframes]) (fun e => ?frame) (by rw [hoperatives]) (fun r => ?operative) (by rw [hrest])
  case fresh =>
    rw [shifted_of_le (Nat.le_add_right _ _)]
    omega
  case cell =>
    by_cases hr : r < s.cells.size
    · rw [(h.cell r).rename_congr hfixed, Cell.rename_id, shifted_of_lt hr]
      exact hcells r hr
    · rw [shifted_of_le (by omega), cell_of_le (by omega), cell_of_le (by omega)]
      rfl
  case frame =>
    rw [(h.frame e).rename_congr hfixed, Frame.rename_id, Store.frame, hframes]
    rfl
  case operative =>
    rw [h.operative_rename hfixed, Operative.rename_id, Store.operative, hoperatives]
    rfl

/-- Data that are loaded last in one store and were loaded before the last pairs in the other. -/
theorem Sound.linked_late (h : s.Sound x) {u : Store} {data : List Datum} {quits : Stop → Prop}
    (hu : u.cells.size ≤ s.cells.size)
    (hlinked : s.Linked ⟨.renaming (shifted u.cells.size (Datum.totalPairs data)), quits⟩ t)
    (hspared : ∀ i < Datum.totalPairs data,
      (t.cell (u.cells.size + i)).unplaced = ((u.loadAll data).2.cell (u.cells.size + i)).unplaced) :
    (s.loadAll data).2.Linked ⟨.renaming (rotation u.cells.size s.cells.size
      (Datum.totalPairs data) hu), fun _ => False⟩ t := by
  generalize hk : Datum.totalPairs data = k at hlinked hspared ⊢
  have hlow : ∀ r < x.cells, shifted u.cells.size k r = rotation u.cells.size s.cells.size k hu r :=
    fun r hr => (rotated_of_lt (h.cells_size ▸ hr)).symm
  have hloaded : (s.loadAll data).2.cells.size = s.cells.size + k := hk ▸ s.size_loadAll data
  have hsize : t.cells.size = s.cells.size + k := by
    have hfresh : t.cells.size = shifted u.cells.size k s.cells.size := hlinked.freshCell 0
    rwa [shifted_of_le hu] at hfresh
  have hkeeps := s.keeps_loadAll data
  have hrest := s.loadAll_eq data
  have hframes : (s.loadAll data).2.frames = s.frames := by rw [hrest]
  have hoperatives : (s.loadAll data).2.operatives = s.operatives := by rw [hrest]
  refine .of_rename (.inl (by omega)) (fun i => ?fresh) (fun r => ?cell) (hframes ▸ hlinked.frames)
    (fun e => ?frame) (hoperatives ▸ (hlinked.freshOperative 0).symm) (fun r => ?operative)
    (hrest ▸ hlinked.wrappers)
  case fresh =>
    rw [hsize, hloaded]
    exact (rotated_of_le hu (Nat.le_add_right _ _)).symm
  case cell =>
    rcases Nat.lt_or_ge r s.cells.size with hr | hr
    · -- a pair of before, where the first run has it
      rw [hkeeps.2 r hr, ← (h.cell r).rename_congr hlow, ← hlow r (h.cells_size ▸ hr)]
      have hhead := eq_rename (hlinked.head (r := r) rfl)
      have htail := eq_rename (hlinked.tail (r := r) rfl)
      simp only [Store.head, Store.tail] at hhead htail
      simp only [Cell.unplaced, Cell.rename, hhead, htail]
    · rcases Nat.lt_or_ge r (s.cells.size + k) with hlt | hge
      · obtain ⟨i, rfl⟩ : ∃ i, r = s.cells.size + i := ⟨r - s.cells.size, by omega⟩
        have hi : i < k := by omega
        obtain ⟨-, hcells⟩ := s.loadAll_rename u data (ρ := rotation u.cells.size s.cells.size k hu)
          fun i hi => rotated_add hu (hk ▸ hi)
        rw [show rotation u.cells.size s.cells.size k hu (s.cells.size + i) = u.cells.size + i from
          rotated_add hu hi, hspared i hi, hcells i (hk ▸ hi)]
      · rw [show rotation u.cells.size s.cells.size k hu r = r from rotated_of_le hu hge,
          cell_of_le (by omega), cell_of_le (by omega)]
        rfl
  case frame =>
    have hframe := frame_eq_rename (hlinked.frame (e := e) rfl)
    rw [hframe, (h.frame e).rename_congr hlow, Store.frame, Store.frame, hframes]
  case operative =>
    have hoperative := operative_eq_rename (hlinked.operative (r := r) rfl)
    rw [hoperative, h.operative_rename hlow, Store.operative, Store.operative, hoperatives]

end Store

section Describing

variable {c : Terms} (hstays : ∀ e, ¬ c.quits e)
include hstays

theorem mapM_print_eq {s s' : Store} (h : s.Linked c s') (st : Style) {vs vs' : List Value}
    (hvs : List.Forall₂ (Value.Linked c.link) vs vs') : vs'.mapM (s'.print st) = vs.mapM (s.print st) := by
  induction hvs with
  | nil => rfl
  | cons hv _ ih => rw [List.mapM_cons, List.mapM_cons, h.print_eq st hstays hv, ih]

/-- Failures that correspond are described alike. -/
theorem describe_linked {s s' : Store} (h : s.Linked c s') {f f' : Failure}
    (hf : f.Linked c.link f') : f'.describe s' = f.describe s := by
  have hdescribe : ∀ {v v' : Value}, v.Linked c.link v' → s'.describe v' = s.describe v :=
    fun hv => h.print_eq _ hstays hv
  cases hf with
  | user message hvs =>
    have htexts := mapM_print_eq hstays h (.within describedWidth) hvs
    simp only [Failure.describe, Store.describeAll]
    rw [show s'.describe = s'.print (.within describedWidth) from rfl,
      show s.describe = s.print (.within describedWidth) from rfl, htexts]
  | arity wanted hv | notCombinable hv | typeMismatch wanted hv =>
    simp only [Failure.describe, hdescribe hv]
  | shape hp hv => simp only [Failure.describe, hdescribe hp, hdescribe hv]
  | _ => rfl

theorem stackTrace_linked {m m' : Machine} (h : m.store.Linked c m'.store)
    (hstack : List.Forall₂ (Value.Linked c.link) m.stack.toList m'.stack.toList) (depth : Int) :
    stackTrace m' depth = stackTrace m depth := by
  have hlength := hstack.length_eq
  have hframes : List.Forall₂ (Value.Linked c.link) (tracedFrames depth m.stack.toList)
      (tracedFrames depth m'.stack.toList) := by
    unfold tracedFrames
    rw [hlength]
    split <;> exact List.forall₂_drop _ hstack
  have hempty : m'.stack.toList.isEmpty = m.stack.toList.isEmpty := by
    rw [Bool.eq_iff_iff, List.isEmpty_iff, List.isEmpty_iff, ← List.length_eq_zero_iff,
      ← List.length_eq_zero_iff, hlength]
  simp only [stackTrace, hempty, mapM_print_eq hstays h (.within frameWidth) hframes, hlength]

end Describing

theorem Failure.Linked.kind_eq {l : Link} {f f' : Failure} (h : f.Linked l f') : f'.kind = f.kind := by
  cases h <;> rfl

namespace Session

variable {x : Extent} {s : Session} {data data' joined : List Datum}

/-- What is loaded of two texts at once is what is loaded of them one after the other, but for
where it was written. -/
theorem loadAll_joined (s : Store)
    (h : joined.map Datum.unplaced = (data ++ data').map Datum.unplaced) :
    (s.loadAll joined).1 = (s.loadAll data).1 ++ ((s.loadAll data).2.loadAll data').1 ∧
      (s.loadAll joined).2.unplaced = ((s.loadAll data).2.loadAll data').2.unplaced := by
  have hjoined := s.loadAll_unplaced joined
  rw [h, s.loadAll_unplaced, Store.loadAll_append] at hjoined
  obtain ⟨hforms, hstore⟩ := Prod.mk.inj hjoined
  exact ⟨hforms.symm, hstore.symm⟩

section Halves

variable (hs : s.Sound x) (hcfg : s.settings.Oblivious)
  (hjoined : joined.map Datum.unplaced = (data ++ data').map Datum.unplaced)
include hs hcfg hjoined

/-- The first half runs alike before and after the second half has been read. -/
theorem first_half {v₁ : Value} {m₁ : Machine}
    (hfirst : s.program data (cleared s.machine) = .ok v₁ m₁) :
    ∃ v m, runProgram s.settings s.root (s.machine.store.loadAll data).1 .inert
        { cleared s.machine with world := ⟨(s.machine.store.loadAll joined).2, #[]⟩ } = .ok v m ∧
      (Course.renaming (shifted (s.machine.store.loadAll data).2.cells.size
        (Datum.totalPairs data')) (· = .endless) #[]
        (s.machine.store.loadAll joined).2).Machines m₁ m := by
  obtain ⟨y, hy, hsound, hforms⟩ := hs.store.loadAll data
  obtain ⟨-, hunplaced⟩ := loadAll_joined s.machine.store hjoined
  generalize hA : s.machine.store.loadAll data = A at hsound hforms hunplaced ⊢
  generalize hW : (s.machine.store.loadAll joined).2 = W at hunplaced ⊢
  have hk := A.2.size_loadAll data'
  have hsize : W.cells.size = A.2.cells.size + Datum.totalPairs data' := by
    rw [← hk, ← Store.size_unplaced (s := W), hunplaced, Store.size_unplaced]
  have hcells : ∀ r < A.2.cells.size, (W.cell r).unplaced = (A.2.cell r).unplaced := by
    intro r hr
    rw [← Store.cell_unplaced, hunplaced, Store.cell_unplaced, (A.2.keeps_loadAll data').2 r hr]
  have hrest : W = { A.2 with cells := W.cells } := by
    rw [← hW, ← hA, Store.loadAll_eq s.machine.store joined, Store.loadAll_eq s.machine.store data]
  have hlinked := hsound.linked_more hsize hcells hrest
  have hupheld := Course.upheld_renaming (shifted_injective A.2.cells.size
    (Datum.totalPairs data')) (· = .endless) #[] W
  have hfixed : A.1.map (Value.rename (shifted A.2.cells.size (Datum.totalPairs data'))) = A.1 := by
    rw [map_rename_congr (fun r hr => shifted_of_lt (hsound.cells_size ▸ hr)) hforms,
      show Value.rename (fun r => r) = id from funext Value.rename_id, List.map_id]
  have hlist := linked_map_rename (ρ := shifted A.2.cells.size (Datum.totalPairs data')) A.1
  rw [hfixed] at hlist
  have htied := tied_runProgram hupheld.kept (hcfg _ _ (shifted_injective _ _) rfl hupheld)
    (Eq.refl s.root) hlist .inert { cleared s.machine with world := ⟨A.2, #[]⟩ }
    { cleared s.machine with world := ⟨W, #[]⟩ }
    ⟨⟨hlinked, rfl, Nat.le_refl _, fun _ _ _ => rfl⟩, .nil, rfl⟩
  have hrun : runProgram s.settings s.root A.1 .inert
      { cleared s.machine with world := ⟨A.2, #[]⟩ } = .ok v₁ m₁ := by
    rw [← hfirst, program_eq]
    simp only [← hA]
    rfl
  rw [hrun] at htied
  generalize runProgram s.settings s.root A.1 .inert
    { cleared s.machine with world := ⟨W, #[]⟩ } = r at htied ⊢
  cases htied with
  | ok _ hm => exact ⟨_, _, rfl, hm⟩

omit hs in
/-- The second half runs alike whether it is read before or after the first half has run. -/
theorem second_half (hne : data' ≠ []) {y : Extent} {m₁ m : Machine} (v : Value)
    (hsound : m₁.store.Sound y)
    (hle : (s.machine.store.loadAll data).2.cells.size ≤ m₁.store.cells.size)
    (hm : (Course.renaming (shifted (s.machine.store.loadAll data).2.cells.size
      (Datum.totalPairs data')) (· = .endless) #[]
      (s.machine.store.loadAll joined).2).Machines m₁ m) :
    let c := Course.renaming (rotation (s.machine.store.loadAll data).2.cells.size
      m₁.store.cells.size (Datum.totalPairs data') hle) (fun _ => False) m₁.world.effects .empty
    c.Ends c.Machines (Value.Linked c.link) (s.program data' (cleared m₁))
      (runProgram s.settings s.root ((s.machine.store.loadAll data).2.loadAll data').1 v m) := by
  obtain ⟨-, hunplaced⟩ := loadAll_joined s.machine.store hjoined
  generalize s.machine.store.loadAll data = A at hm hle hunplaced ⊢
  generalize (s.machine.store.loadAll joined).2 = W at hm hunplaced
  intro c
  obtain ⟨⟨hlinked, heffects, -, hspared⟩, -, -⟩ := hm
  have hk := A.2.size_loadAll data'
  have hsize : W.cells.size = A.2.cells.size + Datum.totalPairs data' := by
    rw [← hk, ← Store.size_unplaced (s := W), hunplaced, Store.size_unplaced]
  have hlate := hsound.linked_late hle hlinked fun i hi => by
    rw [hspared _ (by omega) fun n => ?_, ← Store.cell_unplaced, hunplaced, Store.cell_unplaced]
    simp only [shifted]
    split <;> omega
  have hupheld : c.Upheld := Course.upheld_renaming (Equiv.injective _) _ _ _
  have hforms : ((m₁.store.loadAll data').1).map (Value.rename (rotation A.2.cells.size
      m₁.store.cells.size (Datum.totalPairs data') hle)) = (A.2.loadAll data').1 :=
    (m₁.store.loadAll_rename A.2 data' fun i hi => rotated_add hle hi).1.symm
  have hlist := linked_map_rename (ρ := rotation A.2.cells.size m₁.store.cells.size
    (Datum.totalPairs data') hle) (m₁.store.loadAll data').1
  rw [hforms] at hlist
  have hsome : (A.2.loadAll data').1 ≠ [] := by
    cases data' with
    | nil => exact absurd rfl hne
    | cons d ds => exact List.cons_ne_nil _ _
  rw [program_eq, runProgram_reset _ _ hsome v .inert]
  refine tied_runProgram hupheld.kept (hcfg c _ (Equiv.injective _) rfl hupheld) (Eq.refl s.root)
    hlist .inert _ _ ⟨⟨hlate, ?_, Nat.zero_le _, fun r hr => absurd hr (Nat.not_lt_zero r)⟩, .nil, rfl⟩
  simpa [cleared, Machine.reset] using heffects

/-- A program is run alike in two halves, the second read when the first has run, and as a whole. -/
theorem split_program (hne : data' ≠ []) {v₁ : Value} {m₁ : Machine}
    (hfirst : s.program data (cleared s.machine) = .ok v₁ m₁) :
    ∃ ρ : Equiv.Perm Nat,
      let c := Course.renaming ρ (fun _ => False) m₁.world.effects .empty
      c.Ends c.Machines (Value.Linked c.link) (s.program data' (cleared m₁))
        (s.program joined (cleared s.machine)) := by
  obtain ⟨y, hy, hsound, hforms⟩ := hs.store.loadAll data
  have hkeeps := keeps_runProgram (hs.keeps none) (hy.frame_lt hs.root) hforms
    (show Value.inert.In y from trivial) y
    { cleared s.machine with world := ⟨(s.machine.store.loadAll data).2, #[]⟩ } (.refl y) hsound
    fun _ hl => nomatch hl
  have hrun : runProgram s.settings s.root (s.machine.store.loadAll data).1 .inert
      { cleared s.machine with world := ⟨(s.machine.store.loadAll data).2, #[]⟩ } = .ok v₁ m₁ :=
    hfirst
  rw [hrun] at hkeeps
  obtain ⟨z, hz, hend : m₁.store.Sound z⟩ := hkeeps.sound
  have hle : (s.machine.store.loadAll data).2.cells.size ≤ m₁.store.cells.size := by
    rw [hsound.cells_size, show m₁.store.cells.size = z.cells from hend.cells_size]
    exact hz.cells
  obtain ⟨v, m, hsame, hm⟩ := first_half hs hcfg hjoined hfirst
  have hsecond := second_half hcfg hjoined hne v hend hle hm
  refine ⟨rotation _ _ (Datum.totalPairs data') hle, ?_⟩
  have hwhole : s.program joined (cleared s.machine) =
      runProgram s.settings s.root ((s.machine.store.loadAll data).2.loadAll data').1 v m := by
    rw [program_eq s joined, show (cleared s.machine).store = s.machine.store from rfl,
      (loadAll_joined s.machine.store hjoined).1, runProgram_append]
    simp only [Bind.bind, EStateM.bind]
    rw [show (runProgram s.settings s.root (s.machine.store.loadAll data).1 .inert
      { cleared s.machine with
        world := { (cleared s.machine).world with store := (s.machine.store.loadAll joined).2 } }) =
      .ok v m from hsame]
  rw [hwhole]
  exact hsecond

end Halves

/-- Two results of a script that agree in everything but in where their pairs are and were written:
a value, the kind, the description and the trace of a failure, or what else was raised. -/
inductive Resembles (ρ : Nat → Nat) (source source' : String) (depth : Int) :
    Outcome → Machine → Outcome → Machine → Prop
  | success {v : Value} {m m' : Machine} :
    Resembles ρ source source' depth (.success v) m (.success (v.rename ρ)) m'
  | failure {f f' : Failure} {text trace : String} {m m' : Machine} {l l' : Option Location}
    (hkind : f'.kind = f.kind) (htext : f.describe m.store = .ok text)
    (htext' : f'.describe m'.store = .ok text) (htrace : stackTrace m depth = .ok trace)
    (htrace' : stackTrace m' depth = .ok trace) :
    Resembles ρ source source' depth
      (.failure f.kind (reportText f.kind text (placeText source l) trace) l)
      (recordError m (reportText f.kind text (placeText source l) trace))
      (.failure f'.kind (reportText f'.kind text (placeText source' l') trace) l')
      (recordError m' (reportText f'.kind text (placeText source' l') trace))
  | raised {e : Stop} {m m' : Machine} :
    Resembles ρ source source' depth (.raised e) m (.raised e) m'

def stdout (m : Machine) : Array Effect := m.world.effects.filter (·.channel = .stdout)

theorem stdout_recordError (m : Machine) (message : String) :
    stdout (recordError m message) = stdout m := by
  simp [stdout, recordError]

/-- What a script leaves of a session whose first half, or nothing, has had the effects in
`before`. -/
structure Continues (ρ : Nat → Nat) (before : Array Effect) (m m' : Machine) : Prop where
  store : m.store.Renamed ρ m'.store
  prints : ∀ st v, m'.store.print st (v.rename ρ) = m.store.print st v
  steps : m'.steps = m.steps
  stack : m'.stack.toList = m.stack.toList.map (Value.rename ρ)
  effects : stdout m' = before.filter (·.channel = .stdout) ++ stdout m

theorem resembles_runData {ρ : Nat → Nat} {before : Array Effect} (s s' : Session)
    (hdepth : s'.traceDepth = s.traceDepth) {data data' : List Datum}
    (h : (Course.renaming ρ (fun _ => False) before .empty).Ends
      (Course.renaming ρ (fun _ => False) before .empty).Machines (Value.Linked (.renaming ρ))
      (s.program data s.machine) (s'.program data' s'.machine)) (source source' : String) :
    Resembles ρ source source' s.traceDepth (s.runData source data).1
      (s.runData source data).2.machine (s'.runData source' data').1
      (s'.runData source' data').2.machine ∧
    Continues ρ before (s.runData source data).2.machine (s'.runData source' data').2.machine := by
  have hleft : ∀ {m m' : Machine}, (Course.renaming ρ (fun _ => False) before .empty).Machines m m' →
      Continues ρ before m m' := by
    rintro m m' ⟨⟨hstore, heffects, -⟩, hstack, hsteps⟩
    refine ⟨hstore.renamed, fun st v => hstore.print_eq st (fun _ => id) (linked_rename v), hsteps,
      ?_, ?_⟩
    · generalize m.stack.toList = vs, m'.stack.toList = vs' at hstack
      induction hstack with
      | nil => rfl
      | cons hv _ ih => rw [List.map_cons, ← ih, hv]
    · rw [stdout, stdout, heffects, Array.filter_append (by simp)]
  unfold runData
  generalize s.program data s.machine = r, s'.program data' s'.machine = r' at h ⊢
  cases h with
  | quit hq => exact absurd hq id
  | ok hv hm => exact ⟨eq_rename hv ▸ .success, hleft hm⟩
  | @error e e' m m' he hm =>
    have hm' := hleft hm
    obtain ⟨⟨hstore, -⟩, hstack, -⟩ := hm
    cases he with
    | digits | endless | outOfFuel => exact ⟨.raised, hm'⟩
    | @failure f f' hf =>
      have hframes : List.Forall₂ (Value.Linked (.renaming ρ)) m.stack.toList m'.stack.toList :=
        hstack.imp fun v v' hv => hv ▸ linked_rename v
      have htext : f'.describe m'.store = f.describe m.store :=
        describe_linked (fun _ => id) hstore hf
      have htrace := stackTrace_linked (fun _ => id) hstore hframes s.traceDepth
      simp only [hdepth, failureMessage_eq]
      cases ht : f.describe m.store with
      | error e =>
        rw [ht] at htext
        simp only [htext]
        exact ⟨.raised, hm'⟩
      | ok text =>
        rw [ht] at htext
        cases hs : stackTrace m s.traceDepth with
        | error e =>
          rw [hs] at htrace
          simp only [htext, htrace]
          exact ⟨.raised, hm'⟩
        | ok trace =>
          rw [hs] at htrace
          simp only [htext, htrace]
          exact ⟨.failure hf.kind_eq ht htext hs htrace, hm'.store, hm'.prints, hm'.steps, hm'.stack,
            (stdout_recordError m' _).trans
              (hm'.effects.trans (congrArg _ (stdout_recordError m _).symm))⟩

theorem program_of_success {s : Session} {source : String} {data : List Datum} {v : Value}
    (h : (s.runData source data).1 = .success v) : ∃ m, s.program data s.machine = .ok v m := by
  unfold runData at h
  cases hr : s.program data s.machine with
  | ok w m =>
    rw [hr] at h
    cases h
    exact ⟨m, rfl⟩
  | error e m =>
    rw [hr] at h
    cases e with
    | failure f =>
      simp only at h
      cases hmessage : failureMessage m s.traceDepth source f with
      | ok message =>
        rw [hmessage] at h
        cases h
      | error e =>
        rw [hmessage] at h
        cases h
    | _ => cases h

/-- A script that is read as two, the first of which succeeds, does what the two do one after the
other: it ends alike, with the same steps and frames, and leaves the same store with its pairs in
other places. What it displays is what the first has displayed before what the second displays.
This is so in every sound session, as the reachable ones are. -/
theorem split_script {x : Extent} {s : Session} (hs : s.Sound x) (hcfg : s.settings.Oblivious)
    {source source' : String} {data data' : List Datum}
    (hread : read scriptSource source = .ok data) (hread' : read scriptSource source' = .ok data')
    (hne : data' ≠ []) {v : Value} (hfirst : (s.run source).1 = .success v) :
    ∃ ρ : Equiv.Perm Nat,
      Resembles ρ source' (source ++ "\n" ++ source') s.traceDepth
        ((s.run source).2.run source').1 ((s.run source).2.run source').2.machine
        (s.run (source ++ "\n" ++ source')).1 (s.run (source ++ "\n" ++ source')).2.machine ∧
      Continues ρ (s.run source).2.machine.world.effects
        ((s.run source).2.run source').2.machine
        (s.run (source ++ "\n" ++ source')).2.machine := by
  obtain ⟨joined, hjoined, hsame⟩ := read_joined hread hread'
  rw [run_read hread] at hfirst
  obtain ⟨m₁, hprogram : s.program data (cleared s.machine) = .ok v m₁⟩ :=
    program_of_success hfirst
  obtain ⟨ρ, hends⟩ := split_program hs hcfg hsame hne hprogram
  refine ⟨ρ, ?_⟩
  rw [run_success hread hprogram, run_read hread', run_read hjoined]
  exact resembles_runData { s with machine := cleared m₁ } { s with machine := cleared s.machine } rfl
    hends source' (source ++ "\n" ++ source')

def displayingScript : String := "($define! p (cons 1 2)) (display p)"

def failingScript : String := "(set-head! p 3) (display p) (head 4)"

/-- A script that fails after one that succeeds, and the two as one script. -/
theorem split_script_failing :
    (plain none).Reachable [] ∧ (∃ x, (plain none).Sound x) ∧ (plain none).settings.Oblivious ∧
    ((plain none).run displayingScript).1 = .success .inert ∧
    (((plain none).run displayingScript).2.run failingScript).2.machine.stack.size = 1 ∧
    ∃ data data', read scriptSource displayingScript = .ok data ∧
      read scriptSource failingScript = .ok data' ∧ data' ≠ [] ∧
      ∃ ρ : Equiv.Perm Nat,
        Resembles ρ failingScript (displayingScript ++ "\n" ++ failingScript) (plain none).traceDepth
          (((plain none).run displayingScript).2.run failingScript).1
          (((plain none).run displayingScript).2.run failingScript).2.machine
          ((plain none).run (displayingScript ++ "\n" ++ failingScript)).1
          ((plain none).run (displayingScript ++ "\n" ++ failingScript)).2.machine ∧
        Continues ρ ((plain none).run displayingScript).2.machine.world.effects
          (((plain none).run displayingScript).2.run failingScript).2.machine
          ((plain none).run (displayingScript ++ "\n" ++ failingScript)).2.machine := by
  obtain ⟨x, hsound⟩ := (plain_reachable none).sound (List.forall_mem_nil _)
  have hoblivious : (plain none).settings.Oblivious :=
    fun _ _ _ _ _ f hf => absurd hf (plain_reachable none).no_functions
  obtain ⟨hfirst, hstack⟩ : ((plain none).run displayingScript).1 = .success .inert ∧
      (((plain none).run displayingScript).2.run failingScript).2.machine.stack.size = 1 := by
    decide +kernel
  have hread : ∀ text, ((read scriptSource text).toOption.getD []).isEmpty = false →
      ∃ data, read scriptSource text = .ok data ∧ data ≠ [] := by
    intro text h
    cases hr : read scriptSource text with
    | error e =>
      rw [hr] at h
      cases h
    | ok data =>
      rw [hr] at h
      exact ⟨data, rfl, fun hnil => by simp [Except.toOption, hnil] at h⟩
  obtain ⟨data, hdata, -⟩ := hread displayingScript (by decide +kernel)
  obtain ⟨data', hdata', hne⟩ := hread failingScript (by decide +kernel)
  exact ⟨plain_reachable none, ⟨x, hsound⟩, hoblivious, hfirst, hstack, data, data', hdata, hdata',
    hne, split_script hsound hoblivious hdata hdata' hne hfirst⟩

end Session

end Vau
