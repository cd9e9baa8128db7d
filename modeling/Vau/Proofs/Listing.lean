import Vau.Proofs.Dotted
import Vau.Proofs.Scoping

/-! The list functions of the prelude and the lists that they come to. Lists of whatever values are only
read, and what a function makes is made of new pairs; where its list does not have the shape that the
function needs, the evaluation fails with a type mismatch. -/

namespace Vau

namespace Scene

open Library Vau.Tree

/-- An evaluation that has come to a call of what the name stands for in `root` with the values comes to
a value with `P`; nothing has changed then, but there may be more. -/
def Gives (σ : Scene) (cfg : Settings) (root room : Nat) (name : String) (vs : List Value)
    (P : Value → Store → Prop) : Prop :=
  ∀ e r w, σ.Reaches cfg root room e r name vs w → ∃ v τ, σ.Grown τ ∧ P v τ.store ∧
    Evaluates cfg (room + 1) (.pair r) e w (.ok v τ.world)

/-- An evaluation that has come to a call of what the name stands for in `root` with the values fails
because a pair was needed where `v` was; nothing has changed then, but there may be more. -/
def Denies (σ : Scene) (cfg : Settings) (root room : Nat) (name : String) (vs : List Value)
    (v : Value) : Prop :=
  ∀ e r w, σ.Reaches cfg root room e r name vs w → ∃ τ, σ.Grown τ ∧
    Evaluates cfg (room + 1) (.pair r) e w (.error (.failure (.typeMismatch "pair" v)) τ.world)

variable {σ τ : Scene} {d e q r root room label : Nat} {last u v xs : Value} {vs : List Value}
  {lists : List Value} {vss : List (List Value)}

section Spreading

variable {cfg : Gauge} {n N D : Nat} {Q : Value → Scene → Prop} (hlimit : cfg.stepLimit = none)
  (h : σ.Intact root definitions)
include hlimit h

theorem Runs.isLast (hscope : σ.Scope e [("args", .pair r)] root) (hr : r < σ.store.cells.size)
    (hD : 2 ≤ D) (hQ : ∀ τ, σ.Grown τ → Q (.bool (σ.store.tail r == .nil)) τ) :
    σ.Runs cfg (n + 3) D (list ["null?", list ["tail", "args"]]) e Q := by
  obtain ⟨_, hnull⟩ := h.wrapped (p := .operation (.test .null)) (by decide) rfl
  refine .apply (d := 1) hlimit (hscope.sees_outer rfl hnull) rfl (by simp) hD fun τ hτ => ?_
  refine .tail hlimit (h.onward hτ.onward) (hscope.onward hτ.onward) rfl rfl
    (Nat.lt_of_lt_of_le hr hτ.larger.cells) (Nat.le_refl 1) fun υ hυ => ?_
  rw [hτ.tail hr]
  refine .reads rfl (fun _ _ _ _ => ?_) fun φ hφ => hQ φ (hτ.trans (hυ.trans hφ))
  cases σ.store.tail r <;> rfl

/-- `%list*` goes on with the code for its last argument, or with that for one before it. -/
theorem Invoked.spreading {b : Bool}
    (hname : σ.Sees "%list*" (.applicative label (.operative q)) root) (hr : r < σ.store.cells.size)
    (hb : (σ.store.tail r == .nil) = b)
    (hrest : ∀ τ f, σ.Grown τ → τ.Scope f [("args", .pair r)] root → τ.Runs cfg (n + 5) D
      (if b then list ["head", "args"]
        else list ["cons", list ["head", "args"], list ["%list*", list ["tail", "args"]]]) f Q)
    (hD : 4 ≤ D) : σ.Invoked cfg (n + 7) D (.operative q) [.pair r] e Q := by
  have hw := h.written (d := Library.spread) (by simp [definitions, parts]) rfl hname
  refine .procedure ["args"] hw h.lt rfl fun τ f hτ hscope => ?_
  refine .conditional (d := D - 2) hlimit (h.onward hτ.onward) (by simp [definitions, parts])
    (fun v => hscope.sees_outer rfl) ?_ (by omega) (by omega)
  refine .isLast hlimit (h.onward hτ.onward) hscope (Nat.lt_of_lt_of_le hr hτ.larger.cells) (by omega)
    fun υ hυ => ?_
  rw [hτ.tail hr, hb]
  exact ⟨b, rfl, hrest υ f (hτ.trans hυ) (hscope.onward hυ.onward)⟩

/-- `%list*` makes a chain of the values, with the last of its arguments for the rest. Each value but
that takes a nested activation. -/
theorem Invoked.spread (hname : σ.Sees "%list*" (.applicative label (.operative q)) root)
    (hxs : σ.Carries xs (vs ++ [last])) (hN : 4 * vs.length + 7 ≤ N) (hD : vs.length + 4 ≤ D)
    (hQ : ∀ τ v, σ.Grown τ → τ.store.Items last v vs → Q v τ) :
    σ.Invoked cfg N D (.operative q) [xs] e Q := by
  induction vs generalizing σ xs N D e Q with
  | nil =>
    obtain ⟨N, rfl⟩ : ∃ k, N = k + 7 := ⟨N - 7, by simp at hN; omega⟩
    obtain ⟨r, rfl, hr, rfl, hrest⟩ := hxs.held
    have hlt := σ.cell_lt hr
    have hlast : (σ.store.tail r == .nil) = true := by
      rw [hrest.eq_nil]
      rfl
    refine .spreading hlimit h hname hlt hlast (fun τ f hτ hscope => ?_) (by omega)
    refine .head hlimit (h.onward hτ.onward) hscope rfl rfl (Nat.lt_of_lt_of_le hlt hτ.larger.cells)
      (by omega) fun υ hυ => ?_
    rw [hτ.head hlt]
    exact hQ υ _ (hτ.trans hυ) .done
  | cons v vs ih =>
    rw [List.length_cons] at hN hD
    obtain ⟨N, rfl⟩ : ∃ k, N = k + 7 := ⟨N - 7, by omega⟩
    obtain ⟨r, rfl, hr, rfl, hrest⟩ := hxs.held
    obtain ⟨_, hcons⟩ := h.wrapped (p := .operation .cons) (by decide) rfl
    have hlt := σ.cell_lt hr
    have hmore : (σ.store.tail r == .nil) = false := by
      obtain ⟨u, us, hus⟩ := List.exists_cons_of_ne_nil (l := vs ++ [last]) (by simp)
      rw [List.append_eq, hus] at hrest
      obtain ⟨k, hk, -⟩ := hrest.held
      rw [hk]
      rfl
    refine .spreading hlimit h hname hlt hmore (fun τ f hτ hscope => ?_) (by omega)
    refine .apply (d := D - 1) hlimit (hscope.sees_outer rfl (hcons.onward hτ.onward)) rfl (by simp)
      (by omega) fun υ hυ => ?_
    have hυ' := hτ.trans hυ
    refine .head hlimit (h.onward hυ'.onward) (hscope.onward hυ.onward) rfl rfl
      (Nat.lt_of_lt_of_le hlt hυ'.larger.cells) (by omega) fun φ hφ => ?_
    have hφ' := hυ.trans hφ
    rw [hυ'.head hlt]
    -- the call for what is left is an operand, not in tail position
    refine .apply (d := D - 2) hlimit
      ((hscope.sees_outer rfl (hname.onward hτ.onward)).onward hφ'.onward) rfl (by simp) (by omega)
      fun ψ hψ => ?_
    have hψ' := hφ'.trans hψ
    have hbefore := hτ.trans hψ'
    refine .tail hlimit (h.onward hbefore.onward) (hscope.onward hψ'.onward) rfl rfl
      (Nat.lt_of_lt_of_le hlt hbefore.larger.cells) (by omega) fun χ hχ => ?_
    have hχ' := hbefore.trans hχ
    rw [hbefore.tail hlt]
    refine ih (h.onward hχ'.onward) (hname.onward hχ'.onward) (hrest.onward hχ'.onward) (by omega)
      (by omega) fun ω u hω hu => ?_
    refine .cons fun α k hα hk hhead htail => hQ α _ (hχ'.trans (hω.trans hα)) ?_
    exact hhead ▸ .pair (α.cell_lt hk) (htail ▸ hu.larger hα.larger)

theorem Invoked.listBefore (hname : σ.Sees "list*" (.applicative label (.operative q)) root)
    (hN : 4 * vs.length + 9 ≤ N) (hD : vs.length + 4 ≤ D)
    (hQ : ∀ τ v, σ.Grown τ → τ.store.Items last v vs → Q v τ) :
    σ.Invoked cfg N D (.operative q) (vs ++ [last]) e Q := by
  obtain ⟨N, rfl⟩ : ∃ k, N = k + 9 := ⟨N - 9, by omega⟩
  obtain ⟨_, hcons⟩ := h.wrapped (p := .operation .cons) (by decide) rfl
  obtain ⟨_, _, -, hspread⟩ := h.procedure (d := Library.spread) (by simp [definitions, parts]) rfl
  have hw := h.written (d := Library.listBefore) (by simp [definitions, parts]) rfl hname
  obtain ⟨u, us, hvs⟩ := List.exists_cons_of_ne_nil (l := vs ++ [last]) (by simp)
  refine .of_fresh fun τ operands hτ hoperands => ?_
  rw [hvs] at hoperands
  obtain ⟨r, rfl, hr, rfl, hrest⟩ := hoperands.held
  refine .operative ["first"] (hw.onward hτ.onward) (h.onward hτ.onward).lt
    (.pair (τ.cell_lt hr) .done) rfl rfl fun υ f hυ hscope => ?_
  have hυ' := hτ.trans hυ
  refine .apply (d := 1) hlimit (hscope.sees_outer rfl (hspread.onward hυ'.onward)) rfl (by simp)
    (by omega) fun φ hφ => ?_
  refine .apply (d := 0) hlimit
    ((hscope.sees_outer rfl (hcons.onward hυ'.onward)).onward hφ.onward) rfl (by simp) (Nat.le_refl 1)
    fun ψ hψ => ?_
  have hψ' := hφ.trans hψ
  refine .symbol hlimit ((hscope.onward hψ'.onward).sees rfl) fun χ hχ => ?_
  refine .symbol hlimit ((hscope.onward (hψ'.trans hχ).onward).sees rfl) fun ω hω => ?_
  refine .cons fun α k hα hk hhead htail => ?_
  have hafter := hυ.trans (hψ'.trans (hχ.trans (hω.trans hα)))
  have hall := hτ.trans hafter
  have hcarries : α.Carries (.pair k) (vs ++ [last]) := by
    rw [hvs, ← hhead]
    exact .pair hk (htail ▸ hrest.onward hafter.onward)
  exact .spread hlimit (h.onward hall.onward) (hspread.onward hall.onward) hcarries (by omega) hD
    fun β v hβ hv => hQ β v (hall.trans hβ) hv

end Spreading

theorem carries_full (h : σ.store.Items .nil xs vs) : σ.full.Carries xs vs := by
  induction h with
  | done => exact .nil
  | pair hr _ ih => exact .pair hr ih

theorem trails_full (h : σ.store.Items last xs vs) : σ.full.Trails last xs vs := by
  induction h with
  | done => exact .done
  | pair hr _ ih => exact .pair hr ih

theorem strung_full_all (h : List.Forall₂ (σ.store.Items .nil) lists vss) :
    ∃ rss, List.Forall₂ σ.full.Strung lists rss ∧
      (rss.map fun rs => rs.map σ.store.head) = vss := by
  induction h with
  | nil => exact ⟨[], .nil, rfl⟩
  | cons hxs _ ih =>
    obtain ⟨rs, hrs, hheads⟩ := (carries_full hxs).strung
    obtain ⟨rss, hrss, hall⟩ := ih
    exact ⟨rs :: rss, .cons hrs hrss, by rw [List.map_cons, hall]; exact congrArg (· :: _) hheads⟩

section Calls

variable {cfg : Settings} {name : String} {P : Value → Store → Prop}
  (hlimit : cfg.stepLimit = none)
include hlimit

theorem Gives.of_invoked (h : ∀ label q e, σ.full.Sees name (.applicative label (.operative q)) root →
      ∃ n, σ.full.Invoked cfg.uncounted n d (.operative q) vs e fun v τ =>
        σ.full.Grown τ ∧ P v τ.store)
    (hd : d ≤ room) : σ.Gives cfg root room name vs P := by
  intro e r w hreaches
  obtain ⟨label, q, hname, hgo⟩ := hreaches.evaluates hlimit
  obtain ⟨n, hcall⟩ := h label q e (hname.onward σ.onward_full)
  obtain ⟨v, τ, hv, -, hτ, hP⟩ := hcall σ.full (.refl _) (room + 1) (Nat.le_succ_of_le hd)
  obtain ⟨υ, hυ, hworld⟩ := hτ.of_full
  refine ⟨v, υ, hυ, ?_, hgo _ ?_⟩
  · rwa [show υ.store = τ.store from congrArg World.store hworld]
  · rw [hworld]
    exact applied_ok.mpr hv

theorem Denies.of_fails (h : ∀ label q e, σ.full.Sees name (.applicative label (.operative q)) root →
      σ.full.Fails (Applied cfg (room + 1) (.operative q) vs e) fun stop w =>
        stop = .failure (.typeMismatch "pair" v) ∧ ∃ τ, σ.full.Grown τ ∧ τ.world = w) :
    σ.Denies cfg root room name vs v := by
  intro e r w hreaches
  obtain ⟨label, q, hname, hgo⟩ := hreaches.evaluates hlimit
  obtain ⟨_, _, hfailed, rfl, τ, hτ, rfl⟩ := h label q e (hname.onward σ.onward_full)
  obtain ⟨υ, hυ, hworld⟩ := hτ.of_full
  exact ⟨υ, hυ, hgo _ (hworld ▸ hfailed)⟩

end Calls

end Scene

open Library Scene

variable {cfg : Settings} {σ : Scene} {root room : Nat}

section Functions

variable (hlimit : cfg.stepLimit = none) (hσ : σ.Intact root definitions) (hroom : 15 ≤ room)
include hlimit hσ hroom

theorem Library.gives_reverse {xs : Value} {vs : List Value} (hxs : σ.store.Items .nil xs vs) :
    σ.Gives cfg root room "reverse" [xs] fun v s => s.Items .nil v vs.reverse := by
  obtain ⟨rs, hrs, rfl⟩ := (carries_full hxs).strung
  refine .of_invoked hlimit (fun label q e hname => ?_) hroom
  exact ⟨_, .reverse hlimit (hσ.onward σ.onward_full) hname hrs (Nat.le_refl _) (by omega)
    fun τ v hτ hv => ⟨hτ, hv.items⟩⟩

theorem Library.gives_length {xs : Value} {vs : List Value} (hxs : σ.store.Items .nil xs vs) :
    σ.Gives cfg root room "length" [xs] fun v _ => v = .int vs.length := by
  obtain ⟨rs, hrs, rfl⟩ := (carries_full hxs).strung
  refine .of_invoked hlimit (fun label q e hname => ?_) hroom
  refine ⟨_, .length hlimit (hσ.onward σ.onward_full) hname hrs (Nat.le_refl _) (by omega)
    fun τ hτ => ⟨hτ, ?_⟩⟩
  rw [List.length_map]

theorem Library.gives_nth {xs : Value} {vs : List Value} (hxs : σ.store.Items .nil xs vs) {i : Nat}
    (hi : i < vs.length) : σ.Gives cfg root room "nth" [xs, .int i] fun v _ => v = vs[i] := by
  obtain ⟨rs, hrs, rfl⟩ := (carries_full hxs).strung
  refine .of_invoked hlimit (fun label q e hname => ?_) hroom
  refine ⟨_, .nth hlimit (hσ.onward σ.onward_full) hname hrs (List.length_map _ ▸ hi) (Nat.le_refl _)
    (by omega) fun τ hτ => ⟨hτ, ?_⟩⟩
  rw [List.getElem_map]

theorem Library.gives_append {lists : List Value} {vss : List (List Value)}
    (hlists : List.Forall₂ (σ.store.Items .nil) lists vss) :
    σ.Gives cfg root room "append" lists fun v s => s.Items .nil v vss.flatten := by
  obtain ⟨rss, hrss, rfl⟩ := strung_full_all hlists
  refine .of_invoked hlimit (fun label q e hname => ?_) hroom
  refine ⟨_, .append hlimit (hσ.onward σ.onward_full) hname hrss
    (fun rs hrs => (List.sublist_flatten_of_mem hrs).length_le) (Nat.le_refl _) (Nat.le_refl _)
    fun τ v hτ hv => ⟨hτ, ?_⟩⟩
  rw [List.flatMap_def] at hv
  exact hv.items

omit hroom in
theorem Library.gives_listBefore (vs : List Value) (last : Value) (hroom : vs.length + 4 ≤ room) :
    σ.Gives cfg root room "list*" (vs ++ [last]) fun v s => s.Items last v vs :=
  .of_invoked hlimit (fun _ _ _ hname => ⟨_, .listBefore hlimit (hσ.onward σ.onward_full) hname
    (Nat.le_refl _) (Nat.le_refl _) fun _ _ hτ hv => ⟨hτ, hv⟩⟩) hroom

theorem Library.denies_nth {xs last : Value} {vs : List Value} (hxs : σ.store.Items last xs vs)
    (hpair : last.isPair = false) {i : Int} (hi : i < 0 ∨ vs.length ≤ i) :
    σ.Denies cfg root room "nth" [xs, .int i] last := by
  obtain ⟨room, rfl⟩ : ∃ k, room = k + 2 := ⟨room - 2, by omega⟩
  exact .of_fails hlimit fun _ _ _ hname => .nth hlimit (hσ.onward σ.onward_full) (trails_full hxs) hpair
    (fun τ hτ => ⟨rfl, τ, hτ, rfl⟩) hi hname

section Dotted

variable {xs last : Value} {vs : List Value} (hxs : σ.store.Items last xs vs)
  (hpair : last.isPair = false) (hnil : (last == .nil) = false)
include hxs hpair hnil

theorem Library.denies_reverse : σ.Denies cfg root room "reverse" [xs] last :=
  .of_fails hlimit fun _ _ _ hname => .reverse hlimit (hσ.onward σ.onward_full) (trails_full hxs) hpair
    hnil (fun τ hτ => ⟨rfl, τ, hτ, rfl⟩) (by omega) hname

theorem Library.denies_length : σ.Denies cfg root room "length" [xs] last := by
  obtain ⟨room, rfl⟩ : ∃ k, room = k + 2 := ⟨room - 2, by omega⟩
  exact .of_fails hlimit fun _ _ _ hname => .length hlimit (hσ.onward σ.onward_full) (trails_full hxs)
    hpair (fun τ hτ => ⟨rfl, τ, hτ, rfl⟩) hnil hname

theorem Library.denies_append (before : List Value) {after : List Value} {vss : List (List Value)}
    (hafter : List.Forall₂ (σ.store.Items .nil) after vss) :
    σ.Denies cfg root room "append" (before ++ xs :: after) last := by
  obtain ⟨rss, hrss, -⟩ := strung_full_all hafter
  exact .of_fails hlimit fun _ _ _ hname => .append hlimit (hσ.onward σ.onward_full) (trails_full hxs)
    hpair hnil (fun τ hτ => ⟨rfl, τ, hτ, rfl⟩) hname hrss (by omega)

end Dotted

end Functions

/-- `reverse`, `length`, `nth`, `append` and `list*` come to what their lists say. `nth` needs an index
below the length, and the functions that go along a whole chain of pairs need one that is ended by the
empty list. Besides what `list*` nests for each of its arguments, all do with the same room. -/
theorem Library.list_functions (hlimit : cfg.stepLimit = none) (hσ : σ.Intact root definitions)
    (hroom : 15 ≤ room) :
    (∀ {xs : Value} {vs : List Value}, σ.store.Items .nil xs vs →
      σ.Gives cfg root room "reverse" [xs] (fun v s => s.Items .nil v vs.reverse) ∧
      σ.Gives cfg root room "length" [xs] (fun v _ => v = .int vs.length) ∧
      (∀ (i : Nat) (hi : i < vs.length),
        σ.Gives cfg root room "nth" [xs, .int i] fun v _ => v = vs[i]) ∧
      ∀ i : Int, i < 0 ∨ vs.length ≤ i → σ.Denies cfg root room "nth" [xs, .int i] .nil) ∧
    (∀ {lists : List Value} {vss : List (List Value)},
      List.Forall₂ (σ.store.Items .nil) lists vss →
      σ.Gives cfg root room "append" lists fun v s => s.Items .nil v vss.flatten) ∧
    (∀ (vs : List Value) (last : Value), vs.length + 4 ≤ room →
      σ.Gives cfg root room "list*" (vs ++ [last]) fun v s => s.Items last v vs) ∧
    (∀ {xs last : Value} {vs : List Value}, σ.store.Items last xs vs → last.isPair = false →
      last ≠ .nil →
      σ.Denies cfg root room "reverse" [xs] last ∧ σ.Denies cfg root room "length" [xs] last ∧
      ∀ {before after : List Value} {vss : List (List Value)},
        List.Forall₂ (σ.store.Items .nil) after vss →
        σ.Denies cfg root room "append" (before ++ xs :: after) last) := by
  refine ⟨fun {xs vs} hxs => ⟨?_, ?_, fun i hi => ?_, fun i hi => ?_⟩, fun {lists vss} hlists => ?_,
    fun vs last hdeep => ?_, fun {xs last vs} hxs hpair hnil => ?_⟩
  · exact gives_reverse hlimit hσ hroom hxs
  · exact gives_length hlimit hσ hroom hxs
  · exact gives_nth hlimit hσ hroom hxs hi
  · exact denies_nth hlimit hσ hroom hxs rfl hi
  · exact gives_append hlimit hσ hroom hlists
  · exact gives_listBefore hlimit hσ vs last hdeep
  · have hnil' : (last == .nil) = false := beq_false_of_ne hnil
    exact ⟨denies_reverse hlimit hσ hroom hxs hpair hnil', denies_length hlimit hσ hroom hxs hpair hnil',
      fun {before after vss} hafter => denies_append hlimit hσ hroom hxs hpair hnil' before hafter⟩

/-- In a new session that has been given a list of two numbers, `(append xs xs)` comes to a list of
four. -/
theorem Library.list_functions_append : ∃ (s : Session) (σ : Scene) (e r : Nat) (xs : Value),
    Session.start .empty none true [] = .ok s ∧ s.machine.store.Extends σ.store ∧
    σ.store.Items .nil xs [.int 1, .int 2] ∧ σ.Sees "xs" xs e ∧
    σ.store.Items .nil (.pair r) [.sym "append", .sym "xs", .sym "xs"] ∧
    ∀ room, 15 ≤ room → ∃ v τ, σ.Grown τ ∧
      Evaluates s.settings (room + 1) (.pair r) e σ.world (.ok v τ.world) ∧
      τ.store.Items .nil v [.int 1, .int 2, .int 1, .int 2] := by
  obtain ⟨s, σ₀, x₀, hstart, hworld, hlimit, -, hσ, hs₀⟩ := Session.start_ready
  obtain ⟨_, _, -, happend⟩ := hσ.procedure (d := Library.append) (by simp [definitions, parts]) rfl
  obtain ⟨σ₁, x₁, xs, hgrown₁, hs₁, hxs, hcarries⟩ := Scene.exists_list (σ := σ₀) hs₀
    (show ∀ v ∈ [Value.int 1, .int 2], v.In x₀ by simp [Value.In])
  obtain ⟨σ₂, x₂, e, hgrown₂, hs₂, hscope⟩ := Scene.exists_scope hs₁
    (Nat.lt_of_lt_of_le hσ.lt hgrown₁.larger.frames)
    (List.forall_mem_singleton.mpr (show ("xs", xs).2.In x₁ from hxs))
  obtain ⟨σ, x, expr, hgrown₃, -, -, hexpr⟩ := Scene.exists_list (σ := σ₂) hs₂
    (show ∀ v ∈ [Value.sym "append", .sym "xs", .sym "xs"], v.In x₂ by simp [Value.In])
  obtain ⟨r, rfl, hhead, hrest⟩ := hexpr.uncons
  have hgrown := hgrown₁.trans (hgrown₂.trans hgrown₃)
  have hscope' := hscope.onward hgrown₃.onward
  have hitems := (hcarries.onward (hgrown₂.trans hgrown₃).onward).items
  have hname := happend.onward hgrown.onward
  have happly : σ.store.Applies s.root e r "append" [xs, xs] := by
    refine ⟨σ.frame_lt (hscope'.held ""), hhead, ?_, _, hrest.items, ?_⟩
    · exact (hscope'.sees_outer rfl hname).lookup.trans hname.lookup.symm
    · have hxs' : σ.store.lookup? e "xs" = some xs := (hscope'.sees rfl).lookup
      exact .cons (.symbol hxs') (.cons (.symbol hxs') .nil)
  refine ⟨s, σ, e, r, xs, hstart, ?_, hitems, hscope'.sees rfl, hexpr.items, fun room hroom => ?_⟩
  · rw [Machine.store, hworld]
    exact hgrown.larger
  · obtain ⟨-, hjoined, -⟩ := Library.list_functions hlimit (hσ.onward hgrown.onward) hroom
    obtain ⟨v, τ, hτ, hv, hends⟩ :=
      hjoined (.cons hitems (.cons hitems .nil)) e r σ.world (happly.reaches hlimit hname)
    exact ⟨v, τ, hτ, hends, hv⟩

end Vau
