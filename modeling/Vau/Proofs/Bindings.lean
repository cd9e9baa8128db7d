import Vau.Proofs.Making

/-! The `$let` of the prelude. It makes a combination of a procedure with the expressions, which are
evaluated where `$let` was called, and the body in a fresh frame inside that. From the evaluation of the
expressions the code that has been made is hidden. -/

namespace Vau

/-- A proper list of bindings, each of which is a list of a symbol and an expression. -/
def Store.Bound (s : Store) (v : Value) (bs : List (String × Value)) : Prop :=
  ∃ us, s.Items .nil v us ∧ List.Forall₂ (fun u b => s.Items .nil u [.sym b.1, b.2]) us bs

namespace Scene

open Library Vau.Tree

variable {σ τ : Scene} {cfg : Settings} {n d e f p q r room root κ label : Nat}
  {a b body operands u v x : Value} {rs : List Nat} {us vs forms : List Value}
  {bs : List (String × Value)}

/-- The scene with all its pairs held. -/
def full (σ : Scene) : Scene :=
  { σ with
    cell := fun r => r < σ.store.cells.size
    cell_lt := id }

theorem onward_full (σ : Scene) : σ.Onward σ.full where
  evolves := .refl _
  cells := Nat.le_refl _
  cell hr := ⟨σ.cell_lt hr, rfl⟩
  spine hr := ⟨hr, rfl⟩
  binding hb := ⟨hb, rfl⟩

/-- The pair `r` exists, and its head is a binding. -/
def Binds (σ : Scene) (r : Nat) (b : String × Value) : Prop :=
  r < σ.store.cells.size ∧ σ.store.Items .nil (σ.store.head r) [.sym b.1, b.2]

theorem Binds.grown {b : String × Value} (h : σ.Binds r b) (hτ : σ.Grown τ) : τ.Binds r b := by
  refine ⟨Nat.lt_of_lt_of_le h.1 hτ.larger.cells, ?_⟩
  rw [hτ.head h.1]
  exact h.2.larger hτ.larger

theorem strung_full (h : σ.store.Bound v bs) :
    ∃ rs, σ.full.Strung v rs ∧ List.Forall₂ σ.full.Binds rs bs := by
  obtain ⟨us, hitems, hbs⟩ := h
  induction hitems generalizing bs with
  | done =>
    cases hbs
    exact ⟨[], .nil, .nil⟩
  | @pair r _ hr _ ih =>
    obtain _ | ⟨hb, hrest⟩ := hbs
    obtain ⟨rs, hrs, hbinds⟩ := ih hrest
    exact ⟨r :: rs, .pair (.inl hr) hrs, .cons ⟨hr, hb⟩ hbinds⟩

theorem Paired.grown {X Y : Value → Scene → Prop} (hX : ∀ {v τ υ}, X v τ → τ.Grown υ → X v υ)
    (hY : ∀ {v τ υ}, Y v τ → τ.Grown υ → Y v υ) (h : Paired X Y v σ) (hτ : σ.Grown τ) :
    Paired X Y v τ := by
  obtain ⟨r, rfl, hr, hhead, htail⟩ := h
  refine ⟨r, rfl, (hτ.onward.cell hr).1, ?_, ?_⟩
  · exact (hτ.head (σ.cell_lt hr)).symm ▸ hX hhead hτ
  · exact (hτ.tail (σ.cell_lt hr)).symm ▸ hY htail hτ

/-- The call of `lambda` with the names, in a list of pairs that the store did not have, and the
body. -/
def Maker (s : Store) (lambda body : Value) (bs : List (String × Value)) : Value → Scene → Prop :=
  Paired (fun v _ => v = lambda)
    (Paired (fun v τ => (τ.since s).Carries v ((bs.map Prod.fst).map .sym)) fun v _ => v = body)

/-- The combination that `$let` makes, with the expressions in a list of pairs that the store did not
have. -/
def Expands (s : Store) (lambda body : Value) (bs : List (String × Value)) : Value → Scene → Prop :=
  Paired (Maker s lambda body bs) fun v τ => (τ.since s).Carries v (bs.map Prod.snd)

section Stable

variable {s : Store} {lambda : Value}

theorem Maker.grown (h : Maker s lambda body bs v σ) (hτ : σ.Grown τ) : Maker s lambda body bs v τ :=
  Paired.grown (fun hv _ => hv) (Paired.grown (fun hv hτ => hv.onward (hτ.since s)) fun hv _ => hv) h hτ

theorem Expands.grown (h : Expands s lambda body bs v σ) (hτ : σ.Grown τ) :
    Expands s lambda body bs v τ :=
  Paired.grown (fun hv hτ => Maker.grown hv hτ) (fun hv hτ => hv.onward (hτ.since s)) h hτ

end Stable

section Mapping

variable {g : Gauge}

theorem matched_binding {s : Store} (hitems : s.Items .nil operands [v]) (hv : s.Items .nil v [x, u]) :
    (list [list [.leaf .ignore, "expr"]]).matched s operands = .ok [("expr", u)] := by
  obtain ⟨r, rfl, -, rfl, htail⟩ := hitems.uncons
  obtain ⟨k, hk, -, -, hrest⟩ := hv.uncons
  obtain ⟨l, hl, -, rfl, hlast⟩ := hrest.uncons
  simp only [list, dotted, Tree.sym, List.foldr, Tree.matched, hk, hl, htail.eq_last, hlast.eq_last,
    Formals.leaf]
  rfl

theorem turns_expression (hlimit : g.stepLimit = none)
    (hκ : σ.Written κ p (list [list [.leaf .ignore, "expr"]]) .ignore "expr")
    (hp : p < σ.store.frames.size) (hr : r < σ.store.cells.size)
    (hv : σ.store.Items .nil (σ.store.head r) [x, u]) :
    σ.Turns g (n + 1) d (.operative κ) (.head r) u := by
  intro τ hτ e
  refine .of_called fun υ operands hυ hitems => ?_
  have hυ' := hτ.trans hυ
  have hmatch : ∀ φ, υ.Grown φ → (list [list [.leaf .ignore, "expr"]]).matched φ.store operands =
      .ok [("expr", u)] := by
    intro φ hφ
    refine matched_binding (x := x) (hitems.larger hφ.larger) ?_
    rw [show Item.read τ.store (.head r) = _ from hτ.head hr]
    exact hv.larger (hυ'.trans hφ).larger
  refine .matched (hκ.onward hυ'.onward) (Nat.lt_of_lt_of_le hp hυ'.larger.frames) hmatch
    fun φ f hφ hscope => ?_
  exact .symbol hlimit (hscope.sees rfl) fun ψ hψ => ⟨hυ.trans (hφ.trans hψ), rfl⟩

/-- Where each call comes to a value that is known, `map` puts the values into pairs that are new. -/
theorem Invoked.map_turns {ρ : Scene} {label' : Nat} (hlimit : g.stepLimit = none)
    (h : σ.Intact root definitions) (hρ : ρ.Onward σ)
    (hname : σ.Sees "map" (.applicative label (.operative q)) root) (hxs : σ.Strung v rs)
    (hplain : a.isApplicative = false) (hturns : List.Forall₂ (σ.Turns g n d a) (rs.map .head) us)
    {N D : Nat} (hN : n + 3 * rs.length + 40 ≤ N) (hD : d + 7 ≤ D) :
    σ.Invoked g N D (.operative q) [.applicative label' a, v] e fun w τ =>
      σ.Grown τ ∧ (τ.since ρ.store).Carries w us := by
  have hserves : Serves g n d a .each (rs.map .head) []
      (fun vs τ => σ.Grown τ ∧ vs = us.reverse) σ :=
    serves_turns hturns fun τ hτ => ⟨hτ, List.append_nil _⟩
  refine (Invoked.map_gathers hlimit h ρ.gathers_since hρ hname hxs hplain hserves hN hD).mono ?_
  rintro w τ - ⟨_, hw, hτ, rfl⟩
  exact ⟨hτ, by rwa [List.reverse_reverse] at hw⟩

end Mapping

section Code

variable {g : Gauge} {ρ : Scene} {lambda : Nat} (hlimit : g.stepLimit = none)
  (h : σ.Intact root definitions) (hρ : ρ.Onward σ)
  (hscope : σ.Scope f [("env", .env e), ("bindings", v), ("body", body)] root)
  (hxs : σ.Strung v rs) (hbs : List.Forall₂ σ.Binds rs bs)
include hlimit h hρ hscope hxs hbs

theorem Runs.names : σ.Runs g (3 * rs.length + 57) 7 (list ["map", "head", "bindings"]) f
    fun w τ => σ.Grown τ ∧ (τ.since ρ.store).Carries w ((bs.map Prod.fst).map .sym) := by
  obtain ⟨_, hfirst⟩ := h.wrapped (p := .operation .head) (by decide) rfl
  obtain ⟨_, _, -, hmap⟩ := h.procedure (d := Library.map) (by simp [definitions, parts]) rfl
  refine .apply (n := 3 * rs.length + 55) (d := 6) hlimit (hscope.sees_outer rfl hmap) rfl (by simp)
    (Nat.le_refl 7) fun τ hτ => ?_
  refine .symbol hlimit ((hscope.sees_outer rfl hfirst).onward hτ.onward) fun υ hυ => ?_
  have hυ' := hτ.trans hυ
  refine .symbol hlimit ((hscope.onward hυ'.onward).sees rfl) fun φ hφ => ?_
  have hφ' := hυ'.trans hφ
  have hturns : List.Forall₂ (φ.Turns g 0 0 (.primitive (.operation .head))) (rs.map .head)
      ((bs.map Prod.fst).map .sym) := by
    rw [List.map_map]
    refine List.forall₂_map_left_iff.mpr (List.forall₂_map_right_iff.mpr (hbs.imp fun r b hb => ?_))
    obtain ⟨hr, hitems⟩ := hb.grown hφ'
    exact turns_head hr hitems
  refine (Invoked.map_turns hlimit (h.onward hφ'.onward) (hρ.trans hφ'.onward) (hmap.onward hφ'.onward)
    (hxs.onward hφ'.onward) rfl hturns (by omega) (Nat.le_refl 7)).mono fun w ψ _ hw => ?_
  exact ⟨hφ'.trans hw.1, hw.2⟩

theorem Runs.expressions : σ.Runs g (3 * rs.length + 59) 9 (list ["map",
    list ["$lambda", list [list [.leaf .ignore, "expr"]], "expr"], "bindings"]) f
    fun w τ => σ.Grown τ ∧ (τ.since ρ.store).Carries w (bs.map Prod.snd) := by
  obtain ⟨_, _, -, hmap⟩ := h.procedure (d := Library.map) (by simp [definitions, parts]) rfl
  refine .apply (n := 3 * rs.length + 57) (d := 8) hlimit (hscope.sees_outer rfl hmap) rfl (by simp)
    (Nat.le_refl 9) fun τ hτ => ?_
  refine .lambda (n := 3 * rs.length + 50) hlimit (h.onward hτ.onward) (by simp [definitions, parts])
    (fun u hu => (hscope.onward hτ.onward).sees_outer rfl hu) rfl (fun υ κ l hυ hκ => ?_) (by omega)
  have hυ' := hτ.trans hυ
  refine .symbol hlimit ((hscope.onward hυ'.onward).sees rfl) fun φ hφ => ?_
  have hφ' := hυ'.trans hφ
  have hturns : List.Forall₂ (φ.Turns g 1 0 (.operative κ)) (rs.map .head) (bs.map Prod.snd) := by
    refine List.forall₂_map_left_iff.mpr (List.forall₂_map_right_iff.mpr (hbs.imp fun r b hb => ?_))
    obtain ⟨hr, hitems⟩ := hb.grown hφ'
    exact turns_expression hlimit (hκ.onward hφ.onward)
      (φ.frame_lt ((hscope.onward hφ'.onward).held "")) hr hitems
  refine (Invoked.map_turns hlimit (h.onward hφ'.onward) (hρ.trans hφ'.onward) (hmap.onward hφ'.onward)
    (hxs.onward hφ'.onward) rfl hturns (by omega) (by omega)).mono fun w ψ _ hw => ?_
  exact ⟨hφ'.trans hw.1, hw.2⟩

theorem Runs.expansion (hlambda : σ.Sees "$lambda" (.operative lambda) root) :
    σ.Runs g (3 * rs.length + 60) 10 (list ["cons", list ["cons", "$lambda",
      list ["cons", list ["map", "head", "bindings"], "body"]], list ["map",
        list ["$lambda", list [list [.leaf .ignore, "expr"]], "expr"], "bindings"]]) f
      fun w τ => σ.Grown τ ∧ Expands ρ.store (.operative lambda) body bs w τ := by
  obtain ⟨_, hcons⟩ := h.wrapped (p := .operation .cons) (by decide) rfl
  have hcons' := hscope.sees_outer rfl hcons
  have hsince {w : Value} {us : List Value} {τ υ : Scene} (hw : (τ.since ρ.store).Carries w us)
      (hυ : τ.Grown υ) : (υ.since ρ.store).Carries w us := hw.onward (hυ.since _)
  refine .pair hlimit hcons' (Nat.le_refl 10) Maker.grown hsince ?_ fun τ hτ =>
    .expressions hlimit (h.onward hτ.onward) (hρ.trans hτ.onward) (hscope.onward hτ.onward)
      (hxs.onward hτ.onward) (hbs.imp fun _ _ hb => hb.grown hτ)
  refine .pair hlimit hcons' (Nat.le_refl 9) (fun hw _ => hw)
    (fun hw hυ => Paired.grown hsince (fun hw _ => hw) hw hυ)
    (.symbol hlimit (hscope.sees_outer rfl hlambda) fun _ hτ => ⟨hτ, rfl⟩) fun τ hτ => ?_
  refine .pair hlimit (hcons'.onward hτ.onward) (Nat.le_refl 8) hsince (fun hw _ => hw) ?_ fun υ hυ =>
    .symbol hlimit ((hscope.onward (hτ.trans hυ).onward).sees rfl) fun _ hφ => ⟨hφ, rfl⟩
  exact .names hlimit (h.onward hτ.onward) (hρ.trans hτ.onward) (hscope.onward hτ.onward)
    (hxs.onward hτ.onward) (hbs.imp fun _ _ hb => hb.grown hτ)

end Code

/-- `$let` makes its combination and goes on with that where it was called. -/
theorem expands (hlimit : cfg.stepLimit = none) (h : σ.Intact root definitions)
    (hname : σ.Sees "$let" (.operative q) root) (hoperands : σ.store.Items body operands [v])
    (hxs : σ.Strung v rs) (hbs : List.Forall₂ σ.Binds rs bs) (hroom : 10 ≤ room) (e : Nat) :
    ∃ τ lambda code, σ.Grown τ ∧ σ.Sees "$lambda" (.operative lambda) root ∧
      Expands σ.store (.operative lambda) body bs code τ ∧
      ∀ o, Evaluates cfg (room + 1) code e τ.world o →
        Receives cfg (room + 1) (.operative q) operands e σ.world o := by
  have hlimit' : cfg.uncounted.stepLimit = none := hlimit
  obtain ⟨_, heval⟩ := h.wrapped (p := .operation .eval) (by decide) rfl
  obtain ⟨lambda, -, hlambda⟩ :=
    h.operative (d := Library.lambda) (by simp [definitions, parts]) rfl
  have hw := h.opened (d := Library.bindings) (by simp [definitions, parts]) rfl hname
  obtain ⟨form, hform, hcode⟩ := hw.body
  obtain ⟨τ, f, hopen, hτ, hscope⟩ := hw.enters ["bindings"] h.lt hoperands rfl rfl e
  have hτ := hτ.grown
  have hmade := Runs.expansion hlimit' (h.onward hτ.onward) hτ.onward hscope (hxs.onward hτ.onward)
    (hbs.imp fun _ _ hb => hb.grown hτ) (hlambda.onward hτ.onward)
  obtain ⟨code, φ, hφ, hcode', hgo⟩ := (hcode.onward hτ.onward).rebuilds (n := 3 * rs.length + 58)
    (P := Expands σ.store (.operative lambda) body bs) hlimit
    (hscope.sees_outer rfl (heval.onward hτ.onward)) (hscope.sees rfl) Expands.grown hmade
    (show 10 + 1 ≤ room + 1 by omega)
  exact ⟨φ, lambda, code, hτ.trans hφ, hlambda, hcode', fun o ho =>
    .operative hopen (hform ▸ .last (hgo o ho))⟩

end Scene

end Vau
