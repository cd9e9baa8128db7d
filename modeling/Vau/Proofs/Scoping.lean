import Vau.Proofs.Bindings
import Vau.Proofs.Matching

/-! The scope of the bindings of `$let`. The names are looked over first, when the procedure is made;
then the expressions are evaluated where `$let` was called, and then the body in a frame of its own.
The procedure and the lists that have been made by then are hidden from the expressions. -/

namespace Vau

namespace Tree

/-- Symbols in a list are accepted as formals just if none comes twice. -/
theorem addNames_list (names : List String) : (list (names.map sym)).addNames [] =
    if names.Nodup then .ok names.reverse else .error .repeated := by
  induction names with
  | nil => rfl
  | cons name names ih =>
    have hstep : (list ((name :: names).map sym)).addNames [] =
        (list (names.map sym)).addNames [] >>= fun seen => Formals.leafNames seen (.sym name) := rfl
    rw [hstep, ih]
    by_cases hnodup : names.Nodup
    · by_cases hmem : name ∈ names
      · simp [hnodup, hmem, Bind.bind, Except.bind, Formals.leafNames]
      · simp [hnodup, hmem, Bind.bind, Except.bind, Formals.leafNames]
    · simp [hnodup, Bind.bind, Except.bind]

end Tree

namespace Store

theorem formalNames_list {s : Store} {v : Value} {names : List String}
    (hv : s.Unfolds v (Tree.list (names.map Tree.sym))) :
    s.formalNames v = if names.Nodup then .ok names.reverse else
      .error (.failure (.typeMismatch "formal tree without repeated symbols" v)) := by
  rw [formalNames_unfolds hv, Tree.addNames_list]
  split
  · rfl
  · rfl

/-- The second store has what the first has and, inside the frame `p`, the frame `f` that is new and
binds just what is listed. -/
structure Introduces (s t : Store) (f p : Nat) (bs : List (String × Value)) : Prop where
  larger : s.Extends t
  new : s.frames.size ≤ f
  lt : f < t.frames.size
  parent : (t.frame f).parent = some p
  get? : ∀ name, (t.frame f).get? name = bs.lookup name

theorem Introduces.after {s t u : Store} {f p : Nat} {bs : List (String × Value)}
    (h : t.Introduces u f p bs) (ht : s.Extends t) : s.Introduces u f p bs :=
  { h with
    larger := ht.trans h.larger
    new := Nat.le_trans ht.frames h.new }

theorem Introduces.lookup {s t : Store} {f p : Nat} {bs : List (String × Value)} {name : String}
    {v : Value} (h : s.Introduces t f p bs) (hname : bs.lookup name = some v) :
    t.lookup? f name = some v := by
  obtain ⟨fuel, hfuel⟩ : ∃ k, t.frames.size = k + 1 := ⟨t.frames.size - 1, by have := h.lt; omega⟩
  rw [lookup?, hfuel, lookupWithin, h.get?, hname]

theorem Evolves.made_of {s t : Store} (h : s.Evolves t) {q : Nat} {o : Operative}
    (hq : q < s.operatives.size) (ho : s.operative q = o) : (t.operative q).scope = o.scope ∧
      (t.operative q).formals = o.formals ∧ (t.operative q).dynamic = o.dynamic ∧
      (t.operative q).body = o.body :=
  ho ▸ h.made q hq

theorem Bound.all_in {s : Store} {v : Value} {bs : List (String × Value)} {x : Extent}
    (h : s.Bound v bs) (hs : s.Sound x) : ∀ b ∈ bs, b.2.In x := by
  obtain ⟨us, -, hbs⟩ := h
  induction hbs with
  | nil => exact List.forall_mem_nil _
  | cons hu _ ih =>
    refine List.forall_mem_cons.mpr ⟨hu.all_in hs _ ?_, ih⟩
    exact List.mem_cons_of_mem _ List.mem_cons_self

end Store

namespace Scene

open Library Vau.Tree

variable {σ τ : Scene} {cfg : Settings} {n e r room root lambda : Nat}
  {body code u v : Value} {vs exprs forms : List Value} {names : List String}
  {bs : List (String × Value)} {H : Hidden} {x : Extent} {w w' : World} {stop : Stop}

theorem Carries.holds_names (h : σ.Carries v (names.map .sym)) :
    σ.Holds v (list (names.map Tree.sym)) := by
  induction names generalizing v with
  | nil =>
    cases h
    exact .leaf rfl
  | cons name names ih =>
    obtain ⟨r, rfl, hr, hhead, htail⟩ := h.held
    exact .node hr (hhead ▸ .leaf rfl) (ih htail)

/-- The scene in which nothing is held. -/
def bare (w : World) : Scene where
  world := w
  cell _ := False
  spine _ := False
  binding _ _ := False
  cell_lt := False.elim
  spine_lt := False.elim
  frame_lt := False.elim

/-- What is hidden from an activity stays, whatever else the activity changes. -/
theorem Unaware.onward {y : Activity} (hy : Unaware H x y) (hw : w.store.Hides H x)
    (hroot : 0 < x.frames) (hv : y w (.ok v w')) : ∃ (z : Extent) (hw' : w'.store.Hides H z),
      x.Within z ∧ ((bare w).besides hw).Onward ((bare w').besides hw') := by
  obtain ⟨z, hz, hhides, -, hspares, hevolves⟩ := hy w v w' hw hv
  have hcovers : (bare w).Covers H x ((bare w).besides hw) :=
    ⟨.refl _, rfl, hw, hroot, fun _ => .rfl, rfl, fun _ _ => .rfl⟩
  have honward : (bare w).Onward (bare w') :=
    ⟨hevolves, hspares.cells, False.elim, False.elim, False.elim⟩
  exact ⟨z, hhides, hz, hcovers.after honward hhides hspares hevolves⟩

/-- An operative that has symbols for its formals evaluates its forms in a frame of its own that binds
them. -/
theorem receives_introduced (cfg : Settings) {q p : Nat} {operands : Value}
    (hpattern : (σ.store.operative q).formals = v) (hformals : σ.Holds v (list (names.map Tree.sym)))
    (hscope : (σ.store.operative q).scope = p) (hp : p < σ.store.frames.size)
    (hdynamic : (σ.store.operative q).dynamic = .ignore) (hitems : σ.store.Items .nil operands vs)
    (hlength : names.length = vs.length) (e : Nat) :
    ∃ w' f, σ.store.Introduces w'.store f p (names.zip vs) ∧ w'.effects = σ.world.effects ∧
      ∀ room o, Sequence cfg room f (σ.store.operative q).body w' o →
        Receives cfg (room + 1) (.operative q) operands e σ.world o := by
  subst hpattern hscope
  have hnew := Store.Extends.newFrame σ.store (some (σ.store.operative q).scope)
  obtain ⟨bound, hopen, hbound⟩ :=
    opens_matched hformals hp ((hitems.larger hnew).matched hlength rfl) e
  rw [hdynamic, List.nil_append, List.reverse_reverse] at hbound
  refine ⟨_, _, ⟨.opened _ _ bound, Nat.le_refl _, ?_, hbound.parent, hbound.get?⟩, rfl,
    fun room o ho => .operative hopen ho⟩
  exact Scene.frame_lt _ (hbound.held "")

section Expressions

theorem length_evaluated (h : EvaluatesAll cfg room e exprs w (.ok vs w')) :
    exprs.length = vs.length := by
  induction exprs generalizing w vs with
  | nil =>
    cases h
    rfl
  | cons expr exprs ih =>
    cases h with
    | cons _ hrest => exact congrArg (· + 1) (ih hrest)

variable (hcfg : cfg.Honest) (hw : w.store.Hides H x) (he : H.Public x (.env e))
include hcfg he

/-- An expression that does not know of the list in which it is an operand leaves the list as it is. -/
theorem rest_hidden (hexpr : H.Public x (w.store.head r)) (hr : ((bare w).besides hw).cell r)
    (hrest : ((bare w).besides hw).Carries (w.store.tail r) exprs)
    (h : Evaluates cfg room (w.store.head r) e w (.ok v w')) :
    ∃ (z : Extent) (hw' : w'.store.Hides H z), x.Within z ∧
      ((bare w).besides hw).Onward ((bare w').besides hw') ∧
      ((bare w').besides hw').Carries (w'.store.tail r) exprs := by
  obtain ⟨z, hw', hz, honward⟩ := (unaware_evaluates hcfg he hexpr).onward hw
    (Nat.zero_lt_of_lt (Hidden.public_env.mp he).2) h
  have htail : w'.store.tail r = w.store.tail r := honward.tail hr
  exact ⟨z, hw', hz, honward, htail ▸ hrest.onward honward⟩

variable (hexprs : ∀ u ∈ exprs, H.Public x u) (hlist : ((bare w).besides hw).Carries v exprs)
include hexprs hlist

/-- Expressions that do not know of the list in which they are operands are evaluated in turn. -/
theorem operands_hidden (h : EvaluatesAll cfg room e exprs w (.ok vs w')) :
    Operands cfg.uncounted n room e v w vs w' ∧ ∃ (z : Extent) (hw' : w'.store.Hides H z),
      ((bare w).besides hw).Onward ((bare w').besides hw') := by
  induction exprs generalizing w v vs x with
  | nil =>
    cases h
    cases hlist
    exact ⟨.nil, x, hw, .refl _⟩
  | cons expr exprs ih =>
    obtain ⟨hexpr, hlater⟩ := List.forall_mem_cons.mp hexprs
    obtain ⟨r, rfl, hr, rfl, htail⟩ := hlist.held
    cases h with
    | @cons _ _ _ _ _ w₁ _ hfirst hrest =>
      obtain ⟨z, hw₁, hz, honward, htail'⟩ := rest_hidden hcfg hw he hexpr hr htail hfirst
      obtain ⟨hoperands, y, hw', honward'⟩ :=
        ih hw₁ (he.mono hz) (fun u hu => (hlater u hu).mono hz) htail' hrest
      exact ⟨.cons (evaluates_ok.mp hfirst) hoperands, y, hw', honward.trans honward'⟩

theorem refuses_hidden (h : EvaluatesAll cfg room e exprs w (.error stop w')) :
    Refuses cfg room e stop w' v w := by
  induction exprs generalizing w v x with
  | nil => cases h
  | cons expr exprs ih =>
    obtain ⟨hexpr, hlater⟩ := List.forall_mem_cons.mp hexprs
    obtain ⟨r, rfl, hr, rfl, htail⟩ := hlist.held
    cases h with
    | failed hfirst => exact .here hfirst
    | @later _ _ _ _ w₁ _ _ hfirst hrest =>
      obtain ⟨z, hw₁, hz, -, htail'⟩ := rest_hidden hcfg hw he hexpr hr htail hfirst
      exact .later hfirst (ih hw₁ (he.mono hz) (fun u hu => (hlater u hu).mono hz) htail' hrest)

end Expressions

theorem Grown.of_full (h : σ.full.Grown τ) : ∃ υ, σ.Grown υ ∧ υ.world = τ.world :=
  ⟨_, σ.grown_grow h.larger, congrArg (World.mk τ.store) h.effects.symm⟩

section Expansion

variable {s : Store} (hlimit : cfg.stepLimit = none) (h : σ.Intact root definitions)
  (hlambda : σ.Sees "$lambda" (.operative lambda) root) (hbody : σ.store.Items .nil body forms)
include hlimit h hlambda hbody

section Operators

variable (hmaker : Maker s (.operative lambda) body bs v σ) (hroom : 5 ≤ room) (e : Nat)
include hmaker hroom

/-- The operator of the combination that `$let` makes waits for what `$vau` makes of the names and the
forms. -/
theorem Maker.awaits : ∃ formals, (σ.since s).Carries formals ((bs.map Prod.fst).map .sym) ∧
    σ.Awaits (Makes cfg room e formals forms)
      (fun stop w => Evaluates cfg (room + 1) v e σ.world (.error stop w))
      fun u τ => u.isCombiner = true → ∃ l φ, τ.Grown φ ∧
        Evaluates cfg (room + 1) v e σ.world (.ok (.applicative l u) φ.world) := by
  obtain ⟨r, rfl, -, hhead, k, hk, hlt, hformals, htail⟩ := hmaker
  have hitems : σ.store.Items body (σ.store.tail r) [σ.store.head k] :=
    hk ▸ .pair (σ.cell_lt hlt) (htail ▸ .done)
  have hgo : ∀ o, Receives cfg (room + 1) (.operative lambda) (σ.store.tail r) e σ.world o →
      Evaluates cfg (room + 1) (.pair r) e σ.world o := fun o ho =>
    .combination hlimit (prepares_pair hlimit rfl rfl rfl hhead rfl (Nat.succ_pos room)) ho
  refine ⟨_, hformals, (Awaits.lambda hlimit h hlambda hitems hbody hroom e).mono
    (fun stop w hw => hgo _ hw) fun u τ _ hu hcombiner => ?_⟩
  obtain ⟨l, φ, hφ, hdone⟩ := hu hcombiner
  exact ⟨l, φ, hφ, hgo _ hdone⟩

theorem Maker.refused (hnames : ¬ (bs.map Prod.fst).Nodup) :
    ∃ formals τ, σ.Grown τ ∧ τ.store.Items .nil formals ((bs.map Prod.fst).map .sym) ∧
      Evaluates cfg (room + 1) v e σ.world (.error (.failure
        (.typeMismatch "formal tree without repeated symbols" formals)) τ.world) := by
  obtain ⟨formals, hformals, τ, hτ, hfailed, -⟩ :=
    Maker.awaits hlimit h hlambda hbody hmaker hroom e
  have hheld := hformals.onward (hτ.since s)
  have hrefused := Store.formalNames_list hheld.holds_names.unfolds
  rw [if_neg hnames] at hrefused
  exact ⟨formals, τ, hτ, hheld.items, hfailed _ _ (makes_nothing hrefused)⟩

theorem Maker.makes (hnames : (bs.map Prod.fst).Nodup) :
    ∃ formals q l τ, σ.Grown τ ∧ (τ.since s).Carries formals ((bs.map Prod.fst).map .sym) ∧
      q < τ.store.operatives.size ∧ τ.store.operative q = ⟨e, formals, .ignore, forms, none⟩ ∧
      Evaluates cfg (room + 1) v e σ.world (.ok (.applicative l (.operative q)) τ.world) := by
  obtain ⟨formals, hformals, φ, hφ, -, hmade⟩ :=
    Maker.awaits hlimit h hlambda hbody hmaker hroom e
  have haccepted := Store.formalNames_list (hformals.onward (hφ.since s)).holds_names.unfolds
  rw [if_pos hnames] at haccepted
  let o : Operative := ⟨e, formals, .ignore, forms, none⟩
  have hnew := φ.grown_grow (.newOperative φ.store o)
  obtain ⟨l, τ, hτ, hdone⟩ := hmade _ _ hnew.onward (makes_operative haccepted) rfl
  have hgrown := hφ.trans (hnew.trans hτ)
  have hlt : φ.store.operatives.size < (φ.store.newOperative o).2.operatives.size := by
    simp [Store.newOperative]
  refine ⟨formals, φ.store.operatives.size, l, τ, hgrown, hformals.onward (hgrown.since s),
    Nat.lt_of_lt_of_le hlt hτ.larger.operatives, (hτ.larger.operative _ hlt).trans ?_, hdone⟩
  simp [grow, store, Store.operative, Store.newOperative, o]

end Operators

/-- Where a name is repeated, the combination fails before any expression is evaluated. -/
theorem Expands.repeated (hcode : Expands s (.operative lambda) body bs code σ)
    (hnames : ¬ (bs.map Prod.fst).Nodup) (hroom : 6 ≤ room) (e : Nat) :
    ∃ formals τ, σ.Grown τ ∧ τ.store.Items .nil formals ((bs.map Prod.fst).map .sym) ∧
      Evaluates cfg (room + 1) code e σ.world (.error (.failure
        (.typeMismatch "formal tree without repeated symbols" formals)) τ.world) := by
  obtain ⟨room, rfl⟩ : ∃ k, room = k + 1 := ⟨room - 1, by omega⟩
  obtain ⟨r, rfl, -, hmaker, -⟩ := hcode
  obtain ⟨formals, τ, hτ, hitems, hfailed⟩ :=
    Maker.refused hlimit h hlambda hbody hmaker (Nat.le_of_succ_le_succ hroom) e hnames
  exact ⟨formals, τ, hτ, hitems, .operator_failed hlimit hfailed⟩

/-- Where no name is repeated, the expressions are evaluated in turn, and then the forms in a frame of
their own, which binds the names to what the expressions have come to. -/
theorem Expands.scoped (hcfg : cfg.Honest) (hcode : Expands s (.operative lambda) body bs code σ)
    (hs : s.Extends σ.store) (hsound : s.Sound x) (he : e < x.frames) (hexprs : ∀ b ∈ bs, b.2.In x)
    (hnames : (bs.map Prod.fst).Nodup) (hroom : 6 ≤ room) :
    ∃ τ, σ.Grown τ ∧
      (∀ stop w, EvaluatesAll cfg room e (bs.map Prod.snd) τ.world (.error stop w) →
        Evaluates cfg (room + 1) code e σ.world (.error stop w)) ∧
      ∀ vs w, EvaluatesAll cfg room e (bs.map Prod.snd) τ.world (.ok vs w) →
        ∃ w' f, w.store.Introduces w'.store f e ((bs.map Prod.fst).zip vs) ∧ w'.effects = w.effects ∧
          ∀ o, Sequence cfg room f forms w' o → Evaluates cfg (room + 1) code e σ.world o := by
  obtain ⟨room, rfl⟩ : ∃ k, room = k + 1 := ⟨room - 1, by omega⟩
  obtain ⟨r, rfl, hr, hmaker, htail⟩ := hcode
  obtain ⟨formals, q, l, τ, hτ, hformals, hq, hoperative, hoperator⟩ :=
    Maker.makes hlimit h hlambda hbody hmaker (Nat.le_of_succ_le_succ hroom) e hnames
  -- all that has come since is hidden from the expressions
  have hext := hs.trans hτ.larger
  have hhides := hsound.hides.more hext (Nat.zero_lt_of_lt he)
  have hhidden : (τ.since s).Onward ((bare τ.world).besides hhides) :=
    ⟨.refl _, Nat.le_refl _, fun hr => ⟨.inr (.inr hr), rfl⟩, False.elim, False.elim⟩
  have hpublic {u : Value} (hu : u.In x) : (Hidden.none.more s τ.store).Public (x.padded τ.store) u :=
    hsound.hides.public_more hext ⟨.none u, hu⟩
  have henv := hpublic (u := .env e) he
  have hexprs' : ∀ u ∈ bs.map Prod.snd,
      (Hidden.none.more s τ.store).Public (x.padded τ.store) u :=
    List.forall_mem_map.mpr fun b hb => hpublic (hexprs b hb)
  have hlist := (htail.onward (hτ.since s)).onward hhidden
  rw [Store.tail, ← hτ.larger.cell r (σ.cell_lt hr)] at hlist
  refine ⟨τ, hτ, fun stop w hw => ?_, fun vs w hw => ?_⟩
  · exact .operand_failed hlimit hoperator (refuses_hidden hcfg hhides henv hexprs' hlist hw)
  · obtain ⟨hoperands, z, hw', honward⟩ :=
      operands_hidden (n := vs.length) hcfg hhides henv hexprs' hlist hw
    have hlength : (bs.map Prod.fst).length = vs.length := by
      rw [← length_evaluated hw, List.length_map, List.length_map]
    -- the operative that was made is called with a list of the values
    have hlisted := ((bare w).besides hw').grown_grow (.list w.store vs .nil)
    have hall := honward.trans hlisted.onward
    obtain ⟨hscope, hpattern, hdynamic, hforms⟩ := hall.evolves.made_of hq hoperative
    have hheld := ((hformals.onward hhidden).onward hall).holds_names
    obtain ⟨w', f, hnew, heffects, hgo⟩ := receives_introduced cfg hpattern hheld hscope
      (Nat.lt_of_lt_of_le (hsound.frames_size ▸ he) (hext.frames.trans hall.evolves.frames)) hdynamic
      (Store.items_list w.store vs .nil) hlength e
    rw [hforms] at hgo
    refine ⟨w', f, hnew.after hlisted.larger, heffects,
      fun o ho => .combination (n := vs.length) hlimit ?_ (hgo _ o ho)⟩
    exact .wrapped rfl (evaluates_ok.mp hoperator) hoperands (Nat.le_refl _)

end Expansion

end Scene

open Library Scene

/-- `$let` evaluates its expressions in turn where it was called, and then its body in a frame of its
own inside that, in which the names stand for what the expressions have come to. If a name is repeated,
it fails before that. -/
theorem Library.bindings_scoped {cfg : Settings} {σ : Scene} {x : Extent} {root e r room : Nat}
    {v : Value} {bs : List (String × Value)} {forms : List Value} (hlimit : cfg.stepLimit = none)
    (hcfg : cfg.Honest) (hσ : σ.Intact root definitions) (hsound : σ.store.Sound x)
    (hr : σ.store.Invocation root e r "$let")
    (hoperands : σ.store.Items .nil (σ.store.tail r) (v :: forms)) (hv : σ.store.Bound v bs)
    (hroom : 10 ≤ room) :
    ((bs.map Prod.fst).Nodup → ∃ τ, σ.Grown τ ∧
      (∀ stop w, EvaluatesAll cfg room e (bs.map Prod.snd) τ.world (.error stop w) →
        Evaluates cfg (room + 1) (.pair r) e σ.world (.error stop w)) ∧
      ∀ vs w, EvaluatesAll cfg room e (bs.map Prod.snd) τ.world (.ok vs w) →
        ∃ w' f, w.store.Introduces w'.store f e ((bs.map Prod.fst).zip vs) ∧ w'.effects = w.effects ∧
          ∀ o, Sequence cfg room f forms w' o → Evaluates cfg (room + 1) (.pair r) e σ.world o) ∧
    (¬ (bs.map Prod.fst).Nodup → ∃ τ formals, σ.Grown τ ∧
      τ.store.Items .nil formals ((bs.map Prod.fst).map .sym) ∧
      Evaluates cfg (room + 1) (.pair r) e σ.world (.error (.failure
        (.typeMismatch "formal tree without repeated symbols" formals)) τ.world)) := by
  obtain ⟨q, -, hname⟩ := hσ.operative (d := Library.bindings) (by simp [definitions, parts]) rfl
  obtain ⟨k, hk, hlt, hhead, hbody⟩ := hoperands.uncons
  have hbindings : σ.store.Items (σ.store.tail k) (σ.store.tail r) [v] :=
    hk ▸ hhead ▸ .pair hlt .done
  have hfull := σ.onward_full
  obtain ⟨rs, hstrung, hbinds⟩ := strung_full hv
  obtain ⟨υ, lambda, code, hυ, hlambda, hcode, hgo⟩ := expands hlimit (hσ.onward hfull)
    (hname.onward hfull) hbindings hstrung hbinds hroom e
  have hintact := hσ.onward (hfull.trans hυ.onward)
  have hlambda' := hlambda.onward hυ.onward
  have hbody' := hbody.larger hυ.larger
  have hends : ∀ o, Evaluates cfg (room + 1) code e υ.world o →
      Evaluates cfg (room + 1) (.pair r) e σ.world o := fun o ho => hr.evaluates hlimit hname (hgo o ho)
  constructor
  · intro hnames
    obtain ⟨φ, hφ, hfailed, hdone⟩ := Expands.scoped hlimit hintact hlambda' hbody' hcfg hcode
      hυ.larger hsound (hsound.frames_size ▸ hr.env) (hv.all_in hsound) hnames
      (show 6 ≤ room by omega)
    obtain ⟨τ, hτ, hworld⟩ := (hυ.trans hφ).of_full
    rw [← hworld] at hfailed hdone
    refine ⟨τ, hτ, fun stop w hw => hends _ (hfailed stop w hw), fun vs w hw => ?_⟩
    obtain ⟨w', f, hnew, heffects, hevaluates⟩ := hdone vs w hw
    exact ⟨w', f, hnew, heffects, fun o ho => hends o (hevaluates o ho)⟩
  · intro hnames
    obtain ⟨formals, φ, hφ, hformals, hfailed⟩ :=
      Expands.repeated hlimit hintact hlambda' hbody' hcode hnames (show 6 ≤ room by omega) e
    obtain ⟨τ, hτ, hworld⟩ := (hυ.trans hφ).of_full
    rw [Scene.store, ← hworld] at hformals
    exact ⟨τ, formals, hτ, hformals, hworld ▸ hends _ hfailed⟩

theorem Store.Items.value_in {s : Store} {x : Extent} {v : Value} {us : List Value}
    (h : s.Items .nil v us) (hs : s.Sound x) : v.In x := by
  cases h with
  | done => trivial
  | pair hr _ => exact Nat.lt_of_lt_of_eq hr hs.cells_size

theorem Store.Bound.value_in {s : Store} {x : Extent} {v : Value} {bs : List (String × Value)}
    (h : s.Bound v bs) (hs : s.Sound x) : v.In x := by
  obtain ⟨us, hitems, -⟩ := h
  exact hitems.value_in hs

theorem Store.Bound.larger {s t : Store} {v : Value} {bs : List (String × Value)}
    (h : s.Bound v bs) (ht : s.Extends t) : t.Bound v bs := by
  obtain ⟨us, hitems, hbs⟩ := h
  exact ⟨us, hitems.larger ht, hbs.imp fun _ _ hu => hu.larger ht⟩

namespace Scene

variable {σ τ : Scene} {x : Extent} {r : Nat} {bs : List (String × Value)} {name : String}

/-- The pair is a combination of `$let` with the bindings and a name for its body. -/
def Lets (σ : Scene) (r : Nat) (bs : List (String × Value)) (name : String) : Prop :=
  ∃ v, σ.store.Bound v bs ∧ σ.Carries (.pair r) [.sym "$let", v, .sym name]

theorem Lets.grown (h : σ.Lets r bs name) (hτ : σ.Grown τ) : τ.Lets r bs name := by
  obtain ⟨v, hv, hr⟩ := h
  exact ⟨v, hv.larger hτ.larger, hr.onward hτ.onward⟩

theorem Lets.invocation {c : Value} {root : Nat} (h : σ.Lets r bs name)
    (hname : σ.Sees "$let" c root) : σ.store.Invocation root root r "$let" ∧
      ∃ v, σ.store.Items .nil (σ.store.tail r) [v, .sym name] ∧ σ.store.Bound v bs := by
  obtain ⟨v, hv, hr⟩ := h
  obtain ⟨hinvocation, hrest⟩ := hr.invocation hname
  exact ⟨hinvocation, v, hrest.items, hv⟩

/-- There is room for bindings of any names to any expressions. -/
theorem exists_bound (hsound : σ.store.Sound x) (hbs : ∀ b ∈ bs, b.2.In x) :
    ∃ τ y v, σ.Grown τ ∧ τ.store.Sound y ∧ τ.store.Bound v bs := by
  have hlists : ∀ vs ∈ bs.map fun b => [.sym b.1, b.2], ∀ v ∈ vs, v.In x := by
    refine List.forall_mem_map.mpr fun b hb => List.forall_mem_cons.mpr ⟨trivial, ?_⟩
    exact List.forall_mem_singleton.mpr (hbs b hb)
  obtain ⟨τ, y, us, hτ, -, hs, hus, hcarries⟩ := exists_lists hsound hlists
  obtain ⟨υ, z, v, hυ, hs', -, hv⟩ := exists_list (σ := τ) hs hus
  refine ⟨υ, z, v, hτ.trans hυ, hs', us, hv.items, ?_⟩
  exact (List.forall₂_map_right_iff.mp hcarries).imp fun _ _ hu => (hu.onward hυ.onward).items

theorem exists_lets (hsound : σ.store.Sound x) (hbs : ∀ b ∈ bs, b.2.In x) (name : String) :
    ∃ τ y r, σ.Grown τ ∧ τ.store.Sound y ∧ τ.Lets r bs name := by
  obtain ⟨τ, y, v, hτ, hs, hv⟩ := exists_bound hsound hbs
  have hparts : ∀ u ∈ [.sym "$let", v, .sym name], u.In y := by
    simp [Value.In, hv.value_in hs]
  obtain ⟨υ, z, expr, hυ, hs', -, hexpr⟩ := exists_list (σ := τ) hs hparts
  obtain ⟨r, rfl, -⟩ := hexpr.held
  exact ⟨υ, z, r, hτ.trans hυ, hs', v, hv.larger hυ.larger, hexpr⟩

end Scene

/-- In a new session `($let ((head 5) (y head)) head)` comes to 5, while the same with `y` for its
body comes to what `head` stands for outside: the name is bound in the body and unknown to the
expressions. `($let ((x 5) (x 6)) x)` fails. -/
theorem Library.bindings_scoped_shadowing : ∃ (s : Session) (σ : Scene) (r₁ r₂ r₃ : Nat)
    (outer : Value), Session.start .empty none true [] = .ok s ∧
    s.machine.store.Extends σ.store ∧ σ.Sees "head" outer s.root ∧ outer ≠ .int 5 ∧
    σ.Lets r₁ [("head", .int 5), ("y", .sym "head")] "head" ∧
    σ.Lets r₂ [("head", .int 5), ("y", .sym "head")] "y" ∧
    σ.Lets r₃ [("x", .int 5), ("x", .int 6)] "x" ∧ ∀ room, 10 ≤ room →
      (∃ w, Evaluates s.settings (room + 1) (.pair r₁) s.root σ.world (.ok (.int 5) w)) ∧
      (∃ w, Evaluates s.settings (room + 1) (.pair r₂) s.root σ.world (.ok outer w)) ∧
      ∃ formals w, w.store.Items .nil formals [.sym "x", .sym "x"] ∧
        Evaluates s.settings (room + 1) (.pair r₃) s.root σ.world (.error (.failure
          (.typeMismatch "formal tree without repeated symbols" formals)) w) := by
  obtain ⟨s, σ₀, x₀, hstart, hworld, hlimit, hcfg, hσ, hs₀⟩ := Session.start_ready
  obtain ⟨label, hhead⟩ := hσ.wrapped (p := .operation .head) (by decide) rfl
  obtain ⟨q, -, hlet⟩ := hσ.operative (d := Library.bindings) (by simp [definitions, parts]) rfl
  have hin : ∀ x : Extent, ∀ b ∈ [("head", Value.int 5), ("y", .sym "head")], b.2.In x := by
    simp [Value.In]
  have hin' : ∀ x : Extent, ∀ b ∈ [("x", Value.int 5), ("x", .int 6)], b.2.In x := by
    simp [Value.In]
  obtain ⟨σ₁, x₁, r₁, hgrown₁, hs₁, hr₁⟩ := Scene.exists_lets (σ := σ₀) hs₀ (hin x₀) "head"
  obtain ⟨σ₂, x₂, r₂, hgrown₂, hs₂, hr₂⟩ := Scene.exists_lets (σ := σ₁) hs₁ (hin x₁) "y"
  obtain ⟨σ, x, r₃, hgrown₃, hs, hr₃⟩ := Scene.exists_lets (σ := σ₂) hs₂ (hin' x₂) "x"
  have hgrown := hgrown₁.trans (hgrown₂.trans hgrown₃)
  replace hσ := hσ.onward hgrown.onward
  replace hhead := hhead.onward hgrown.onward
  replace hlet := hlet.onward hgrown.onward
  replace hr₁ := hr₁.grown (hgrown₂.trans hgrown₃)
  replace hr₂ := hr₂.grown hgrown₃
  -- a name of the body is looked up among the values that its expressions have come to
  have hbody : ∀ r name v room, σ.Lets r [("head", .int 5), ("y", .sym "head")] name →
      (["head", "y"].zip [.int 5, .applicative label (.primitive (.operation .head))]).lookup name =
        some v → 10 ≤ room →
      ∃ w, Evaluates s.settings (room + 1) (.pair r) s.root σ.world (.ok v w) := by
    intro r name v room hr hname hroom
    obtain ⟨hinvocation, _, hrest, hv⟩ := hr.invocation hlet
    obtain ⟨hscoped, -⟩ := bindings_scoped hlimit hcfg hσ hs hinvocation hrest hv hroom
    obtain ⟨τ, hτ, -, hdone⟩ := hscoped (by decide)
    have hvalues : EvaluatesAll s.settings room s.root [.int 5, .sym "head"] τ.world
        (.ok [.int 5, .applicative label (.primitive (.operation .head))] τ.world) :=
      .cons (Store.Denotes.evaluates (.constant rfl rfl) hlimit)
        (.cons (Store.Denotes.evaluates (.symbol (hhead.onward hτ.onward).lookup) hlimit) .nil)
    obtain ⟨w, f, hnew, -, hgo⟩ := hdone _ _ hvalues
    have hlast : Evaluates s.settings (room + 1) (.sym name) f w (.ok v w) :=
      Store.Denotes.evaluates (.symbol (hnew.lookup hname)) hlimit
    exact ⟨w, hgo _ (.last hlast)⟩
  refine ⟨s, σ, r₁, r₂, r₃, _, hstart, ?_, hhead, Value.noConfusion, hr₁, hr₂, hr₃,
    fun room hroom => ⟨hbody _ _ _ _ hr₁ rfl hroom, hbody _ _ _ _ hr₂ rfl hroom, ?_⟩⟩
  · rw [Machine.store, hworld]
    exact hgrown.larger
  · obtain ⟨hinvocation, _, hrest, hv⟩ := hr₃.invocation hlet
    obtain ⟨-, hrefused⟩ := bindings_scoped hlimit hcfg hσ hs hinvocation hrest hv hroom
    obtain ⟨τ, formals, -, hitems, hfailed⟩ := hrefused (by decide)
    exact ⟨formals, τ.world, hitems, hfailed⟩

end Vau
