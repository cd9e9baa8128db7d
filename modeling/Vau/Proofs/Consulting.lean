import Vau.Proofs.Nesting
import Vau.Proofs.Waiting

/-! Code that is asked for its value. What prelude code has made before it evaluates an expression
that it was given, the expression does not know of; so it is enough to know of the expression that it
leaves alone what the caller of the prelude holds. -/

namespace Vau

namespace Hidden

variable {H : Hidden} {x : Extent} {e r : Nat}

theorem public_env : H.Public x (.env e) ↔ ¬ H.frame e ∧ e < x.frames := by
  constructor
  · rintro ⟨hlinked, hin⟩
    cases hlinked with
    | env h => exact ⟨h.2, hin⟩
  · rintro ⟨hframe, hin⟩
    exact ⟨.env ⟨rfl, hframe⟩, hin⟩

theorem public_pair : H.Public x (.pair r) ↔ ¬ H.cell r ∧ r < x.cells := by
  constructor
  · rintro ⟨hlinked, hin⟩
    cases hlinked with
    | pair h => exact ⟨h.2, hin⟩
  · rintro ⟨hcell, hin⟩
    exact ⟨.pair ⟨rfl, hcell⟩, hin⟩

end Hidden

theorem Store.Hides.tail {s : Store} {H : Hidden} {x : Extent} (h : s.Hides H x) {r : Nat}
    (hr : ¬ H.cell r) : H.Public x (s.tail r) := by
  obtain ⟨t, ht, hs⟩ := h
  have htail := hs.tail ⟨rfl, hr⟩
  exact ⟨htail.eq_of_hidden ▸ htail, htail.eq_of_hidden ▸ ht.tail r⟩

namespace Scene

/-- An activity that comes to a value comes to nothing hidden, and changes nothing hidden. -/
def Unaware (H : Hidden) (x : Extent) (y : Activity) : Prop :=
  ∀ w v w', w.store.Hides H x → y w (.ok v w') → ∃ z, x.Within z ∧ w'.store.Hides H z ∧
    H.Public z v ∧ w.store.Spares H.terms.link w'.store ∧ w.store.Evolves w'.store

section Activities

variable {cfg : Settings} (hcfg : cfg.Honest) {H : Hidden} {x : Extent} {room e : Nat}
  (he : H.Public x (.env e))
include hcfg he

theorem unaware_evaluates {expr : Value} (hexpr : H.Public x expr) :
    Unaware H x (Evaluates cfg room expr e) := by
  rintro w v w' hw ⟨k, h⟩
  obtain ⟨m', hrun, rfl⟩ := outcome_eq_ok.mp (h k (Nat.le_refl k) 0 { world := w } rfl)
  obtain ⟨henv, henvIn⟩ := Hidden.public_env.mp he
  have hnested : nested (reduce cfg k) (room + 1) expr e { world := w } = .ok v m' := hrun
  obtain ⟨z, hz, hhides, hv, hspares⟩ :=
    nested_hides hcfg (m := { world := w }) hw hexpr henv henvIn hnested
  have hlawful := Action.pervasive_lawful.reduce hcfg.lawful k room 0 expr e { world := w }
  rw [show reduce cfg k room 0 expr e { world := w } = _ from hrun] at hlawful
  exact ⟨z, hz, hhides, hv, hspares, hlawful.evolves⟩

theorem unaware_applied {c : Value} {args : List Value} (hc : H.Public x c)
    (hargs : ∀ v ∈ args, H.Public x v) : Unaware H x (Applied cfg room c args e) := by
  intro w v w' hw h
  obtain ⟨y, hy, hlist, hfresh⟩ := hw.list hargs
  obtain ⟨henv, henvIn⟩ := Hidden.public_env.mp (he.mono hy)
  obtain ⟨z, hz, hhides, hv, hspares, hevolves⟩ := Calls.hides (g := cfg.uncounted) (n := 0) hcfg
    hlist (hc.mono hy) hfresh henv henvIn (applied_ok.mp h)
  exact ⟨z, hy.trans hz, hhides, hv, (Store.Spares.list w.store _ .nil).trans hspares,
    (Store.Extends.list w.store args .nil).evolves.trans hevolves⟩

end Activities

/-- When the scene has grown, the activity is begun. If it fails, its end is one with `O`; if it comes
to a value and leaves what was held in `σ` as it is, the value and what has become of the scene have
`P`. -/
def Consults (σ : Scene) (y : Activity) (O : End Value → Prop) (P : Value → Scene → Prop) : Prop :=
  ∃ τ, σ.Grown τ ∧ (∀ stop w, y τ.world (.error stop w) → O (.error stop w)) ∧
    ∀ v υ, σ.Onward υ → y τ.world (.ok v υ.world) → P v υ

/-- The scene grown, with what is hidden held besides. -/
structure Covers (σ : Scene) (H : Hidden) (x : Extent) (σ' : Scene) : Prop where
  larger : σ.store.Extends σ'.store
  effects : σ'.world.effects = σ.world.effects
  hides : σ'.store.Hides H x
  root : 0 < x.frames
  cell : ∀ r, σ'.cell r ↔ σ.cell r ∨ H.cell r
  spine : σ'.spine = σ.spine
  binding : ∀ e name, σ'.binding e name ↔ σ.binding e name ∨ H.frame e

namespace Covers

variable {σ σ' τ' υ : Scene} {H : Hidden} {x : Extent} {y : Activity} {O : End Value → Prop}
  {E : Stop → World → Prop} {P P' : Value → Scene → Prop}

theorem refl (hsound : σ.store.Sound x) (hroot : 0 < x.frames) : σ.Covers .none x σ :=
  ⟨.refl _, rfl, hsound.hides, hroot, fun _ => (or_iff_left id).symm, rfl,
    fun _ _ => (or_iff_left id).symm⟩

theorem scene (h : σ.Covers H x σ') : ∃ τ, σ.Grown τ ∧ τ.world = σ'.world :=
  ⟨_, σ.grown_grow h.larger, congrArg (World.mk σ'.store) h.effects.symm⟩

theorem onward (h : σ.Covers H x σ') : σ.Onward σ' where
  evolves := h.larger.evolves
  cells := h.larger.cells
  cell hr := ⟨(h.cell _).mpr (.inl hr), h.larger.cell _ (σ.cell_lt hr)⟩
  spine hr := ⟨h.spine ▸ hr, congrArg Cell.tail (h.larger.cell _ (σ.spine_lt hr))⟩
  binding hb := ⟨(h.binding _ _).mpr (.inl hb), by rw [h.larger.frame _ (σ.frame_lt hb)]⟩

theorem public_head (h : σ.Covers H x σ') {r : Nat} (hr : σ.cell r) (hpair : H.Public x (.pair r)) :
    H.Public x (σ.store.head r) :=
  h.onward.head hr ▸ h.hides.head (Hidden.public_pair.mp hpair).1

theorem public_tail (h : σ.Covers H x σ') {r : Nat} (hr : σ.cell r) (hpair : H.Public x (.pair r)) :
    H.Public x (σ.store.tail r) :=
  h.onward.tail hr ▸ h.hides.tail (Hidden.public_pair.mp hpair).1

/-- All that comes to a scene may be hidden. -/
theorem grown (h : σ.Covers H x σ') (hτ : σ'.Grown τ') :
    σ.Covers (H.more σ'.store τ'.store) (x.padded τ'.store) τ' where
  larger := h.larger.trans hτ.larger
  effects := hτ.effects.trans h.effects
  hides := h.hides.more hτ.larger h.root
  root := (h.hides.measures.within_padded hτ.larger).frame_lt h.root
  cell r := by rw [hτ.cell, h.cell, or_assoc]; rfl
  spine := hτ.spine.trans h.spine
  binding e name := by rw [hτ.binding, h.binding, or_assoc]; rfl

/-- What an activity leaves alone is what was held, and what was hidden from it. -/
theorem after {z : Extent} (h : σ.Covers H x σ') (hυ : σ.Onward υ) (hhides : υ.store.Hides H z)
    (hspares : σ'.store.Spares H.terms.link υ.store) (hevolves : σ'.store.Evolves υ.store) :
    σ'.Onward (υ.besides hhides) := by
  refine ⟨hevolves, hspares.cells, fun {r} hr => ?_, fun {r} hr => ?_, fun {e name} hb => ?_⟩
  · rcases (h.cell r).mp hr with hheld | hhidden
    · obtain ⟨hheld', hsame⟩ := hυ.cell hheld
      exact ⟨.inl hheld', hsame.trans (h.larger.cell r (σ.cell_lt hheld)).symm⟩
    · refine ⟨.inr hhidden, ?_⟩
      by_contra hne
      obtain ⟨⟨_, _, hpublic⟩, -⟩ := hspares.cell r (σ'.cell_lt hr) hne
      exact hpublic hhidden
  · rw [h.spine] at hr
    obtain ⟨hheld, hsame⟩ := hυ.spine hr
    exact ⟨hheld, hsame.trans (congrArg Cell.tail (h.larger.cell r (σ.spine_lt hr))).symm⟩
  · rcases (h.binding e name).mp hb with hheld | hhidden
    · obtain ⟨hheld', hsame⟩ := hυ.binding hheld
      exact ⟨.inl hheld', by rw [h.larger.frame e (σ.frame_lt hheld)]; exact hsame⟩
    · refine ⟨.inr hhidden, ?_⟩
      by_contra hne
      obtain ⟨⟨_, _, hpublic⟩, -⟩ := hspares.binding e (σ'.frame_lt hb) name hne
      exact hpublic hhidden

/-- To wait for an activity that is not handed anything hidden is to consult it. -/
theorem consults (h : σ.Covers H x σ') (hawaits : σ'.Awaits y E P')
    (hy : ∀ H' x', (∀ u, H.Public x u → H'.Public x' u) → Unaware H' x' y)
    (hE : ∀ stop w, E stop w → O (.error stop w))
    (hP : ∀ v υ υ' H' x', σ.Onward υ → υ.Covers H' x' υ' → σ'.Onward υ' →
      (∀ u, H.Public x u → H'.Public x' u) → H'.Public x' v → P' v υ' → P v υ) :
    σ.Consults y O P := by
  obtain ⟨τ', hτ', hfailed, hdone⟩ := hawaits
  have hcovers := h.grown hτ'
  obtain ⟨τ, hτ, hworld⟩ := hcovers.scene
  have hmore : ∀ u, H.Public x u →
      (H.more σ'.store τ'.store).Public (x.padded τ'.store) u :=
    fun _ hu => h.hides.public_more hτ'.larger hu
  refine ⟨τ, hτ, fun stop w hw => hE stop w (hfailed stop w (hworld ▸ hw)), fun v υ hυ hv => ?_⟩
  rw [hworld] at hv
  obtain ⟨z, hz, hhides, hpublic, hspares, hevolves⟩ := hy _ _ hmore _ v υ.world hcovers.hides hv
  have hbesides : υ.Covers (H.more σ'.store τ'.store) z (υ.besides hhides) :=
    ⟨.refl _, rfl, hhides, hz.frame_lt hcovers.root, fun _ => .rfl, rfl, fun _ _ => .rfl⟩
  have honward := hcovers.after hυ hhides hspares hevolves
  exact hP v υ _ _ z hυ hbesides (hτ'.onward.trans honward) (fun u hu => (hmore u hu).mono hz) hpublic
    (hdone v _ honward hv)

end Covers

end Scene

/-- The pair is a combination in `e`; its operator stands for what the name is bound to in `root`. -/
structure Store.Invocation (s : Store) (root e r : Nat) (name : String) : Prop where
  env : e < s.frames.size
  cell : r < s.cells.size
  operator : ∃ c, s.lookup? root name = some c ∧ s.Denotes e (s.head r) c

section Invoking

variable {σ : Scene} {cfg : Settings} {root e r q room : Nat} {name : String}

theorem Store.Denotes.evaluates {w : World} {expr v : Value} (h : w.store.Denotes e expr v)
    (hlimit : cfg.stepLimit = none) : Evaluates cfg room expr e w (.ok v w) := by
  cases h with
  | symbol h => exact evaluates_ok.mpr (yields_symbol (n := 0) hlimit h)
  | constant hpair hsymbol => exact evaluates_ok.mpr (yields_constant (n := 0) hlimit hpair hsymbol w)

/-- What an operative of the prelude receives is the end of its combination. -/
theorem Store.Invocation.evaluates (h : σ.store.Invocation root e r name)
    (hlimit : cfg.stepLimit = none) (hname : σ.Sees name (.operative q) root) {o : End Value}
    (ho : Receives cfg (room + 1) (.operative q) (σ.store.tail r) e σ.world o) :
    Evaluates cfg (room + 1) (.pair r) e σ.world o := by
  obtain ⟨c, hlookup, hdenotes⟩ := h.operator
  cases hname.lookup.symm.trans hlookup
  have hoperator : Evaluates cfg room (σ.store.head r) e σ.world (.ok (.operative q) σ.world) :=
    hdenotes.evaluates hlimit
  exact .combination hlimit (.plain (n := 0) rfl (evaluates_ok.mp hoperator)) ho

end Invoking

namespace Scene

variable {σ : Scene} {u v : Value} {vs : List Value}

theorem Carries.held (h : σ.Carries v (u :: vs)) : ∃ r, v = .pair r ∧ σ.cell r ∧
    σ.store.head r = u ∧ σ.Carries (σ.store.tail r) vs := by
  cases h with
  | pair hr htail => exact ⟨_, rfl, hr, rfl, htail⟩

theorem Carries.eq_nil (h : σ.Carries v []) : v = .nil := by
  cases h
  rfl

theorem Carries.exists_in {x : Extent} (h : σ.Carries v vs) (hsound : σ.store.Sound x) : v.In x := by
  cases h with
  | nil => trivial
  | pair hr _ => exact Nat.lt_of_lt_of_eq (σ.cell_lt hr) hsound.cells_size

/-- A combination of a name that is seen, and its operands. -/
theorem Carries.invocation {name : String} {c : Value} {root r : Nat}
    (h : σ.Carries (.pair r) (.sym name :: vs)) (hname : σ.Sees name c root) :
    σ.store.Invocation root root r name ∧ σ.Carries (σ.store.tail r) vs := by
  obtain ⟨_, hr, hcell, hhead, hrest⟩ := h.held
  cases hr
  refine ⟨⟨hname.frame_lt, σ.cell_lt hcell, c, hname.lookup, ?_⟩, hrest⟩
  rw [hhead]
  exact .symbol hname.lookup

/-- There is room for a combination of a name that is seen. -/
theorem exists_invocation {x : Extent} {name : String} {c : Value} {root : Nat}
    (hsound : σ.store.Sound x) (hname : σ.Sees name c root) (hvs : ∀ v ∈ vs, v.In x) :
    ∃ τ y r, σ.Grown τ ∧ τ.store.Sound y ∧ τ.Carries (.pair r) (.sym name :: vs) ∧
      τ.Carries (τ.store.tail r) vs ∧ τ.store.Invocation root root r name := by
  obtain ⟨τ, y, expr, hτ, hs, -, hexpr⟩ := exists_list (σ := σ) hsound
    (List.forall_mem_cons.mpr ⟨show (Value.sym name).In x from trivial, hvs⟩)
  obtain ⟨r, rfl, -⟩ := hexpr.held
  obtain ⟨hinvocation, hrest⟩ := hexpr.invocation (hname.onward hτ.onward)
  exact ⟨τ, y, r, hτ, hs, hexpr, hrest, hinvocation⟩

end Scene

/-- In a new session the prelude is intact and nothing limits or observes what is done. -/
theorem Session.start_ready : ∃ (s : Session) (σ : Scene) (x : Extent),
    Session.start .empty none true [] = .ok s ∧ s.machine.world = σ.world ∧
    s.settings.stepLimit = none ∧ s.settings.Honest ∧ σ.Intact s.root Library.definitions ∧
    σ.store.Sound x := by
  obtain ⟨s, σ, hstart, hsettings, hworld, hintact⟩ := Session.start_intact
  obtain ⟨x, hs⟩ := Session.start_sound hstart
  refine ⟨s, σ, x, hstart, hworld, ?_, .of_empty ?_, hintact, ?_⟩
  · rw [hsettings]
    rfl
  · rw [hsettings]
    rfl
  · rw [Scene.store, ← hworld]
    exact hs.store

end Vau
