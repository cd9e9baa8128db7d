import Vau.Proofs.Counting
import Vau.Proofs.Hiding

/-! Nesting of the list functions. They call what they are given from environments of their own and
keep what they have collected in pairs of their own. A procedure does the same wherever it is called
from, and does not find what it is not handed; so it is enough to know of its calls that they leave
the list and the prelude as they are, and the nesting that a call of the list function needs is that
of one call of the procedure and a little more. -/

namespace Vau

/-- A combiner that does the same in whatever environment it is called. -/
def Detached (cfg : Settings) (s : Store) : Value → Prop
  | .operative q => q < s.operatives.size ∧ (s.operative q).dynamic.isSymbol = false
  | .primitive (.operation o) => o ≠ .vau
  | .primitive (.host slot _ _) => ∀ f, cfg.functions[slot]? = some f → ∀ vs e e', f vs e = f vs e'
  | _ => False

namespace Detached

variable {cfg : Settings} {s s' : Store} {c operands v : Value} {room a b n : Nat}

theorem evolves (h : Detached cfg s c) (hs : s.Evolves s') : Detached cfg s' c := by
  cases c with
  | operative q =>
    obtain ⟨-, -, hdynamic, -⟩ := hs.made q h.1
    exact ⟨Nat.lt_of_lt_of_le h.1 hs.operatives, by rw [hdynamic, h.2]⟩
  | primitive p => cases p <;> exact h
  | _ => exact h

theorem plain (h : Detached cfg s c) : c.isApplicative = false := by
  cases c with
  | applicative label u => exact h.elim
  | _ => rfl

theorem value_eq {o : Operation} (ho : o ≠ .vau) (vs : List Value) :
    o.value room a vs = o.value room b vs := by
  unfold Operation.value
  split
  case h_1 => exact absurd rfl ho
  all_goals rfl

theorem perform_eq {o : Operation} (ho : o ≠ .vau) (vs : List Value) :
    o.perform room a vs = o.perform room b vs := by
  unfold Operation.perform
  split
  · rfl
  · rw [value_eq ho]

theorem callOperative_eq {o : Operative} (ho : o.dynamic.isSymbol = false) (ev : Evaluation) :
    callOperative ev o operands a = callOperative ev o operands b := by
  have hdynamic (frame env : Nat) : bindDynamic frame env o.dynamic = pure () := by
    cases hd : o.dynamic with
    | sym name =>
      rw [hd] at ho
      cases ho
    | _ => rfl
  simp only [callOperative, hdynamic]

theorem combine_eq {m : Machine} (h : Detached cfg m.world.store c) (ev : Evaluation) (fuel : Nat) :
    combine cfg ev fuel room c operands a m = combine cfg ev fuel room c operands b m := by
  cases c with
  | operative q =>
    simp only [combine, Bind.bind, EStateM.bind, Deed.act, Deed.reads,
      callOperative_eq (a := a) (b := b) h.2]
  | primitive p =>
    cases p with
    | form f => exact h.elim
    | operation o => simp only [combine, callPrimitive, perform_eq (a := a) (b := b) h]
    | host slot name signature =>
      simp only [combine, callPrimitive]
      cases hf : cfg.functions[slot]? with
      | none => rfl
      | some f => simp only [h f hf _ a b]
  | _ => exact h.elim

variable {g : Gauge} {w w' : World}

theorem calls (h : Detached g.toSettings w.store c) (hcall : Calls g n room c operands a w v w') :
    Calls g n room c operands b w v w' := by
  obtain ⟨k, hk, hcall⟩ := hcall
  refine ⟨k, hk, fun fuel hfuel base m hm => ?_⟩
  obtain ⟨m', hrun, hm'⟩ := hcall fuel hfuel base m hm
  refine ⟨m', ?_, hm'⟩
  rw [← hrun]
  simp only [finish, Bind.bind, EStateM.bind]
  rw [combine_eq (a := b) (b := a) (by rwa [hm])]

theorem invokes {args : List Value} (h : Detached g.toSettings w.store c)
    (hcall : Invokes g n room c args a w v w') : Invokes g n room c args b w v w' :=
  calls (h.evolves (Store.Extends.list w.store args .nil).evolves) hcall

end Detached

namespace Item

/-- What is read is not hidden. -/
def Public (H : Hidden) (x : Extent) : Item → Prop
  | .head r => ¬ H.cell r ∧ r < x.cells
  | .value v => H.Public x v

variable {H : Hidden} {x y : Extent} {s t : Store} {item : Item}

theorem Public.mono (h : item.Public H x) (hy : x.Within y) : item.Public H y := by
  cases item with
  | head r => exact ⟨h.1, Nat.lt_of_lt_of_le h.2 hy.cells⟩
  | value v => exact Hidden.Public.mono h hy

theorem Public.more (h : item.Public H x) (hs : s.Hides H x) (ht : s.Extends t) :
    item.Public (H.more s t) (x.padded t) := by
  cases item with
  | head r =>
    have hlt : r < s.cells.size := hs.measures.cells ▸ h.2
    exact ⟨fun hhidden => hhidden.elim h.1 (by omega), Nat.lt_of_lt_of_le hlt ht.cells⟩
  | value v => exact hs.public_more ht h

theorem Public.read (h : item.Public H x) (hs : s.Hides H x) : H.Public x (item.read s) := by
  cases item with
  | head r => exact hs.head h.1
  | value v => exact h

end Item

namespace Scene

/-- For one item after the other the combiner, called from `e` in whatever the world has grown into,
comes to a value from which it goes on, and leaves what is held as it is. -/
def Works (cfg : Settings) (d : Nat) (c : Value) (e : Nat) {α : Type} (u : Usage α) :
    List Item → α → (α → World → Prop) → Scene → Prop
  | [], a, Q, σ => ∀ τ, σ.Grown τ → Q a τ.world
  | item :: items, a, Q, σ => ∀ τ, σ.Grown τ → ∀ room, d ≤ room → ∃ v υ,
    Invokes cfg.uncounted 0 room c (u.args a (item.read σ.store)) e τ.world v υ.world ∧ σ.Onward υ ∧
    ∃ b, u.next a (item.read σ.store) v = some b ∧ Works cfg d c e u items b Q υ

/-- The same world, in which the hidden places are held as well. -/
structure Besides (σ : Scene) (H : Hidden) (τ : Scene) : Prop where
  world : τ.world = σ.world
  cell : ∀ r, τ.cell r ↔ σ.cell r ∨ H.cell r
  spine : τ.spine = σ.spine
  binding : ∀ e name, τ.binding e name ↔ σ.binding e name ∨ H.frame e

/-- The scene in which the hidden places are held as well. -/
def besides (σ : Scene) {H : Hidden} {x : Extent} (h : σ.store.Hides H x) : Scene where
  world := σ.world
  cell r := σ.cell r ∨ H.cell r
  spine := σ.spine
  binding e name := σ.binding e name ∨ H.frame e
  cell_lt hr := hr.elim σ.cell_lt (h.hidden_lt.1 _)
  spine_lt := σ.spine_lt
  frame_lt hb := hb.elim σ.frame_lt (h.hidden_lt.2.1 _)

namespace Besides

variable {σ σ' τ' υ : Scene} {H : Hidden} {x y : Extent}

theorem of_besides (h : σ.store.Hides H x) : σ.Besides H (σ.besides h) :=
  ⟨rfl, fun _ => .rfl, rfl, fun _ _ => .rfl⟩

theorem refl (σ : Scene) : σ.Besides .none σ :=
  ⟨rfl, fun _ => (or_iff_left id).symm, rfl, fun _ _ => (or_iff_left id).symm⟩

theorem grown (h : σ.Besides H σ') (hτ : σ'.Grown τ') :
    ∃ τ, σ.Grown τ ∧ τ.world = τ'.world := by
  obtain ⟨hworld, -, -, -⟩ := h
  have hlarger : σ.store.Extends τ'.store := by
    rw [store, ← hworld]
    exact hτ.larger
  refine ⟨σ.grow _ hlarger, σ.grown_grow hlarger, ?_⟩
  show (⟨τ'.store, σ.world.effects⟩ : World) = τ'.world
  rw [← hworld, ← hτ.effects]

/-- What a call leaves alone is what was held, and what was hidden when it was made. -/
theorem onward (h : σ.Besides H σ') (hτ : σ'.Grown τ') (hυ : σ.Onward υ)
    (hhides : υ.store.Hides (H.more σ.store τ'.store) y)
    (hspares : τ'.store.Spares (H.more σ.store τ'.store).terms.link υ.store)
    (hevolves : τ'.store.Evolves υ.store) : τ'.Onward (υ.besides hhides) := by
  have hstore : σ'.store = σ.store := congrArg World.store h.world
  have hlarger : σ.store.Extends τ'.store := hstore ▸ hτ.larger
  refine ⟨hevolves, hspares.cells, fun {r} hr => ?_, fun {r} hr => ?_, fun {e name} hb => ?_⟩
  · have hhidden : σ.cell r ∨ (H.more σ.store τ'.store).cell r := by
      rw [hτ.cell, h.cell, hstore] at hr
      exact or_assoc.mp hr
    rcases hhidden with hheld | hhidden
    · obtain ⟨hheld', hsame⟩ := hυ.cell hheld
      exact ⟨.inl hheld', hsame.trans (hlarger.cell r (σ.cell_lt hheld)).symm⟩
    · refine ⟨.inr hhidden, ?_⟩
      by_contra hne
      obtain ⟨⟨_, _, hpublic⟩, -⟩ := hspares.cell r (τ'.cell_lt hr) hne
      exact hpublic hhidden
  · rw [hτ.spine, h.spine] at hr
    obtain ⟨hheld, hsame⟩ := hυ.spine hr
    exact ⟨hheld, hsame.trans (congrArg Cell.tail (hlarger.cell r (σ.spine_lt hr))).symm⟩
  · have hhidden : σ.binding e name ∨ (H.more σ.store τ'.store).frame e := by
      rw [hτ.binding, h.binding, hstore] at hb
      exact or_assoc.mp hb
    rcases hhidden with hheld | hhidden
    · obtain ⟨hheld', hsame⟩ := hυ.binding hheld
      exact ⟨.inl hheld', by rw [hlarger.frame e (σ.frame_lt hheld)]; exact hsame⟩
    · refine ⟨.inr hhidden, ?_⟩
      by_contra hne
      obtain ⟨⟨_, _, hpublic⟩, -⟩ := hspares.binding e (τ'.frame_lt hb) name hne
      exact hpublic hhidden

end Besides

variable {σ σ' : Scene} {cfg : Settings} {d e : Nat} {c : Value} {α : Type} {u : Usage α} {a : α}
  {items : List Item} {Q : α → World → Prop} {H : Hidden} {x : Extent}

/-- What is kept hidden need not be spared expressly. -/
theorem Works.serves (h : Works cfg d c e u items a Q σ) (hcfg : cfg.Honest) (hb : σ.Besides H σ')
    (hs : σ.store.Hides H x) (hroot : 0 < x.frames) (hdetached : Detached cfg σ.store c)
    (hc : H.Public x c) (hparts : ∀ v ∈ u.parts a, H.Public x v)
    (hitems : ∀ item ∈ items, item.Public H x) (he : ¬ H.frame e ∧ e < x.frames) :
    Serves cfg.uncounted 0 d c u items a (fun b τ => Q b τ.world) σ' := by
  induction items generalizing σ σ' H x a with
  | nil =>
    intro τ' hτ
    obtain ⟨τ, hτ, hworld⟩ := hb.grown hτ
    exact hworld ▸ h τ hτ
  | cons item items ih =>
    intro e' τ' hτ' room hroom
    obtain ⟨τ, hτ, hworld⟩ := hb.grown hτ'
    obtain ⟨v, υ, hcall, hυ, b, hnext, hrest⟩ := h τ hτ room hroom
    have hstore : σ'.store = σ.store := congrArg World.store hb.world
    have hlarger : σ.store.Extends τ'.store := hstore ▸ hτ'.larger
    obtain ⟨hitem, hitems⟩ := List.forall_mem_cons.mp hitems
    -- all that has come since is hidden from the call
    have hs' := hs.more hlarger hroot
    have hread := hs.public_more hlarger (hitem.read hs)
    have hparts' : ∀ w ∈ u.parts a, (H.more σ.store τ'.store).Public (x.padded τ'.store) w :=
      fun w hw => hs.public_more hlarger (hparts w hw)
    have hwithin := hs.measures.within_padded hlarger
    have hargs : ∀ w ∈ u.args a (item.read σ.store),
        (H.more σ.store τ'.store).Public (x.padded τ'.store) w := fun w hw =>
      List.forall_mem_cons.mpr ⟨hread, hparts'⟩ w (u.args_parts _ _ hw)
    obtain ⟨y, hy, hlist, hfresh⟩ := hs'.list hargs
    have he' : ¬ (H.more σ.store τ'.store).frame e := by
      have hlt := hs.measures.frames ▸ he.2
      exact fun hhidden => hhidden.elim he.1 (by omega)
    rw [hworld] at hcall
    have hdetached' := hdetached.evolves hlarger.evolves
    obtain ⟨z, hz, hυs, hv, hspares, hevolves⟩ := Calls.hides (g := cfg.uncounted) hcfg hlist
      ((hs.public_more hlarger hc).mono hy) hfresh he'
      ((hwithin.trans hy).frame_lt he.2) hcall
    have hxz := (hwithin.trans hy).trans hz
    have hfinally {w : Value} (hw : H.Public x w) : (H.more σ.store τ'.store).Public z w :=
      ((hs.public_more hlarger hw).mono hy).mono hz
    have hnext' : ∀ w ∈ u.parts b, (H.more σ.store τ'.store).Public z w := fun w hw =>
      List.forall_mem_cons.mpr ⟨hv, List.forall_mem_cons.mpr ⟨hfinally (hitem.read hs),
        fun w hw => hfinally (hparts w hw)⟩⟩ w (u.next_parts hnext hw)
    have hspares' := (Store.Spares.list τ'.store _ .nil).trans hspares
    have hevolves' := (Store.Extends.list τ'.store _ .nil).evolves.trans hevolves
    refine ⟨v, υ.besides hυs, ?_, hb.onward hτ' hυ hυs hspares' hevolves', b, ?_, ?_⟩
    · rw [hstore]
      exact hdetached'.invokes hcall
    · rw [hstore]
      exact hnext
    · refine ih hrest (.of_besides hυs) hυs (hxz.frame_lt hroot) (hdetached'.evolves hevolves')
        (hfinally hc) hnext' (fun i hi => ?_) ⟨he', hxz.frame_lt he.2⟩
      exact (((hitems i hi).more hs hlarger).mono hy).mono hz

section Calls

open Library

/-- A call of a list function of the prelude, and what it comes to when the procedure that it is
given works within `d` nested activations. -/
inductive ListCall (σ : Scene) (cfg : Settings) (d e : Nat) :
    String → List Value → (Value → Scene → Prop) → Prop
  | foldl {label : Nat} {c a xs : Value} {rs : List Nat} {Q : Value → World → Prop}
    (hxs : σ.Strung xs rs) (hc : Detached cfg σ.store c)
    (h : σ.Works cfg d c e .left (rs.map .head) a Q) :
    ListCall σ cfg d e "foldl" [.applicative label c, a, xs] fun v τ => Q v τ.world
  | foldr {label : Nat} {c a xs : Value} {rs : List Nat} {Q : Value → World → Prop}
    (hxs : σ.Strung xs rs) (hc : Detached cfg σ.store c)
    (h : σ.Works cfg d c e .right ((rs.map σ.store.head).reverse.map .value) a Q) :
    ListCall σ cfg d e "foldr" [.applicative label c, a, xs] fun v τ => Q v τ.world
  | map {label : Nat} {c xs : Value} {rs : List Nat} {Q : List Value → World → Prop}
    (hxs : σ.Strung xs rs) (hc : Detached cfg σ.store c)
    (h : σ.Works cfg d c e .each (rs.map .head) [] Q) :
    ListCall σ cfg d e "map" [.applicative label c, xs] fun v τ =>
      ∃ vs, τ.Carries v vs.reverse ∧ Q vs τ.world
  | filter {label : Nat} {c xs : Value} {rs : List Nat} {Q : List Value → World → Prop}
    (hxs : σ.Strung xs rs) (hc : Detached cfg σ.store c)
    (h : σ.Works cfg d c e .choice (rs.map .head) [] Q) :
    ListCall σ cfg d e "filter" [.applicative label c, xs] fun v τ =>
      ∃ vs, τ.Carries v vs.reverse ∧ Q vs τ.world
  | reverse {xs : Value} {rs : List Nat} (hxs : σ.Strung xs rs) :
    ListCall σ cfg d e "reverse" [xs] fun v τ => τ.Carries v (rs.map σ.store.head).reverse
  | append {lists : List Value} {rss : List (List Nat)} (hlists : List.Forall₂ σ.Strung lists rss) :
    ListCall σ cfg d e "append" lists fun v τ =>
      τ.Carries v (rss.flatMap fun rs => rs.map σ.store.head)
  | length {xs : Value} {rs : List Nat} (hxs : σ.Strung xs rs) :
    ListCall σ cfg d e "length" [xs] fun v _ => v = .int rs.length
  | nth {xs : Value} {rs : List Nat} {i : Nat} (hxs : σ.Strung xs rs) (hi : i < rs.length) :
    ListCall σ cfg d e "nth" [xs, .int i] fun v _ => v = σ.store.head rs[i]

variable {root : Nat} {name : String} {vs : List Value} {P : Value → Scene → Prop}

theorem Works.of_serves (h : Serves cfg.uncounted 0 d c u items a (fun b τ => Q b τ.world) σ) :
    Works cfg d c e u items a Q σ := by
  induction items generalizing σ a with
  | nil => exact fun τ hτ => h τ hτ
  | cons item items ih =>
    intro τ hτ room hroom
    obtain ⟨v, υ, hcall, hυ, b, hnext, hrest⟩ := h e τ hτ room hroom
    exact ⟨v, υ, hcall, hτ.onward.trans hυ, b, hnext, ih hrest⟩

theorem Works.serves_sound {label : Nat} (h : Works cfg d c e u items a Q σ) (hcfg : cfg.Honest)
    (hsound : σ.store.Sound x) (hdetached : Detached cfg σ.store c)
    (hc : (Value.applicative label c).In x) (hparts : ∀ v ∈ u.parts a, v.In x)
    (hitems : ∀ item ∈ items, item.Public .none x) (he : e < x.frames) :
    Serves cfg.uncounted 0 d c u items a (fun b τ => Q b τ.world) σ :=
  h.serves hcfg (.refl σ) hsound.hides (Nat.lt_of_le_of_lt (Nat.zero_le e) he) hdetached
    ⟨.none c, hc.2⟩ (fun v hv => ⟨.none v, hparts v hv⟩) hitems ⟨id, he⟩

theorem public_heads (hsound : σ.store.Sound x) {v : Value} {rs : List Nat} (h : σ.Strung v rs) :
    ∀ item ∈ rs.map Item.head, item.Public .none x := by
  intro item hitem
  obtain ⟨r, hr, rfl⟩ := List.mem_map.mp hitem
  exact ⟨id, hsound.cells_size ▸ h.lt r hr⟩

theorem public_values (hsound : σ.store.Sound x) (rs : List Nat) :
    ∀ item ∈ (rs.map σ.store.head).reverse.map Item.value, item.Public .none x := by
  intro item hitem
  obtain ⟨v, hv, rfl⟩ := List.mem_map.mp hitem
  obtain ⟨r, -, rfl⟩ := List.mem_map.mp (List.mem_reverse.mp hv)
  exact ⟨.none _, hsound.head r⟩

/-- However long the list is, the function needs little more nesting than what it is given. -/
theorem ListCall.invoked (h : ListCall σ cfg d e name vs P) (hlimit : cfg.stepLimit = none)
    (hcfg : cfg.Honest) (hσ : σ.Intact root definitions) (hsound : σ.store.Sound x)
    (hvs : ∀ v ∈ vs, v.In x) (he : e < x.frames) :
    ∃ N label q, σ.Sees name (.applicative label (.operative q)) root ∧
      σ.Invoked cfg.uncounted N (d + 15) (.operative q) vs e P := by
  have hlimit' : cfg.uncounted.stepLimit = none := hlimit
  cases h with
  | @foldl label c a xs rs Q hxs hc h =>
    obtain ⟨q, _, -, hname⟩ := hσ.procedure (d := Library.foldl) (by simp [definitions, parts]) rfl
    have hserves := h.serves_sound hcfg hsound hc (hvs _ List.mem_cons_self)
      (List.forall_mem_singleton.mpr (hvs a (by simp))) (public_heads hsound hxs) he
    exact ⟨_, _, q, hname, .foldl hlimit' hσ hname hxs hc.plain hserves (Nat.le_refl _) (by omega)⟩
  | @foldr label c a xs rs Q hxs hc h =>
    obtain ⟨q, _, -, hname⟩ := hσ.procedure (d := Library.foldr) (by simp [definitions, parts]) rfl
    have hserves := h.serves_sound hcfg hsound hc (hvs _ List.mem_cons_self)
      (List.forall_mem_singleton.mpr (hvs a (by simp))) (public_values hsound rs) he
    exact ⟨_, _, q, hname, .foldr hlimit' hσ hname hxs hc.plain hserves (Nat.le_refl _) (by omega)⟩
  | @map label c xs rs Q hxs hc h =>
    obtain ⟨q, _, -, hname⟩ := hσ.procedure (d := Library.map) (by simp [definitions, parts]) rfl
    have hserves := h.serves_sound hcfg hsound hc (hvs _ List.mem_cons_self)
      (List.forall_mem_nil _) (public_heads hsound hxs) he
    exact ⟨_, _, q, hname, .map hlimit' hσ hname hxs hc.plain hserves (Nat.le_refl _) (by omega)⟩
  | @filter label c xs rs Q hxs hc h =>
    obtain ⟨q, _, -, hname⟩ := hσ.procedure (d := Library.filter) (by simp [definitions, parts]) rfl
    have hserves := h.serves_sound hcfg hsound hc (hvs _ List.mem_cons_self)
      (List.forall_mem_nil _) (public_heads hsound hxs) he
    exact ⟨_, _, q, hname, .filter hlimit' hσ hname hxs hc.plain hserves (Nat.le_refl _) (by omega)⟩
  | @reverse xs rs hxs =>
    obtain ⟨q, _, -, hname⟩ :=
      hσ.procedure (d := Library.reverse) (by simp [definitions, parts]) rfl
    exact ⟨_, _, q, hname, .reverse hlimit' hσ hname hxs (Nat.le_refl _) (by omega)
      fun τ v _ hv => hv⟩
  | @append _ rss hlists =>
    obtain ⟨q, _, -, hname⟩ := hσ.procedure (d := Library.append) (by simp [definitions, parts]) rfl
    have hn : ∀ rs ∈ rss, rs.length ≤ rss.flatten.length := fun rs hrs =>
      (List.sublist_flatten_of_mem hrs).length_le
    exact ⟨_, _, q, hname, .append hlimit' hσ hname hlists hn (Nat.le_refl _) (by omega)
      fun τ v _ hv => hv⟩
  | @length xs rs hxs =>
    obtain ⟨q, _, -, hname⟩ := hσ.procedure (d := Library.length) (by simp [definitions, parts]) rfl
    exact ⟨_, _, q, hname, .length hlimit' hσ hname hxs (Nat.le_refl _) (by omega)
      fun _ _ => rfl⟩
  | @nth xs rs i hxs hi =>
    obtain ⟨q, _, -, hname⟩ := hσ.procedure (d := Library.nth) (by simp [definitions, parts]) rfl
    exact ⟨_, _, q, hname, .nth hlimit' hσ hname hxs hi (Nat.le_refl _) (by omega)
      fun _ _ => rfl⟩

end Calls

end Scene

namespace Store

/-- The expression is a symbol that stands for the value in `e`, or a constant. -/
inductive Denotes (s : Store) (e : Nat) : Value → Value → Prop
  | symbol {name : String} {v : Value} (h : s.lookup? e name = some v) : Denotes s e (.sym name) v
  | constant {v : Value} (hpair : v.isPair = false) (hsymbol : v.isSymbol = false) : Denotes s e v v

/-- The pair is the application of the name, which stands for what it does in `root`, to expressions
for the values. -/
structure Applies (s : Store) (root e r : Nat) (name : String) (vs : List Value) : Prop where
  env : e < s.frames.size
  head : s.head r = .sym name
  name : s.lookup? e name = s.lookup? root name
  operands : ∃ exprs, s.Items .nil (s.tail r) exprs ∧ List.Forall₂ (s.Denotes e) exprs vs

variable {s : Store} {x : Extent} {e : Nat} {v last : Value} {vs exprs : List Value}

theorem Items.all_in (h : s.Items last v vs) (hs : s.Sound x) : ∀ u ∈ vs, u.In x := by
  induction h with
  | done => exact List.forall_mem_nil _
  | pair _ _ ih => exact List.forall_mem_cons.mpr ⟨hs.head _, ih⟩

theorem Denotes.all_in (h : List.Forall₂ (s.Denotes e) exprs vs) (hs : s.Sound x)
    (hexprs : ∀ u ∈ exprs, u.In x) : ∀ v ∈ vs, v.In x := by
  induction h with
  | nil => exact List.forall_mem_nil _
  | cons hv _ ih =>
    obtain ⟨hexpr, hexprs⟩ := List.forall_mem_cons.mp hexprs
    refine List.forall_mem_cons.mpr ⟨?_, ih hexprs⟩
    cases hv with
    | symbol h => exact hs.lookup? h
    | constant _ _ => exact hexpr

theorem Denotes.operands {g : Gauge} {n room : Nat} {w : World} (hlimit : g.stepLimit = none)
    (hitems : w.store.Items .nil v exprs) (h : List.Forall₂ (w.store.Denotes e) exprs vs) :
    Operands g (n + 1) room e v w vs w := by
  induction hitems generalizing vs with
  | done =>
    cases h
    exact .nil
  | @pair r _ _ _ ih =>
    obtain _ | ⟨hv, hvs⟩ := h
    refine .cons ?_ (ih hvs)
    generalize w.store.head r = expr at hv ⊢
    cases hv with
    | symbol h => exact yields_symbol hlimit h
    | constant hpair hsymbol => exact yields_constant hlimit hpair hsymbol w

end Store

/-- The list functions need little more nesting than the procedure that they are given, however long
the list is: while the prelude is intact they come to their result. -/
theorem Library.list_nesting : ∃ k, ∀ {cfg : Settings} {σ : Scene} {x : Extent} {root d e r : Nat}
    {name : String} {vs : List Value} {Q : Value → Scene → Prop}, cfg.stepLimit = none →
    cfg.Honest → σ.Intact root definitions → σ.store.Sound x → σ.ListCall cfg d e name vs Q →
    σ.store.Applies root e r name vs →
    ∀ room, d + k ≤ room → σ.Comes (Yields cfg.uncounted 0 room (.pair r) e) Q := by
  refine ⟨15, ?_⟩
  intro cfg σ x root d e r name vs Q hlimit hcfg hσ hsound hcall happly room hroom
  obtain ⟨exprs, hitems, hdenotes⟩ := happly.operands
  have hexprs : ∀ u ∈ exprs, u.In x := hitems.all_in hsound
  have hvs := Store.Denotes.all_in hdenotes hsound hexprs
  obtain ⟨N, label, q, hname, hinvoked⟩ :=
    hcall.invoked hlimit hcfg hσ hsound hvs (hsound.frames_size ▸ happly.env)
  obtain ⟨v, τ, hv, hτ, hQ⟩ := hinvoked σ (.refl σ) room hroom
  obtain ⟨room, rfl⟩ : ∃ l, room = l + 1 := ⟨room - 1, by omega⟩
  refine ⟨v, τ, ?_, hτ, hQ⟩
  have hlimit' : cfg.uncounted.stepLimit = none := hlimit
  have hoperator : Yields cfg.uncounted (N + vs.length + 1) room (σ.store.head r) e σ.world
      (.applicative label (.operative q)) σ.world := by
    rw [happly.head]
    exact yields_symbol hlimit' (happly.name.trans hname.lookup)
  have hoperands : Operands cfg.uncounted (N + vs.length + 1) room e (σ.store.tail r) σ.world vs
      σ.world := Store.Denotes.operands hlimit' hitems hdenotes
  exact (yields_combination hlimit' (.wrapped rfl hoperator hoperands (by omega))
    (hv.fuller (by omega))).uncounted 0

namespace Scene

variable {σ : Scene} {x : Extent} {v : Value} {vs : List Value}

theorem Carries.items (h : σ.Carries v vs) : σ.store.Items .nil v vs := by
  induction h with
  | nil => exact .done
  | pair hr _ ih => exact .pair (σ.cell_lt hr) ih

theorem Carries.uncons {u : Value} (h : σ.Carries v (u :: vs)) :
    ∃ r, v = .pair r ∧ σ.store.head r = u ∧ σ.Carries (σ.store.tail r) vs := by
  cases h with
  | pair _ htail => exact ⟨_, rfl, rfl, htail⟩

/-- There is room for lists of any values. -/
theorem exists_lists {lists : List (List Value)} (hsound : σ.store.Sound x)
    (hlists : ∀ vs ∈ lists, ∀ v ∈ vs, v.In x) :
    ∃ τ y us, σ.Grown τ ∧ x.Within y ∧ τ.store.Sound y ∧ (∀ u ∈ us, u.In y) ∧
      List.Forall₂ τ.Carries us lists := by
  induction lists with
  | nil => exact ⟨σ, x, [], .refl σ, .refl x, hsound, List.forall_mem_nil _, .nil⟩
  | cons vs lists ih =>
    obtain ⟨hvs, hrest⟩ := List.forall_mem_cons.mp hlists
    obtain ⟨τ, y, us, hτ, hy, hs, hus, hcarries⟩ := ih hrest
    obtain ⟨z, hz, hs', hnew⟩ :=
      hs.list (fun v hv => (hvs v hv).mono hy) (show Value.nil.In y from trivial)
    have hgrown := τ.grown_grow (.list τ.store vs .nil)
    refine ⟨_, z, (τ.store.list vs .nil).1 :: us, hτ.trans hgrown, hy.trans hz, hs', ?_, .cons ?_ ?_⟩
    · exact List.forall_mem_cons.mpr ⟨hnew, fun u hu => (hus u hu).mono hz⟩
    · exact carries_list τ.store vs (.refl _) fun r hr hlt => .inr ⟨hr, hlt⟩
    · exact hcarries.imp fun _ _ hu => hu.onward hgrown.onward

theorem exists_list (hsound : σ.store.Sound x) (hvs : ∀ v ∈ vs, v.In x) :
    ∃ τ y xs, σ.Grown τ ∧ τ.store.Sound y ∧ xs.In y ∧ τ.Carries xs vs := by
  obtain ⟨τ, y, us, hτ, -, hs, hin, hus⟩ :=
    exists_lists hsound (List.forall_mem_singleton.mpr hvs)
  cases hus with
  | cons hxs hnil =>
    cases hnil
    exact ⟨τ, y, _, hτ, hs, List.forall_mem_singleton.mp hin, hxs⟩

theorem exists_scope (hsound : σ.store.Sound x) {p : Nat} (hp : p < σ.store.frames.size)
    {bs : List (String × Value)} (hbs : ∀ b ∈ bs, b.2.In x) :
    ∃ τ y e, σ.Grown τ ∧ τ.store.Sound y ∧ τ.Scope e bs.reverse p := by
  have hparent : ∀ q, some p = some q → q < x.frames := by
    rintro _ ⟨⟩
    exact hsound.frames_size ▸ hp
  obtain ⟨y, hy, hs, -⟩ := hsound.newFrame hparent
  refine ⟨_, y, σ.store.frames.size, σ.grown_grow (.opened σ.store p bs), ?_, scope_opened σ hp bs⟩
  exact hs.defineAll _ fun b hb => (hbs b hb).mono hy

end Scene

/-- In a new session that has been given a list of two numbers, `(foldr cons () xs)` copies it. -/
theorem Library.list_nesting_foldr : ∃ (k : Nat) (s : Session) (σ : Scene) (label e r : Nat)
    (xs : Value), Session.start .empty none true [] = .ok s ∧ s.machine.store.Extends σ.store ∧
    σ.Carries xs [.int 1, .int 2] ∧ σ.store.Applies s.root e r "foldr"
      [.applicative label (.primitive (.operation .cons)), .nil, xs] ∧
    ∀ room, k ≤ room → σ.Comes (Yields s.settings.uncounted 0 room (.pair r) e) fun v _ =>
      v.isPair = true := by
  obtain ⟨k, hnesting⟩ := list_nesting
  obtain ⟨s, σ₀, hstart, hsettings, hworld, hintact⟩ := Session.start_intact
  obtain ⟨x₀, hs⟩ := Session.start_sound hstart
  obtain ⟨label, hcons⟩ := hintact.wrapped (p := .operation .cons) (by decide) rfl
  obtain ⟨_, _, -, hfoldr⟩ :=
    hintact.procedure (d := Library.foldr) (by simp [definitions, parts]) rfl
  have hs₀ : σ₀.store.Sound x₀ := by
    rw [Scene.store, ← hworld]
    exact hs.store
  -- a list of two numbers, a frame that binds it, and the expression
  have hnumbers : ∀ v ∈ [Value.int 1, Value.int 2], v.In x₀ := by
    simp [Value.In]
  obtain ⟨σ₁, x₁, xs, hgrown₁, hs₁, hxs, hcarries⟩ := Scene.exists_list hs₀ hnumbers
  have hroot := Nat.lt_of_lt_of_le hintact.lt hgrown₁.larger.frames
  obtain ⟨σ₂, x₂, e, hgrown₂, hs₂, hscope⟩ := Scene.exists_scope hs₁ hroot
    (List.forall_mem_singleton.mpr (show ("xs", xs).2.In x₁ from hxs))
  have hcode : ∀ v ∈ [Value.sym "foldr", .sym "cons", .nil, .sym "xs"], v.In x₂ := by
    simp [Value.In]
  obtain ⟨σ, x, expr, hgrown₃, hsound, -, hexpr⟩ := Scene.exists_list hs₂ hcode
  obtain ⟨r, rfl, hhead, hrest⟩ := hexpr.uncons
  have hgrown := hgrown₁.trans (hgrown₂.trans hgrown₃)
  have hscope' := hscope.onward hgrown₃.onward
  have hcarries' := hcarries.onward (hgrown₂.trans hgrown₃).onward
  have happly : σ.store.Applies s.root e r "foldr"
      [.applicative label (.primitive (.operation .cons)), .nil, xs] := by
    have hname := hfoldr.onward hgrown.onward
    refine ⟨σ.frame_lt (hscope'.held ""), hhead, ?_, _, hrest.items, ?_⟩
    · exact (hscope'.sees_outer rfl hname).lookup.trans hname.lookup.symm
    · refine .cons (.symbol ?_) (.cons (.constant rfl rfl) (.cons (.symbol ?_) .nil))
      · exact (hscope'.sees_outer rfl (hcons.onward hgrown.onward)).lookup
      · exact (hscope'.sees rfl).lookup
  obtain ⟨rs, hstrung, hheads⟩ := hcarries'.strung
  have hworks : σ.Works s.settings 0 (.primitive (.operation .cons)) e .right
      ((rs.map σ.store.head).reverse.map .value) .nil fun v _ => v.isPair = true := by
    refine .of_serves (Scene.serves_cons (σ.steady_values _) .nil fun τ v _ hv => ?_)
    rw [hheads] at hv
    obtain ⟨_, rfl, -⟩ := hv.uncons
    rfl
  refine ⟨k, s, σ, label, e, r, xs, hstart, ?_, hcarries', happly, fun room hroom => ?_⟩
  · rw [Machine.store, hworld]
    exact hgrown.larger
  · have hdetached : Detached s.settings σ.store (.primitive (.operation .cons)) := by
      simp [Detached]
    refine hnesting ?_ (.of_empty ?_) (hintact.onward hgrown.onward) hsound
      (.foldr hstrung hdetached hworks) happly room (by omega)
    · rw [hsettings]
      rfl
    · rw [hsettings]
      rfl

end Vau
