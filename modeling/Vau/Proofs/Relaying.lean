import Vau.Proofs.Passing
import Vau.Proofs.Traversal

/-! The list functions and the effects of what they call. A fold calls the procedure that it is given
for one item after the other and goes on from what the calls come to; it makes pairs and frames of its
own and changes nothing. If a call fails, the fold fails with it and makes no other call. -/

namespace Vau

theorem Item.Public.imp {H H' : Hidden} {x x' : Extent} {item : Item} (h : item.Public H x)
    (hmore : ∀ v, H.Public x v → H'.Public x' v) : item.Public H' x' := by
  cases item with
  | head r => exact Hidden.public_pair.mp (hmore _ (Hidden.public_pair.mpr h))
  | value v => exact hmore v h

namespace Scene

open Library Vau.Tree

/-- The combiner is called for one item after the other, each time with what was kept of the calls
before it; in the end `Q` holds of what is kept. A call that fails ends it all. -/
def Folds (cfg : Settings) (room : Nat) (c : Value) (e : Nat) {α : Type} (u : Usage α)
    (O : End Value → Prop) (Q : α → Scene → Prop) : List Item → α → Scene → Prop
  | [], a, σ => Q a σ
  | item :: items, a, σ =>
    σ.Consults (Applied cfg room c (u.args a (item.read σ.store)) e) O fun v τ =>
      ∀ b, u.next a (item.read σ.store) v = some b → Folds cfg room c e u O Q items b τ

variable {σ σ' τ : Scene} {cfg : Settings} {e f n p q r room root κ label : Nat}
  {a acc c operands v xs : Value} {rs : List Nat} {vs : List Value} {items : List Item}
  {H : Hidden} {x : Extent}

section Folding

variable (hlimit : cfg.stepLimit = none) (h : σ.Intact root definitions)
  (hname : σ.Sees "foldl" (.applicative label (.operative q)) root) (hroom : 2 ≤ room)
include hlimit h hname hroom

/-- In a frame of its own `foldl` goes on with the code for items that are left, or for none. -/
theorem enters_foldl {b : Bool} (hitems : σ.store.Items .nil operands [c, a, xs])
    (hxs : (xs == .nil) = b) (e : Nat) : ∃ f expr τ, σ.Grown τ ∧
      τ.Scope f [("f", c), ("acc", a), ("xs", xs)] root ∧
      τ.Holds expr (if b then "acc" else list ["foldl", "f",
        list ["f", "acc", list ["head", "xs"]], list ["tail", "xs"]]) ∧
      ∀ o, Evaluates cfg (room + 1) expr f τ.world o →
        Receives cfg (room + 1) (.operative q) operands e σ.world o := by
  have hw := h.written (d := Library.foldl) (by simp [definitions, parts]) rfl hname
  obtain ⟨τ, f, form, hτ, hscope, hform, hgo⟩ :=
    hw.receives cfg ["f", "acc", "xs"] h.lt rfl hitems e
  have h' := h.onward hτ.onward
  obtain ⟨_, hnull⟩ := h'.wrapped (p := .operation (.test .null)) (by decide) rfl
  obtain ⟨room, rfl⟩ : ∃ k, room = k + 1 := ⟨room - 1, by omega⟩
  obtain ⟨expr, υ, hυ, hexpr, hgo'⟩ := hform.branch (n := 2) (d := 1) (b := b) hlimit h'
    (fun v hv => hscope.sees_outer rfl hv) (fun υ hυ => by
      have hscope' := hscope.onward hυ.onward
      exact .null hlimit (hscope'.sees_outer rfl (hnull.onward hυ.onward))
        (.symbol hlimit (hscope'.sees rfl) rfl) hxs (Nat.le_refl 1))
    (show 1 ≤ room by omega) (by omega)
  exact ⟨f, expr, υ, hτ.trans hυ, hscope.onward hυ.onward, hexpr, fun o ho => hgo _ o (hgo' o ho)⟩

theorem receives_foldl_nil (hitems : σ.store.Items .nil operands [c, a, .nil]) (e : Nat) :
    ∃ τ, σ.Grown τ ∧ Receives cfg (room + 1) (.operative q) operands e σ.world (.ok a τ.world) := by
  obtain ⟨f, expr, τ, hτ, hscope, hexpr, hgo⟩ :=
    enters_foldl (b := true) hlimit h hname hroom hitems rfl e
  exact ⟨τ, hτ, hgo _ (Holds.evaluates hlimit hexpr (hscope.sees rfl))⟩

/-- `foldl` waits for the call on the first item, and goes on with the items that are left. -/
theorem Awaits.folding {label' : Nat}
    (hitems : σ.store.Items .nil operands [.applicative label' c, a, .pair r])
    (hplain : c.isApplicative = false) (hr : σ.cell r ∨ σ.spine r) (e : Nat) :
    ∃ f, σ.Awaits (Applied cfg room c [a, σ.store.head r] f)
      (fun stop w => Receives cfg (room + 1) (.operative q) operands e σ.world (.error stop w))
      fun v τ => ∃ φ operands', τ.Grown φ ∧
        φ.store.Items .nil operands' [.applicative label' c, v, φ.store.tail r] ∧
        ∀ o, Receives cfg (room + 1) (.operative q) operands' f φ.world o →
          Receives cfg (room + 1) (.operative q) operands e σ.world o := by
  obtain ⟨_, hfirst⟩ := h.wrapped (p := .operation .head) (by decide) rfl
  obtain ⟨_, hrest⟩ := h.wrapped (p := .operation .tail) (by decide) rfl
  obtain ⟨f, expr, τ, hτ, hscope, hexpr, hgo⟩ :=
    enters_foldl (b := false) hlimit h hname hroom hitems rfl e
  have hheld {υ : Scene} (hυ : σ.Onward υ) : r < υ.store.cells.size :=
    hr.elim (fun hr => υ.cell_lt (hυ.cell hr).1) fun hr => υ.spine_lt (hυ.spine hr).1
  have hsame {υ : Scene} (hυ : σ.Onward υ) : υ.store.tail r = σ.store.tail r :=
    hr.elim hυ.tail fun hr => (hυ.spine hr).2
  obtain ⟨room, rfl⟩ : ∃ k, room = k + 1 := ⟨room - 1, by omega⟩
  -- the call of the combiner is the second operand of `foldl`
  have hawaits : τ.Awaits (Applied cfg (room + 1) c [a, σ.store.head r] f)
      (fun stop w => Evaluates cfg (room + 2) expr f τ.world (.error stop w))
      fun v υ => υ.Leads (Applied cfg (room + 2) (.operative q)
        [.applicative label' c, v, σ.store.tail r] f) (Evaluates cfg (room + 2) expr f τ.world) := by
    refine Awaits.argument (n := 3) (d := 1) ["f"] [.applicative label' c] [σ.store.tail r] hlimit
      (hscope.sees_outer rfl (hname.onward hτ.onward)) rfl hexpr (.symbol hlimit (hscope.sees rfl) rfl)
      (fun υ hυ => ?_) (by simp) (by omega) fun x υ hυ hx => ?_
    · have hscope' := hscope.onward hυ
      refine (Finds.tail hlimit (hscope'.sees_outer rfl (hrest.onward (hτ.onward.trans hυ)))
        (.symbol hlimit (hscope'.sees rfl) rfl) (hheld (hτ.onward.trans hυ)) (Nat.le_refl 1)).mono ?_
      rintro _ φ - rfl
      rw [hsame (hτ.onward.trans hυ)]
      rfl
    · have hscope' := hscope.onward hυ.onward
      refine .applies (n := 1) (d := 1) hlimit (hscope'.sees rfl) hplain hx ?_ (by simp) (by omega)
      refine .symbol hlimit (hscope'.sees rfl) ?_
      refine (Finds.head hlimit (hscope'.sees_outer rfl (hfirst.onward (hτ.trans hυ).onward))
        (.symbol hlimit (hscope'.sees rfl) rfl) (hheld (hτ.trans hυ).onward) (Nat.le_refl 1)).mono ?_
      rintro _ φ - rfl
      rw [(hτ.trans hυ).head (hheld (.refl σ))]
      rfl
  refine ⟨f, .after hτ (hawaits.mono (fun stop w hw => hgo _ hw) fun v υ hυ hv => ?_)⟩
  obtain ⟨φ, hφ, hcall⟩ := hv
  have hlist := φ.grown_grow (.list φ.store [.applicative label' c, v, σ.store.tail r] .nil)
  refine ⟨_, (φ.store.list [.applicative label' c, v, σ.store.tail r] .nil).1, hφ.trans hlist, ?_,
    fun o ho => hgo o (hcall o ho)⟩
  rw [hsame (hτ.onward.trans (hυ.trans (hφ.trans hlist).onward))]
  exact φ.store.items_list _ .nil

end Folding

/-- The combiner `κ`, called with what stands by `R` for what is kept and with an item, waits for the
call of `c` on the item and goes on to what stands for what is kept of it. -/
def Relays (σ : Scene) (cfg : Settings) (room : Nat) (c : Value) (e : Nat) {α : Type} (u : Usage α)
    (room' : Nat) (κ : Value) (R : Value → α → Scene → Prop) : Prop :=
  ∀ τ acc a z f, σ.Onward τ → R acc a τ → τ.Awaits (Applied cfg room c (u.args a z) e)
    (fun stop w => Applied cfg room' κ [acc, z] f τ.world (.error stop w)) fun v υ =>
      ∀ b, u.next a z v = some b → ∃ acc' φ, υ.Grown φ ∧ R acc' b φ ∧
        Applied cfg room' κ [acc, z] f τ.world (.ok acc' φ.world)

section Core

variable {α : Type} {u : Usage α} {a : α} {R : Value → α → Scene → Prop} {Q : α → Scene → Prop}
  {O : End Value → Prop} {κ : Value} {room' label' : Nat}

theorem Relays.onward (h : σ.Relays cfg room c e u room' κ R) (hτ : σ.Onward τ) :
    τ.Relays cfg room c e u room' κ R :=
  fun υ acc a z f hυ => h υ acc a z f (hτ.trans hυ)

/-- What `foldl` does with a combiner that relays the calls is to call, whatever it holds besides. -/
theorem Covers.folds (hlimit : cfg.stepLimit = none) (hcfg : cfg.Honest) (hσ : σ.Covers H x σ')
    (h : σ'.Intact root definitions)
    (hname : σ'.Sees "foldl" (.applicative label (.operative q)) root) (hroom : 2 ≤ room')
    (hplain : κ.isApplicative = false) (hR : ∀ {σ τ v a}, R v a σ → σ.Onward τ → R v a τ)
    (hrelays : σ'.Relays cfg room c e u room' κ R)
    (hoperands : σ'.store.Items .nil operands [.applicative label' κ, acc, xs])
    (hxs : σ'.Strung xs rs) (hsame : List.Forall₂ σ'.Same items (rs.map .head))
    (hsteady : σ.Steady items) (hacc : R acc a σ') (hc : H.Public x c)
    (hparts : ∀ v ∈ u.parts a, H.Public x v) (hitems : ∀ item ∈ items, item.Public H x)
    (he : H.Public x (.env e)) (f : Nat)
    (hE : ∀ stop w, Receives cfg (room' + 1) (.operative q) operands f σ'.world (.error stop w) →
      O (.error stop w))
    (hQ : ∀ τ τ' H' x' acc b, τ.Covers H' x' τ' → σ'.Onward τ' → R acc b τ' →
      Receives cfg (room' + 1) (.operative q) operands f σ'.world (.ok acc τ'.world) → Q b τ) :
    Folds cfg room c e u O Q items a σ := by
  -- on the items; with each call the scene and what it is covered by go onward
  induction items generalizing σ σ' H x acc a operands xs rs f with
  | nil =>
    obtain rfl : rs = [] := by simpa using hsame
    cases hxs
    obtain ⟨τ', hτ', hdone⟩ := receives_foldl_nil hlimit h hname hroom hoperands f
    exact hQ σ τ' _ _ acc a (hσ.grown hτ') hτ'.onward (hR hacc hτ'.onward) hdone
  | cons item items ih =>
    obtain _ | @⟨r, rs, hr, hrest⟩ := hxs
    · cases hsame
    obtain ⟨hfirst, hsame⟩ := List.forall₂_cons.mp hsame
    obtain ⟨hpublic, hitems⟩ := List.forall_mem_cons.mp hitems
    obtain ⟨τ, hτ, hworld⟩ := hσ.scene
    have hread : item.read σ'.store = item.read σ.store := by
      rw [show σ'.store = τ.store from (congrArg World.store hworld).symm]
      exact hsteady.read hτ List.mem_cons_self
    have hz : H.Public x (item.read σ.store) := hread ▸ hpublic.read hσ.hides
    obtain ⟨d, hawaits⟩ := Awaits.folding hlimit h hname hroom hoperands hplain hr f
    rw [← show item.read σ.store = σ'.store.head r from hread.symm.trans (hfirst σ' (.refl σ'))]
      at hawaits
    have hcall := hawaits.within (R := R)
      fun τ hτ => hrelays τ acc a (item.read σ.store) d hτ.onward (hR hacc hτ.onward)
    refine hσ.consults hcall (fun H' x' hmore => unaware_applied hcfg (hmore _ he) (hmore _ hc)
      fun w hw => hmore w ?_) hE fun v υ υ' H' x' hυ hcovers hυ' hmore hv hnext b hb => ?_
    · exact List.forall_mem_cons.mpr ⟨hz, hparts⟩ w (u.args_parts _ _ hw)
    obtain ⟨acc', φ', hφ', hacc', ψ', operands', hψ', hoperands', hgo⟩ := hnext b hb
    have hgrown := hφ'.trans hψ'
    have honward := hυ'.trans hgrown.onward
    obtain _ | ⟨-, hrest'⟩ := (Strung.pair hr hrest).onward honward
    have hkept : ∀ w, H'.Public x' w → (H'.more υ'.store ψ'.store).Public (x'.padded ψ'.store) w :=
      fun w hw => hcovers.hides.public_more hgrown.larger hw
    refine ih (hcovers.grown hgrown) (h.onward honward) (hname.onward honward)
      (hrelays.onward honward) hoperands' hrest' (hsame.imp fun _ _ hsame τ hτ =>
        hsame τ (honward.trans hτ)) (hsteady.tail.onward hυ) (hR hacc' hψ'.onward)
      (hkept _ (hmore _ hc)) (fun w hw => hkept w ?_) (fun i hi => ?_) (hkept _ (hmore _ he)) d
      (fun stop w hw => hE stop w (hgo _ hw)) fun τ τ' H'' x'' acc b hτ hτ' hacc hdone =>
        hQ τ τ' H'' x'' acc b hτ (honward.trans hτ') hacc (hgo _ hdone)
    · exact List.forall_mem_cons.mpr ⟨hv, List.forall_mem_cons.mpr ⟨hmore _ hz, fun w hw =>
        hmore _ (hparts w hw)⟩⟩ w (u.next_parts hb hw)
    · exact ((hitems i hi).imp hmore).more hcovers.hides hgrown.larger

end Core

section Relaying

variable {room' label' p : Nat} {κ : Nat} {name : String}

theorem relays_detached (hc : Detached cfg σ.store c) (e : Nat) :
    σ.Relays cfg room c e .left room c fun v a _ => v = a := by
  rintro τ a _ z f hτ rfl
  have hc' := hc.evolves hτ.evolves
  refine ⟨τ, .refl τ, fun stop w hw => hc'.applied hw, fun v υ _ hv b hb => ?_⟩
  exact ⟨v, υ, .refl υ, Option.some.inj hb, hc'.applied hv⟩

section Closures

variable (hlimit : cfg.stepLimit = none) (hc : Detached cfg σ.store c)
include hlimit hc

/-- The closure hands the combiner, which it finds where it was made, the item first. -/
theorem relays_swapped (hκ : σ.Written κ p (list ["acc", "x"]) .ignore (list [name, "x", "acc"]))
    (hname : σ.Sees name (.applicative label c) p)
    (hfree : ∀ acc x : Value, [("acc", acc), ("x", x)].lookup name = none) (e : Nat) :
    σ.Relays cfg (room + 1) c e .right (room + 1) (.operative κ) fun v a _ => v = a := by
  rintro τ a _ z f hτ rfl
  have hname' := hname.onward hτ
  obtain ⟨υ, g, form, hυ, hscope, hform, hgo⟩ :=
    (hκ.onward hτ).applied cfg ["acc", "x"] hname'.frame_lt
      (show _ = [a, z].length from rfl) f
  have hlead : υ.Leads (Applied cfg (room + 1) c [z, a] g)
      (Evaluates cfg (room + 1) form g υ.world) := by
    refine .applies (n := 1) (d := 0) hlimit (hscope.sees_outer (hfree _ _) (hname'.onward hυ.onward))
      hc.plain hform ?_ (by simp) (by omega)
    exact .symbol hlimit (hscope.sees rfl) (.symbol hlimit (hscope.sees rfl) rfl)
  obtain ⟨φ, hφ, hx⟩ := hlead
  refine Awaits.detached (d := g) ⟨φ, hυ.trans hφ, fun stop w hw => hgo _ _ (hx _ hw), ?_⟩
    (hc.evolves hτ.evolves) e
  exact fun v ψ _ hv b hb => ⟨v, ψ, .refl ψ, Option.some.inj hb, hgo _ _ (hx _ hv)⟩

/-- The closure of `map` puts what the combiner comes to before the rest. -/
theorem relays_collected
    (hκ : σ.Written κ p (list ["acc", "x"]) .ignore (list ["cons", list ["f", "x"], "acc"]))
    (hf : σ.Sees "f" (.applicative label c) p)
    (hcons : σ.Sees "cons" (.applicative label' (.primitive (.operation .cons))) p) (e : Nat) :
    σ.Relays cfg (room + 1) c e .each (room + 2) (.operative κ) fun v vs τ => τ.Carries v vs := by
  intro τ acc vs z f hτ hacc
  have hf' := hf.onward hτ
  obtain ⟨υ, g, form, hυ, hscope, hform, hgo⟩ :=
    (hκ.onward hτ).applied cfg ["acc", "x"] hf'.frame_lt
      (show _ = [acc, z].length from rfl) f
  have hcons' := hscope.sees_outer rfl (hcons.onward (hτ.trans hυ.onward))
  have hawaits : υ.Awaits (Applied cfg (room + 1) c [z] g)
      (fun stop w => Evaluates cfg (room + 2) form g υ.world (.error stop w))
      fun v φ => φ.Leads (Applied cfg (room + 2) (.primitive (.operation .cons)) [v, acc] g)
        (Evaluates cfg (room + 2) form g υ.world) := by
    refine Awaits.argument (n := 2) (d := 0) [] [] [acc] hlimit hcons' rfl hform rfl
      (fun φ hφ => .symbol hlimit ((hscope.onward hφ).sees rfl) rfl) (by simp) (Nat.zero_le _)
      fun x φ hφ hx => ?_
    have hscope' := hscope.onward hφ.onward
    refine .applies (n := 0) (d := 0) hlimit (hscope'.sees_outer rfl (hf'.onward (hυ.trans hφ).onward))
      hc.plain hx ?_ (by simp) (by omega)
    exact .symbol hlimit (hscope'.sees rfl) rfl
  refine Awaits.detached (d := g) (.after hυ (hawaits.mono (fun stop w hw => hgo _ _ hw) ?_))
    (hc.evolves hτ.evolves) e
  rintro v φ hφ ⟨ψ, hψ, hx⟩ _ ⟨⟩
  have hpair : ψ.Invoked cfg.uncounted 0 0 (.primitive (.operation .cons)) [v, acc] g fun u ω =>
      ψ.Grown ω ∧ ω.Carries u (v :: vs) := by
    refine .cons fun ω k hω hk hkhead hktail => ⟨hω, ?_⟩
    have hcarries : ω.Carries (ω.store.tail k) vs :=
      hktail ▸ hacc.onward (hυ.onward.trans (hφ.trans (hψ.trans hω).onward))
    exact hkhead ▸ .pair hk hcarries
  obtain ⟨u, ω, hu, -, hω, hcarries⟩ := hpair ψ (.refl ψ) (room + 2) (Nat.zero_le _)
  exact ⟨u, ω, hψ.trans hω, hcarries, hgo _ _ (hx _ (applied_ok.mpr hu))⟩

/-- The closure of `filter` puts the item before the rest if the combiner comes to true. -/
theorem relays_selected (h : σ.Intact root definitions)
    (hκ : σ.Written κ p (list ["acc", "x"]) .ignore
      (list ["^if", list ["keep?", "x"], list ["cons", "x", "acc"], "acc"]))
    (hf : σ.Sees "keep?" (.applicative label c) p)
    (hsees : ∀ {τ name v}, σ.Onward τ → name = "^if" ∨ name = "cons" → τ.Sees name v root →
      τ.Sees name v p) (e : Nat) :
    σ.Relays cfg (room + 1) c e .choice (room + 3) (.operative κ) fun v vs τ => τ.Carries v vs := by
  intro τ acc vs z f hτ hacc
  have hf' := hf.onward hτ
  have h' := h.onward hτ
  obtain ⟨υ, g, form, hυ, hscope, hform, hgo⟩ :=
    (hκ.onward hτ).applied cfg ["acc", "x"] hf'.frame_lt
      (show _ = [acc, z].length from rfl) f
  obtain ⟨_, hcons⟩ := h'.wrapped (p := .operation .cons) (by decide) rfl
  obtain ⟨test, x₁, x₂, htest, hx₁, hx₂, hawaits⟩ := Awaits.branch hlimit (h'.onward hυ.onward)
    (fun v hv => hscope.sees_outer rfl (hsees (hτ.trans hυ.onward) (.inl rfl) hv)) hform
    (show 1 ≤ room + 1 by omega)
  have hcalled := hawaits.before (z := Applied cfg (room + 1) c [z] g) fun φ hφ => by
    refine .applies (n := 0) (d := 0) hlimit
      (hscope.sees_outer rfl (hf'.onward hυ.onward) |>.onward hφ.onward) hc.plain
      (htest.onward hφ.onward) ?_ (by simp) (by omega)
    exact .symbol hlimit ((hscope.onward hφ.onward).sees rfl) rfl
  refine Awaits.detached (d := g) (.after hυ (hcalled.mono (fun stop w hw => hgo _ _ hw) ?_))
    (hc.evolves hτ.evolves) e
  intro v φ hφ hv b hb
  obtain ⟨t, rfl⟩ := Usage.bool_of_choice ⟨b, hb⟩
  obtain ⟨ψ, hψ, hbranch⟩ := hv t rfl
  have hon := hφ.trans hψ.onward
  have hscope' := hscope.onward hon
  have hacc' := hacc.onward (hυ.onward.trans hon)
  cases hb
  cases t with
  | false =>
    have hx : Evaluates cfg (room + 3) x₂ g ψ.world (.ok acc ψ.world) :=
      (hx₂.onward hon).evaluates hlimit (hscope'.sees rfl)
    exact ⟨acc, ψ, hψ, hacc', hgo _ _ (hbranch _ hx)⟩
  | true =>
    have hcons' := hsees (hτ.trans (hυ.onward.trans hon)) (.inr rfl)
      (hcons.onward (hυ.onward.trans hon))
    obtain ⟨_, ω, hx, hω, r, rfl, hr, hhead, htail⟩ := Finds.ends
      (.cons (n := 0) (d := 0) (x := z) (y := acc) hlimit (hscope'.sees_outer rfl hcons')
        (.symbol hlimit (hscope'.sees rfl) rfl)
        (fun ω hω => .symbol hlimit ((hscope'.onward hω.grown.onward).sees rfl) rfl)
        (Nat.le_refl 1)) (hx₁.onward hon) (show 1 ≤ room + 3 by omega)
    have hrest : ω.Carries (ω.store.tail r) vs := htail ▸ hacc'.onward hω.grown.onward
    exact ⟨.pair r, ω, hψ.trans hω.grown, hhead ▸ .pair hr hrest, hgo _ _ (hbranch _ hx)⟩

end Closures

end Relaying

end Scene

end Vau
