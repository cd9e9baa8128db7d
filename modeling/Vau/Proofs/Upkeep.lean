import Vau.Proofs.Change
import Vau.Proofs.FormalTree

/-! Upkeep of soundness by deeds. A deed done in a sound store leaves a sound store of a larger
extent, where its value refers to what exists, and it stops only for a reason that the store
accounts for. -/

namespace Vau

/-- A run from extent `x` ends in a sound store at or beyond it, with `post` of its value or
`stops` of the reason. -/
def Extent.Ends {σ α : Type} (x : Extent) (store : σ → Store) (post : Extent → α → σ → Prop)
    (stops : Stop → σ → Prop) : EStateM.Result Stop σ α → Prop
  | .ok a m => ∃ y, x.Within y ∧ (store m).Sound y ∧ post y a m
  | .error e m => (∃ y, x.Within y ∧ (store m).Sound y) ∧ stops e m

theorem Extent.Ends.bind {σ α β : Type} {x : Extent} {store : σ → Store}
    {post : Extent → α → σ → Prop} {post' : Extent → β → σ → Prop} {stops : Stop → σ → Prop}
    {a : EStateM Stop σ α} {f : α → EStateM Stop σ β} {m : σ} (ha : x.Ends store post stops (a m))
    (hf : ∀ y v m', x.Within y → (store m').Sound y → post y v m' →
      y.Ends store post' stops (f v m')) :
    x.Ends store post' stops ((a >>= f) m) := by
  simp only [Bind.bind, EStateM.bind]
  cases hr : a m with
  | error e m' => rwa [hr] at ha
  | ok v m' =>
    rw [hr] at ha
    obtain ⟨y, hy, hs, hv⟩ := ha
    have hrest := hf y v m' hy hs hv
    dsimp only
    cases hr' : f v m' with
    | error e m'' =>
      rw [hr'] at hrest
      obtain ⟨⟨z, hz, hs'⟩, he⟩ := hrest
      exact ⟨⟨z, hy.trans hz, hs'⟩, he⟩
    | ok b m'' =>
      rw [hr'] at hrest
      obtain ⟨z, hz, hs', hb⟩ := hrest
      exact ⟨z, hy.trans hz, hs', hb⟩

theorem Extent.Ends.sound {σ α : Type} {x : Extent} {store : σ → Store}
    {post : Extent → α → σ → Prop} {stops : Stop → σ → Prop} {r : EStateM.Result Stop σ α}
    (h : x.Ends store post stops r) : ∃ y, x.Within y ∧ (store (endState r)).Sound y := by
  cases r with
  | error e m => exact h.1
  | ok a m =>
    obtain ⟨y, hy, hs, -⟩ := h
    exact ⟨y, hy, hs⟩

namespace Deed

/-- From any sound store at or beyond extent `x` the deed ends soundly, with a value that
has the property. -/
def Keeps {α : Type} (x : Extent) (post : Extent → α → Prop) (d : Deed α) : Prop :=
  ∀ y w, x.Within y → w.store.Sound y →
    y.Ends World.store (fun z a _ => post z a) (fun e w => e.Due w.store) (d w)

variable {x : Extent} {α β : Type} {post : Extent → α → Prop} {post' : Extent → β → Prop}

theorem Keeps.bind {d : Deed α} {f : α → Deed β} (hd : d.Keeps x post)
    (hf : ∀ y a, x.Within y → post y a → (f a).Keeps y post') : (d >>= f).Keeps x post' := by
  intro y w hy hw
  refine (hd y w hy hw).bind fun z a w' hz hw' ha => ?_
  exact hf z a (hy.trans hz) ha z w' (.refl z) hw'

theorem keeps_pure {a : α} (ha : ∀ y, x.Within y → post y a) : (pure a : Deed α).Keeps x post :=
  fun y _ hy hw => ⟨y, .refl y, hw, ha y hy⟩

theorem keeps_fail (f : Failure) : (fail f : Deed α).Keeps x post :=
  fun y _ _ hw => ⟨⟨y, .refl y, hw⟩, trivial⟩

theorem keeps_reads {f : Store → α} (hf : ∀ y s, x.Within y → s.Sound y → post y (f s)) :
    (reads f).Keeps x post :=
  fun y w hy hw => ⟨y, .refl y, hw, hf y w.store hy hw⟩

theorem keeps_tries {f : Store → Except Stop α}
    (hok : ∀ y s a, x.Within y → s.Sound y → f s = .ok a → post y a)
    (herror : ∀ y s e, x.Within y → s.Sound y → f s = .error e → e.Due s) :
    (tries f).Keeps x post := by
  intro y w hy hw
  unfold tries
  cases hr : f w.store with
  | ok a => exact ⟨y, .refl y, hw, hok y w.store a hy hw hr⟩
  | error e => exact ⟨⟨y, .refl y, hw⟩, herror y w.store e hy hw hr⟩

theorem keeps_makes {f : Store → α × Store}
    (hf : ∀ y s, x.Within y → s.Sound y → y.Gains post (f s)) : (makes f).Keeps x post :=
  fun y w hy hw => hf y w.store hy hw

theorem keeps_changes {f : Store → Store} (hf : ∀ y s, x.Within y → s.Sound y → (f s).Sound y) :
    (changes f).Keeps x fun _ _ => True :=
  fun y w hy hw => ⟨y, .refl y, hf y w.store hy hw, trivial⟩

theorem keeps_records (e : Effect) : (records e).Keeps x fun _ _ => True :=
  fun y _ _ hw => ⟨y, .refl y, hw, trivial⟩

theorem keeps_binds {pattern operands : Value} (hp : pattern.In x) (ho : operands.In x)
    (e : Nat) : (binds e pattern operands).Keeps x fun _ _ => True := by
  have hmatch : (tries fun s => s.matchFormals pattern operands).Keeps x
      fun y bs => ∀ b ∈ bs, b.2.In y :=
    keeps_tries (fun _ _ _ hy hs hm => hs.matchFormals (ho.mono hy) hm)
      fun _ _ _ hy hs he => hs.matchFormals_due (hp.mono hy) he
  refine hmatch.bind fun y bs hy hbs => ?_
  exact keeps_changes fun z s hz hs => hs.defineAll e fun b hb => (hbs b hb).mono hz

end Deed

def Answer.In (x : Extent) : Answer → Prop
  | .value v => v.In x
  | .proceed expr env => expr.In x ∧ env < x.frames

namespace Operation

open Deed

variable {x : Extent} {env : Nat}

theorem keeps_pairOperand {v : Value} (hv : v.In x) :
    (pairOperand v).Keeps x fun y r => (Value.pair r).In y := by
  cases v with
  | pair r => exact keeps_pure fun y hy => Value.In.mono hv hy
  | _ => exact keeps_fail _

theorem keeps_envOperand {v : Value} (hv : v.In x) :
    (envOperand v).Keeps x fun y e => (Value.env e).In y := by
  cases v with
  | env e => exact keeps_pure fun y hy => Value.In.mono hv hy
  | _ => exact keeps_fail _

theorem keeps_computed {α : Type} (r : Except Failure α) : (computed r).Keeps x fun _ _ => True := by
  cases r with
  | ok a => exact keeps_pure fun _ _ => trivial
  | error f => exact keeps_fail f

theorem keeps_checkDynamic (names : List String) (v : Value) :
    (checkDynamic names v).Keeps x fun _ _ => True := by
  rcases checkDynamic_eq names v with h | ⟨f, h⟩
  · rw [h]
    exact keeps_pure fun _ _ => trivial
  · rw [h]
    exact keeps_fail f

theorem keeps_vau {formals dynamic : Value} {body : List Value} (room : Nat)
    (henv : env < x.frames) (hf : formals.In x) (hd : dynamic.In x) (hb : ∀ v ∈ body, v.In x) :
    (value room env .vau (formals :: dynamic :: body)).Keeps x fun y v => v.In y := by
  have hnames : (tries fun s => s.formalNames formals).Keeps x fun _ _ => True :=
    keeps_tries (fun _ _ _ _ _ _ => trivial) fun _ _ _ hy hs he => hs.formalNames_due (hf.mono hy) he
  refine hnames.bind fun y names hy _ => (keeps_checkDynamic names dynamic).bind fun z _ hz _ => ?_
  refine keeps_makes fun w s hw hs => ?_
  have hxw := (hy.trans hz).trans hw
  exact hs.newOperative ⟨hxw.frame_lt henv, hf.mono hxw, hd.mono hxw,
    fun v hv => (hb v hv).mono hxw⟩

theorem keeps_value (room : Nat) (henv : env < x.frames) (o : Operation) {vs : List Value}
    (hvs : ∀ v ∈ vs, v.In x) : (o.value room env vs).Keeps x fun y v => v.In y := by
  unfold value
  split
  case h_1 formals dynamic body =>
    exact keeps_vau room henv (hvs _ (by simp)) (hvs _ (by simp)) fun v hv => hvs v (by simp [hv])
  case h_2 v =>
    have hv := hvs v (by simp)
    split
    · exact keeps_makes fun y s hy hs => hs.wrap (hv.mono hy)
    · exact keeps_fail _
  case h_3 label underlying =>
    have hv := hvs _ List.mem_cons_self
    exact keeps_pure fun y hy => hv.2.mono hy
  case h_4 => exact keeps_fail _
  case h_5 =>
    have hframe : (makes fun s => s.newFrame none).Keeps x fun y e => e < y.frames :=
      keeps_makes fun y s _ hs => hs.newFrame nofun
    exact hframe.bind fun y e _ he => keeps_pure fun z hz => hz.frame_lt he
  case h_6 v =>
    refine (keeps_envOperand (hvs v (by simp))).bind fun y p _ hp => ?_
    have hframe : (makes fun s => s.newFrame (some p)).Keeps y fun y e => e < y.frames := by
      refine keeps_makes fun z s hz hs => hs.newFrame fun q hq => ?_
      cases hq
      exact hz.frame_lt hp
    exact hframe.bind fun z e _ he => keeps_pure fun w hw => hw.frame_lt he
  case h_7 a b =>
    exact keeps_makes fun y s hy hs =>
      hs.cons ((hvs a (by simp)).mono hy) ((hvs b (by simp)).mono hy) none
  case h_8 v =>
    exact (keeps_pairOperand (hvs v (by simp))).bind fun y r _ _ =>
      keeps_reads fun z s _ hs => hs.head r
  case h_9 v =>
    exact (keeps_pairOperand (hvs v (by simp))).bind fun y r _ _ =>
      keeps_reads fun z s _ hs => hs.tail r
  case h_10 v a =>
    have ha := hvs a (by simp)
    refine (keeps_pairOperand (hvs v (by simp))).bind fun y r hy _ => ?_
    refine (keeps_changes fun z s hz hs => hs.setHead r (ha.mono (hy.trans hz))).bind fun _ _ _ _ => ?_
    exact keeps_pure fun _ _ => trivial
  case h_11 v a =>
    have ha := hvs a (by simp)
    refine (keeps_pairOperand (hvs v (by simp))).bind fun y r hy _ => ?_
    refine (keeps_changes fun z s hz hs => hs.setTail r (ha.mono (hy.trans hz))).bind fun _ _ _ _ => ?_
    exact keeps_pure fun _ _ => trivial
  case h_12 | h_13 => exact (keeps_computed _).bind fun _ _ _ _ => keeps_pure fun _ _ => trivial
  case h_14 =>
    have hequal : (tries fun s => s.allEqual room vs).Keeps x fun _ _ => True :=
      keeps_tries (fun _ _ _ _ _ _ => trivial)
        fun y s e hy hs he => hs.allEqual_due (fun v hv => (hvs v hv).mono hy) he
    exact hequal.bind fun _ _ _ _ => keeps_pure fun _ _ => trivial
  case h_15 | h_16 => exact keeps_pure fun _ _ => trivial
  case h_17 =>
    have htexts : (tries fun s => vs.mapM (s.format room .shown)).Keeps x fun _ _ => True :=
      keeps_tries (fun _ _ _ _ _ _ => trivial)
        fun y s e hy hs he => hs.format_due (fun v hv => (hvs v hv).mono hy) he
    exact htexts.bind fun _ texts _ _ => (keeps_records _).bind fun _ _ _ _ =>
      keeps_pure fun _ _ => trivial
  case h_18 | h_19 => exact keeps_fail _

theorem keeps_perform (room : Nat) (henv : env < x.frames) (o : Operation) {vs : List Value}
    (hvs : ∀ v ∈ vs, v.In x) : (o.perform room env vs).Keeps x fun y a => a.In y := by
  unfold perform
  split
  · rename_i expr v
    have hexpr := hvs expr (by simp)
    exact (keeps_envOperand (hvs v (by simp))).bind fun y e hy he =>
      keeps_pure fun z hz => ⟨hexpr.mono (hy.trans hz), hz.frame_lt he⟩
  · exact (keeps_value room henv _ hvs).bind fun y v _ hv => keeps_pure fun z hz => hv.mono hz

end Operation

end Vau
