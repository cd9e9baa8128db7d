import Vau.Proofs.Respect

/-! How stores evolve. A run of any program adds frames, operatives and bindings but takes
none away: frames keep their parents, names stay bound, and operatives keep all they were made
with and the name they once got. -/

namespace Vau

/-- A computation that changes the world by what programs can do only. -/
def Action.Lawful {α : Type} (x : Action α) : Prop :=
  ∀ m, Changes m.world (endState (x m)).world

def Settings.Lawful (cfg : Settings) : Prop :=
  ∀ f ∈ cfg.functions, ∀ vs env, (f vs env).Lawful

namespace Action

theorem pervasive_lawful : Pervasive Deed.Lawful fun x => Action.Lawful x :=
  pervasive_moves (fun _ => .refl) (fun _ _ _ => .trans) Deed.lawful_repertoire

variable {cfg : Settings}

theorem lawful_evaluate (hcfg : cfg.Lawful) (expr : Value) (env : Nat) :
    (evaluate cfg expr env).Lawful :=
  pervasive_lawful.evaluate hcfg expr env

end Action

namespace Store

/-- `s'` has all frames, bindings and operatives of `s` and may have more. -/
structure Evolves (s s' : Store) : Prop where
  frames : s.frames.size ≤ s'.frames.size
  parent : ∀ e < s.frames.size, (s'.frame e).parent = (s.frame e).parent
  bound : ∀ e name, (s.frame e).binds name = true → (s'.frame e).binds name = true
  operatives : s.operatives.size ≤ s'.operatives.size
  made : ∀ r < s.operatives.size, (s'.operative r).scope = (s.operative r).scope ∧
    (s'.operative r).formals = (s.operative r).formals ∧
    (s'.operative r).dynamic = (s.operative r).dynamic ∧
    (s'.operative r).body = (s.operative r).body
  named : ∀ r < s.operatives.size, ∀ name, (s.operative r).name = some name →
    (s'.operative r).name = some name

namespace Evolves

theorem refl (s : Store) : s.Evolves s where
  frames := Nat.le_refl _
  parent _ _ := rfl
  bound _ _ h := h
  operatives := Nat.le_refl _
  made _ _ := ⟨rfl, rfl, rfl, rfl⟩
  named _ _ _ h := h

theorem trans {s₁ s₂ s₃ : Store} (h : s₁.Evolves s₂) (h' : s₂.Evolves s₃) : s₁.Evolves s₃ where
  frames := Nat.le_trans h.frames h'.frames
  parent e he := (h'.parent e (Nat.lt_of_lt_of_le he h.frames)).trans (h.parent e he)
  bound e name hb := h'.bound e name (h.bound e name hb)
  operatives := Nat.le_trans h.operatives h'.operatives
  made r hr := by
    obtain ⟨hs, hf, hd, hb⟩ := h.made r hr
    obtain ⟨hs', hf', hd', hb'⟩ := h'.made r (Nat.lt_of_lt_of_le hr h.operatives)
    exact ⟨hs'.trans hs, hf'.trans hf, hd'.trans hd, hb'.trans hb⟩
  named r hr name hn := h'.named r (Nat.lt_of_lt_of_le hr h.operatives) name (h.named r hr name hn)

theorem of_same {s s' : Store} (hf : s'.frames = s.frames) (ho : s'.operatives = s.operatives) :
    s.Evolves s' := by
  obtain ⟨cells, frames, operatives, wrappers⟩ := s'
  subst hf ho
  exact ⟨Nat.le_refl _, fun _ _ => rfl, fun _ _ h => h, Nat.le_refl _,
    fun _ _ => ⟨rfl, rfl, rfl, rfl⟩, fun _ _ _ h => h⟩

theorem newFrame (s : Store) (parent : Option Nat) : s.Evolves (s.newFrame parent).2 := by
  have hsize : (s.newFrame parent).2.frames.size = s.frames.size + 1 := by simp [Store.newFrame]
  refine ⟨by omega, fun e he => ?_, fun e name hb => ?_, Nat.le_refl _,
    fun _ _ => ⟨rfl, rfl, rfl, rfl⟩, fun _ _ _ h => h⟩
  · rw [frame_newFrame, if_neg (by omega)]
  · have he : e ≠ s.frames.size := by
      rintro rfl
      simp [Store.frame, Frame.binds, Frame.get?] at hb
    rwa [frame_newFrame, if_neg he]

theorem define (s : Store) (e : Nat) (name : String) (v : Value) :
    s.Evolves (s.define e name v) := by
  have hsize : (s.define e name v).frames.size = s.frames.size := by simp [Store.define]
  by_cases he : e < s.frames.size
  · refine ⟨by omega, fun d _ => ?_, fun d key hb => ?_, Nat.le_refl _,
      fun _ _ => ⟨rfl, rfl, rfl, rfl⟩, fun _ _ _ h => h⟩
    · rw [frame_define s e d name v he]
      split <;> rfl
    · rw [frame_define s e d name v he]
      split
      · simp only [Frame.binds, Frame.get?_define]
        split
        · rfl
        · exact hb
      · exact hb
  · have hsame : (s.define e name v).frames = s.frames := by
      apply Array.ext (by omega)
      intro i hi hi'
      have hne : e ≠ i := by omega
      simp [Store.define, Array.getElem_modify, hne]
    exact of_same hsame rfl

theorem newOperative (s : Store) (o : Operative) : s.Evolves (s.newOperative o).2 := by
  have hsize : (s.newOperative o).2.operatives.size = s.operatives.size + 1 := by
    simp [Store.newOperative]
  have hold : ∀ r < s.operatives.size, (s.newOperative o).2.operative r = s.operative r := by
    intro r hr
    have hne : r ≠ s.operatives.size := by omega
    simp [Store.operative, Store.newOperative, Array.getElem?_push, hne]
  refine ⟨Nat.le_refl _, fun _ _ => rfl, fun _ _ h => h, by omega, fun r hr => ?_,
    fun r hr name hn => ?_⟩
  · rw [hold r hr]
    exact ⟨rfl, rfl, rfl, rfl⟩
  · rwa [hold r hr]

theorem giveName (s : Store) (v : Value) (name : String) : s.Evolves (s.giveName v name) := by
  unfold Store.giveName
  split
  · rename_i r hcore
    -- only the operative `r` changes, and only if it had no name
    let s' : Store := { s with operatives := s.operatives.modify r fun o =>
      if o.name.isNone then { o with name := some name } else o }
    have hread : ∀ d < s.operatives.size, s'.operative d =
        if d = r then (if (s.operative d).name.isNone then
          { s.operative d with name := some name } else s.operative d) else s.operative d := by
      intro d hd
      by_cases hdr : d = r
      · subst hdr
        simp [s', Store.operative, Array.getElem_modify, hd]
      · have hne : r ≠ d := fun h => hdr h.symm
        simp [s', Store.operative, Array.getElem_modify, hdr, hne, hd]
    have hsize : s'.operatives.size = s.operatives.size := by simp [s']
    change s.Evolves s'
    refine ⟨Nat.le_refl _, fun _ _ => rfl, fun _ _ h => h, by omega, fun d hd => ?_,
      fun d hd key hn => ?_⟩
    · rw [hread d hd]
      split
      · split <;> exact ⟨rfl, rfl, rfl, rfl⟩
      · exact ⟨rfl, rfl, rfl, rfl⟩
    · have hsome : (s.operative d).name.isNone = false := by simp [hn]
      rw [hread d hd, hsome]
      split <;> exact hn
  · exact refl s

end Evolves

end Store

theorem Change.evolves {w w' : World} (h : Change w w') : w.store.Evolves w'.store := by
  cases h with
  | frame parent => exact .newFrame _ _
  | define e name v => exact .define _ _ _ _
  | operative scope formals dynamic body names _ _ => exact .newOperative _ _
  | name v name => exact .giveName _ _ _
  | cons x y l => exact .of_same rfl rfl
  | setHead r v => exact .of_same rfl rfl
  | setTail r v => exact .of_same rfl rfl
  | wrap v _ => exact .of_same rfl rfl
  | shown message => exact .of_same rfl rfl

theorem Changes.evolves {w w' : World} (h : Changes w w') : w.store.Evolves w'.store := by
  induction h with
  | refl => exact .refl _
  | tail _ step ih => exact ih.trans step.evolves

namespace Store

variable {s s' : Store}

theorem Evolves.ownerWithin (h : s.Evolves s') {name : String} {fuel fuel' : Nat}
    (hfuel : fuel ≤ fuel') {e : Nat} (hs : (s.ownerWithin name fuel e).isSome = true) :
    (s'.ownerWithin name fuel' e).isSome = true := by
  induction fuel generalizing fuel' e with
  | zero => simp [Store.ownerWithin] at hs
  | succ fuel ih =>
    obtain ⟨fuel', rfl⟩ : ∃ k, fuel' = k + 1 := ⟨fuel' - 1, by omega⟩
    simp only [Store.ownerWithin] at hs ⊢
    by_cases hb : (s'.frame e).binds name = true
    · simp [hb]
    · have hn : (s.frame e).binds name = false := by
        rw [← Bool.not_eq_true]
        exact fun hb' => hb (h.bound e name hb')
      cases hp : (s.frame e).parent with
      | none => simp [hn, hp] at hs
      | some p =>
        have he : e < s.frames.size := by
          apply Nat.lt_of_not_le
          intro hle
          simp [Store.frame, hle] at hp
        have hp' : (s'.frame e).parent = some p := (h.parent e he).trans hp
        simp only [hn, hp, Bool.false_eq_true, if_false] at hs
        simpa [hb, hp'] using ih (by omega : fuel ≤ fuel') hs

theorem Evolves.owner (h : s.Evolves s') {e : Nat} {name : String}
    (hs : (s.owner? e name).isSome = true) : (s'.owner? e name).isSome = true :=
  h.ownerWithin h.frames hs

theorem isSome_lookup? (s : Store) (e : Nat) (name : String) :
    (s.lookup? e name).isSome = (s.owner? e name).isSome := by
  unfold lookup? owner?
  generalize s.frames.size = fuel
  induction fuel generalizing e with
  | zero => rfl
  | succ fuel ih =>
    rcases Option.eq_none_or_eq_some ((s.frame e).get? name) with hg | ⟨v, hg⟩
    · cases hp : (s.frame e).parent with
      | none => simp [lookupWithin, ownerWithin, Frame.binds, hg, hp]
      | some p => simpa [lookupWithin, ownerWithin, Frame.binds, hg, hp] using ih p
    · simp [lookupWithin, ownerWithin, Frame.binds, hg]

theorem Evolves.lookup (h : s.Evolves s') {e : Nat} {name : String}
    (hs : (s.lookup? e name).isSome = true) : (s'.lookup? e name).isSome = true := by
  rw [isSome_lookup?] at hs ⊢
  exact h.owner hs

end Store

end Vau
