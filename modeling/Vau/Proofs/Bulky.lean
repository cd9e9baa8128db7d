import Vau.Proofs.Cycle
import Vau.Proofs.Respect

/-! Integers too long to write. Text of a limited width is refused for nothing else than such an
integer, and a program that stops for one has it in a pair. -/

namespace Vau

/-- An integer of more digits than are written. -/
def Value.Bulky : Value → Prop
  | .int n => digitBound ≤ n.natAbs
  | _ => False

/-- A pair has such an integer. -/
def Store.Bulky (s : Store) : Prop := ∃ r, (s.head r).Bulky ∨ (s.tail r).Bulky

theorem bulky_of_writeDecimal? {n : Int} (h : writeDecimal? n = none) : (Value.int n).Bulky := by
  unfold writeDecimal? at h
  split at h
  · cases h
  · exact Nat.le_of_not_lt ‹_›

namespace Printer

variable {s : Store} {st : Style} {f : Value → Except Stop (List Char)} {fuel used : Nat}
  {done : List (List Char)} {v : Value} {e : Stop}

theorem atom_bulky (h : atom st s v = .error e) : v.Bulky := by
  unfold atom at h
  split at h <;> first | cases h | skip
  split at h
  · cases h
  · exact bulky_of_writeDecimal? ‹_›

theorem parts_bulky (hf : ∀ u, f u = .error .digits → u.Bulky ∨ s.Bulky)
    (h : parts st s f fuel used done v = .error .digits) : v.Bulky ∨ s.Bulky := by
  fun_induction parts st s f fuel used done v with
  | case1 | case3 | case5 | case7 => cases h
  | case2 used done r fuel e' he' =>
    cases h
    rcases hf _ he' with hv | hs
    · exact .inr ⟨r, .inl hv⟩
    · exact .inr hs
  | case4 used done r fuel text _ _ _ ih =>
    rcases ih h with hv | hs
    · exact .inr ⟨r, .inr hv⟩
    · exact .inr hs
  | case6 used done fuel v _ _ e' he' =>
    cases h
    exact hf _ he'

theorem write_bulky {room depth : Nat} (h : write st s room depth v = .error .digits) :
    v.Bulky ∨ s.Bulky := by
  induction room generalizing depth v with
  | zero =>
    cases v with
    | pair r =>
      rw [write] at h
      split at h <;> cases h
    | _ => exact .inl (atom_bulky h)
  | succ room ih =>
    cases v with
    | pair r =>
      rw [write] at h
      split at h
      · cases h
      · cases hparts : parts st s (write st s room (depth + 1)) (st.budget s) 0 [] (.pair r) with
        | error e =>
          simp only [hparts] at h
          cases h
          exact parts_bulky (fun _ hu => ih hu) hparts
        | ok texts =>
          simp only [hparts] at h
          cases h
    | _ => exact .inl (atom_bulky h)

section Width

variable {w : Int} (hst : st.width = some w)
include hst

/-- Every element takes a character of the width or more, so the elements that may be visited do
not run out before the width. -/
theorem parts_within {P : Stop → Prop} (hf : ∀ u e, f u = .error e → P e) (hused : used ≤ w)
    (hfuel : w < fuel + used) (h : parts st s f fuel used done v = .error e) : P e := by
  fun_induction parts st s f fuel used done v with
  | case1 used done r => omega
  | case2 used done r fuel e' he' =>
    cases h
    exact hf _ _ he'
  | case3 | case5 | case7 => cases h
  | case4 used done r fuel text _ used' hexceeds ih =>
    simp only [Style.exceeds, hst, decide_eq_true_eq] at hexceeds
    refine ih (by omega) ?_ h
    have hgrown : used + 1 ≤ used' := by omega
    push_cast at hfuel
    omega
  | case6 used done fuel v _ _ e' he' =>
    cases h
    exact hf _ _ he'

/-- Lists are omitted from the nesting at which the width is reached, so what is left of the
width is all the room that is needed. -/
theorem write_within {room depth : Nat} (h : write st s room depth v = .error e) :
    e = .digits ∨ e = .failure .stackExhausted ∧ room + depth < w := by
  induction room generalizing depth v e with
  | zero =>
    cases v with
    | pair r =>
      rw [write] at h
      split at h
      · cases h
      · rename_i homits
        cases h
        simp only [Style.omits, hst, decide_eq_true_eq] at homits
        exact .inr ⟨rfl, by push_cast; omega⟩
    | _ => exact .inl (atom_error h)
  | succ room ih =>
    cases v with
    | pair r =>
      rw [write] at h
      split at h
      · cases h
      · rename_i homits
        simp only [Style.omits, hst, decide_eq_true_eq] at homits
        have hf : ∀ u e, write st s room (depth + 1) u = .error e →
            e = .digits ∨ e = .failure .stackExhausted ∧ (room + 1 : Nat) + depth < w := by
          intro u e hu
          exact (ih hu).imp_right fun he => ⟨he.1, by push_cast at he ⊢; omega⟩
        have hbudget : w < (st.budget s : Nat) + (0 : Nat) := by
          simp only [Style.budget, hst]
          omega
        cases hparts : parts st s (write st s room (depth + 1)) (st.budget s) 0 [] (.pair r) with
        | error e' =>
          simp only [hparts] at h
          cases h
          exact parts_within hst (P := fun e => e = .digits ∨ e = .failure .stackExhausted ∧
            (room + 1 : Nat) + depth < w) hf (by omega) hbudget hparts
        | ok texts =>
          simp only [hparts] at h
          cases h
    | _ => exact .inl (atom_error h)

end Width

end Printer

namespace Store

variable {s : Store} {v : Value} {e : Stop}

/-- Within a width that the host can nest, printing stops for the digits of an integer only. -/
theorem print_error {w : Int} (hroom : w ≤ hostRoom) (h : s.print (.within w) v = .error e) :
    e = .digits ∧ (v.Bulky ∨ s.Bulky) := by
  have hwrite := Except.error_of_map h
  rcases Printer.write_within rfl hwrite with rfl | ⟨-, hlt⟩
  · exact ⟨rfl, Printer.write_bulky hwrite⟩
  · omega

theorem describe_error (h : s.describe v = .error e) : e = .digits ∧ (v.Bulky ∨ s.Bulky) :=
  print_error (by decide) h

theorem describeInt_error {n : Int} (h : describeInt n = .error e) :
    e = .digits ∧ (Value.int n).Bulky := by
  unfold describeInt at h
  split at h
  · cases h
  · cases h
    exact ⟨rfl, bulky_of_writeDecimal? ‹_›⟩

end Store

/-- What the failure tells of has an integer too long to write. -/
def Failure.Bulky : Failure → Prop
  | .arity (.text _) actual => actual.Bulky
  | .arity (.shape pattern) actual => pattern.Bulky ∨ actual.Bulky
  | .notCombinable v => v.Bulky
  | .typeMismatch _ actual => actual.Bulky
  | .stepLimit limit => (Value.int limit).Bulky
  | .divisionByZero _ dividend => (Value.int dividend).Bulky
  | .user _ irritants => ∃ v ∈ irritants, v.Bulky
  | _ => False

theorem Store.describeAll_error {s : Store} {message : String} {irritants : List Value} {e : Stop}
    (h : s.describeAll message irritants = .error e) :
    e = .digits ∧ ((∃ v ∈ irritants, v.Bulky) ∨ s.Bulky) := by
  rcases Except.bind_eq_error h with h | ⟨texts, -, h⟩
  · obtain ⟨v, hv, h⟩ := List.exists_of_mapM_error h
    obtain ⟨he, hb | hb⟩ := describe_error h
    · exact ⟨he, .inl ⟨v, hv, hb⟩⟩
    · exact ⟨he, .inr hb⟩
  · cases h

theorem Failure.describe_error {s : Store} {f : Failure} {e : Stop}
    (h : f.describe s = .error e) : e = .digits ∧ (f.Bulky ∨ s.Bulky) := by
  have hone : ∀ {v : Value} {g : String → String},
      (s.describe v >>= fun t => pure (g t)) = .error e → e = .digits ∧ (v.Bulky ∨ s.Bulky) := by
    intro v g h
    rcases Except.bind_eq_error h with h | ⟨t, -, h⟩
    · exact Store.describe_error h
    · cases h
  have hint : ∀ {n : Int} {g : String → String},
      (Store.describeInt n >>= fun t => pure (g t)) = .error e →
        e = .digits ∧ ((Value.int n).Bulky ∨ s.Bulky) := by
    intro n g h
    rcases Except.bind_eq_error h with h | ⟨t, -, h⟩
    · obtain ⟨he, hb⟩ := Store.describeInt_error h
      exact ⟨he, .inl hb⟩
    · cases h
  cases f with
  | unbound | stackExhausted | read | plain => cases h
  | arity expected actual =>
    cases expected with
    | text wanted => exact hone h
    | shape pattern =>
      rcases Except.bind_eq_error h with h | ⟨t, -, h⟩
      · obtain ⟨he, hb | hb⟩ := Store.describe_error h
        · exact ⟨he, .inl (.inl hb)⟩
        · exact ⟨he, .inr hb⟩
      · obtain ⟨he, hb | hb⟩ := hone h
        · exact ⟨he, .inl (.inr hb)⟩
        · exact ⟨he, .inr hb⟩
  | notCombinable v => exact hone h
  | typeMismatch wanted actual => exact hone h
  | stepLimit limit => exact hint h
  | divisionByZero operator dividend => exact hint h
  | user message irritants => exact Store.describeAll_error h

/-- A deed that stops for digits only where a pair has an integer too long to write. -/
def Deed.Frank {α : Type} (d : Deed α) : Prop :=
  ∀ w w', d w = .error .digits w' → w'.store.Bulky

namespace Deed

variable {α β : Type}

theorem frank_never {d : Deed α} (h : ∀ w w', d w ≠ .error .digits w') : d.Frank :=
  fun w w' he => absurd he (h w w')

theorem frank_pure (a : α) : (pure a : Deed α).Frank := frank_never nofun

theorem frank_fail (f : Failure) : (fail f : Deed α).Frank := frank_never nofun

theorem frank_reads (f : Store → α) : (reads f).Frank := frank_never nofun

theorem frank_changes (f : Store → Store) : (changes f).Frank := frank_never nofun

theorem frank_makes (f : Store → α × Store) : (makes f).Frank := frank_never nofun

theorem frank_tries {f : Store → Except Stop α} (h : ∀ s, f s ≠ .error .digits) :
    (tries f).Frank := by
  refine frank_never fun w w' he => ?_
  unfold tries at he
  split at he
  · cases he
  · rename_i e hf
    cases he
    exact h w.store hf

theorem Frank.bind {d : Deed α} {f : α → Deed β} (hd : d.Frank) (hf : ∀ a, (f a).Frank) :
    (d >>= f).Frank := by
  intro w w' he
  simp only [Bind.bind, EStateM.bind] at he
  cases hr : d w with
  | error e w₁ =>
    rw [hr] at he
    cases he
    exact hd w w' hr
  | ok a w₁ =>
    rw [hr] at he
    exact hf a w₁ w' he

theorem frank_names (v : Value) : (tries fun s => s.formalNames v).Frank := by
  refine frank_tries fun s h => ?_
  obtain ⟨k, -, hk⟩ := Except.error_of_mapError h
  cases k <;> cases hk

theorem frank_binds (e : Nat) (pattern operands : Value) : (binds e pattern operands).Frank := by
  have hmatch : (tries fun s => s.matchFormals pattern operands).Frank := by
    refine frank_tries fun s h => ?_
    obtain ⟨k, -, hk⟩ := Except.error_of_mapError h
    cases k <;> cases hk
  exact hmatch.bind fun bs => frank_changes _

theorem frank_equal (room : Nat) (vs : List Value) :
    (tries fun s => s.allEqual room vs).Frank := by
  refine frank_tries fun s h => ?_
  fun_induction s.allEqual room vs with
  | case1 a b rest e he =>
    cases h
    rcases Store.equal_error he with h | h <;> cases h
  | case2 | case4 => cases h
  | case3 a b rest _ ih => exact ih h

theorem frank_vau (room env : Nat) (formals dynamic : Value) (body : List Value) :
    (Operation.value room env .vau (formals :: dynamic :: body)).Frank := by
  refine (frank_names formals).bind fun names => ?_
  refine Frank.bind ?_ fun _ => frank_makes _
  rcases Operation.checkDynamic_eq names dynamic with h | ⟨f, h⟩
  · rw [h]
    exact frank_pure ()
  · rw [h]
    exact frank_fail f

theorem frank_wrap (room env : Nat) (v : Value) : (Operation.value room env .wrap [v]).Frank := by
  simp only [Operation.value]
  split
  · exact frank_makes _
  · exact frank_fail _

theorem frank_stock : Deed.Stock Deed.Frank where
  pure := frank_pure
  throw he := frank_never fun _ _ h => by
    cases h
    exact he rfl
  bind := Frank.bind
  head _ := frank_reads _
  tail _ := frank_reads _
  spine _ := frank_reads _
  lookup _ _ := frank_reads _
  owner _ _ := frank_reads _
  operative _ := frank_reads _
  names := frank_names
  equal := frank_equal
  frame _ := frank_makes _
  cons _ _ := frank_makes _
  list _ := frank_makes _
  vau := frank_vau
  wrap := frank_wrap
  setHead _ _ := frank_changes _
  setTail _ _ := frank_changes _
  binds := frank_binds
  define _ _ _ := frank_changes _
  giveName _ _ := frank_changes _

end Deed

namespace Store

variable {s : Store} {v last : Value} {vs : List Value}

theorem walk_heads {fuel : Nat} {heads : List Value} (h : s.walk fuel heads v = some (vs, last)) :
    ∀ x ∈ vs, x ∈ heads ∨ ∃ r, s.head r = x := by
  have hend : ∀ {heads : List Value} {v}, some (heads.reverse, v) = some (vs, last) →
      ∀ x ∈ vs, x ∈ heads ∨ ∃ r, s.head r = x := by
    intro heads v h
    cases h
    exact fun x hx => .inl (List.mem_reverse.mp hx)
  induction fuel generalizing heads v with
  | zero =>
    cases v with
    | pair r => cases h
    | _ => exact hend h
  | succ fuel ih =>
    cases v with
    | pair r =>
      intro x hx
      rcases ih h x hx with hx | hx
      · rcases List.mem_cons.mp hx with rfl | hx
        · exact .inr ⟨r, rfl⟩
        · exact .inl hx
      · exact .inr hx
    | _ => exact hend h

/-- The elements of a list are heads of pairs, so no element of a list is bulky unless the store
is. -/
theorem bulky_of_spine (h : s.spine? v = some (vs, last)) {x : Value} (hx : x ∈ vs)
    (hb : x.Bulky) : s.Bulky := by
  rcases walk_heads h x hx with hx | ⟨r, rfl⟩
  · cases hx
  · exact ⟨r, .inl hb⟩

end Store

theorem checkedOperands_spine {signature : Signature} {v : Value} {w w' : World} {vs : List Value}
    (h : checkedOperands signature v w = .ok vs w') :
    w' = w ∧ w.store.spine? v = some (vs, .nil) ∧ signature.admits vs.length = true := by
  simp only [checkedOperands, Deed.reads, Bind.bind, EStateM.bind] at h
  cases hspine : w.store.spine? v with
  | none => simp only [hspine] at h; cases h
  | some found =>
    obtain ⟨us, last⟩ := found
    cases last with
    | nil =>
      simp only [hspine] at h
      split at h
      · cases h
        exact ⟨rfl, rfl, ‹_›⟩
      · cases h
    | _ => simp only [hspine] at h; cases h

namespace Deed

theorem frank_display (room env : Nat) (v : Value) :
    (checkedOperands Operation.display.signature v >>= fun vs =>
      Operation.display.perform room env vs).Frank := by
  intro w w' h
  simp only [Bind.bind, EStateM.bind] at h
  cases hv : checkedOperands Operation.display.signature v w with
  | error e w₁ =>
    rw [hv] at h
    cases h
    exact frank_stock.operands _ v w w' hv
  | ok vs w₁ =>
    obtain ⟨rfl, hspine, -⟩ := checkedOperands_spine hv
    rw [hv] at h
    simp only [Operation.perform, Operation.value, Bind.bind, EStateM.bind, tries] at h
    cases htexts : vs.mapM (w₁.store.format room .shown) with
    | ok texts =>
      rw [htexts] at h
      cases h
    | error e =>
      rw [htexts] at h
      cases h
      obtain ⟨x, hx, hformat⟩ := List.exists_of_mapM_error htexts
      rcases Printer.write_bulky (Except.error_of_map hformat) with hb | hb
      · exact Store.bulky_of_spine hspine hx hb
      · exact hb

theorem frank_repertoire : Deed.Repertoire Deed.Frank :=
  frank_stock.repertoire frank_display

end Deed

/-- An action that stops for digits only where a pair has an integer too long to write. -/
def Action.Frank {α : Type} (x : Action α) : Prop :=
  ∀ m m', x m = .error .digits m' → m'.store.Bulky

namespace Action

variable {α β : Type}

theorem frank_never {x : Action α} (h : ∀ m m', x m ≠ .error .digits m') : x.Frank :=
  fun m m' he => absurd he (h m m')

theorem frank_act {d : Deed α} (hd : d.Frank) : d.act.Frank := by
  intro m m' h
  simp only [Deed.act] at h
  cases hr : d m.world with
  | ok a w => simp [hr] at h
  | error e w =>
    simp only [hr] at h
    cases h
    exact hd m.world w hr

theorem Frank.bind {x : Action α} {f : α → Action β} (hx : x.Frank) (hf : ∀ a, (f a).Frank) :
    (x >>= f).Frank := by
  intro m m' h
  simp only [Bind.bind, EStateM.bind] at h
  cases hr : x m with
  | error e m₁ =>
    rw [hr] at h
    cases h
    exact hx m m' hr
  | ok a m₁ =>
    rw [hr] at h
    exact hf a m₁ m' h

theorem frank_tick (limit : Option Int) : (tick limit).Frank := by
  refine frank_never fun m m' h => ?_
  cases limit with
  | none => cases h
  | some l =>
    simp only [tick] at h
    split at h <;> cases h

/-- A program that stops for digits has an integer too long to write in a pair. -/
theorem pervasive_frank : Pervasive Deed.Frank Action.Frank where
  congruent := {
    repertoire := Deed.frank_repertoire
    deed := frank_act
    notes := fun _ _ => frank_never nofun
    bind := Frank.bind }
  tick := frank_tick
  enter _ _ := frank_never nofun
  leave _ _ := frank_never nofun
  reset := frank_never nofun
  sized hx := fun m => hx m.stack.size m

end Action

end Vau
