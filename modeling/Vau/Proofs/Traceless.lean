import Vau.Proofs.Binding
import Vau.Proofs.Bulky
import Vau.Proofs.FailureLocation
import Vau.Proofs.InStep
import Vau.Proofs.Scene

/-! Operations leave no trace when they fail. Each looks at its operands before it touches the
world, and then makes one change at most: it writes a slot of a pair, records a message or makes
something new. -/

namespace Vau

/-- One of the two places of a pair. -/
inductive Slot where
  | head (r : Nat)
  | tail (r : Nat)
deriving DecidableEq, Repr

def Slot.pair : Slot → Nat
  | .head r => r
  | .tail r => r

namespace Store

def slot (s : Store) : Slot → Value
  | .head r => s.head r
  | .tail r => s.tail r

def put (s : Store) (v : Value) : Slot → Store
  | .head r => s.setHead r v
  | .tail r => s.setTail r v

/-- All that `s` has, `s'` has too, unchanged but for the slot that is written. -/
structure KeptBut (s s' : Store) (written : Option Slot) : Prop where
  cells : s.cells.size ≤ s'.cells.size
  slot : ∀ p : Slot, p.pair < s.cells.size → some p ≠ written → s'.slot p = s.slot p
  location : ∀ r < s.cells.size, s'.location (.pair r) = s.location (.pair r)
  frames : s.frames.size ≤ s'.frames.size
  frame : ∀ e < s.frames.size, s'.frame e = s.frame e
  operatives : s.operatives.size ≤ s'.operatives.size
  operative : ∀ q < s.operatives.size, s'.operative q = s.operative q
  wrappers : s.wrappers ≤ s'.wrappers

variable {s s' : Store}

theorem head_setHead (r d : Nat) (v : Value) :
    (s.setHead r v).head d = if d = r ∧ r < s.cells.size then v else s.head d := by
  rw [head, setHead, cell_modify]
  split <;> rfl

theorem tail_setHead (r d : Nat) (v : Value) : (s.setHead r v).tail d = s.tail d := by
  rw [tail, setHead, cell_modify]
  split <;> rfl

theorem head_setTail (r d : Nat) (v : Value) : (s.setTail r v).head d = s.head d := by
  rw [head, setTail, cell_modify]
  split <;> rfl

theorem tail_setTail (r d : Nat) (v : Value) :
    (s.setTail r v).tail d = if d = r ∧ r < s.cells.size then v else s.tail d := by
  rw [tail, setTail, cell_modify]
  split <;> rfl

theorem slot_put (v : Value) (p q : Slot) :
    (s.put v p).slot q = if q = p ∧ p.pair < s.cells.size then v else s.slot q := by
  cases p <;> cases q <;>
    simp [put, slot, Slot.pair, head_setHead, tail_setHead, head_setTail, tail_setTail]

theorem location_put (v : Value) (p : Slot) (u : Value) :
    (s.put v p).location u = s.location u := by
  cases p with
  | head r => exact location_setHead r v u
  | tail r => exact location_setTail r v u

theorem Extends.keptBut (h : s.Extends s') (written : Option Slot) : s.KeptBut s' written :=
  { h with
    slot := fun p hp _ => by
      cases p with
      | head r => exact congrArg Cell.head (h.cell r hp)
      | tail r => exact congrArg Cell.tail (h.cell r hp)
    location := fun r hr => congrArg Cell.location (h.cell r hr) }

theorem keptBut_put (s : Store) (v : Value) (p : Slot) : s.KeptBut (s.put v p) (some p) where
  cells := by cases p <;> simp [put, setHead, setTail]
  slot q _ hne := by rw [slot_put, if_neg fun h => hne (congrArg some h.1)]
  location r _ := location_put v p (.pair r)
  frames := by cases p <;> exact Nat.le_refl _
  frame e _ := by cases p <;> rfl
  operatives := by cases p <;> exact Nat.le_refl _
  operative q _ := by cases p <;> rfl
  wrappers := by cases p <;> exact Nat.le_refl _

end Store

namespace Operation

/-- The slot that an operation writes, and what it writes there. -/
def writes? : Operation → List Value → Option (Slot × Value)
  | .setHead, [.pair r, v] => some (.head r, v)
  | .setTail, [.pair r, v] => some (.tail r, v)
  | _, _ => none

/-- What an operation that answers does to the world: what there was is kept but for the slot that
it writes, and it displays one message or none. -/
structure Leaves (room : Nat) (o : Operation) (vs : List Value) (w w' : World) : Prop where
  kept : w.store.KeptBut w'.store ((o.writes? vs).map Prod.fst)
  written : ∀ p v, o.writes? vs = some (p, v) → p.pair < w.store.cells.size → w'.store.slot p = v
  silent : o ≠ .display → w'.effects = w.effects
  shown : o = .display → ∃ texts, vs.mapM (w.store.format room .shown) = .ok texts ∧
    w'.effects = w.effects.push ⟨.stdout, " ".intercalate texts⟩

end Operation

/-- A deed that leaves the world as it was when it stops, and moves it along the relation when it
does not. -/
def Deed.Clean {α : Type} (R : World → World → Prop) (d : Deed α) : Prop :=
  ∀ w, (∀ e w', d w = .error e w' → w' = w) ∧ ∀ a w', d w = .ok a w' → R w w'

namespace Deed

variable {α β : Type} {R : World → World → Prop} {d : Deed α}

theorem Clean.mono (hR : ∀ w, R w w) (h : d.Clean Eq) : d.Clean R :=
  fun w => ⟨(h w).1, fun a w' hok => (h w).2 a w' hok ▸ hR w⟩

/-- It may look at the world first, and what it sees then is known. -/
theorem Clean.seeing {S : α → World → World → Prop} {f : α → Deed β} (hd : d.Clean Eq)
    (hf : ∀ a, (f a).Clean (S a)) (hR : ∀ w a w', d w = .ok a w → S a w w' → R w w') :
    (d >>= f).Clean R := by
  intro w
  simp only [Bind.bind, EStateM.bind]
  cases hr : d w with
  | error e w' =>
    refine ⟨?_, ?_⟩
    · rintro _ _ ⟨⟩
      exact (hd w).1 e w' hr
    · rintro _ _ ⟨⟩
  | ok a w' =>
    obtain rfl := (hd w).2 a w' hr
    exact ⟨(hf a w).1, fun b w' hok => hR w a w' hr ((hf a w).2 b w' hok)⟩

theorem Clean.after {f : α → Deed β} (hd : d.Clean Eq) (hf : ∀ a, (f a).Clean R) :
    (d >>= f).Clean R :=
  hd.seeing hf fun _ _ _ _ h => h

/-- It may answer with something made of what it came to. -/
theorem Clean.answer {g : α → β} (h : d.Clean R) : (d >>= fun a => pure (g a)).Clean R := by
  intro w
  simp only [Bind.bind, EStateM.bind]
  cases hr : d w with
  | error e w' =>
    refine ⟨?_, ?_⟩
    · rintro _ _ ⟨⟩
      exact (h w).1 e w' hr
    · rintro _ _ ⟨⟩
  | ok a w' =>
    refine ⟨?_, ?_⟩
    · rintro _ _ ⟨⟩
    · rintro _ _ ⟨⟩
      exact (h w).2 a w' hr

/-- The rest of the machine is out of reach of a deed. -/
theorem Clean.act (h : d.Clean R) (m : Machine) :
    (∀ e m', d.act m = .error e m' → m' = m) ∧
      ∀ a m', d.act m = .ok a m' → ∃ w, R m.world w ∧ m' = { m with world := w } := by
  cases hr : d m.world with
  | error e w =>
    rw [Action.act_of_error hr, (h m.world).1 e w hr]
    refine ⟨?_, ?_⟩ <;> rintro _ _ ⟨⟩
    rfl
  | ok a w =>
    rw [Action.act_of_ok hr]
    refine ⟨?_, ?_⟩ <;> rintro _ _ ⟨⟩
    exact ⟨w, (h m.world).2 a w hr, rfl⟩

theorem clean_pure (a : α) : (pure a : Deed α).Clean Eq := by
  intro w
  refine ⟨?_, ?_⟩ <;> rintro _ _ ⟨⟩
  rfl

theorem clean_fail (f : Failure) : (Deed.fail f : Deed α).Clean R := by
  intro w
  refine ⟨?_, ?_⟩ <;> rintro _ _ ⟨⟩
  rfl

theorem clean_reads (f : Store → α) : (reads f).Clean Eq := by
  intro w
  refine ⟨?_, ?_⟩ <;> rintro _ _ ⟨⟩
  rfl

theorem clean_tries (f : Store → Except Stop α) : (tries f).Clean Eq := by
  intro w
  unfold tries
  split <;> refine ⟨?_, ?_⟩ <;> rintro _ _ ⟨⟩ <;> rfl

theorem clean_makes {f : Store → α × Store}
    (h : ∀ w : World, R w { w with store := (f w.store).2 }) : (makes f).Clean R := by
  intro w
  refine ⟨?_, ?_⟩ <;> rintro _ _ ⟨⟩
  exact h w

theorem clean_changes {f : Store → Store} (h : ∀ w : World, R w { w with store := f w.store }) :
    (changes f).Clean R := by
  intro w
  refine ⟨?_, ?_⟩ <;> rintro _ _ ⟨⟩
  exact h w

end Deed

namespace Operation

open Deed

variable {room : Nat} {o : Operation} {vs : List Value} {w : World} {s : Store}

/-- An operation that neither writes nor displays leaves the world with more in it. -/
theorem Leaves.of_extends (hw : o.writes? vs = none) (hd : o ≠ .display)
    (h : w.store.Extends s) : o.Leaves room vs w { w with store := s } where
  kept := h.keptBut _
  written p v hp := by rw [hw] at hp; cases hp
  silent _ := rfl
  shown ho := absurd ho hd

theorem Leaves.refl (hw : o.writes? vs = none) (hd : o ≠ .display) (w : World) :
    o.Leaves room vs w w :=
  .of_extends hw hd (.refl _)

theorem Leaves.of_put {p : Slot} {v : Value} (hw : o.writes? vs = some (p, v))
    (hd : o ≠ .display) : o.Leaves room vs w { w with store := w.store.put v p } where
  kept := by
    rw [hw]
    exact w.store.keptBut_put v p
  written q x hq hlt := by
    rw [hw] at hq
    cases hq
    exact (Store.slot_put v p p).trans (if_pos ⟨rfl, hlt⟩)
  silent _ := rfl
  shown ho := absurd ho hd

theorem clean_pairOperand (v : Value) : (pairOperand v).Clean Eq := by
  cases v <;> first | exact clean_pure _ | exact clean_fail _

theorem clean_envOperand (v : Value) : (envOperand v).Clean Eq := by
  cases v <;> first | exact clean_pure _ | exact clean_fail _

theorem clean_computed {α : Type} (r : Except Failure α) : (computed r).Clean Eq := by
  cases r with
  | ok a => exact clean_pure a
  | error f => exact clean_fail f

theorem clean_checkDynamic (names : List String) (v : Value) : (checkDynamic names v).Clean Eq := by
  rcases checkDynamic_eq names v with h | ⟨f, h⟩
  · exact h ▸ clean_pure ()
  · exact h ▸ clean_fail f

theorem clean_display (room env : Nat) (vs : List Value) :
    (display.value room env vs).Clean (display.Leaves room vs) := by
  intro w
  simp only [value, Bind.bind, EStateM.bind, tries]
  cases htexts : vs.mapM (w.store.format room .shown) with
  | error e => refine ⟨?_, ?_⟩ <;> rintro _ _ ⟨⟩; rfl
  | ok texts =>
    refine ⟨?_, ?_⟩ <;> rintro _ _ ⟨⟩
    exact ⟨(Store.Extends.refl _).keptBut _, by rintro _ _ ⟨⟩, fun h => absurd rfl h,
      fun _ => ⟨texts, htexts, rfl⟩⟩

theorem clean_value (room env : Nat) (o : Operation) (vs : List Value) :
    (o.value room env vs).Clean (o.Leaves room vs) := by
  unfold value
  split
  case h_1 formals dynamic body =>
    exact (clean_tries _).after fun names => (clean_checkDynamic names dynamic).after fun _ =>
      clean_makes fun w => .of_extends rfl (by simp) (.newOperative w.store _)
  case h_2 v =>
    split
    · exact clean_makes fun w => .of_extends rfl (by simp) (.wrap w.store v)
    · exact clean_fail _
  case h_3 => exact (clean_pure _).mono (.refl rfl (by simp))
  case h_4 => exact clean_fail _
  case h_5 =>
    exact Clean.answer (clean_makes fun w => .of_extends rfl (by simp) (.newFrame w.store none))
  case h_6 v =>
    exact (clean_envOperand v).after fun p => Clean.answer
      (clean_makes fun w => .of_extends rfl (by simp) (.newFrame w.store (some p)))
  case h_7 x y => exact clean_makes fun w => .of_extends rfl (by simp) (.cons w.store x y none)
  case h_8 v =>
    exact ((clean_pairOperand v).after fun r => clean_reads _).mono (.refl rfl (by simp))
  case h_9 v =>
    exact ((clean_pairOperand v).after fun r => clean_reads _).mono (.refl rfl (by simp))
  case h_10 v x =>
    cases v with
    | pair r =>
      change (changes (fun s => s.put x (.head r)) >>= fun _ => pure Value.inert).Clean _
      exact (clean_changes fun w => .of_put rfl (by simp)).answer
    | _ => exact clean_fail _
  case h_11 v x =>
    cases v with
    | pair r =>
      change (changes (fun s => s.put x (.tail r)) >>= fun _ => pure Value.inert).Clean _
      exact (clean_changes fun w => .of_put rfl (by simp)).answer
    | _ => exact clean_fail _
  case h_12 | h_13 => exact (clean_computed _).answer.mono (.refl rfl (by simp))
  case h_14 => exact (clean_tries _).answer.mono (.refl rfl (by simp))
  case h_15 | h_16 => exact (clean_pure _).mono (.refl rfl (by simp))
  case h_17 => exact clean_display room env _
  case h_18 | h_19 => exact clean_fail _

theorem clean_perform (room env : Nat) (o : Operation) (vs : List Value) :
    (o.perform room env vs).Clean (o.Leaves room vs) := by
  unfold perform
  split
  · exact (clean_envOperand _).answer.mono (.refl rfl (by simp))
  · exact (clean_value room env _ _).answer

end Operation

theorem clean_checkedOperands (signature : Signature) (v : Value) :
    (checkedOperands signature v).Clean Eq := by
  refine (Deed.clean_reads _).after fun spine => ?_
  split
  · intro w
    refine ⟨?_, ?_⟩ <;> rintro _ _ ⟨⟩
    rfl
  · split
    · exact Deed.clean_pure _
    · exact Deed.clean_fail _
  · exact Deed.clean_fail _

/-- A call of an operation that stops, for whatever reason, leaves the machine as it was. One that
answers had a list of operands; it leaves all that there was as it was, but for the slot that it
writes and the one message that it displays. -/
theorem operation_traceless (cfg : Settings) (ev : Evaluation) (room : Nat) (o : Operation)
    (operands : Value) (env : Nat) (m m' : Machine) :
    (∀ stop, callPrimitive cfg ev room (.operation o) operands env m = .error stop m' → m' = m) ∧
    ∀ answer, callPrimitive cfg ev room (.operation o) operands env m = .ok answer m' →
      ∃ vs w, m.store.spine? operands = some (vs, .nil) ∧ o.signature.admits vs.length = true ∧
        o.Leaves room vs m.world w ∧ m' = { m with world := w } := by
  have hcall : callPrimitive cfg ev room (.operation o) operands env =
      (checkedOperands o.signature operands >>= fun vs => o.perform room env vs).act :=
    (Deed.act_bind _ _).symm
  have hclean := ((clean_checkedOperands o.signature operands).seeing
    (Operation.clean_perform room env o) (R := fun w w' => ∃ vs, w.store.spine? operands =
      some (vs, .nil) ∧ o.signature.admits vs.length = true ∧ o.Leaves room vs w w')
    fun w vs w' hvs hleaves => ⟨vs, (checkedOperands_spine hvs).2.1,
      (checkedOperands_spine hvs).2.2, hleaves⟩).act m
  rw [hcall]
  refine ⟨fun stop hstop => hclean.1 stop m' hstop, fun answer hanswer => ?_⟩
  obtain ⟨w, ⟨vs, hspine, hadmits, hleaves⟩, rfl⟩ := hclean.2 answer m' hanswer
  exact ⟨vs, w, hspine, hadmits, hleaves, rfl⟩

/-- The pair `(1 . 2)`, a list of it and of `5`, and a list of `5` and of it. -/
def pairAndNumber : Machine where
  world := { store := { cells := #[⟨.int 1, .int 2, none⟩, ⟨.pair 0, .pair 2, none⟩,
    ⟨.int 5, .nil, none⟩, ⟨.int 5, .pair 4, none⟩, ⟨.pair 0, .nil, none⟩] } }

/-- A sum fails at its second operand and leaves no trace; writing the head of a pair leaves its
tail. -/
theorem operation_traceless_slot :
    (∃ f, callPrimitive {} (nested (reduce {} 5) 5) 5 (.operation (.arithmetic .add)) (.pair 3) 0
      pairAndNumber = .error (.failure f) pairAndNumber) ∧
    ∃ m, callPrimitive {} (nested (reduce {} 5) 5) 5 (.operation .setHead) (.pair 1) 0
      pairAndNumber = .ok (.value .inert) m ∧ m.store.head 0 = .int 5 ∧ m.store.tail 0 = .int 2 := by
  have hadd : ∃ f m, callPrimitive {} (nested (reduce {} 5) 5) 5 (.operation (.arithmetic .add))
      (.pair 3) 0 pairAndNumber = .error (.failure f) m := ⟨_, _, rfl⟩
  have hset : ∃ m, callPrimitive {} (nested (reduce {} 5) 5) 5 (.operation .setHead) (.pair 1) 0
      pairAndNumber = .ok (.value .inert) m := ⟨_, rfl⟩
  have hspine : pairAndNumber.store.spine? (.pair 1) = some ([.pair 0, .int 5], .nil) := by decide
  obtain ⟨f, m, hadd⟩ := hadd
  obtain ⟨m', hset⟩ := hset
  refine ⟨⟨f, ?_⟩, m', hset, ?_⟩
  · rw [hadd, (operation_traceless _ _ _ _ _ _ _ m).1 _ hadd]
  · obtain ⟨vs, w, hvs, -, hleaves, rfl⟩ := (operation_traceless _ _ _ _ _ _ _ m').2 _ hset
    rw [hspine] at hvs
    cases hvs
    exact ⟨hleaves.written (.head 0) (.int 5) rfl (by decide),
      hleaves.kept.slot (.tail 0) (by decide) (by decide)⟩

end Vau
