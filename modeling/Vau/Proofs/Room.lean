import Vau.Operation

/-! More room for nesting changes nothing but where evaluation, printing or comparing runs
out of it. -/

namespace Vau

/-- Stops for want of fuel or of room, which a larger host would not make. -/
def Stop.isLimit : Stop → Bool
  | .outOfFuel => true
  | .failure .stackExhausted => true
  | _ => false

/-- `r'` is `r`, unless `r` has run into a limit. -/
def Settles {α : Type} (r r' : Except Stop α) : Prop :=
  r' = r ∨ ∃ e : Stop, e.isLimit = true ∧ r = .error e

namespace Settles

variable {α β : Type}

theorem refl (r : Except Stop α) : Settles r r := .inl rfl

theorem exhausted (r : Except Stop α) : Settles (.error (.failure .stackExhausted)) r :=
  .inr ⟨_, rfl, rfl⟩

theorem bind {r r' : Except Stop α} {f f' : α → Except Stop β} (h : Settles r r')
    (hf : ∀ a, Settles (f a) (f' a)) : Settles (r >>= f) (r' >>= f') := by
  rcases h with rfl | ⟨e, he, rfl⟩
  · cases r' with
    | error e => exact .refl _
    | ok a => exact hf a
  · exact .inr ⟨e, he, rfl⟩

theorem map {r r' : Except Stop α} (h : Settles r r') (f : α → β) :
    Settles (r.map f) (r'.map f) := by
  rcases h with rfl | ⟨e, he, rfl⟩
  · exact .refl _
  · exact .inr ⟨e, he, rfl⟩

theorem mapM {f f' : α → Except Stop β} (hf : ∀ a, Settles (f a) (f' a)) (l : List α) :
    Settles (l.mapM f) (l.mapM f') := by
  induction l with
  | nil => exact .refl _
  | cons a l ih =>
    simp only [List.mapM_cons]
    exact (hf a).bind fun _ => ih.bind fun _ => .refl _

end Settles

namespace Store

variable (s : Store)

theorem equalSpine_settles {f f' : Value → Value → Except Stop Bool}
    (hf : ∀ a b, Settles (f a b) (f' a b)) (fuel : Nat) (a b : Value) :
    Settles (s.equalSpine f fuel a b) (s.equalSpine f' fuel a b) := by
  fun_induction s.equalSpine f fuel a b with
  | case1 fuel a => cases fuel <;> simp [equalSpine, Settles.refl]
  | case2 a b hab => simp [equalSpine, hab, Settles.refl]
  | case3 a b hab fuel e he =>
    rcases hf (s.head a) (s.head b) with h | ⟨e', hl, h⟩
    · simp [equalSpine, hab, h, he, Settles.refl]
    · exact .inr ⟨e', hl, he.symm.trans h⟩
  | case4 a b hab fuel he =>
    rcases hf (s.head a) (s.head b) with h | ⟨e', hl, h⟩
    · simp [equalSpine, hab, h, he, Settles.refl]
    · simp [he] at h
  | case5 a b hab fuel he ih =>
    rcases hf (s.head a) (s.head b) with h | ⟨e', hl, h⟩
    · simpa [equalSpine, hab, h, he] using ih
    · simp [he] at h
  | case6 fuel a b hab =>
    simp only [equalSpine]
    exact .refl _

theorem equal_settles {room room' : Nat} (h : room ≤ room') (a b : Value) :
    Settles (s.equal room a b) (s.equal room' a b) := by
  induction room generalizing room' a b with
  | zero => exact .exhausted _
  | succ room ih =>
    cases room' with
    | zero => omega
    | succ room' => exact s.equalSpine_settles (fun a b => ih (by omega) a b) _ a b

theorem allEqual_settles {room room' : Nat} (h : room ≤ room') (vs : List Value) :
    Settles (s.allEqual room vs) (s.allEqual room' vs) := by
  fun_induction s.allEqual room vs with
  | case1 a b rest e he =>
    rcases s.equal_settles h a b with hs | ⟨e', hl, hs⟩
    · simp [allEqual, hs, he, Settles.refl]
    · exact .inr ⟨e', hl, he.symm.trans hs⟩
  | case2 a b rest he =>
    rcases s.equal_settles h a b with hs | ⟨e', hl, hs⟩
    · simp [allEqual, hs, he, Settles.refl]
    · simp [he] at hs
  | case3 a b rest he ih =>
    rcases s.equal_settles h a b with hs | ⟨e', hl, hs⟩
    · simpa [allEqual, hs, he] using ih
    · simp [he] at hs
  | case4 vs hvs =>
    simp only [allEqual]
    exact .refl _

end Store

namespace Printer

variable (st : Style) (s : Store)

theorem parts_settles {f f' : Value → Except Stop (List Char)} (hf : ∀ v, Settles (f v) (f' v))
    (fuel used : Nat) (done : List (List Char)) (v : Value) :
    Settles (parts st s f fuel used done v) (parts st s f' fuel used done v) := by
  fun_induction parts st s f fuel used done v with
  | case1 used done r => simp only [parts]; exact .refl _
  | case2 used done r fuel e he =>
    rcases hf (s.head r) with h | ⟨e', hl, h⟩
    · simp [parts, h, he, Settles.refl]
    · cases he.symm.trans h
      exact .inr ⟨e, hl, rfl⟩
  | case3 used done r fuel text he used' hx =>
    rcases hf (s.head r) with h | ⟨e', hl, h⟩
    · simp only [parts, h, he]
      rw [if_pos hx]
      exact .refl _
    · simp [he] at h
  | case4 used done r fuel text he used' hx ih =>
    rcases hf (s.head r) with h | ⟨e', hl, h⟩
    · simp only [parts, h, he]
      rw [if_neg hx]
      exact ih
    · simp [he] at h
  | case5 fuel used done => simp only [parts]; exact .refl _
  | case6 fuel used done v hp hn e he =>
    rcases hf v with h | ⟨e', hl, h⟩
    · simp [parts, h, he, Settles.refl]
    · cases he.symm.trans h
      exact .inr ⟨e, hl, rfl⟩
  | case7 fuel used done v hp hn text he =>
    rcases hf v with h | ⟨e', hl, h⟩
    · simp [parts, h, he, Settles.refl]
    · simp [he] at h

theorem write_settles {room room' : Nat} (h : room ≤ room') (depth : Nat) (v : Value) :
    Settles (write st s room depth v) (write st s room' depth v) := by
  induction room generalizing room' depth v with
  | zero =>
    cases v with
    | pair r =>
      cases room' <;> simp only [write] <;> split
      · exact .refl _
      · exact .exhausted _
      · exact .refl _
      · exact .exhausted _
    | _ => cases room' <;> exact .refl _
  | succ room ih =>
    obtain ⟨room', rfl⟩ : ∃ k, room' = k + 1 := ⟨room' - 1, by omega⟩
    cases v with
    | pair r =>
      simp only [write]
      split
      · exact .refl _
      · have hp := parts_settles st s (fun v => ih (by omega : room ≤ room') (depth + 1) v)
          (st.budget s) 0 [] (.pair r)
        rcases hp with hp | ⟨e, he, hp⟩
        · rw [hp]
          exact .refl _
        · rw [hp]
          exact .inr ⟨e, he, rfl⟩
    | _ => exact .refl _

end Printer

def Limited {σ α : Type} (r : EStateM.Result Stop σ α) : Prop :=
  ∃ e s, e.isLimit = true ∧ r = .error e s

def Resolves {σ α : Type} (r r' : EStateM.Result Stop σ α) : Prop := r' = r ∨ Limited r

theorem Resolves.bind {σ α β : Type} {x x' : EStateM Stop σ α} {f : α → EStateM Stop σ β} {s : σ}
    (h : Resolves (x s) (x' s)) : Resolves ((x >>= f) s) ((x' >>= f) s) := by
  simp only [Bind.bind, EStateM.bind]
  rcases h with h | ⟨e, s', he, h⟩
  · rw [h]
    exact .inl rfl
  · rw [h]
    exact .inr ⟨e, s', he, rfl⟩

theorem resolves_tries {α : Type} {f f' : Store → Except Stop α} {w : World}
    (h : Settles (f w.store) (f' w.store)) : Resolves (Deed.tries f w) (Deed.tries f' w) := by
  simp only [Deed.tries]
  rcases h with h | ⟨e, he, h⟩
  · rw [h]
    exact .inl rfl
  · rw [h]
    exact .inr ⟨e, w, he, rfl⟩

namespace Operation

variable {room room' : Nat}

theorem value_resolves (h : room ≤ room') (env : Nat) (o : Operation) (vs : List Value)
    (w : World) : Resolves (o.value room env vs w) (o.value room' env vs w) := by
  unfold value
  split
  case h_14 => exact (resolves_tries (w.store.allEqual_settles h _)).bind
  case h_17 =>
    have hv : ∀ v, Settles (w.store.format room .shown v) (w.store.format room' .shown v) :=
      fun v => (Printer.write_settles .shown w.store h 0 v).map _
    exact (resolves_tries (Settles.mapM hv _)).bind
  all_goals exact .inl rfl

theorem perform_resolves (h : room ≤ room') (env : Nat) (o : Operation) (vs : List Value)
    (w : World) : Resolves (o.perform room env vs w) (o.perform room' env vs w) := by
  unfold perform
  split
  · exact .inl rfl
  · exact (value_resolves h env _ _ w).bind

end Operation

end Vau
