import Vau.Proofs.Cycle

/-! Equality is an equivalence. Of values that unfold it is what its definition says, whether or
not pairs are shared: a pair that is found equal to itself without a look inside would be found so
anyway. A comparison that lacks room for nesting has no answer, never another one. -/

namespace Vau

namespace Value

theorem atomEq_comm (a b : Value) : a.atomEq b = b.atomEq a := by
  cases a <;> cases b <;> simp [atomEq, Bool.beq_comm]

theorem atomEq_trans {a b c : Value} (h : a.atomEq b = true) (h' : b.atomEq c = true) :
    a.atomEq c = true := by
  cases a <;> cases b <;> simp [atomEq] at h <;> cases c <;> simp_all [atomEq]

theorem identical_refl (a : Value) : a.identical a = true := by
  cases a <;> simp [identical, isPair, atomEq]

theorem identical_comm (a b : Value) : a.identical b = b.identical a := by
  simp only [identical, Bool.or_comm a.isPair, Bool.beq_comm (a := a), atomEq_comm a]

theorem eq_of_identical {a b : Value} (h : a.identical b = true) (hp : a.isPair = true) : a = b := by
  simpa [identical, hp] using h

theorem identical_trans {a b c : Value} (h : a.identical b = true) (h' : b.identical c = true) :
    a.identical c = true := by
  cases ha : a.isPair with
  | true => rwa [eq_of_identical h ha]
  | false =>
    cases hc : c.isPair with
    | true =>
      rw [identical_comm] at h'
      rwa [eq_of_identical h' hc]
    | false =>
      cases hb : b.isPair with
      | true =>
        rw [identical_comm] at h
        rwa [← eq_of_identical h hb]
      | false =>
        simp only [identical, ha, hb, hc] at h h' ⊢
        exact atomEq_trans h h'

end Value

namespace Tree

theorem same_comm (t u : Tree) : t.same u = u.same t := by
  induction t generalizing u with
  | leaf v =>
    cases u with
    | leaf w => exact Value.atomEq_comm v w
    | node _ _ => rfl
  | node h t ihh iht =>
    cases u with
    | leaf _ => rfl
    | node h' t' => simp only [same, ihh, iht]

end Tree

namespace Store

variable {s : Store} {room : Nat} {a b c : Value} {t u : Tree}

/-- What equality is: of pairs by heads and tails, of wrappers by what they wrap, and of anything
else by kind and content. That two pairs are one and the same is no case of its own. -/
inductive Equals (s : Store) : Value → Value → Prop
  | pair {r q : Nat} (hhead : s.Equals (s.head r) (s.head q)) (htail : s.Equals (s.tail r) (s.tail q)) :
    Equals s (.pair r) (.pair q)
  | applicative (label label' : Nat) (underlying : Value) :
    Equals s (.applicative label underlying) (.applicative label' underlying)
  | atom {v : Value} (hv : v.isPair = false) : Equals s v v

theorem equals_of_atomEq (ha : a.isPair = false) (h : a.atomEq b = true) : s.Equals a b := by
  cases a with
  | pair _ => cases ha
  | applicative label u =>
    cases b with
    | applicative label' w =>
      obtain rfl : u = w := by simpa [Value.atomEq] using h
      exact .applicative label label' u
    | _ => simp [Value.atomEq] at h
  | _ =>
    obtain rfl : _ = b := by simpa [Value.atomEq] using h
    exact .atom rfl

theorem Unfolds.same_iff (ha : s.Unfolds a t) (hb : s.Unfolds b u) :
    t.same u = true ↔ s.Equals a b := by
  constructor
  · intro h
    induction ha generalizing b u with
    | leaf hv =>
      cases hb with
      | leaf _ => exact equals_of_atomEq hv h
      | node _ _ _ => cases h
    | node _ _ _ ihh iht =>
      cases hb with
      | leaf _ => cases h
      | node _ hh ht =>
        simp only [Tree.same, Bool.and_eq_true] at h
        exact .pair (ihh hh h.1) (iht ht h.2)
  · intro h
    induction h generalizing t u with
    | pair _ _ ihh iht =>
      cases ha with
      | leaf hv => cases hv
      | node _ hh ht =>
        cases hb with
        | leaf hv => cases hv
        | node _ hh' ht' => simp only [Tree.same, ihh hh hh', iht ht ht', Bool.and_self]
    | applicative label label' underlying =>
      cases ha
      cases hb
      simp [Tree.same, Value.atomEq]
    | atom _ =>
      rw [ha.unique hb]
      exact u.same_refl

theorem equalSpine_self (f : Value → Value → Except Stop Bool) (fuel : Nat) (a : Value) :
    s.equalSpine f fuel a a = .ok true := by
  cases a with
  | pair r => cases fuel <;> simp [equalSpine]
  | _ =>
    rw [equalSpine_leaf _ (.inl rfl)]
    exact congrArg _ (Tree.leaf _).same_refl

theorem equal_self (s : Store) {room : Nat} (hroom : 0 < room) (a : Value) :
    s.equal room a a = .ok true := by
  obtain ⟨room, rfl⟩ := Nat.exists_eq_add_one.mpr hroom
  exact equalSpine_self _ _ a

theorem equal_of_identical (hroom : 0 < room) (h : a.identical b = true) :
    s.equal room a b = .ok true := by
  cases ha : a.isPair with
  | true =>
    rw [← Value.eq_of_identical h ha]
    exact s.equal_self hroom a
  | false =>
    cases hb : b.isPair with
    | true =>
      rw [Value.identical_comm] at h
      rw [← Value.eq_of_identical h hb]
      exact s.equal_self hroom b
    | false =>
      obtain ⟨room, rfl⟩ := Nat.exists_eq_add_one.mpr hroom
      have hatom : a.atomEq b = true := by simpa [Value.identical, ha, hb] using h
      rw [equal, equalSpine_leaf _ (.inl ha), hatom]

theorem equalSpine_comm {f : Value → Value → Except Stop Bool} (hf : ∀ a b, f a b = f b a)
    (fuel : Nat) (a b : Value) : s.equalSpine f fuel a b = s.equalSpine f fuel b a := by
  have hleaf : ∀ fuel {a b : Value}, a.isPair = false ∨ b.isPair = false →
      s.equalSpine f fuel a b = s.equalSpine f fuel b a := by
    intro fuel a b h
    rw [equalSpine_leaf fuel h, equalSpine_leaf fuel h.symm, Value.atomEq_comm]
  induction fuel generalizing a b with
  | zero =>
    cases a with
    | pair r =>
      cases b with
      | pair q => simp only [equalSpine, eq_comm]
      | _ => exact hleaf 0 (.inr rfl)
    | _ => exact hleaf 0 (.inl rfl)
  | succ fuel ih =>
    cases a with
    | pair r =>
      cases b with
      | pair q => simp only [equalSpine, eq_comm (a := r), hf (s.head r), ih (s.tail r)]
      | _ => exact hleaf _ (.inr rfl)
    | _ => exact hleaf _ (.inl rfl)

theorem equal_comm (s : Store) (room : Nat) (a b : Value) : s.equal room a b = s.equal room b a := by
  induction room generalizing a b with
  | zero => rfl
  | succ room ih => exact equalSpine_comm ih _ a b

/-- Of values that unfold the comparison gives the answer for their trees, which have no places to
be the same, unless both are nested too deeply for its room. -/
theorem Unfolds.equal_cases (ha : s.Unfolds a t) (hb : s.Unfolds b u) (room : Nat) :
    s.equal room a b = .ok (t.same u) ∨
      s.equal room a b = .error (.failure .stackExhausted) ∧ room ≤ t.depth ∧ room ≤ u.depth := by
  by_cases hat : t.depth < room
  · exact .inl (equal_unfolds ha hb hat)
  by_cases hau : u.depth < room
  · rw [equal_comm, Tree.same_comm]
    exact .inl (equal_unfolds hb ha hau)
  have hample : s.equal (t.depth + 1) a b = .ok (t.same u) := equal_unfolds ha hb (Nat.lt_succ_self _)
  rcases s.equal_settles (by omega : room ≤ t.depth + 1) a b with hs | ⟨e, he, hs⟩
  · exact .inl (hs.symm.trans hample)
  · rcases equal_error hs with rfl | rfl
    · exact .inr ⟨hs, Nat.le_of_not_lt hat, Nat.le_of_not_lt hau⟩
    · cases he

theorem equals_of_equal (ha : s.Unfolds a t) (hb : s.Unfolds b u) (h : s.equal room a b = .ok true) :
    s.Equals a b := by
  rcases ha.equal_cases hb room with hs | ⟨hs, -⟩
  · rw [h] at hs
    exact (ha.same_iff hb).mp (Except.ok.inj hs).symm
  · rw [h] at hs
    cases hs

/-- The value unfolds to a tree that the room for nesting is enough for. -/
def Fits (s : Store) (room : Nat) (v : Value) : Prop := ∃ t, s.Unfolds v t ∧ t.depth < room

theorem fits_atom (ha : a.isPair = false) (hroom : 0 < room) : s.Fits room a :=
  ⟨.leaf a, .leaf ha, hroom⟩

theorem Fits.equal_true_iff (ha : s.Fits room a) (hb : s.Fits room b) :
    s.equal room a b = .ok true ↔ s.Equals a b := by
  obtain ⟨t, ha, hroom⟩ := ha
  obtain ⟨u, hb, -⟩ := hb
  rw [equal_unfolds ha hb hroom, ← ha.same_iff hb, Except.ok.injEq]

theorem Equals.symm (h : s.Equals a b) : s.Equals b a := by
  induction h with
  | pair _ _ ihh iht => exact .pair ihh iht
  | applicative label label' u => exact .applicative label' label u
  | atom hv => exact .atom hv

theorem Equals.trans (h : s.Equals a b) (h' : s.Equals b c) : s.Equals a c := by
  induction h generalizing c with
  | pair _ _ ihh iht =>
    cases h' with
    | pair hh ht => exact .pair (ihh hh) (iht ht)
    | atom hv => cases hv
  | applicative label label' u =>
    cases h' with
    | applicative _ label'' _ => exact .applicative label label'' u
    | atom _ => exact .applicative label label' u
  | atom _ => exact h'

theorem Fits.equals_self (h : s.Fits room a) : s.Equals a a := by
  obtain ⟨t, ht, -⟩ := h
  exact (ht.same_iff ht).mp t.same_refl

/-- It is enough that each value equals the next one. -/
theorem equals_cons {vs : List Value} (ha : s.Equals a a) (hab : s.Equals a b) :
    (∀ x ∈ a :: b :: vs, ∀ y ∈ a :: b :: vs, s.Equals x y) ↔
      ∀ x ∈ b :: vs, ∀ y ∈ b :: vs, s.Equals x y := by
  constructor
  · exact fun h x hx y hy => h x (List.mem_cons_of_mem a hx) y (List.mem_cons_of_mem a hy)
  · intro h
    have hfirst : ∀ y ∈ b :: vs, s.Equals a y := fun y hy => hab.trans (h b List.mem_cons_self y hy)
    intro x hx y hy
    rcases List.mem_cons.mp hx with rfl | hx'
    · rcases List.mem_cons.mp hy with rfl | hy'
      · exact ha
      · exact hfirst y hy'
    · rcases List.mem_cons.mp hy with rfl | hy'
      · exact (hfirst x hx').symm
      · exact h x hx' y hy'

theorem allEqual_fits {vs : List Value} (hvs : ∀ v ∈ vs, s.Fits room v) :
    ∃ answer, s.allEqual room vs = .ok answer ∧
      (answer = true ↔ ∀ a ∈ vs, ∀ b ∈ vs, s.Equals a b) := by
  induction vs with
  | nil => exact ⟨true, rfl, by simp⟩
  | cons a vs ih =>
    obtain ⟨ha, hvs⟩ := List.forall_mem_cons.mp hvs
    cases vs with
    | nil => exact ⟨true, rfl, by simpa using ha.equals_self⟩
    | cons b vs =>
      obtain ⟨answer, hall, hiff⟩ := ih hvs
      have hb := hvs b List.mem_cons_self
      cases hab : s.equal room a b with
      | error e =>
        obtain ⟨t, ht, hroom⟩ := ha
        obtain ⟨u, hu, -⟩ := hb
        rw [equal_unfolds ht hu hroom] at hab
        cases hab
      | ok same =>
        cases same with
        | false =>
          have hne : ¬ s.Equals a b := by
            rw [← ha.equal_true_iff hb, hab]
            simp
          refine ⟨false, by simp only [allEqual, hab], ?_⟩
          constructor
          · intro h
            cases h
          · intro h
            exact absurd (h a (by simp) b (by simp)) hne
        | true =>
          refine ⟨answer, by simp only [allEqual, hab, hall], ?_⟩
          rw [hiff, equals_cons ha.equals_self ((ha.equal_true_iff hb).mp hab)]

theorem perform_equal {vs : List Value} (hvs : ∀ v ∈ vs, s.Fits room v) (env : Nat)
    (effects : Array Effect) :
    ∃ answer, Operation.equal.perform room env vs ⟨s, effects⟩ =
        .ok (.value (.bool answer)) ⟨s, effects⟩ ∧
      (answer = true ↔ ∀ a ∈ vs, ∀ b ∈ vs, s.equal room a b = .ok true) := by
  obtain ⟨answer, hall, hiff⟩ := allEqual_fits hvs
  have htries : Deed.tries (fun s => s.allEqual room vs) ⟨s, effects⟩ = .ok answer ⟨s, effects⟩ := by
    simp only [Deed.tries, hall]
  refine ⟨answer, ?_, ?_⟩
  · simp only [Operation.perform, Operation.value, bind, EStateM.bind, htries]
    rfl
  · rw [hiff]
    exact forall₂_congr fun a ha => forall₂_congr fun b hb =>
      ((hvs a ha).equal_true_iff (hvs b hb)).symm

/-- Equality comes to the answer of its definition, or to none for lack of room. It and identity
are equivalences, and identity is the finer one; so a chain of comparisons that hold leaves no
two of the values unequal. -/
theorem equality_laws (s : Store) (room : Nat) :
    (∀ a b t u, s.Unfolds a t → s.Unfolds b u →
      (t.same u = true ↔ s.Equals a b) ∧
      (s.equal room a b = .ok (t.same u) ∨
        s.equal room a b = .error (.failure .stackExhausted) ∧ room ≤ t.depth ∧ room ≤ u.depth)) ∧
    (∀ a, 0 < room → s.equal room a a = .ok true) ∧
    (∀ a b, s.equal room a b = s.equal room b a) ∧
    (∀ a b c t u, s.Fits room a → s.Unfolds b t → s.Unfolds c u →
      s.equal room a b = .ok true → s.equal room b c = .ok true → s.equal room a c = .ok true) ∧
    Equivalence (fun a b : Value => a.identical b = true) ∧
    (∀ a b, 0 < room → a.identical b = true → s.equal room a b = .ok true) ∧
    (∀ vs, (∀ v ∈ vs, s.Fits room v) → ∀ env effects,
      ∃ answer, Operation.equal.perform room env vs ⟨s, effects⟩ =
          .ok (.value (.bool answer)) ⟨s, effects⟩ ∧
        (answer = true ↔ ∀ a ∈ vs, ∀ b ∈ vs, s.equal room a b = .ok true)) := by
  refine ⟨fun a b t u ha hb => ⟨ha.same_iff hb, ha.equal_cases hb room⟩,
    fun a hroom => s.equal_self hroom a, s.equal_comm room, ?_, ?_,
    fun a b hroom h => equal_of_identical hroom h,
    fun vs hvs env effects => perform_equal hvs env effects⟩
  · rintro a b c t u ⟨v, ha, hroom⟩ hb hc hab hbc
    have hequals : s.Equals a c := (equals_of_equal ha hb hab).trans (equals_of_equal hb hc hbc)
    rw [equal_unfolds ha hc hroom, (ha.same_iff hc).mpr hequals]
  · exact ⟨Value.identical_refl, fun h => (Value.identical_comm _ _).trans h, Value.identical_trans⟩

end Store

/-- The list `(("x") "x")`, once with one pair for both places of `("x")` and once with two. -/
def sharingStore : Store :=
  { cells := #[⟨.str "x", .nil, none⟩, ⟨.pair 0, .pair 0, none⟩, ⟨.str "x", .nil, none⟩,
      ⟨.pair 0, .pair 2, none⟩] }

def sharedTree : Tree :=
  .node (.node (.leaf (.str "x")) (.leaf .nil)) (.node (.leaf (.str "x")) (.leaf .nil))

theorem sharingStore_unfolds (r : Nat) (hr : r = 1 ∨ r = 3) :
    sharingStore.Unfolds (.pair r) sharedTree := by
  have hone : ∀ q, q = 0 ∨ q = 2 →
      sharingStore.Unfolds (.pair q) (.node (.leaf (.str "x")) (.leaf .nil)) := by
    rintro q (rfl | rfl) <;> exact .node (by decide) (.leaf rfl) (.leaf rfl)
  rcases hr with rfl | rfl
  · exact .node (by decide) (hone 0 (.inl rfl)) (hone 0 (.inl rfl))
  · exact .node (by decide) (hone 0 (.inl rfl)) (hone 2 (.inr rfl))

/-- Lists are equal whether they share pairs or not, and a truth value is no number. -/
theorem equality_laws_sharing :
    sharingStore.Unfolds (.pair 1) sharedTree ∧ sharingStore.Unfolds (.pair 3) sharedTree ∧
    sharingStore.Equals (.pair 1) (.pair 3) ∧
    sharingStore.equal 3 (.pair 1) (.pair 3) = .ok true ∧
    ∃ answer, Operation.equal.perform 3 0 [.int 1, .int 1, .bool true] ⟨sharingStore, #[]⟩ =
        .ok (.value (.bool answer)) ⟨sharingStore, #[]⟩ ∧ ¬ answer = true := by
  have hfirst := sharingStore_unfolds 1 (.inl rfl)
  have hsecond := sharingStore_unfolds 3 (.inr rfl)
  obtain ⟨hdecides, -, -, -, -, -, hchain⟩ := sharingStore.equality_laws 3
  obtain ⟨hequals, hanswer⟩ := hdecides _ _ _ _ hfirst hsecond
  have hfits : ∀ v ∈ [Value.int 1, .int 1, .bool true], sharingStore.Fits 3 v := by
    simp only [List.forall_mem_cons]
    exact ⟨Store.fits_atom rfl (by decide), Store.fits_atom rfl (by decide),
      Store.fits_atom rfl (by decide), by simp⟩
  obtain ⟨answer, hperform, hiff⟩ := hchain _ hfits 0 #[]
  refine ⟨hfirst, hsecond, hequals.mp (by decide), ?_, answer, hperform, ?_⟩
  · rcases hanswer with h | ⟨-, hroom, -⟩
    · exact h
    · exact absurd hroom (by decide)
  · rw [hiff]
    intro h
    have hmixed := h (.int 1) (by simp) (.bool true) (by simp)
    exact absurd hmixed (by decide)

end Vau
