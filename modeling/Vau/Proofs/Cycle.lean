import Mathlib.Data.Fintype.EquivFin
import Vau.Printer
import Vau.Proofs.Comparison
import Vau.Proofs.Extent
import Vau.Proofs.Room
import Vau.Proofs.Written

/-! Cyclic pairs. In a sound store without them every value unfolds, so every walk along heads
and tails comes to an end. A walk that goes on for ever shows that there are some. -/

namespace Vau

namespace Store

variable {s : Store} {x : Extent}

def Points (s : Store) (r r' : Nat) : Prop := s.head r = .pair r' ∨ s.tail r = .pair r'

/-- Heads and tails lead from some pair back to it. -/
def Cyclic (s : Store) : Prop := ∃ r, Relation.TransGen s.Points r r

theorem Sound.points_lt (h : s.Sound x) {r r' : Nat} (hp : s.Points r r') : r' < s.cells.size := by
  rw [h.cells_size]
  rcases hp with hp | hp
  · have hin := h.head r
    rwa [hp] at hin
  · have hin := h.tail r
    rwa [hp] at hin

theorem wellFounded_points (hc : ¬ s.Cyclic) :
    WellFounded fun a b : Fin s.cells.size => s.Points b a := by
  let down : Fin s.cells.size → Fin s.cells.size → Prop :=
    Relation.TransGen fun a b => s.Points b a
  have htrans : IsTrans _ down := ⟨fun _ _ _ => Relation.TransGen.trans⟩
  have hirrefl : Std.Irrefl down := by
    refine ⟨fun a ha => hc ⟨a, ?_⟩⟩
    have hup : Relation.TransGen (fun a b : Fin s.cells.size => s.Points a b) a a :=
      Relation.transGen_swap.mp ha
    exact hup.lift Fin.val fun _ _ hab => hab
  have hwf : WellFounded down := Finite.wellFounded_of_trans_of_irrefl down
  exact Subrelation.wf (fun hab => .single hab) hwf

theorem Sound.unfolds (h : s.Sound x) (hc : ¬ s.Cyclic) {v : Value} (hv : v.In x) :
    ∃ t, s.Unfolds v t := by
  have hpairs : ∀ a : Fin s.cells.size, ∃ t, s.Unfolds (.pair a) t := by
    intro a
    induction a using (wellFounded_points hc).induction with
    | _ a ih =>
      have hpart : ∀ w : Value, (∀ r, w = .pair r → s.Points a r) → ∃ t, s.Unfolds w t := by
        intro w hw
        cases w with
        | pair r =>
          have hr := hw r rfl
          exact ih ⟨r, h.points_lt hr⟩ hr
        | _ => exact ⟨_, .leaf rfl⟩
      obtain ⟨t, ht⟩ := hpart (s.head a) fun _ hr => .inl hr
      obtain ⟨u, hu⟩ := hpart (s.tail a) fun _ hr => .inr hr
      exact ⟨.node t u, .node a.isLt ht hu⟩
  cases v with
  | pair r => exact hpairs ⟨r, by rw [h.cells_size]; exact hv⟩
  | _ => exact ⟨_, .leaf rfl⟩

end Store

/-- A stop that a walk over the store accounts for: it goes on for ever only along a cycle. -/
def Stop.Due (s : Store) : Stop → Prop
  | .outOfFuel => False
  | .endless => s.Cyclic
  | _ => True

namespace Store

variable {s : Store} {x : Extent}

theorem walk_unfolds {v : Value} {t : Tree} (hv : s.Unfolds v t) {fuel : Nat}
    (hfuel : t.chain ≤ fuel) (heads : List Value) :
    ∃ vs, s.walk fuel heads v = some (heads.reverse ++ vs, t.last) ∧
      List.Forall₂ s.Unfolds vs t.heads := by
  induction hv generalizing fuel heads with
  | @leaf v hv =>
    refine ⟨[], ?_, .nil⟩
    cases v with
    | pair _ => simp [Value.isPair] at hv
    | _ => cases fuel <;> simp [walk, Tree.last]
  | @node r h t hr hh ht _ ih =>
    simp only [Tree.chain] at hfuel
    obtain ⟨fuel, rfl⟩ : ∃ k, fuel = k + 1 := ⟨fuel - 1, by omega⟩
    obtain ⟨vs, hwalk, hvs⟩ := ih (by omega : t.chain ≤ fuel) (s.head r :: heads)
    refine ⟨s.head r :: vs, ?_, .cons hh hvs⟩
    simpa [walk, Tree.last] using hwalk

theorem spine_unfolds {v : Value} {t : Tree} (hv : s.Unfolds v t) :
    ∃ vs, s.spine? v = some (vs, t.last) ∧ List.Forall₂ s.Unfolds vs t.heads :=
  walk_unfolds hv hv.chain_le []

theorem Sound.cyclic_of_spine (h : s.Sound x) {v : Value} (hv : v.In x)
    (hn : s.spine? v = none) : s.Cyclic := by
  by_contra hc
  obtain ⟨t, ht⟩ := h.unfolds hc hv
  obtain ⟨vs, hvs, -⟩ := spine_unfolds ht
  rw [hn] at hvs
  cases hvs

theorem equal_error {room : Nat} {a b : Value} {e : Stop} (h : s.equal room a b = .error e) :
    e = .failure .stackExhausted ∨ e = .endless := by
  induction room generalizing a b with
  | zero =>
    cases h
    exact .inl rfl
  | succ room ih =>
    have hspine : ∀ fuel a b, s.equalSpine (s.equal room) fuel a b = .error e →
        e = .failure .stackExhausted ∨ e = .endless := by
      intro fuel a b h
      fun_induction s.equalSpine (s.equal room) fuel a b with
      | case1 | case4 | case6 => cases h
      | case2 =>
        cases h
        exact .inr rfl
      | case3 a b _ fuel e' he =>
        cases h
        exact ih he
      | case5 a b _ fuel _ ihf => exact ihf h
    exact hspine _ a b h

theorem equal_ne_endless {room : Nat} {a b : Value} {t u : Tree} (ha : s.Unfolds a t)
    (hb : s.Unfolds b u) : s.equal room a b ≠ .error .endless := by
  intro h
  -- with ample room the comparison has an answer, and more room only takes limits away
  have hample := equal_unfolds ha hb (by omega : t.depth < max room (t.depth + 1))
  rcases s.equal_settles (Nat.le_max_left room (t.depth + 1)) a b with hs | ⟨e, he, hs⟩
  · rw [hs, h] at hample
    cases hample
  · rw [h] at hs
    cases hs
    cases he

theorem Sound.equal_due (h : s.Sound x) {room : Nat} {a b : Value} {e : Stop} (ha : a.In x)
    (hb : b.In x) (he : s.equal room a b = .error e) : e.Due s := by
  rcases equal_error he with rfl | rfl
  · trivial
  · by_contra hc
    obtain ⟨t, ht⟩ := h.unfolds hc ha
    obtain ⟨u, hu⟩ := h.unfolds hc hb
    exact equal_ne_endless ht hu he

theorem Sound.allEqual_due (h : s.Sound x) {room : Nat} {vs : List Value} {e : Stop}
    (hvs : ∀ v ∈ vs, v.In x) (he : s.allEqual room vs = .error e) : e.Due s := by
  fun_induction s.allEqual room vs with
  | case1 a b rest e' he' =>
    cases he
    exact h.equal_due (hvs a (by simp)) (hvs b (by simp)) he'
  | case2 => cases he
  | case3 a b rest _ ih => exact ih (fun v hv => hvs v (List.mem_cons_of_mem _ hv)) he
  | case4 => cases he

end Store

namespace Printer

variable {s : Store} {st : Style}

theorem atom_error {v : Value} {e : Stop} (h : atom st s v = .error e) : e = .digits := by
  unfold atom at h
  split at h <;> first | cases h | skip
  split at h
  · cases h
  · cases h
    rfl

theorem parts_due {x : Extent} (h : s.Sound x) {f : Value → Except Stop (List Char)}
    (hf : ∀ v e, v.In x → f v = .error e → e.Due s) {fuel used : Nat} {done : List (List Char)}
    {v : Value} {e : Stop} (hv : v.In x)
    (hfuel : ¬ s.Cyclic → ∀ t, s.Unfolds v t → t.chain ≤ fuel)
    (he : parts st s f fuel used done v = .error e) : e.Due s := by
  fun_induction parts st s f fuel used done v with
  | case1 used done r =>
    cases he
    by_contra hc
    obtain ⟨t, ht⟩ := h.unfolds hc hv
    have hchain := hfuel hc t ht
    cases ht with
    | leaf hp => simp [Value.isPair] at hp
    | node _ _ _ => simp [Tree.chain] at hchain
  | case2 used done r fuel e' he' =>
    cases he
    exact hf _ _ (h.head r) he'
  | case3 | case5 | case7 => cases he
  | case4 used done r fuel text _ _ _ ih =>
    refine ih (h.tail r) (fun hc t ht => ?_) he
    obtain ⟨u, hu⟩ := h.unfolds hc (h.head r)
    have hr : r < s.cells.size := by rw [h.cells_size]; exact hv
    have hchain := hfuel hc _ (.node hr hu ht)
    simp only [Tree.chain] at hchain
    omega
  | case6 used done fuel v _ _ e' he' =>
    cases he
    exact hf _ _ hv he'

theorem write_due {x : Extent} (h : s.Sound x) (hst : st.width = none) {room depth : Nat}
    {v : Value} {e : Stop} (hv : v.In x) (he : write st s room depth v = .error e) : e.Due s := by
  have hatom : ∀ room depth (v : Value) e, v.isPair = false →
      write st s room depth v = .error e → e.Due s := by
    intro room depth v e hp he
    rw [write_leaf st s room depth hp] at he
    rw [atom_error he]
    trivial
  induction room generalizing depth v e with
  | zero =>
    cases v with
    | pair r =>
      simp only [write, Style.omits, hst] at he
      cases he
      trivial
    | _ => exact hatom _ _ _ _ rfl he
  | succ room ih =>
    cases v with
    | pair r =>
      have hbudget : st.budget s = s.cells.size := by simp only [Style.budget, hst]
      have hfuel : ¬ s.Cyclic → ∀ t, s.Unfolds (.pair r) t → t.chain ≤ st.budget s :=
        fun _ t ht => hbudget ▸ ht.chain_le
      cases hparts : parts st s (write st s room (depth + 1)) (st.budget s) 0 [] (.pair r) with
      | error e' =>
        simp only [write, Style.omits, hst, hparts] at he
        cases he
        exact parts_due h (fun v e' hv hw => ih hv hw) hv hfuel hparts
      | ok texts =>
        simp only [write, Style.omits, hst, hparts] at he
        cases he
    | _ => exact hatom _ _ _ _ rfl he

end Printer

theorem Except.error_of_map {ε α β : Type} {r : Except ε α} {f : α → β} {e : ε}
    (h : r.map f = .error e) : r = .error e := by
  cases r with
  | error e' =>
    cases h
    rfl
  | ok a => cases h

theorem List.exists_of_mapM_error {ε α β : Type} {f : α → Except ε β} {l : List α} {e : ε}
    (h : l.mapM f = .error e) : ∃ a ∈ l, f a = .error e := by
  induction l with
  | nil => cases h
  | cons a l ih =>
    rw [List.mapM_cons] at h
    cases ha : f a with
    | error e' =>
      rw [ha] at h
      cases h
      exact ⟨a, List.mem_cons_self, ha⟩
    | ok b =>
      cases hl : l.mapM f with
      | error e' =>
        rw [ha, hl] at h
        cases h
        obtain ⟨a', ha', he⟩ := ih hl
        exact ⟨a', List.mem_cons_of_mem _ ha', he⟩
      | ok bs =>
        rw [ha, hl] at h
        cases h

theorem Store.Sound.format_due {s : Store} {x : Extent} (h : s.Sound x) {room : Nat}
    {vs : List Value} {e : Stop} (hvs : ∀ v ∈ vs, v.In x)
    (he : vs.mapM (s.format room .shown) = .error e) : e.Due s := by
  obtain ⟨v, hv, hformat⟩ := List.exists_of_mapM_error he
  exact Printer.write_due h rfl (hvs v hv) (Except.error_of_map hformat)

end Vau
