import Mathlib.Data.List.Nodup
import Mathlib.Data.Nat.Init
import Vau.Environment

/-! Searching environments. A search for a name goes through no frame twice before it ends, so more
fuel than there are frames finds nothing more, whatever the frames are. -/

namespace Vau

namespace Store

variable {s : Store} {name : String} {fuel fuel' e o : Nat}

theorem frame_of_le (h : s.frames.size ≤ e) : s.frame e = {} := by
  simp [frame, h]

theorem ownerWithin_succ (h : s.ownerWithin name fuel e = some o) :
    s.ownerWithin name (fuel + 1) e = some o := by
  induction fuel generalizing e with
  | zero => cases h
  | succ fuel ih =>
    rw [ownerWithin] at h ⊢
    split
    case isTrue hbinds => rwa [if_pos hbinds] at h
    case isFalse hbinds =>
      rw [if_neg hbinds] at h
      cases hparent : (s.frame e).parent with
      | none =>
        rw [hparent] at h
        cases h
      | some p =>
        rw [hparent] at h
        exact ih h

/-- Frames that a search goes through, if it finds what it searches for with the last of its fuel. -/
theorem exists_searched (h : s.ownerWithin name (fuel + 1) e = some o)
    (hless : s.ownerWithin name fuel e = none) :
    ∃ es : List Nat, es.length = fuel + 1 ∧ es.Nodup ∧
      ∀ d ∈ es, d < s.frames.size ∧ ∃ o, s.ownerWithin name (fuel + 1) d = some o := by
  have hlt : e < s.frames.size := by
    by_contra hge
    rw [ownerWithin, frame_of_le (Nat.le_of_not_lt hge)] at h
    cases h
  induction fuel generalizing e with
  | zero =>
    exact ⟨[e], rfl, List.nodup_singleton e, List.forall_mem_singleton.mpr ⟨hlt, o, h⟩⟩
  | succ fuel ih =>
    have hbinds : (s.frame e).binds name = false := by
      by_contra hbinds
      rw [ownerWithin, if_pos (Bool.of_not_eq_false hbinds)] at hless
      cases hless
    cases hparent : (s.frame e).parent with
    | none =>
      rw [ownerWithin, hbinds, hparent] at h
      cases h
    | some p =>
      have hp : s.ownerWithin name (fuel + 1) p = some o := by
        rwa [ownerWithin, hbinds, hparent] at h
      have hpless : s.ownerWithin name fuel p = none := by
        rwa [ownerWithin, hbinds, hparent] at hless
      have hplt : p < s.frames.size := by
        by_contra hge
        rw [ownerWithin, frame_of_le (Nat.le_of_not_lt hge)] at hp
        cases hp
      obtain ⟨es, hlength, hnodup, hes⟩ := ih hp hpless hplt
      refine ⟨e :: es, congrArg (· + 1) hlength, List.nodup_cons.mpr ⟨fun hmem => ?_, hnodup⟩, ?_⟩
      · obtain ⟨-, o, ho⟩ := hes e hmem
        rw [ho] at hless
        cases hless
      · refine List.forall_mem_cons.mpr ⟨⟨hlt, o, h⟩, fun d hd => ?_⟩
        obtain ⟨hd, o, ho⟩ := hes d hd
        exact ⟨hd, o, ownerWithin_succ ho⟩

theorem ownerWithin_eq (s : Store) (name : String) (e : Nat) (hfuel : s.frames.size ≤ fuel) :
    s.ownerWithin name fuel e = s.owner? e name := by
  induction fuel, hfuel using Nat.le_induction with
  | base => rfl
  | succ fuel hfuel ih =>
    rw [← ih]
    cases hless : s.ownerWithin name fuel e with
    | some o => exact ownerWithin_succ hless
    | none =>
      cases h : s.ownerWithin name (fuel + 1) e with
      | none => rfl
      | some o =>
        obtain ⟨es, hlength, hnodup, hes⟩ := exists_searched h hless
        have hsub : es ⊆ List.range s.frames.size := fun d hd => List.mem_range.mpr (hes d hd).1
        have hle := hnodup.length_le_of_subset hsub
        rw [hlength, List.length_range] at hle
        omega

theorem lookupWithin_owner (s : Store) (name : String) (fuel e : Nat) :
    s.lookupWithin name fuel e =
      (s.ownerWithin name fuel e).bind fun o => (s.frame o).get? name := by
  induction fuel generalizing e with
  | zero => rfl
  | succ fuel ih =>
    rw [lookupWithin, ownerWithin, Frame.binds]
    cases hget : (s.frame e).get? name with
    | some v => simp [hget]
    | none =>
      cases (s.frame e).parent with
      | none => rfl
      | some p => exact ih p

theorem lookupWithin_eq (s : Store) (name : String) (e : Nat) (hfuel : s.frames.size ≤ fuel) :
    s.lookupWithin name fuel e = s.lookup? e name := by
  rw [lookup?, lookupWithin_owner, lookupWithin_owner, s.ownerWithin_eq name e hfuel]
  rfl

end Store

end Vau
