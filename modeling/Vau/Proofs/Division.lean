import Mathlib.Data.Int.ModEq
import Mathlib.Data.Rat.Floor
import Mathlib.Tactic.Linarith
import Vau.Operation

/-! Division of integers. The quotient is rounded toward zero and leaves a remainder with the sign of
the dividend; the modulo has the sign of the divisor. It is the remainder, or differs from it by the
divisor if the signs of dividend and divisor are opposite. -/

namespace Vau

/-- Called with the operands the primitive comes to the integer or fails, and changes nothing. -/
def Arithmetic.Returns (a : Arithmetic) (vs : List Value) (r : Except Failure Int) : Prop :=
  ∀ room env, (Operation.arithmetic a).perform room env vs =
    Operation.computed (r.map fun n => .value (.int n))

/-- The laws of a quotient, a remainder and a modulo of `a` by `b`. -/
structure Division (a b quotient remainder modulo : Int) : Prop where
  dividend : a = b * quotient + remainder
  remainder_lt : |remainder| < |b|
  remainder_sign : remainder = 0 ∨ remainder.sign = a.sign
  /-- The quotient is the exact one rounded toward zero. -/
  rounded : quotient = if 0 ≤ (a / b : ℚ) then ⌊(a / b : ℚ)⌋ else ⌈(a / b : ℚ)⌉
  congruent : modulo ≡ a [ZMOD b]
  modulo_lt : |modulo| < |b|
  modulo_sign : modulo = 0 ∨ modulo.sign = b.sign
  zero : modulo = 0 ↔ remainder = 0
  same : modulo ≠ 0 → a.sign = b.sign → modulo = remainder
  opposite : modulo ≠ 0 → a.sign = -b.sign → modulo = remainder + b

namespace Arithmetic

theorem truncated_eq_tdiv (a b : Int) : truncated a b = a.tdiv b := by
  have habs : ((a.natAbs / b.natAbs : Nat) : Int) = (a.tdiv b).natAbs := by
    rw [Int.natAbs_tdiv]
    rfl
  simp only [truncated, habs]
  by_cases hsame : a < 0 ↔ b < 0
  · have hpos : 0 ≤ a.tdiv b := by
      rcases lt_or_ge a 0 with ha | ha
      · exact Int.tdiv_nonneg_of_nonpos_of_nonpos ha.le (hsame.mp ha).le
      · exact Int.tdiv_nonneg ha (not_lt.mp fun hb => ha.not_gt (hsame.mpr hb))
    rw [if_pos hsame, Int.natAbs_of_nonneg hpos]
  · have hneg : a.tdiv b ≤ 0 := by
      rcases lt_or_ge a 0 with ha | ha
      · have hb : 0 ≤ b := not_lt.mp fun hb => hsame (iff_of_true ha hb)
        rw [← Int.neg_nonneg, ← Int.neg_tdiv]
        exact Int.tdiv_nonneg (Int.neg_nonneg_of_nonpos ha.le) hb
      · have hb : b < 0 := not_le.mp fun hb => hsame (iff_of_false ha.not_gt hb.not_gt)
        exact Int.tdiv_nonpos_of_nonneg_of_nonpos ha hb.le
    rw [if_neg hsame, Int.ofNat_natAbs_of_nonpos hneg, neg_neg]

theorem remaining_eq_tmod (a b : Int) : remaining a b = a.tmod b := by
  rw [remaining, truncated_eq_tdiv, Int.tmod_def]

end Arithmetic

section Laws

open Arithmetic

variable {a b q r m : Int}

theorem quotient_nonneg_iff : 0 ≤ (a / b : ℚ) ↔ 0 ≤ a ∧ 0 ≤ b ∨ a ≤ 0 ∧ b ≤ 0 := by
  rw [div_nonneg_iff]
  norm_cast

/-- A remainder less than the divisor, with the sign of the dividend, makes the quotient the exact one
rounded toward zero. -/
theorem rounded_of_remainder (hb : b ≠ 0) (ha : a = b * q + r) (hr : |r| < |b|)
    (hsign : r = 0 ∨ r.sign = a.sign) :
    q = if 0 ≤ (a / b : ℚ) then ⌊(a / b : ℚ)⌋ else ⌈(a / b : ℚ)⌉ := by
  have hb' : (b : ℚ) ≠ 0 := Int.cast_ne_zero.mpr hb
  have hexact : (a / b : ℚ) = q + r / b := by
    rw [ha]
    push_cast
    field_simp
  have hpart : |(r / b : ℚ)| < 1 := by
    rw [abs_div, div_lt_one (abs_pos.mpr hb')]
    exact_mod_cast hr
  obtain ⟨hlower, hupper⟩ := abs_lt.mp hpart
  rcases hsign with rfl | hsign
  · simp [hexact]
  · -- what is lost has the sign of the exact quotient
    have hsame : 0 ≤ (r / b : ℚ) ↔ 0 ≤ (a / b : ℚ) := by
      rw [quotient_nonneg_iff, quotient_nonneg_iff, ← Int.sign_nonneg_iff (x := r),
        ← Int.sign_nonpos_iff (x := r), hsign, Int.sign_nonneg_iff, Int.sign_nonpos_iff]
    by_cases hpos : 0 ≤ (a / b : ℚ)
    · rw [if_pos hpos, eq_comm, Int.floor_eq_iff]
      have hlost := hsame.mpr hpos
      constructor <;> linarith
    · rw [if_neg hpos, eq_comm, Int.ceil_eq_iff]
      have hlost := lt_of_not_ge fun h => hpos (hsame.mp h)
      constructor <;> linarith

theorem abs_tmod_lt (hb : b ≠ 0) (a : Int) : |a.tmod b| < |b| := by
  rw [Int.abs_eq_natAbs, Int.abs_eq_natAbs, Int.natAbs_tmod]
  exact_mod_cast Nat.mod_lt _ (Int.natAbs_pos.mpr hb)

theorem sign_tmod_of_ne (hr : a.tmod b ≠ 0) : (a.tmod b).sign = a.sign := by
  rw [Int.sign_tmod, if_neg fun h => hr (Int.tmod_eq_zero_of_dvd h)]

/-- The modulo is the remainder, moved to the side of zero on which the divisor lies. -/
theorem fmod_eq_of_sign (hb : b ≠ 0) (a : Int) : a.fmod b =
    if a.tmod b = 0 ∨ (a.tmod b).sign = b.sign then a.tmod b else a.tmod b + b := by
  rw [Int.fmod_eq_tmod]
  by_cases hr : a.tmod b = 0
  · simp [hr, Int.dvd_of_tmod_eq_zero hr]
  · have hdvd : ¬ b ∣ a := fun h => hr (Int.tmod_eq_zero_of_dvd h)
    have ha : a ≠ 0 := fun h => hdvd (h ▸ dvd_zero b)
    rw [sign_tmod_of_ne hr, if_neg hdvd]
    rcases lt_or_gt_of_ne ha with ha | ha <;> rcases lt_or_gt_of_ne hb with hb | hb
    · simp [hr, Int.sign_eq_neg_one_of_neg, ha, hb, hb.le, not_le.mpr ha, not_le.mpr hb]
    · simp [hr, Int.sign_eq_neg_one_of_neg, Int.sign_eq_one_of_pos, ha, hb, hb.le, not_le.mpr ha]
    · simp [hr, Int.sign_eq_neg_one_of_neg, Int.sign_eq_one_of_pos, ha, hb, ha.le, not_le.mpr hb]
    · simp [Int.sign_eq_one_of_pos, ha, hb, ha.le, hb.le]

/-- The divisor moves what is less than it to its own side of zero. -/
theorem moved_by_divisor (hr : |r| < |b|) (hzero : r ≠ 0) (hsign : r.sign ≠ b.sign) :
    |r + b| < |b| ∧ (r + b).sign = b.sign := by
  have hb : b ≠ 0 := abs_pos.mp (lt_of_le_of_lt (abs_nonneg r) hr)
  rcases lt_or_gt_of_ne hb with hb | hb
  · rw [Int.sign_eq_neg_one_of_neg hb] at hsign ⊢
    have hpos : 0 < r := lt_of_le_of_ne
      (not_lt.mp fun h => hsign (Int.sign_eq_neg_one_of_neg h)) hzero.symm
    rw [abs_of_pos hpos, abs_of_neg hb] at hr
    have hsum : r + b < 0 := by omega
    rw [abs_of_neg hsum, abs_of_neg hb]
    exact ⟨by omega, Int.sign_eq_neg_one_of_neg hsum⟩
  · rw [Int.sign_eq_one_of_pos hb] at hsign ⊢
    have hneg : r < 0 := lt_of_le_of_ne
      (not_lt.mp fun h => hsign (Int.sign_eq_one_of_pos h)) hzero
    rw [abs_of_neg hneg, abs_of_pos hb] at hr
    have hsum : 0 < r + b := by omega
    rw [abs_of_pos hsum, abs_of_pos hb]
    exact ⟨by omega, Int.sign_eq_one_of_pos hsum⟩

theorem fmod_congruent (a b : Int) : a.fmod b ≡ a [ZMOD b] :=
  Int.modEq_iff_dvd.mpr ⟨a.fdiv b, by have := Int.mul_fdiv_add_fmod a b; omega⟩

theorem division (hb : b ≠ 0) (a : Int) :
    Division a b (truncated a b) (remaining a b) (a.fmod b) := by
  rw [truncated_eq_tdiv, remaining_eq_tmod]
  have hdividend : a = b * a.tdiv b + a.tmod b := (Int.mul_tdiv_add_tmod a b).symm
  have hless := abs_tmod_lt hb a
  have hsign : a.tmod b = 0 ∨ (a.tmod b).sign = a.sign := or_iff_not_imp_left.mpr sign_tmod_of_ne
  have hrounded := rounded_of_remainder hb hdividend hless hsign
  have hcongruent := fmod_congruent a b
  have hdivisor : b.sign ≠ 0 := fun h => hb (Int.sign_eq_zero_iff_zero.mp h)
  have hfmod := fmod_eq_of_sign hb a
  by_cases hside : a.tmod b = 0 ∨ (a.tmod b).sign = b.sign
  · rw [if_pos hside] at hfmod
    refine ⟨hdividend, hless, hsign, hrounded, hcongruent, ?_, ?_, ?_, fun _ _ => hfmod, ?_⟩
    · rwa [hfmod]
    · rwa [hfmod]
    · rw [hfmod]
    · intro hzero hopposite
      rw [hfmod] at hzero
      have hsame := (hsign.resolve_left hzero).symm.trans (hside.resolve_left hzero)
      omega
  · rw [if_neg hside] at hfmod
    obtain ⟨hzero, hother⟩ := not_or.mp hside
    obtain ⟨hless', hsign'⟩ := moved_by_divisor hless hzero hother
    rw [← hfmod] at hless' hsign'
    refine ⟨hdividend, hless, hsign, hrounded, hcongruent, hless', .inr hsign', ?_, ?_,
      fun _ _ => hfmod⟩
    · refine iff_of_false (fun h => hdivisor ?_) hzero
      rw [← hsign', h, Int.sign_zero]
    · exact fun _ hsame => absurd ((hsign.resolve_left hzero).trans hsame) hother

end Laws

namespace Arithmetic

/-- The primitives that divide. -/
def divisions : List Arithmetic := [.quotient, .remainder, .modulo]

theorem returns_iff {p : Arithmetic} {vs : List Value} {r : Except Failure Int} :
    p.Returns vs r ↔ p.apply vs = r := by
  have hperform (room env : Nat) : (Operation.arithmetic p).perform room env vs =
      Operation.computed ((p.apply vs).map fun n => .value (.int n)) := by
    simp only [Operation.perform, Operation.value]
    cases p.apply vs <;> rfl
  refine ⟨fun h => ?_, fun h room env => h ▸ hperform room env⟩
  have hsame := congrFun ((hperform 0 0).symm.trans (h 0 0)) {}
  cases hp : p.apply vs <;> cases r <;> rw [hp] at hsame <;> cases hsame <;> rfl

variable {a b : Int} {p : Arithmetic} {u v : Value}

theorem apply_by_zero (hp : p ∈ divisions) :
    p.apply [.int a, .int 0] = .error (.divisionByZero p.name a) := by
  simp only [divisions, List.mem_cons, List.not_mem_nil, or_false] at hp
  rcases hp with rfl | rfl | rfl <;> rfl

theorem apply_of_ne (hp : p ∈ divisions) (hb : b ≠ 0) :
    ∃ n, p.apply [.int a, .int b] = .ok n := by
  simp only [divisions, List.mem_cons, List.not_mem_nil, or_false] at hp
  rcases hp with rfl | rfl | rfl <;> exact ⟨_, if_neg hb⟩

theorem integerOperand_of_test (operator : String) (hv : Test.integer.holds v = false) :
    integerOperand operator v = .error (.typeMismatch ("integer operand for " ++ operator) v) := by
  cases v with
  | int n => cases hv
  | _ => rfl

theorem apply_first (hv : Test.integer.holds v = false) : p.apply [v, u] =
    .error (.typeMismatch ("integer operand for " ++ p.name) v) := by
  simp only [apply, integerOperands, List.mapM_cons, integerOperand_of_test _ hv]
  rfl

theorem apply_second (hv : Test.integer.holds v = false) : p.apply [.int a, v] =
    .error (.typeMismatch ("integer operand for " ++ p.name) v) := by
  simp only [apply, integerOperands, List.mapM_cons, integerOperand_of_test _ hv]
  rfl

end Arithmetic

open Arithmetic

/-- Division by zero fails, and so does, before that is looked at, the division of or by what is no
integer; any other division comes to integers for which the laws hold. -/
theorem division_laws (a b : Int) :
    (∀ p ∈ divisions, p.Returns [.int a, .int b] (.error (.divisionByZero p.name a)) ↔ b = 0) ∧
    (b ≠ 0 → ∃ q r m, quotient.Returns [.int a, .int b] (.ok q) ∧
      remainder.Returns [.int a, .int b] (.ok r) ∧ modulo.Returns [.int a, .int b] (.ok m) ∧
      Division a b q r m) ∧
    ∀ p ∈ divisions, ∀ v, Test.integer.holds v = false →
      (∀ u, p.Returns [v, u] (.error (.typeMismatch ("integer operand for " ++ p.name) v))) ∧
      p.Returns [.int a, v] (.error (.typeMismatch ("integer operand for " ++ p.name) v)) := by
  refine ⟨fun p hp => ⟨fun h => ?_, ?_⟩, fun hb => ?_, fun p _ v hv => ⟨fun u => ?_, ?_⟩⟩
  · by_contra hb
    obtain ⟨n, hn⟩ := apply_of_ne (a := a) hp hb
    cases hn.symm.trans (returns_iff.mp h)
  · rintro rfl
    exact returns_iff.mpr (apply_by_zero hp)
  · exact ⟨_, _, _, returns_iff.mpr (if_neg hb), returns_iff.mpr (if_neg hb),
      returns_iff.mpr (if_neg hb), division hb a⟩
  · exact returns_iff.mpr (apply_first hv)
  · exact returns_iff.mpr (apply_second hv)

/-- Of `-7` by `2` the remainder is negative and the modulo is not. -/
theorem division_laws_opposite : (2 : Int) ≠ 0 ∧ ∃ q r m,
    quotient.Returns [.int (-7), .int 2] (.ok q) ∧ remainder.Returns [.int (-7), .int 2] (.ok r) ∧
    modulo.Returns [.int (-7), .int 2] (.ok m) ∧ q = -3 ∧ r = -1 ∧ m = r + 2 := by
  obtain ⟨-, hlaws, -⟩ := division_laws (-7) 2
  obtain ⟨q, r, m, hq, hr, hm, hdivision⟩ := hlaws (by decide)
  have hquotient : q = -3 := Except.ok.inj (returns_iff.mp hq).symm
  have hmodulo : m = 1 := Except.ok.inj (returns_iff.mp hm).symm
  refine ⟨by decide, q, r, m, hq, hr, hm, hquotient, ?_, hdivision.opposite (by omega) (by decide)⟩
  have hdividend := hdivision.dividend
  omega

end Vau
