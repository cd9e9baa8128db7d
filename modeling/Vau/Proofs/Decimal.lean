import Vau.Text.Decimal

/-! Decimal text is read back as the integer it was written for. -/

namespace Vau

def isNumeral : List Char → Bool
  | '+' :: ds => !ds.isEmpty && ds.all Char.isDigit
  | '-' :: ds => !ds.isEmpty && ds.all Char.isDigit
  | ds => !ds.isEmpty && ds.all Char.isDigit

theorem all_isDigit_toDigits (n : Nat) : (Nat.toDigits 10 n).all Char.isDigit = true :=
  List.all_eq_true.mpr fun _ hc => Nat.isDigit_of_mem_toDigits (by decide) (by decide) hc

theorem digitLimit_pos : 0 < digitLimit := by
  rw [digitLimit]
  decide

theorem length_toDigits_le {n : Nat} (h : n < digitBound) :
    (Nat.toDigits 10 n).length ≤ digitLimit :=
  (Nat.length_toDigits_le_iff (by decide) digitLimit_pos).mpr h

theorem readDigits?_toDigits {n : Nat} (h : n < digitBound) :
    readDigits? (Nat.toDigits 10 n) = some n := by
  have hvalue : digitsValue (Nat.toDigits 10 n) = n := Nat.ofDigitChars_ten_toDigits
  rw [readDigits?, if_pos ⟨Nat.toDigits_ne_nil, all_isDigit_toDigits n, length_toDigits_le h⟩,
    hvalue]

theorem toDigits_cons (n : Nat) :
    ∃ c ds, Nat.toDigits 10 n = c :: ds ∧ c ≠ '+' ∧ c ≠ '-' := by
  obtain ⟨c, ds, h⟩ := List.exists_cons_of_ne_nil (Nat.toDigits_ne_nil (n := n) (b := 10))
  have hc : c.isDigit = true :=
    Nat.isDigit_of_mem_toDigits (by decide) (by decide) (h ▸ List.mem_cons_self)
  refine ⟨c, ds, h, ?_, ?_⟩ <;> rintro rfl <;> simp at hc

theorem readDecimal?_unsigned {c : Char} (ds : List Char) (hp : c ≠ '+') (hm : c ≠ '-') :
    readDecimal? (c :: ds) = (readDigits? (c :: ds)).map fun n => (n : Int) := by
  unfold readDecimal?
  split
  · rename_i h
    exact absurd (List.cons.inj h).1 hm
  · rename_i h
    exact absurd (List.cons.inj h).1 hp
  · rfl

theorem isNumeral_unsigned {c : Char} (ds : List Char) (hp : c ≠ '+') (hm : c ≠ '-') :
    isNumeral (c :: ds) = (c :: ds).all Char.isDigit := by
  unfold isNumeral
  split
  · rename_i h
    exact absurd (List.cons.inj h).1 hp
  · rename_i h
    exact absurd (List.cons.inj h).1 hm
  · rfl

theorem isNumeral_decimalText (n : Int) : isNumeral (decimalText n) = true := by
  cases n with
  | ofNat n =>
    obtain ⟨c, ds, h, hp, hm⟩ := toDigits_cons n
    rw [decimalText, h, isNumeral_unsigned ds hp hm, ← h]
    exact all_isDigit_toDigits n
  | negSucc n => simp [decimalText, isNumeral, all_isDigit_toDigits]

theorem writeDecimal?_of_lt {n : Int} (h : n.natAbs < digitBound) :
    writeDecimal? n = some (decimalText n) :=
  if_pos h

/-- Reading gives back every integer that can be written. -/
theorem readDecimal?_decimalText {n : Int} (h : n.natAbs < digitBound) :
    readDecimal? (decimalText n) = some n := by
  cases n with
  | ofNat n =>
    have hread : readDigits? (Nat.toDigits 10 n) = some n := readDigits?_toDigits h
    obtain ⟨c, ds, hd, hp, hm⟩ := toDigits_cons n
    rw [decimalText, hd, readDecimal?_unsigned ds hp hm, ← hd, hread]
    rfl
  | negSucc n =>
    have hread : readDigits? (Nat.toDigits 10 (n + 1)) = some (n + 1) := readDigits?_toDigits h
    rw [decimalText, readDecimal?, hread]
    rfl

end Vau
