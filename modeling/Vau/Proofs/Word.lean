import Vau.Proofs.Decimal
import Vau.Reader.Grammar

/-! Words. Whatever stands between two delimiters is one atom or none, and which kind of
atom it is depends on the word alone. -/

namespace Vau

namespace Grammar

structure IsWord (x : List Char) : Prop where
  ne_nil : x ≠ []
  plain : ∀ c ∈ x, isDelimiter c = false

theorem plain_of_all {x : List Char} (h : x.all (fun c => !isDelimiter c) = true) :
    ∀ c ∈ x, isDelimiter c = false := by
  simpa using h

theorem isDelimiter_of_isDigit {c : Char} (h : c.isDigit = true) : isDelimiter c = false := by
  have hrange : 48 ≤ c.toNat ∧ c.toNat ≤ 57 := by
    simpa [Char.isDigit, UInt32.le_iff_toNat_le] using h
  have hblank : isBlank c = false := by
    simp [isBlank, blankRanges]
    omega
  have hne : c ≠ '(' ∧ c ≠ ')' ∧ c ≠ '"' ∧ c ≠ ';' := by
    refine ⟨?_, ?_, ?_, ?_⟩ <;> rintro rfl <;> simp at hrange
  simp [isDelimiter, hblank, hne]

theorem dropWhile_append_of_not_all {p : Char → Bool} {x : List Char} (hx : ¬ x.all p = true)
    (rest : List Char) : ∃ c ∈ x, ∃ cs, (x ++ rest).dropWhile p = c :: cs := by
  induction x with
  | nil => simp at hx
  | cons a xs ih =>
    cases ha : p a with
    | false => exact ⟨a, List.mem_cons_self, xs ++ rest, by simp [ha]⟩
    | true =>
      obtain ⟨c, hc, cs, hcs⟩ := ih (by simpa [ha] using hx)
      exact ⟨c, List.mem_cons_of_mem _ hc, cs, by simpa [ha] using hcs⟩

theorem isWord_of_isNumeral {x : List Char} (h : isNumeral x = true) : IsWord x := by
  have hdigits : ∀ {ds : List Char}, ds.all Char.isDigit = true →
      ∀ c ∈ ds, isDelimiter c = false :=
    fun hds c hc => isDelimiter_of_isDigit (List.all_eq_true.mp hds c hc)
  unfold isNumeral at h
  split at h
  · have hds := (Bool.and_eq_true_iff.mp h).2
    exact ⟨List.cons_ne_nil _ _, List.forall_mem_cons.mpr ⟨by decide, hdigits hds⟩⟩
  · have hds := (Bool.and_eq_true_iff.mp h).2
    exact ⟨List.cons_ne_nil _ _, List.forall_mem_cons.mpr ⟨by decide, hdigits hds⟩⟩
  · obtain ⟨hne, hds⟩ := Bool.and_eq_true_iff.mp h
    exact ⟨by rintro rfl; simp at hne, hdigits hds⟩

section Boundary

variable {rest : List Char} (hrest : atBoundary rest = true)
include hrest

theorem takeWhile_boundary {p : Char → Bool} (hp : ∀ c, p c = true → isDelimiter c = false) :
    rest.takeWhile p = [] ∧ rest.dropWhile p = rest := by
  cases rest with
  | nil => simp
  | cons c cs =>
    have hc : p c = false := by
      cases h : p c with
      | false => rfl
      | true => exact absurd hrest (by simp [atBoundary, hp c h])
    simp [hc]

/-- Only the whole of a word stands alone before a boundary. -/
theorem following?_word {w x : List Char} (hw : ∀ c ∈ w, isDelimiter c = false)
    (hx : ∀ c ∈ x, isDelimiter c = false) :
    (following? w (x ++ rest)).filter atBoundary = if w = x then some rest else none := by
  induction w generalizing x with
  | nil =>
    cases x with
    | nil => simp [following?, hrest]
    | cons b xs => simp [following?, atBoundary, hx b]
  | cons a ws ih =>
    cases x with
    | nil =>
      cases rest with
      | nil => simp [following?]
      | cons d ds =>
        have had : a ≠ d := by
          rintro rfl
          exact absurd hrest (by simp [atBoundary, hw a])
        simp [following?, had]
    | cons b xs =>
      by_cases hab : a = b
      · subst hab
        simp only [following?, List.cons_append, if_true, List.cons.injEq, true_and]
        exact ih (fun c hc => hw c (List.mem_cons_of_mem _ hc))
          (fun c hc => hx c (List.mem_cons_of_mem _ hc))
      · simp [following?, hab]

theorem words_word {ws : List String} (hws : ∀ w ∈ ws, ∀ c ∈ w.toList, isDelimiter c = false)
    {x : List Char} (hx : ∀ c ∈ x, isDelimiter c = false) :
    words ws (x ++ rest) = if x ∈ ws.map String.toList then some (x, rest) else none := by
  induction ws with
  | nil => rfl
  | cons w ws ih =>
    have hw := following?_word hrest (hws w List.mem_cons_self) hx
    have htail := ih fun w' hw' => hws w' (List.mem_cons_of_mem _ hw')
    simp only [words, List.findSome?_cons] at htail ⊢
    by_cases hwx : w.toList = x
    · subst hwx
      rw [if_pos rfl] at hw
      obtain ⟨hf, hb⟩ := Option.filter_eq_some_iff.mp hw
      simp [hf, hb]
    · rw [if_neg hwx] at hw
      cases hf : following? w.toList (x ++ rest) with
      | none => simpa [hf, Ne.symm hwx] using htail
      | some r =>
        have hb : atBoundary r = false := by simpa [hf] using hw
        simpa [hf, hb, Ne.symm hwx] using htail

theorem digits_word (sign : List Char) {x : List Char} (hx : ∀ c ∈ x, isDelimiter c = false) :
    digits sign (x ++ rest) =
      if !x.isEmpty && x.all Char.isDigit then some (sign ++ x, rest) else none := by
  by_cases hall : x.all Char.isDigit = true
  · have hd : ∀ c ∈ x, c.isDigit = true := List.all_eq_true.mp hall
    obtain ⟨ht, hr⟩ := takeWhile_boundary hrest fun c => isDelimiter_of_isDigit (c := c)
    simp [digits, List.takeWhile_append_of_pos hd, List.dropWhile_append_of_pos hd, ht, hr, hrest,
      hall]
  · obtain ⟨c, hc, cs, hcs⟩ := dropWhile_append_of_not_all hall rest
    have hb : atBoundary (c :: cs) = false := hx c hc
    simp [digits, hcs, hb, hall]

theorem integer_word {x : List Char} (hx : ∀ c ∈ x, isDelimiter c = false) :
    integer (x ++ rest) = if isNumeral x then some (x, rest) else none := by
  match x with
  | [] =>
    have hnone := digits_word hrest [] hx
    cases rest with
    | nil => rfl
    | cons c cs =>
      have hp : c ≠ '+' := by
        rintro rfl
        exact absurd (show isDelimiter '+' = true from hrest) (by decide)
      have hm : c ≠ '-' := by
        rintro rfl
        exact absurd (show isDelimiter '-' = true from hrest) (by decide)
      rw [List.nil_append, integer]
      · simpa [isNumeral] using hnone
      all_goals simp_all
  | c :: cs =>
    have htail : ∀ d ∈ cs, isDelimiter d = false := fun d hd => hx d (List.mem_cons_of_mem _ hd)
    by_cases hp : c = '+'
    · subst hp
      simpa [integer, isNumeral] using digits_word hrest ['+'] htail
    by_cases hm : c = '-'
    · subst hm
      simpa [integer, isNumeral] using digits_word hrest ['-'] htail
    rw [isNumeral_unsigned cs hp hm, List.cons_append, integer]
    · simpa using digits_word hrest [] hx
    all_goals simp_all

theorem symbol_word {x : List Char} (hx : IsWord x) :
    symbol (x ++ rest) =
      if x = ['.'] ∨ x.head? = some '#' then none else some (x, rest) := by
  obtain ⟨c, cs, rfl⟩ := List.exists_cons_of_ne_nil hx.ne_nil
  have hdot : dot (c :: cs ++ rest) = if c :: cs = ['.'] then some (c :: cs, rest) else none := by
    have hplain : ∀ w ∈ ["."], ∀ d ∈ w.toList, isDelimiter d = false :=
      List.forall_mem_singleton.mpr (plain_of_all (by decide))
    simpa [dot] using words_word hrest hplain hx.plain
  by_cases hd : c :: cs = ['.']
  · rw [if_pos hd] at hdot
    rw [if_pos (.inl hd)]
    simp only [symbol, hdot]
  · have hc : isDelimiter c = false := hx.plain c List.mem_cons_self
    have hcs : ∀ d ∈ cs, (!isDelimiter d) = true := fun d hd => by
      simp [hx.plain d (List.mem_cons_of_mem _ hd)]
    have hstop := takeWhile_boundary hrest fun d (h : (!isDelimiter d) = true) => by simpa using h
    rw [if_neg hd] at hdot
    simp only [symbol, hdot]
    by_cases hh : c = '#'
    · simp [hh]
    · simp [hd, hc, hh, List.takeWhile_append_of_pos hcs,
        List.dropWhile_append_of_pos hcs, hstop]

omit hrest in
theorem string_word {x : List Char} (hx : IsWord x) : string (x ++ rest) = none := by
  obtain ⟨c, cs, rfl⟩ := List.exists_cons_of_ne_nil hx.ne_nil
  have hc : c ≠ '"' := by
    rintro rfl
    exact absurd (hx.plain '"' List.mem_cons_self) (by decide)
  rw [List.cons_append, string]
  simp_all

end Boundary

/-- The kind of atom that a word is. -/
def kind? (x : List Char) : Option Tag :=
  if isNumeral x then some .integer
  else if x ∈ ["#true", "#false", "#t", "#f"].map String.toList then some .boolean
  else if x ∈ ["#ignore", "#inert"].map String.toList then some .constant
  else if x ∈ ["nil"].map String.toList then some .nil
  else if x = ['.'] ∨ x.head? = some '#' then none
  else some .symbol

/-- A word that is no mark, no number, not the dot and not `nil` is a symbol. -/
theorem kind?_symbol {x : List Char} (hnum : isNumeral x = false) (hhash : x.head? ≠ some '#')
    (hdot : x ≠ ['.']) (hnil : x ≠ "nil".toList) : kind? x = some .symbol := by
  have hmark : ∀ {ws : List String}, (∀ w ∈ ws, w.toList.head? = some '#') →
      x ∉ ws.map String.toList := by
    intro ws hws hmem
    obtain ⟨w, hw, rfl⟩ := List.mem_map.mp hmem
    exact hhash (hws w hw)
  have hbool : x ∉ ["#true", "#false", "#t", "#f"].map String.toList := hmark (by decide)
  have hconst : x ∉ ["#ignore", "#inert"].map String.toList := hmark (by decide)
  have hword : x ∉ ["nil"].map String.toList := by simpa using hnil
  have hrest : ¬ (x = ['.'] ∨ x.head? = some '#') := not_or.mpr ⟨hdot, hhash⟩
  rw [kind?, if_neg (by simp [hnum]), if_neg hbool, if_neg hconst, if_neg hword, if_neg hrest]

theorem atom_word {x rest : List Char} (hx : IsWord x) (hrest : atBoundary rest = true)
    (p : Position) : atom ⟨p, x ++ rest⟩ = (kind? x).map fun tag =>
      (.tree tag (String.ofList x) (.ofPosition p) [], ⟨p.advance x, rest⟩) := by
  have hplain : ∀ {ws : List String},
      (ws.all fun w => w.toList.all fun c => !isDelimiter c) = true →
        ∀ w ∈ ws, ∀ c ∈ w.toList, isDelimiter c = false :=
    fun h w hw => plain_of_all (List.all_eq_true.mp h w hw)
  have hbool : boolean (x ++ rest) =
      if x ∈ ["#true", "#false", "#t", "#f"].map String.toList then some (x, rest) else none :=
    words_word hrest (hplain (by decide)) hx.plain
  have hconst : constant (x ++ rest) =
      if x ∈ ["#ignore", "#inert"].map String.toList then some (x, rest) else none :=
    words_word hrest (hplain (by decide)) hx.plain
  have hnil : nil (x ++ rest) = if x ∈ ["nil"].map String.toList then some (x, rest) else none :=
    words_word hrest (hplain (by decide)) hx.plain
  simp only [atom, atoms, List.findSome?_cons, List.findSome?_nil, kind?,
    integer_word hrest hx.plain, string_word hx, hbool, hconst, hnil, symbol_word hrest hx]
  by_cases h₁ : isNumeral x = true
  · simp only [if_pos h₁]
    rfl
  by_cases h₂ : x ∈ ["#true", "#false", "#t", "#f"].map String.toList
  · simp only [if_neg h₁, if_pos h₂]
    rfl
  by_cases h₃ : x ∈ ["#ignore", "#inert"].map String.toList
  · simp only [if_neg h₁, if_neg h₂, if_pos h₃]
    rfl
  by_cases h₄ : x ∈ ["nil"].map String.toList
  · simp only [if_neg h₁, if_neg h₂, if_neg h₃, if_pos h₄]
    rfl
  simp only [if_neg h₁, if_neg h₂, if_neg h₃, if_neg h₄]
  by_cases h₅ : x = ['.'] ∨ x.head? = some '#'
  · simp only [if_pos h₅]
    rfl
  · simp only [if_neg h₅]
    rfl

end Grammar

end Vau
