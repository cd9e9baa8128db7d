import Vau.Proofs.Locations
import Vau.Proofs.Moved
import Vau.Report

/-! The line that is marked in the report of a failure. Positions count line feeds, and an excerpt
is cut from the text at other characters besides. Where the text has none of those, the marked line
is the one on which the list begins, with the caret under its parenthesis. -/

namespace Vau

section Lines

/-- Puts a character before the first of the lines. -/
def onFirst (c : Char) : List (List Char) → List (List Char)
  | [] => [[c]]
  | line :: more => (c :: line) :: more

/-- The lines of a text as positions count them. A line feed ends a line, together with a carriage
return right before it, and may be missing after the last one. -/
def sourceLines : List Char → List (List Char)
  | [] => []
  | '\r' :: '\n' :: rest => [] :: sourceLines rest
  | c :: rest => if c = '\n' then [] :: sourceLines rest else onFirst c (sourceLines rest)

/-- Nothing on the line ends it where the excerpt is cut. -/
def Unbroken (line : List Char) : Prop := ∀ c ∈ line, isLineBreak c = false

variable {c d : Char} {rest : List Char} {k : Nat}

theorem length_onFirst (c : Char) (lines : List (List Char)) :
    (onFirst c lines).length = max 1 lines.length := by
  cases lines with
  | nil => rfl
  | cons line more => simp [onFirst]

theorem take_onFirst (c : Char) (lines : List (List Char)) (k : Nat) :
    (onFirst c lines).take (k + 1) = onFirst c (lines.take (k + 1)) := by
  cases lines <;> simp [onFirst]

theorem unbroken_onFirst {lines : List (List Char)} : (∀ x ∈ onFirst c lines, Unbroken x) ↔
    isLineBreak c = false ∧ ∀ x ∈ lines, Unbroken x := by
  cases lines <;> simp [onFirst, Unbroken, and_assoc]

theorem sourceLines_cons (h : c = '\r' → rest.head? ≠ some '\n') : sourceLines (c :: rest) =
    if c = '\n' then [] :: sourceLines rest else onFirst c (sourceLines rest) := by
  rw [sourceLines]
  rintro rest' rfl rfl
  exact h rfl rfl

theorem shownLines_cons (h : c = '\r' → rest.head? ≠ some '\n') : shownLines (c :: rest) =
    if isLineBreak c then [] :: shownLines rest else onFirst c (shownLines rest) := by
  rw [shownLines]
  · cases shownLines rest <;> rfl
  · rintro rest' rfl rfl
    exact h rfl rfl

/-- A text is empty, or begins with a line ending of two characters, or with another character. -/
theorem text_cases {P : List Char → Prop} (nil : P [])
    (ending : ∀ rest, P rest → P ('\r' :: '\n' :: rest))
    (cons : ∀ c rest, (c = '\r' → rest.head? ≠ some '\n') → P rest → P (c :: rest))
    (text : List Char) : P text := by
  induction text using sourceLines.induct with
  | case1 => exact nil
  | case2 rest ih => exact ending rest ih
  | case3 rest h ih => exact cons '\n' rest (fun h => absurd h (by decide)) ih
  | case4 c rest h hc ih =>
    refine cons c rest (fun hreturn hnext => ?_) ih
    obtain ⟨tail, rfl⟩ := List.head?_eq_some_iff.mp hnext
    exact h tail hreturn rfl

theorem length_sourceLines_le (text : List Char) :
    (sourceLines text).length ≤ (shownLines text).length := by
  induction text using text_cases with
  | nil => exact Nat.le_refl _
  | ending rest ih => exact Nat.succ_le_succ ih
  | cons c rest h ih =>
    rw [sourceLines_cons h, shownLines_cons h]
    by_cases hc : c = '\n'
    · subst hc
      rw [if_pos rfl, if_pos isLineBreak_newline]
      exact Nat.succ_le_succ ih
    · rw [if_neg hc]
      split
      · rw [length_onFirst, List.length_cons]
        omega
      · rw [length_onFirst, length_onFirst]
        omega

theorem unbroken_shownLines (text : List Char) : ∀ x ∈ shownLines text, Unbroken x := by
  induction text using text_cases with
  | nil => exact fun x hx => absurd hx List.not_mem_nil
  | ending rest ih => exact List.forall_mem_cons.mpr ⟨fun c hc => absurd hc List.not_mem_nil, ih⟩
  | cons c rest h ih =>
    rw [shownLines_cons h]
    split
    · exact List.forall_mem_cons.mpr ⟨fun c hc => absurd hc List.not_mem_nil, ih⟩
    · exact unbroken_onFirst.mpr ⟨Bool.eq_false_iff.mpr ‹_›, ih⟩

/-- As far as no line of the text is broken, its lines are shown. -/
theorem take_shownLines {text : List Char} (h : ∀ x ∈ (sourceLines text).take k, Unbroken x) :
    (shownLines text).take k = (sourceLines text).take k := by
  induction text using text_cases generalizing k with
  | nil => rfl
  | ending rest ih =>
    cases k with
    | zero => rfl
    | succ k => exact congrArg ([] :: ·) (ih (List.forall_mem_cons.mp h).2)
  | cons c rest hnext ih =>
    cases k with
    | zero => rfl
    | succ k =>
      rw [sourceLines_cons hnext] at h ⊢
      rw [shownLines_cons hnext]
      by_cases hc : c = '\n'
      · subst hc
        rw [if_pos rfl] at h ⊢
        rw [if_pos isLineBreak_newline]
        exact congrArg ([] :: ·) (ih (List.forall_mem_cons.mp h).2)
      · rw [if_neg hc, take_onFirst] at h ⊢
        obtain ⟨hplain, hrest⟩ := unbroken_onFirst.mp h
        rw [hplain, if_neg Bool.false_ne_true, take_onFirst, ih hrest]

/-- A parenthesis is found on its line and in its column. -/
theorem sourceLines_opening (p : Position) (before after : List Char) :
    ∃ earlier x y later, sourceLines (before ++ '(' :: after) =
        earlier ++ (x ++ '(' :: y) :: later ∧
      (p.advance before).line = p.line + earlier.length ∧
      (p.advance before).column = (if earlier = [] then p.column else 1) + x.length := by
  induction before using text_cases generalizing p with
  | nil =>
    rw [List.nil_append, sourceLines_cons (fun h => absurd h (by decide)), if_neg (by decide)]
    cases sourceLines after with
    | nil => exact ⟨[], [], [], [], rfl, by simp, by simp⟩
    | cons line more => exact ⟨[], [], line, more, rfl, by simp, by simp⟩
  | ending rest ih =>
    obtain ⟨earlier, x, y, later, hlines, hline, hcolumn⟩ := ih ⟨p.line + 1, 1⟩
    have hadvance : p.advance ('\r' :: '\n' :: rest) = Position.advance ⟨p.line + 1, 1⟩ rest := rfl
    refine ⟨[] :: earlier, x, y, later, congrArg ([] :: ·) hlines, ?_, ?_⟩
    · rw [hadvance, hline, List.length_cons]
      dsimp only
      omega
    · rw [hadvance, hcolumn, if_neg (List.cons_ne_nil _ _), ite_self]
  | cons c rest hnext ih =>
    have hnext' : c = '\r' → (rest ++ '(' :: after).head? ≠ some '\n' := by
      intro hreturn
      cases rest with
      | nil => simp
      | cons d rest => exact hnext hreturn
    obtain ⟨earlier, x, y, later, hlines, hline, hcolumn⟩ := ih (p.step c)
    rw [List.cons_append, sourceLines_cons hnext', hlines, Position.advance_cons]
    by_cases hc : c = '\n'
    · refine ⟨[] :: earlier, x, y, later, if_pos hc, ?_, ?_⟩
      · rw [hline, Position.step, if_pos hc, List.length_cons]
        dsimp only
        omega
      · rw [hcolumn, Position.step, if_pos hc, if_neg (List.cons_ne_nil _ _), ite_self]
    · rw [if_neg hc]
      rw [Position.step, if_neg hc] at hline hcolumn ⊢
      cases earlier with
      | nil =>
        refine ⟨[], c :: x, y, later, rfl, hline, ?_⟩
        rw [hcolumn, if_pos rfl, if_pos rfl, List.length_cons]
        dsimp only
        omega
      | cons line earlier => exact ⟨(c :: line) :: earlier, x, y, later, rfl, hline, hcolumn⟩

end Lines

section Windows

/-- Of these lines one is marked, the one after the first `n`, and up to two are shown on each side
of it. -/
structure Window (lines : List (List Char)) (n : Nat) (above : List (List Char)) (here : List Char)
    (below : List (List Char)) : Prop where
  above : above = (lines.take n).drop (n - 2)
  here : lines[n]? = some here
  below : below = (lines.drop (n + 1)).take 2

variable {lines lines' above below : List (List Char)} {here : List Char} {n : Nat}

theorem exists_window (h : n < lines.length) :
    ∃ above here below, Window lines n above here below :=
  ⟨_, lines[n], _, rfl, List.getElem?_eq_getElem h, rfl⟩

theorem Window.lt_length (h : Window lines n above here below) : n < lines.length :=
  (List.getElem?_eq_some_iff.mp h.here).1

/-- Lines farther down do not matter. -/
theorem Window.congr (h : Window lines n above here below)
    (htake : lines.take (n + 3) = lines'.take (n + 3)) : Window lines' n above here below := by
  have hbefore : lines'.take n = lines.take n := by
    simpa [List.take_take] using congrArg (List.take n) htake.symm
  have hafter : (lines'.drop (n + 1)).take 2 = (lines.drop (n + 1)).take 2 := by
    simpa [List.drop_take] using congrArg (List.drop (n + 1)) htake.symm
  refine ⟨hbefore ▸ h.above, ?_, hafter ▸ h.below⟩
  have hlines : lines'[n]? = lines[n]? := by
    rw [← List.getElem?_take_of_lt (show n < n + 3 by omega), ← htake,
      List.getElem?_take_of_lt (show n < n + 3 by omega)]
  rw [hlines, h.here]

/-- What stands before and after what is shown. -/
theorem Window.split (h : Window lines n above here below) :
    ∃ first last, lines = first ++ (above ++ here :: (below ++ last)) ∧
      first.length + above.length = n ∧ above.length = min 2 n ∧
      below.length = min 2 (lines.length - (n + 1)) := by
  obtain ⟨hn, hhere⟩ := List.getElem?_eq_some_iff.mp h.here
  have habove : (lines.take (n - 2)) ++ above = lines.take n := by
    rw [h.above]
    conv_rhs => rw [← List.take_append_drop (n - 2) (lines.take n), List.take_take]
    rw [Nat.min_eq_left (Nat.sub_le n 2)]
  have hbelow : below ++ (lines.drop (n + 1)).drop 2 = lines.drop (n + 1) := by
    rw [h.below, List.take_append_drop]
  refine ⟨lines.take (n - 2), (lines.drop (n + 1)).drop 2, ?_, ?_, ?_, ?_⟩
  · rw [← List.append_assoc, habove, hbelow, ← hhere, List.getElem_cons_drop,
      List.take_append_drop]
  · rw [← List.length_append, habove, List.length_take]
    omega
  · rw [h.above, List.length_drop, List.length_take]
    omega
  · rw [h.below, List.length_take, List.length_drop]

theorem Window.subset (h : Window lines n above here below) :
    ∀ x ∈ above ++ here :: below, x ∈ lines := by
  obtain ⟨first, last, rfl, -⟩ := h.split
  intro x hx
  rw [← List.cons_append, ← List.append_assoc above]
  exact List.mem_append_right _ (List.mem_append_left _ hx)

/-- Of the lines with their numbers, those with the numbers of the middle ones are the middle. -/
theorem filter_zipIdx_middle {keep : List Char × Nat → Bool} {first middle last : List (List Char)}
    {k : Nat} (hkeep : ∀ l, keep l = true ↔
      k + first.length ≤ l.2 ∧ l.2 < k + first.length + middle.length) :
    ((first ++ (middle ++ last)).zipIdx k).filter keep = middle.zipIdx (k + first.length) := by
  have hbefore : ∀ l ∈ first.zipIdx k, ¬ keep l = true := by
    intro l hl hin
    have hlt := List.snd_lt_of_mem_zipIdx hl
    have hle := ((hkeep l).mp hin).1
    omega
  have hmiddle : ∀ l ∈ middle.zipIdx (k + first.length), keep l = true := by
    intro l hl
    have hlt := List.snd_lt_of_mem_zipIdx hl
    exact (hkeep l).mpr ⟨List.le_snd_of_mem_zipIdx hl, by omega⟩
  have hafter : ∀ l ∈ last.zipIdx (k + first.length + middle.length), ¬ keep l = true := by
    intro l hl hin
    have hle := List.le_snd_of_mem_zipIdx hl
    have hlt := ((hkeep l).mp hin).2
    omega
  rw [List.zipIdx_append, List.zipIdx_append, List.filter_append, List.filter_append,
    List.filter_eq_nil_iff.mpr hbefore, List.filter_eq_self.mpr hmiddle,
    List.filter_eq_nil_iff.mpr hafter, List.nil_append, List.append_nil]

end Windows

namespace Excerpt

/-- A line that is shown, after its mark and its number, which ends in a column of that width. -/
def row (mark : Char) (width number : Nat) (line : List Char) : List Char :=
  mark :: ' ' :: (List.replicate (width - (Nat.toDigits 10 number).length) ' ' ++
    (Nat.toDigits 10 number ++ ' ' :: '|' :: ' ' :: line))

/-- The row under the marked one, with a caret after `k` characters. -/
def caretRow (width k : Nat) : List Char :=
  ' ' :: ' ' :: (List.replicate width ' ' ++
    ' ' :: '|' :: ' ' :: (List.replicate k ' ' ++ ['^']))

/-- The column of the numbers is as wide as the last of them. -/
def numberWidth (n : Nat) (below : List (List Char)) : Nat :=
  (Nat.toDigits 10 (n + 1 + below.length)).length

/-- The rows of an excerpt around the line after the first `n`. -/
def rows (n k : Nat) (above : List (List Char)) (here : List Char) (below : List (List Char)) :
    List (List Char) :=
  let width := numberWidth n below
  (above.zipIdx (n + 1 - above.length)).map (fun l => row ' ' width l.2 l.1) ++
    row '>' width (n + 1) here :: caretRow width k ::
      (below.zipIdx (n + 2)).map (fun l => row ' ' width l.2 l.1)

variable {lines above below : List (List Char)} {here text : List Char} {n k width number : Nat}
  {line : Int}

theorem toList_number (number : Nat) :
    (toString (number : Int)).toList = Nat.toDigits 10 number := by
  have hrepr : toString (number : Int) = Nat.repr number := rfl
  rw [hrepr, Nat.repr, String.toList_ofList]

theorem toList_padLeft (width number : Nat) : (padLeft width (toString (number : Int))).toList =
    List.replicate (width - (Nat.toDigits 10 number).length) ' ' ++ Nat.toDigits 10 number := by
  rw [padLeft, String.toList_append, String.toList_ofList, ← String.length_toList, toList_number]

theorem shown_eq {mark : String} {c : Char} (hmark : mark.toList = [c]) (width number : Nat)
    (text : List Char) :
    mark ++ " " ++ padLeft width (toString (number : Int)) ++ " | " ++ String.ofList text =
      String.ofList (row c width number text) := by
  have hpadded := toList_padLeft width number
  generalize padLeft width (toString (number : Int)) = padded at hpadded ⊢
  apply String.toList_inj.mp
  simp [row, hmark, hpadded]

theorem entry_other (h : (number : Int) ≠ line) (column : Option Int) (width : Nat)
    (text : List Char) :
    entry line column width number text = [String.ofList (row ' ' width number text)] := by
  have hmark : (" " : String).toList = [' '] := rfl
  cases column <;> simp only [entry, if_neg h, shown_eq hmark]

theorem entry_marked (width number k : Nat) (text : List Char) :
    entry number (some ((k : Int) + 1)) width number text =
      [String.ofList (row '>' width number text), String.ofList (caretRow width k)] := by
  have hmark : (">" : String).toList = ['>'] := rfl
  have hcaret : "  " ++ padLeft width "" ++ " | " ++
      String.ofList (List.replicate ((k : Int) + 1 - 1).toNat ' ') ++ "^" =
        String.ofList (caretRow width k) := by
    apply String.toList_inj.mp
    simp [caretRow, padLeft]
  simp only [entry, if_true, shown_eq hmark, hcaret]

/-- Between the first and the last number to be shown lie those of the window. -/
theorem shown_of_window (h : Window lines n above here below) :
    ((lines.mapIdx fun i line => ((i : Int) + 1, line)).filter fun l =>
      decide (max 1 ((n : Int) + 1 - excerptRadius) ≤ l.1) &&
        decide (l.1 ≤ min (lines.length : Int) ((n : Int) + 1 + excerptRadius))) =
    (above.zipIdx (n + 1 - above.length) ++ (here, n + 1) :: below.zipIdx (n + 2)).map
      fun l => ((l.2 : Int), l.1) := by
  obtain ⟨first, last, hlines, hfirst, habove, hbelow⟩ := h.split
  have hlength := h.lt_length
  have hnumbered : (lines.mapIdx fun i line => ((i : Int) + 1, line)) =
      (lines.zipIdx 1).map fun l => ((l.2 : Int), l.1) := by
    apply List.ext_getElem?
    intro i
    cases hi : lines[i]? <;> simp [hi, Int.add_comm]
  have hstart : 1 + first.length = n + 1 - above.length := by omega
  have hmiddle : (above ++ here :: below).zipIdx (n + 1 - above.length) =
      above.zipIdx (n + 1 - above.length) ++ (here, n + 1) :: below.zipIdx (n + 2) := by
    have hnext : n + 1 - above.length + above.length = n + 1 := by omega
    rw [List.zipIdx_append, List.zipIdx_cons, hnext]
  have hlines' : lines = first ++ ((above ++ here :: below) ++ last) := by simp [hlines]
  have hkeep : ∀ l : List Char × Nat,
      (decide (max 1 ((n : Int) + 1 - excerptRadius) ≤ (l.2 : Int)) &&
        decide ((l.2 : Int) ≤ min (lines.length : Int) ((n : Int) + 1 + excerptRadius))) = true ↔
      1 + first.length ≤ l.2 ∧ l.2 < 1 + first.length + (above ++ here :: below).length := by
    intro l
    rw [Bool.and_eq_true, decide_eq_true_iff, decide_eq_true_iff, excerptRadius, List.length_append,
      List.length_cons]
    omega
  rw [hnumbered, List.filter_map, hlines']
  rw [hlines'] at hkeep
  refine congrArg _ ((filter_zipIdx_middle hkeep).trans ?_)
  rw [hstart, hmiddle]

theorem entry_others {ls : List (List Char × Nat)} (h : ∀ l ∈ ls, (l.2 : Int) ≠ line)
    (column : Option Int) (width : Nat) : ls.flatMap (fun l => entry line column width l.2 l.1) =
      (ls.map fun l => row ' ' width l.2 l.1).map String.ofList := by
  induction ls with
  | nil => rfl
  | cons l ls ih =>
    obtain ⟨hl, hls⟩ := List.forall_mem_cons.mp h
    rw [List.flatMap_cons, entry_other hl, ih hls]
    rfl

theorem excerpt_eq {source : String} (h : Window (shownLines source.toList) n above here below)
    (k : Nat) : excerpt source ((n : Int) + 1) (some ((k : Int) + 1)) excerptRadius =
      "\n".intercalate ((rows n k above here below).map String.ofList) := by
  obtain ⟨first, last, -, -, habove, hbelow⟩ := h.split
  have hlength := h.lt_length
  have hrange : ¬ ((n : Int) + 1 < 1 ∨ ((shownLines source.toList).length : Int) < n + 1) := by
    omega
  have hlast : min ((shownLines source.toList).length : Int) ((n : Int) + 1 + excerptRadius) =
      ((n + 1 + below.length : Nat) : Int) := by
    rw [excerptRadius]
    omega
  have hwidth : (toString (min ((shownLines source.toList).length : Int)
      ((n : Int) + 1 + excerptRadius))).length = numberWidth n below := by
    rw [hlast, ← String.length_toList, toList_number, numberWidth]
  have hearlier : ∀ l ∈ above.zipIdx (n + 1 - above.length),
      (l.2 : Int) ≠ ((n + 1 : Nat) : Int) := by
    intro l hl
    have hlt := List.snd_lt_of_mem_zipIdx hl
    omega
  have hlater : ∀ l ∈ below.zipIdx (n + 2), (l.2 : Int) ≠ ((n + 1 : Nat) : Int) := by
    intro l hl
    have hle := List.le_snd_of_mem_zipIdx hl
    omega
  have hnumber : (n : Int) + 1 = ((n + 1 : Nat) : Int) := rfl
  rw [excerpt, if_neg hrange]
  dsimp only
  rw [hwidth, shown_of_window h, List.flatMap_map, List.flatMap_append, List.flatMap_cons,
    hnumber, entry_others hearlier, entry_marked, entry_others hlater]
  simp [rows]

theorem newline_notMem_number (number : Nat) : '\n' ∉ Nat.toDigits 10 number :=
  fun h => absurd (Nat.isDigit_of_mem_toDigits (by decide) (by decide) h) (by decide)

theorem newline_notMem_row {mark : Char} (hmark : mark ≠ '\n') (htext : Unbroken text)
    (width number : Nat) : '\n' ∉ row mark width number text := by
  have hline : '\n' ∉ text := by
    intro h
    have hbreak := htext _ h
    rw [isLineBreak_newline] at hbreak
    cases hbreak
  simp [row, newline_notMem_number, hline, hmark.symm]

theorem newline_notMem_caretRow (width k : Nat) : '\n' ∉ caretRow width k := by
  simp [caretRow]

theorem newline_notMem_rows (h : ∀ x ∈ above ++ here :: below, Unbroken x) (k : Nat) :
    ∀ r ∈ rows n k above here below, '\n' ∉ r := by
  obtain ⟨habove, hhere, hbelow⟩ : (∀ x ∈ above, Unbroken x) ∧ Unbroken here ∧
      ∀ x ∈ below, Unbroken x := by
    simpa only [List.forall_mem_append, List.forall_mem_cons] using h
  have hother : ∀ {ls : List (List Char)}, (∀ x ∈ ls, Unbroken x) → ∀ first width,
      ∀ r ∈ (ls.zipIdx first).map (fun l => row ' ' width l.2 l.1), '\n' ∉ r := by
    intro ls hls first width r hr
    obtain ⟨l, hl, rfl⟩ := List.mem_map.mp hr
    exact newline_notMem_row (by decide) (hls _ (List.fst_mem_of_mem_zipIdx hl)) _ _
  rw [rows]
  refine List.forall_mem_append.mpr ⟨hother habove _ _, List.forall_mem_cons.mpr ⟨?_, ?_⟩⟩
  · exact newline_notMem_row (by decide) hhere _ _
  · exact List.forall_mem_cons.mpr ⟨newline_notMem_caretRow _ _, hother hbelow _ _⟩

/-- The lines of an excerpt are its rows. -/
theorem splitOn_excerpt {source : String} (h : Window (shownLines source.toList) n above here below)
    (k : Nat) : (excerpt source ((n : Int) + 1) (some ((k : Int) + 1)) excerptRadius).toList.splitOn
      '\n' = rows n k above here below := by
  have hplain : ∀ r ∈ rows n k above here below, '\n' ∉ r :=
    newline_notMem_rows (fun x hx => unbroken_shownLines _ x (h.subset x hx)) k
  have hrows : rows n k above here below ≠ [] := by simp [rows]
  rw [excerpt_eq h, String.toList_intercalate, List.map_map]
  have hmap : (rows n k above here below).map (String.toList ∘ String.ofList) =
      rows n k above here below := by simp
  rw [hmap]
  exact List.splitOn_intercalate '\n' hplain hrows

/-- Only the line itself is marked. -/
theorem filter_rows (n k : Nat) (above : List (List Char)) (here : List Char)
    (below : List (List Char)) : (rows n k above here below).filter (·.head? == some '>') =
      [row '>' (numberWidth n below) (n + 1) here] := by
  have hother : ∀ (ls : List (List Char × Nat)) width,
      (ls.map fun l => row ' ' width l.2 l.1).filter (·.head? == some '>') = [] := by
    intro ls width
    refine List.filter_eq_nil_iff.mpr fun r hr => ?_
    obtain ⟨l, -, rfl⟩ := List.mem_map.mp hr
    simp [row]
  rw [rows, List.filter_append, hother, List.filter_cons_of_pos (by simp [row]),
    List.filter_cons_of_neg (by simp [caretRow]), hother, List.nil_append]

/-- The caret stands under the character of the line that has `k` others before it. -/
theorem getElem?_row (n k : Nat) (here : List Char) (below : List (List Char)) :
    (row '>' (numberWidth n below) (n + 1) here)[(caretRow (numberWidth n below) k).length - 1]? =
      here[k]? := by
  have hdigits : (Nat.toDigits 10 (n + 1)).length ≤ numberWidth n below := by
    have hpos : 0 < numberWidth n below := List.length_pos_of_ne_nil Nat.toDigits_ne_nil
    have hlt : n + 1 + below.length < 10 ^ numberWidth n below :=
      (Nat.length_toDigits_le_iff (by decide) hpos).mp (Nat.le_refl _)
    exact (Nat.length_toDigits_le_iff (by decide) hpos).mpr (by omega)
  have hlength : (caretRow (numberWidth n below) k).length - 1 = numberWidth n below + k + 5 := by
    simp [caretRow]
    omega
  generalize numberWidth n below = width at hdigits hlength ⊢
  have hrow : row '>' width (n + 1) here = ('>' :: ' ' ::
      (List.replicate (width - (Nat.toDigits 10 (n + 1)).length) ' ' ++
        (Nat.toDigits 10 (n + 1) ++ [' ', '|', ' ']))) ++ here := by simp [row]
  rw [hrow, hlength, List.getElem?_append_right]
  · congr 1
    simp
    omega
  · simp
    omega

end Excerpt

section Marked

open Excerpt

variable {text source : String} {data : List Datum}

/-- Of what is shown for a list that is read, one line is marked. It has the number of the line on
which the list begins, and up to two more are shown before and after it. If up to there no line of
the text is broken, these are lines of the text, and the caret is under the parenthesis. -/
theorem marked_line (hread : read source text = .ok data) {d : Datum} (hd : d ∈ data) {l : Location}
    (hl : d.Locates l) : ∃ (n k : Nat) (above : List (List Char)) (here : List Char)
      (below : List (List Char)), l.line = (n : Int) + 1 ∧ l.column = (k : Int) + 1 ∧
      Window (shownLines text.toList) n above here below ∧
      (excerpt text l.line (some l.column) excerptRadius).toList.splitOn '\n' =
        rows n k above here below ∧
      (rows n k above here below).filter (·.head? == some '>') =
        [row '>' (numberWidth n below) (n + 1) here] ∧
      ((∀ x ∈ (sourceLines text.toList).take (n + 3), Unbroken x) →
        Window (sourceLines text.toList) n above here below ∧
        (row '>' (numberWidth n below) (n + 1) here)[
          (caretRow (numberWidth n below) k).length - 1]? = some '(') := by
  obtain ⟨-, -, before, after, htext, hplace⟩ := read_locates hread hd hl
  obtain ⟨earlier, x, y, later, hlines, hline, hcolumn⟩ :=
    sourceLines_opening Position.start before after
  rw [hplace, Position.start] at hline hcolumn
  rw [ite_self] at hcolumn
  rw [← htext] at hlines
  have hrow : l.line = (earlier.length : Int) + 1 := by
    rw [Int.add_comm]
    exact hline
  have hcol : l.column = (x.length : Int) + 1 := by
    rw [Int.add_comm]
    exact hcolumn
  have hcount : earlier.length < (shownLines text.toList).length := by
    have hle := length_sourceLines_le text.toList
    rw [hlines, List.length_append, List.length_cons] at hle
    omega
  obtain ⟨above, here, below, hwindow⟩ := exists_window hcount
  refine ⟨earlier.length, x.length, above, here, below, hrow, hcol, hwindow, ?_,
    filter_rows _ _ _ _ _, fun hplain => ?_⟩
  · rw [hrow, hcol]
    exact splitOn_excerpt hwindow x.length
  · have hwindow' := hwindow.congr (take_shownLines hplain)
    have hhere : here = x ++ '(' :: y := by
      have hsome := hwindow'.here
      rw [hlines] at hsome
      simpa using hsome.symm
    refine ⟨hwindow', ?_⟩
    rw [getElem?_row, hhere]
    simp

/-- A list on the tenth line, after lines that are empty and one that ends in a carriage return. -/
def tenthText : String := "\n\n\n\n\n\n\n\n(cons 1\r\n  (head 5))\n7"

def tenthData : List Datum :=
  [.pair (.sym "cons") (.pair (.int 1) (.pair (.pair (.sym "head") (.pair (.int 5) .nil none)
      (some ⟨10, 3, some "script"⟩)) .nil none) none) (some ⟨9, 1, some "script"⟩), .int 7]

theorem marked_line_tenth : read "script" tenthText = .ok tenthData ∧
    (∀ x ∈ sourceLines tenthText.toList, Unbroken x) ∧ ∃ above here below,
      Window (sourceLines tenthText.toList) 9 above here below ∧
      (excerpt tenthText 10 (some 3) excerptRadius).toList.splitOn '\n' =
        rows 9 2 above here below ∧
      (row '>' (numberWidth 9 below) 10 here)[(caretRow (numberWidth 9 below) 2).length - 1]? =
        some '(' := by
  have hread : read "script" tenthText = .ok tenthData :=
    Except.ok_of_toOption (by decide +kernel)
  have hplain : ∀ x ∈ sourceLines tenthText.toList, Unbroken x := by
    have hall : (sourceLines tenthText.toList).all (·.all fun c => !isLineBreak c) = true := by
      decide +kernel
    simpa [Unbroken] using hall
  have hlocates : (tenthData.head (by decide)).Locates ⟨10, 3, some "script"⟩ :=
    .inr (.inr (.inr (.inr (.inr (.inl (.inl rfl))))))
  obtain ⟨n, k, above, here, below, hn, hk, -, hrows, -, hshown⟩ :=
    marked_line hread (List.head_mem _) hlocates
  obtain rfl : n = 9 := by
    dsimp only at hn
    omega
  obtain rfl : k = 2 := by
    dsimp only at hk
    omega
  obtain ⟨hwindow, hcaret⟩ := hshown fun x hx => hplain x (List.mem_of_mem_take hx)
  exact ⟨hread, hplain, above, here, below, hwindow, hrows, hcaret⟩

/-- A form feed ends a line of the excerpt and none of the text, so that an empty line is marked
instead of the one with the list. -/
theorem marked_line_of_feed : ∃ d, read "script" "\x0c\n(head 1)" = .ok [d] ∧
    d.Locates ⟨2, 1, some "script"⟩ ∧
    sourceLines "\x0c\n(head 1)".toList = ["\x0c".toList, "(head 1)".toList] ∧
    excerpt "\x0c\n(head 1)" 2 (some 1) excerptRadius =
      "  1 | \n> 2 | \n    | ^\n  3 | (head 1)" ∧
    ¬ ∃ above here below, Window (sourceLines "\x0c\n(head 1)".toList) 1 above here below ∧
      (excerpt "\x0c\n(head 1)" 2 (some 1) excerptRadius).toList.splitOn '\n' =
        rows 1 0 above here below := by
  have hlines : sourceLines "\x0c\n(head 1)".toList = ["\x0c".toList, "(head 1)".toList] := by
    decide +kernel
  have hexcerpt : excerpt "\x0c\n(head 1)" 2 (some 1) excerptRadius =
      "  1 | \n> 2 | \n    | ^\n  3 | (head 1)" := by decide +kernel
  refine ⟨.pair (.sym "head") (.pair (.int 1) .nil none) (some ⟨2, 1, some "script"⟩),
    Except.ok_of_toOption (by decide +kernel), .inl rfl, hlines, hexcerpt, ?_⟩
  rintro ⟨above, here, below, hwindow, hrows⟩
  rw [hlines] at hwindow
  obtain rfl := hwindow.above
  obtain rfl := Option.some.inj hwindow.here
  obtain rfl := hwindow.below
  rw [hexcerpt] at hrows
  revert hrows
  decide +kernel

end Marked

end Vau
