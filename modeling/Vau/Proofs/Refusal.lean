import Vau.Proofs.Cycle
import Vau.Proofs.Placed
import Vau.Proofs.RoundTrip

/-! Why texts are refused. Reading ends with an error of its own, or it stops for a numeral in
the text that has more digits than are read. -/

namespace Vau

/-- More digits stand in the text one after another than are read as an integer. -/
def LongNumeral (text : List Char) : Prop :=
  ∃ before ds after, text = before ++ (ds ++ after) ∧ ds.all Char.isDigit = true ∧
    digitLimit < ds.length

/-- A numeral that is not read has too many digits after its sign. -/
theorem digits_of_unread {written : List Char} (hn : isNumeral written = true)
    (h : readDecimal? written = none) :
    ∃ sign ds, written = sign ++ ds ∧ ds.all Char.isDigit = true ∧ digitLimit < ds.length := by
  have hlong : ∀ {ds : List Char}, (!ds.isEmpty && ds.all Char.isDigit) = true →
      (∀ n, readDigits? ds ≠ some n) → ds.all Char.isDigit = true ∧ digitLimit < ds.length := by
    intro ds hds hunread
    obtain ⟨hne, hall⟩ := Bool.and_eq_true_iff.mp hds
    refine ⟨hall, ?_⟩
    by_contra hshort
    exact hunread _ (if_pos ⟨by simpa using hne, hall, Nat.le_of_not_lt hshort⟩)
  unfold isNumeral at hn
  split at hn
  · rename_i ds
    exact ⟨['+'], ds, rfl, hlong hn fun n hread => by simp [readDecimal?, hread] at h⟩
  · rename_i ds
    exact ⟨['-'], ds, rfl, hlong hn fun n hread => by simp [readDecimal?, hread] at h⟩
  · rename_i hplus hminus
    refine ⟨[], written, rfl, hlong hn fun n hread => ?_⟩
    unfold readDecimal? at h
    split at h
    · exact hminus _ rfl
    · exact hplus _ rfl
    · simp [hread] at h

namespace Node

variable {text : List Char} {source : Option String}

theorem longNumeral_of_integer {written : String} {o : Origin} {children : List Node}
    (hn : (Node.tree .integer written o children).Placed text)
    (h : integer written = .error .digits) : LongNumeral text := by
  obtain ⟨⟨before, after, htext, -⟩, hnumeral, -⟩ := hn
  unfold integer at h
  split at h
  · cases h
  · obtain ⟨sign, ds, hwritten, hall, hlong⟩ := digits_of_unread (hnumeral rfl) ‹_›
    refine ⟨before ++ sign, ds, after, ?_, hall, hlong⟩
    rw [htext, show Tag.mark written .integer = written.toList from rfl, hwritten]
    simp only [List.append_assoc]

theorem checkTail_ne_digits (o : Origin) (children : List Node) :
    checkTail o children ≠ .error .digits := by
  unfold checkTail
  split
  · split
    · exact nofun
    · split <;> exact nofun
  · exact nofun

/-- Of a node and those after it the one that is refused is looked for in its turn. -/
theorem refused_cons {n : Node} {r : Except Refusal (List Datum)} {e : Refusal}
    (h : (do let d ← toDatum source n; let ds ← r; return d :: ds) = .error e) :
    toDatum source n = .error e ∨ r = .error e := by
  rcases Except.bind_eq_error h with h | ⟨_, -, h⟩
  · exact .inl h
  rcases Except.bind_eq_error h with h | ⟨_, -, h⟩
  · exact .inr h
  · cases h

/-- Nodes of a text are refused for a long numeral in it, or with an error. -/
theorem conversion_refused :
    (∀ n : Node, n.Placed text → toDatum source n = .error .digits → LongNumeral text) ∧
    (∀ ns : List Node, (∀ n ∈ ns, n.Placed text) → toElements source ns = .error .digits →
      LongNumeral text) ∧
    (∀ ns : List Node, (∀ n ∈ ns, n.Placed text) → toEnding source ns = .error .digits →
      LongNumeral text) ∧
    (∀ ns : List Node, (∀ n ∈ ns, n.Placed text) → toItems source ns = .error .digits →
      LongNumeral text) := by
  apply conversion_induction
  case made => exact fun d hn => nomatch hn
  case sequence => exact fun items ih hn => nomatch hn
  case program =>
    intro written o children ih hn h
    obtain ⟨-, -, hchildren⟩ := hn
    rw [toDatum] at h
    exact ih hchildren (Except.error_of_map h)
  case list =>
    intro written o children helements hending hn h
    obtain ⟨-, -, hchildren⟩ := hn
    rw [toDatum] at h
    rcases Except.bind_eq_error h with h | ⟨_, -, h⟩
    · exact absurd h (checkTail_ne_digits o children)
    rcases Except.bind_eq_error h with h | ⟨_, -, h⟩
    · exact hending hchildren h
    rcases Except.bind_eq_error h with h | ⟨_, -, h⟩
    · exact helements hchildren h
    · cases h
  case atom =>
    intro tag written o children hprogram hlist hn h
    rcases atom_cases tag written hprogram hlist with ⟨d, -, hd⟩ | ⟨rfl, hdigits, -⟩ | he
    · cases (hd source o children).symm.trans h
    · exact longNumeral_of_integer hn hdigits
    · obtain ⟨e, he⟩ := he source o children
      cases he.symm.trans h
  case elements_nil | ending_nil | items_nil =>
    intro _ h
    cases h
  case elements_tail =>
    intro n rest hlast _ h
    rw [toElements, if_pos hlast] at h
    cases h
  case elements_cons =>
    intro n rest hnot hn hrest hall h
    obtain ⟨hplaced, hothers⟩ := List.forall_mem_cons.mp hall
    rw [toElements_cons hnot] at h
    exact (refused_cons h).elim (hn hplaced) (hrest hothers)
  case ending_tail =>
    intro written o n more hn hall h
    obtain ⟨-, -, hchildren⟩ := hall _ (List.mem_singleton_self _)
    exact hn (hchildren n List.mem_cons_self) h
  case ending_cons =>
    intro n rest hother hrest hall h
    rw [toEnding_cons hother] at h
    exact hrest (fun m hm => hall m (List.mem_cons_of_mem n hm)) h
  case items_cons =>
    intro n rest hn hrest hall h
    obtain ⟨hplaced, hothers⟩ := List.forall_mem_cons.mp hall
    rw [toItems] at h
    exact (refused_cons h).elim (hn hplaced) (hrest hothers)

end Node

theorem read_refused {source text : String} {r : Refusal} (h : read source text = .error r) :
    (∃ e, r = .error e) ∨ r = .digits ∧ LongNumeral text.toList := by
  cases r with
  | error e => exact .inl ⟨e, rfl⟩
  | digits =>
    rw [read, readText] at h
    cases hparse : parse nestingLimit text.toList with
    | error e =>
      rw [hparse] at h
      cases h
    | ok ns =>
      rw [hparse] at h
      obtain ⟨-, -, -, hitems⟩ := @Node.conversion_refused text.toList (some source)
      exact .inr ⟨rfl, hitems ns (Grammar.parse_placed hparse) h⟩

theorem Grammar.parse_word {x : List Char} (hx : IsWord x) {tag : Tag} (hk : kind? x = some tag)
    (room : Nat) :
    parse (room + 1) x = .ok [.tree tag (String.ofList x) (.ofPosition .start) []] := by
  obtain ⟨fuel, hfuel⟩ : ∃ fuel, x.length = fuel + 1 :=
    Nat.exists_eq_add_one.mpr (List.length_pos_of_ne_nil hx.ne_nil)
  have hword := @datum_word [] rfl x hx room .start
  rw [List.append_nil, hk] at hword
  have hend : gap ⟨Position.start.advance x, []⟩ = ⟨Position.start.advance x, []⟩ := rfl
  rw [parse, program, Cursor.start, gap_inked hx.inked, manyFrom]
  simp only [hfuel, many, hword, hend, many_end]
  rfl

/-- A text that is nothing but such a numeral is refused, and not with an error of the reader. -/
theorem read_numeral {ds : List Char} (hall : ds.all Char.isDigit = true)
    (hlong : digitLimit < ds.length) (source : String) :
    read source (String.ofList ds) = .error .digits := by
  obtain ⟨c, cs, rfl⟩ := List.exists_cons_of_length_pos (Nat.zero_lt_of_lt hlong)
  have hnumeral := Grammar.isNumeral_digits (List.cons_ne_nil c cs) hall
  have hword := Grammar.isWord_of_isNumeral hnumeral
  have hparse : parse nestingLimit (c :: cs) = _ := Grammar.parse_word hword (if_pos hnumeral) 399
  have hunread : readDecimal? (c :: cs) = none := by
    have hc : c.isDigit = true := List.all_eq_true.mp hall c List.mem_cons_self
    have hdigits : readDigits? (c :: cs) = none := if_neg fun h => absurd h.2.2 (by omega)
    rw [readDecimal?_unsigned cs (by rintro rfl; exact absurd hc (by decide))
      (by rintro rfl; exact absurd hc (by decide)), hdigits]
    rfl
  simp only [read, readText, String.toList_ofList, hparse, Node.toItems, Node.toDatum,
    Node.integer, hunread]
  rfl

end Vau
