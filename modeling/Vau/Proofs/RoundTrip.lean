import Vau.Proofs.Comparison
import Vau.Proofs.Reading

/-! Printing and reading back. A readable value, that is one that unfolds to a legible tree, is
printed as a text of one datum, and that datum is equal to the value. -/

namespace Vau

namespace Grammar

theorem many_end (room fuel : Nat) (p : Position) :
    many (datum (room + 1)) fuel ⟨p, []⟩ = .found [] ⟨p, []⟩ := by
  cases fuel with
  | zero => rfl
  | succ fuel =>
    have hatom : atom ⟨p, []⟩ = none := by
      simp [atom, atoms, integer, digits, string, boolean, constant, nil, symbol, words,
        following?, List.findSome?]
    have habsent : datum (room + 1) ⟨p, []⟩ = .absent := by
      rw [datum_atom (by simp), hatom]
    simp only [many, habsent]

theorem length_le_joined {ts : List Tree} (hts : ∀ t ∈ ts, t.Legible) :
    ts.length ≤ ([' '].intercalate (ts.map Tree.text)).length := by
  induction ts with
  | nil => exact Nat.zero_le _
  | cons t ts ih =>
    have ht := inked_text (hts t List.mem_cons_self)
    have ih := ih fun t ht => hts t (List.mem_cons_of_mem _ ht)
    obtain ⟨c, cs, hc, -⟩ := ht
    cases ts with
    | nil => simp [hc]
    | cons u us =>
      rw [List.map_cons, List.map_cons, List.intercalate_cons_cons, ← List.map_cons, hc]
      simp only [List.length_cons, List.length_append] at ih ⊢
      omega

/-- The texts of legible trees with a space between them are read as data that have the trees. -/
theorem many_texts {source : Option String} {ts : List Tree} {room : Nat}
    (hts : ∀ t ∈ ts, t.Legible ∧ t.depth ≤ room) {fuel : Nat} (hfuel : ts.length ≤ fuel)
    (p : Position) :
    ∃ ns p', many (datum (room + 1)) fuel (gap ⟨p, [' '].intercalate (ts.map Tree.text)⟩) =
        .found ns ⟨p', []⟩ ∧ List.Forall₂ (Node.Stands source) ns ts := by
  induction ts generalizing fuel p with
  | nil => exact ⟨[], p, many_end room fuel p, .nil⟩
  | cons t ts ih =>
    obtain ⟨ht, hroom⟩ := hts t List.mem_cons_self
    obtain ⟨fuel, rfl⟩ := Nat.exists_eq_add_of_le' (Nat.le_trans (Nat.succ_pos _) hfuel)
    have ih := ih (fun t ht => hts t (List.mem_cons_of_mem _ ht)) (Nat.le_of_succ_le_succ hfuel)
    have hread : Reads source (room + 1) t.text t := (reads_tree ht).1 room hroom
    -- the text of the first tree ends where the text does or at a space
    have hfirst : ∀ rest, atBoundary rest = true →
        ∃ n p', datum (room + 1) (gap ⟨p, t.text ++ rest⟩) = .found n ⟨p', rest⟩ ∧
          n.Stands source t := by
      intro rest hrest
      rw [gap_inked ((inked_text ht).append rest)]
      obtain ⟨n, ⟨p', x⟩, hn, rfl, hstands⟩ := hread p rest hrest
      exact ⟨n, p', hn, hstands⟩
    cases ts with
    | nil =>
      obtain ⟨n, p', hn, hstands⟩ := hfirst [] rfl
      have hend : gap ⟨p', []⟩ = ⟨p', []⟩ := rfl
      rw [List.append_nil] at hn
      exact ⟨[n], p', by simp [many, hn, hend, many_end], .cons hstands .nil⟩
    | cons u us =>
      obtain ⟨n, p₁, hn, hstands⟩ :=
        hfirst (' ' :: [' '].intercalate ((u :: us).map Tree.text)) (atBoundary_space _)
      obtain ⟨ns, p', hns, hall⟩ := ih (p₁.step ' ')
      refine ⟨n :: ns, p', ?_, .cons hstands hall⟩
      rw [List.map_cons, List.map_cons, List.intercalate_cons_cons, ← List.map_cons,
        List.append_assoc, List.singleton_append]
      simp only [many, hn, gap_space, hns]

theorem parse_texts {source : Option String} {ts : List Tree} {room : Nat}
    (hts : ∀ t ∈ ts, t.Legible ∧ t.depth ≤ room) :
    ∃ ns, parse (room + 1) ([' '].intercalate (ts.map Tree.text)) = .ok ns ∧
      List.Forall₂ (Node.Stands source) ns ts := by
  have hgap : gap ⟨.start, [' '].intercalate (ts.map Tree.text)⟩ =
      ⟨.start, [' '].intercalate (ts.map Tree.text)⟩ := by
    match ts with
    | [] => rfl
    | [t] => simpa using gap_inked (inked_text (hts t List.mem_cons_self).1) .start
    | t :: u :: us =>
      have hink := inked_text (hts t List.mem_cons_self).1
      rw [List.map_cons, List.map_cons, List.intercalate_cons_cons, List.append_assoc]
      exact gap_inked (hink.append _) .start
  have hlen := length_le_joined fun t ht => (hts t ht).1
  have hmany : ∃ ns p, many (datum (room + 1)) ([' '].intercalate (ts.map Tree.text)).length
      (gap ⟨.start, [' '].intercalate (ts.map Tree.text)⟩) = .found ns ⟨p, []⟩ ∧
        List.Forall₂ (Node.Stands source) ns ts := many_texts hts hlen .start
  obtain ⟨ns, p, hns, hall⟩ := hmany
  refine ⟨ns, ?_, hall⟩
  rw [hgap] at hns
  have hprogram : program (room + 1) ([' '].intercalate (ts.map Tree.text)) = .found ns ⟨p, []⟩ := by
    rw [program, Cursor.start, hgap]
    exact hns
  rw [parse, hprogram]
  rfl

theorem parse_text {source : Option String} {t : Tree} (ht : t.Legible) {room : Nat}
    (hroom : t.levels ≤ room) :
    ∃ n, parse (room + 1) t.text = .ok [n] ∧ n.Stands source t := by
  have hdepth : t.depth ≤ room := Nat.le_trans t.depth_le_levels hroom
  have hread : ∃ ns, parse (room + 1) ([' '].intercalate [t.text]) = .ok ns ∧
      List.Forall₂ (Node.Stands source) ns [t] :=
    parse_texts (List.forall_mem_singleton.mpr ⟨ht, hdepth⟩)
  obtain ⟨ns, hns, hall⟩ := hread
  cases hall with
  | @cons n _ _ _ hn hrest =>
    cases hrest
    exact ⟨n, by simpa using hns, hn⟩

end Grammar

/-- A readable value, with levels that the reader admits, is printed as a text that reads as
exactly one datum, and the datum brought into the store is equal to the value. -/
theorem read_printed {s : Store} {v : Value} {t : Tree} (hv : s.Unfolds v t) (ht : t.Legible)
    (hlevels : t.levels < nestingLimit) (source : String) :
    ∃ text d, s.print .plain v = .ok text ∧ read source text = .ok [d] ∧
      (s.load d).2.equal hostRoom (s.load d).1 v = .ok true := by
  have hdepth : t.depth < 400 := Nat.lt_of_le_of_lt t.depth_le_levels hlevels
  have hprint := Store.print_unfolds hv ht (Nat.le_of_lt (Nat.lt_trans hdepth (by decide)))
  have hparse : ∃ n, parse nestingLimit t.text = .ok [n] ∧ n.Stands (some source) t :=
    Grammar.parse_text ht (Nat.le_of_lt_succ hlevels)
  obtain ⟨n, hparse, -, d, hd, rfl⟩ := hparse
  refine ⟨String.ofList d.tree.text, d, hprint, ?_, ?_⟩
  · simp only [read, readText, String.toList_ofList, hparse, Node.toItems, hd]
    rfl
  · obtain ⟨hkeeps, hload⟩ := s.load_unfolds d
    rw [Store.equal_unfolds hload (hv.keeps hkeeps) (Nat.lt_trans hdepth (by decide)),
      Tree.same_refl]

/-- The store of `((- "\"\n") () . #inert)`. -/
def sampleStore : Store :=
  { cells := #[⟨.pair 1, .pair 3, none⟩, ⟨.sym "-", .pair 2, none⟩, ⟨.str "\"\n", .nil, none⟩,
      ⟨.nil, .inert, none⟩] }

def sampleTree : Tree :=
  .node (.node (.leaf (.sym "-")) (.node (.leaf (.str "\"\n")) (.leaf .nil)))
    (.node (.leaf .nil) (.leaf .inert))

theorem sampleTree_legible : sampleTree.Legible := by
  have hword : Grammar.IsWord "-".toList := ⟨by decide, Grammar.plain_of_all (by decide)⟩
  have hsym : (Value.sym "-").Legible :=
    ⟨hword, by decide, by decide, by decide, by decide⟩
  exact ⟨⟨hsym, trivial, trivial⟩, trivial, trivial⟩

theorem sampleStore_unfolds : sampleStore.Unfolds (.pair 0) sampleTree := by
  have hinner : sampleStore.Unfolds (.pair 1)
      (.node (.leaf (.sym "-")) (.node (.leaf (.str "\"\n")) (.leaf .nil))) :=
    .node (by decide) (.leaf rfl) (.node (by decide) (.leaf rfl) (.leaf rfl))
  exact .node (by decide) hinner (.node (by decide) (.leaf rfl) (.leaf rfl))

/-- A symbol that is only a sign, characters that need escapes, an empty list inside a list
and a dotted constant come back. -/
theorem read_printed_sample :
    sampleStore.Unfolds (.pair 0) sampleTree ∧ sampleTree.Legible ∧
    sampleTree.levels < nestingLimit ∧
    ∃ text d, sampleStore.print .plain (.pair 0) = .ok text ∧ read "script" text = .ok [d] ∧
      (sampleStore.load d).2.equal hostRoom (sampleStore.load d).1 (.pair 0) = .ok true :=
  have hlevels : sampleTree.levels < nestingLimit := by decide
  ⟨sampleStore_unfolds, sampleTree_legible, hlevels,
    read_printed sampleStore_unfolds sampleTree_legible hlevels "script"⟩

end Vau
