import Vau.Proofs.Admitted
import Vau.Proofs.RoundTrip

/-! Reading, printing and reading again. What was read from a text is readable, and the texts of
its values with a space between them are read as values equal to it, one for one. -/

namespace Vau

theorem Store.loadAll_unfolds {s s' : Store} {data : List Datum} {vs : List Value}
    (h : s.loadAll data = (vs, s')) :
    s.Keeps s' ∧ List.Forall₂ s'.Unfolds vs (data.map Datum.tree) := by
  induction data generalizing s vs with
  | nil =>
    cases h
    exact ⟨.refl _, .nil⟩
  | cons d ds ih =>
    obtain ⟨hkeeps, hd⟩ := s.load_unfolds d
    cases h
    obtain ⟨hrest, hds⟩ := ih (Prod.eta ((s.load d).2.loadAll ds)).symm
    exact ⟨hkeeps.trans hrest, .cons (hd.keeps hrest) hds⟩

theorem Store.unfolds_of_mem {s : Store} {vs : List Value} {ts : List Tree}
    (h : List.Forall₂ s.Unfolds vs ts) {v : Value} (hv : v ∈ vs) : ∃ t ∈ ts, s.Unfolds v t := by
  induction h with
  | nil => exact absurd hv List.not_mem_nil
  | @cons w t _ _ hw _ ih =>
    rcases List.mem_cons.mp hv with rfl | hv
    · exact ⟨t, List.mem_cons_self, hw⟩
    · obtain ⟨t, ht, hvt⟩ := ih hv
      exact ⟨t, List.mem_cons_of_mem _ ht, hvt⟩

/-- The texts of readable values, each in the store in which they stand. -/
theorem Store.mapM_print {s : Store} {vs : List Value} {ts : List Tree}
    (h : List.Forall₂ s.Unfolds vs ts) (hts : ∀ t ∈ ts, t.Admitted nestingLimit) :
    vs.mapM (s.print .plain) = .ok (ts.map fun t => String.ofList t.text) := by
  induction h with
  | nil => rfl
  | cons hv _ ih =>
    obtain ⟨ht, hts⟩ := List.forall_mem_cons.mp hts
    have hroom := Nat.le_of_lt (Nat.lt_trans ht.2 (by decide : nestingLimit < hostRoom))
    rw [List.mapM_cons, print_unfolds hv ht.1 hroom, ih hts]
    rfl

theorem read_texts {ts : List Tree} (hts : ∀ t ∈ ts, t.Admitted nestingLimit) (source : String) :
    ∃ data, read source (" ".intercalate (ts.map fun t => String.ofList t.text)) = .ok data ∧
      data.map Datum.tree = ts := by
  have htext : (" ".intercalate (ts.map fun t => String.ofList t.text)).toList =
      [' '].intercalate (ts.map Tree.text) := by
    rw [String.toList_intercalate, List.map_map]
    congr 1
    exact List.map_congr_left fun t _ => String.toList_ofList
  have hparse : ∃ ns, parse nestingLimit ([' '].intercalate (ts.map Tree.text)) = .ok ns ∧
      List.Forall₂ (Node.Stands (some source)) ns ts :=
    Grammar.parse_texts fun t ht => ⟨(hts t ht).1, Nat.le_of_lt_succ (hts t ht).2⟩
  obtain ⟨ns, hparse, hns⟩ := hparse
  obtain ⟨data, hdata, htrees⟩ := Node.toItems_stands hns
  exact ⟨data, by simp only [read, readText, htext, hparse, hdata], htrees⟩

theorem Store.equal_of_trees {s : Store} {vs ws : List Value} {ts : List Tree}
    (hvs : List.Forall₂ s.Unfolds vs ts) (hws : List.Forall₂ s.Unfolds ws ts)
    (hts : ∀ t ∈ ts, t.Admitted nestingLimit) :
    List.Forall₂ (fun v w => s.equal hostRoom v w = .ok true) vs ws := by
  induction hvs generalizing ws with
  | nil =>
    cases hws
    exact .nil
  | cons hv _ ih =>
    cases hws with
    | cons hw hws =>
      obtain ⟨ht, hts⟩ := List.forall_mem_cons.mp hts
      refine .cons ?_ (ih hws hts)
      rw [equal_unfolds hv hw (Nat.lt_trans ht.2 (by decide)), Tree.same_refl]

/-- Whatever a text is read as, the forms in a store are readable, each is printed, and their
texts with a space between them are read as equally many forms, each equal to the one before. -/
theorem reread_printed {source text : String} {data : List Datum}
    (hread : read source text = .ok data) {s s₁ : Store} {forms : List Value}
    (hload : s.loadAll data = (forms, s₁)) :
    (∀ v ∈ forms, ∃ t, s₁.Unfolds v t ∧ t.Legible) ∧
    ∃ texts again, forms.mapM (s₁.print .plain) = .ok texts ∧
      read source (" ".intercalate texts) = .ok again ∧
      List.Forall₂ (fun v w => (s₁.loadAll again).2.equal hostRoom v w = .ok true)
        forms (s₁.loadAll again).1 := by
  obtain ⟨-, hforms⟩ := Store.loadAll_unfolds hload
  have hts : ∀ t ∈ data.map Datum.tree, t.Admitted nestingLimit :=
    List.forall_mem_map.mpr (read_admitted hread)
  refine ⟨fun v hv => ?_, ?_⟩
  · obtain ⟨t, ht, hvt⟩ := Store.unfolds_of_mem hforms hv
    exact ⟨t, hvt, (hts t ht).1⟩
  · obtain ⟨again, hagain, htrees⟩ := read_texts hts source
    obtain ⟨hkeeps, hagain'⟩ := Store.loadAll_unfolds (Prod.eta (s₁.loadAll again)).symm
    rw [htrees] at hagain'
    have hforms' := List.Forall₂.imp (fun _ _ h => h.keeps hkeeps) hforms
    exact ⟨_, again, Store.mapM_print hforms hts, hagain,
      Store.equal_of_trees hforms' hagain' hts⟩

/-- Dotted chains, a symbol for the empty list, padded digits and an escape. -/
def sampleText : String := "(a . (b . (c))) nil -007 \"\\u0041\""

def sampleData : List Datum :=
  let place (column : Int) : Option Location := some ⟨1, column, some "script"⟩
  [.pair (.sym "a") (.pair (.sym "b") (.pair (.sym "c") .nil (place 11)) (place 6)) (place 1),
    .nil, .int (-7), .str "A"]

theorem read_sampleText : read "script" sampleText = .ok sampleData := by
  have hdata : (read "script" sampleText).toOption = some sampleData := by decide +kernel
  cases hr : read "script" sampleText with
  | error e =>
    rw [hr] at hdata
    cases hdata
  | ok data =>
    rw [hr] at hdata
    rw [Option.some.inj hdata]

theorem reread_printed_sample :
    read "script" sampleText = .ok sampleData ∧
    ∃ forms s, Store.empty.loadAll sampleData = (forms, s) ∧ forms.length = 4 ∧
      (∀ v ∈ forms, ∃ t, s.Unfolds v t ∧ t.Legible) ∧
      ∃ texts again, forms.mapM (s.print .plain) = .ok texts ∧
        read "script" (" ".intercalate texts) = .ok again ∧
        List.Forall₂ (fun v w => (s.loadAll again).2.equal hostRoom v w = .ok true)
          forms (s.loadAll again).1 := by
  have hread := read_sampleText
  obtain ⟨hreadable, hagain⟩ := reread_printed hread (Prod.eta (Store.empty.loadAll sampleData)).symm
  exact ⟨hread, _, _, rfl, rfl, hreadable, hagain⟩

end Vau
