import Vau.Proofs.Layout
import Vau.Proofs.RoundTrip

/-! The words of a tree. What a text is read as depends on its tokens alone, so a text that has
the tokens of some trees, in whatever layout, is read as data with these trees. -/

namespace Vau

def Value.tokens : Value → List Token
  | .nil => [.opening, .closing]
  | .str t => [.literal (Quoted.encode t.toList)]
  | v => [.word v.literal]

/-- The tokens between the last element of a list and its end, when the value ends the list. -/
def Value.endingTokens : Value → List Token
  | .nil => [.closing]
  | v => .word ['.'] :: (v.tokens ++ [.closing])

namespace Tree

mutual

/-- The tokens of the text of a tree. -/
def tokens : Tree → List Token
  | .leaf v => v.tokens
  | .node h t => .opening :: (h.tokens ++ t.endingTokens)

def endingTokens : Tree → List Token
  | .leaf v => v.endingTokens
  | .node h t => h.tokens ++ t.endingTokens

end

theorem broken_not_mem_tokens (t : Tree) : .broken ∉ t.tokens ∧ .broken ∉ t.endingTokens := by
  have hleaf : ∀ v : Value, .broken ∉ v.tokens := by
    intro v
    cases v <;> simp [Value.tokens]
  induction t with
  | leaf v =>
    refine ⟨hleaf v, ?_⟩
    cases v <;> simp [endingTokens, Value.endingTokens, hleaf]
  | node h t ihh iht => simp [tokens, endingTokens, ihh.1, iht.2]

/-- Whether a tree has no leaf but such as pass a test. -/
def leaves (p : Value → Bool) : Tree → Bool
  | .leaf v => p v
  | .node h t => h.leaves p && t.leaves p

theorem legible_of_leaves {p : Value → Bool} (hp : ∀ v, p v = true → v.Legible) {t : Tree}
    (h : t.leaves p = true) : t.Legible := by
  induction t with
  | leaf v => exact hp v h
  | node head tail ihh iht =>
    obtain ⟨hhead, htail⟩ := Bool.and_eq_true_iff.mp h
    exact ⟨ihh hhead, iht htail⟩

end Tree

@[simp] theorem Value.literal_sym (name : String) : (Value.sym name).literal = name.toList := rfl

@[simp] theorem Value.literal_ignore : Value.ignore.literal = "#ignore".toList := rfl

@[simp] theorem Value.literal_inert : Value.inert.literal = "#inert".toList := rfl

section Tokens

variable {rest : List Char}

theorem tokens_space (rest : List Char) : tokens (' ' :: rest) = tokens rest := rfl

theorem tokens_close (rest : List Char) : tokens (')' :: rest) = .closing :: tokens rest := rfl

theorem tokens_literal {v : Value} (hv : v.Legible) (hrest : Grammar.atBoundary rest = true) :
    tokens (v.literal ++ rest) = v.tokens ++ tokens rest := by
  by_cases hnil : v = .nil
  · subst hnil
    rfl
  by_cases hstr : ∃ t, v = .str t
  · obtain ⟨t, rfl⟩ := hstr
    have hbody := Grammar.string_encode t.toList rest
    simp only [Quoted.encode, List.cons_append, Grammar.string, Option.map_eq_some_iff] at hbody
    obtain ⟨⟨taken, left⟩, hbody, heq⟩ := hbody
    obtain ⟨htaken, rfl⟩ := Prod.mk.inj heq
    show tokens (Quoted.encode t.toList ++ left) = .literal (Quoted.encode t.toList) :: tokens left
    rw [Quoted.encode, List.cons_append, tokens_cons]
    show Token.scan (.literal ['"']) _ = _
    rw [Grammar.scan_literal, hbody]
    simp [← List.cons.inj htaken]
  have hword := Grammar.isWord_literal hv hnil (not_exists.mp hstr)
  have htokens : v.tokens = [.word v.literal] := by
    cases v with
    | nil => exact absurd rfl hnil
    | str t => exact absurd ⟨t, rfl⟩ hstr
    | _ => rfl
  rw [htokens, Grammar.tokens_word hword hrest, List.singleton_append]

theorem tokens_ending_leaf {v : Value} (hv : v.Legible) (rest : List Char) :
    tokens ((Tree.leaf v).ending ++ rest) = v.endingTokens ++ tokens rest := by
  by_cases hnil : v = .nil
  · subst hnil
    rfl
  have htokens : v.endingTokens = .word ['.'] :: (v.tokens ++ [.closing]) := by
    cases v with
    | nil => exact absurd rfl hnil
    | _ => rfl
  have hdot : Grammar.IsWord ['.'] := ⟨by decide, Grammar.plain_of_all (by decide)⟩
  have hclose := tokens_literal hv (Grammar.atBoundary_close rest)
  rw [Grammar.ending_leaf hnil, htokens]
  simp only [List.cons_append, List.append_assoc, List.nil_append, tokens_space]
  rw [show '.' :: ' ' :: (v.literal ++ ')' :: rest) =
    ['.'] ++ ' ' :: (v.literal ++ ')' :: rest) from rfl, Grammar.tokens_word hdot rfl, tokens_space, hclose,
    tokens_close]

/-- The text of a tree has the tokens of the tree, and so has what ends a list. -/
theorem tokens_text {t : Tree} (ht : t.Legible) :
    (∀ rest, Grammar.atBoundary rest = true → tokens (t.text ++ rest) = t.tokens ++ tokens rest) ∧
      ∀ rest, tokens (t.ending ++ rest) = t.endingTokens ++ tokens rest := by
  induction t with
  | leaf v => exact ⟨fun rest hrest => tokens_literal ht hrest, tokens_ending_leaf ht⟩
  | node h t ihh iht =>
    have hinside : ∀ rest, tokens (h.text ++ (t.ending ++ rest)) =
        h.tokens ++ (t.endingTokens ++ tokens rest) := by
      intro rest
      rw [(ihh ht.1).1 _ (Grammar.atBoundary_ending t rest), (iht ht.2).2]
    constructor
    · intro rest _
      show Token.opening :: tokens ((h.text ++ t.ending) ++ rest) = _
      simp only [List.append_assoc, hinside, Tree.tokens, List.cons_append]
    · intro rest
      show tokens ((h.text ++ t.ending) ++ rest) = _
      simp only [List.append_assoc, hinside, Tree.endingTokens]

theorem tokens_texts {ts : List Tree} (hts : ∀ t ∈ ts, t.Legible) :
    tokens ([' '].intercalate (ts.map Tree.text)) = ts.flatMap Tree.tokens := by
  induction ts with
  | nil => rfl
  | cons t ts ih =>
    obtain ⟨ht, hts⟩ := List.forall_mem_cons.mp hts
    have ih := ih hts
    cases ts with
    | nil => simpa [List.intercalate, show tokens [] = [] from rfl] using (tokens_text ht).1 [] rfl
    | cons u us =>
      rw [List.map_cons, List.map_cons, List.intercalate_cons_cons, ← List.map_cons,
        List.append_assoc, (tokens_text ht).1 _ rfl, List.flatMap_cons]
      exact congrArg _ ih

end Tokens

/-- A text that has the tokens of legible trees is read as data with these trees. -/
theorem read_tokens {text : String} {ts : List Tree} (h : tokens text.toList = ts.flatMap Tree.tokens)
    (hts : ∀ t ∈ ts, t.Legible ∧ t.depth < nestingLimit) (source : String) :
    ∃ data, read source text = .ok data ∧ data.map Datum.tree = ts := by
  obtain ⟨ns, hparse, hstands⟩ : ∃ ns, parse nestingLimit ([' '].intercalate (ts.map Tree.text)) =
      .ok ns ∧ List.Forall₂ (Node.Stands (some source)) ns ts :=
    Grammar.parse_texts fun t ht => ⟨(hts t ht).1, Nat.le_of_lt_succ (hts t ht).2⟩
  obtain ⟨data, hitems, htrees⟩ : ∃ data, Node.toItems (some source) ns = .ok data ∧
      data.map Datum.tree = ts := by
    clear hparse h hts
    induction hstands with
    | nil => exact ⟨[], rfl, rfl⟩
    | cons hn _ ih =>
      obtain ⟨-, d, hd, rfl⟩ := hn
      obtain ⟨ds, hds, rfl⟩ := ih
      exact ⟨d :: ds, by rw [Node.toItems, hd, hds]; rfl, rfl⟩
  have hread : read source (String.ofList ([' '].intercalate (ts.map Tree.text))) = .ok data := by
    rw [read, readText, String.toList_ofList, hparse]
    exact hitems
  have htokens : tokens text.toList =
      tokens (String.ofList ([' '].intercalate (ts.map Tree.text))).toList := by
    rw [h, String.toList_ofList, tokens_texts fun t ht => (hts t ht).1]
  obtain ⟨data', hdata', hsame⟩ := read_alike htokens hread
  refine ⟨data', hdata', ?_⟩
  have htree : ∀ d : Datum, d.unplaced.tree = d.tree := by
    intro d
    induction d with
    | pair head tail l ihh iht => rw [Datum.unplaced, Datum.tree, Datum.tree, ihh, iht]
    | group items ih => exact ih
    | _ => rfl
  have hmap := congrArg (List.map Datum.tree) hsame
  simpa only [List.map_map, Function.comp_def, htree, htrees] using hmap

namespace Token

/-- A line that leaves no string literal open is scanned apart from what follows it. -/
theorem scan_line (mode : Mode) (line rest : List Char) (h : .broken ∉ scan mode line) :
    scan mode (line ++ '\n' :: rest) = scan mode line ++ tokens rest := by
  induction line generalizing mode with
  | nil =>
    cases mode with
    | between | comment | word seen => rfl
    | literal seen | escape seen | broken => exact absurd (List.mem_singleton.mpr rfl) h
  | cons c cs ih =>
    simp only [scan, List.mem_append, not_or] at h
    simp only [List.cons_append, scan, ih _ h.2, List.append_assoc]

end Token

/-- Texts with no string literal left open, on lines of their own, are read one after another. -/
theorem tokens_lines {texts : List (List Char)} (h : ∀ text ∈ texts, .broken ∉ tokens text) :
    tokens (['\n', '\n'].intercalate texts) = texts.flatMap tokens := by
  induction texts with
  | nil => rfl
  | cons text texts ih =>
    obtain ⟨htext, htexts⟩ := List.forall_mem_cons.mp h
    have ih := ih htexts
    cases texts with
    | nil => simp [List.intercalate]
    | cons u us =>
      rw [List.intercalate_cons_cons, List.append_assoc, List.flatMap_cons]
      show Token.scan .between (text ++ '\n' :: '\n' :: _) = _
      rw [Token.scan_line _ _ _ htext]
      exact congrArg _ ih

end Vau
