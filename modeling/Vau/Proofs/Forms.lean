import Vau.Proofs.Children
import Vau.Proofs.Derivation

/-! Forms. A text with a derivation within the limit on nesting is read as the data that the
derivation stands for, unless it has a dotted list without a head or a string literal that is no
string. -/

namespace Vau

/-- The integer that a numeral denotes. -/
def numeralValue : List Char → Int
  | '-' :: ds => -(digitsValue ds : Int)
  | '+' :: ds => digitsValue ds
  | ds => digitsValue ds

theorem readDecimal?_numeral {x : List Char} (hx : isNumeral x = true)
    (hlimit : x.countP Char.isDigit ≤ digitLimit) : readDecimal? x = some (numeralValue x) := by
  have hdigits : ∀ {ds : List Char}, (!ds.isEmpty && ds.all Char.isDigit) = true →
      ds.countP Char.isDigit ≤ digitLimit → readDigits? ds = some (digitsValue ds) := by
    intro ds hds hle
    obtain ⟨hne, hall⟩ := Bool.and_eq_true_iff.mp hds
    rw [List.countP_eq_length.mpr (List.all_eq_true.mp hall)] at hle
    exact if_pos ⟨by simpa using hne, hall, hle⟩
  unfold isNumeral at hx
  split at hx
  · rename_i ds
    rw [List.countP_cons_of_neg (by decide)] at hlimit
    rw [readDecimal?, hdigits hx hlimit]
    rfl
  · rename_i ds
    rw [List.countP_cons_of_neg (by decide)] at hlimit
    rw [readDecimal?, hdigits hx hlimit]
    rfl
  · rename_i hplus hminus
    rw [readDecimal?.eq_3 x hminus hplus, hdigits hx hlimit, numeralValue.eq_3 x hminus hplus]
    rfl

theorem isNumeral_of_kind? {x : List Char} (h : Grammar.kind? x = some .integer) :
    isNumeral x = true := by
  unfold Grammar.kind? at h
  split at h
  · assumption
  · repeat' split at h
    all_goals cases h

namespace Node

mutual

/-- The datum that the parse tree of one stands for. -/
def form : Node → Datum
  | .tree .integer text _ _ => .int (numeralValue text.toList)
  | .tree .string text _ _ =>
    match Quoted.decode text.toList with
    | .ok content => .str (String.ofList content)
    | .error _ => .nil
  | .tree .boolean text _ _ => .bool (text = "#t" ∨ text = "#true")
  | .tree .constant text _ _ => if text = "#ignore" then .ignore else .inert
  | .tree .nil _ _ _ => .nil
  | .tree .symbol text _ _ => .sym text
  | .tree .list _ _ children => chain children
  | _ => .nil

/-- The pairs of a list, which a dotted tail ends. -/
def chain : List Node → Datum
  | [] => .nil
  | [.tree .tail _ _ [n]] => n.form
  | n :: rest => .pair n.form (chain rest) none

end

/-- Somewhere in the parse tree a dotted list has no element before the dot, or a string literal
is refused. -/
inductive Flawed : Node → Prop
  | headless {text text' : String} {o o' : Origin} {children : List Node} :
    Flawed (.tree .list text o [.tree .tail text' o' children])
  | string {text : String} {o : Origin} {children : List Node} {flaw : Flaw}
    (h : Quoted.decode text.toList = .error flaw) : Flawed (.tree .string text o children)
  | inside {tag : Tag} {text : String} {o : Origin} {children : List Node} {n : Node}
    (hn : n ∈ children) (h : n.Flawed) : Flawed (.tree tag text o children)

/-- Somewhere in the parse tree an integer has more digits than are read. -/
inductive Overlong : Node → Prop
  | integer {text : String} {o : Origin} {children : List Node}
    (h : digitLimit < text.toList.countP Char.isDigit) : Overlong (.tree .integer text o children)
  | inside {tag : Tag} {text : String} {o : Origin} {children : List Node} {n : Node}
    (hn : n ∈ children) (h : n.Overlong) : Overlong (.tree tag text o children)

end Node

/-- What is wrong with a text that has a derivation but is not read. -/
inductive ReadError.InForm : ReadError → Prop
  | noHead (o : Origin) : InForm (.noHead o)
  | badString (text : String) (o : Origin) (flaw : Flaw) : InForm (.badString text o flaw)

namespace Node

variable {source : Option String} {ns ms : List Node} {text text' : String} {o o' : Origin}
  {n m : Node}

theorem overlong_tree {tag : Tag} {children : List Node} :
    (Node.tree tag text o children).Overlong ↔
      (tag = .integer ∧ digitLimit < text.toList.countP Char.isDigit) ∨
        ∃ n ∈ children, n.Overlong := by
  constructor
  · intro h
    cases h with
    | integer h => exact .inl ⟨rfl, h⟩
    | inside hn h => exact .inr ⟨_, hn, h⟩
  · rintro (⟨rfl, h⟩ | ⟨n, hn, h⟩)
    · exact .integer h
    · exact .inside hn h

theorem flawed_tree {tag : Tag} {children : List Node} :
    (Node.tree tag text o children).Flawed ↔
      (tag = .list ∧ ∃ text' o' cs, children = [.tree .tail text' o' cs]) ∨
        (tag = .string ∧ ∃ flaw, Quoted.decode text.toList = .error flaw) ∨
          ∃ n ∈ children, n.Flawed := by
  constructor
  · intro h
    cases h with
    | headless => exact .inl ⟨rfl, _, _, _, rfl⟩
    | string h => exact .inr (.inl ⟨rfl, _, h⟩)
    | inside hn h => exact .inr (.inr ⟨_, hn, h⟩)
  · rintro (⟨rfl, text', o', cs, rfl⟩ | ⟨rfl, flaw, h⟩ | ⟨n, hn, h⟩)
    · exact .headless
    · exact .string h
    · exact .inside hn h

section Proper

variable (hns : ∀ n ∈ ns, n.isTail = false)
include hns

theorem chain_proper :
    chain ns = (ns.map form).foldr (fun d t => Datum.pair d t none) .nil := by
  induction ns with
  | nil => rfl
  | cons n ns ih =>
    obtain ⟨hn, hns⟩ := List.forall_mem_cons.mp hns
    rw [chain.eq_3, ih hns]
    · rfl
    · rintro _ _ _ rfl
      cases hn

theorem chain_dotted : chain (ns ++ [.tree .tail text o [m]]) =
    (ns.map form).foldr (fun d t => Datum.pair d t none) m.form := by
  induction ns with
  | nil => simp [chain]
  | cons n ns ih =>
    obtain ⟨hn, hns⟩ := List.forall_mem_cons.mp hns
    rw [List.cons_append, chain.eq_3, ih hns]
    · rfl
    · rintro _ _ _ rfl
      cases hn

theorem flawed_proper : (Node.tree .list text o ns).Flawed ↔ ∃ n ∈ ns, n.Flawed := by
  rw [flawed_tree]
  constructor
  · rintro (⟨-, text', o', cs, rfl⟩ | ⟨htag, -⟩ | h)
    · cases List.forall_mem_singleton.mp hns
    · cases htag
    · exact h
  · exact fun h => .inr (.inr h)

end Proper

theorem flawed_dotted (hne : ns ≠ []) :
    (Node.tree .list text o (ns ++ [.tree .tail text' o' [n]])).Flawed ↔
      (∃ n ∈ ns, n.Flawed) ∨ n.Flawed := by
  have htail : (Node.tree .tail text' o' [n]).Flawed ↔ n.Flawed := by simp [flawed_tree]
  rw [flawed_tree, ← htail]
  constructor
  · rintro (⟨-, _, _, _, h⟩ | ⟨htag, -⟩ | ⟨m, hm, h⟩)
    · exact absurd (by simpa using congrArg List.length h) hne
    · cases htag
    · rcases List.mem_append.mp hm with hm | hm
      · exact .inl ⟨m, hm, h⟩
      · exact .inr (List.mem_singleton.mp hm ▸ h)
  · rintro (⟨m, hm, h⟩ | h)
    · exact .inr (.inr ⟨m, List.mem_append_left _ hm, h⟩)
    · exact .inr (.inr ⟨_, List.mem_append_right _ List.mem_cons_self, h⟩)

/-- The outcome of converting what stands for `value` unless it is flawed. -/
inductive Converted {α β : Type} (flawed : Prop) (strip : α → β) (value : β) :
    Except Refusal α → Prop
  | form {a : α} (hsound : ¬ flawed) (h : strip a = value) : Converted flawed strip value (.ok a)
  | flaw {e : ReadError} (hflawed : flawed) (h : e.InForm) :
    Converted flawed strip value (.error (.error e))

theorem of_unplaced_tree {tag : Tag} {children : List Node}
    (h : m.unplaced = .tree tag text {} children) :
    ∃ o cs, m = .tree tag text o cs ∧ unplacedAll cs = children := by
  cases m with
  | tree tag' text' o cs =>
    cases h
    exact ⟨o, cs, rfl, rfl⟩
  | _ => cases h

theorem of_unplacedAll_cons (h : unplacedAll ms = n :: ns) :
    ∃ m ms', ms = m :: ms' ∧ m.unplaced = n ∧ unplacedAll ms' = ns := by
  rw [unplacedAll_eq_map] at h
  obtain ⟨m, ms', rfl, hm, hms⟩ := List.map_eq_cons_iff.mp h
  exact ⟨m, ms', rfl, hm, (unplacedAll_eq_map ms').trans hms⟩

theorem of_unplaced_dotted
    (h : m.unplaced = .tree .list text {} (ns ++ [.tree .tail text' {} [n]])) :
    ∃ o p ms m', m = .tree .list text o (ms ++ [.tree .tail text' p [m']]) ∧
      unplacedAll ms = ns ∧ m'.unplaced = n := by
  obtain ⟨o, cs, rfl, hcs⟩ := of_unplaced_tree h
  rw [unplacedAll_eq_map, List.map_eq_append_iff] at hcs
  obtain ⟨ms, tail, rfl, hms, htail⟩ := hcs
  obtain ⟨t, rfl, ht⟩ := List.map_eq_singleton_iff.mp htail
  obtain ⟨p, ds, rfl, hds⟩ := of_unplaced_tree ht
  rw [unplacedAll_eq_map] at hds
  obtain ⟨m', rfl, hm'⟩ := List.map_eq_singleton_iff.mp hds
  exact ⟨o, p, ms, m', rfl, (unplacedAll_eq_map ms).trans hms, hm'⟩

theorem isTail_unplaced (n : Node) : n.unplaced.isTail = n.isTail := by
  rw [unplaced_eq, isTail_moved]

theorem isTail_of_unplacedAll (h : unplacedAll ms = ns) (hns : ∀ n ∈ ns, n.isTail = false) :
    ∀ m ∈ ms, m.isTail = false := by
  rw [unplacedAll_eq_map] at h
  intro m hm
  rw [← isTail_unplaced]
  exact hns _ (h ▸ List.mem_map_of_mem hm)

theorem listAt_unplaced (l : Option Location) (ds : List Datum) (tail : Datum) :
    (Datum.listAt l ds tail).unplaced =
      Datum.listAt none (ds.map Datum.unplaced) tail.unplaced := by
  rw [funext Datum.unplaced_eq, Datum.listAt_moved rfl]

theorem converted_atom {tag : Tag} {x : List Char} (hvalid : (Lexeme.atom tag x).Valid)
    (hlong : ¬ (Node.tree tag (String.ofList x) {} []).Overlong) :
    Converted (Node.tree tag (String.ofList x) {} []).Flawed Datum.unplaced
      (Node.tree tag (String.ofList x) {} []).form
      (toDatum source (.tree tag (String.ofList x) o [])) := by
  have hflawed : (Node.tree tag (String.ofList x) {} []).Flawed ↔
      tag = .string ∧ ∃ flaw, Quoted.decode (String.ofList x).toList = .error flaw := by
    simp [flawed_tree]
  have hsound : tag ≠ .string → ¬ (Node.tree tag (String.ofList x) {} []).Flawed :=
    fun htag h => htag (hflawed.mp h).1
  have hmem := hvalid.tag_mem
  simp only [List.mem_cons, List.not_mem_nil, or_false] at hmem
  rcases hmem with rfl | rfl | rfl | rfl | rfl | rfl <;> rw [toDatum]
  case inl =>
    have hnumeral : isNumeral x = true :=
      isNumeral_of_kind? (hvalid.kind.resolve_left Tag.noConfusion)
    have hlimit : x.countP Char.isDigit ≤ digitLimit := by
      refine Nat.le_of_not_lt fun h => hlong (.integer ?_)
      rwa [String.toList_ofList]
    rw [integer, String.toList_ofList, readDecimal?_numeral hnumeral hlimit]
    refine .form (hsound Tag.noConfusion) ?_
    rw [form, String.toList_ofList]
    rfl
  case inr.inl =>
    rw [string]
    cases hdecode : Quoted.decode (String.ofList x).toList with
    | error flaw => exact .flaw (.string hdecode) (.badString _ o flaw)
    | ok content =>
      refine .form (fun h => ?_) (by rw [form, hdecode]; rfl)
      obtain ⟨-, flaw, h⟩ := hflawed.mp h
      rw [hdecode] at h
      cases h
  all_goals refine .form (hsound Tag.noConfusion) ?_
  case inr.inr.inl =>
    rw [form, Bool.decide_or]
    rfl
  case inr.inr.inr.inl =>
    rw [form]
    split <;> rfl
  all_goals
    rw [form]
    rfl

/-- The children of a list are converted to its elements. -/
def ConvertedAll (source : Option String) (ns ms : List Node) : Prop :=
  Converted (∃ n ∈ ns, n.Flawed) (List.map Datum.unplaced) (ns.map form) (toItems source ms)

theorem convertedAll_cons {ns ms : List Node}
    (h : Converted n.Flawed Datum.unplaced n.form (toDatum source m))
    (hrest : ConvertedAll source ns ms) : ConvertedAll source (n :: ns) (m :: ms) := by
  unfold ConvertedAll at hrest ⊢
  rw [toItems]
  generalize toDatum source m = r, toItems source ms = r' at h hrest
  cases h with
  | flaw hflawed he => exact .flaw ⟨n, List.mem_cons_self, hflawed⟩ he
  | form hsound hd =>
    cases hrest with
    | flaw hflawed he =>
      obtain ⟨n', hn', hflawed⟩ := hflawed
      exact .flaw ⟨n', List.mem_cons_of_mem _ hn', hflawed⟩ he
    | form hsound' hds =>
      refine .form ?_ (by rw [List.map_cons, List.map_cons, hd, hds])
      rintro ⟨n', hn', hflawed⟩
      rcases List.mem_cons.mp hn' with rfl | hn'
      · exact hsound hflawed
      · exact hsound' ⟨n', hn', hflawed⟩

theorem converted_of_all (h : ConvertedAll source [n] [m]) :
    Converted n.Flawed Datum.unplaced n.form (toDatum source m) := by
  unfold ConvertedAll at h
  rw [toItems, toItems] at h
  cases hm : toDatum source m with
  | error e =>
    rw [hm] at h
    cases h with
    | flaw hflawed he => exact .flaw (by simpa using hflawed) he
  | ok d =>
    rw [hm] at h
    cases h with
    | form hsound hd => exact .form (by simpa using hsound) (List.cons.inj hd).1

section Lists

variable (hns : ∀ n ∈ ns, n.isTail = false) (hms : ∀ m ∈ ms, m.isTail = false)
  (hall : ConvertedAll source ns ms)
include hns hms hall

theorem converted_list : Converted (Node.tree .list text o ns).Flawed Datum.unplaced
    (Node.tree .list text o ns).form (toDatum source (.tree .list text' o' ms)) := by
  unfold ConvertedAll at hall
  rw [toDatum, checkTail_proper hms, toEnding_proper hms, toElements_proper hms, flawed_proper hns,
    form, chain_proper hns]
  generalize toItems source ms = r at hall
  cases hall with
  | flaw hflawed he => exact .flaw hflawed he
  | @form ds hsound hds =>
    refine .form hsound ?_
    rw [listAt_unplaced, hds]
    cases ns <;> rfl

theorem converted_dotted (h : ConvertedAll source [n] [m]) (hone : ns = [] ↔ ms = [])
    {t t' : String} {p p' : Origin} :
    Converted (Node.tree .list text o (ns ++ [.tree .tail t p [n]])).Flawed Datum.unplaced
      (Node.tree .list text o (ns ++ [.tree .tail t p [n]])).form
      (toDatum source (.tree .list text' o' (ms ++ [.tree .tail t' p' [m]]))) := by
  by_cases hne : ns = []
  · obtain rfl := hone.mp hne
    subst hne
    rw [toDatum]
    exact .flaw .headless (.noHead o')
  have hlast := converted_of_all h
  unfold ConvertedAll at hall
  rw [toDatum, checkTail_dotted (fun hm => hne (hone.mpr hm)), toEnding_dotted hms,
    toElements_dotted hms, flawed_dotted hne, form, chain_dotted hns]
  generalize toDatum source m = r, toItems source ms = r' at hlast hall
  cases hlast with
  | flaw hflawed he => exact .flaw (.inr hflawed) he
  | form hsound hd =>
    cases hall with
    | flaw hflawed he => exact .flaw (.inl hflawed) he
    | form hsound' hds =>
      refine .form (not_or.mpr ⟨hsound', hsound⟩) ?_
      rw [listAt_unplaced, hds, hd]
      cases ns with
      | nil => exact absurd rfl hne
      | cons _ _ => rfl

end Lists

end Node

namespace Grammar

open Node

theorem Derives.isTail {ls : List Lexeme} {ns : List Node} (h : Derives ls ns)
    (hvalid : ∀ l ∈ ls, l.Valid) : ∀ n ∈ ns, n.isTail = false := by
  induction h with
  | done => simp
  | atom tag text _ ih =>
    obtain ⟨hatom, hvalid⟩ := List.forall_mem_cons.mp hvalid
    refine List.forall_mem_cons.mpr ⟨?_, ih hvalid⟩
    have hmem := hatom.tag_mem
    cases tag with
    | tail => exact absurd hmem (by decide)
    | _ => rfl
  | list _ _ _ ih =>
    exact List.forall_mem_cons.mpr ⟨rfl, ih (Lexeme.forall_valid_list.mp hvalid).2⟩
  | dotted _ _ _ _ _ ih =>
    exact List.forall_mem_cons.mpr ⟨rfl, ih (Lexeme.forall_valid_dotted.mp hvalid).2.2⟩

/-- The parse trees of derived data are converted to what the derivation stands for. -/
theorem converted_of_derives {source : Option String} {ls : List Lexeme} {ns ms : List Node}
    (h : Derives ls ns) (hvalid : ∀ l ∈ ls, l.Valid) (hlong : ∀ n ∈ ns, ¬ n.Overlong)
    (hms : unplacedAll ms = ns) : ConvertedAll source ns ms := by
  induction h generalizing ms with
  | done =>
    obtain rfl : ms = [] := by rwa [unplacedAll_eq_map, List.map_eq_nil_iff] at hms
    rw [ConvertedAll, toItems]
    exact .form (by simp) rfl
  | atom tag text _ ih =>
    obtain ⟨hatom, hvalid⟩ := List.forall_mem_cons.mp hvalid
    obtain ⟨hover, hlong⟩ := List.forall_mem_cons.mp hlong
    obtain ⟨m, ms, rfl, hm, hrest⟩ := of_unplacedAll_cons hms
    obtain ⟨o, cs, rfl, hcs⟩ := of_unplaced_tree hm
    obtain rfl : cs = [] := by rwa [unplacedAll_eq_map, List.map_eq_nil_iff] at hcs
    exact convertedAll_cons (converted_atom hatom hover) (ih hvalid hlong hrest)
  | @list inner rest ns _ hinner _ ihinner ihrest =>
    obtain ⟨hover, hlong⟩ := List.forall_mem_cons.mp hlong
    obtain ⟨m, ms, rfl, hm, hrest⟩ := of_unplacedAll_cons hms
    obtain ⟨o, cs, rfl, hcs⟩ := of_unplaced_tree hm
    obtain ⟨hvalid, hothers⟩ := Lexeme.forall_valid_list.mp hvalid
    have hns := hinner.isTail hvalid
    have hitems := ihinner hvalid (fun n hn h => hover (.inside hn h)) hcs
    exact convertedAll_cons (converted_list hns (isTail_of_unplacedAll hcs hns) hitems)
      (ihrest hothers hlong hrest)
  | @dotted inner last rest ns _ n hinner _ _ ihinner ihlast ihrest =>
    obtain ⟨hover, hlong⟩ := List.forall_mem_cons.mp hlong
    obtain ⟨m, ms, rfl, hm, hrest⟩ := of_unplacedAll_cons hms
    obtain ⟨o, p, cs, m', rfl, hcs, hm'⟩ := of_unplaced_dotted hm
    obtain ⟨hvalid, hvalid', hothers⟩ := Lexeme.forall_valid_dotted.mp hvalid
    have hns := hinner.isTail hvalid
    have hover' : ¬ n.Overlong := fun h => hover (.inside (List.mem_append_right _ List.mem_cons_self)
      (.inside List.mem_cons_self h))
    have hitems := ihinner hvalid (fun n hn h => hover (.inside (List.mem_append_left _ hn) h)) hcs
    have htail := ihlast hvalid' (List.forall_mem_singleton.mpr hover')
      (by rw [unplacedAll_eq_map, List.map_singleton, hm'] : unplacedAll [m'] = [n])
    have hone : ns = [] ↔ cs = [] := by rw [← hcs, unplacedAll_eq_map, List.map_eq_nil_iff]
    exact convertedAll_cons (converted_dotted hns (isTail_of_unplacedAll hcs hns) hitems htail hone)
      (ihrest hothers hlong hrest)

theorem error_of_parse {room : Nat} {text : List Char} {e : ReadError}
    (h : parse room text = .error e) : (∃ p rest, e = .unconsumed p rest) ∨ e = .tooDeep := by
  unfold parse at h
  split at h
  · split at h
    · cases h
    · cases h
      exact .inl ⟨_, _, rfl⟩
  · cases h
    exact .inr rfl

end Grammar

open Grammar

variable {source : String} {text : List Char}

theorem parse_iff {room : Nat} : (∃ nodes, parse room text = .ok nodes) ↔
    ∃ ns, Derivation text ns ∧ Node.nestingAll ns ≤ room := by
  constructor
  · rintro ⟨nodes, h⟩
    exact ⟨_, derivation_of_parse h⟩
  · rintro ⟨ns, h, hroom⟩
    obtain ⟨nodes, hparse, -⟩ := parse_of_derivation h hroom
    exact ⟨nodes, hparse⟩

theorem readText_of_derivation {ns : List Node} (h : Derivation text ns)
    (hroom : Node.nestingAll ns ≤ nestingLimit) (hlong : ∀ n ∈ ns, ¬ n.Overlong) :
    Node.Converted (∃ n ∈ ns, n.Flawed) (List.map Datum.unplaced) (ns.map Node.form)
      (readText source text) := by
  obtain ⟨nodes, hparse, hns⟩ := parse_of_derivation h hroom
  obtain ⟨ls, hlexes, hderives⟩ := h
  rw [readText, hparse]
  exact converted_of_derives hderives (lexes_iff.mp hlexes).2 hlong hns

theorem readText_refused (h : ¬ ∃ ns, Derivation text ns ∧ Node.nestingAll ns ≤ nestingLimit) :
    ∃ e, readText source text = .error (.error e) ∧ ¬ e.InForm := by
  rw [← parse_iff] at h
  rw [readText]
  cases hparse : parse nestingLimit text with
  | ok nodes => exact absurd ⟨nodes, hparse⟩ h
  | error e =>
    refine ⟨e, rfl, fun hform => ?_⟩
    rcases error_of_parse hparse with ⟨p, rest, rfl⟩ | rfl <;> cases hform

/-- A text is parsed if and only if it has a derivation within the limit on nesting, the parse is
the derivation, and there is no other. What is read is then what the derivation stands for, unless
an integer has too many digits, a dotted list has no head or a string literal is refused. -/
theorem read_derivation (text : String) :
    (∀ room, (∃ nodes, parse room text.toList = .ok nodes) ↔
      ∃ ns, Derivation text.toList ns ∧ Node.nestingAll ns ≤ room) ∧
    (∀ room nodes, parse room text.toList = .ok nodes →
      Derivation text.toList (Node.unplacedAll nodes)) ∧
    (∀ ns ms, Derivation text.toList ns → Derivation text.toList ms → ns = ms) ∧
    (∀ source ns, Derivation text.toList ns → Node.nestingAll ns ≤ nestingLimit →
      (∀ n ∈ ns, ¬ n.Overlong) →
        ((∀ n ∈ ns, ¬ n.Flawed) → ∃ data, read source text = .ok data ∧
          data.map Datum.unplaced = ns.map Node.form) ∧
        ((∃ n ∈ ns, n.Flawed) → ∃ e, read source text = .error (.error e) ∧ e.InForm)) ∧
    (∀ source, (¬ ∃ ns, Derivation text.toList ns ∧ Node.nestingAll ns ≤ nestingLimit) →
      ∃ e, read source text = .error (.error e) ∧ ¬ e.InForm) := by
  refine ⟨fun room => parse_iff, fun room nodes h => (derivation_of_parse h).1,
    fun ns ms h h' => h.unique h', fun source ns h hroom hlong => ?_,
    fun source h => readText_refused h⟩
  have hread : Node.Converted _ _ _ (read source text) := readText_of_derivation h hroom hlong
  generalize read source text = r at hread
  cases hread with
  | form hsound hds =>
    exact ⟨fun _ => ⟨_, rfl, hds⟩, fun hflawed => absurd hflawed hsound⟩
  | flaw hflawed he =>
    refine ⟨fun hsound => ?_, fun _ => ⟨_, rfl, he⟩⟩
    obtain ⟨n, hn, hflawed⟩ := hflawed
    exact absurd hflawed (hsound n hn)

/-- A word ends where a string literal begins, and a sign after a digit makes a symbol. -/
def dottedText : String := "(a.\"x\" . 1+) ; ("

def dottedTree : Node :=
  .tree .list "" {} [.tree .symbol "a." {} [], .tree .string "\"x\"" {} [],
    .tree .tail "" {} [.tree .symbol "1+" {} []]]

def headlessTree : Node := .tree .list "" {} [.tree .tail "" {} [.tree .boolean "#t" {} []]]

theorem derivation_dotted : Derivation dottedText.toList [dottedTree] :=
  ⟨[.opening, .atom .symbol "a.".toList, .atom .string "\"x\"".toList, .dot,
      .atom .symbol "1+".toList, .closing],
    lexes_iff.mpr ⟨by decide, by decide⟩,
    .dotted (.atom .symbol "a.".toList (.atom .string "\"x\"".toList .done))
      (.atom .symbol "1+".toList .done) .done⟩

theorem derivation_headless : Derivation "(. #t)".toList [headlessTree] :=
  ⟨[.opening, .dot, .atom .boolean "#t".toList, .closing],
    lexes_iff.mpr ⟨by decide, by decide⟩,
    .dotted .done (.atom .boolean "#t".toList .done) .done⟩

theorem read_derivation_dotted :
    (Derivation dottedText.toList [dottedTree] ∧ Node.nestingAll [dottedTree] ≤ nestingLimit ∧
      ¬ dottedTree.Overlong ∧ ¬ dottedTree.Flawed ∧
      ∃ data, read "script" dottedText = .ok data ∧ data.map Datum.unplaced =
        [.pair (.sym "a.") (.pair (.str "x") (.sym "1+") none) none]) ∧
    (Derivation "(. #t)".toList [headlessTree] ∧ headlessTree.Flawed ∧
      ∃ e, read "script" "(. #t)" = .error (.error e) ∧ e.InForm) ∧
    (¬ (∃ ns, Derivation "#tt".toList ns ∧ Node.nestingAll ns ≤ nestingLimit) ∧
      ∃ e, read "script" "#tt" = .error (.error e) ∧ ¬ e.InForm) := by
  obtain ⟨-, -, -, hread, -⟩ := read_derivation dottedText
  obtain ⟨-, -, -, hheadless, -⟩ := read_derivation "(. #t)"
  obtain ⟨hparsed, -, -, -, hrefused⟩ := read_derivation "#tt"
  have hlong : ¬ dottedTree.Overlong := by simp [dottedTree, Node.overlong_tree]
  have hlong' : ¬ headlessTree.Overlong := by simp [headlessTree, Node.overlong_tree]
  have hsound : ¬ dottedTree.Flawed := by
    have hdecode : Quoted.decode ['"', 'x', '"'] = .ok ['x'] := by decide
    simp [dottedTree, Node.flawed_tree, hdecode]
  have hflawed : headlessTree.Flawed := .headless
  have hnone : ¬ ∃ ns, Derivation "#tt".toList ns ∧ Node.nestingAll ns ≤ nestingLimit := by
    rw [← hparsed]
    rintro ⟨nodes, h⟩
    have herror : (parse nestingLimit "#tt".toList).toOption.isSome = false := by decide +kernel
    rw [h] at herror
    cases herror
  refine ⟨⟨derivation_dotted, by decide, hlong, hsound, ?_⟩,
    ⟨derivation_headless, hflawed, ?_⟩, ⟨hnone, hrefused "script" hnone⟩⟩
  · exact (hread "script" _ derivation_dotted (by decide) (by simpa using hlong)).1 (by simpa using hsound)
  · exact (hheadless "script" _ derivation_headless (by decide) (by simpa using hlong')).2
      ⟨_, List.mem_cons_self, hflawed⟩

end Vau
