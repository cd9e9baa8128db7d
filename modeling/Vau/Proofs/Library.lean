import Vau.Prelude
import Vau.Proofs.Wording

/-! The definitions of the prelude as trees, in the order in which they are evaluated, and the text
of the prelude read as the forms that make them. -/

namespace Vau

namespace Tree

def sym (name : String) : Tree := .leaf (.sym name)

instance : Coe String Tree := ⟨sym⟩

def dotted (ts : List Tree) (last : Tree) : Tree := ts.foldr .node last

def list (ts : List Tree) : Tree := dotted ts (.leaf .nil)

end Tree

/-- What a name of the prelude is defined as: an operative, the applicative around one, a procedure
of `$lambda`, or whatever another name is bound to. Every body is one form. -/
inductive Code where
  | operative (formals : Tree) (dynamic : Value) (body : Tree)
  | applicative (formals : Tree) (dynamic : Value) (body : Tree)
  | procedure (formals body : Tree)
  | synonym (name : String)
deriving DecidableEq

structure Definition where
  name : String
  code : Code
deriving DecidableEq

namespace Library

open Vau.Tree

def Code.form : Code → Tree
  | .operative formals dynamic body => list ["$vau", formals, .leaf dynamic, body]
  | .applicative formals dynamic body =>
    list ["wrap", list ["$vau", formals, .leaf dynamic, body]]
  | .procedure formals body => list ["$lambda", formals, body]
  | .synonym name => name

def form (d : Definition) : Tree := list ["$define!", d.name, Code.form d.code]

def currentEnvironment : Definition where
  name := "get-current-environment"
  code := .applicative (.leaf .nil) (.sym "env") "env"

def quote : Definition where
  name := "$quote"
  code := .operative (list ["x"]) .ignore "x"

def operands : Definition where
  name := "list"
  code := .applicative "args" .ignore "args"

def conditional : Definition where
  name := "^if"
  code := .operative (list ["test", "consequent", "alternative"]) (.sym "env")
    (list ["eval", list [list ["eval", "test", "env"], "consequent", "alternative"], "env"])

def lambda : Definition where
  name := "$lambda"
  code := .operative (dotted ["formals"] "body") (.sym "env")
    (list ["wrap", list ["eval",
      list ["cons", "$vau", list ["cons", "formals", list ["cons", .leaf .ignore, "body"]]],
      "env"]])

def define : Definition where
  name := "def"
  code := .synonym "$define!"

def defineNamed : Definition where
  name := "defn"
  code := .operative (dotted ["name", "formals"] "body") (.sym "env")
    (list ["eval",
      list ["list", "$define!", "name", list ["cons", "$lambda", list ["cons", "formals", "body"]]],
      "env"])

def spread : Definition where
  name := "%list*"
  code := .procedure (list ["args"])
    (list ["^if", list ["null?", list ["tail", "args"]],
      list ["head", "args"],
      list ["cons", list ["head", "args"], list ["%list*", list ["tail", "args"]]]])

def listBefore : Definition where
  name := "list*"
  code := .procedure (dotted ["first"] "rest") (list ["%list*", list ["cons", "first", "rest"]])

def apply : Definition where
  name := "apply"
  code := .procedure (dotted ["combiner", "args"] "env")
    (list ["eval", list ["cons", list ["unwrap", "combiner"], "args"],
      list ["^if", list ["null?", "env"], list ["make-environment"], list ["head", "env"]]])

def assign : Definition where
  name := "set!"
  code := .synonym "$set!"

def negation : Definition where
  name := "not"
  code := .procedure (list ["x"]) (list ["^if", "x", .leaf (.bool false), .leaf (.bool true)])

def clauses : Definition where
  name := "$cond"
  code := .operative "clauses" (.sym "env")
    (list ["^if", list ["null?", "clauses"],
      .leaf .inert,
      list ["^if", list ["eval", list ["head", list ["head", "clauses"]], "env"],
        list ["eval", list ["cons", "$sequence", list ["tail", list ["head", "clauses"]]], "env"],
        list ["eval", list ["cons", "$cond", list ["tail", "clauses"]], "env"]]])

def clausesAlias : Definition where
  name := "^cond"
  code := .synonym "$cond"

def conjunction : Definition where
  name := "^and"
  code := .operative "operands" (.sym "env")
    (list ["$cond",
      list [list ["null?", "operands"], .leaf (.bool true)],
      list [list ["null?", list ["tail", "operands"]],
        list ["eval", list ["head", "operands"], "env"]],
      list [list ["eval", list ["head", "operands"], "env"],
        list ["eval", list ["cons", "^and", list ["tail", "operands"]], "env"]],
      list [.leaf (.bool true), .leaf (.bool false)]])

def disjunction : Definition where
  name := "^or"
  code := .operative "operands" (.sym "env")
    (list ["$cond",
      list [list ["null?", "operands"], .leaf (.bool false)],
      list [list ["null?", list ["tail", "operands"]],
        list ["eval", list ["head", "operands"], "env"]],
      list [list ["eval", list ["head", "operands"], "env"], .leaf (.bool true)],
      list [.leaf (.bool true),
        list ["eval", list ["cons", "^or", list ["tail", "operands"]], "env"]]])

def foldl : Definition where
  name := "foldl"
  code := .procedure (list ["f", "acc", "xs"])
    (list ["^if", list ["null?", "xs"],
      "acc",
      list ["foldl", "f", list ["f", "acc", list ["head", "xs"]], list ["tail", "xs"]]])

def reverse : Definition where
  name := "reverse"
  code := .procedure (list ["xs"])
    (list ["foldl", list ["$lambda", list ["acc", "x"], list ["cons", "x", "acc"]], .leaf .nil,
      "xs"])

def foldr : Definition where
  name := "foldr"
  code := .procedure (list ["f", "acc", "xs"])
    (list ["foldl", list ["$lambda", list ["acc", "x"], list ["f", "x", "acc"]], "acc",
      list ["reverse", "xs"]])

def map : Definition where
  name := "map"
  code := .procedure (list ["f", "xs"])
    (list ["reverse", list ["foldl",
      list ["$lambda", list ["acc", "x"], list ["cons", list ["f", "x"], "acc"]],
      .leaf .nil, "xs"]])

def filter : Definition where
  name := "filter"
  code := .procedure (list ["keep?", "xs"])
    (list ["reverse", list ["foldl",
      list ["$lambda", list ["acc", "x"],
        list ["^if", list ["keep?", "x"], list ["cons", "x", "acc"], "acc"]],
      .leaf .nil, "xs"]])

def append : Definition where
  name := "append"
  code := .procedure "lists"
    (list ["foldr", list ["$lambda", list ["xs", "acc"], list ["foldr", "cons", "acc", "xs"]],
      .leaf .nil, "lists"])

def lengthFrom : Definition where
  name := "%length"
  code := .procedure (list ["xs", "n"])
    (list ["^if", list ["null?", "xs"], "n",
      list ["%length", list ["tail", "xs"], list ["+", "n", .leaf (.int 1)]]])

def length : Definition where
  name := "length"
  code := .procedure (list ["xs"]) (list ["%length", "xs", .leaf (.int 0)])

def nth : Definition where
  name := "nth"
  code := .procedure (list ["xs", "n"])
    (list ["^if", list ["=", "n", .leaf (.int 0)],
      list ["head", "xs"],
      list ["nth", list ["tail", "xs"], list ["-", "n", .leaf (.int 1)]]])

def bindings : Definition where
  name := "$let"
  code := .operative (dotted ["bindings"] "body") (.sym "env")
    (list ["eval",
      list ["cons",
        list ["cons", "$lambda", list ["cons", list ["map", "head", "bindings"], "body"]],
        list ["map", list ["$lambda", list [list [.leaf .ignore, "expr"]], "expr"], "bindings"]],
      "env"])

def isZero : Definition where
  name := "zero?"
  code := .procedure (list ["a"]) (list ["=", "a", .leaf (.int 0)])

def isPositive : Definition where
  name := "positive?"
  code := .procedure (list ["a"]) (list [">", "a", .leaf (.int 0)])

def isNegative : Definition where
  name := "negative?"
  code := .procedure (list ["a"]) (list ["<", "a", .leaf (.int 0)])

def isEven : Definition where
  name := "even?"
  code := .procedure (list ["a"])
    (list ["=", list ["remainder", "a", .leaf (.int 2)], .leaf (.int 0)])

def isOdd : Definition where
  name := "odd?"
  code := .procedure (list ["a"]) (list ["not", list ["even?", "a"]])

def magnitude : Definition where
  name := "abs"
  code := .procedure (list ["a"])
    (list ["^if", list ["<", "a", .leaf (.int 0)], list ["-", "a"], "a"])

/-- The definitions that each part of the text holds. -/
def parts : List (List Definition) :=
  [[currentEnvironment], [quote], [operands], [conditional], [lambda], [define], [defineNamed],
   [spread], [listBefore], [apply], [assign], [negation], [clauses], [clausesAlias],
   [conjunction], [disjunction], [foldl], [reverse], [foldr], [map], [filter], [append],
   [lengthFrom], [length], [nth], [bindings],
   [isZero, isPositive, isNegative, isEven, isOdd, magnitude]]

def definitions : List Definition := parts.flatten

/-- A leaf that is a symbol with a word of its own, a digit, or no symbol and no number. -/
def plain : Value → Bool
  | .sym name =>
    let word := name.toList
    word.all (fun c => !isDelimiter c) && word != [] && word.head? != some '#' &&
      word != ['.'] && word != ['n', 'i', 'l'] && !isNumeral word
  | .int n => n.natAbs < 10
  | .nil => true
  | .ignore => true
  | .inert => true
  | .bool _ => true
  | _ => false

theorem ten_le_digitBound : 10 ≤ digitBound :=
  Nat.le_self_pow (Nat.pos_iff_ne_zero.mp digitLimit_pos) 10

theorem legible_of_plain {v : Value} (h : plain v = true) : v.Legible := by
  cases v with
  | nil | ignore | inert | bool _ => trivial
  | int n => exact Nat.lt_of_lt_of_le (of_decide_eq_true h) ten_le_digitBound
  | sym name =>
    simp only [plain, Bool.and_eq_true, bne_iff_ne, ne_eq, Bool.not_eq_true'] at h
    obtain ⟨⟨⟨⟨⟨hall, hne⟩, hhash⟩, hdot⟩, hnil⟩, hnumeral⟩ := h
    refine ⟨⟨hne, Grammar.plain_of_all hall⟩, hhash, ?_, ?_, hnumeral⟩
    · rintro rfl
      exact hdot String.toList_ofList
    · rintro rfl
      exact hnil String.toList_ofList
  | _ => cases h

section Reading

set_option maxRecDepth 4000 in
/-- Each part of the text has the tokens of its definitions, and these can be read. -/
theorem parts_tokens : List.Forall₂ (fun part ds => tokens part.toList = ds.flatMap fun d =>
    (form d).tokens) preludeParts parts := by
  simp only [preludeParts, parts, List.forall₂_cons, List.forall₂_nil_left_iff]
  simp only [currentEnvironment, quote, operands, conditional, lambda, define, defineNamed, spread,
    listBefore, apply, assign, negation, clauses, clausesAlias, conjunction, disjunction, foldl,
    reverse, foldr, map, filter, append, lengthFrom, length, nth, bindings, isZero, isPositive,
    isNegative, isEven, isOdd, magnitude, form, Code.form, Tree.list, Tree.dotted, Tree.sym,
    List.foldr, List.flatMap_cons, List.flatMap_nil, Tree.tokens, Tree.endingTokens, Value.tokens,
    Value.endingTokens, Value.literal_sym, Value.literal_ignore, Value.literal_inert,
    show ∀ cs, (String.ofList cs).toList = cs from fun _ => String.toList_ofList]
  decide +kernel

set_option maxRecDepth 4000 in
theorem forms_plain : definitions.all (fun d => (form d).leaves plain) = true := by
  simp only [definitions, parts, List.flatten_cons, List.flatten_nil, List.cons_append,
    List.nil_append, List.append_nil, List.all_cons, List.all_nil]
  simp only [currentEnvironment, quote, operands, conditional, lambda, define, defineNamed, spread,
    listBefore, apply, assign, negation, clauses, clausesAlias, conjunction, disjunction, foldl,
    reverse, foldr, map, filter, append, lengthFrom, length, nth, bindings, isZero, isPositive,
    isNegative, isEven, isOdd, magnitude, form, Code.form, Tree.list, Tree.dotted, Tree.sym,
    List.foldr, Tree.leaves, plain, show ∀ cs, (String.ofList cs).toList = cs from fun _ => String.toList_ofList]
  decide +kernel

theorem forms_shallow : ∀ d ∈ definitions, (form d).depth < nestingLimit := by decide +kernel

theorem tokens_parts {texts : List String} {ds : List (List Definition)}
    (h : List.Forall₂ (fun part ds => tokens part.toList = ds.flatMap fun d => (form d).tokens)
      texts ds) :
    tokens ("\n\n".intercalate texts).toList = (ds.flatten.map form).flatMap Tree.tokens := by
  have hclosed : ∀ text ∈ texts.map String.toList, .broken ∉ tokens text := by
    induction h with
    | nil => exact List.forall_mem_nil _
    | @cons part ds _ _ hpart _ ih =>
      refine List.forall_mem_cons.mpr ⟨?_, ih⟩
      rw [hpart, List.mem_flatMap]
      rintro ⟨d, -, hbroken⟩
      exact (form d).broken_not_mem_tokens.1 hbroken
  have hjoined : (texts.map String.toList).flatMap tokens =
      (ds.flatten.map form).flatMap Tree.tokens := by
    clear hclosed
    induction h with
    | nil => rfl
    | cons hpart _ ih =>
      simp only [List.map_cons, List.flatMap_cons, List.flatten_cons, List.map_append,
        List.flatMap_append, ih, hpart, List.flatMap_map]
  rw [String.toList_intercalate, show "\n\n".toList = ['\n', '\n'] from String.toList_ofList,
    tokens_lines hclosed, hjoined]

/-- The text of the prelude is read as the forms of its definitions. -/
theorem read_prelude (source : String) :
    ∃ data, read source preludeText = .ok data ∧ data.map Datum.tree = definitions.map form := by
  refine read_tokens (tokens_parts parts_tokens) (fun t ht => ?_) source
  obtain ⟨d, hd, rfl⟩ := List.mem_map.mp ht
  exact ⟨Tree.legible_of_leaves (fun _ => legible_of_plain) (List.all_eq_true.mp forms_plain d hd),
    forms_shallow d hd⟩

end Reading

end Library

end Vau
