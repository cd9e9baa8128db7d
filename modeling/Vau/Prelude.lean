/-! The prelude: the part of the language that is written in the language itself. It is
evaluated into a root environment before any script. Conditionals pass their branches
unevaluated to a boolean and evaluate the selected one; the list functions go through
`foldl`, so that long lists need no nesting. -/

namespace Vau

/-- The parts of the prelude, in the order in which they are evaluated. -/
def preludeParts : List String := [
"($define! get-current-environment (wrap ($vau () env env)))",
"($define! $quote ($vau (x) #ignore x))",
"($define! list (wrap ($vau args #ignore args)))",
"($define! ^if
  ($vau (test consequent alternative) env
    (eval ((eval test env) consequent alternative) env)))",
"($define! $lambda
  ($vau (formals . body) env
    (wrap (eval (cons $vau (cons formals (cons #ignore body))) env))))",
"($define! def $define!)",
"($define! defn
  ($vau (name formals . body) env
    (eval (list $define! name (cons $lambda (cons formals body))) env)))",
"($define! %list*
  ($lambda (args)
    (^if (null? (tail args))
      (head args)
      (cons (head args) (%list* (tail args))))))",
"($define! list* ($lambda (first . rest) (%list* (cons first rest))))",
"($define! apply
  ($lambda (combiner args . env)
    (eval (cons (unwrap combiner) args)
          (^if (null? env) (make-environment) (head env)))))",
"($define! set! $set!)",
"($define! not ($lambda (x) (^if x #f #t)))",
"($define! $cond
  ($vau clauses env
    (^if (null? clauses)
      #inert
      (^if (eval (head (head clauses)) env)
        (eval (cons $sequence (tail (head clauses))) env)
        (eval (cons $cond (tail clauses)) env)))))",
"($define! ^cond $cond)",
"($define! ^and
  ($vau operands env
    ($cond
      ((null? operands) #t)
      ((null? (tail operands)) (eval (head operands) env))
      ((eval (head operands) env) (eval (cons ^and (tail operands)) env))
      (#t #f))))",
"($define! ^or
  ($vau operands env
    ($cond
      ((null? operands) #f)
      ((null? (tail operands)) (eval (head operands) env))
      ((eval (head operands) env) #t)
      (#t (eval (cons ^or (tail operands)) env)))))",
"($define! foldl
  ($lambda (f acc xs)
    (^if (null? xs)
      acc
      (foldl f (f acc (head xs)) (tail xs)))))",
"($define! reverse
  ($lambda (xs) (foldl ($lambda (acc x) (cons x acc)) () xs)))",
"($define! foldr
  ($lambda (f acc xs)
    (foldl ($lambda (acc x) (f x acc)) acc (reverse xs))))",
"($define! map
  ($lambda (f xs)
    (reverse (foldl ($lambda (acc x) (cons (f x) acc)) () xs))))",
"($define! filter
  ($lambda (keep? xs)
    (reverse (foldl ($lambda (acc x) (^if (keep? x) (cons x acc) acc)) () xs))))",
"($define! append
  ($lambda lists
    (foldr ($lambda (xs acc) (foldr cons acc xs)) () lists)))",
"($define! %length
  ($lambda (xs n)
    (^if (null? xs) n (%length (tail xs) (+ n 1)))))",
"($define! length ($lambda (xs) (%length xs 0)))",
"($define! nth
  ($lambda (xs n)
    (^if (= n 0) (head xs) (nth (tail xs) (- n 1)))))",
"($define! $let
  ($vau (bindings . body) env
    (eval (cons (cons $lambda (cons (map head bindings) body))
                (map ($lambda ((#ignore expr)) expr) bindings))
          env)))",
"($define! zero? ($lambda (a) (= a 0)))
($define! positive? ($lambda (a) (> a 0)))
($define! negative? ($lambda (a) (< a 0)))
($define! even? ($lambda (a) (= (remainder a 2) 0)))
($define! odd? ($lambda (a) (not (even? a))))
($define! abs ($lambda (a) (^if (< a 0) (- a) a)))
"]

/-- The text of the prelude, with an empty line between two parts. -/
def preludeText : String := "\n\n".intercalate preludeParts

end Vau
