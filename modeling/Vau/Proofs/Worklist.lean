import Vau.Proofs.Matching

/-! The walks over formal parameters as loops. What is still to be looked at is on a stack. A round
takes the item on top: it gathers a leaf, or puts the tail of a pair there instead and, below it,
the head. A walk that comes to an end comes to what its loop comes to, and over a tree the loop
always ends, with what the rule says. -/

namespace Vau

namespace Formals

/-- What a round does with an item: it gathers a leaf, or goes into what has two parts. -/
inductive Visit (ι β : Type) where
  | gather (b : β)
  | enter (tail head : ι)

variable {ι β : Type}

/-- The loop with at most `n` rounds over the items, the first on top; nothing if some are left. -/
def loop (visit : β → ι → Except Mismatch (Visit ι β)) :
    Nat → β → List ι → Option (Except Mismatch β)
  | _, b, [] => some (.ok b)
  | 0, _, _ :: _ => none
  | n + 1, b, i :: waiting =>
    match visit b i with
    | .error e => some (.error e)
    | .ok (.gather b) => loop visit n b waiting
    | .ok (.enter tail head) => loop visit n b (tail :: head :: waiting)

/-- The loop over the items comes to the result, in however many rounds. -/
inductive LoopsTo (visit : β → ι → Except Mismatch (Visit ι β)) :
    β → List ι → Except Mismatch β → Prop
  | done (b : β) : LoopsTo visit b [] (.ok b)
  | fail {b : β} {i : ι} {e : Mismatch} (waiting : List ι) (hi : visit b i = .error e) :
    LoopsTo visit b (i :: waiting) (.error e)
  | gather {b b' : β} {i : ι} {waiting : List ι} {r : Except Mismatch β}
    (hi : visit b i = .ok (.gather b')) (h : LoopsTo visit b' waiting r) :
    LoopsTo visit b (i :: waiting) r
  | enter {b : β} {i tail head : ι} {waiting : List ι} {r : Except Mismatch β}
    (hi : visit b i = .ok (.enter tail head)) (h : LoopsTo visit b (tail :: head :: waiting) r) :
    LoopsTo visit b (i :: waiting) r

section Loop

variable {visit : β → ι → Except Mismatch (Visit ι β)} {b b' : β} {items waiting : List ι}
  {r r' : Except Mismatch β}

theorem loopsTo_iff : LoopsTo visit b items r ↔ ∃ n, loop visit n b items = some r := by
  constructor
  · intro h
    induction h with
    | done b => exact ⟨0, rfl⟩
    | fail _ hi => exact ⟨1, by simp only [loop, hi]⟩
    | gather hi _ ih =>
      obtain ⟨n, hn⟩ := ih
      exact ⟨n + 1, by simp only [loop, hi, hn]⟩
    | enter hi _ ih =>
      obtain ⟨n, hn⟩ := ih
      exact ⟨n + 1, by simp only [loop, hi, hn]⟩
  · rintro ⟨n, hn⟩
    fun_induction loop visit n b items with
    | case1 =>
      cases hn
      exact .done _
    | case2 => cases hn
    | case3 n b i waiting e hi =>
      cases hn
      exact .fail waiting hi
    | case4 n b i waiting b' hi ih => exact .gather hi (ih hn)
    | case5 n b i waiting tail head hi ih => exact .enter hi (ih hn)

theorem LoopsTo.unique (h : LoopsTo visit b items r) (h' : LoopsTo visit b items r') : r = r' := by
  induction h with
  | done =>
    cases h'
    rfl
  | fail _ hi => cases h' <;> grind
  | gather hi _ ih => cases h' <;> grind
  | enter hi _ ih => cases h' <;> grind

/-- What waits below is looked at when all above it has been gathered. -/
theorem LoopsTo.append (h : LoopsTo visit b items (.ok b'))
    (hwaiting : LoopsTo visit b' waiting r) : LoopsTo visit b (items ++ waiting) r := by
  generalize hok : (Except.ok b' : Except Mismatch β) = r' at h
  induction h with
  | done =>
    cases hok
    exact hwaiting
  | fail => cases hok
  | gather hi _ ih => exact .gather hi (ih hok)
  | enter hi _ ih => exact .enter hi (ih hok)

/-- A mismatch ends the loop, whatever waits. -/
theorem LoopsTo.append_error {e : Mismatch} (h : LoopsTo visit b items (.error e))
    (waiting : List ι) : LoopsTo visit b (items ++ waiting) (.error e) := by
  generalize herror : (Except.error e : Except Mismatch β) = r at h
  induction h with
  | done => cases herror
  | fail _ hi =>
    cases herror
    exact .fail _ hi
  | gather hi _ ih => exact .gather hi (ih herror)
  | enter hi _ ih => exact .enter hi (ih herror)

/-- The loop over the items comes to what is computed from that with which it starts, if this
ends. -/
def Walks (visit : β → ι → Except Mismatch (Visit ι β)) (items : List ι)
    (x : β → Except Mismatch β) : Prop :=
  ∀ b, x b ≠ .error .endless → LoopsTo visit b items (x b)

theorem Walks.append {x y : β → Except Mismatch β} (hx : Walks visit items x)
    (hy : Walks visit waiting y) : Walks visit (items ++ waiting) fun b => x b >>= y := by
  intro b hne
  beta_reduce at hne ⊢
  cases hfirst : x b with
  | error e =>
    have habove := hx b
    rw [hfirst] at hne habove
    exact (habove hne).append_error waiting
  | ok b' =>
    have habove := hx b
    rw [hfirst] at hne habove
    exact (habove nofun).append (hy b' hne)

theorem Walks.foldlM {f : β → ι → Except Mismatch β}
    (hf : ∀ i, Walks visit [i] fun b => f b i) (items : List ι) :
    Walks visit items (items.foldlM f) := by
  induction items with
  | nil => exact fun b _ => .done b
  | cons i items ih =>
    have hcons : (i :: items).foldlM f = fun b => f b i >>= items.foldlM f := by
      funext b
      rw [List.foldlM_cons]
    rw [hcons]
    exact (hf i).append ih

/-- Such a computation is what the loop comes to, and the loop comes to nothing else. -/
theorem Walks.loop_iff {x : β → Except Mismatch β} (hx : Walks visit items x)
    (hne : x b ≠ .error .endless) : (∃ n, loop visit n b items = some r) ↔ x b = r := by
  rw [← loopsTo_iff]
  exact ⟨(hx b hne).unique, fun h => h ▸ hx b hne⟩

end Loop

section Matching

/-- A round of matching, at a pattern and its operand. -/
def visitMatch (s : Store) (bs : List (String × Value)) : Value × Value →
    Except Mismatch (Visit (Value × Value) (List (String × Value)))
  | (.pair p, .pair o) => .ok (.enter (s.tail p, s.tail o) (s.head p, s.head o))
  | (.pair _, _) => .error .shape
  | (p, o) => (leaf p o).map fun here => .gather (bs ++ here)

/-- The bindings of a match, put behind those from before. -/
def adds (here : Except Mismatch (List (String × Value))) (bs : List (String × Value)) :
    Except Mismatch (List (String × Value)) :=
  here.map fun here => bs ++ here

theorem adds_nil (here : Except Mismatch (List (String × Value))) : adds here [] = here := by
  cases here <;> rfl

variable {s : Store} {fuel spine room : Nat} {p o : Value} {heads : List (Value × Value)}
  {bs : List (String × Value)} {d : Descent} {r : Except Mismatch (List (String × Value))}

/-- The loop goes down a spine as the descent does, with the heads it has passed on the stack. -/
theorem loopsTo_of_descend (hd : descend s fuel heads p o = .ok d)
    (h : LoopsTo (visitMatch s) bs ((d.pattern, d.operand) :: d.heads) r) :
    LoopsTo (visitMatch s) bs ((p, o) :: heads) r := by
  fun_induction descend s fuel heads p o with
  | case1 => cases hd
  | case2 heads p o fuel ih => exact .enter rfl (ih hd)
  | case3 => cases hd
  | case4 =>
    cases hd
    exact h

theorem loopsTo_of_descend_error {e : Mismatch} (hd : descend s fuel heads p o = .error e)
    (he : e ≠ .endless) : LoopsTo (visitMatch s) bs ((p, o) :: heads) (.error e) := by
  fun_induction descend s fuel heads p o with
  | case1 =>
    cases hd
    exact absurd rfl he
  | case2 heads p o fuel ih => exact .enter rfl (ih hd)
  | case3 fuel heads p o hother =>
    cases hd
    refine .fail _ ?_
    cases o with
    | pair r => exact absurd rfl (hother r)
    | _ => rfl
  | case4 => cases hd

theorem isPair_of_descend (hd : descend s fuel heads p o = .ok d) : d.pattern.isPair = false := by
  fun_induction descend s fuel heads p o with
  | case1 => cases hd
  | case2 heads p o fuel ih => exact ih hd
  | case3 => cases hd
  | case4 fuel heads p o hpair hother =>
    cases hd
    cases p with
    | pair r => exact absurd rfl (hother r)
    | _ => rfl

theorem walks_leaf (hp : p.isPair = false) :
    Walks (visitMatch s) [(p, o)] (adds (leaf p o)) := by
  intro bs _
  have hvisit : visitMatch s bs (p, o) = (leaf p o).map fun here => .gather (bs ++ here) := by
    cases p with
    | pair r => cases hp
    | _ => rfl
  cases hleaf : leaf p o with
  | error e =>
    rw [hleaf] at hvisit
    exact .fail [] hvisit
  | ok here =>
    rw [hleaf] at hvisit
    exact .gather hvisit (.done _)

theorem adds_mapM (f : Value × Value → Except Mismatch (List (String × Value)))
    (heads : List (Value × Value)) (bs : List (String × Value)) :
    adds ((heads.mapM f).map List.flatten) bs = heads.foldlM (fun bs h => adds (f h) bs) bs := by
  induction heads generalizing bs with
  | nil => simp [adds, Except.map, pure, Except.pure]
  | cons h heads ih =>
    rw [List.foldlM_cons, List.mapM_cons]
    cases f h with
    | error e => rfl
    | ok here =>
      have hrest := ih (bs ++ here)
      cases hinside : heads.mapM f with
      | error e =>
        rw [hinside] at hrest
        exact hrest
      | ok inside =>
        rw [hinside] at hrest
        have hflat : adds (.ok (here ++ inside.flatten)) bs =
            adds (.ok inside.flatten) (bs ++ here) :=
          congrArg Except.ok (List.append_assoc bs here inside.flatten).symm
        exact hflat.trans hrest

/-- What is bound by a match is bound leaf by leaf, first that at the end of the spine. -/
theorem adds_matchWithin : adds (matchWithin s spine (room + 1) p o) bs =
    (descend s spine [] p o >>= fun d => adds (leaf d.pattern d.operand) bs >>=
      d.heads.foldlM fun bs h => adds (matchWithin s spine room h.1 h.2) bs) := by
  rw [matchWithin]
  cases descend s spine [] p o with
  | error e => rfl
  | ok d =>
    change adds (leaf d.pattern d.operand >>= _) bs = adds (leaf d.pattern d.operand) bs >>= _
    cases leaf d.pattern d.operand with
    | error e => rfl
    | ok here =>
      have hheads := adds_mapM (fun h => matchWithin s spine room h.1 h.2) d.heads (bs ++ here)
      change adds (d.heads.mapM _ >>= fun inside => pure (here ++ inside.flatten)) bs = _
      refine Eq.trans ?_ hheads
      cases d.heads.mapM fun h => matchWithin s spine room h.1 h.2 with
      | error e => rfl
      | ok inside => exact congrArg Except.ok (List.append_assoc bs here inside.flatten).symm

theorem walks_matchWithin (s : Store) (spine room : Nat) (p o : Value) :
    Walks (visitMatch s) [(p, o)] (adds (matchWithin s spine room p o)) := by
  induction room generalizing p o with
  | zero => exact fun _ hne => absurd rfl hne
  | succ room ih =>
    intro bs hne
    rw [adds_matchWithin] at hne ⊢
    cases hd : descend s spine [] p o with
    | error e =>
      rw [hd] at hne
      exact loopsTo_of_descend_error hd fun he => hne (congrArg Except.error he)
    | ok d =>
      rw [hd] at hne
      have hleaf : Walks (visitMatch s) [(d.pattern, d.operand)] _ :=
        walks_leaf (isPair_of_descend hd)
      exact loopsTo_of_descend hd (hleaf.append (.foldlM (fun h => ih h.1 h.2) d.heads) bs hne)

end Matching

section Naming

/-- A round of collecting names. -/
def visitName (s : Store) (seen : List String) :
    Value → Except Mismatch (Visit Value (List String))
  | .pair p => .ok (.enter (s.tail p) (s.head p))
  | v => (leafNames seen v).map .gather

variable {s : Store} {fuel : Nat} {v last : Value} {heads vs : List Value} {seen : List String}
  {r : Except Mismatch (List String)}

theorem loopsTo_of_walk (hw : s.walk fuel heads v = some (vs, last))
    (h : LoopsTo (visitName s) seen (last :: vs.reverse) r) :
    LoopsTo (visitName s) seen (v :: heads) r := by
  fun_induction s.walk fuel heads v with
  | case1 => cases hw
  | case2 heads r fuel ih => exact .enter rfl (ih hw)
  | case3 =>
    cases hw
    rwa [List.reverse_reverse] at h

theorem isPair_of_walk (hw : s.walk fuel heads v = some (vs, last)) : last.isPair = false := by
  fun_induction s.walk fuel heads v with
  | case1 => cases hw
  | case2 heads r fuel ih => exact ih hw
  | case3 fuel heads v hother =>
    cases hw
    cases last with
    | pair r => exact absurd rfl (hother r)
    | _ => rfl

theorem walks_leafNames (hv : v.isPair = false) :
    Walks (visitName s) [v] fun seen => leafNames seen v := by
  intro seen _
  beta_reduce
  have hvisit : visitName s seen v = (leafNames seen v).map .gather := by
    cases v with
    | pair r => cases hv
    | _ => rfl
  cases hleaf : leafNames seen v with
  | error e =>
    rw [hleaf] at hvisit
    exact .fail [] hvisit
  | ok names =>
    rw [hleaf] at hvisit
    exact .gather hvisit (.done _)

theorem walks_namesWithin (s : Store) (room : Nat) (v : Value) :
    Walks (visitName s) [v] fun seen => namesWithin s room seen v := by
  induction room generalizing v with
  | zero => exact fun _ hne => absurd rfl hne
  | succ room ih =>
    intro seen hne
    simp only [namesWithin] at hne ⊢
    cases hspine : s.spine? v with
    | none =>
      rw [hspine] at hne
      exact absurd rfl hne
    | some w =>
      obtain ⟨heads, last⟩ := w
      rw [hspine] at hne
      have hleaf : Walks (visitName s) [last] _ := walks_leafNames (isPair_of_walk hspine)
      exact loopsTo_of_walk hspine (hleaf.append (.foldlM ih heads.reverse) seen hne)

end Naming

end Formals

namespace Store

open Formals

variable {s : Store} {v o : Value} {t : Tree}

/-- A match that ends is what the loop comes to, with the failure that goes with a mismatch. -/
theorem matchFormals_eq_iff_loop (h : s.matchFormals v o ≠ .error .endless)
    {r : Except Stop (List (String × Value))} : s.matchFormals v o = r ↔
      ∃ r', (∃ n, loop (visitMatch s) n [] [(v, o)] = some r') ∧
        r'.mapError (Mismatch.stop v o) = r := by
  have hne : adds (matchWithin s (places s) (places s + 1) v o) [] ≠ .error .endless := by
    rw [adds_nil]
    intro hwithin
    exact h (by rw [matchFormals, hwithin]; rfl)
  simp only [(walks_matchWithin s (places s) (places s + 1) v o).loop_iff hne, adds_nil,
    exists_eq_left']
  rfl

theorem formalNames_eq_iff_loop (h : s.formalNames v ≠ .error .endless)
    {r : Except Stop (List String)} : s.formalNames v = r ↔
      ∃ r', (∃ n, loop (visitName s) n [] [v] = some r') ∧
        r'.mapError (Mismatch.stop v .nil) = r := by
  have hne : namesWithin s (s.cells.size + 1) [] v ≠ .error .endless := by
    intro hwithin
    exact h (by rw [formalNames, hwithin]; rfl)
  simp only [(walks_namesWithin s (s.cells.size + 1) v).loop_iff hne, exists_eq_left']
  rfl

/-- Over a pattern that unfolds the loop ends, with what the rule says. -/
theorem loop_matches_iff (hv : s.Unfolds v t) {r : Except Mismatch (List (String × Value))} :
    (∃ n, loop (visitMatch s) n [] [(v, o)] = some r) ↔ t.Matches s o r := by
  have hwalk := walks_matchWithin s (places s) (places s + 1) v o
  rw [matchWithin_formals hv o] at hwalk
  have hne : adds (t.matched s o) [] ≠ .error .endless := by
    rw [adds_nil]
    exact t.matched_ne_endless s o
  rw [hwalk.loop_iff hne, adds_nil, Tree.matches_iff]

theorem loop_names_iff (hv : s.Unfolds v t) {r : Except Mismatch (List String)} :
    (∃ n, loop (visitName s) n [] [v] = some r) ↔ t.addNames [] = r := by
  have hnames := namesWithin_unfolds hv (Nat.lt_succ_of_le hv.depth_le) []
  have hne : namesWithin s (s.cells.size + 1) [] v ≠ .error .endless := by
    rw [hnames]
    exact t.addNames_ne_endless []
  rw [(walks_namesWithin s (s.cells.size + 1) v).loop_iff hne, hnames]

end Store

end Vau
