import Vau.Proofs.Cycle

/-! Formal parameters as trees. For a pattern that unfolds, collecting its names and matching
it go down its tree, the tail of a pair before its head. A tree whose names were collected
binds just these names, each once, or is matched by operands of another shape. -/

namespace Vau

open Formals

namespace Tree

/-- Adds the symbols of a formal tree to those seen before. -/
def addNames : Tree → List String → Except Mismatch (List String)
  | .leaf v, seen => leafNames seen v
  | .node h t, seen => t.addNames seen >>= h.addNames

def matched (s : Store) : Tree → Value → Except Mismatch (List (String × Value))
  | .leaf v, o => Formals.leaf v o
  | .node h t, .pair o => do
    let below ← t.matched s (s.tail o)
    let here ← h.matched s (s.head o)
    return below ++ here
  | .node _ _, _ => .error .shape

theorem addNames_eq (t : Tree) (seen : List String) :
    t.addNames seen =
      (leafNames seen t.last >>= t.heads.reverse.foldlM fun seen h => h.addNames seen) := by
  induction t with
  | leaf v =>
    cases hv : leafNames seen v <;> simp [addNames, last, heads, hv]
  | node h t _ ih =>
    simp only [addNames, last, heads, List.reverse_cons, List.foldlM_append, ih, bind_assoc]
    congr 1
    funext seen
    simp

theorem addNames_keeps {t : Tree} {seen names : List String} (h : t.addNames seen = .ok names)
    (hseen : seen.Nodup) : names.Nodup := by
  induction t generalizing seen names with
  | leaf v =>
    simp only [addNames] at h
    unfold leafNames at h
    split at h
    · split at h
      · cases h
      · rename_i hnew
        cases h
        rw [← List.concat_eq_append]
        exact hseen.concat hnew
    · cases h
      exact hseen
    · cases h
      exact hseen
    · cases h
  | node head tail ihh iht =>
    obtain ⟨mid, hmid, hrest⟩ := Except.bind_eq_ok h
    exact ihh hrest (iht hmid hseen)

theorem matched_of_addNames (s : Store) {t : Tree} {seen names : List String}
    (h : t.addNames seen = .ok names) (o : Value) :
    t.matched s o = .error .shape ∨
      ∃ bs, t.matched s o = .ok bs ∧ names = seen ++ bs.map Prod.fst := by
  induction t generalizing seen names o with
  | leaf v =>
    simp only [addNames] at h
    unfold leafNames at h
    split at h
    · rename_i name
      split at h
      · cases h
      · cases h
        exact .inr ⟨[(name, o)], rfl, rfl⟩
    · cases h
      exact .inr ⟨[], rfl, by simp⟩
    · cases h
      cases o with
      | nil => exact .inr ⟨[], rfl, by simp⟩
      | _ => exact .inl rfl
    · cases h
  | node head tail ihh iht =>
    obtain ⟨mid, hmid, hrest⟩ := Except.bind_eq_ok h
    cases o with
    | pair r =>
      rcases iht hmid (s.tail r) with htail | ⟨below, htail, hbelow⟩
      · exact .inl (by simp only [matched, htail]; rfl)
      · rcases ihh hrest (s.head r) with hhead | ⟨here, hhead, hhere⟩
        · exact .inl (by simp only [matched, htail, hhead]; rfl)
        · refine .inr ⟨below ++ here, by simp only [matched, htail, hhead]; rfl, ?_⟩
          rw [hhere, hbelow, List.map_append, List.append_assoc]
    | _ => exact .inl rfl

theorem addNames_ne_endless (t : Tree) (seen : List String) :
    t.addNames seen ≠ .error .endless := by
  induction t generalizing seen with
  | leaf v =>
    simp only [addNames]
    unfold leafNames
    split
    · split <;> exact nofun
    all_goals exact nofun
  | node head tail ihh iht =>
    intro h
    simp only [addNames] at h
    cases hmid : tail.addNames seen with
    | error e =>
      rw [hmid] at h
      cases h
      exact iht seen hmid
    | ok mid =>
      rw [hmid] at h
      exact ihh mid h

theorem matched_ne_endless (s : Store) (t : Tree) (o : Value) :
    t.matched s o ≠ .error .endless := by
  induction t generalizing o with
  | leaf v =>
    simp only [matched]
    unfold Formals.leaf
    split <;> exact nofun
  | node head tail ihh iht =>
    cases o with
    | pair r =>
      intro h
      simp only [matched] at h
      cases htail : tail.matched s (s.tail r) with
      | error e =>
        rw [htail] at h
        cases h
        exact iht (s.tail r) htail
      | ok below =>
        cases hhead : head.matched s (s.head r) with
        | error e =>
          rw [htail, hhead] at h
          cases h
          exact ihh (s.head r) hhead
        | ok here =>
          rw [htail, hhead] at h
          cases h
    | _ => exact nofun

end Tree

namespace Store

variable {s : Store} {x : Extent} {v : Value} {t : Tree}

theorem foldlM_unfolds {f : List String → Value → Except Mismatch (List String)} {vs : List Value}
    {ts : List Tree} (hvs : List.Forall₂ s.Unfolds vs ts)
    (hf : ∀ v t, t ∈ ts → s.Unfolds v t → ∀ seen, f seen v = t.addNames seen)
    (seen : List String) :
    vs.reverse.foldlM f seen = ts.reverse.foldlM (fun seen t => t.addNames seen) seen := by
  induction hvs generalizing seen with
  | nil => rfl
  | @cons v t vs ts hv _ ih =>
    have ih := ih fun v t ht => hf v t (List.mem_cons_of_mem _ ht)
    have hhead : ∀ seen, f seen v = t.addNames seen := hf v t List.mem_cons_self hv
    simp only [List.reverse_cons, List.foldlM_append, ih]
    congr 1
    funext seen
    simp [hhead]

theorem depth_of_mem_heads {t u : Tree} (h : u ∈ t.heads) : u.depth < t.depth := by
  induction t with
  | leaf v => exact absurd h List.not_mem_nil
  | node head tail _ ih =>
    simp only [Tree.heads, List.mem_cons] at h
    simp only [Tree.depth]
    rcases h with rfl | h
    · omega
    · have := ih h
      omega

theorem namesWithin_unfolds {room : Nat} (hv : s.Unfolds v t) (hroom : t.depth < room)
    (seen : List String) : namesWithin s room seen v = t.addNames seen := by
  induction room generalizing v t seen with
  | zero => omega
  | succ room ih =>
    obtain ⟨vs, hspine, hvs⟩ := spine_unfolds hv
    have hheads : ∀ v u, u ∈ t.heads → s.Unfolds v u → ∀ seen,
        namesWithin s room seen v = u.addNames seen := by
      intro v u hu hv seen
      have hdepth := depth_of_mem_heads hu
      exact ih hv (by omega) seen
    simp only [namesWithin, hspine]
    rw [Tree.addNames_eq]
    congr 1
    funext seen
    exact foldlM_unfolds hvs hheads seen

theorem formalNames_unfolds (hv : s.Unfolds v t) :
    s.formalNames v = (t.addNames []).mapError (Mismatch.stop v .nil) := by
  have hdepth := hv.depth_le
  rw [formalNames, namesWithin_unfolds hv (by omega)]

/-- The end of a match after the spines have been walked, with heads left from before. -/
def matchedFrom (f : Value → Value → Except Mismatch (List (String × Value))) (d : Descent) :
    Except Mismatch (List (String × Value)) := do
  let here ← Formals.leaf d.pattern d.operand
  let inside ← d.heads.mapM fun h => f h.1 h.2
  return here ++ inside.flatten

theorem descend_unfolds {f : Value → Value → Except Mismatch (List (String × Value))} {room : Nat}
    (hf : ∀ {v t}, s.Unfolds v t → t.depth < room → ∀ o, f v o = t.matched s o)
    (hv : s.Unfolds v t) (hroom : t.depth ≤ room) {fuel : Nat} (hfuel : t.chain ≤ fuel)
    (heads : List (Value × Value)) (o : Value) :
    (descend s fuel heads v o >>= matchedFrom f) = (do
      let here ← t.matched s o
      let inside ← heads.mapM fun h => f h.1 h.2
      return here ++ inside.flatten) := by
  induction hv generalizing fuel heads o with
  | @leaf v hv =>
    cases v with
    | pair _ => simp [Value.isPair] at hv
    | _ => cases fuel <;> rfl
  | @node r h t hr hh ht _ ih =>
    cases o with
    | pair o =>
      simp only [Tree.depth, Nat.max_le] at hroom
      simp only [Tree.chain] at hfuel
      obtain ⟨fuel, rfl⟩ : ∃ k, fuel = k + 1 := ⟨fuel - 1, by omega⟩
      have hhead := hf hh hroom.1 (s.head o)
      have hrest := ih hroom.2 (by omega : t.chain ≤ fuel) ((s.head r, s.head o) :: heads) (s.tail o)
      simp only [descend, Tree.matched, hrest, List.mapM_cons, hhead, bind_assoc, pure_bind,
        List.flatten_cons, List.append_assoc]
    | _ => cases fuel <;> rfl

theorem matchWithin_unfolds {spine room : Nat} (hv : s.Unfolds v t) (hspine : t.chain ≤ spine)
    (hheight : s.cells.size ≤ spine) (hroom : t.depth < room) (o : Value) :
    matchWithin s spine room v o = t.matched s o := by
  induction room generalizing v t o with
  | zero => omega
  | succ room ih =>
    have hf : ∀ {v t}, s.Unfolds v t → t.depth < room → ∀ o,
        matchWithin s spine room v o = t.matched s o := by
      intro v t hv hdepth o
      exact ih hv (Nat.le_trans hv.chain_le hheight) hdepth o
    have hmatch := descend_unfolds hf hv (Nat.le_of_lt_succ hroom) hspine [] o
    have hfrom : matchWithin s spine (room + 1) v o =
        (descend s spine [] v o >>= matchedFrom (matchWithin s spine room)) := rfl
    rw [hfrom, hmatch]
    cases t.matched s o <;> simp

theorem matchWithin_formals (hv : s.Unfolds v t) (o : Value) :
    matchWithin s (places s) (places s + 1) v o = t.matched s o := by
  have hsize : s.cells.size ≤ places s := Nat.le_mul_self _
  have hdepth : t.depth < places s + 1 := by
    have hcells := hv.depth_le
    omega
  exact matchWithin_unfolds hv (Nat.le_trans hv.chain_le hsize) hsize hdepth o

theorem matchFormals_unfolds (hv : s.Unfolds v t) (o : Value) :
    s.matchFormals v o = (t.matched s o).mapError (Mismatch.stop v o) := by
  rw [matchFormals, matchWithin_formals hv]

/-- A pattern with names fails to bind only by shape and binds each of its names. -/
theorem matchFormals_of_names {v : Value} {t : Tree} {names : List String} (hv : s.Unfolds v t)
    (hnames : t.addNames [] = .ok names) (operands : Value) :
    s.matchFormals v operands = .error (.failure (.arity (.shape v) operands)) ∨
      ∃ bs, s.matchFormals v operands = .ok bs ∧ bs.map Prod.fst = names := by
  rw [matchFormals_unfolds hv]
  rcases t.matched_of_addNames s hnames operands with hshape | ⟨bs, hbs, heq⟩
  · rw [hshape]
    exact .inl rfl
  · rw [hbs]
    exact .inr ⟨bs, rfl, by simpa using heq.symm⟩

theorem Sound.formalNames_due (h : s.Sound x) (hv : v.In x) {e : Stop}
    (he : s.formalNames v = .error e) : e.Due s := by
  obtain ⟨k, hk, rfl⟩ := Except.error_of_mapError he
  cases k with
  | endless =>
    by_contra hc
    obtain ⟨t, ht⟩ := h.unfolds hc hv
    have hdepth := ht.depth_le
    rw [namesWithin_unfolds ht (by omega)] at hk
    exact t.addNames_ne_endless [] hk
  | _ => trivial

theorem Sound.matchFormals_due (h : s.Sound x) (hv : v.In x) {o : Value} {e : Stop}
    (he : s.matchFormals v o = .error e) : e.Due s := by
  obtain ⟨k, hk, rfl⟩ := Except.error_of_mapError he
  cases k with
  | endless =>
    by_contra hc
    obtain ⟨t, ht⟩ := h.unfolds hc hv
    rw [matchWithin_formals ht o] at hk
    exact t.matched_ne_endless s o hk
  | _ => trivial

/-- The tree of a value, where pairs that do not exist count as pairs of empty lists. -/
inductive Shows (s : Store) : Value → Tree → Prop
  | leaf {v : Value} : v.isPair = false → Shows s v (.leaf v)
  | node {r : Nat} {h t : Tree} :
    Shows s (s.head r) h → Shows s (s.tail r) t → Shows s (.pair r) (.node h t)

theorem Shows.unfolds (hv : s.Shows v t) (h : s.Sound x) (hin : v.In x) : s.Unfolds v t := by
  induction hv with
  | leaf hp => exact .leaf hp
  | @node r _ _ _ _ ihh iht =>
    have hr : r < s.cells.size := by rw [h.cells_size]; exact hin
    exact .node hr (ihh (h.head r)) (iht (h.tail r))

theorem shows_of_walk {fuel : Nat} {heads vs : List Value} {v last : Value}
    (hw : s.walk fuel heads v = some (vs, last)) :
    ∃ ws, vs = heads.reverse ++ ws ∧ ∀ ts, List.Forall₂ s.Shows ws ts →
      s.Shows v (ts.foldr .node (.leaf last)) := by
  fun_induction s.walk fuel heads v with
  | case1 => cases hw
  | case2 heads r fuel ih =>
    obtain ⟨ws, hvs, hws⟩ := ih hw
    refine ⟨s.head r :: ws, by simp [hvs], fun ts hts => ?_⟩
    cases hts with
    | cons hhead hrest => exact .node hhead (hws _ hrest)
  | case3 fuel heads v hp =>
    cases hw
    refine ⟨[], by simp, fun ts hts => ?_⟩
    cases hts
    refine .leaf ?_
    cases last with
    | pair r => exact absurd rfl (hp r)
    | _ => rfl

theorem addNames_foldr (ts : List Tree) (last : Value) (seen : List String) :
    (ts.foldr Tree.node (.leaf last)).addNames seen =
      (leafNames seen last >>= ts.reverse.foldlM fun seen t => t.addNames seen) := by
  have hheads : (ts.foldr Tree.node (.leaf last)).heads = ts := by
    induction ts with
    | nil => rfl
    | cons t ts ih => simp [Tree.heads, ih]
  have hlast : (ts.foldr Tree.node (.leaf last)).last = last := by
    clear hheads
    induction ts with
    | nil => rfl
    | cons t ts ih => simp [Tree.last, ih]
  rw [Tree.addNames_eq, hheads, hlast]

theorem shows_of_foldlM {f : List String → Value → Except Mismatch (List String)}
    (hf : ∀ seen v names, f seen v = .ok names → ∃ t, s.Shows v t ∧ t.addNames seen = .ok names)
    {vs : List Value} {seen names : List String} (h : vs.reverse.foldlM f seen = .ok names) :
    ∃ ts, List.Forall₂ s.Shows vs ts ∧
      ts.reverse.foldlM (fun seen t => t.addNames seen) seen = .ok names := by
  induction vs generalizing names with
  | nil => exact ⟨[], .nil, by simpa using h⟩
  | cons v vs ih =>
    rw [List.reverse_cons, List.foldlM_append] at h
    obtain ⟨mid, hmid, hlast⟩ := Except.bind_eq_ok h
    obtain ⟨ts, hts, hfold⟩ := ih hmid
    obtain ⟨names', hnames, hrest⟩ := Except.bind_eq_ok hlast
    cases hrest
    obtain ⟨t, ht, hadd⟩ := hf mid v names hnames
    refine ⟨t :: ts, .cons ht hts, ?_⟩
    rw [List.reverse_cons, List.foldlM_append, hfold]
    change [t].foldlM (fun seen t => t.addNames seen) mid = .ok names
    simp [hadd]

theorem shows_of_names {room : Nat} {seen names : List String}
    (hn : namesWithin s room seen v = .ok names) :
    ∃ t, s.Shows v t ∧ t.addNames seen = .ok names := by
  induction room generalizing v seen names with
  | zero => cases hn
  | succ room ih =>
    cases hspine : s.spine? v with
    | none => simp [namesWithin, hspine] at hn
    | some r =>
      obtain ⟨vs, last⟩ := r
      simp only [namesWithin, hspine] at hn
      obtain ⟨mid, hmid, hrest⟩ := Except.bind_eq_ok hn
      obtain ⟨ts, hts, hfold⟩ := shows_of_foldlM (fun _ _ _ h => ih h) hrest
      obtain ⟨ws, hvs, hws⟩ := shows_of_walk hspine
      obtain rfl : vs = ws := hvs
      refine ⟨ts.foldr .node (.leaf last), hws ts hts, ?_⟩
      rw [addNames_foldr, hmid]
      exact hfold

theorem shows_of_formalNames {names : List String} (hn : s.formalNames v = .ok names) :
    ∃ t, s.Shows v t ∧ t.addNames [] = .ok names :=
  shows_of_names (Except.ok_of_mapError hn)

end Store

end Vau
