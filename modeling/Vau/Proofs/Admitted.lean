import Vau.Proofs.Children
import Vau.Proofs.Written
import Vau.Reader.Grammar

/-! What the reader gives. Every datum that is read from a text is legible, and its tree is less
deep than the limit of the reader. -/

namespace Vau

theorem foldl_digits_lt {ds : List Char} (h : ds.all Char.isDigit = true) (a : Nat) :
    ds.foldl (fun n c => 10 * n + digitValue c) a < (a + 1) * Nat.pow 10 ds.length := by
  induction ds generalizing a with
  | nil => simp
  | cons c cs ih =>
    simp only [List.all_cons, Bool.and_eq_true] at h
    have hc : digitValue c ≤ 9 := by
      have hrange : 48 ≤ c.toNat ∧ c.toNat ≤ 57 := by
        simpa [Char.isDigit, UInt32.le_iff_toNat_le] using h.1
      have hzero : '0'.toNat = 48 := rfl
      simp only [digitValue, hzero]
      omega
    calc cs.foldl (fun n c => 10 * n + digitValue c) (10 * a + digitValue c)
        < (10 * a + digitValue c + 1) * Nat.pow 10 cs.length := ih h.2 _
      _ ≤ (a + 1) * 10 * Nat.pow 10 cs.length := Nat.mul_le_mul_right _ (by omega)
      _ = (a + 1) * Nat.pow 10 (cs.length + 1) := by
        rw [Nat.mul_assoc, Nat.pow_eq, Nat.pow_eq, Nat.pow_succ', Nat.mul_comm 10]

theorem readDigits?_lt {ds : List Char} {n : Nat} (h : readDigits? ds = some n) :
    n < digitBound := by
  unfold readDigits? at h
  split at h
  · rename_i hds
    obtain ⟨-, hall, hlen⟩ := hds
    cases h
    have hlt := foldl_digits_lt hall 0
    rw [Nat.zero_add, Nat.one_mul] at hlt
    exact Nat.lt_of_lt_of_le hlt (Nat.pow_le_pow_right (by decide) hlen)
  · cases h

theorem readDecimal?_lt {cs : List Char} {n : Int} (h : readDecimal? cs = some n) :
    n.natAbs < digitBound := by
  unfold readDecimal? at h
  split at h <;>
  · obtain ⟨z, hz, rfl⟩ := Option.map_eq_some_iff.mp h
    obtain ⟨k, hk, hkz⟩ := Option.bind_eq_some_iff.mp hz
    cases hkz
    simpa using readDigits?_lt hk

namespace Tree

/-- What the reader gives back within a limit on depth. -/
def Admitted (limit : Nat) (t : Tree) : Prop := t.Legible ∧ t.depth < limit

theorem admitted_foldr {ts : List Tree} {u : Tree} {limit : Nat}
    (hts : ∀ t ∈ ts, t.Admitted limit) (hu : u.Legible ∧ u.depth ≤ limit) :
    (ts.foldr node u).Admitted (limit + 1) := by
  induction ts with
  | nil => exact ⟨hu.1, Nat.lt_succ_of_le hu.2⟩
  | cons t ts ih =>
    have ht := hts t List.mem_cons_self
    have ih := ih fun t ht => hts t (List.mem_cons_of_mem _ ht)
    refine ⟨⟨ht.1, ih.1⟩, ?_⟩
    simp only [List.foldr_cons, depth]
    have := ht.2
    have := ih.2
    omega

end Tree

namespace Node

variable {source : Option String} {limit : Nat}

/-- The node is no dotted tail and whatever datum it is converted to is admitted. -/
def Gives (source : Option String) (limit : Nat) (n : Node) : Prop :=
  n.isTail = false ∧ ∀ d, n.toDatum source = .ok d → d.tree.Admitted limit

/-- What may follow the elements among the children of a list. -/
inductive Closes (source : Option String) (limit : Nat) : List Node → Prop where
  | proper : Closes source limit []
  | dotted {n : Node} {o : Origin} :
    n.Gives source limit → Closes source limit [.tree .tail "" o [n]]

variable {ns tl : List Node}

theorem toItems_gives (hns : ∀ n ∈ ns, n.Gives source limit) {ds : List Datum}
    (h : toItems source ns = .ok ds) : ∀ d ∈ ds, d.tree.Admitted limit := by
  induction ns generalizing ds with
  | nil =>
    rw [toItems] at h
    cases h
    simp
  | cons n ns ih =>
    rw [toItems] at h
    cases hd : toDatum source n with
    | error e =>
      rw [hd] at h
      cases h
    | ok d =>
      cases hrest : toItems source ns with
      | error e =>
        rw [hd, hrest] at h
        cases h
      | ok rest =>
        rw [hd, hrest] at h
        cases h
        exact List.forall_mem_cons.mpr ⟨(hns n List.mem_cons_self).2 d hd,
          ih (fun n hn => hns n (List.mem_cons_of_mem _ hn)) hrest⟩

theorem toElements_gives (hns : ∀ n ∈ ns, n.Gives source limit) (htl : Closes source limit tl)
    {ds : List Datum} (h : toElements source (ns ++ tl) = .ok ds) :
    ∀ d ∈ ds, d.tree.Admitted limit := by
  have hproper : ∀ n ∈ ns, n.isTail = false := fun n hn => (hns n hn).1
  refine toItems_gives hns ?_
  cases htl with
  | proper => rwa [List.append_nil, toElements_proper hproper] at h
  | dotted _ => rwa [toElements_dotted hproper] at h

theorem toEnding_gives (hns : ∀ n ∈ ns, n.Gives source limit) (htl : Closes source limit tl)
    {e : Datum} (h : toEnding source (ns ++ tl) = .ok e) :
    e.tree.Legible ∧ e.tree.depth ≤ limit := by
  have hproper : ∀ n ∈ ns, n.isTail = false := fun n hn => (hns n hn).1
  cases htl with
  | proper =>
    rw [List.append_nil, toEnding_proper hproper] at h
    cases h
    exact ⟨trivial, Nat.zero_le _⟩
  | dotted hn =>
    rw [toEnding_dotted hproper] at h
    exact ⟨(hn.2 e h).1, Nat.le_of_lt (hn.2 e h).2⟩

theorem gives_list (hns : ∀ n ∈ ns, n.Gives source limit) (htl : Closes source limit tl)
    (text : String) (o : Origin) :
    (Node.tree .list text o (ns ++ tl)).Gives source (limit + 1) := by
  refine ⟨rfl, fun d h => ?_⟩
  rw [toDatum] at h
  cases hcheck : checkTail o (ns ++ tl) with
  | error e =>
    rw [hcheck] at h
    cases h
  | ok u =>
    cases hending : toEnding source (ns ++ tl) with
    | error e =>
      rw [hcheck, hending] at h
      cases h
    | ok e =>
      cases hitems : toElements source (ns ++ tl) with
      | error e' =>
        rw [hcheck, hending, hitems] at h
        cases h
      | ok items =>
        rw [hcheck, hending, hitems] at h
        cases h
        cases items with
        | nil => exact ⟨trivial, Nat.succ_pos limit⟩
        | cons first rest =>
          rw [Datum.tree_listAt _ (List.cons_ne_nil first rest)]
          refine Tree.admitted_foldr (List.forall_mem_map.mpr ?_) (toEnding_gives hns htl hending)
          exact toElements_gives hns htl hitems

end Node

namespace Grammar

theorem isWord_of_symbol {cs x rest : List Char} (h : symbol cs = some (x, rest)) :
    cs = x ++ rest ∧ IsWord x ∧ atBoundary rest = true := by
  unfold symbol at h
  split at h
  · rename_i c cs' _
    split at h
    · cases h
    · rename_i hc
      simp only [Bool.or_eq_true, not_or] at hc
      cases h
      refine ⟨by simp, ⟨List.cons_ne_nil _ _, List.forall_mem_cons.mpr ⟨by simpa using hc.1, ?_⟩⟩, ?_⟩
      · intro d hd
        have hall := List.all_takeWhile (p := fun d => !isDelimiter d) (l := cs')
        simpa using List.all_eq_true.mp hall d hd
      · have hstop := List.head?_dropWhile_not (fun d => !isDelimiter d) cs'
        cases hr : cs'.dropWhile fun d => !isDelimiter d with
        | nil => rfl
        | cons d ds => simpa [hr, atBoundary] using hstop
  · cases h

theorem legible_of_kind? {x : List Char} (hx : IsWord x) (h : kind? x = some .symbol) :
    (Value.sym (String.ofList x)).Legible := by
  unfold kind? at h
  split at h
  · cases h
  rename_i hnum
  split at h
  · cases h
  split at h
  · cases h
  split at h
  · cases h
  rename_i hnil
  split at h
  · cases h
  rename_i hrest
  obtain ⟨hdot, hhash⟩ := not_or.mp hrest
  have hname : (String.ofList x).toList = x := String.toList_ofList
  refine ⟨by rwa [hname], by rwa [hname], ?_, ?_, by rw [hname]; simpa using hnum⟩
  · intro h
    exact hdot (by rw [← hname, h]; decide)
  · intro h
    exact hnil (List.mem_map.mpr ⟨"nil", List.mem_singleton_self _, by rw [← hname, h]⟩)

variable {source : Option String}

/-- An atom is made from the text that the scanner of its tag takes. -/
theorem atom_scanned {c next : Cursor} {n : Node} (h : atom c = some (n, next)) :
    ∃ tag scan taken rest, (tag, scan) ∈ atoms ∧ scan c.rest = some (taken, rest) ∧
      n = .tree tag (String.ofList taken) (.ofPosition c.position) [] ∧
      next = c.after taken rest := by
  obtain ⟨⟨tag, scan⟩, hmem, hscan⟩ := List.exists_of_findSome?_eq_some h
  obtain ⟨⟨taken, rest⟩, hr, he⟩ := Option.map_eq_some_iff.mp hscan
  obtain ⟨hn, hnext⟩ := Prod.mk.inj he
  exact ⟨tag, scan, taken, rest, hmem, hr, hn.symm, hnext.symm⟩

theorem atom_gives {c next : Cursor} {n : Node} (h : atom c = some (n, next)) (limit : Nat) :
    n.Gives source (limit + 1) := by
  obtain ⟨tag, scan, taken, rest, hmem, hscan, rfl, -⟩ := atom_scanned h
  have hleaf : ∀ {v : Value}, v.Legible → (Tree.leaf v).Admitted (limit + 1) :=
    fun hv => ⟨hv, Nat.succ_pos limit⟩
  simp only [atoms, List.mem_cons, List.not_mem_nil, or_false, Prod.mk.injEq] at hmem
  rcases hmem with ⟨rfl, rfl⟩ | ⟨rfl, rfl⟩ | ⟨rfl, rfl⟩ | ⟨rfl, rfl⟩ | ⟨rfl, rfl⟩ | ⟨rfl, rfl⟩
  · refine ⟨rfl, fun d hd => ?_⟩
    rw [Node.toDatum, Node.integer] at hd
    cases hn : readDecimal? (String.ofList taken).toList with
    | none =>
      rw [hn] at hd
      cases hd
    | some k =>
      rw [hn] at hd
      cases hd
      exact hleaf (readDecimal?_lt hn)
  · refine ⟨rfl, fun d hd => ?_⟩
    rw [Node.toDatum, Node.string] at hd
    split at hd
    · cases hd
      exact hleaf trivial
    · cases hd
  · refine ⟨rfl, fun d hd => ?_⟩
    rw [Node.toDatum] at hd
    cases hd
    exact hleaf trivial
  · refine ⟨rfl, fun d hd => ?_⟩
    rw [Node.toDatum] at hd
    cases hd
    split <;> exact hleaf trivial
  · refine ⟨rfl, fun d hd => ?_⟩
    rw [Node.toDatum] at hd
    cases hd
    exact hleaf trivial
  · refine ⟨rfl, fun d hd => ?_⟩
    rw [Node.toDatum] at hd
    cases hd
    -- the scanner of symbols also takes words that the ones before it have taken
    obtain ⟨hrest, hword, hbound⟩ := isWord_of_symbol hscan
    have hkind : kind? taken = some .symbol := by
      obtain ⟨p, cs⟩ := c
      simp only at hrest
      subst hrest
      rw [atom_word hword hbound] at h
      obtain ⟨tag, htag, he⟩ := Option.map_eq_some_iff.mp h
      have htree := (Prod.mk.inj he).1
      injection htree with ht
      rw [htag, ht]
    exact hleaf (legible_of_kind? hword hkind)

section Lists

variable {d : Cursor → Match Node} {limit : Nat}
  (hd : ∀ {c n next}, d c = .found n next → n.Gives source limit)
include hd

theorem many_gives {fuel : Nat} {c last : Cursor} {ns : List Node}
    (h : many d fuel c = .found ns last) : ∀ n ∈ ns, n.Gives source limit := by
  induction fuel generalizing c ns with
  | zero =>
    cases h
    simp
  | succ fuel ih =>
    rw [many] at h
    cases hc : d c with
    | absent =>
      rw [hc] at h
      cases h
      simp
    | tooDeep =>
      rw [hc] at h
      cases h
    | found n next =>
      cases hrest : many d fuel (gap next) with
      | found ns' last' =>
        simp only [hc, hrest] at h
        cases h
        exact List.forall_mem_cons.mpr ⟨hd hc, ih hrest⟩
      | absent =>
        simp only [hc, hrest] at h
        cases h
      | tooDeep =>
        simp only [hc, hrest] at h
        cases h

theorem dotted_gives {c next : Cursor} {n : Node} (h : dotted d c = .found n next) :
    Node.Closes source limit [n] := by
  unfold dotted at h
  split at h
  · cases h
  · split at h
    · rename_i hn
      cases h
      exact .dotted (hd hn)
    · cases h
    · cases h

omit hd in
theorem close_eq {opening c next : Cursor} {children : List Node} {n : Node}
    (h : close opening children c = .found n next) :
    n = .tree .list "" (.ofPosition opening.position) children := by
  unfold close at h
  split at h
  · cases h
    rfl
  · cases h

theorem list_gives {c next : Cursor} {n : Node} (h : list d c = .found n next) :
    n.Gives source (limit + 1) := by
  unfold list at h
  split at h
  · split at h
    · cases h
    · cases h
    · rename_i hmany
      have hitems := many_gives hd hmany
      split at h
      · cases h
      · rw [close_eq h]
        have hlist := Node.gives_list hitems .proper "" (.ofPosition c.position)
        rwa [List.append_nil] at hlist
      · rename_i htail
        rw [close_eq h]
        exact Node.gives_list hitems (dotted_gives hd htail) "" (.ofPosition c.position)
  · cases h

end Lists

theorem datum_gives {room : Nat} {c next : Cursor} {n : Node}
    (h : datum room c = .found n next) : n.Gives source room := by
  induction room generalizing c next n with
  | zero =>
    rw [datum] at h
    split at h <;> cases h
  | succ room ih =>
    rw [datum] at h
    cases hlist : list (datum room) c with
    | found n' next' =>
      rw [hlist] at h
      cases h
      exact list_gives ih hlist
    | tooDeep =>
      rw [hlist] at h
      cases h
    | absent =>
      cases hatom : atom c with
      | none =>
        simp only [hlist, hatom] at h
        cases h
      | some r =>
        simp only [hlist, hatom] at h
        cases h
        exact atom_gives hatom room

theorem parse_gives {room : Nat} {text : List Char} {ns : List Node}
    (h : parse room text = .ok ns) : ∀ n ∈ ns, n.Gives source room := by
  unfold parse at h
  split at h
  · rename_i hprogram
    split at h
    · cases h
      exact many_gives datum_gives hprogram
    · cases h
  · cases h

end Grammar

theorem read_admitted {source text : String} {data : List Datum}
    (h : read source text = .ok data) : ∀ d ∈ data, d.tree.Admitted nestingLimit := by
  rw [read, readText] at h
  cases hparse : parse nestingLimit text.toList with
  | error e =>
    rw [hparse] at h
    cases h
  | ok ns =>
    rw [hparse] at h
    exact Node.toItems_gives (Grammar.parse_gives hparse) h

end Vau
