import Vau.Proofs.Admitted
import Vau.Proofs.Tokens

/-! Places. Every node of a parse tree was written where its origin says: a list by the
parenthesis that opens it, and an atom in full. -/

namespace Vau

/-- The text stands in the source at the place. -/
def WrittenAt (source written : List Char) (o : Origin) : Prop :=
  ∃ before after, source = before ++ (written ++ after) ∧
    o = .ofPosition (Position.start.advance before)

/-- What the text of a node begins with. -/
def Tag.mark (text : String) : Tag → List Char
  | .list => ['(']
  | .tail => ['.']
  | _ => text.toList

theorem Origin.ofPosition_inj {p q : Position} (h : Origin.ofPosition p = .ofPosition q) :
    p = q := by
  obtain ⟨line, column⟩ := p
  obtain ⟨line', column'⟩ := q
  cases h
  rfl

namespace Node

/-- The node is a tree, each part of which was written in the source as it says. -/
inductive Placed (source : List Char) : Node → Prop
  | tree {tag : Tag} {text : String} {o : Origin} {children : List Node}
    (hwritten : WrittenAt source (tag.mark text) o)
    (hnumeral : tag = .integer → isNumeral text.toList = true)
    (hchildren : ∀ n ∈ children, n.Placed source) : Placed source (.tree tag text o children)

/-- A list within the tree begins at the position. -/
inductive HasList (p : Position) : Node → Prop
  | here {text : String} {children : List Node} :
    HasList p (.tree .list text (.ofPosition p) children)
  | inside {tag : Tag} {text : String} {o : Origin} {children : List Node} {n : Node}
    (hn : n ∈ children) (h : n.HasList p) : HasList p (.tree tag text o children)

/-- Where a list of a parse tree begins, there is a parenthesis in the source. -/
theorem HasList.opens {source : List Char} {p : Position} {n : Node} (h : n.HasList p)
    (hn : n.Placed source) :
    ∃ before after, source = before ++ '(' :: after ∧ Position.start.advance before = p := by
  induction h with
  | @here text children =>
    obtain ⟨⟨before, after, hsource, ho⟩, -, -⟩ := hn
    exact ⟨before, after, hsource, (Origin.ofPosition_inj ho).symm⟩
  | inside hmem _ ih =>
    obtain ⟨-, -, hchildren⟩ := hn
    exact ih (hchildren _ hmem)

end Node

/-- The cursor stands in the source, after the part that its position counts. -/
def Cursor.In (source : List Char) (c : Cursor) : Prop :=
  ∃ before, source = before ++ c.rest ∧ c.position = Position.start.advance before

namespace Cursor

variable {source : List Char} {c : Cursor} {taken rest : List Char}

theorem in_start (source : List Char) : (Cursor.start source).In source := ⟨[], rfl, rfl⟩

theorem In.after (h : c.In source) (hc : c.rest = taken ++ rest) :
    (c.after taken rest).In source := by
  obtain ⟨before, hsource, hposition⟩ := h
  refine ⟨before ++ taken, ?_, ?_⟩
  · simp only [Cursor.after, List.append_assoc, ← hc, hsource]
  · simp only [Cursor.after, Position.advance_append, hposition]

theorem In.written (h : c.In source) (hc : c.rest = taken ++ rest) :
    WrittenAt source taken (.ofPosition c.position) := by
  obtain ⟨before, hsource, hposition⟩ := h
  exact ⟨before, rest, by rw [hsource, hc], by rw [hposition]⟩

end Cursor

namespace Grammar

theorem skip_taken (comment : Bool) (p : Position) (cs : List Char) :
    ∃ taken, cs = taken ++ (skip comment p cs).rest ∧
      (skip comment p cs).position = p.advance taken := by
  induction cs generalizing comment p with
  | nil => exact ⟨[], rfl, rfl⟩
  | cons c cs ih =>
    have hstep : ∀ mode, ∃ taken, c :: cs = taken ++ (skip mode (p.step c) cs).rest ∧
        (skip mode (p.step c) cs).position = p.advance taken := by
      intro mode
      obtain ⟨taken, hcs, hp⟩ := ih mode (p.step c)
      exact ⟨c :: taken, congrArg (c :: ·) hcs, hp⟩
    unfold skip
    split
    · exact hstep _
    · split
      · exact hstep _
      · split
        · exact hstep _
        · exact ⟨[], rfl, rfl⟩

theorem in_gap {source : List Char} {c : Cursor} (h : c.In source) : (gap c).In source := by
  obtain ⟨taken, hrest, hposition⟩ := skip_taken false c.position c.rest
  have hafter := h.after hrest
  rwa [Cursor.after, ← hposition] at hafter

theorem append_of_following? {w cs rest : List Char} (h : following? w cs = some rest) :
    cs = w ++ rest := by
  induction w generalizing cs with
  | nil =>
    cases h
    rfl
  | cons a w ih =>
    cases cs with
    | nil => cases h
    | cons b cs =>
      rw [following?] at h
      split at h
      · rename_i hab
        rw [ih h, hab, List.cons_append]
      · cases h

theorem taken_of_words {ws : List String} {cs taken rest : List Char}
    (h : words ws cs = some (taken, rest)) : taken ∈ ws.map String.toList ∧ cs = taken ++ rest := by
  obtain ⟨w, hmem, hw⟩ := List.exists_of_findSome?_eq_some h
  split at hw
  · rename_i hfollowing
    split at hw
    · cases hw
      exact ⟨List.mem_map_of_mem hmem, append_of_following? hfollowing⟩
    · cases hw
  · cases hw

theorem isNumeral_digits {ds : List Char} (hne : ds ≠ []) (hall : ds.all Char.isDigit = true) :
    isNumeral ds = true := by
  obtain ⟨c, cs, rfl⟩ := List.exists_cons_of_ne_nil hne
  have hc : c.isDigit = true := List.all_eq_true.mp hall c List.mem_cons_self
  rw [isNumeral_unsigned cs (by rintro rfl; exact absurd hc (by decide))
    (by rintro rfl; exact absurd hc (by decide)), hall]

theorem numeral_of_digits {sign cs taken rest : List Char}
    (h : digits sign cs = some (taken, rest)) :
    ∃ ds, taken = sign ++ ds ∧ cs = ds ++ rest ∧ ds ≠ [] ∧ ds.all Char.isDigit = true := by
  unfold digits at h
  dsimp only at h
  split at h
  · rename_i hds
    cases h
    refine ⟨cs.takeWhile Char.isDigit, rfl, by simp, ?_, List.all_takeWhile⟩
    simpa using (Bool.and_eq_true_iff.mp hds).1
  · cases h

theorem numeral_of_integer {cs taken rest : List Char} (h : integer cs = some (taken, rest)) :
    cs = taken ++ rest ∧ isNumeral taken = true := by
  unfold integer at h
  split at h
  · obtain ⟨ds, rfl, rfl, hne, hall⟩ := numeral_of_digits h
    exact ⟨rfl, by simp [isNumeral, hne, hall]⟩
  · obtain ⟨ds, rfl, rfl, hne, hall⟩ := numeral_of_digits h
    exact ⟨rfl, by simp [isNumeral, hne, hall]⟩
  · obtain ⟨ds, rfl, rfl, hne, hall⟩ := numeral_of_digits h
    exact ⟨rfl, isNumeral_digits hne hall⟩

theorem append_of_string {cs taken rest : List Char} (h : string cs = some (taken, rest)) :
    cs = taken ++ rest := by
  unfold string at h
  split at h
  · obtain ⟨⟨body, rest'⟩, hbody, he⟩ := Option.map_eq_some_iff.mp h
    cases he
    rw [(stringBody_iff.mp hbody).2]
    rfl
  · cases h

section Rules

variable {source : List Char}

theorem atom_placed {c next : Cursor} {n : Node} (hc : c.In source)
    (h : atom c = some (n, next)) : next.In source ∧ n.Placed source := by
  obtain ⟨tag, scan, taken, rest, hmem, hscan, rfl, rfl⟩ := atom_scanned h
  have hnode : c.rest = taken ++ rest → tag.mark (String.ofList taken) = taken →
      (tag = .integer → isNumeral taken = true) →
      (c.after taken rest).In source ∧
        (Node.tree tag (String.ofList taken) (.ofPosition c.position) []).Placed source := by
    intro hrest hmark hnumeral
    refine ⟨hc.after hrest, .tree ?_ ?_ fun n hn => absurd hn List.not_mem_nil⟩
    · rw [hmark]
      exact hc.written hrest
    · rwa [String.toList_ofList]
  simp only [atoms, List.mem_cons, List.not_mem_nil, or_false, Prod.mk.injEq] at hmem
  rcases hmem with ⟨rfl, rfl⟩ | ⟨rfl, rfl⟩ | ⟨rfl, rfl⟩ | ⟨rfl, rfl⟩ | ⟨rfl, rfl⟩ | ⟨rfl, rfl⟩
  · obtain ⟨hrest, hnumeral⟩ := numeral_of_integer hscan
    exact hnode hrest String.toList_ofList fun _ => hnumeral
  · exact hnode (append_of_string hscan) String.toList_ofList fun h => absurd h (by decide)
  · exact hnode (taken_of_words hscan).2 String.toList_ofList fun h => absurd h (by decide)
  · exact hnode (taken_of_words hscan).2 String.toList_ofList fun h => absurd h (by decide)
  · exact hnode (taken_of_words hscan).2 String.toList_ofList fun h => absurd h (by decide)
  · exact hnode (isWord_of_symbol hscan).1 String.toList_ofList fun h => absurd h (by decide)

variable {d : Cursor → Match Node}
  (hd : ∀ {c n next}, c.In source → d c = .found n next → next.In source ∧ n.Placed source)
include hd

theorem many_placed {fuel : Nat} {c last : Cursor} {ns : List Node} (hc : c.In source)
    (h : many d fuel c = .found ns last) : last.In source ∧ ∀ n ∈ ns, n.Placed source := by
  induction fuel generalizing c ns with
  | zero =>
    cases h
    exact ⟨hc, fun n hn => absurd hn List.not_mem_nil⟩
  | succ fuel ih =>
    rw [many] at h
    cases hfirst : d c with
    | absent =>
      rw [hfirst] at h
      cases h
      exact ⟨hc, fun n hn => absurd hn List.not_mem_nil⟩
    | tooDeep =>
      rw [hfirst] at h
      cases h
    | found n next =>
      obtain ⟨hnext, hn⟩ := hd hc hfirst
      cases hrest : many d fuel (gap next) with
      | found ns' last' =>
        simp only [hfirst, hrest] at h
        cases h
        obtain ⟨hlast, hns⟩ := ih (in_gap hnext) hrest
        exact ⟨hlast, List.forall_mem_cons.mpr ⟨hn, hns⟩⟩
      | absent =>
        simp only [hfirst, hrest] at h
        cases h
      | tooDeep =>
        simp only [hfirst, hrest] at h
        cases h

theorem dotted_placed {c next : Cursor} {n : Node} (hc : c.In source)
    (h : dotted d c = .found n next) : next.In source ∧ n.Placed source := by
  unfold dotted at h
  split at h
  · cases h
  · rename_i taken rest hdot
    obtain ⟨hmem, hrest⟩ := taken_of_words hdot
    obtain rfl : taken = ['.'] := by simpa using hmem
    split at h
    · rename_i m last hm
      cases h
      obtain ⟨hlast, hplaced⟩ := hd (in_gap (hc.after hrest)) hm
      exact ⟨in_gap hlast, .tree (hc.written hrest) nofun (List.forall_mem_singleton.mpr hplaced)⟩
    · cases h
    · cases h

omit hd in
theorem close_placed {opening c next : Cursor} {children : List Node} {n : Node} (hc : c.In source)
    (hopening : WrittenAt source ['('] (.ofPosition opening.position))
    (hchildren : ∀ n ∈ children, n.Placed source)
    (h : close opening children c = .found n next) : next.In source ∧ n.Placed source := by
  unfold close at h
  split at h
  · rename_i rest hrest
    cases h
    exact ⟨hc.after hrest, .tree hopening nofun hchildren⟩
  · cases h

theorem list_placed {c next : Cursor} {n : Node} (hc : c.In source)
    (h : list d c = .found n next) : next.In source ∧ n.Placed source := by
  unfold list at h
  split at h
  · rename_i rest hrest
    have hopening : WrittenAt source ['('] (.ofPosition c.position) := hc.written hrest
    have hinner : (c.after ['('] rest).In source := hc.after hrest
    split at h
    · cases h
    · cases h
    · rename_i items next' hmany
      obtain ⟨hnext, hitems⟩ := many_placed hd (in_gap hinner) hmany
      split at h
      · cases h
      · exact close_placed hnext hopening hitems h
      · rename_i tail last htail
        obtain ⟨hlast, hplaced⟩ := dotted_placed hd hnext htail
        refine close_placed hlast hopening (fun m hm => ?_) h
        rcases List.mem_append.mp hm with hm | hm
        · exact hitems m hm
        · exact List.mem_singleton.mp hm ▸ hplaced
  · cases h

end Rules

theorem datum_placed {source : List Char} {room : Nat} {c next : Cursor} {n : Node}
    (hc : c.In source) (h : datum room c = .found n next) :
    next.In source ∧ n.Placed source := by
  induction room generalizing c next n with
  | zero =>
    rw [datum] at h
    split at h <;> cases h
  | succ room ih =>
    rw [datum] at h
    cases hlist : list (datum room) c with
    | found n' next' =>
      rw [hlist] at h
      cases h
      exact list_placed ih hc hlist
    | tooDeep =>
      rw [hlist] at h
      cases h
    | absent =>
      cases hatom : atom c with
      | none =>
        simp only [hlist, hatom] at h
        cases h
      | some r =>
        simp only [hlist, hatom] at h
        cases h
        exact atom_placed hc hatom

/-- What is parsed is placed in the text it is parsed from. -/
theorem parse_placed {room : Nat} {text : List Char} {ns : List Node}
    (h : parse room text = .ok ns) : ∀ n ∈ ns, n.Placed text := by
  unfold parse at h
  split at h
  · rename_i hprogram
    split at h
    · cases h
      exact (many_placed datum_placed (in_gap (Cursor.in_start text)) hprogram).2
    · cases h
  · cases h

end Grammar

end Vau
