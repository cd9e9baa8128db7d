import Vau.Keys
import Vau.Proofs.Lineage

/-! Shadowing. In a forest of frames the frames from any one outwards come to an end, and a name is
decided by the first of them that binds it. A frame is open to a chain for a name if no frame of the
chain before it binds the name: a definition is seen through the chains to which its frame is open,
an assignment through those to which the deciding frame is. -/

namespace Vau

theorem Frame.binds_iff {f : Frame} {name : String} :
    f.binds name = true ↔ ∃ v, f.get? name = some v :=
  Option.isSome_iff_exists

theorem Frame.binds_iff_mem_keys {f : Frame} {name : String} : f.binds name = true ↔ name ∈ f.keys := by
  have hlookup : ∀ bs : List (String × Value),
      (bs.lookup name).isSome = true ↔ name ∈ bs.map Prod.fst := by
    intro bs
    induction bs with
    | nil => simp
    | cons b bs ih =>
      rw [List.lookup_cons]
      by_cases hb : name = b.1
      · simp [hb]
      · rw [beq_false_of_ne hb, List.map_cons, List.mem_cons, ← ih]
        simp [hb]
  exact hlookup f.bindings

namespace Store

variable {s : Store} {e d o : Nat} {es ds : List Nat} {name key : String} {v : Value}

/-- The parents of frames exist, and the frames outwards from any one come to an end. -/
structure Forest (s : Store) : Prop where
  closed : ∀ e p, (s.frame e).parent = some p → p < s.frames.size
  chain : ∀ e < s.frames.size, ∃ es, s.Chain e es

/-- The frame `o` is among the frames, and none before it binds the name. -/
def Open (s : Store) (name : String) (es : List Nat) (o : Nat) : Prop :=
  ∃ inner outer, es = inner ++ o :: outer ∧ ∀ d ∈ inner, (s.frame d).binds name = false

/-- The frame `o` is the first of the frames that binds the name. -/
def First (s : Store) (name : String) (es : List Nat) (o : Nat) : Prop :=
  s.Open name es o ∧ (s.frame o).binds name = true

theorem Chain.unique (h : s.Chain e es) (h' : s.Chain e ds) : es = ds := by
  induction h generalizing ds with
  | root hp =>
    cases h' with
    | root _ => rfl
    | child hp' _ =>
      rw [hp] at hp'
      cases hp'
  | child hp _ ih =>
    cases h' with
    | root hp' =>
      rw [hp] at hp'
      cases hp'
    | child hp' hrest =>
      rw [hp] at hp'
      cases hp'
      rw [ih hrest]

/-- From each frame of a chain on, the rest of it is a chain. -/
theorem Chain.rest (h : s.Chain e es) (hd : d ∈ es) :
    ∃ ds, s.Chain d ds ∧ ds.length ≤ es.length := by
  induction h with
  | root hp =>
    obtain rfl := List.mem_singleton.mp hd
    exact ⟨[d], .root hp, Nat.le_refl _⟩
  | @child e p es hp hes ih =>
    rcases List.mem_cons.mp hd with rfl | hd
    · exact ⟨d :: es, .child hp hes, Nat.le_refl _⟩
    · obtain ⟨ds, hds, hle⟩ := ih hd
      exact ⟨ds, hds, Nat.le_succ_of_le hle⟩

theorem Chain.nodup (h : s.Chain e es) : es.Nodup := by
  induction h with
  | root _ => exact List.nodup_singleton _
  | @child e p es hp hes ih =>
    refine List.nodup_cons.mpr ⟨fun hmem => ?_, ih⟩
    obtain ⟨ds, hds, hle⟩ := hes.rest hmem
    have hsame : ds = e :: es := hds.unique (.child hp hes)
    have hlength : ds.length = es.length + 1 := congrArg List.length hsame
    omega

namespace Forest

theorem mem_lt (h : s.Forest) (he : e < s.frames.size) (hes : s.Chain e es) :
    ∀ d ∈ es, d < s.frames.size := by
  induction hes with
  | root _ => exact List.forall_mem_singleton.mpr he
  | child hp _ ih => exact List.forall_mem_cons.mpr ⟨he, ih (h.closed _ _ hp)⟩

theorem length_le (h : s.Forest) (he : e < s.frames.size) (hes : s.Chain e es) :
    es.length ≤ s.frames.size := by
  have hsub : es ⊆ List.range s.frames.size :=
    fun d hd => List.mem_range.mpr (h.mem_lt he hes d hd)
  have hle := hes.nodup.length_le_of_subset hsub
  rwa [List.length_range] at hle

theorem owner_eq (h : s.Forest) (he : e < s.frames.size) (hes : s.Chain e es) (name : String) :
    s.owner? e name = es.find? fun d => (s.frame d).binds name :=
  hes.ownerWithin name (h.length_le he hes)

theorem lookup_eq (h : s.Forest) (he : e < s.frames.size) (hes : s.Chain e es) (name : String) :
    s.lookup? e name = es.findSome? fun d => (s.frame d).get? name :=
  hes.lookupWithin name (h.length_le he hes)

/-- The owner of a name is the first frame of the chain that binds it. -/
theorem owner_iff (h : s.Forest) (he : e < s.frames.size) (hes : s.Chain e es) :
    s.owner? e name = some o ↔ s.First name es o := by
  rw [h.owner_eq he hes, List.find?_eq_some_iff_append]
  simp only [Bool.not_eq_true']
  constructor
  · rintro ⟨hbinds, inner, outer, hes, hinner⟩
    exact ⟨⟨inner, outer, hes, hinner⟩, hbinds⟩
  · rintro ⟨⟨inner, outer, hes, hinner⟩, hbinds⟩
    exact ⟨hbinds, inner, outer, hes, hinner⟩

end Forest

/-- What a name stands for is what its owner binds to it. -/
theorem findSome?_eq (es : List Nat) (name : String) :
    (es.findSome? fun d => (s.frame d).get? name) =
      (es.find? fun d => (s.frame d).binds name).bind fun o => (s.frame o).get? name := by
  induction es with
  | nil => rfl
  | cons e es ih =>
    cases hget : (s.frame e).get? name with
    | none =>
      have hbinds : (s.frame e).binds name = false := by simp [Frame.binds, hget]
      simp only [List.findSome?_cons, hget, List.find?_cons, hbinds, ih]
    | some w =>
      have hbinds : (s.frame e).binds name = true := by simp [Frame.binds, hget]
      simp [hget, hbinds]

theorem Forest.lookup_owner (h : s.Forest) (he : e < s.frames.size) (name : String) :
    s.lookup? e name = (s.owner? e name).bind fun o => (s.frame o).get? name := by
  obtain ⟨es, hes⟩ := h.chain e he
  rw [h.lookup_eq he hes, h.owner_eq he hes, findSome?_eq]

theorem Forest.lookup_none (h : s.Forest) (he : e < s.frames.size) :
    s.lookup? e name = none ↔ s.owner? e name = none := by
  rw [h.lookup_owner he]
  cases hown : s.owner? e name with
  | none => simp
  | some o =>
    obtain ⟨es, hes⟩ := h.chain e he
    obtain ⟨-, hbinds⟩ := (h.owner_iff he hes).mp hown
    obtain ⟨w, hw⟩ := Frame.binds_iff.mp hbinds
    simp [hw]

section Define

variable (he : e < s.frames.size)
include he

theorem parent_define (name : String) (v : Value) (d : Nat) :
    ((s.define e name v).frame d).parent = (s.frame d).parent := by
  rw [frame_define _ _ _ _ _ he]
  by_cases hd : d = e
  · rw [if_pos hd]
    rfl
  · rw [if_neg hd]

theorem Chain.define (h : s.Chain d ds) (name : String) (v : Value) :
    (s.define e name v).Chain d ds := by
  induction h with
  | root hp => exact .root ((parent_define he name v _).trans hp)
  | child hp _ ih => exact .child ((parent_define he name v _).trans hp) ih

theorem Forest.define (h : s.Forest) (name : String) (v : Value) : (s.define e name v).Forest where
  closed d p hp := by
    rw [parent_define he] at hp
    have hlt := h.closed d p hp
    simpa [Store.define] using hlt
  chain d hd := by
    have hlt : d < s.frames.size := by simpa [Store.define] using hd
    obtain ⟨ds, hds⟩ := h.chain d hlt
    exact ⟨ds, hds.define he name v⟩

theorem get?_define (name key : String) (v : Value) (d : Nat) :
    ((s.define e name v).frame d).get? key =
      if d = e ∧ key = name then some v else (s.frame d).get? key := by
  rw [frame_define _ _ _ _ _ he]
  by_cases hd : d = e
  · simp [hd]
  · simp [hd]

theorem findSome?_define (name : String) (v : Value) (ds : List Nat) :
    (s.Open name ds e →
      (ds.findSome? fun d => ((s.define e name v).frame d).get? name) = some v) ∧
    (¬ s.Open name ds e →
      (ds.findSome? fun d => ((s.define e name v).frame d).get? name) =
        ds.findSome? fun d => (s.frame d).get? name) := by
  induction ds with
  | nil =>
    refine ⟨?_, fun _ => rfl⟩
    rintro ⟨inner, outer, hempty, -⟩
    simp at hempty
  | cons d ds ih =>
    have hget := get?_define he name name v d
    by_cases hd : d = e
    · have hopen : s.Open name (d :: ds) e := ⟨[], ds, by rw [hd]; rfl, List.forall_mem_nil _⟩
      rw [if_pos ⟨hd, rfl⟩] at hget
      exact ⟨fun _ => by simp [hget], fun hclosed => absurd hopen hclosed⟩
    · rw [if_neg fun h => hd h.1] at hget
      -- the frame itself decides if it binds the name, and the frames after it do if not
      cases hbound : (s.frame d).get? name with
      | some w =>
        have hbinds : (s.frame d).binds name = true := Frame.binds_iff.mpr ⟨w, hbound⟩
        refine ⟨?_, fun _ => by simp [hget, hbound]⟩
        rintro ⟨inner, outer, hds, hinner⟩
        cases inner with
        | nil => exact absurd (List.cons.inj hds).1 hd
        | cons c inner =>
          have hc := hinner c List.mem_cons_self
          rw [← (List.cons.inj hds).1, hbinds] at hc
          cases hc
      | none =>
        have hbinds : (s.frame d).binds name = false := by simp [Frame.binds, hbound]
        have hopen : s.Open name (d :: ds) e ↔ s.Open name ds e := by
          constructor
          · rintro ⟨inner, outer, hds, hinner⟩
            cases inner with
            | nil => exact absurd (List.cons.inj hds).1 hd
            | cons c inner =>
              exact ⟨inner, outer, (List.cons.inj hds).2, (List.forall_mem_cons.mp hinner).2⟩
          · rintro ⟨inner, outer, rfl, hinner⟩
            exact ⟨d :: inner, outer, rfl, List.forall_mem_cons.mpr ⟨hbinds, hinner⟩⟩
        simp only [List.findSome?_cons, hget, hbound, hopen]
        exact ih

/-- A definition is seen through the chains to which its frame is open, and nowhere else. -/
theorem Forest.lookup_define (h : s.Forest) (hd : d < s.frames.size) (hds : s.Chain d ds)
    (name key : String) (v : Value) :
    (key = name ∧ s.Open name ds e → (s.define e name v).lookup? d key = some v) ∧
    (¬ (key = name ∧ s.Open name ds e) → (s.define e name v).lookup? d key = s.lookup? d key) := by
  have hd' : d < (s.define e name v).frames.size := by simpa [Store.define] using hd
  rw [(h.define he name v).lookup_eq hd' (hds.define he name v), h.lookup_eq hd hds]
  by_cases hkey : key = name
  · subst hkey
    obtain ⟨hopen, hclosed⟩ := findSome?_define he key v ds
    exact ⟨fun h => hopen h.2, fun h => hclosed fun ho => h ⟨rfl, ho⟩⟩
  · have hsame : ∀ c, ((s.define e name v).frame c).get? key = (s.frame c).get? key := by
      intro c
      rw [get?_define he, if_neg fun h => hkey h.2]
    exact ⟨fun h => absurd h.1 hkey, fun _ => by simp only [hsame]⟩

/-- A name that a frame binds is defined there without a change of the names of any frame. -/
theorem keys_define (hbinds : (s.frame e).binds name = true) (v : Value) (d : Nat) :
    ((s.define e name v).frame d).keys = (s.frame d).keys := by
  rw [frame_define _ _ _ _ _ he]
  by_cases hd : d = e
  · have hmem : name ∈ (s.frame d).keys := Frame.binds_iff_mem_keys.mp (hd ▸ hbinds)
    rw [if_pos hd, Frame.keys_define, if_pos hmem]
  · rw [if_neg hd]

end Define

theorem lookupKey_eq (s : Store) (d : Nat) (key : String) :
    s.lookupKey d (.sym key) = match s.lookup? d key with
      | some w => .ok w
      | none => .error (.unbound key) :=
  rfl

theorem lookupKey_congr {s' : Store} (h : s'.lookup? d key = s.lookup? d key) :
    s'.lookupKey d (.sym key) = s.lookupKey d (.sym key) := by
  rw [lookupKey_eq, lookupKey_eq, h]

theorem lookupKey_of_some (h : s.lookup? d key = some v) : s.lookupKey d (.sym key) = .ok v := by
  rw [lookupKey_eq, h]

/-- The owner of a name is open to just the chains whose deciding frame it is. -/
theorem Forest.open_iff_owner (h : s.Forest) (hd : d < s.frames.size) (hds : s.Chain d ds)
    (hbinds : (s.frame o).binds name = true) : s.Open name ds o ↔ s.owner? d name = some o := by
  rw [h.owner_iff hd hds]
  exact ⟨fun hopen => ⟨hopen, hbinds⟩, And.left⟩

section Keys

variable (h : s.Forest) (he : e < s.frames.size) (hes : s.Chain e es)
include h he hes

theorem Forest.lookupKey_ok : s.lookupKey e (.sym name) = .ok v ↔
    ∃ o, s.First name es o ∧ (s.frame o).get? name = some v := by
  have hvalue : s.lookupKey e (.sym name) = .ok v ↔ s.lookup? e name = some v := by
    rw [lookupKey_eq]
    cases s.lookup? e name <;> simp
  rw [hvalue, h.lookup_owner he, Option.bind_eq_some_iff]
  simp only [h.owner_iff he hes]

theorem Forest.lookupKey_error {f : Failure} : s.lookupKey e (.sym name) = .error f ↔
    f = .unbound name ∧ ∀ o, ¬ s.First name es o := by
  have hnone : s.lookup? e name = none ↔ ∀ o, ¬ s.First name es o := by
    rw [h.lookup_none he, Option.eq_none_iff_forall_ne_some]
    simp only [ne_eq, h.owner_iff he hes]
  rw [← hnone, lookupKey_eq]
  cases s.lookup? e name <;> simp [eq_comm]

omit hes in
theorem Forest.assignKey_error {f : Failure} :
    s.assignKey e (.sym name) v = .error f ↔ s.lookupKey e (.sym name) = .error f := by
  have hnone : s.lookup? e name = none ↔ s.owner? e name = none := h.lookup_none he
  rw [lookupKey_eq]
  simp only [assignKey, assign?]
  cases hown : s.owner? e name with
  | none => simp [hnone.mpr hown]
  | some o =>
    have hsome : s.lookup? e name ≠ none := fun hno => by simp [hnone.mp hno] at hown
    obtain ⟨w, hw⟩ := Option.ne_none_iff_exists'.mp hsome
    simp [hw]

/-- An assignment is a definition in the owner, which binds the name already. -/
theorem Forest.assignKey_ok {s' : Store} (hs' : s.assignKey e (.sym name) v = .ok s') :
    ∃ o < s.frames.size, s.owner? e name = some o ∧ (s.frame o).binds name = true ∧
      s' = s.define o name v := by
  simp only [assignKey, assign?] at hs'
  cases hown : s.owner? e name with
  | none =>
    rw [hown] at hs'
    cases hs'
  | some o =>
    rw [hown] at hs'
    cases hs'
    obtain ⟨⟨inner, outer, hsplit, -⟩, hbinds⟩ := (h.owner_iff he hes).mp hown
    have hmem : o ∈ es := hsplit ▸ List.mem_append_right inner List.mem_cons_self
    exact ⟨o, h.mem_lt he hes o hmem, rfl, hbinds, rfl⟩

/-- In a forest, seen from the frame `e` and from any other one: the owner of a name is the first
frame outwards that binds it, and decides what it stands for; a definition is seen from where its
frame is open; an assignment fails where a lookup does and else is seen from where the owner is the
same, without a new name in any frame. -/
theorem Forest.scoping_laws (hd : d < s.frames.size) (hds : s.Chain d ds) (name key : String)
    (v : Value) :
    (∀ o, s.ownerOfKey? e (.sym name) = some o ↔ s.First name es o) ∧
    (∀ w, s.lookupKey e (.sym name) = .ok w ↔
      ∃ o, s.First name es o ∧ (s.frame o).get? name = some w) ∧
    (∀ f, s.lookupKey e (.sym name) = .error f ↔ f = .unbound name ∧ ∀ o, ¬ s.First name es o) ∧
    (∃ s', s.defineKey e (.sym name) v = .ok s' ∧
      (key = name ∧ s.Open name ds e → s'.lookupKey d (.sym key) = .ok v) ∧
      (¬ (key = name ∧ s.Open name ds e) →
        s'.lookupKey d (.sym key) = s.lookupKey d (.sym key))) ∧
    (∀ f, s.assignKey e (.sym name) v = .error f ↔ s.lookupKey e (.sym name) = .error f) ∧
    ∀ s', s.assignKey e (.sym name) v = .ok s' →
      (∀ c, (s'.frame c).keys = (s.frame c).keys) ∧
      (key = name ∧ s.ownerOfKey? d (.sym name) = s.ownerOfKey? e (.sym name) →
        s'.lookupKey d (.sym key) = .ok v) ∧
      (¬ (key = name ∧ s.ownerOfKey? d (.sym name) = s.ownerOfKey? e (.sym name)) →
        s'.lookupKey d (.sym key) = s.lookupKey d (.sym key)) := by
  refine ⟨fun o => h.owner_iff he hes, fun w => h.lookupKey_ok he hes,
    fun f => h.lookupKey_error he hes, ⟨s.define e name v, rfl, ?_, ?_⟩,
    fun f => h.assignKey_error he, fun s' hs' => ?_⟩
  · intro hseen
    exact lookupKey_of_some ((h.lookup_define he hd hds name key v).1 hseen)
  · intro hhidden
    exact lookupKey_congr ((h.lookup_define he hd hds name key v).2 hhidden)
  · obtain ⟨o, ho, hown, hbinds, rfl⟩ := h.assignKey_ok he hes hs'
    have hopen : s.Open name ds o ↔ s.ownerOfKey? d (.sym name) = s.ownerOfKey? e (.sym name) := by
      rw [h.open_iff_owner hd hds hbinds]
      show _ ↔ s.owner? d name = s.owner? e name
      rw [hown]
    obtain ⟨hseen, hhidden⟩ := h.lookup_define ho hd hds name key v
    rw [hopen] at hseen hhidden
    exact ⟨keys_define ho hbinds v, fun hk => lookupKey_of_some (hseen hk),
      fun hk => lookupKey_congr (hhidden hk)⟩

end Keys

/-- A frame with two frames inside it, one of which binds the name of the outer one anew. -/
def siblings : Store where
  frames := #[⟨[("x", .int 1)], none⟩, ⟨[("x", .int 2)], some 0⟩, ⟨[], some 0⟩]

theorem siblings_chain : siblings.Chain 0 [0] ∧ siblings.Chain 1 [1, 0] ∧ siblings.Chain 2 [2, 0] :=
  ⟨.root rfl, .child rfl (.root rfl), .child rfl (.root rfl)⟩

theorem siblings_forest : siblings.Forest where
  closed e p hp := by
    have hparent : ∀ e p, (siblings.frame e).parent = some p → p = 0 := by
      rintro (_ | _ | _ | e) p hp
      · cases hp
      · exact (Option.some.inj hp).symm
      · exact (Option.some.inj hp).symm
      · simp [siblings, Store.frame] at hp
    rw [hparent e p hp]
    decide
  chain e he := by
    obtain ⟨h₀, h₁, h₂⟩ := siblings_chain
    rcases e with _ | _ | _ | e
    · exact ⟨_, h₀⟩
    · exact ⟨_, h₁⟩
    · exact ⟨_, h₂⟩
    · exact absurd he (by simp [siblings])

/-- What is assigned in one inner frame is seen from the outer one, but not from where it is
shadowed. -/
theorem scoping_laws_siblings : ∃ s', siblings.assignKey 2 (.sym "x") (.int 9) = .ok s' ∧
    s'.lookupKey 0 (.sym "x") = .ok (.int 9) ∧ s'.lookupKey 1 (.sym "x") = .ok (.int 2) := by
  obtain ⟨h₀, h₁, h₂⟩ := siblings_chain
  have hlaws {d : Nat} {ds : List Nat} (hd : d < 3) (hds : siblings.Chain d ds) :=
    (siblings_forest.scoping_laws (by decide) h₂ hd hds "x" "x" (.int 9)).2.2.2.2.2
  refine ⟨siblings.define 0 "x" (.int 9), rfl, ?_, ?_⟩
  · obtain ⟨-, hseen, -⟩ := hlaws (by decide) h₀ _ rfl
    exact hseen ⟨rfl, rfl⟩
  · obtain ⟨-, -, hhidden⟩ := hlaws (by decide) h₁ _ rfl
    exact hhidden (by decide)

end Store

end Vau
