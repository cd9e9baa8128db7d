import Vau.Proofs.Layout

/-! Texts on later lines. Read from a place some lines further down, a text is read in the same
way, and all that is read of it stands as many lines further down. -/

namespace Vau

def Position.lowered (k : Int) (p : Position) : Position := ⟨p.line + k, p.column⟩

def Location.lowered (k : Int) (l : Location) : Location := { l with line := l.line + k }

def Origin.lowered (k : Int) (o : Origin) : Origin := { o with line := o.line.map (· + k) }

def Cursor.lowered (k : Int) (c : Cursor) : Cursor := ⟨c.position.lowered k, c.rest⟩

/-- The datum as it is read `k` lines further down. -/
def Datum.lowered (k : Int) : Datum → Datum := moved (Option.map (Location.lowered k))

def Node.lowered (k : Int) : Node → Node :=
  moved (Origin.lowered k) (Option.map (Location.lowered k))

theorem Datum.unplaced_lowered (k : Int) (d : Datum) : (d.lowered k).unplaced = d.unplaced := by
  unfold lowered
  induction d with
  | pair head tail location ihh iht => rw [moved, unplaced, unplaced, ihh, iht]
  | group items ih => rw [moved, unplaced, unplaced, ih]
  | _ => rfl

namespace Position

variable (k : Int) (p : Position)

theorem step_lowered (c : Char) : (p.lowered k).step c = (p.step c).lowered k := by
  simp only [step, lowered]
  split
  · simp only [Int.add_right_comm]
  · rfl

theorem advance_lowered (cs : List Char) : (p.lowered k).advance cs = (p.advance cs).lowered k := by
  induction cs generalizing p with
  | nil => rfl
  | cons c cs ih => rw [advance_cons, advance_cons, step_lowered, ih]

theorem line_advance (cs : List Char) : (p.advance cs).line = p.line + cs.count '\n' := by
  induction cs generalizing p with
  | nil => simp
  | cons c cs ih =>
    rw [advance_cons, ih, List.count_cons, step]
    split
    · simp_all only [beq_self_eq_true, if_true]
      push_cast
      omega
    · simp_all

/-- The line after a text is as many lines down as the text has line feeds, and one more. -/
theorem next_line (text : List Char) :
    (start.advance text).step '\n' = start.lowered (1 + text.count '\n') := by
  rw [step, if_pos rfl, line_advance, lowered]
  congr 1
  simp only [start]
  omega

end Position

@[simp] theorem Cursor.rest_lowered (k : Int) (c : Cursor) : (c.lowered k).rest = c.rest := rfl

@[simp] theorem Cursor.position_lowered (k : Int) (c : Cursor) :
    (c.lowered k).position = c.position.lowered k := rfl

theorem Cursor.after_lowered (k : Int) (c : Cursor) (taken rest : List Char) :
    (c.lowered k).after taken rest = (c.after taken rest).lowered k := by
  simp only [after, lowered, Position.advance_lowered]

theorem Origin.location_lowered (k : Int) (o : Origin) (source : Option String) :
    (o.lowered k).location source = (o.location source).map (Location.lowered k) := by
  obtain ⟨line, column⟩ := o
  cases line <;> cases column <;> rfl

theorem Node.lowered_tree (k : Int) (tag : Tag) (text : String) (p : Position)
    (children : List Node) : (Node.tree tag text (.ofPosition p) children).lowered k =
      .tree tag text (.ofPosition (p.lowered k)) (children.map (Node.lowered k)) := by
  rw [lowered, moved, movedAll_eq_map]
  rfl

/-- What is read further down of nodes that are read at all. -/
theorem Node.toItems_lowered {source : Option String} (k : Int) {ns : List Node} {ds : List Datum}
    (h : toItems source ns = .ok ds) :
    toItems source (ns.map (Node.lowered k)) = .ok (ds.map (Datum.lowered k)) := by
  obtain ⟨-, -, -, hitems⟩ := @conversion_moved source (Origin.lowered k)
    (Option.map (Location.lowered k)) rfl fun o => o.location_lowered k source
  have hlowered := hitems ns
  rw [movedAll_eq_map, h] at hlowered
  exact Except.ok_of_toOption hlowered

namespace Grammar

variable (k : Int)

def Match.lowered {α : Type} (f : α → α) : Match α → Match α
  | .found a next => .found (f a) (next.lowered k)
  | .absent => .absent
  | .tooDeep => .tooDeep

theorem skip_lowered (comment : Bool) (p : Position) (cs : List Char) :
    skip comment (p.lowered k) cs = (skip comment p cs).lowered k := by
  induction cs generalizing comment p with
  | nil => rfl
  | cons c cs ih =>
    simp only [skip, Position.step_lowered, ih]
    repeat' split
    all_goals rfl

theorem gap_lowered (c : Cursor) : gap (c.lowered k) = (gap c).lowered k :=
  skip_lowered k false c.position c.rest

theorem atom_lowered (c : Cursor) :
    atom (c.lowered k) = (atom c).map fun r => (r.1.lowered k, r.2.lowered k) := by
  rw [atom, atom, List.map_findSome?]
  congr 1
  funext a
  simp only [Function.comp_def, Option.map_map, Node.lowered_tree, List.map_nil, Cursor.after_lowered]
  rfl

/-- A rule that finds the same wherever a text begins. -/
def Lowers (d : Cursor → Match Node) : Prop :=
  ∀ c, d (c.lowered k) = (d c).lowered k (Node.lowered k)

variable {k} {d : Cursor → Match Node} (hd : Lowers k d)
include hd

theorem many_lowered (fuel : Nat) (c : Cursor) :
    many d fuel (c.lowered k) = (many d fuel c).lowered k (List.map (Node.lowered k)) := by
  induction fuel generalizing c with
  | zero => rfl
  | succ fuel ih =>
    simp only [many, hd c]
    cases d c with
    | absent | tooDeep => rfl
    | found n next =>
      simp only [Match.lowered, gap_lowered, ih]
      cases many d fuel (gap next) <;> rfl

theorem dotted_lowered (c : Cursor) :
    dotted d (c.lowered k) = (dotted d c).lowered k (Node.lowered k) := by
  simp only [dotted, Cursor.rest_lowered, Cursor.position_lowered]
  cases dot c.rest with
  | none => rfl
  | some r =>
    simp only [Cursor.after_lowered, gap_lowered, hd (gap _)]
    cases d (gap (c.after r.1 r.2)) with
    | absent | tooDeep => rfl
    | found n next =>
      simp only [Match.lowered, Node.lowered_tree, List.map_cons, List.map_nil, gap_lowered]

omit hd in
theorem close_lowered (opening c : Cursor) (children : List Node) :
    close (opening.lowered k) (children.map (Node.lowered k)) (c.lowered k) =
      (close opening children c).lowered k (Node.lowered k) := by
  simp only [close, Cursor.rest_lowered, Cursor.position_lowered]
  split
  · simp only [Match.lowered, Node.lowered_tree, Cursor.after_lowered]
  · rfl

theorem list_lowered (c : Cursor) :
    list d (c.lowered k) = (list d c).lowered k (Node.lowered k) := by
  simp only [list, Cursor.rest_lowered]
  split
  · rename_i rest _
    simp only [Cursor.after_lowered, gap_lowered, manyFrom, many_lowered hd, Cursor.rest_lowered]
    cases many d (gap (c.after ['('] rest)).rest.length (gap (c.after ['('] rest)) with
    | absent | tooDeep => rfl
    | found items next =>
      simp only [Match.lowered, dotted_lowered hd]
      cases dotted d next with
      | tooDeep => rfl
      | absent => exact close_lowered c next items
      | found tail last =>
        have hchildren : items.map (Node.lowered k) ++ [tail.lowered k] =
            (items ++ [tail]).map (Node.lowered k) := by simp
        simp only [hchildren]
        exact close_lowered c last (items ++ [tail])
  · rfl

omit hd in
theorem lowers_datum (room : Nat) : Lowers k (datum room) := by
  induction room with
  | zero =>
    intro c
    have hbegins : begins (c.lowered k) = begins c := by
      simp only [begins, Cursor.rest_lowered, atom_lowered, Option.isSome_map]
    simp only [datum, hbegins]
    split <;> rfl
  | succ room ih =>
    intro c
    simp only [datum, list_lowered ih, atom_lowered]
    cases list (datum room) c with
    | found n next => rfl
    | tooDeep => rfl
    | absent => cases atom c <;> rfl

end Grammar

end Vau
