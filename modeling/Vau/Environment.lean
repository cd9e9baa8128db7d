import Vau.Store

/-! Environments. A name is looked up from a frame outwards and the first frame that
binds it decides; definition writes the frame itself, assignment the deciding frame. -/

namespace Vau

namespace Frame

def get? (f : Frame) (name : String) : Option Value := f.bindings.lookup name

def binds (f : Frame) (name : String) : Bool := (f.get? name).isSome

def keys (f : Frame) : List String := f.bindings.map Prod.fst

/-- Replaces the value of a name in its place, or adds the name at the end. -/
def put (name : String) (v : Value) : List (String × Value) → List (String × Value)
  | [] => [(name, v)]
  | b :: rest => if b.1 = name then (name, v) :: rest else b :: put name v rest

def define (f : Frame) (name : String) (v : Value) : Frame :=
  { f with bindings := put name v f.bindings }

theorem lookup_put (name key : String) (v : Value) (bs : List (String × Value)) :
    (put name v bs).lookup key = if key = name then some v else bs.lookup key := by
  induction bs with
  | nil =>
    by_cases h : key = name
    · simp [put, h]
    · have hb : (key == name) = false := beq_false_of_ne h
      simp [put, List.lookup_cons, hb, h]
  | cons b rest ih =>
    by_cases hb : b.1 = name
    · by_cases h : key = name
      · simp [put, hb, h]
      · have hk : (key == name) = false := beq_false_of_ne h
        have hkb : (key == b.1) = false := by rw [hb]; exact hk
        obtain ⟨k, w⟩ := b
        simp only at hb hkb
        simp [put, hb, List.lookup_cons, hk, h]
    · obtain ⟨k, w⟩ := b
      simp only at hb
      by_cases hk : key = k
      · simp [put, hb, hk]
      · have hkb : (key == k) = false := beq_false_of_ne hk
        simp only [put, hb, if_false, List.lookup_cons, hkb, ih]

@[simp] theorem get?_define (f : Frame) (name key : String) (v : Value) :
    (f.define name v).get? key = if key = name then some v else f.get? key :=
  lookup_put name key v f.bindings

theorem map_fst_put (name : String) (v : Value) (bs : List (String × Value)) :
    (put name v bs).map Prod.fst =
      if name ∈ bs.map Prod.fst then bs.map Prod.fst else bs.map Prod.fst ++ [name] := by
  induction bs with
  | nil => simp [put]
  | cons b rest ih =>
    by_cases hb : b.1 = name
    · simp [put, hb]
    · have hn : name ≠ b.1 := fun h => hb h.symm
      simp only [put, hb, if_false, List.map_cons, ih, List.mem_cons, hn, false_or]
      split <;> simp

/-- Definition keeps the names of a frame in their places and adds a new one at the end. -/
theorem keys_define (f : Frame) (name : String) (v : Value) :
    (f.define name v).keys = if name ∈ f.keys then f.keys else f.keys ++ [name] :=
  map_fst_put name v f.bindings

end Frame

namespace Store

/-- The first frame from `e` outwards that binds `name`, among the next `fuel` frames. -/
def ownerWithin (s : Store) (name : String) : Nat → Nat → Option Nat
  | 0, _ => none
  | fuel + 1, e =>
    if (s.frame e).binds name then some e
    else
      match (s.frame e).parent with
      | none => none
      | some p => s.ownerWithin name fuel p

def owner? (s : Store) (e : Nat) (name : String) : Option Nat :=
  s.ownerWithin name s.frames.size e

/-- The value of `name` in the first of the next `fuel` frames from `e` that binds it. -/
def lookupWithin (s : Store) (name : String) : Nat → Nat → Option Value
  | 0, _ => none
  | fuel + 1, e =>
    match (s.frame e).get? name with
    | some v => some v
    | none =>
      match (s.frame e).parent with
      | none => none
      | some p => s.lookupWithin name fuel p

def lookup? (s : Store) (e : Nat) (name : String) : Option Value :=
  s.lookupWithin name s.frames.size e

def define (s : Store) (e : Nat) (name : String) (v : Value) : Store :=
  { s with frames := s.frames.modify e fun f => f.define name v }

def defineAll (s : Store) (e : Nat) (bs : List (String × Value)) : Store :=
  bs.foldl (fun s b => s.define e b.1 b.2) s

def assign? (s : Store) (e : Nat) (name : String) (v : Value) : Option Store :=
  (s.owner? e name).map fun o => s.define o name v

theorem frame_define (s : Store) (e d : Nat) (name : String) (v : Value) (h : e < s.frames.size) :
    (s.define e name v).frame d = if d = e then (s.frame d).define name v else s.frame d := by
  by_cases hd : d = e
  · subst hd
    simp [frame, define, h, Array.getElem_modify]
  · have he : e ≠ d := fun h => hd h.symm
    simp [frame, define, Array.getElem?_modify, hd, he]

end Store

end Vau
