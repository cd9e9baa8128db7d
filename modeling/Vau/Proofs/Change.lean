import Mathlib.Logic.Relation
import Vau.Operation

/-! What deeds can do to the world. Every deed that the evaluator carries out is a sequence
of the changes listed here, whether it stops or not, so what each change keeps is kept by
them all. -/

namespace Vau

/-- The state in which a computation ends, with a value or without. -/
def endState {σ α : Type} : EStateM.Result Stop σ α → σ
  | .ok _ s => s
  | .error _ s => s

/-- One change of the world by a program. -/
inductive Change (w : World) : World → Prop where
  | frame (parent : Option Nat) : Change w { w with store := (w.store.newFrame parent).2 }
  | define (e : Nat) (name : String) (v : Value) :
    Change w { w with store := w.store.define e name v }
  | cons (x y : Value) (l : Option Location) :
    Change w { w with store := (w.store.cons x y l).2 }
  | setHead (r : Nat) (v : Value) : Change w { w with store := w.store.setHead r v }
  | setTail (r : Nat) (v : Value) : Change w { w with store := w.store.setTail r v }
  /-- A new operative has no name yet, and its formals and its parameter for the caller's
  environment have been checked. -/
  | operative (scope : Nat) (formals dynamic : Value) (body : List Value) (names : List String)
    (hnames : w.store.formalNames formals = .ok names)
    (hdynamic : Operation.checkDynamic names dynamic = pure ()) :
    Change w { w with store := (w.store.newOperative ⟨scope, formals, dynamic, body, none⟩).2 }
  | wrap (v : Value) (hv : v.isCombiner = true) :
    Change w { w with store := (w.store.wrap v).2 }
  | name (v : Value) (name : String) : Change w { w with store := w.store.giveName v name }
  | shown (message : String) : Change w { w with effects := w.effects.push ⟨.stdout, message⟩ }

abbrev Changes := Relation.ReflTransGen Change

theorem Changes.list (w : World) (items : List Value) (tail : Value) :
    Changes w { w with store := (w.store.list items tail).2 } := by
  induction items with
  | nil => exact .refl
  | cons v vs ih => exact ih.tail (.cons _ _ none)

theorem Changes.defineAll (w : World) (e : Nat) (bs : List (String × Value)) :
    Changes w { w with store := w.store.defineAll e bs } := by
  induction bs generalizing w with
  | nil => exact .refl
  | cons b bs ih => exact .head (.define e b.1 b.2) (ih _)

theorem Changes.effects_grow {w w' : World} (h : Changes w w') :
    w.effects.toList <+: w'.effects.toList := by
  induction h with
  | refl => exact List.prefix_rfl
  | tail _ step ih =>
    refine ih.trans ?_
    cases step with
    | shown message => simp
    | _ => exact List.prefix_rfl

/-- A deed that moves the world along a relation, whether it stops or not. -/
def Deed.Moves (R : World → World → Prop) {α : Type} (d : Deed α) : Prop :=
  ∀ w, R w (endState (d w))

namespace Deed

section Moves

variable {R : World → World → Prop} {α β : Type}

theorem moves_same (hrefl : ∀ w, R w w) {d : Deed α} (h : ∀ w, endState (d w) = w) : d.Moves R := by
  intro w
  rw [h w]
  exact hrefl w

theorem moves_tries (hrefl : ∀ w, R w w) (f : Store → Except Stop α) : (tries f).Moves R := by
  refine moves_same hrefl fun w => ?_
  unfold tries
  split <;> rfl

theorem Moves.bind (htrans : ∀ u v w, R u v → R v w → R u w) {d : Deed α} {f : α → Deed β}
    (hd : d.Moves R) (hf : ∀ a, (f a).Moves R) : (d >>= f).Moves R := by
  intro w
  have h := hd w
  simp only [Bind.bind, EStateM.bind]
  cases hr : d w with
  | error e w' => rwa [hr] at h
  | ok a w' =>
    rw [hr] at h
    exact htrans _ _ _ h (hf a w')

end Moves

/-- A deed that changes the world by what programs can do only. -/
def Lawful {α : Type} (d : Deed α) : Prop := ∀ w, Changes w (endState (d w))

variable {α β : Type}

theorem lawful_same {d : Deed α} (h : ∀ w, endState (d w) = w) : d.Lawful :=
  moves_same (fun _ => .refl) h

theorem lawful_tries (f : Store → Except Stop α) : (tries f).Lawful :=
  moves_tries (fun _ => .refl) f

theorem Lawful.bind {d : Deed α} {f : α → Deed β} (hd : d.Lawful) (hf : ∀ a, (f a).Lawful) :
    (d >>= f).Lawful :=
  Moves.bind (fun _ _ _ => .trans) hd hf

theorem lawful_frame (parent : Option Nat) : (makes fun s => s.newFrame parent).Lawful :=
  fun _ => .single (.frame parent)

theorem lawful_cons (x y : Value) : (makes fun s => s.cons x y none).Lawful :=
  fun _ => .single (.cons x y none)

theorem lawful_list (items : List Value) (tail : Value) :
    (makes fun s => s.list items tail).Lawful :=
  fun w => .list w items tail

theorem lawful_define (e : Nat) (name : String) (v : Value) :
    (changes fun s => s.define e name v).Lawful :=
  fun _ => .single (.define e name v)

theorem lawful_giveName (v : Value) (name : String) :
    (changes fun s => s.giveName v name).Lawful :=
  fun _ => .single (.name v name)

theorem lawful_binds (e : Nat) (pattern operands : Value) : (binds e pattern operands).Lawful :=
  (lawful_tries _).bind fun bs w => .defineAll w e bs

end Deed

namespace Operation

open Deed

theorem checkDynamic_eq (names : List String) (v : Value) :
    checkDynamic names v = pure () ∨ ∃ f, checkDynamic names v = Deed.fail f := by
  unfold checkDynamic
  split
  · split
    · exact .inr ⟨_, rfl⟩
    · exact .inl rfl
  · exact .inl rfl
  · exact .inl rfl
  · exact .inr ⟨_, rfl⟩

theorem lawful_vau (room env : Nat) (formals dynamic : Value) (body : List Value) :
    (value room env .vau (formals :: dynamic :: body)).Lawful := by
  intro w
  simp only [value, Bind.bind, EStateM.bind, tries]
  cases hn : w.store.formalNames formals with
  | error e => exact .refl
  | ok names =>
    rcases checkDynamic_eq names dynamic with hd | ⟨f, hd⟩
    · simp only [hd]
      exact .single (.operative env formals dynamic body names hn hd)
    · simp only [hd]
      exact .refl

theorem lawful_wrap (room env : Nat) (v : Value) : (value room env .wrap [v]).Lawful := by
  intro w
  simp only [value]
  split
  · exact .single (.wrap v ‹_›)
  · exact .refl

theorem lawful_display (room env : Nat) (vs : List Value) :
    (value room env .display vs).Lawful :=
  (lawful_tries _).bind fun texts =>
    Lawful.bind (fun _ => .single (.shown (" ".intercalate texts))) fun _ =>
      lawful_same fun _ => rfl

end Operation

end Vau
