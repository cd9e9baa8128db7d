import Vau.Proofs.Failing

/-! The list functions and chains that are no lists. `reverse` and `length` go along the whole chain and
fail at its end, if that is not the empty list, and so does `append` for the last of the chains it is
given that is no list. `nth` fails at the end of a chain that is too short. -/

namespace Vau

namespace Scene

namespace Fails

open Library Vau.Tree

variable {σ τ : Scene} {cfg : Settings} {n d D e f p q r room root κ label label' : Nat}
  {a c expr last operands u v xs : Value} {us vs : List Value} {E : Stop → World → Prop}

section Functions

variable (hlimit : cfg.stepLimit = none) (h : σ.Intact root definitions)
include hlimit h

omit h in
/-- The closure of `foldr` hands the combiner the item first, and fails as the combiner does. -/
theorem swapped (hplain : c.isApplicative = false)
    (hκ : σ.Written κ p (list ["acc", "x"]) .ignore (list ["f", "x", "acc"]))
    (hc : σ.Sees "f" (.applicative label c) p)
    (hcall : ∀ τ e, σ.Grown τ → τ.Fails (Applied cfg (room + 1) c [u, a] e) E) :
    σ.Fails (Applied cfg (room + 1) (.operative κ) [a, u] e) E := by
  refine .procedure ["acc", "x"] hκ hc.frame_lt rfl fun τ f form hτ hscope hform => ?_
  refine .apply (n := 1) (d := 0) hlimit (hscope.sees_outer rfl (hc.onward hτ.onward)) hplain hform ?_
    (by simp) (Nat.zero_le room)
  refine .symbol hlimit (hscope.sees rfl) fun υ hυ => ?_
  refine .symbol hlimit ((hscope.onward hυ.onward).sees rfl) fun φ hφ => ?_
  exact hcall φ f (hτ.trans (hυ.trans hφ))

/-- `foldr` fails where a call fails, if the combiner serves for the items that come after. -/
theorem foldr_call {Q : Value → Scene → Prop}
    (hname : σ.Sees "foldr" (.applicative label (.operative q)) root)
    (hxs : σ.Carries xs (us ++ u :: vs)) (hplain : c.isApplicative = false)
    (hserves : Serves cfg.uncounted n d c .right (vs.reverse.map .value) a Q σ)
    (hcall : ∀ τ a e, σ.Onward τ → Q a τ → τ.Fails (Applied cfg room c [u, a] e) E)
    (hd : d + 3 ≤ room) (hroom : 6 ≤ room) :
    σ.Fails (Applied cfg (room + 1) (.operative q) [.applicative label' c, a, xs] e) E := by
  obtain ⟨_, _, -, hfoldl⟩ := h.procedure (d := Library.foldl) (by simp [definitions, parts]) rfl
  obtain ⟨rs, hrs, hheads⟩ := hxs.strung
  have hw := h.written (d := Library.foldr) (by simp [definitions, parts]) rfl hname
  refine .procedure ["f", "acc", "xs"] hw h.lt rfl fun τ f form hτ hscope hform => ?_
  refine .apply (n := 3 * rs.length + 29) (d := 6) hlimit
    (hscope.sees_outer rfl (hfoldl.onward hτ.onward)) rfl hform ?_ (by simp) hroom
  refine (RunsAll.reversing (g := cfg.uncounted) hlimit (h.onward hτ.onward) hscope
    (hrs.onward hτ.onward)).imp ?_
  rintro _ υ - ⟨hυ, κ, l, v, rfl, hκ, hv⟩
  refine .of_fresh fun φ operands hφ hoperands => ?_
  have hmade := hυ.trans hφ
  have hall := hτ.trans hmade
  have hκ' := hκ.onward hφ.onward
  have hf : φ.Sees "f" (.applicative label' c) f := (hscope.onward hmade.onward).sees rfl
  -- the call that fails is on the item after those for which the combiner serves
  rw [hrs.grown_heads hτ, hheads, List.reverse_append, List.reverse_cons, List.append_assoc] at hv
  obtain ⟨r, htrails, hr, hhead⟩ := Trails.split (hv.onward hφ.onward)
  have hclosure := (hserves.grown (σ.steady_values _) hall).swapped (N := n + 3) (D := d + 1) hlimit
    (φ.steady_values _) hplain hκ' hf (fun _ _ => rfl) (Nat.le_refl _) (Nat.le_refl _)
  refine .foldl hlimit (h.onward hall.onward) (hfoldl.onward hall.onward) (by omega) htrails
    hoperands.items rfl hclosure hd fun ψ a operands e hψ ha hitems => ?_
  obtain ⟨_, rfl, ha⟩ := ha
  have hon := hall.onward.trans hψ
  obtain ⟨hr', hcell⟩ := hψ.cell hr
  refine .foldl_call hlimit (h.onward hon) (hfoldl.onward hon) (by omega) hitems rfl (ψ.cell_lt hr')
    fun χ d hχ => ?_
  rw [show ψ.store.head r = u from (congrArg Cell.head hcell).trans hhead]
  obtain ⟨room, rfl⟩ : ∃ k, room = k + 1 := ⟨room - 1, by omega⟩
  refine .swapped hlimit hplain (hκ'.onward (hψ.trans hχ.onward)) (hf.onward (hψ.trans hχ.onward))
    fun ω g hω => ?_
  exact hcall ω _ g (hon.trans (hχ.trans hω).onward) (ha ω (hχ.trans hω))

section Chains

variable (hxs : σ.Trails last xs vs) (hpair : last.isPair = false) (hnil : (last == .nil) = false)
  (hE : ∀ τ, σ.Grown τ → E (.failure (.typeMismatch "pair" last)) τ.world) (hroom : 5 ≤ room)
include hxs hpair hnil hE

section Folding

include hroom

theorem reverse (hname : σ.Sees "reverse" (.applicative label (.operative q)) root) :
    σ.Fails (Applied cfg (room + 1) (.operative q) [xs] e) E := by
  obtain ⟨_, hcons⟩ := h.wrapped (p := .operation .cons) (by decide) rfl
  obtain ⟨_, _, -, hfoldl⟩ := h.procedure (d := Library.foldl) (by simp [definitions, parts]) rfl
  have hw := h.written (d := Library.reverse) (by simp [definitions, parts]) rfl hname
  refine .procedure ["xs"] hw h.lt rfl fun τ f form hτ hscope hform => ?_
  refine .apply (n := 9) (d := 5) hlimit (hscope.sees_outer rfl (hfoldl.onward hτ.onward)) rfl hform ?_
    (by simp) hroom
  refine (RunsAll.gathering (g := cfg.uncounted) hlimit (h.onward hτ.onward) _ hscope rfl rfl).imp ?_
  rintro _ υ - ⟨hυ, κ, l, rfl, hκ⟩
  refine .of_fresh fun φ operands hφ hoperands => ?_
  have hmade := hυ.trans hφ
  have hall := hτ.trans hmade
  have hserves : Serves cfg.uncounted 1 0 (.primitive (.operation .cons)) .right (vs.map .value) .nil
      (fun _ ψ => φ.Grown ψ) φ := serves_cons (φ.steady_values vs) .nil fun _ _ hψ _ => hψ
  have hclosure := hserves.swapped (N := 4) (D := 1) hlimit (φ.steady_values vs) rfl
    (hκ.onward hφ.onward) ((hscope.sees_outer rfl (hcons.onward hτ.onward)).onward hmade.onward)
    (fun _ _ => rfl) (Nat.le_refl _) (Nat.le_refl _)
  refine .foldl hlimit (h.onward hall.onward) (hfoldl.onward hall.onward) (by omega)
    (hxs.onward hall.onward) hoperands.items rfl hclosure (by omega)
    fun ψ a operands e hψ ha hitems => ?_
  obtain ⟨_, rfl, ha⟩ := ha
  have hψ' := hall.trans (ha ψ (.refl ψ))
  exact .foldl_atom hlimit (h.onward hψ'.onward) (hfoldl.onward hψ'.onward) (by omega) hitems hpair hnil
    fun χ hχ => hE χ (hψ'.trans hχ)

/-- `foldr` turns its list round before it calls anything. -/
theorem foldr (hname : σ.Sees "foldr" (.applicative label (.operative q)) root) :
    σ.Fails (Applied cfg (room + 2) (.operative q) [v, a, xs] e) E := by
  obtain ⟨_, _, -, hfoldl⟩ := h.procedure (d := Library.foldl) (by simp [definitions, parts]) rfl
  obtain ⟨_, _, -, hreverse⟩ :=
    h.procedure (d := Library.reverse) (by simp [definitions, parts]) rfl
  have hw := h.written (d := Library.foldr) (by simp [definitions, parts]) rfl hname
  refine .procedure ["f", "acc", "xs"] hw h.lt rfl fun τ f form hτ hscope hform => ?_
  refine .operand (n := 8) (d := 5) hlimit [list ["$lambda", list ["acc", "x"], list ["f", "x", "acc"]],
    "acc"] (hscope.sees_outer rfl (hfoldl.onward hτ.onward)) hform ?_ (by omega)
  refine .lambda hlimit (h.onward hτ.onward) (by simp [definitions, parts])
    (fun u hu => hscope.sees_outer rfl hu) rfl (fun υ κ l hυ _ => ?_) (Nat.le_refl 5)
  refine .symbol hlimit ((hscope.onward hυ.onward).sees rfl) fun φ hφ x hx => ?_
  have hφ' := hυ.trans hφ
  have hscope' := hscope.onward hφ'.onward
  refine .apply (n := 0) (d := 0) hlimit
    (hscope'.sees_outer rfl (hreverse.onward (hτ.trans hφ').onward)) rfl hx ?_ (by simp)
    (Nat.zero_le _)
  refine .symbol hlimit (hscope'.sees rfl) fun ψ hψ => ?_
  have hall := hτ.trans (hφ'.trans hψ)
  exact .reverse hlimit (h.onward hall.onward) (hxs.onward hall.onward) hpair hnil
    (fun χ hχ => hE χ (hall.trans hχ)) hroom (hreverse.onward hall.onward)

/-- The closure of `append` fails for a chain that is no list. -/
theorem joining (hκ : σ.Written κ p (list ["xs", "acc"]) .ignore (list ["foldr", "cons", "acc", "xs"]))
    (hsees : ∀ {name v}, name = "foldr" ∨ name = "cons" → σ.Sees name v root → σ.Sees name v p) :
    σ.Fails (Applied cfg (room + 2) (.operative κ) [xs, a] e) E := by
  obtain ⟨_, hcons⟩ := h.wrapped (p := .operation .cons) (by decide) rfl
  obtain ⟨_, _, -, hfoldr⟩ := h.procedure (d := Library.foldr) (by simp [definitions, parts]) rfl
  have hcons' := hsees (.inr rfl) hcons
  refine .procedure ["xs", "acc"] hκ hcons'.frame_lt rfl fun τ f form hτ hscope hform => ?_
  refine .apply (n := 2) (d := 0) hlimit
    (hscope.sees_outer rfl ((hsees (.inl rfl) hfoldr).onward hτ.onward)) rfl hform ?_ (by simp)
    (Nat.zero_le _)
  refine .symbol hlimit (hscope.sees_outer rfl (hcons'.onward hτ.onward)) fun υ hυ => ?_
  refine .symbol hlimit ((hscope.onward hυ.onward).sees rfl) fun φ hφ => ?_
  refine .symbol hlimit ((hscope.onward (hυ.trans hφ).onward).sees rfl) fun ψ hψ => ?_
  have hall := hτ.trans (hυ.trans (hφ.trans hψ))
  exact .foldr hlimit (h.onward hall.onward) (hxs.onward hall.onward) hpair hnil
    (fun χ hχ => hE χ (hall.trans hχ)) hroom (hfoldr.onward hall.onward)

end Folding

/-- `append` joins its lists from the right, and fails at the first that is none. -/
theorem append {before after : List Value} {rss : List (List Nat)}
    (hname : σ.Sees "append" (.applicative label (.operative q)) root)
    (hafter : List.Forall₂ σ.Strung after rss) (hroom : 11 ≤ room) :
    σ.Fails (Applied cfg (room + 1) (.operative q) (before ++ xs :: after) e) E := by
  obtain ⟨_, _, -, hfoldr⟩ := h.procedure (d := Library.foldr) (by simp [definitions, parts]) rfl
  have hw := h.written (d := Library.append) (by simp [definitions, parts]) rfl hname
  refine .of_fresh fun σ' operands hσ' hoperands => ?_
  refine .operative [] (hw.onward hσ'.onward) (h.onward hσ'.onward).lt .done rfl rfl
    fun τ f form hτ hscope hform => ?_
  have hτ' := hσ'.trans hτ
  refine .apply (n := 8) (d := 5) hlimit (hscope.sees_outer rfl (hfoldr.onward hτ'.onward)) rfl hform ?_
    (by simp) (by omega)
  refine .lambda (n := 1) hlimit (h.onward hτ'.onward) (by simp [definitions, parts])
    (fun v hv => hscope.sees_outer rfl hv) rfl (fun φ κ _ hφ hκ => ?_) (Nat.le_refl 5)
  refine .constant hlimit rfl rfl fun ψ hψ => ?_
  refine .symbol hlimit ((hscope.onward (hφ.trans hψ).onward).sees rfl) fun χ hχ => ?_
  have hχ' := hφ.trans (hψ.trans hχ)
  have hall := hτ'.trans hχ'
  have hscope' := hscope.onward hχ'.onward
  have hsees {ω : Scene} {name : String} {v : Value} (hω : χ.Onward ω)
      (hname : name = "foldr" ∨ name = "cons") (hv : ω.Sees name v root) : ω.Sees name v f := by
    rcases hname with rfl | rfl
    · exact (hscope'.onward hω).sees_outer rfl hv
    · exact (hscope'.onward hω).sees_outer rfl hv
  have hkept : List.Forall₂ χ.Strung after.reverse rss.reverse :=
    List.rel_reverse (hafter.imp fun _ _ hv => hv.onward hall.onward)
  have hκ' := hκ.onward (hψ.trans hχ).onward
  have hserves : Serves cfg.uncounted (3 * rss.flatten.length + 50) 8 (.operative κ) .right
      (after.reverse.map .value) .nil (fun _ ω => χ.Grown ω) χ := by
    refine serves_append hlimit (h.onward hall.onward) hκ' (fun hω => hsees hω) hkept (fun rs hrs => ?_)
      .nil fun ω v hω _ => hω
    exact (List.sublist_flatten_of_mem (List.mem_reverse.mp hrs)).length_le
  refine .foldr_call hlimit (h.onward hall.onward) (hfoldr.onward hall.onward)
    (hoperands.onward (hτ.trans hχ').onward) rfl hserves (fun ω a e hω ha => ?_) hroom (by omega)
  obtain ⟨room, rfl⟩ : ∃ k, room = k + 2 := ⟨room - 2, by omega⟩
  have hend := hall.trans ha
  exact .joining hlimit (h.onward hend.onward) (hxs.onward hend.onward) hpair hnil
    (fun α hα => hE α (hend.trans hα)) (by omega) (hκ'.onward hω) (hsees hω)

end Chains

section Counting

/-- `%length` goes on with the code for what is left, if there is anything. -/
theorem counting {i : Int} (hname : σ.Sees "%length" (.applicative label (.operative q)) root)
    (hxs : (xs == .nil) = false)
    (hrest : ∀ τ f x, σ.Grown τ → τ.Scope f [("xs", xs), ("n", .int i)] root →
      τ.Holds x (list ["%length", list ["tail", "xs"], list ["+", "n", .leaf (.int 1)]]) →
      τ.Fails (Evaluates cfg (room + 3) x f) E) :
    σ.Fails (Applied cfg (room + 3) (.operative q) [xs, .int i] e) E := by
  have hw := h.written (d := Library.lengthFrom) (by simp [definitions, parts]) rfl hname
  refine .procedure ["xs", "n"] hw h.lt rfl fun τ f form hτ hscope hform => ?_
  refine .conditional (n := 2) (d := 1) hlimit (h.onward hτ.onward)
    (fun v hv => hscope.sees_outer rfl hv) hform ?_ (by omega) (by omega)
  refine .null hlimit (h.onward hτ.onward) hscope rfl rfl (Nat.le_refl 1) fun υ hυ => ?_
  rw [hxs]
  exact ⟨false, rfl, fun φ x hφ hx =>
    hrest φ f x (hτ.trans (hυ.trans hφ)) (hscope.onward (hυ.trans hφ).onward) hx⟩

/-- `nth` goes on with the code for what is left, if the place is another one. -/
theorem seeking {i : Int} (hname : σ.Sees "nth" (.applicative label (.operative q)) root)
    (hhere : i = 0 → ∀ τ f x, σ.Grown τ → τ.Scope f [("xs", xs), ("n", .int i)] root →
      τ.Holds x (list ["head", "xs"]) → τ.Fails (Evaluates cfg (room + 3) x f) E)
    (hrest : i ≠ 0 → ∀ τ f x, σ.Grown τ → τ.Scope f [("xs", xs), ("n", .int i)] root →
      τ.Holds x (list ["nth", list ["tail", "xs"], list ["-", "n", .leaf (.int 1)]]) →
      τ.Fails (Evaluates cfg (room + 3) x f) E) :
    σ.Fails (Applied cfg (room + 3) (.operative q) [xs, .int i] e) E := by
  have hw := h.written (d := Library.nth) (by simp [definitions, parts]) rfl hname
  refine .procedure ["xs", "n"] hw h.lt rfl fun τ f form hτ hscope hform => ?_
  refine .conditional (n := 3) (d := 1) hlimit (h.onward hτ.onward)
    (fun v hv => hscope.sees_outer rfl hv) hform ?_ (by omega) (by omega)
  refine .isZero hlimit (h.onward hτ.onward) hscope rfl rfl (Nat.le_refl 1) fun υ hυ => ?_
  refine ⟨_, rfl, fun φ x hφ hx => ?_⟩
  have hall := hτ.trans (hυ.trans hφ)
  have hscope' := hscope.onward (hυ.trans hφ).onward
  by_cases hi : i = 0
  · rw [decide_eq_true hi] at hx
    exact hhere hi φ f x hall hscope' hx
  · rw [decide_eq_false hi] at hx
    exact hrest hi φ f x hall hscope' hx

variable (hxs : σ.Trails last xs vs) (hpair : last.isPair = false)
  (hE : ∀ τ, σ.Grown τ → E (.failure (.typeMismatch "pair" last)) τ.world)
include hxs hpair hE

theorem lengthFrom (hnil : (last == .nil) = false) {i : Int}
    (hname : σ.Sees "%length" (.applicative label (.operative q)) root) :
    σ.Fails (Applied cfg (room + 3) (.operative q) [xs, .int i] e) E := by
  induction vs generalizing σ xs i e with
  | nil =>
    cases hxs
    refine .counting hlimit h hname hnil fun τ f x hτ hscope hx => ?_
    refine .operand (n := 0) (d := 0) hlimit [] (hscope.sees_outer rfl (hname.onward hτ.onward)) hx ?_
      (Nat.zero_le _)
    exact fun x hx => .part hlimit (h.onward hτ.onward) (.inr rfl) hscope rfl rfl hx hpair
      fun υ hυ => hE υ (hτ.trans hυ)
  | cons v vs ih =>
    obtain _ | @⟨r, _, hr, hrest⟩ := hxs
    refine .counting hlimit h hname rfl fun τ f x hτ hscope hx => ?_
    have hsum : (Arithmetic.add).apply [.int i, .int 1] = .ok (i + 1) :=
      congrArg (fun k => Except.ok (k + 1)) (Int.zero_add i)
    refine .apply (n := 2) (d := 1) hlimit (hscope.sees_outer rfl (hname.onward hτ.onward)) rfl hx ?_
      (by simp) (by omega)
    refine .advance (n := 0) hlimit (h.onward hτ.onward) hscope rfl rfl rfl rfl (by decide) rfl hsum
      (τ.cell_lt (hτ.onward.cell hr).1) (fun υ hυ => ?_) (Nat.le_refl 1)
    have hall := hτ.trans hυ
    rw [hτ.tail (σ.cell_lt hr)]
    exact ih (h.onward hall.onward) (hrest.onward hall.onward) (fun φ hφ => hE φ (hall.trans hφ))
      (hname.onward hall.onward)

theorem length (hnil : (last == .nil) = false)
    (hname : σ.Sees "length" (.applicative label (.operative q)) root) :
    σ.Fails (Applied cfg (room + 3) (.operative q) [xs] e) E := by
  obtain ⟨_, _, -, hfrom⟩ :=
    h.procedure (d := Library.lengthFrom) (by simp [definitions, parts]) rfl
  have hw := h.written (d := Library.length) (by simp [definitions, parts]) rfl hname
  refine .procedure ["xs"] hw h.lt rfl fun τ f form hτ hscope hform => ?_
  refine .apply (n := 1) (d := 0) hlimit (hscope.sees_outer rfl (hfrom.onward hτ.onward)) rfl hform ?_
    (by simp) (Nat.zero_le _)
  refine .symbol hlimit (hscope.sees rfl) fun υ hυ => ?_
  refine .constant hlimit rfl rfl fun φ hφ => ?_
  have hall := hτ.trans (hυ.trans hφ)
  exact .lengthFrom hlimit (h.onward hall.onward) (hxs.onward hall.onward) hpair
    (fun ψ hψ => hE ψ (hall.trans hψ)) hnil (hfrom.onward hall.onward)

theorem nth {i : Int} (hi : i < 0 ∨ vs.length ≤ i)
    (hname : σ.Sees "nth" (.applicative label (.operative q)) root) :
    σ.Fails (Applied cfg (room + 3) (.operative q) [xs, .int i] e) E := by
  induction vs generalizing σ xs i e with
  | nil =>
    cases hxs
    refine .seeking hlimit h hname (fun _ τ f x hτ hscope hx => ?_) fun _ τ f x hτ hscope hx => ?_
    · exact .part hlimit (h.onward hτ.onward) (.inl rfl) hscope rfl rfl hx hpair
        fun υ hυ => hE υ (hτ.trans hυ)
    · refine .operand (n := 0) (d := 0) hlimit [] (hscope.sees_outer rfl (hname.onward hτ.onward)) hx ?_
        (Nat.zero_le _)
      exact fun x hx => .part hlimit (h.onward hτ.onward) (.inr rfl) hscope rfl rfl hx hpair
        fun υ hυ => hE υ (hτ.trans hυ)
  | cons v vs ih =>
    rw [List.length_cons] at hi
    obtain _ | @⟨r, _, hr, hrest⟩ := hxs
    refine .seeking hlimit h hname (fun hzero => by omega) fun _ τ f x hτ hscope hx => ?_
    have hsum : (Arithmetic.subtract).apply [.int i, .int 1] = .ok (i - 1) :=
      congrArg Except.ok (by simp)
    refine .apply (n := 2) (d := 1) hlimit (hscope.sees_outer rfl (hname.onward hτ.onward)) rfl hx ?_
      (by simp) (by omega)
    refine .advance (n := 0) hlimit (h.onward hτ.onward) hscope rfl rfl rfl rfl (by decide) rfl hsum
      (τ.cell_lt (hτ.onward.cell hr).1) (fun υ hυ => ?_) (Nat.le_refl 1)
    have hall := hτ.trans hυ
    rw [hτ.tail (σ.cell_lt hr)]
    exact ih (h.onward hall.onward) (hrest.onward hall.onward) (fun φ hφ => hE φ (hall.trans hφ))
      (by omega) (hname.onward hall.onward)

end Counting

end Functions

end Fails

end Scene

end Vau
