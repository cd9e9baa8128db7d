import Vau.Proofs.Traversal

/-! The list functions that count. They call themselves in tail position, a pair further along the
list each time. -/

namespace Vau

namespace Scene

open Library Vau.Tree

variable {σ τ : Scene} {cfg : Gauge} {n N d D e p q root label label' : Nat} {c v a xs : Value}
  {rs : List Nat} {vs : List Value} {Q : Value → Scene → Prop}

section Counting

variable (hlimit : cfg.stepLimit = none) (h : σ.Intact root definitions)
include hlimit h

theorem RunsAll.advance {bs : List (String × Value)} {r : Nat} {i j : Int} {a : Arithmetic}
    (hscope : σ.Scope e bs root) (hname : bs.lookup "xs" = some (.pair r))
    (hcount : bs.lookup "n" = some (.int i)) (htail : bs.lookup "tail" = none)
    (ha : bs.lookup a.name = none) (hmem : .operation (.arithmetic a) ∈ Primitive.builtins)
    (hadmits : a.signature.admits 2 = true) (hsum : a.apply [.int i, .int 1] = .ok j)
    (hr : r < σ.store.cells.size) {Q : List Value → Scene → Prop}
    (hQ : ∀ τ, σ.Grown τ → Q [σ.store.tail r, .int j] τ) (hD : 1 ≤ D) :
    RunsAll cfg (n + 3) D e [list ["tail", "xs"], list [a.name, "n", .leaf (.int 1)]] Q σ := by
  obtain ⟨_, ha'⟩ := h.wrapped hmem rfl
  refine .tail hlimit h hscope hname htail hr hD fun τ hτ => ?_
  refine .apply (d := 0) hlimit ((hscope.sees_outer ha ha').onward hτ.onward) rfl (by simp) hD
    fun υ hυ => ?_
  have hυ' := hτ.trans hυ
  refine .symbol hlimit ((hscope.onward hυ'.onward).sees hcount) fun φ hφ => ?_
  refine .constant hlimit rfl rfl fun ψ hψ => ?_
  refine .reads hadmits (v := .int j) (fun χ _ room _ => ?_) fun χ hχ => ?_
  · simp only [Operation.perform, Operation.value, hsum]
    rfl
  · exact hQ χ (hυ'.trans (hφ.trans (hψ.trans hχ)))

theorem Invoked.lengthFrom (hname : σ.Sees "%length" (.applicative label (.operative q)) root)
    (hxs : σ.Strung xs rs) {i : Int} (hN : 3 * rs.length + 10 ≤ N) (hD : 3 ≤ D)
    (hQ : ∀ τ, σ.Grown τ → Q (.int (i + rs.length)) τ) :
    σ.Invoked cfg N D (.operative q) [xs, .int i] e Q := by
  induction rs generalizing σ xs i N e with
  | nil =>
    obtain ⟨N, rfl⟩ : ∃ k, N = k + 6 := ⟨N - 6, by simp at hN; omega⟩
    have hw := h.written (d := Library.lengthFrom) (by simp [definitions, parts]) rfl hname
    refine .procedure ["xs", "n"] hw h.lt rfl fun τ f hτ hscope => ?_
    refine .empty hlimit (h.onward hτ.onward) hscope rfl rfl rfl (hxs.onward hτ.onward)
      (fun _ => ?_) (fun hne => absurd rfl hne) hD
    refine .symbol hlimit (hscope.sees rfl) fun υ hυ => ?_
    simpa using hQ υ (hτ.trans hυ)
  | cons r rs ih =>
    rw [List.length_cons] at hN
    obtain ⟨N, rfl⟩ : ∃ k, N = k + 6 := ⟨N - 6, by omega⟩
    have hw := h.written (d := Library.lengthFrom) (by simp [definitions, parts]) rfl hname
    refine .procedure ["xs", "n"] hw h.lt rfl fun τ f hτ hscope => ?_
    refine .empty hlimit (h.onward hτ.onward) hscope rfl rfl rfl (hxs.onward hτ.onward)
      (fun hnil => by cases hnil) (fun _ => ?_) hD
    have hname' := hscope.sees_outer rfl (hname.onward hτ.onward)
    refine .apply (d := D - 1) hlimit hname' rfl (by simp) (by omega) fun υ hυ => ?_
    have hυ' := hτ.trans hυ
    obtain _ | ⟨hr, hrest⟩ := hxs.onward hυ'.onward
    obtain ⟨M, rfl⟩ : ∃ k, N = k + 1 := ⟨N - 1, by omega⟩
    have hsum : (Arithmetic.add).apply [.int i, .int 1] = .ok (i + 1) :=
      congrArg (fun k => Except.ok (k + 1)) (Int.zero_add i)
    refine .advance hlimit (h.onward hυ'.onward) (hscope.onward hυ.onward) rfl rfl rfl rfl
      (by decide) rfl hsum (hr.elim υ.cell_lt υ.spine_lt) (fun φ hφ => ?_) (by omega)
    have hall := hυ'.trans hφ
    refine ih (h.onward hall.onward) (hname.onward hall.onward) (hrest.onward hφ.onward) (by omega)
      fun ψ hψ => ?_
    have hcount : i + ((rs.length + 1 : Nat) : Int) = i + 1 + rs.length := by omega
    exact hcount ▸ hQ ψ (hall.trans hψ)

theorem Invoked.length (hname : σ.Sees "length" (.applicative label (.operative q)) root)
    (hxs : σ.Strung xs rs) (hN : 3 * rs.length + 20 ≤ N) (hD : 3 ≤ D)
    (hQ : ∀ τ, σ.Grown τ → Q (.int rs.length) τ) :
    σ.Invoked cfg N D (.operative q) [xs] e Q := by
  obtain ⟨N, rfl⟩ : ∃ k, N = k + 6 := ⟨N - 6, by omega⟩
  obtain ⟨_, _, -, hfrom⟩ :=
    h.procedure (d := Library.lengthFrom) (by simp [definitions, parts]) rfl
  have hw := h.written (d := Library.length) (by simp [definitions, parts]) rfl hname
  refine .procedure ["xs"] hw h.lt rfl fun τ f hτ hscope => ?_
  have hfrom' := hscope.sees_outer rfl (hfrom.onward hτ.onward)
  refine .apply (d := 0) hlimit hfrom' rfl (by simp) (by omega) fun υ hυ => ?_
  refine .symbol hlimit ((hscope.onward hυ.onward).sees rfl) fun φ hφ => ?_
  refine .constant hlimit rfl rfl fun ψ hψ => ?_
  have hall := hτ.trans (hυ.trans (hφ.trans hψ))
  refine .lengthFrom hlimit (h.onward hall.onward) (hfrom.onward hall.onward)
    (hxs.onward hall.onward) (by omega) hD fun χ hχ => ?_
  rw [Int.zero_add]
  exact hQ χ (hall.trans hχ)

omit hlimit h in
theorem allEqual_int (s : Store) {room : Nat} (hroom : 1 ≤ room) (i j : Int) :
    s.allEqual room [.int i, .int j] = .ok (decide (i = j)) := by
  obtain ⟨room, rfl⟩ : ∃ k, room = k + 1 := ⟨room - 1, by omega⟩
  have hequal : s.equal (room + 1) (.int i) (.int j) = .ok (decide (i = j)) := by
    simp only [Store.equal, Store.equalSpine, Value.atomEq]
    by_cases hij : i = j
    · simp [hij]
    · simp [hij]
  simp only [Store.allEqual, hequal]
  by_cases hij : i = j
  · simp [hij]
  · simp [hij]

theorem Runs.isZero {name : String} {bs : List (String × Value)} {i : Int}
    (hscope : σ.Scope e bs root) (hname : bs.lookup name = some (.int i))
    (hfree : bs.lookup "=" = none) (hD : 1 ≤ D) (hQ : ∀ τ, σ.Grown τ → Q (.bool (decide (i = 0))) τ) :
    σ.Runs cfg (n + 3) D (list ["=", name, .leaf (.int 0)]) e Q := by
  obtain ⟨_, htest⟩ := h.wrapped (p := .operation .equal) (by decide) rfl
  refine .apply (d := 0) hlimit (hscope.sees_outer hfree htest) rfl (by simp) hD fun τ hτ => ?_
  refine .symbol hlimit ((hscope.onward hτ.onward).sees hname) fun υ hυ => ?_
  refine .constant hlimit rfl rfl fun φ hφ => ?_
  refine .weaken (.reads rfl (fun ψ _ room hroom => ?_) fun ψ hψ =>
    hQ ψ (hτ.trans (hυ.trans (hφ.trans hψ)))) (Nat.le_refl _) hD
  simp only [Operation.perform, Operation.value, Deed.tries, Bind.bind, EStateM.bind,
    allEqual_int _ hroom]
  rfl

theorem Runs.zero {name : String} {bs : List (String × Value)} {t₁ t₂ : Tree} {i : Int}
    (hscope : σ.Scope e bs root) (hname : bs.lookup name = some (.int i))
    (hif : bs.lookup "^if" = none) (hequal : bs.lookup "=" = none) (hzero : i = 0 → σ.Runs cfg (n + 5) D t₁ e Q)
    (hother : i ≠ 0 → σ.Runs cfg (n + 5) D t₂ e Q) (hD : 3 ≤ D) :
    σ.Runs cfg (n + 7) D (list ["^if", list ["=", name, .leaf (.int 0)], t₁, t₂]) e Q := by
  refine .conditional (d := D - 2) hlimit h (by simp [definitions, parts])
    (fun v => hscope.sees_outer hif) ?_ (by omega) hD
  refine .isZero hlimit h hscope hname hequal (by omega) fun τ hτ => ?_
  by_cases hi : i = 0
  · exact ⟨true, by simp [hi], (hzero hi).grown hτ⟩
  · exact ⟨false, by simp [hi], (hother hi).grown hτ⟩

theorem Invoked.nth (hname : σ.Sees "nth" (.applicative label (.operative q)) root)
    (hxs : σ.Strung xs rs) {i : Nat} (hi : i < rs.length) (hN : 3 * i + 10 ≤ N) (hD : 3 ≤ D)
    (hQ : ∀ τ, σ.Grown τ → Q (σ.store.head rs[i]) τ) :
    σ.Invoked cfg N D (.operative q) [xs, .int i] e Q := by
  induction i generalizing σ xs rs N e with
  | zero =>
    obtain ⟨N, rfl⟩ : ∃ k, N = k + 7 := ⟨N - 7, by omega⟩
    have hw := h.written (d := Library.nth) (by simp [definitions, parts]) rfl hname
    refine .procedure ["xs", "n"] hw h.lt rfl fun τ f hτ hscope => ?_
    refine .zero hlimit (h.onward hτ.onward) hscope rfl rfl rfl (fun _ => ?_)
      (fun hne => absurd rfl hne) hD
    obtain _ | ⟨hr, hrest⟩ := hxs
    · cases hi
    have hlt := hr.elim σ.cell_lt σ.spine_lt
    refine .head hlimit (h.onward hτ.onward) hscope rfl rfl
      (Nat.lt_of_lt_of_le hlt hτ.larger.cells) (by omega) fun υ hυ => ?_
    rw [hτ.head hlt]
    exact hQ υ (hτ.trans hυ)
  | succ i ih =>
    obtain ⟨N, rfl⟩ : ∃ k, N = k + 7 := ⟨N - 7, by omega⟩
    have hw := h.written (d := Library.nth) (by simp [definitions, parts]) rfl hname
    refine .procedure ["xs", "n"] hw h.lt rfl fun τ f hτ hscope => ?_
    refine .zero hlimit (h.onward hτ.onward) hscope rfl rfl rfl (fun hzero => by omega)
      (fun _ => ?_) hD
    have hname' := hscope.sees_outer rfl (hname.onward hτ.onward)
    refine .apply (d := D - 1) hlimit hname' rfl (by simp) (by omega) fun υ hυ => ?_
    have hυ' := hτ.trans hυ
    obtain _ | ⟨hr, hstrung⟩ := hxs
    · cases hi
    have hlt := Nat.lt_of_lt_of_le (hr.elim σ.cell_lt σ.spine_lt) hυ'.larger.cells
    have hsum : (Arithmetic.subtract).apply [.int (i + 1 : Nat), .int 1] = .ok (i : Int) :=
      congrArg Except.ok (by simp)
    refine .advance hlimit (h.onward hυ'.onward) (hscope.onward hυ.onward) rfl rfl rfl rfl
      (by decide) rfl hsum hlt (fun φ hφ => ?_) (by omega)
    have hall := hυ'.trans hφ
    obtain _ | ⟨hr', hrest⟩ := (Strung.pair hr hstrung).onward hυ'.onward
    refine ih (h.onward hall.onward) (hname.onward hall.onward) (hrest.onward hφ.onward)
      (Nat.lt_of_succ_lt_succ hi) (by omega) fun ψ hψ => ?_
    rw [hall.head (hstrung.lt _ (List.getElem_mem _))]
    exact hQ ψ (hall.trans hψ)

end Counting

end Scene

end Vau
