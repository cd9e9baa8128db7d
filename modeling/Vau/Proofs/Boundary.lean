import Vau.Proofs.Bulky
import Vau.Proofs.CallStack
import Vau.Proofs.Insensitivity
import Vau.Proofs.Reachable
import Vau.Proofs.Refusal

/-! The boundary to the host. A script that ends is reported, with a value or with a failure, its
place and its trace, unless an integer is in the way that has too many digits to be read or
written. Such an integer is in the text, in a pair, or in what the failure tells of. -/

namespace Vau

theorem Value.not_bulky_of_isPair {v : Value} (h : v.isPair = true) : ¬ v.Bulky := by
  cases v with
  | pair r => exact id
  | _ => cases h

theorem mem_of_tracedFrames {depth : Int} {stack : List Value} {v : Value}
    (h : v ∈ tracedFrames depth stack) : v ∈ stack := by
  unfold tracedFrames at h
  split at h <;> exact List.mem_of_mem_drop h

theorem exists_frame_of_stackTrace_error {m : Machine} {depth : Int} {e : Stop}
    (h : stackTrace m depth = .error e) :
    ∃ v ∈ m.stack, m.store.print (.within frameWidth) v = .error e := by
  unfold stackTrace at h
  dsimp only at h
  split at h
  · cases h
  · rcases Except.bind_eq_error h with h | ⟨frames, -, h⟩
    · obtain ⟨v, hv, hprint⟩ := List.exists_of_mapM_error h
      exact ⟨v, Array.mem_def.mpr (mem_of_tracedFrames hv), hprint⟩
    · cases h

/-- The frames of a trace are combinations, so a trace is refused for what is in the store. -/
theorem stackTrace_error {m : Machine} {depth : Int} {e : Stop}
    (hstack : ∀ v ∈ m.stack, v.isPair = true) (h : stackTrace m depth = .error e) :
    e = .digits ∧ m.store.Bulky := by
  obtain ⟨v, hv, hprint⟩ := exists_frame_of_stackTrace_error h
  obtain ⟨he, hb | hb⟩ := Store.print_error (by decide) hprint
  · exact absurd hb (Value.not_bulky_of_isPair (hstack v hv))
  · exact ⟨he, hb⟩

/-- A program stops with combinations on the call stack only. -/
theorem runProgram_stack {cfg : Settings} (hcfg : cfg.Balanced) {root : Nat} {forms : List Value}
    {last : Value} {m m' : Machine} {e : Stop} (h : runProgram cfg root forms last m = .error e m') :
    ∀ v ∈ m'.stack, v.isPair = true := by
  induction forms generalizing last m with
  | nil => cases h
  | cons form rest ih =>
    have hrun : runProgram cfg root (form :: rest) last m =
        (evaluate cfg form root >>= runProgram cfg root rest) m.reset := rfl
    simp only [hrun, Bind.bind, EStateM.bind] at h
    have hleaves := balanced_evaluate hcfg form root m.reset
    cases heval : evaluate cfg form root m.reset with
    | ok v m₁ =>
      rw [heval] at h
      exact ih h
    | error e' m₁ =>
      rw [heval] at h hleaves
      cases h
      obtain ⟨added, hstack, hadded⟩ := hleaves
      rwa [hstack, show m.reset.stack = #[] from rfl, Array.empty_append]

namespace Session

/-- What a script does is reported: the refusal of its text, the value of its last form, or a
failure with its description, its place in the source and its trace. -/
inductive Reported (s : Session) (source : String) : Outcome → Prop
  | refused {e : ReadError} (hread : read scriptSource source = .error (.error e)) :
    Reported s source (.failure "ReadError" ("ReadError: " ++ e.message) none)
  | success {data : List Datum} {v : Value} {m : Machine}
    (hread : read scriptSource source = .ok data)
    (hprogram : s.program data (cleared s.machine) = .ok v m) :
    Reported s source (.success v)
  | failure {data : List Datum} {f : Failure} {m : Machine} {text trace : String}
    (hread : read scriptSource source = .ok data)
    (hprogram : s.program data (cleared s.machine) = .error (.failure f) m)
    (htext : f.describe m.store = .ok text) (htrace : stackTrace m s.traceDepth = .ok trace) :
    Reported s source
      (.failure f.kind (reportText f.kind text (placeText source (failureLocation m)) trace)
        (failureLocation m))

/-- An integer has too many digits: in the text, in a pair that the script leaves behind, or in
what its failure tells of. -/
inductive Overlong (s : Session) (source : String) : Prop
  | read (h : LongNumeral source.toList)
  | stored (h : (s.run source).2.machine.store.Bulky)
  | told {data : List Datum} {f : Failure} {m : Machine}
    (hread : Vau.read scriptSource source = .ok data)
    (hprogram : s.program data (cleared s.machine) = .error (.failure f) m) (h : f.Bulky)

/-- Reasons for which a script ends without a report, or does not end. -/
inductive Escapes (s : Session) (source : String) : Stop → Prop
  | digits (h : s.Overlong source) : Escapes s source .digits
  | endless (h : (s.run source).2.machine.store.Cyclic) : Escapes s source .endless
  | outOfFuel {data : List Datum} {m : Machine} (hread : read scriptSource source = .ok data)
    (hprogram : s.program data (cleared s.machine) = .error .outOfFuel m) :
    Escapes s source .outOfFuel

variable {s : Session} {source : String} {data : List Datum} {m : Machine}

theorem run_refused {e : ReadError} (hread : read scriptSource source = .error (.error e)) :
    (s.run source).1 = .failure "ReadError" ("ReadError: " ++ e.message) none := by
  simp only [run, hread]
  rfl

section Read

variable (hread : read scriptSource source = .ok data)
include hread

theorem run_success {v : Value} (h : s.program data (cleared s.machine) = .ok v m) :
    s.run source = (.success v, { s with machine := m }) := by
  have hprogram : program { s with machine := cleared s.machine } data (cleared s.machine) =
      .ok v m := h
  rw [run_read hread, runData, hprogram]

theorem run_raised {e : Stop} (h : s.program data (cleared s.machine) = .error e m)
    (he : ∀ f, e ≠ .failure f) : s.run source = (.raised e, { s with machine := m }) := by
  have hprogram : program { s with machine := cleared s.machine } data (cleared s.machine) =
      .error e m := h
  rw [run_read hread, runData, hprogram]
  cases e with
  | failure f => exact absurd rfl (he f)
  | _ => rfl

end Read

theorem program_stop (hs : s.Reachable []) {e : Stop}
    (hprogram : s.program data (cleared s.machine) = .error e m) :
    (e = .digits → m.store.Bulky) ∧ (e = .endless → m.store.Cyclic) ∧
      ∀ v ∈ m.stack, v.isPair = true := by
  obtain ⟨x, hx⟩ := hs.sound (List.forall_mem_nil _)
  have hnone : ∀ {P : HostFunction → Prop}, ∀ f ∈ s.settings.functions, P f :=
    fun f hf => absurd hf hs.no_functions
  refine ⟨fun he => ?_, fun he => ?_, ?_⟩
  · rw [he, program_eq] at hprogram
    exact Action.pervasive_frank.runProgram hnone s.root _ _ _ m hprogram
  · have hkeeps := hx.program_keeps data x (cleared s.machine) (.refl x) hx.store
      fun _ hl => nomatch hl
    rw [hprogram, he] at hkeeps
    rcases hkeeps.2 with hdue | ⟨hfuel, -⟩
    · exact hdue
    · cases hfuel
  · rw [program_eq] at hprogram
    exact runProgram_stack hnone hprogram

/-- A failing program is reported, unless what the report has to tell is too long to write. -/
theorem failure_reported (hs : s.Reachable []) (hread : read scriptSource source = .ok data)
    {f : Failure} (h : s.program data (cleared s.machine) = .error (.failure f) m) :
    s.Reported source (s.run source).1 ∨
      (s.run source).1 = .raised .digits ∧ s.Overlong source := by
  have hprogram : program { s with machine := cleared s.machine } data (cleared s.machine) =
      .error (.failure f) m := h
  have hrun : s.run source = _ := run_read hread
  rw [runData, hprogram] at hrun
  simp only [failureMessage_eq] at hrun
  cases htext : f.describe m.store with
  | error e =>
    rw [htext] at hrun
    obtain ⟨rfl, hb | hb⟩ := Failure.describe_error htext
    · exact .inr ⟨by rw [hrun]; rfl, .told hread h hb⟩
    · exact .inr ⟨by rw [hrun]; rfl, .stored (by rw [hrun]; exact hb)⟩
  | ok text =>
    cases htrace : stackTrace m s.traceDepth with
    | error e =>
      rw [htext, htrace] at hrun
      obtain ⟨rfl, hb⟩ := stackTrace_error (program_stop hs h).2.2 htrace
      exact .inr ⟨by rw [hrun]; rfl, .stored (by rw [hrun]; exact hb)⟩
    | ok trace =>
      rw [htext, htrace] at hrun
      rw [hrun]
      exact .inl (.failure hread h htext htrace)

/-- A program that stops for something other than a failure has met a long integer or a cycle, or
it has run out of fuel. -/
theorem stop_escapes (hs : s.Reachable []) (hread : read scriptSource source = .ok data)
    {e : Stop} (h : s.program data (cleared s.machine) = .error e m) (he : ∀ f, e ≠ .failure f) :
    s.Escapes source e := by
  obtain ⟨hdigits, hendless, -⟩ := program_stop hs h
  have hstore : (s.run source).2.machine.store = m.store := by rw [run_raised hread h he]
  cases e with
  | failure f => exact absurd rfl (he f)
  | digits => exact .digits (.stored (hstore ▸ hdigits rfl))
  | endless => exact .endless (hstore ▸ hendless rfl)
  | outOfFuel => exact .outOfFuel hread h

/-- In every session that scripts lead to, a text is read or refused with an error of the reader,
and a script is reported, but for integers of too many digits and for walks without an end. -/
theorem reported_or_escapes (hs : s.Reachable []) (source : String) :
    (∀ r, read scriptSource source = .error r →
      (∃ e, r = .error e) ∨ r = .digits ∧ LongNumeral source.toList) ∧
    (s.Reported source (s.run source).1 ∨
      ∃ e, (s.run source).1 = .raised e ∧ s.Escapes source e) := by
  refine ⟨fun r => read_refused, ?_⟩
  cases hread : read scriptSource source with
  | error r =>
    rcases read_refused hread with ⟨e, rfl⟩ | ⟨rfl, hlong⟩
    · rw [run_refused hread]
      exact .inl (.refused hread)
    · have hrun : (s.run source).1 = .raised .digits := by simp only [run, hread]
      exact .inr ⟨.digits, hrun, .digits (.read hlong)⟩
  | ok data =>
    cases h : s.program data (cleared s.machine) with
    | ok v m =>
      rw [run_success hread h]
      exact .inl (.success hread h)
    | error e m =>
      by_cases he : ∃ f, e = .failure f
      · obtain ⟨f, rfl⟩ := he
        rcases failure_reported hs hread h with hreported | ⟨hraised, hlong⟩
        · exact .inl hreported
        · exact .inr ⟨.digits, hraised, .digits hlong⟩
      · have he : ∀ f, e ≠ .failure f := fun f hf => he ⟨f, hf⟩
        exact .inr ⟨e, by rw [run_raised hread h he], stop_escapes hs hread h he⟩

/-- A script that is nothing but too long a numeral is raised in every session. -/
theorem run_numeral (s : Session) {ds : List Char} (hall : ds.all Char.isDigit = true)
    (hlong : digitLimit < ds.length) : (s.run (String.ofList ds)).1 = .raised .digits := by
  simp only [run, read_numeral hall hlong scriptSource]

/-- A session that has the integer 10 to the power of 5120. -/
def hugeScript : String := "($define! a 10000000000)
($set! a (* a a a a a a a a))
($set! a (* a a a a a a a a))
($set! a (* a a a a a a a a))"

@[irreducible] def hugeSession : Session := ((plain none).run hugeScript).2

theorem hugeSession_reachable : hugeSession.Reachable [] := by
  unfold hugeSession
  exact (plain_reachable none).script hugeScript

/-- A failure that tells of the integer. -/
def tellingScript : String := "(error \"x\" a)"

/-- A failure below a combination of the integer, which the trace would show. -/
def tracingScript : String :=
  "(eval (cons cons (cons a (cons (cons head (cons 1 ())) ()))) (($vau () e e)))"

theorem hugeSession_runs :
    (hugeSession.run tellingScript).1 = .raised .digits ∧
    (hugeSession.run tracingScript).1 = .raised .digits ∧
    (hugeSession.run "(head 2)").1 = .failure "TypeMismatch"
      "TypeMismatch: expected pair, got 2\n(line 1, col 1)\n> 1 | (head 2)\n    | ^
Kern stacktrace: (head 2)" (some ⟨1, 1, some "script"⟩) := by decide +kernel

/-- The integer is in the way of one report, and another that does not tell of it is made. -/
theorem reported_or_escapes_huge :
    hugeSession.Reachable [] ∧ hugeSession.Overlong tracingScript ∧
    hugeSession.Reported "(head 2)" (hugeSession.run "(head 2)").1 := by
  obtain ⟨-, htracing, hshort⟩ := hugeSession_runs
  refine ⟨hugeSession_reachable, ?_, ?_⟩
  · obtain ⟨-, hreported | ⟨e, he, hescapes⟩⟩ :=
      reported_or_escapes hugeSession_reachable tracingScript
    · rw [htracing] at hreported
      cases hreported
    · rw [htracing] at he
      cases he
      cases hescapes with
      | digits h => exact h
  · obtain ⟨-, hreported | ⟨e, he, -⟩⟩ := reported_or_escapes hugeSession_reachable "(head 2)"
    · exact hreported
    · rw [hshort] at he
      cases he

/-- Neither the text of too long a numeral nor a failure whose description or trace has the
integer is reported: all of them are raised. -/
theorem reports_raised :
    hugeSession.Reachable [] ∧
    (¬ hugeSession.Reported tellingScript (hugeSession.run tellingScript).1 ∧
      (hugeSession.run tellingScript).1 = .raised .digits) ∧
    (hugeSession.run tracingScript).1 = .raised .digits ∧
    read scriptSource (String.ofList (List.replicate 4301 '1')) = .error .digits ∧
    (hugeSession.run (String.ofList (List.replicate 4301 '1'))).1 = .raised .digits := by
  obtain ⟨htelling, htracing, -⟩ := hugeSession_runs
  have hall : (List.replicate 4301 '1').all Char.isDigit = true :=
    List.all_eq_true.mpr fun c hc => List.eq_of_mem_replicate hc ▸ by decide
  have hlong : digitLimit < (List.replicate 4301 '1').length := by
    rw [List.length_replicate, digitLimit]
    decide
  refine ⟨hugeSession_reachable, ⟨fun hreported => ?_, htelling⟩, htracing,
    read_numeral hall hlong scriptSource, run_numeral hugeSession hall hlong⟩
  rw [htelling] at hreported
  cases hreported

end Session

end Vau
