import DesignAtlas.Proofs.CheckerEntries
import DesignAtlas.Proofs.FirstFlaw
import DesignAtlas.Proofs.Reading

/-!
# Failures of a run of the checker

A run over files fails for one of two kinds of reason. The front-end diagnoses
some of them itself: the program is missing, or what it printed is nothing, no
JSON or no object. The others come through from below, from the reader of
numbers, from the disk or from an entry with errors that cannot be gone
through, and no caller expects them.

What is diagnosed is the whole output. Of the rest, `undiagnosed_failure_iff`
says exactly when it comes through: a number is too long, or an entry
breaks. Where no entry breaks, every entry has its own result, malformed or
not.
-/

namespace DesignAtlas

/-- **A failure that the front-end diagnoses itself**: the program is missing,
or did not print an object of JSON. -/
def Failure.isDiagnosed : Failure → Bool
  | .toolMissing _ => true
  | .noOutput _ _ _ => true
  | .invalidJson _ _ _ => true
  | .nestedTooDeeply _ => true
  | .unexpectedJson _ => true
  | _ => false

/-- **The program printed an object** with these entries. -/
def ToolRun.Prints (run : ToolRun) (entries : List (CodePoints × Json)) : Prop :=
  ∃ status output errorText, run = .finished status output errorText ∧
    Json.read output = .ok (.obj entries)

theorem ToolRun.prints_of_readText {status : Int} {output errorText : String} {cs : List Char}
    {entries : List (CodePoints × Json)} (hs : output.toList = cs)
    (h : Json.readText cs = .ok (.obj entries)) :
    (ToolRun.finished status output errorText).Prints entries :=
  ⟨status, output, errorText, rfl, Json.read_of_readText hs h⟩

theorem ToolRun.Prints.unique {run : ToolRun} {entries entries' : List (CodePoints × Json)}
    (h : run.Prints entries) (h' : run.Prints entries') : entries = entries' := by
  obtain ⟨status, output, errorText, rfl, hread⟩ := h
  obtain ⟨status', output', errorText', hrun, hread'⟩ := h'
  obtain ⟨-, rfl, -⟩ := ToolRun.finished.inj hrun
  exact Json.obj.inj (Except.ok.inj (hread.symm.trans hread'))

/-- The program printed a whole number that is too long. -/
def ToolRun.PrintsLongNumber (run : ToolRun) (digits : Nat) : Prop :=
  ∃ status output errorText, run = .finished status output errorText ∧
    Json.read output = .error (.integerTooLong digits)

namespace Checker

variable {c : Checker} {disk : Disk} {run : ToolRun} {paths : List String}
  {input? : Option String}

/-! ## What was printed -/

/-- A text that is read, or refused for a long number, is not blank, so its
entries are asked for. -/
theorem printed_finished (c : Checker) (status : Int) {output : String} (errorText : String)
    (h : ∀ place, Json.read output ≠ .error (.malformed .expectedValue place)) :
    (c.output (.finished status output errorText) >>= c.entries) = c.entries output := by
  have hblank : ¬ (Text.strip output).isEmpty = true := by
    intro hblank
    obtain ⟨place, hplace⟩ := Json.read_of_blank (Text.isBlank_of_isEmpty_strip hblank)
    exact h place hplace
  rw [Checker.output, if_neg hblank]
  rfl

theorem printed_of_prints {entries : List (CodePoints × Json)} (h : run.Prints entries) :
    (c.output run >>= c.entries) = .ok entries := by
  obtain ⟨status, output, errorText, rfl, hread⟩ := h
  have hvalue : ∀ place, Json.read output ≠ .error (.malformed .expectedValue place) := by
    intro place hplace
    cases hread.symm.trans hplace
  rw [c.printed_finished status errorText hvalue, Checker.entries, hread]

theorem printed_of_printsLongNumber {digits : Nat} (h : run.PrintsLongNumber digits) :
    (c.output run >>= c.entries) = .error (.integerTooLong digits) := by
  obtain ⟨status, output, errorText, rfl, hread⟩ := h
  have hvalue : ∀ place, Json.read output ≠ .error (.malformed .expectedValue place) := by
    intro place hplace
    cases hread.symm.trans hplace
  rw [c.printed_finished status errorText hvalue, Checker.entries, hread]

theorem entries_cases (c : Checker) (output : String) :
    (∃ entries, Json.read output = .ok (.obj entries)) ∨
      (∃ digits, Json.read output = .error (.integerTooLong digits)) ∨
      ∃ e, c.entries output = .error e ∧ e.isDiagnosed = true := by
  unfold entries
  rcases Json.read output with e | j
  · cases e with
    | integerTooLong digits => exact Or.inr (Or.inl ⟨digits, rfl⟩)
    | malformed fault place => exact Or.inr (Or.inr ⟨_, rfl, rfl⟩)
    | tooDeep => exact Or.inr (Or.inr ⟨_, rfl, rfl⟩)
  · cases j with
    | obj entries => exact Or.inl ⟨entries, rfl⟩
    | _ => exact Or.inr (Or.inr ⟨_, rfl, rfl⟩)

/-- **What a run can come to**: it printed an object, it printed a number that
is too long, or its failure is diagnosed. -/
theorem printed_cases (c : Checker) (run : ToolRun) :
    (∃ entries, run.Prints entries) ∨ (∃ digits, run.PrintsLongNumber digits) ∨
      ∃ e, (c.output run >>= c.entries) = .error e ∧ e.isDiagnosed = true := by
  cases run with
  | missing => exact Or.inr (Or.inr ⟨_, rfl, rfl⟩)
  | finished status output errorText =>
    -- blank output is diagnosed before anything is read
    by_cases hblank : (Text.strip output).isEmpty = true
    · have houtput : ∃ e, c.output (.finished status output errorText) = .error e ∧
          e.isDiagnosed = true := by
        rw [Checker.output, if_pos hblank]
        exact ⟨_, rfl, rfl⟩
      obtain ⟨e, he, hdiagnosed⟩ := houtput
      exact Or.inr (Or.inr ⟨e, bind_eq_error_iff.2 (Or.inl he), hdiagnosed⟩)
    · have houtput : c.output (.finished status output errorText) = .ok output := by
        rw [Checker.output, if_neg hblank]
      rcases c.entries_cases output with ⟨entries, hread⟩ | ⟨digits, hread⟩ | ⟨e, he, hdiagnosed⟩
      · exact Or.inl ⟨entries, status, output, errorText, rfl, hread⟩
      · exact Or.inr (Or.inl ⟨digits, status, output, errorText, rfl, hread⟩)
      · exact Or.inr (Or.inr ⟨e, bind_eq_error_iff.2 (Or.inr ⟨output, houtput, he⟩), hdiagnosed⟩)

/-! ## What comes of it -/

theorem value_parse (c : Checker) (disk : Disk) (run : ToolRun) (paths : List String)
    (input? : Option String) :
    (c.parse disk run paths input?).value =
      (c.output run >>= c.entries) >>= fun entries =>
        (c.readEntries disk input? entries).value.map OrderedMap.ofList := by
  rw [parse]
  rcases (c.output run >>= c.entries) with e | entries <;> rfl

theorem value_parse_of_prints {entries : List (CodePoints × Json)} (h : run.Prints entries) :
    (c.parse disk run paths input?).value =
      (c.readEntries disk input? entries).value.map OrderedMap.ofList := by
  rw [value_parse, printed_of_prints h]
  rfl

theorem not_isDiagnosed_of_breaks {path : CodePoints} {j : Json} {e : Failure}
    (h : Breaks path j e) : e.isDiagnosed = false := by
  cases h <;> rfl

/-- **Where no entry breaks, every entry has its own result.** -/
theorem parse_of_no_breaks (c : Checker) (disk : Disk) (paths : List String)
    (input? : Option String) {entries : List (CodePoints × Json)} (h : run.Prints entries)
    (hnone : ∀ x ∈ entries, ∀ e, ¬ Breaks x.1 x.2 e) :
    ∃ pairs, (c.parse disk run paths input?).value = .ok (.ofList pairs) ∧
      List.Forall₂ (c.HasResult disk input?) entries pairs := by
  rcases hvalue : (c.readEntries disk input? entries).value with e | pairs
  · obtain ⟨before, x, after, rfl, -, hx⟩ := readEntries_eq_error_iff.1 hvalue
    exact absurd hx (hnone x (by simp) e)
  · refine ⟨pairs, ?_, (readEntries_eq_ok_iff.1 hvalue).2⟩
    rw [value_parse_of_prints h, hvalue]
    rfl

/-- **What comes through undiagnosed**: a number that is too long, or the
first entry that breaks. Any other run of the program has a result or a failure
that is diagnosed. And where no entry breaks, what is malformed in an entry
stays with its own file: each entry has the result that it alone gives. -/
theorem undiagnosed_failure_iff (c : Checker) (disk : Disk) (run : ToolRun) (paths : List String)
    (input? : Option String) :
    (∀ e, (c.parse disk run paths input?).value = .error e ∧ e.isDiagnosed = false ↔
      (∃ digits, run.PrintsLongNumber digits ∧ e = .integerTooLong digits) ∨
      ∃ before x after, run.Prints (before ++ x :: after) ∧
        (∀ y ∈ before, ∀ e', ¬ Breaks y.1 y.2 e') ∧ Breaks x.1 x.2 e) ∧
    ∀ entries, run.Prints entries → (∀ x ∈ entries, ∀ e, ¬ Breaks x.1 x.2 e) →
      ∃ pairs, (c.parse disk run paths input?).value = .ok (.ofList pairs) ∧
        List.Forall₂ (c.HasResult disk input?) entries pairs := by
  refine ⟨fun e => ⟨?_, ?_⟩, fun entries => c.parse_of_no_breaks disk paths input?⟩
  · rintro ⟨hfails, hundiagnosed⟩
    rcases c.printed_cases run with ⟨entries, hprints⟩ | ⟨digits, hlong⟩ | ⟨e', he', hdiagnosed⟩
    · rw [value_parse_of_prints hprints, map_eq_error_iff] at hfails
      obtain ⟨before, x, after, rfl, hbefore, hx⟩ := readEntries_eq_error_iff.1 hfails
      exact Or.inr ⟨before, x, after, hprints, hbefore, hx⟩
    · rw [value_parse, printed_of_printsLongNumber hlong] at hfails
      exact Or.inl ⟨digits, hlong, (Except.error.inj hfails).symm⟩
    · rw [value_parse, he'] at hfails
      rw [← Except.error.inj hfails, hdiagnosed] at hundiagnosed
      cases hundiagnosed
  · rintro (⟨digits, hlong, rfl⟩ | ⟨before, x, after, hprints, hbefore, hx⟩)
    · refine ⟨?_, rfl⟩
      rw [value_parse, printed_of_printsLongNumber hlong]
      rfl
    · refine ⟨?_, not_isDiagnosed_of_breaks hx⟩
      rw [value_parse_of_prints hprints, map_eq_error_iff]
      exact readEntries_eq_error_iff.2 ⟨before, x, after, rfl, hbefore, hx⟩

/-- Two entries, of which the first has null for its errors. -/
def nullErrors : ToolRun :=
  .finished 0 "\x7b\"a.sv\": \x7b\"errors\": null\x7d, \"b.sv\": \x7b\x7d\x7d" ""

theorem prints_nullErrors :
    nullErrors.Prints [("a.sv", .obj [("errors", .null)]), ("b.sv", .obj [])] := by
  refine ToolRun.prints_of_readText (by simp only [String.reduceToList]; rfl) ?_
  rfl

theorem breaks_nullErrors :
    Breaks "a.sv" (.obj [("errors", .null)]) (.errorsNotListed "NoneType") := by
  have hnul : '\x00' ∉ (CodePoints.ofString "a.sv").shown.toList := by
    rw [CodePoints.shown_ofString]
    decide
  have herrors : (Json.obj [("errors", .null)]).field? "errors" = some .null := rfl
  exact .errors (CodePoints.unencodable?_ofString "a.sv") hnul herrors id

/-- Two entries, of which the first is no object. -/
def numberEntry : ToolRun :=
  .finished 1 "\x7b\"a.sv\": 7, \"b.sv\": \x7b\x7d\x7d" ""

theorem prints_numberEntry : numberEntry.Prints [("a.sv", .int 7), ("b.sv", .obj [])] := by
  refine ToolRun.prints_of_readText (by simp only [String.reduceToList]; rfl) ?_
  rfl

theorem not_breaks_numberEntry :
    ∀ x ∈ [(CodePoints.ofString "a.sv", Json.int 7), (CodePoints.ofString "b.sv", .obj [])],
      ∀ e, ¬ Breaks x.1 x.2 e := by
  rw [List.forall_mem_cons, List.forall_mem_singleton]
  exact ⟨not_breaks_of_path (by decide) nofun, not_breaks_of_path (by decide) nofun⟩

/-- The files that the runs above are over. -/
def twoFiles : Disk := .ofFiles ["work"] [("a.sv", some []), ("b.sv", some [])]

theorem number_entry_stays_apart :
    (∀ x ∈ [(CodePoints.ofString "a.sv", Json.int 7), (CodePoints.ofString "b.sv", .obj [])],
      ∀ e, ¬ Breaks x.1 x.2 e) ∧
    ∃ pairs, (parse ⟨"verible-verilog-syntax", .drop⟩ twoFiles numberEntry ["a.sv", "b.sv"]
        none).value = .ok (.ofList pairs) ∧
      List.Forall₂ (HasResult ⟨"verible-verilog-syntax", .drop⟩ twoFiles none)
        [("a.sv", .int 7), ("b.sv", .obj [])] pairs :=
  ⟨not_breaks_numberEntry, (undiagnosed_failure_iff _ twoFiles numberEntry ["a.sv", "b.sv"]
    none).2 _ prints_numberEntry not_breaks_numberEntry⟩

/-- **Null in place of the errors of one file ends the run for both**, with a
failure that is not diagnosed. -/
theorem null_errors_undiagnosed :
    (parse ⟨"verible-verilog-syntax", .drop⟩ twoFiles nullErrors ["a.sv", "b.sv"] none).value =
        .error (.errorsNotListed "NoneType") ∧
      (Failure.errorsNotListed "NoneType").isDiagnosed = false := by
  refine ⟨?_, rfl⟩
  rw [value_parse_of_prints prints_nullErrors, map_eq_error_iff]
  exact value_readEntries_of_breaks breaks_nullErrors _

end Checker

end DesignAtlas
