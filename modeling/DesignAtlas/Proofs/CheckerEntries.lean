import DesignAtlas.Frontend.Checker
import DesignAtlas.Proofs.Correspondence
import DesignAtlas.Proofs.Reading
import Mathlib.Data.List.Forall2

/-!
# The entries that the checker prints

What becomes of one entry of the object that the checker prints, and of all of
them. `Checker.IsResult` says what the result of a file is, by what its entry
holds, and `Checker.Breaks` says why an entry gives no result at all. An entry
does one or the other (`Checker.readEntry_eq_ok_iff`,
`Checker.readEntry_eq_error_iff`), and which of them depends on the entry alone:
neither the other entries nor the files that are stored play a part in it.
The errors of a result are worded as `Checker.Worded` says
(`Checker.worded_iff`).

Of several entries, all have results, or the first that breaks ends the run
for all of them (`Checker.readEntries_eq_ok_iff`,
`Checker.readEntries_eq_error_iff`).
-/

namespace DesignAtlas

theorem map_eq_ok_iff {ε α β : Type} {x : Except ε α} {f : α → β} {b : β} :
    x.map f = .ok b ↔ ∃ a, x = .ok a ∧ f a = b := by
  cases x with
  | error e => exact ⟨nofun, nofun⟩
  | ok a =>
    constructor
    · intro h
      exact ⟨a, rfl, Except.ok.inj h⟩
    · rintro ⟨a', ha, rfl⟩
      rw [Except.ok.inj ha]
      rfl

theorem map_eq_error_iff {ε α β : Type} {x : Except ε α} {f : α → β} {e : ε} :
    x.map f = .error e ↔ x = .error e := by
  cases x with
  | error e' =>
    constructor
    · intro h
      rw [Except.error.inj h]
    · intro h
      rw [Except.error.inj h]
      rfl
  | ok a => exact ⟨nofun, nofun⟩

/-! ## Sources -/

namespace Disk

theorem follow_ne_nulInPath (d : Disk) (here names : List String) :
    d.follow here names ≠ .error .nulInPath := by
  induction names generalizing here with
  | nil => nofun
  | cons name rest ih =>
    unfold follow
    intro h
    split at h
    · cases h
    · split at h
      · cases h
      · exact ih _ h
      · split at h <;> cases h

/-- **Only a path with a NUL is no path at all.** -/
theorem read_eq_nulInPath_iff (d : Disk) (path : String) :
    d.read path = .error .nulInPath ↔ '\x00' ∈ path.toList := by
  have hcontains : path.contains '\x00' = true ↔ '\x00' ∈ path.toList := by
    rw [String.contains_char_eq, decide_eq_true_eq]
  rw [← hcontains, read, resolve]
  constructor
  · intro h
    by_contra hnul
    rw [if_neg hnul] at h
    split at h
    · cases h
    · cases h
    · rename_i e he
      obtain rfl := Except.error.inj h
      split at he
      · cases he
      · split at he
        · cases he
        · exact follow_ne_nulInPath _ _ _ he
  · intro hnul
    rw [if_pos hnul]

/-- The source at a path; not known where nothing can be read. -/
def sourceAt (d : Disk) (path : String) : Source :=
  match d.read path with
  | .ok bytes => .stored bytes
  | .error _ => .absent

theorem value_readSource (d : Disk) (path : String) :
    (d.readSource path).value =
      if '\x00' ∈ path.toList then .error .nulInPath else .ok (d.sourceAt path) := by
  have hnul := d.read_eq_nulInPath_iff path
  unfold readSource sourceAt
  rcases hread : d.read path with e | bytes
  · rw [hread] at hnul
    by_cases he : e = .nulInPath
    · subst he
      rw [if_pos (hnul.1 rfl)]
    · rw [if_neg fun hmem => he (Except.error.inj (hnul.2 hmem))]
      cases e with
      | nulInPath => exact absurd rfl he
      | _ => rfl
  · have hpath : '\x00' ∉ path.toList := by
      intro hmem
      cases hread.symm.trans (hnul.2 hmem)
    rw [if_neg hpath]

end Disk

/-- A value that can be gone through: a list, a text or an object. -/
def Json.IsCollection : Json → Prop
  | .arr _ => True
  | .str _ => True
  | .obj _ => True
  | _ => False

namespace Checker

/-- **The source of the file at a path**: the standard input for `-`, else
what is stored there. -/
def sourceOf (disk : Disk) (input? : Option String) (path : String) : Source :=
  if path = "-" then (input?.map Source.text).getD .absent else disk.sourceAt path

/-! ## One entry -/

/-- What an error says: the phase that it comes from and the text that it is at,
which is quoted. What is not there counts as empty. -/
def errorPhrase (report : Json) : String :=
  (report.field? "phase").elim "" Json.display ++ " error at " ++
    (report.field? "text").elim "''" Json.literal

/-- **The wording of a reported error.** An object is worded as its line and
column, or a question mark if it has no line, and what it says, without the
blanks at the ends. Any other value stands for itself. -/
inductive Worded : Json → String → Prop
  | placed {fields : List (CodePoints × Json)} {text : String}
      (line : (Json.obj fields).field "line" ≠ .null)
      (stripped : Text.IsStripped (((Json.obj fields).field "line").display ++ ":" ++
        ((Json.obj fields).field "column").display ++ ": " ++ errorPhrase (.obj fields)) text) :
      Worded (.obj fields) text
  | unplaced {fields : List (CodePoints × Json)} {text : String}
      (line : (Json.obj fields).field "line" = .null)
      (stripped : Text.IsStripped ("?: " ++ errorPhrase (.obj fields)) text) :
      Worded (.obj fields) text
  | value {j : Json} (kind : ∀ fields, j ≠ .obj fields) : Worded j j.display

/-- **The errors that an entry reports**: the wordings of a list, one after
the other. A text reports its characters, and an object its names. -/
inductive Reported (j : Json) : List String → Prop
  | absent (errors : j.field? "errors" = none) : Reported j []
  | list {items : List Json} {texts : List String}
      (errors : j.field? "errors" = some (.arr items))
      (worded : List.Forall₂ Worded items texts) : Reported j texts
  | text {s : CodePoints} (errors : j.field? "errors" = some (.str s)) :
      Reported j (s.chars.map String.singleton)
  | names {fields : List (CodePoints × Json)} (errors : j.field? "errors" = some (.obj fields)) :
      Reported j (fields.map fun x => x.1.shown)

/-- **The result of a file**, by what its entry holds. An entry that is no
object has no tree and one error. Else the errors are those reported, and one
more where there is a tree that is malformed; such a tree is dropped. -/
inductive IsResult (nulls : NullPolicy) (source : Source) : Json → ParsedFile → Prop
  | noObject {j : Json} (kind : ∀ fields, j ≠ .obj fields) :
      IsResult nulls source j ⟨source, none, ["unexpected per-file result"]⟩
  | noTree {fields : List (CodePoints × Json)} {texts : List String}
      (reported : Reported (.obj fields) texts)
      (tree : (Json.obj fields).field "tree" = .null) :
      IsResult nulls source (.obj fields) ⟨source, none, texts⟩
  | built {fields : List (CodePoints × Json)} {texts : List String} {exported : Json} {t : Tree}
      (reported : Reported (.obj fields) texts)
      (tree : (Json.obj fields).field "tree" = exported)
      (ok : Tree.ofExport nulls source exported = .ok t) :
      IsResult nulls source (.obj fields) ⟨source, some t, texts⟩
  | malformed {fields : List (CodePoints × Json)} {texts : List String} {exported : Json}
      {m : Malformed} (reported : Reported (.obj fields) texts)
      (tree : (Json.obj fields).field "tree" = exported) (present : exported ≠ .null)
      (error : Tree.ofExport nulls source exported = .error m) :
      IsResult nulls source (.obj fields) ⟨source, none, texts ++ [m.message]⟩

/-- **Why an entry breaks off the run**: its path has no bytes or holds a NUL,
or its errors cannot be gone through. -/
inductive Breaks (path : CodePoints) (j : Json) : Failure → Prop
  | unencodable {run : CodePoints.Unencodable} (halves : path.unencodable? = some run) :
      Breaks path j (.unencodablePath run)
  | nul (halves : path.unencodable? = none) (nul : '\x00' ∈ path.shown.toList) :
      Breaks path j .nulInPath
  | errors {under : Json} (halves : path.unencodable? = none)
      (nul : '\x00' ∉ path.shown.toList) (errors : j.field? "errors" = some under)
      (kind : ¬ under.IsCollection) : Breaks path j (.errorsNotListed under.kindName)

variable {c : Checker} {disk : Disk} {input? : Option String} {path : CodePoints} {j : Json}

theorem isNull_iff {j : Json} : j.isNull = true ↔ j = .null := by
  cases j <;> simp [Json.isNull]

/-- The place of an error, as its wording starts with it. -/
def errorPlace (report : Json) : String :=
  if (report.field "line").isNull then "?"
  else (report.field "line").display ++ ":" ++ (report.field "column").display

theorem errorText_obj (fields : List (CodePoints × Json)) :
    errorText (.obj fields) =
      Text.strip (errorPlace (.obj fields) ++ ": " ++ errorPhrase (.obj fields)) := by
  have hphase : (((Json.obj fields).field? "phase").getD (.str "")).display =
      ((Json.obj fields).field? "phase").elim "" Json.display := by
    cases (Json.obj fields).field? "phase" <;> rfl
  have htext : (((Json.obj fields).field? "text").getD (.str "")).literal =
      ((Json.obj fields).field? "text").elim "''" Json.literal := by
    cases (Json.obj fields).field? "text" <;> rfl
  rw [errorPhrase, ← hphase, ← htext]
  simp only [errorText, errorPlace, String.append_assoc]

/-- **An error is worded as the relation says.** -/
theorem worded_iff {report : Json} {text : String} :
    Worded report text ↔ errorText report = text := by
  constructor
  · intro h
    cases h with
    | placed line stripped =>
      rw [errorText_obj, errorPlace, if_neg (mt isNull_iff.1 line)]
      exact stripped.strip_eq
    | unplaced line stripped =>
      rw [errorText_obj, errorPlace, if_pos (isNull_iff.2 line)]
      exact stripped.strip_eq
    | value kind =>
      cases report with
      | obj fields => exact absurd rfl (kind fields)
      | _ => rfl
  · rintro rfl
    cases report with
    | obj fields =>
      have hstripped := Text.isStripped_strip
        (errorPlace (.obj fields) ++ ": " ++ errorPhrase (.obj fields))
      rw [← errorText_obj] at hstripped
      by_cases line : (Json.obj fields).field "line" = .null
      · rw [errorPlace, if_pos (isNull_iff.2 line)] at hstripped
        exact .unplaced line hstripped
      · rw [errorPlace, if_neg (mt isNull_iff.1 line)] at hstripped
        exact .placed line hstripped
    | _ => exact .value nofun

theorem Reported.reports_eq {texts : List String} (h : Reported j texts) :
    reports ((j.field? "errors").getD (.arr [])) = .ok texts := by
  cases h with
  | absent herrors => rw [herrors]; rfl
  | @list items _ herrors hworded =>
    have htexts : items.map errorText = texts.map id :=
      map_eq_of_forall₂ hworded fun _ _ => worded_iff.1
    rw [herrors, Option.getD_some, reports, htexts, List.map_id]
  | text herrors => rw [herrors]; rfl
  | names herrors => rw [herrors]; rfl

theorem exists_reported (h : ∀ under, j.field? "errors" = some under → under.IsCollection) :
    ∃ texts, Reported j texts := by
  rcases herrors : j.field? "errors" with - | under
  · exact ⟨_, .absent herrors⟩
  · have hkind := h under herrors
    cases under with
    | arr items =>
      refine ⟨items.map errorText, .list herrors ?_⟩
      exact List.forall₂_map_right_iff.2 (List.forall₂_same.2 fun _ _ => worded_iff.2 rfl)
    | str s => exact ⟨_, .text herrors⟩
    | obj fields => exact ⟨_, .names herrors⟩
    | _ => cases hkind

theorem value_parsedFile_of_errors (nulls : NullPolicy) (path : String) (source : Source)
    {under : Json} (errors : j.field? "errors" = some under) (kind : ¬ under.IsCollection) :
    (parsedFile nulls path source j).value = .error (.errorsNotListed under.kindName) := by
  have hreports : reports under = .error (.errorsNotListed under.kindName) := by
    cases under with
    | arr items => exact absurd trivial kind
    | str s => exact absurd trivial kind
    | obj fields => exact absurd trivial kind
    | _ => rfl
  cases j with
  | obj fields =>
    rw [parsedFile, errors, Option.getD_some, hreports]
  | _ => cases errors

/-- What `parsedFile` gives where the errors can be gone through. -/
theorem value_parsedFile_obj (nulls : NullPolicy) (path : String) (source : Source)
    {fields : List (CodePoints × Json)} {texts : List String}
    (h : reports (((Json.obj fields).field? "errors").getD (.arr [])) = .ok texts) :
    (parsedFile nulls path source (.obj fields)).value =
      if ((Json.obj fields).field "tree").isNull then .ok ⟨source, none, texts⟩
      else .ok (ParsedFile.attach nulls path ⟨source, none, texts⟩
        ((Json.obj fields).field "tree")).value := by
  rw [parsedFile]
  simp only [h]
  split <;> rfl

theorem value_attach_of_ok {nulls : NullPolicy} {source : Source} {exported : Json} {t : Tree}
    (path : String) (texts : List String) (h : Tree.ofExport nulls source exported = .ok t) :
    (ParsedFile.attach nulls path ⟨source, none, texts⟩ exported).value =
      ⟨source, some t, texts⟩ := by
  rw [ParsedFile.attach]
  simp only [h]

theorem value_attach_of_error {nulls : NullPolicy} {source : Source} {exported : Json}
    {m : Malformed} (path : String) (texts : List String)
    (h : Tree.ofExport nulls source exported = .error m) :
    (ParsedFile.attach nulls path ⟨source, none, texts⟩ exported).value =
      ⟨source, none, texts ++ [m.message]⟩ := by
  rw [ParsedFile.attach]
  simp only [h]

/-- **The relation gives the result that is computed.** -/
theorem IsResult.value_parsedFile {nulls : NullPolicy} {source : Source} {file : ParsedFile}
    (h : IsResult nulls source j file) (path : String) :
    (parsedFile nulls path source j).value = .ok file := by
  cases h with
  | noObject kind =>
    cases j with
    | obj fields => exact absurd rfl (kind fields)
    | _ => rfl
  | noTree reported tree =>
    rw [value_parsedFile_obj nulls path source reported.reports_eq, tree]
    exact if_pos rfl
  | @built fields texts exported t reported tree ok =>
    have hpresent : ¬ ((Json.obj fields).field "tree").isNull = true := by
      rw [tree, isNull_iff]
      rintro rfl
      cases ok
    rw [value_parsedFile_obj nulls path source reported.reports_eq, if_neg hpresent, tree,
      value_attach_of_ok path _ ok]
  | @malformed fields texts exported m reported tree present error =>
    have hpresent : ¬ ((Json.obj fields).field "tree").isNull = true := by
      rw [tree, isNull_iff]
      exact present
    rw [value_parsedFile_obj nulls path source reported.reports_eq, if_neg hpresent, tree,
      value_attach_of_error path _ error]

theorem IsResult.unique {nulls : NullPolicy} {source : Source} {file file' : ParsedFile}
    (h : IsResult nulls source j file) (h' : IsResult nulls source j file') : file = file' :=
  Except.ok.inj ((h.value_parsedFile "").symm.trans (h'.value_parsedFile ""))

/-- An object whose errors can be gone through has a result. -/
theorem exists_isResult_obj (nulls : NullPolicy) (source : Source)
    {fields : List (CodePoints × Json)}
    (h : ∀ under, (Json.obj fields).field? "errors" = some under → under.IsCollection) :
    ∃ file, IsResult nulls source (.obj fields) file := by
  obtain ⟨texts, reported⟩ := exists_reported h
  by_cases htree : (Json.obj fields).field "tree" = .null
  · exact ⟨_, .noTree reported htree⟩
  · rcases hbuilt : Tree.ofExport nulls source ((Json.obj fields).field "tree") with m | t
    · exact ⟨_, .malformed reported rfl htree hbuilt⟩
    · exact ⟨_, .built reported rfl hbuilt⟩

theorem exists_isResult (nulls : NullPolicy) (source : Source)
    (h : ∀ under, j.field? "errors" = some under → under.IsCollection) :
    ∃ file, IsResult nulls source j file := by
  cases j with
  | obj fields => exact exists_isResult_obj nulls source h
  | _ => exact ⟨_, .noObject nofun⟩

/-- Where the source of an entry comes from. -/
theorem value_entrySource (disk : Disk) (input? : Option String)
    (halves : path.unencodable? = none) :
    (entrySource disk input? path).value =
      if '\x00' ∈ path.shown.toList then .error .nulInPath
      else .ok (sourceOf disk input? path.shown) := by
  rw [entrySource, halves]
  simp only [sourceOf]
  split
  · rename_i hinput
    have hpath : '\x00' ∉ path.shown.toList := by
      rw [hinput]
      decide
    rw [if_neg hpath]
  · exact disk.value_readSource path.shown

theorem value_readEntry_of_source {source : Source}
    (h : (entrySource disk input? path).value = .ok source) :
    (c.readEntry disk input? path j).value = (parsedFile c.nulls path.shown source j).value := by
  rw [readEntry]
  simp only [h]

theorem value_readEntry_of_failure {e : Failure}
    (h : (entrySource disk input? path).value = .error e) :
    (c.readEntry disk input? path j).value = .error e := by
  rw [readEntry]
  simp only [h]

/-- **An entry that breaks has no result.** -/
theorem Breaks.value_readEntry {e : Failure} (h : Breaks path j e) (c : Checker) (disk : Disk)
    (input? : Option String) : (c.readEntry disk input? path j).value = .error e := by
  cases h with
  | unencodable halves =>
    refine value_readEntry_of_failure ?_
    rw [entrySource, halves]
  | nul halves nul =>
    refine value_readEntry_of_failure ?_
    rw [value_entrySource disk input? halves, if_pos nul]
  | errors halves nul errors kind =>
    have hsource : (entrySource disk input? path).value =
        .ok (sourceOf disk input? path.shown) := by
      rw [value_entrySource disk input? halves, if_neg nul]
    rw [value_readEntry_of_source hsource, value_parsedFile_of_errors _ _ _ errors kind]

/-- **What becomes of an entry**: it breaks off the run, or it has a result
for the source of its path. -/
theorem readEntry_cases (c : Checker) (disk : Disk) (input? : Option String) (path : CodePoints)
    (j : Json) :
    (∃ e, Breaks path j e) ∨
      ∃ file, IsResult c.nulls (sourceOf disk input? path.shown) j file ∧
        (c.readEntry disk input? path j).value = .ok file := by
  rcases halves : path.unencodable? with - | run
  · by_cases hnul : '\x00' ∈ path.shown.toList
    · exact Or.inl ⟨_, .nul halves hnul⟩
    · by_cases herrors : ∀ under, j.field? "errors" = some under → under.IsCollection
      · obtain ⟨file, hresult⟩ := exists_isResult c.nulls (sourceOf disk input? path.shown) herrors
        have hsource : (entrySource disk input? path).value =
            .ok (sourceOf disk input? path.shown) := by
          rw [value_entrySource disk input? halves, if_neg hnul]
        refine Or.inr ⟨file, hresult, ?_⟩
        rw [value_readEntry_of_source hsource, hresult.value_parsedFile]
      · push Not at herrors
        obtain ⟨under, hunder, hkind⟩ := herrors
        exact Or.inl ⟨_, .errors halves hnul hunder hkind⟩
  · exact Or.inl ⟨_, .unencodable halves⟩

theorem readEntry_eq_error_iff {e : Failure} :
    (c.readEntry disk input? path j).value = .error e ↔ Breaks path j e := by
  constructor
  · intro h
    rcases readEntry_cases c disk input? path j with ⟨e', hbreaks⟩ | ⟨file, -, hok⟩
    · have he := hbreaks.value_readEntry c disk input?
      rwa [Except.error.inj (h.symm.trans he)]
    · cases h.symm.trans hok
  · intro h
    exact h.value_readEntry c disk input?

theorem readEntry_eq_ok_iff {file : ParsedFile} :
    (c.readEntry disk input? path j).value = .ok file ↔
      (∀ e, ¬ Breaks path j e) ∧ IsResult c.nulls (sourceOf disk input? path.shown) j file := by
  constructor
  · intro h
    have hnone : ∀ e, ¬ Breaks path j e := by
      intro e hbreaks
      cases h.symm.trans (hbreaks.value_readEntry c disk input?)
    rcases readEntry_cases c disk input? path j with ⟨e, hbreaks⟩ | ⟨file', hresult, hok⟩
    · exact absurd hbreaks (hnone e)
    · rw [Except.ok.inj (h.symm.trans hok)]
      exact ⟨hnone, hresult⟩
  · rintro ⟨hnone, hresult⟩
    rcases readEntry_cases c disk input? path j with ⟨e, hbreaks⟩ | ⟨file', hresult', hok⟩
    · exact absurd hbreaks (hnone e)
    · rw [hok, hresult.unique hresult']

/-- **A path of characters without a NUL breaks nothing**, and neither do
errors that can be gone through. -/
theorem not_breaks_of_path {path : String} (hpath : '\x00' ∉ path.toList)
    (herrors : ∀ under, j.field? "errors" = some under → under.IsCollection) (e : Failure) :
    ¬ Breaks path j e := by
  have halves := CodePoints.unencodable?_ofString path
  intro h
  cases h with
  | unencodable run => cases halves.symm.trans run
  | nul _ nul =>
    rw [CodePoints.shown_ofString] at nul
    exact hpath nul
  | errors _ _ errors kind => exact kind (herrors _ errors)

/-! ## All entries -/

/-- The result of an entry, under its path as it is shown. -/
def HasResult (c : Checker) (disk : Disk) (input? : Option String) (entry : CodePoints × Json)
    (pair : String × ParsedFile) : Prop :=
  pair.1 = entry.1.shown ∧ IsResult c.nulls (sourceOf disk input? entry.1.shown) entry.2 pair.2

theorem value_readEntries_of_breaks {x : CodePoints × Json} {e : Failure} (h : Breaks x.1 x.2 e)
    (rest : List (CodePoints × Json)) :
    (c.readEntries disk input? (x :: rest)).value = .error e := by
  rw [readEntries]
  simp only [h.value_readEntry]

theorem value_readEntries_of_ok {x : CodePoints × Json} {file : ParsedFile}
    (h : (c.readEntry disk input? x.1 x.2).value = .ok file) (rest : List (CodePoints × Json)) :
    (c.readEntries disk input? (x :: rest)).value =
      (c.readEntries disk input? rest).value.map ((x.1.shown, file) :: ·) := by
  rw [readEntries]
  simp only [h]

/-- **Entries have results exactly when none of them breaks**, and each then
has its own. -/
theorem readEntries_eq_ok_iff {entries : List (CodePoints × Json)}
    {pairs : List (String × ParsedFile)} :
    (c.readEntries disk input? entries).value = .ok pairs ↔
      (∀ x ∈ entries, ∀ e, ¬ Breaks x.1 x.2 e) ∧
        List.Forall₂ (c.HasResult disk input?) entries pairs := by
  induction entries generalizing pairs with
  | nil =>
    have hvalue : (c.readEntries disk input? []).value = .ok [] := rfl
    rw [hvalue, List.forall₂_nil_left_iff, Except.ok.injEq]
    simp [eq_comm]
  | cons x rest ih =>
    rw [List.forall_mem_cons]
    rcases readEntry_cases c disk input? x.1 x.2 with ⟨e, hbreaks⟩ | ⟨file, hresult, hfile⟩
    · rw [value_readEntries_of_breaks hbreaks]
      constructor
      · intro h
        cases h
      · intro h
        exact absurd hbreaks (h.1.1 e)
    · have hnone := (readEntry_eq_ok_iff.1 hfile).1
      rw [value_readEntries_of_ok hfile, map_eq_ok_iff, List.forall₂_cons_left_iff]
      constructor
      · rintro ⟨others, hothers, rfl⟩
        obtain ⟨hrest, hresults⟩ := ih.1 hothers
        exact ⟨⟨hnone, hrest⟩, _, _, ⟨rfl, hresult⟩, hresults, rfl⟩
      · rintro ⟨⟨-, hrest⟩, ⟨shown, file'⟩, others, ⟨rfl, hresult'⟩, hresults, rfl⟩
        refine ⟨others, ih.2 ⟨hrest, hresults⟩, ?_⟩
        rw [hresult.unique hresult']

/-- **The first entry that breaks ends the run.** -/
theorem readEntries_eq_error_iff {entries : List (CodePoints × Json)} {e : Failure} :
    (c.readEntries disk input? entries).value = .error e ↔
      ∃ before x after, entries = before ++ x :: after ∧
        (∀ y ∈ before, ∀ e', ¬ Breaks y.1 y.2 e') ∧ Breaks x.1 x.2 e := by
  constructor
  · intro h
    induction entries with
    | nil => cases h
    | cons x rest ih =>
      rcases readEntry_cases c disk input? x.1 x.2 with ⟨e', hbreaks⟩ | ⟨file, -, hfile⟩
      · rw [value_readEntries_of_breaks hbreaks] at h
        obtain rfl := Except.error.inj h
        exact ⟨[], x, rest, rfl, fun y hy => absurd hy List.not_mem_nil, hbreaks⟩
      · rw [value_readEntries_of_ok hfile] at h
        have hrest := map_eq_error_iff.1 h
        obtain ⟨before, y, after, rfl, hbefore, hy⟩ := ih hrest
        have hx := (readEntry_eq_ok_iff.1 hfile).1
        exact ⟨x :: before, y, after, rfl, List.forall_mem_cons.2 ⟨hx, hbefore⟩, hy⟩
  · rintro ⟨before, x, after, rfl, hbefore, hx⟩
    induction before with
    | nil => exact value_readEntries_of_breaks hx after
    | cons y before ih =>
      obtain ⟨hy, hbefore⟩ := List.forall_mem_cons.1 hbefore
      rcases readEntry_cases c disk input? y.1 y.2 with ⟨e', hbreaks⟩ | ⟨file, -, hfile⟩
      · exact absurd hbreaks (hy e')
      · rw [List.cons_append, value_readEntries_of_ok hfile, ih hbefore]
        rfl

end Checker

end DesignAtlas
