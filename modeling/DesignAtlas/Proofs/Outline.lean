import DesignAtlas.Report.Renderer
import Mathlib.Data.Int.Notation
import Mathlib.Data.List.Forall2

/-!
# Reading drawn hierarchies

A hierarchy is drawn with one line for each entry. A line has blanks for the
depth of the entry and then words: those of its label, and those of a remark
if it has one. The two formats that draw hierarchies differ in the words
(`Format`) and in the blanks of a level.

What is drawn is read back line by line and word by word (`Legible.read_draw`),
where the words of a format can be told apart (`Legible`): blanks and line
feeds stand only between words and lines, and no word of a label looks like
one of a remark. Both formats are legible for names of letters, digits, `_`
and `$`. So two lists of entries that are drawn alike show the same.
-/

namespace DesignAtlas

namespace Text

/-- Letters, digits, `_` and `$`. Beyond ASCII every character counts as a
letter. -/
def isNameChar (c : Char) : Bool := c.isAlphanum || c == '_' || c == '$' || 0x80 ≤ c.toNat

/-- **A plain name** has at least one character and only such ones. -/
def IsName (s : String) : Prop := s ≠ "" ∧ ∀ c ∈ s.toList, isNameChar c = true

instance (s : String) : Decidable (IsName s) :=
  @instDecidableAnd _ _ _ (List.decidableBAll _ s.toList)

theorem IsName.notMem {s : String} (h : IsName s) {c : Char} (hc : isNameChar c = false) :
    c ∉ s.toList := by
  intro hmem
  rw [h.2 c hmem] at hc
  cases hc

end Text

namespace Entry

/-- What a drawn line shows of an entry. -/
structure Shown where
  depth : ℤ
  instance? : Option String
  type : String
  resolved : Bool
  recursive : Bool
  deriving DecidableEq, Repr

/-- The part of an entry that is drawn. -/
def shown (e : Entry) : Shown := ⟨e.depth, e.instance?, e.type, e.resolved, e.recursive⟩

/-- **An entry with plain names, as a walk gives it**: it is no higher than
the top, and one that is not expanded again has a declaration. -/
structure Plain (e : Entry) : Prop where
  type : Text.IsName e.type
  instance? : ∀ name ∈ e.instance?, Text.IsName name
  depth : 0 ≤ e.depth
  recursive : e.recursive = true → e.resolved = true

theorem plain_iff {e : Entry} : e.Plain ↔ Text.IsName e.type ∧
    (∀ name ∈ e.instance?, Text.IsName name) ∧ 0 ≤ e.depth ∧
      (e.recursive = true → e.resolved = true) :=
  ⟨fun h => ⟨h.type, h.instance?, h.depth, h.recursive⟩, fun h => ⟨h.1, h.2.1, h.2.2.1, h.2.2.2⟩⟩

instance (e : Entry) : Decidable e.Plain := decidable_of_iff _ plain_iff.symm

end Entry

namespace Outline

/-- The characters of a word. -/
abbrev Word := List Char

/-- **A format of drawn hierarchies.** -/
structure Format where
  /-- The words that name an instance, if there is one, and its type. -/
  label : Option String → String → List Word
  /-- The names that the words of a label stand for. -/
  unlabel : List Word → Option (Option String × String)
  /-- The remark on a type without a declaration. -/
  undeclared : List Word
  /-- The remark on a type that is not expanded again. -/
  recursive : List Word

namespace Format

variable (f : Format) (unit : ℤ) {e : Entry}

/-! ## Drawing -/

/-- The remark on an entry. -/
def remark (e : Entry) : List Word :=
  if !e.resolved then f.undeclared else if e.recursive then f.recursive else []

/-- The words of an entry. -/
def words (e : Entry) : List Word := f.label e.instance? e.type ++ f.remark e

theorem words_undeclared (h : e.resolved = false) :
    f.words e = f.label e.instance? e.type ++ f.undeclared := by
  rw [words, remark, h]
  rfl

theorem words_recursive (h : e.resolved = true) (hrec : e.recursive = true) :
    f.words e = f.label e.instance? e.type ++ f.recursive := by
  rw [words, remark, h, hrec]
  rfl

theorem words_expanded (h : e.resolved = true) (hrec : e.recursive = false) :
    f.words e = f.label e.instance? e.type := by
  rw [words, remark, h, hrec]
  exact List.append_nil _

/-- The line of an entry, with `unit` blanks for each level above it. -/
def line (e : Entry) : List Char :=
  List.replicate (unit * e.depth).toNat ' ' ++ [' '].intercalate (f.words e)

/-- The lines of entries. -/
def draw (es : List Entry) : List Char := ['\n'].intercalate (es.map (f.line unit))

/-! ## Reading -/

/-- Parts the words of a line into those of the label and what the remark
says: whether there is a declaration, and whether it is not expanded
again. -/
def readRemark (ws : List Word) : List Word × Bool × Bool :=
  if f.undeclared <:+ ws then (ws.take (ws.length - f.undeclared.length), false, false)
  else if f.recursive <:+ ws then (ws.take (ws.length - f.recursive.length), true, true)
  else (ws, true, false)

/-- What a line shows. -/
def readLine (cs : List Char) : Option Entry.Shown :=
  let indent := (cs.takeWhile (· == ' ')).length
  let (label, resolved, recursive) := f.readRemark ((cs.dropWhile (· == ' ')).splitOn ' ')
  (f.unlabel label).map fun names => ⟨indent / unit, names.1, names.2, resolved, recursive⟩

/-- **What a drawn hierarchy shows.** A text without characters has no
lines. -/
def read (s : String) : Option (List Entry.Shown) :=
  if s.toList.isEmpty then some [] else (s.toList.splitOn '\n').mapM (f.readLine unit)

end Format

/-- A word of a label: it is not empty, it can be told from what stands
between words, and it has no parenthesis. -/
def Solid (w : Word) : Prop := w ≠ [] ∧ ' ' ∉ w ∧ '\n' ∉ w ∧ ')' ∉ w

instance (w : Word) : Decidable (Solid w) := inferInstanceAs (Decidable (_ ∧ _))

/-- **A format whose words can be told apart** when names are plain. -/
structure Legible (f : Format) : Prop where
  unlabel_label : ∀ i t, f.unlabel (f.label i t) = some (i, t)
  label_ne_nil : ∀ i t, f.label i t ≠ []
  label_solid : ∀ {i t}, Text.IsName t → (∀ name ∈ i, Text.IsName name) →
    ∀ w ∈ f.label i t, Solid w
  remark_unbroken : ∀ w ∈ f.undeclared ++ f.recursive, ' ' ∉ w ∧ '\n' ∉ w
  /-- A remark has a parenthesis, which no label has. -/
  parenthesis : (∃ w ∈ f.undeclared, ')' ∈ w) ∧ ∃ w ∈ f.recursive, ')' ∈ w
  /-- The two remarks end with different words. -/
  getLast_ne : f.undeclared.getLast? ≠ f.recursive.getLast?

theorem notMem_intercalate {c : Char} {sep : Word} {ws : List Word} (hsep : c ∉ sep)
    (h : ∀ w ∈ ws, c ∉ w) : c ∉ sep.intercalate ws := by
  induction ws with
  | nil => simp
  | cons w ws ih =>
    rw [List.forall_mem_cons] at h
    rcases ws with - | ⟨v, vs⟩
    · rw [List.intercalate_singleton]
      exact h.1
    · rw [List.intercalate_cons_cons, List.mem_append, List.mem_append, not_or, not_or]
      exact ⟨⟨h.1, hsep⟩, ih h.2⟩

namespace Legible

variable {f : Format} {unit : ℤ} {e : Entry} {es : List Entry}

/-! ## The words of a line -/

theorem mem_remark {w : Word} (hw : w ∈ f.remark e) : w ∈ f.undeclared ++ f.recursive := by
  unfold Format.remark at hw
  split at hw
  · exact List.mem_append_left _ hw
  · split at hw
    · exact List.mem_append_right _ hw
    · cases hw

theorem notMem_words (h : Legible f) (he : e.Plain) {w : Word} (hw : w ∈ f.words e) :
    ' ' ∉ w ∧ '\n' ∉ w := by
  rcases List.mem_append.1 hw with hw | hw
  · obtain ⟨-, hblank, hfeed, -⟩ := h.label_solid he.type he.instance? w hw
    exact ⟨hblank, hfeed⟩
  · exact h.remark_unbroken w (mem_remark hw)

theorem words_ne_nil (h : Legible f) : f.words e ≠ [] :=
  List.append_ne_nil_of_left_ne_nil (h.label_ne_nil _ _) _

/-- No label ends like a remark. -/
theorem not_suffix_label (h : Legible f) (he : e.Plain) {mark : List Word}
    (hmark : ∃ w ∈ mark, ')' ∈ w) : ¬ mark <:+ f.label e.instance? e.type := by
  obtain ⟨w, hw, hparen⟩ := hmark
  intro hsuffix
  obtain ⟨-, -, -, hnone⟩ := h.label_solid he.type he.instance? w (hsuffix.mem hw)
  exact hnone hparen

/-- Nor does the one remark end like the other. -/
theorem not_suffix_recursive (h : Legible f) (ws : List Word) :
    ¬ f.undeclared <:+ ws ++ f.recursive := by
  rintro ⟨above, heq⟩
  obtain ⟨⟨w, hw, -⟩, v, hv, -⟩ := h.parenthesis
  have hlast := congrArg List.getLast? heq
  rw [List.getLast?_append_of_ne_nil _ (List.ne_nil_of_mem hw),
    List.getLast?_append_of_ne_nil _ (List.ne_nil_of_mem hv)] at hlast
  exact h.getLast_ne hlast

/-- **The remark is read off the end of the words.** -/
theorem readRemark_words (h : Legible f) (he : e.Plain) :
    f.readRemark (f.words e) = (f.label e.instance? e.type, e.resolved, e.recursive) := by
  have hlabel : ∀ mark : List Word, (f.label e.instance? e.type ++ mark).take
      ((f.label e.instance? e.type ++ mark).length - mark.length) =
        f.label e.instance? e.type := by
    intro mark
    rw [List.length_append, Nat.add_sub_cancel, List.take_left]
  rw [Format.readRemark]
  cases hresolved : e.resolved with
  | false =>
    have hexpanded : e.recursive = false := by
      rw [← Bool.not_eq_true]
      intro hrec
      rw [he.recursive hrec] at hresolved
      cases hresolved
    rw [f.words_undeclared hresolved, if_pos (List.suffix_append _ _), hlabel, hexpanded]
  | true =>
    cases hrec : e.recursive with
    | true =>
      rw [f.words_recursive hresolved hrec, if_neg (h.not_suffix_recursive _),
        if_pos (List.suffix_append _ _), hlabel]
    | false =>
      rw [f.words_expanded hresolved hrec, if_neg (h.not_suffix_label he h.parenthesis.1),
        if_neg (h.not_suffix_label he h.parenthesis.2)]

/-! ## Lines -/

/-- The words of a line start with a character that is no blank. -/
theorem exists_words_eq (h : Legible f) (he : e.Plain) :
    ∃ c cs, [' '].intercalate (f.words e) = c :: cs ∧ c ≠ ' ' := by
  obtain ⟨w, ws, hws⟩ := List.exists_cons_of_ne_nil (h.label_ne_nil e.instance? e.type)
  obtain ⟨hne, hblank, -, -⟩ := h.label_solid he.type he.instance? w (by rw [hws]; simp)
  obtain ⟨c, cs, rfl⟩ := List.exists_cons_of_ne_nil hne
  have hc : c ≠ ' ' := by
    rintro rfl
    exact hblank List.mem_cons_self
  rw [Format.words, hws, List.cons_append]
  rcases ws ++ f.remark e with - | ⟨v, vs⟩
  · exact ⟨c, cs, List.intercalate_singleton, hc⟩
  · rw [List.intercalate_cons_cons, List.append_assoc]
    exact ⟨c, _, rfl, hc⟩

/-- **A line shows its entry.** Its blanks give the depth, and its words the
rest. -/
theorem readLine_line (h : Legible f) (hunit : 1 ≤ unit) (he : e.Plain) :
    f.readLine unit (f.line unit e) = some e.shown := by
  obtain ⟨c, cs, hcs, hc⟩ := h.exists_words_eq he
  have hblanks : ∀ x ∈ List.replicate (unit * e.depth).toNat ' ', (x == ' ') = true := by
    intro x hx
    rw [List.eq_of_mem_replicate hx]
    rfl
  have htake : (f.line unit e).takeWhile (· == ' ') =
      List.replicate (unit * e.depth).toNat ' ' := by
    rw [Format.line, List.takeWhile_append_of_pos hblanks, hcs,
      List.takeWhile_cons_of_neg (by simpa using hc), List.append_nil]
  have hdrop : (f.line unit e).dropWhile (· == ' ') = [' '].intercalate (f.words e) := by
    rw [Format.line, List.dropWhile_append_of_pos hblanks, hcs,
      List.dropWhile_cons_of_neg (by simpa using hc)]
  have hwords : ([' '].intercalate (f.words e)).splitOn ' ' = f.words e :=
    List.splitOn_intercalate ' ' (fun w hw => (h.notMem_words he hw).1) h.words_ne_nil
  have hdepth : ((unit * e.depth).toNat : ℤ) / unit = e.depth := by
    have hnonneg : 0 ≤ unit * e.depth := Int.mul_nonneg (by omega) he.depth
    rw [Int.toNat_of_nonneg hnonneg, Int.mul_ediv_cancel_left _ (by omega)]
  rw [Format.readLine, htake, hdrop, hwords, h.readRemark_words he, List.length_replicate]
  simp only [h.unlabel_label, Option.map_some, hdepth]
  rfl

theorem lineFeed_notMem_line (h : Legible f) (he : e.Plain) : '\n' ∉ f.line unit e := by
  intro hmem
  rcases List.mem_append.1 hmem with hblank | hword
  · exact absurd (List.eq_of_mem_replicate hblank) (by decide)
  · exact notMem_intercalate (by decide) (fun w hw => (h.notMem_words he hw).2) hword

theorem mapM_readLine (h : Legible f) (hunit : 1 ≤ unit) (hes : ∀ e ∈ es, e.Plain) :
    (es.map (f.line unit)).mapM (f.readLine unit) = some (es.map Entry.shown) := by
  induction es with
  | nil => rfl
  | cons e es ih =>
    rw [List.map_cons, List.mapM_cons, h.readLine_line hunit (hes e List.mem_cons_self),
      ih fun x hx => hes x (List.mem_cons_of_mem e hx)]
    rfl

/-- **What is drawn is read back.** Line feeds stand only between the lines,
and no line is empty. -/
theorem read_draw (h : Legible f) (hunit : 1 ≤ unit) (hes : ∀ e ∈ es, e.Plain) {s : String}
    (hs : s.toList = f.draw unit es) : f.read unit s = some (es.map Entry.shown) := by
  rw [Format.read, hs]
  rcases es with - | ⟨e, es⟩
  · rfl
  · have hlines : (f.draw unit (e :: es)).splitOn '\n' = (e :: es).map (f.line unit) := by
      refine List.splitOn_intercalate '\n' ?_ (List.cons_ne_nil _ _)
      intro l hl
      obtain ⟨x, hx, rfl⟩ := List.mem_map.1 hl
      exact h.lineFeed_notMem_line (hes x hx)
    have hne : ¬ (f.draw unit (e :: es)).isEmpty = true := by
      intro hempty
      rw [List.isEmpty_iff.1 hempty, List.splitOn_nil, List.map_cons] at hlines
      obtain ⟨c, cs, hcs, -⟩ := h.exists_words_eq (hes e List.mem_cons_self)
      have hline : f.line unit e = [] := (List.cons.inj hlines).1.symm
      rw [Format.line, hcs, List.append_eq_nil_iff] at hline
      exact List.cons_ne_nil c cs hline.2
    rw [if_neg hne, hlines, h.mapM_readLine hunit hes]

end Legible

/-! ## The two formats -/

/-- Hierarchies on a terminal without colours: the name of the instance, then
that of its type. -/
def terminal : Format where
  label
    | none, type => [type.toList]
    | some name, type => [name.toList, type.toList]
  unlabel
    | [type] => some (none, String.ofList type)
    | [name, type] => some (some (String.ofList name), String.ofList type)
    | _ => none
  undeclared := ["(no".toList, "declaration)".toList]
  recursive := ["(recursive)".toList]

/-- A word without as many characters at both ends. -/
def inner (n : ℕ) (w : Word) : Word := (w.drop n).take (w.length - 2 * n)

/-- Hierarchies as nested lists: the type of a top module is in bold, and
that of an instance in code after a colon. -/
def markdown : Format where
  label
    | none, type => ["-".toList, "**".toList ++ type.toList ++ "**".toList]
    | some name, type =>
      ["-".toList, name.toList, ":".toList, "`".toList ++ type.toList ++ "`".toList]
  unlabel
    | [_, type] => some (none, String.ofList (inner 2 type))
    | [_, name, _, type] => some (some (String.ofList name), String.ofList (inner 1 type))
    | _ => none
  undeclared := ["_(no".toList, "declaration)_".toList]
  recursive := ["_(recursive)_".toList]

theorem solid_of_isName {s : String} (h : Text.IsName s) : Solid s.toList :=
  ⟨mt String.toList_eq_nil_iff.1 h.1, h.notMem (by decide), h.notMem (by decide),
    h.notMem (by decide)⟩

/-- What stands around a name leaves it solid, if it is solid itself. -/
theorem Solid.around {w around : Word} (hw : Solid w) (h : Solid around) :
    Solid (around ++ w ++ around) := by
  obtain ⟨hne, hblank, hfeed, hparen⟩ := hw
  obtain ⟨-, hblank', hfeed', hparen'⟩ := h
  refine ⟨by simp [hne], ?_, ?_, ?_⟩ <;> simp only [List.mem_append, not_or]
  · exact ⟨⟨hblank', hblank⟩, hblank'⟩
  · exact ⟨⟨hfeed', hfeed⟩, hfeed'⟩
  · exact ⟨⟨hparen', hparen⟩, hparen'⟩

theorem inner_around {n : ℕ} {around : Word} (h : around.length = n) (w : Word) :
    inner n (around ++ w ++ around) = w := by
  have hcount : (around ++ w ++ around).length - 2 * n = w.length := by
    simp only [List.length_append]
    omega
  rw [inner, hcount, ← h, List.append_assoc, List.drop_left, List.take_left]

theorem legible_terminal : Legible terminal where
  unlabel_label := by
    rintro (- | name) type
    · exact congrArg some (by rw [String.ofList_toList])
    · exact congrArg some (by rw [String.ofList_toList, String.ofList_toList])
  label_ne_nil := by
    rintro (- | name) type <;> exact List.cons_ne_nil _ _
  label_solid := by
    rintro (- | name) type htype hname
    · exact List.forall_mem_singleton.2 (solid_of_isName htype)
    · exact List.forall_mem_cons.2 ⟨solid_of_isName (hname name rfl),
        List.forall_mem_singleton.2 (solid_of_isName htype)⟩
  remark_unbroken := by decide
  parenthesis := by decide
  getLast_ne := by decide

theorem legible_markdown : Legible markdown where
  unlabel_label := by
    rintro (- | name) type
    · change some (none, String.ofList (inner 2 ("**".toList ++ type.toList ++ "**".toList))) = _
      rw [inner_around (by decide), String.ofList_toList]
    · change some (some (String.ofList name.toList),
        String.ofList (inner 1 ("`".toList ++ type.toList ++ "`".toList))) = _
      rw [inner_around (by decide), String.ofList_toList, String.ofList_toList]
  label_ne_nil := by
    rintro (- | name) type <;> exact List.cons_ne_nil _ _
  label_solid := by
    have hdash : Solid "-".toList := by decide
    rintro (- | name) type htype hname
    · have hbold : Solid ("**".toList ++ type.toList ++ "**".toList) :=
        (solid_of_isName htype).around (by decide)
      exact List.forall_mem_cons.2 ⟨hdash, List.forall_mem_singleton.2 hbold⟩
    · have hcolon : Solid ":".toList := by decide
      have hcode : Solid ("`".toList ++ type.toList ++ "`".toList) :=
        (solid_of_isName htype).around (by decide)
      exact List.forall_mem_cons.2 ⟨hdash, List.forall_mem_cons.2
        ⟨solid_of_isName (hname name rfl), List.forall_mem_cons.2
          ⟨hcolon, List.forall_mem_singleton.2 hcode⟩⟩⟩
  remark_unbroken := by decide
  parenthesis := by decide
  getLast_ne := by decide

theorem toList_terminal_entryLine (indent : ℤ) (e : Entry) :
    (Terminal.entryLine ⟨false, indent⟩ e).toList = terminal.line indent e := by
  obtain ⟨record?, type, depth, instance?, parent?, recursive⟩ := e
  cases instance? <;> cases record? <;> cases recursive <;>
    simp [Terminal.entryLine, Terminal.paint, Terminal.blanks, Format.line, Format.words,
      Format.remark, terminal, Entry.resolved]

theorem toList_markdown_entryLine (e : Entry) :
    (Markdown.entryLine e).toList = markdown.line 2 e := by
  obtain ⟨record?, type, depth, instance?, parent?, recursive⟩ := e
  cases instance? <;> cases record? <;> cases recursive <;>
    simp [Markdown.entryLine, Format.line, Format.words, Format.remark, markdown, Entry.resolved]

/-- Entries are drawn in a format if their lines are. -/
theorem Format.toList_intercalate {f : Format} {unit : ℤ} {line : Entry → String}
    (h : ∀ e, (line e).toList = f.line unit e) (es : List Entry) :
    (String.intercalate "\n" (es.map line)).toList = f.draw unit es := by
  have hlines : es.map (String.toList ∘ line) = es.map (f.line unit) :=
    List.map_congr_left fun e _ => h e
  rw [String.toList_intercalate, List.map_map, hlines]
  rfl

theorem toList_terminal_hierarchy (indent : ℤ) (es : List Entry) :
    (Terminal.hierarchy ⟨false, indent⟩ es).toList = terminal.draw indent es :=
  Format.toList_intercalate (toList_terminal_entryLine indent) es

theorem toList_markdown_hierarchy (es : List Entry) :
    (Markdown.hierarchy es).toList = markdown.draw 2 es :=
  Format.toList_intercalate toList_markdown_entryLine es

/-- Two lists of entries show the same: they have as many entries, and those
at the same place agree in all that is drawn. -/
def ShowAlike (es es' : List Entry) : Prop :=
  List.Forall₂ (fun e e' => e.depth = e'.depth ∧ e.instance? = e'.instance? ∧ e.type = e'.type ∧
    e.resolved = e'.resolved ∧ e.recursive = e'.recursive) es es'

theorem showAlike_of_map_eq {es es' : List Entry} (h : es.map Entry.shown = es'.map Entry.shown) :
    ShowAlike es es' := by
  induction es generalizing es' with
  | nil =>
    rw [List.map_nil, eq_comm, List.map_eq_nil_iff] at h
    rw [h]
    exact .nil
  | cons e es ih =>
    rcases es' with - | ⟨e', es'⟩
    · cases h
    · obtain ⟨hshown, hrest⟩ := List.cons.inj h
      injection hshown with hdepth hinstance htype hresolved hrecursive
      exact .cons ⟨hdepth, hinstance, htype, hresolved, hrecursive⟩ (ih hrest)

/-- **A drawn hierarchy can be read back.** For entries with plain names, as a
walk gives them, what is drawn on a terminal without colours, with at least one
blank for a level, or as a nested list, is read as what the entries show. So
two lists of entries that are drawn alike in either way are of the same length
and agree entry by entry in depth, instance, type, and in whether the type has
a declaration and whether it is not expanded again. -/
theorem hierarchies_read_back (es es' : List Entry) (hes : ∀ e ∈ es, e.Plain)
    (hes' : ∀ e ∈ es', e.Plain) :
    (∀ indent, 1 ≤ indent → terminal.read indent (Terminal.hierarchy ⟨false, indent⟩ es) =
      some (es.map Entry.shown)) ∧
    markdown.read 2 (Markdown.hierarchy es) = some (es.map Entry.shown) ∧
    ((∃ indent, 1 ≤ indent ∧
        Terminal.hierarchy ⟨false, indent⟩ es = Terminal.hierarchy ⟨false, indent⟩ es') ∨
      Markdown.hierarchy es = Markdown.hierarchy es' → ShowAlike es es') := by
  have hterminal : ∀ es : List Entry, (∀ e ∈ es, e.Plain) → ∀ indent, 1 ≤ indent →
      terminal.read indent (Terminal.hierarchy ⟨false, indent⟩ es) = some (es.map Entry.shown) :=
    fun es hes indent hindent =>
      legible_terminal.read_draw hindent hes (toList_terminal_hierarchy indent es)
  have hmarkdown : ∀ es : List Entry, (∀ e ∈ es, e.Plain) →
      markdown.read 2 (Markdown.hierarchy es) = some (es.map Entry.shown) :=
    fun es hes => legible_markdown.read_draw (by decide) hes (toList_markdown_hierarchy es)
  refine ⟨hterminal es hes, hmarkdown es hes, ?_⟩
  rintro (⟨indent, hindent, halike⟩ | halike)
  · have hread := hterminal es hes indent hindent
    rw [halike, hterminal es' hes' indent hindent] at hread
    exact showAlike_of_map_eq (Option.some.inj hread).symm
  · have hread := hmarkdown es hes
    rw [halike, hmarkdown es' hes'] at hread
    exact showAlike_of_map_eq (Option.some.inj hread).symm

/-- A module that uses itself, one without a declaration, and names that are
words of remarks, with everything declared in one file. -/
def remarkNames (path : String) : List Entry :=
  let declared := fun name => some ⟨path, name, [], [], [], []⟩
  [⟨declared "recursive", "recursive", 0, none, none, false⟩,
    ⟨declared "recursive", "recursive", 1, some "$u_1", some path, true⟩,
    ⟨none, "declaration", 1, some "no", some path, false⟩,
    ⟨none, "declaration", 0, none, none, false⟩]

/-- The names are read as names and the remarks as remarks, and what is not
drawn may differ. -/
theorem remarkNames_read_back :
    (∀ e ∈ remarkNames "a.sv", e.Plain) ∧ (∀ e ∈ remarkNames "b.sv", e.Plain) ∧
      Terminal.hierarchy ⟨false, 3⟩ (remarkNames "a.sv") =
        "recursive\n   $u_1 recursive (recursive)\n   no declaration (no declaration)\n" ++
          "declaration (no declaration)" ∧
      terminal.read 3 (Terminal.hierarchy ⟨false, 3⟩ (remarkNames "a.sv")) =
        some [⟨0, none, "recursive", true, false⟩, ⟨1, some "$u_1", "recursive", true, true⟩,
          ⟨1, some "no", "declaration", false, false⟩, ⟨0, none, "declaration", false, false⟩] ∧
      Markdown.hierarchy (remarkNames "a.sv") = Markdown.hierarchy (remarkNames "b.sv") ∧
      ShowAlike (remarkNames "a.sv") (remarkNames "b.sv") := by
  have hplain : ∀ e ∈ remarkNames "a.sv", e.Plain := by decide +kernel
  have hplain' : ∀ e ∈ remarkNames "b.sv", e.Plain := by decide +kernel
  obtain ⟨hterminal, -, halike⟩ :=
    hierarchies_read_back (remarkNames "a.sv") (remarkNames "b.sv") hplain hplain'
  have hdrawn : Markdown.hierarchy (remarkNames "a.sv") = Markdown.hierarchy (remarkNames "b.sv") :=
    rfl
  exact ⟨hplain, hplain', by decide +kernel, hterminal 3 (by decide), hdrawn, halike (.inr hdrawn)⟩

end Outline

end DesignAtlas
