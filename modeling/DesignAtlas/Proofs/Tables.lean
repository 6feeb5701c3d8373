import DesignAtlas.Module.Extraction
import DesignAtlas.Report.Renderer
import Mathlib.Data.List.Basic

/-!
# When a module report is a table

The rows of a module report are lines, and the bars in them part the cells.
A value is written into its cell as it is, so it may end the line or bring
bars of its own. How many lines and bars a report has is counted exactly: a
report has a line more for each line end in a value
(`length_lines_modules`), and a row a bar more for each bar in a value
that is not escaped (`total_moduleRow`). So a report is a table if and only if
no value has any.

Whether a character counts depends on the one before it: a line feed after a
carriage return belongs to it, and a bar after a backslash is escaped. Both
counts are a `Counter`, and they add up along a row since blanks and tags stand
between the values.
-/

namespace DesignAtlas

/-! ## Counts along a text -/

namespace Text

/-- **A count of characters** that depends on whether the character before was
a special one. -/
structure Counter where
  /-- Whether a character counts, after a special one or not. -/
  counts : Bool → Char → Bool
  /-- Whether a character is special, after a special one or not. -/
  special : Bool → Char → Bool

namespace Counter

variable (k : Counter) {c : Char}

/-- The number of characters that count. -/
def run : Bool → List Char → ℕ
  | _, [] => 0
  | after, c :: cs => (if k.counts after c then 1 else 0) + run (k.special after c) cs

/-- The number of characters of a text that count. -/
def total (s : String) : ℕ := k.run false s.toList

/-- The number of characters of several texts that count. -/
def totalAll : List String → ℕ
  | [] => 0
  | s :: ss => k.total s + totalAll ss

theorem totalAll_append (ss ts : List String) :
    k.totalAll (ss ++ ts) = k.totalAll ss + k.totalAll ts := by
  induction ss with
  | nil => simp [totalAll]
  | cons s ss ih => simp only [List.cons_append, totalAll, ih]; omega

theorem totalAll_eq_zero_iff (ss : List String) :
    k.totalAll ss = 0 ↔ ∀ s ∈ ss, k.total s = 0 := by
  induction ss with
  | nil => simp [totalAll]
  | cons s ss ih => rw [totalAll, Nat.add_eq_zero_iff, ih, List.forall_mem_cons]

/-- A character that neither counts nor is special. -/
def Ignores (c : Char) : Prop := ∀ after, k.counts after c = false ∧ k.special after c = false

variable {k}

theorem Ignores.run_cons (h : k.Ignores c) (after : Bool) (cs : List Char) :
    k.run after (c :: cs) = k.run false cs := by
  rw [run, (h after).1, (h after).2]
  simp

/-- **Counts add up where an ignored character stands between.** -/
theorem Ignores.run_append_cons (h : k.Ignores c) (after : Bool) (xs ys : List Char) :
    k.run after (xs ++ c :: ys) = k.run after xs + k.run false ys := by
  induction xs generalizing after with
  | nil => rw [List.nil_append, h.run_cons, run, Nat.zero_add]
  | cons x xs ih => rw [List.cons_append, run, run, ih, Nat.add_assoc]

end Counter

/-! ## Line ends -/

/-- The characters that end a line. A line feed right after a carriage return
ends it together with that. -/
def lineEnds : Counter where
  counts := fun afterReturn c => endsLine c && !(afterReturn && c == '\n')
  special := fun _ c => c == '\r'

theorem ne_return_of_not_endsLine {c : Char} (h : endsLine c = false) : c ≠ '\r' := by
  rintro rfl
  cases h

theorem lineEnds_ignores {c : Char} (h : endsLine c = false) : lineEnds.Ignores c := by
  intro after
  exact ⟨by simp [lineEnds, h], beq_eq_false_iff_ne.2 (ne_return_of_not_endsLine h)⟩

theorem run_lineEnds_of_endsLine {c : Char} (h : endsLine c = true) (cs : List Char) :
    lineEnds.run false (c :: cs) = 1 + lineEnds.run (c == '\r') cs := by
  simp [Counter.run, lineEnds, h]

/-- A text has no line ends if no character of it ends a line. -/
theorem run_lineEnds_eq_zero_iff (cs : List Char) :
    lineEnds.run false cs = 0 ↔ ∀ c ∈ cs, endsLine c = false := by
  induction cs with
  | nil => simp [Counter.run]
  | cons c cs ih =>
    rw [List.forall_mem_cons]
    cases hc : endsLine c with
    | true =>
      rw [run_lineEnds_of_endsLine hc]
      simp
    | false =>
      rw [(lineEnds_ignores hc).run_cons, ih]
      simp

/-- Where no line feed follows, it makes no difference that a carriage return
came before. -/
theorem run_lineEnds_of_head? {cs : List Char} (h : cs.head? ≠ some '\n') (after : Bool) :
    lineEnds.run after cs = lineEnds.run false cs := by
  cases cs with
  | nil => rfl
  | cons c cs =>
    have hc : (c == '\n') = false := by simpa using h
    simp [Counter.run, lineEnds, hc]

/-- What comes after a line end has the same last character. -/
theorem getLast?_of_endsLine (xs : List Char) {cs : List Char} {c last : Char}
    (h : (xs ++ c :: cs).getLast? = some last) (hc : endsLine c = true)
    (hlast : endsLine last = false) : cs.getLast? = some last := by
  rw [List.getLast?_append_of_ne_nil _ (List.cons_ne_nil c cs)] at h
  rcases cs with - | ⟨d, cs⟩
  · obtain rfl : c = last := Option.some.inj h
    rw [hc] at hlast
    cases hlast
  · rwa [List.getLast?_cons_cons] at h

/-- **There is one line more than there are line ends**, if something follows
the last of them. -/
theorem length_linesFrom {line cs : List Char} {last : Char}
    (h : (line.reverse ++ cs).getLast? = some last) (hlast : endsLine last = false) :
    (linesFrom line cs).length = lineEnds.run false cs + 1 := by
  fun_induction linesFrom line cs with
  | case1 line hempty =>
    rw [List.isEmpty_iff.1 hempty] at h
    cases h
  | case2 line hne => rfl
  | case3 line cs ih =>
    have hfeed : ('\n' :: cs).getLast? = some last := getLast?_of_endsLine _ h rfl hlast
    have hrest : cs.getLast? = some last := getLast?_of_endsLine [] hfeed rfl hlast
    have hcount : lineEnds.run false ('\r' :: '\n' :: cs) = 1 + (0 + lineEnds.run false cs) := rfl
    rw [List.length_cons, ih hrest, hcount]
    omega
  | case4 line c cs hpair hc ih =>
    -- a carriage return here is not followed by its line feed
    have hnext : lineEnds.run (c == '\r') cs = lineEnds.run false cs := by
      by_cases hreturn : c = '\r'
      · refine run_lineEnds_of_head? (fun hhead => ?_) _
        obtain ⟨rest, hrest⟩ := List.head?_eq_some_iff.1 hhead
        exact hpair rest hreturn hrest
      · rw [beq_eq_false_iff_ne.2 hreturn]
    rw [List.length_cons, ih (getLast?_of_endsLine _ h hc hlast), run_lineEnds_of_endsLine hc, hnext]
    omega
  | case5 line c cs hpair hc ih =>
    have hline : ((c :: line).reverse ++ cs).getLast? = some last := by
      rwa [List.reverse_cons, List.append_assoc, List.singleton_append]
    rw [ih hline, (lineEnds_ignores (Bool.not_eq_true _ ▸ hc)).run_cons]

/-- Only a carriage return may end a line together with what follows it. -/
theorem linesFrom_of_ne_return (line : List Char) {c : Char} (cs : List Char) (h : c ≠ '\r') :
    linesFrom line (c :: cs) =
      if endsLine c then line.reverse :: linesFrom [] cs else linesFrom (c :: line) cs := by
  rw [linesFrom.eq_def]
  split
  · rename_i hnil
    cases hnil
  · rename_i hpair
    exact absurd (List.cons.inj hpair).1 h
  · rename_i hcons
    cases hcons
    rfl

theorem linesFrom_append (line : List Char) {cs : List Char} (rest : List Char)
    (h : ∀ c ∈ cs, endsLine c = false) :
    linesFrom line (cs ++ rest) = linesFrom (cs.reverse ++ line) rest := by
  induction cs generalizing line with
  | nil => rfl
  | cons c cs ih =>
    rw [List.forall_mem_cons] at h
    rw [List.cons_append, linesFrom_of_ne_return _ _ (ne_return_of_not_endsLine h.1),
      if_neg (by simp [h.1]), ih _ h.2, List.reverse_cons, List.append_assoc,
      List.singleton_append]

theorem linesFrom_lineFeed (line cs : List Char) :
    linesFrom line ('\n' :: cs) = line.reverse :: linesFrom [] cs :=
  linesFrom_of_ne_return line cs (by decide)

theorem toList_intercalate_lineFeed (s t : String) (rows : List String) :
    (String.intercalate "\n" (s :: t :: rows)).toList =
      s.toList ++ '\n' :: (String.intercalate "\n" (t :: rows)).toList := by
  rw [String.intercalate_cons_cons, String.toList_append, String.toList_append, List.append_assoc]
  rfl

/-- **Texts without line ends of their own are the lines of what joins
them.** -/
theorem linesFrom_intercalate {rows : List String} (hne : ∀ s ∈ rows, s ≠ "")
    (h : ∀ s ∈ rows, ∀ c ∈ s.toList, endsLine c = false) :
    linesFrom [] (String.intercalate "\n" rows).toList = rows.map String.toList := by
  induction rows with
  | nil => rfl
  | cons s rows ih =>
    rw [List.forall_mem_cons] at hne h
    rcases rows with - | ⟨t, rows⟩
    · have hchars : s.toList ≠ [] := mt String.toList_eq_nil_iff.1 hne.1
      have hlast : linesFrom s.toList.reverse [] = [s.toList.reverse.reverse] :=
        if_neg (by simpa using hchars)
      have hline := linesFrom_append [] [] h.1
      rw [List.append_nil, List.append_nil, hlast, List.reverse_reverse] at hline
      rw [String.intercalate_singleton, hline]
      rfl
    · rw [toList_intercalate_lineFeed, linesFrom_append [] _ h.1, linesFrom_lineFeed,
        ih hne.2 h.2, List.append_nil, List.reverse_reverse]
      rfl

theorem lines_intercalate {rows : List String} (hne : ∀ s ∈ rows, s ≠ "")
    (h : ∀ s ∈ rows, ∀ c ∈ s.toList, endsLine c = false) :
    lines (String.intercalate "\n" rows) = rows := by
  have hback : String.ofList ∘ String.toList = id := funext fun s => String.ofList_toList
  rw [lines, linesFrom_intercalate hne h, List.map_map, hback, List.map_id]

end Text

/-! ## Rows -/

namespace ModuleRecord

/-- The values that the row of a module holds. -/
def texts (r : ModuleRecord) : List String :=
  r.name :: r.path :: (r.ports ++ r.parameters ++ r.imports ++
    r.instances.flatMap fun i => [i.type, i.name])

end ModuleRecord

namespace Markdown

open Text

/-- What stands between values and around cells, bars apart. -/
def separators : List Char := [' ', '<', 'b', 'r', '/', '>']

/-- A counter that ignores the separators. -/
def Separates (k : Counter) : Prop := ∀ c ∈ separators, k.Ignores c

variable {k : Counter}

theorem total_cell (hk : Separates k) (values : List String) :
    k.total (cell values) = k.totalAll values := by
  induction values with
  | nil => rfl
  | cons v values ih =>
    rcases values with - | ⟨w, values⟩
    · rw [cell, String.intercalate_singleton]
      rfl
    · have hchars : (cell (v :: w :: values)).toList =
          v.toList ++ '<' :: 'b' :: 'r' :: '/' :: '>' :: (cell (w :: values)).toList := by
        rw [cell, String.intercalate_cons_cons, String.toList_append, String.toList_append,
          List.append_assoc]
        rfl
      rw [Counter.total, hchars, (hk '<' (by decide)).run_append_cons,
        (hk 'b' (by decide)).run_cons, (hk 'r' (by decide)).run_cons, (hk '/' (by decide)).run_cons,
        (hk '>' (by decide)).run_cons, Counter.totalAll, ← ih]
      rfl

theorem totalAll_describe (hk : Separates k) (instances : List Instance) :
    k.totalAll (instances.map Instance.describe) =
      k.totalAll (instances.flatMap fun i => [i.type, i.name]) := by
  induction instances with
  | nil => rfl
  | cons i instances ih =>
    have htext : i.describe = i.type ++ " " ++ i.name := rfl
    have hchars : i.describe.toList = i.type.toList ++ ' ' :: i.name.toList := by
      rw [htext, String.toList_append, String.toList_append, List.append_assoc]
      rfl
    have hone : k.total i.describe = k.totalAll [i.type, i.name] := by
      rw [Counter.total, hchars, (hk ' ' (by decide)).run_append_cons]
      rfl
    rw [List.map_cons, Counter.totalAll, ih, List.flatMap_cons, Counter.totalAll_append, hone]

/-- Each cell is followed by a blank and a bar. -/
theorem run_cells (hk : Separates k) (s : String) (cells : List String) :
    k.run false ((String.intercalate " | " (s :: cells)).toList ++ [' ', '|']) =
      (cells.length + 1) * k.total "|" + k.totalAll (s :: cells) := by
  have hblank : k.Ignores ' ' := hk ' ' (by decide)
  induction cells generalizing s with
  | nil =>
    rw [String.intercalate_singleton, hblank.run_append_cons]
    change k.total s + k.total "|" = (0 + 1) * k.total "|" + (k.total s + 0)
    omega
  | cons t cells ih =>
    have hchars : (String.intercalate " | " (s :: t :: cells)).toList ++ [' ', '|'] =
        s.toList ++ ' ' :: (['|'] ++
          ' ' :: ((String.intercalate " | " (t :: cells)).toList ++ [' ', '|'])) := by
      rw [String.intercalate_cons_cons, String.toList_append, String.toList_append,
        List.append_assoc, List.append_assoc]
      rfl
    have hall : k.totalAll (s :: t :: cells) = k.total s + k.totalAll (t :: cells) := rfl
    rw [hchars, hblank.run_append_cons, hblank.run_append_cons, ih t, hall, List.length_cons,
      Nat.add_mul (cells.length + 1) 1]
    change k.total s + (k.total "|" + _) = _
    omega

/-- **A row has a bar around and between its cells**, and besides these what
its cells have. -/
theorem total_row (hk : Separates k) (s : String) (cells : List String) :
    k.total (row (s :: cells)) =
      (cells.length + 2) * k.total "|" + k.totalAll (s :: cells) := by
  have hchars : (row (s :: cells)).toList =
      ['|'] ++ ' ' :: ((String.intercalate " | " (s :: cells)).toList ++ [' ', '|']) := by
    rw [row, String.toList_append, String.toList_append, List.append_assoc]
    rfl
  rw [Counter.total, hchars, (hk ' ' (by decide)).run_append_cons, run_cells hk,
    Nat.add_mul (cells.length + 1) 1]
  change k.total "|" + _ = _
  omega

theorem total_moduleRow (hk : Separates k) (r : ModuleRecord) :
    k.total (moduleRow r) = 7 * k.total "|" + k.totalAll r.texts := by
  rw [moduleRow, total_row hk]
  simp only [ModuleRecord.texts, Counter.totalAll, Counter.totalAll_append, total_cell hk,
    totalAll_describe hk, List.length_cons, List.length_nil]
  omega

/-! ## Reports -/

/-- **The bars that part cells.** A bar right after a backslash is escaped. With
`pairs` two backslashes stand for one, and the second of them escapes
nothing. -/
def bars (pairs : Bool) : Counter where
  counts := fun escaped c => c == '|' && !escaped
  special := fun escaped c => c == '\\' && !(pairs && escaped)

theorem separates_bars (pairs : Bool) : Separates (bars pairs) := by
  intro c hc after
  have hother : ∀ d, d ∉ separators → (c == d) = false := by
    intro d hd
    exact beq_eq_false_iff_ne.2 fun h => hd (h ▸ hc)
  simp [bars, hother '|' (by decide), hother '\\' (by decide)]

theorem separates_lineEnds : Separates lineEnds := by
  intro c hc
  have hnone : separators.all (fun c => !endsLine c) = true := by decide
  exact lineEnds_ignores (by simpa using List.all_eq_true.1 hnone c hc)

/-- The rows of a module report. -/
def rows (rs : List ModuleRecord) : List String := row headings :: alignment :: rs.map moduleRow

theorem exists_row_eq (cells : List String) : ∃ cs, (row cells).toList = cs ++ ['|'] := by
  rw [row, String.toList_append]
  exact ⟨_ ++ [' '], by rw [List.append_assoc]; rfl⟩

theorem exists_eq_of_mem_rows (rs : List ModuleRecord) :
    ∀ s ∈ rows rs, ∃ cs, s.toList = cs ++ ['|'] := by
  intro s h
  rcases List.mem_cons.1 h with rfl | h
  · exact exists_row_eq headings
  · rcases List.mem_cons.1 h with rfl | h
    · rw [alignment, String.toList_append]
      exact ⟨_, rfl⟩
    · obtain ⟨r, -, rfl⟩ := List.mem_map.1 h
      exact exists_row_eq _

/-- Lines that end with a bar are joined to a text that does. -/
theorem exists_intercalate_eq (s : String) (ss : List String)
    (h : ∀ t ∈ s :: ss, ∃ cs, t.toList = cs ++ ['|']) :
    ∃ cs, (String.intercalate "\n" (s :: ss)).toList = cs ++ ['|'] := by
  induction ss generalizing s with
  | nil =>
    rw [String.intercalate_singleton]
    exact h s List.mem_cons_self
  | cons t ss ih =>
    obtain ⟨cs, hcs⟩ := ih t fun u hu => h u (List.mem_cons_of_mem s hu)
    exact ⟨s.toList ++ '\n' :: cs, by rw [toList_intercalate_lineFeed, hcs]; simp⟩

/-- **Joining lines adds a line end between any two of them.** A line that ends
with a bar does not end with a carriage return. -/
theorem total_lineEnds_intercalate (s : String) (ss : List String)
    (h : ∀ t ∈ s :: ss, ∃ cs, t.toList = cs ++ ['|']) :
    lineEnds.total (String.intercalate "\n" (s :: ss)) =
      ss.length + lineEnds.totalAll (s :: ss) := by
  induction ss generalizing s with
  | nil =>
    rw [String.intercalate_singleton]
    change _ = 0 + (lineEnds.total s + 0)
    omega
  | cons t ss ih =>
    obtain ⟨cs, hcs⟩ := h s List.mem_cons_self
    have hbar : lineEnds.Ignores '|' := lineEnds_ignores rfl
    have hs : lineEnds.total s = lineEnds.run false cs := by
      rw [Counter.total, hcs, hbar.run_append_cons]
      rfl
    have hall : lineEnds.totalAll (s :: t :: ss) =
        lineEnds.total s + lineEnds.totalAll (t :: ss) := rfl
    have hrest := ih t fun u hu => h u (List.mem_cons_of_mem s hu)
    rw [Counter.total] at hrest
    rw [Counter.total, toList_intercalate_lineFeed, hcs, List.append_assoc, List.singleton_append,
      hbar.run_append_cons, run_lineEnds_of_endsLine rfl, hall, hs, List.length_cons]
    change _ + (1 + lineEnds.run false _) = _
    omega

theorem alignment_eq :
    alignment = "|:-------|:-----|:------|:-----------|:--------|:----------|" := by
  decide +kernel

theorem total_lineEnds_above :
    lineEnds.total (row headings) = 0 ∧ lineEnds.total alignment = 0 := by
  rw [headings, total_row separates_lineEnds, alignment_eq]
  simp only [Counter.totalAll, Counter.total, String.reduceToList]
  decide

theorem total_bars_above (pairs : Bool) :
    (bars pairs).total (row headings) = 7 ∧ (bars pairs).total alignment = 7 := by
  rw [headings, total_row (separates_bars pairs), alignment_eq]
  simp only [Counter.totalAll, Counter.total, String.reduceToList]
  cases pairs <;> decide

theorem total_lineEnds_moduleRow (r : ModuleRecord) :
    lineEnds.total (moduleRow r) = lineEnds.totalAll r.texts := by
  have hbar : lineEnds.total "|" = 0 := by decide
  rw [total_moduleRow separates_lineEnds, hbar, Nat.mul_zero, Nat.zero_add]

theorem total_bars_moduleRow (pairs : Bool) (r : ModuleRecord) :
    (bars pairs).total (moduleRow r) = 7 + (bars pairs).totalAll r.texts := by
  have hbar : (bars pairs).total "|" = 1 := by cases pairs <;> decide
  rw [total_moduleRow (separates_bars pairs), hbar]

theorem totalAll_moduleRows (rs : List ModuleRecord) :
    lineEnds.totalAll (rs.map moduleRow) = lineEnds.totalAll (rs.flatMap ModuleRecord.texts) := by
  induction rs with
  | nil => rfl
  | cons r rs ih =>
    rw [List.map_cons, Counter.totalAll, ih, List.flatMap_cons, Counter.totalAll_append,
      total_lineEnds_moduleRow]

/-- **A report has a line for each row**, and one more for each line end in a
value. -/
theorem length_lines_modules (rs : List ModuleRecord) :
    (lines (modules rs)).length =
      rs.length + 2 + lineEnds.totalAll (rs.flatMap ModuleRecord.texts) := by
  obtain ⟨cs, hcs⟩ := exists_intercalate_eq _ _ (exists_eq_of_mem_rows rs)
  have hlast : ([].reverse ++ (modules rs).toList).getLast? = some '|' := by
    rw [List.reverse_nil, List.nil_append]
    exact hcs ▸ List.getLast?_concat
  have hcount : lineEnds.total (modules rs) = (alignment :: rs.map moduleRow).length +
      lineEnds.totalAll (rows rs) := total_lineEnds_intercalate _ _ (exists_eq_of_mem_rows rs)
  obtain ⟨hheadings, halignment⟩ := total_lineEnds_above
  rw [Counter.total, rows, Counter.totalAll, Counter.totalAll, hheadings, halignment,
    totalAll_moduleRows, List.length_cons, List.length_map] at hcount
  rw [lines, List.length_map, length_linesFrom hlast rfl, hcount]
  omega

/-- Without line ends in the values, the lines of a report are its rows. -/
theorem lines_modules {rs : List ModuleRecord}
    (h : ∀ r ∈ rs, lineEnds.totalAll r.texts = 0) : lines (modules rs) = rows rs := by
  refine lines_intercalate ?_ ?_
  · rintro s hs rfl
    obtain ⟨cs, hcs⟩ := exists_eq_of_mem_rows rs _ hs
    exact List.append_ne_nil_of_right_ne_nil cs (List.cons_ne_nil _ _) hcs.symm
  · intro s hs
    rw [← run_lineEnds_eq_zero_iff]
    rcases List.mem_cons.1 hs with rfl | hs
    · exact total_lineEnds_above.1
    · rcases List.mem_cons.1 hs with rfl | hs
      · exact total_lineEnds_above.2
      · obtain ⟨r, hr, rfl⟩ := List.mem_map.1 hs
        exact (total_lineEnds_moduleRow r).trans (h r hr)

/-- **A table of a number of rows** has a line for each of them and two lines
above, and each line has the seven bars around and between six cells. -/
def IsTable (pairs : Bool) (count : ℕ) (s : String) : Prop :=
  (lines s).length = count + 2 ∧ ∀ line ∈ lines s, (bars pairs).total line = 7

instance (pairs : Bool) (count : ℕ) (s : String) : Decidable (IsTable pairs count s) :=
  inferInstanceAs (Decidable (_ ∧ _))

theorem forall_rows_iff (pairs : Bool) (rs : List ModuleRecord) :
    (∀ line ∈ rows rs, (bars pairs).total line = 7) ↔
      ∀ r ∈ rs, (bars pairs).totalAll r.texts = 0 := by
  obtain ⟨hheadings, halignment⟩ := total_bars_above pairs
  rw [rows, List.forall_mem_cons, List.forall_mem_cons, List.forall_mem_map]
  simp only [hheadings, halignment, true_and, total_bars_moduleRow, Nat.add_eq_left]

/-- **A report is a table if and only if no value breaks it.** -/
theorem isTable_iff (pairs : Bool) (rs : List ModuleRecord) :
    IsTable pairs rs.length (modules rs) ↔
      ∀ r ∈ rs, lineEnds.totalAll r.texts = 0 ∧ (bars pairs).totalAll r.texts = 0 := by
  constructor
  · rintro ⟨hlength, hbars⟩
    have hflat : lineEnds.totalAll (rs.flatMap ModuleRecord.texts) = 0 := by
      rw [length_lines_modules] at hlength
      omega
    have hends : ∀ r ∈ rs, lineEnds.totalAll r.texts = 0 := by
      intro r hr
      rw [Counter.totalAll_eq_zero_iff] at hflat ⊢
      exact fun s hs => hflat s (List.mem_flatMap.2 ⟨r, hr, hs⟩)
    rw [lines_modules hends] at hbars
    exact fun r hr => ⟨hends r hr, (forall_rows_iff pairs rs).1 hbars r hr⟩
  · intro h
    rw [IsTable, lines_modules fun r hr => (h r hr).1]
    exact ⟨by simp [rows], (forall_rows_iff pairs rs).2 fun r hr => (h r hr).2⟩

/-- **A module report is a table exactly if its values leave it one.** It has a
line for each module and two above, and one more for each line end in a value;
the row of a module has seven bars, and one more for each bar in a value that is
not escaped. So it is a table if and only if no value has a character that ends
a line or a bar that is not escaped. -/
theorem modules_isTable_iff (pairs : Bool) (rs : List ModuleRecord) :
    (lines (modules rs)).length =
      rs.length + 2 + lineEnds.totalAll (rs.flatMap ModuleRecord.texts) ∧
    (∀ r ∈ rs, (bars pairs).total (moduleRow r) = 7 + (bars pairs).totalAll r.texts) ∧
    (IsTable pairs rs.length (modules rs) ↔
      ∀ r ∈ rs, ∀ s ∈ r.texts, (∀ c ∈ s.toList, endsLine c = false) ∧ (bars pairs).total s = 0) := by
  refine ⟨length_lines_modules rs, fun r _ => total_bars_moduleRow pairs r, ?_⟩
  rw [isTable_iff]
  simp only [Counter.totalAll_eq_zero_iff, Counter.total, ← run_lineEnds_eq_zero_iff, ← forall_and]

/-- The tree of `module \a|b ; endmodule`: after its backslash the name may have
any printable character. -/
def barredName : Tree where
  tag := "kDescriptionList"
  children := [.branch "kModuleDeclaration" [.branch "kModuleHeader"
    [.token ⟨"EscapedIdentifier", 7, 11, none, by decide⟩,
      .token ⟨";", 12, 13, none, by decide⟩]]]
  source := .text "module \\a|b ; endmodule"

/-- The tree of a module that imports a package over two lines. -/
def splitImport : Tree where
  tag := "kDescriptionList"
  children := [.branch "kModuleDeclaration" [
    .branch "kModuleHeader" [.token ⟨"SymbolIdentifier", 7, 10, some "top", by decide⟩],
    .branch "kPackageImportItem" [.token ⟨"SymbolIdentifier", 19, 20, none, by decide⟩,
      .token ⟨"::", 20, 22, none, by decide⟩, .token ⟨"*", 23, 24, none, by decide⟩]]]
  source := .text "module top; import p::\n*; endmodule"

/-- **Modules of real files break the table**: an escaped name brings a bar of
its own, and an import over two lines ends the row. -/
theorem extracted_modules_break_table :
    ∃ barred split : ModuleRecord,
      (Vocabulary.verible.extract "a.sv" (some barredName)).1 = [barred] ∧
      (Vocabulary.verible.extract "a.sv" (some splitImport)).1 = [split] ∧
      (lines (modules [split])).length = 4 ∧
      ∀ pairs, (bars pairs).total (moduleRow barred) = 8 ∧
        ¬ IsTable pairs 1 (modules [barred]) ∧ ¬ IsTable pairs 1 (modules [split]) := by
  refine ⟨⟨"a.sv", "\\a|b", [], [], [], []⟩, ⟨"a.sv", "top", [], [], ["p::\n*"], []⟩,
    by decide +kernel, by decide +kernel, ?_, ?_⟩
  · rw [length_lines_modules]
    decide
  · intro pairs
    have hbars : (bars pairs).totalAll ["\\a|b", "a.sv"] = 1 := by cases pairs <;> decide
    have hends : lineEnds.totalAll ["top", "a.sv", "p::\n*"] = 1 := by decide
    refine ⟨?_, fun htable => ?_, fun htable => ?_⟩
    · rw [total_bars_moduleRow]
      exact congrArg (7 + ·) hbars
    · have hnone := ((isTable_iff pairs [_]).1 htable _ List.mem_cons_self).2
      exact absurd (hnone.symm.trans hbars) (by decide)
    · have hnone := ((isTable_iff pairs [_]).1 htable _ List.mem_cons_self).1
      exact absurd (hnone.symm.trans hends) (by decide)

end Markdown

end DesignAtlas
