import DesignAtlas.Report.Renderer
import Mathlib.Data.List.DropRight

/-!
# Reading comma-separated values

A reader for the tables that reports are written as. It takes one character
after the other: a comma ends a cell, a line feed or a carriage return outside
quotes ends a row, and a quote inside quotes is written twice.

Reading a table gives the cells that were written, row by row (`read_table`).
A carriage return alone does not make the writer use quotes, and outside
quotes it ends a row; `Keeps` excludes such cells. No row ends with a line feed
of its own, so leaving out the line feeds at the end of a table leaves out a
single one (`table_append_lineFeed`).
-/

namespace DesignAtlas.Csv

/-- Where a reader stands in a row. -/
inductive Stage where
  /-- Before the first cell of a row. -/
  | rowStart
  /-- Before the first cell of a row that comes after a carriage return. -/
  | afterReturn
  /-- Before another cell of a row. -/
  | cellStart
  /-- In a cell without quotes, or behind the quotes of one. -/
  | plain
  /-- Between the quotes of a cell. -/
  | quoted
  /-- After a quote that ends the quotes of a cell, if no other follows. -/
  | closed
  deriving DecidableEq, Repr

/-- What was read: the complete rows, the complete cells of the row in hand,
and the characters of the cell in hand. -/
structure Reader where
  stage : Stage
  rows : List (List String)
  cells : List String
  chars : List Char
  deriving DecidableEq, Repr

namespace Reader

/-- Nothing is read yet. -/
def start : Reader := ⟨.rowStart, [], [], []⟩

/-- Adds a character to the cell in hand. -/
def put (r : Reader) (stage : Stage) (c : Char) : Reader :=
  { r with stage, chars := r.chars ++ [c] }

/-- The row in hand with its last cell. -/
def row (r : Reader) : List String := r.cells ++ [String.ofList r.chars]

/-- Ends the cell in hand. -/
def endCell (r : Reader) : Reader := ⟨.cellStart, r.rows, r.row, []⟩

/-- Ends the row in hand. -/
def endRow (r : Reader) (stage : Stage) : Reader := ⟨stage, r.rows ++ [r.row], [], []⟩

/-- Takes a character outside quotes. -/
def unquoted (r : Reader) (c : Char) : Reader :=
  if c = ',' then r.endCell
  else if c = '\n' then r.endRow .rowStart
  else if c = '\r' then r.endRow .afterReturn
  else r.put .plain c

/-- Takes the first character of a cell. -/
def opening (r : Reader) (c : Char) : Reader :=
  if c = '"' then { r with stage := .quoted } else r.unquoted c

/-- Takes the first character of a row. A line without any is a row without
cells. -/
def firstOfRow (r : Reader) (c : Char) : Reader :=
  if c = '\n' then ⟨.rowStart, r.rows ++ [[]], [], []⟩
  else if c = '\r' then ⟨.afterReturn, r.rows ++ [[]], [], []⟩
  else r.opening c

/-- Takes a character. -/
def step (r : Reader) (c : Char) : Reader :=
  match r.stage with
  | .rowStart => r.firstOfRow c
  | .afterReturn => if c = '\n' then { r with stage := .rowStart } else r.firstOfRow c
  | .cellStart => r.opening c
  | .plain => r.unquoted c
  | .quoted => if c = '"' then { r with stage := .closed } else r.put .quoted c
  | .closed => if c = '"' then r.put .quoted c else r.unquoted c

/-- Takes characters one after the other. -/
def run (r : Reader) (cs : List Char) : Reader := cs.foldl step r

/-- The rows when nothing follows. A row in hand is complete then. -/
def finish (r : Reader) : List (List String) :=
  match r.stage with
  | .rowStart | .afterReturn => r.rows
  | _ => r.rows ++ [r.row]

end Reader

/-- **The rows of a text.** -/
def read (s : String) : List (List String) := (Reader.start.run s.toList).finish

/-- A cell that reading does not change: if it holds a carriage return, then also
a character for which it is quoted. -/
def Keeps (s : String) : Prop :=
  '\r' ∈ s.toList → ',' ∈ s.toList ∨ '"' ∈ s.toList ∨ '\n' ∈ s.toList

instance (s : String) : Decidable (Keeps s) := inferInstanceAs (Decidable (_ → _))

theorem needsQuotes_iff {cs : List Char} :
    needsQuotes cs = true ↔ ',' ∈ cs ∨ '"' ∈ cs ∨ '\n' ∈ cs := by
  simp only [needsQuotes, List.any_eq_true, Bool.or_eq_true, beq_iff_eq, and_or_left, exists_or,
    exists_eq_right, or_assoc]

namespace Reader

variable {r : Reader} {c : Char} {cs : List Char} {s : String}

theorem run_append (r : Reader) (cs ds : List Char) : r.run (cs ++ ds) = (r.run cs).run ds :=
  List.foldl_append

/-! ## Steps -/

/-- A reader that is outside quotes, with something of a row in hand. -/
def InRow (r : Reader) : Prop := r.stage = .cellStart ∨ r.stage = .plain ∨ r.stage = .closed

/-- A reader before a cell. -/
def AtCell (r : Reader) : Prop := (r.stage = .rowStart ∨ r.stage = .cellStart) ∧ r.chars = []

theorem step_comma (h : r.InRow ∨ r.AtCell) : r.step ',' = r.endCell := by
  rcases h with (h | h | h) | ⟨h | h, -⟩ <;> rw [step, h] <;> rfl

theorem InRow.step_lineFeed (h : r.InRow) : r.step '\n' = r.endRow .rowStart := by
  rcases h with h | h | h <;> rw [step, h] <;> rfl

theorem InRow.finish_eq (h : r.InRow) : r.finish = r.rows ++ [r.row] := by
  rcases h with h | h | h <;> rw [finish, h]

theorem AtCell.step_quote (h : r.AtCell) : r.step '"' = { r with stage := .quoted } := by
  rcases h.1 with h | h <;> rw [step, h] <;> rfl

/-- Any character that does not end a cell is part of it. -/
theorem unquoted_of_ne (hcomma : c ≠ ',') (hfeed : c ≠ '\n') (hreturn : c ≠ '\r') :
    r.unquoted c = r.put .plain c := by
  rw [unquoted, if_neg hcomma, if_neg hfeed, if_neg hreturn]

theorem AtCell.step_plain (h : r.AtCell) (hquote : c ≠ '"') (hcomma : c ≠ ',') (hfeed : c ≠ '\n')
    (hreturn : c ≠ '\r') : r.step c = r.put .plain c := by
  rcases h.1 with h | h
  · rw [step, h]
    simp only [firstOfRow, opening, if_neg hfeed, if_neg hreturn, if_neg hquote,
      unquoted_of_ne hcomma hfeed hreturn]
  · rw [step, h]
    simp only [opening, if_neg hquote, unquoted_of_ne hcomma hfeed hreturn]

/-! ## One cell -/

theorem run_plain (h : r.stage = .plain) (hcomma : ',' ∉ cs) (hfeed : '\n' ∉ cs)
    (hreturn : '\r' ∉ cs) : r.run cs = { r with chars := r.chars ++ cs } := by
  induction cs generalizing r with
  | nil => rw [List.append_nil]; rfl
  | cons c cs ih =>
    rw [List.mem_cons, not_or] at hcomma hfeed hreturn
    have hstep : r.step c = r.put .plain c := by
      rw [step, h]
      exact unquoted_of_ne (Ne.symm hcomma.1) (Ne.symm hfeed.1) (Ne.symm hreturn.1)
    change (r.step c).run cs = _
    rw [hstep, ih rfl hcomma.2 hfeed.2 hreturn.2, put, List.append_assoc, h]
    rfl

/-- Between quotes, two quotes are read as one and any other character as
itself. -/
theorem run_doubled (h : r.stage = .quoted) :
    r.run (cs.flatMap fun c => if c == '"' then ['"', '"'] else [c]) =
      { r with chars := r.chars ++ cs } := by
  induction cs generalizing r with
  | nil => rw [List.append_nil]; rfl
  | cons c cs ih =>
    rw [List.flatMap_cons, run_append]
    have hone : r.run (if c == '"' then ['"', '"'] else [c]) = r.put .quoted c := by
      by_cases hc : c = '"'
      · subst hc
        change (r.step '"').step '"' = _
        simp only [step, h, if_true]
        rfl
      · rw [if_neg (mt beq_iff_eq.1 hc)]
        change r.step c = _
        simp only [step, h, if_neg hc]
    rw [hone, ih rfl, put, List.append_assoc, h]
    rfl

/-- **A cell is read as what was written into it.** An empty cell leaves the
reader where it was; after any other the row goes on or ends. -/
theorem AtCell.run_cell (h : r.AtCell) (hs : Keeps s) :
    ∃ stage, r.run (cell s).toList = { r with stage, chars := s.toList } ∧
      (stage = .plain ∨ stage = .closed ∨ s = "" ∧ stage = r.stage) := by
  rw [cell, String.toList_ofList]
  by_cases hquotes : needsQuotes s.toList = true
  · refine ⟨.closed, ?_, Or.inr (Or.inl rfl)⟩
    have hopen : r.step '"' = { r with stage := .quoted } := h.step_quote
    rw [if_pos hquotes, quote, run_append]
    change ((r.step '"').run _).step '"' = _
    rw [hopen, run_doubled rfl, h.2]
    rfl
  · rw [if_neg hquotes]
    rw [needsQuotes_iff, not_or, not_or] at hquotes
    have hreturn : '\r' ∉ s.toList := by
      intro hmem
      rcases hs hmem with hmem | hmem | hmem
      · exact hquotes.1 hmem
      · exact hquotes.2.1 hmem
      · exact hquotes.2.2 hmem
    rcases hchars : s.toList with - | ⟨c, cs⟩
    · refine ⟨r.stage, ?_, Or.inr (Or.inr ⟨String.toList_eq_nil_iff.1 hchars, rfl⟩)⟩
      change r = { r with chars := [] }
      rw [← h.2]
    · refine ⟨.plain, ?_, Or.inl rfl⟩
      rw [hchars] at hquotes hreturn
      simp only [List.mem_cons, not_or] at hquotes hreturn
      obtain ⟨⟨hc, hcs⟩, ⟨hq, -⟩, hf, hfs⟩ := hquotes
      have hstep : r.step c = r.put .plain c :=
        h.step_plain (Ne.symm hq) (Ne.symm hc) (Ne.symm hf) (Ne.symm hreturn.1)
      change (r.step c).run cs = _
      rw [hstep, run_plain rfl hcs hfs hreturn.2, put, h.2]
      rfl

/-! ## One row -/

variable {cells row : List String} {rows : List (List String)}

/-- A reader that has a row in hand, after some other rows. -/
structure Holds (r : Reader) (rows : List (List String)) (row : List String) : Prop where
  inRow : r.InRow
  rows_eq : r.rows = rows
  row_eq : r.row = row

/-- **Cells with commas between them are read one after the other.** A single
empty cell at the start of a row leaves nothing to read. -/
theorem AtCell.run_cells (h : r.AtCell) (hcells : cells ≠ [])
    (hblank : r.stage = .rowStart → cells ≠ [""]) (hkeeps : ∀ s ∈ cells, Keeps s) :
    (r.run (String.intercalate "," (cells.map cell)).toList).Holds r.rows (r.cells ++ cells) := by
  induction cells generalizing r with
  | nil => exact absurd rfl hcells
  | cons s rest ih =>
    obtain ⟨stage, hrun, hstage⟩ := h.run_cell (hkeeps s List.mem_cons_self)
    rcases rest with - | ⟨t, rest⟩
    · rw [List.map_singleton, String.intercalate_singleton, hrun]
      refine ⟨?_, rfl, ?_⟩
      · rcases hstage with hplain | hclosed | ⟨rfl, hsame⟩
        · exact Or.inr (Or.inl hplain)
        · exact Or.inr (Or.inr hclosed)
        · rcases h.1 with hstart | hstart
          · exact absurd rfl (hblank hstart)
          · exact Or.inl (hsame.trans hstart)
      · rw [Reader.row, String.ofList_toList]
    · rw [List.map_cons, List.map_cons, String.intercalate_cons_cons, String.toList_append,
        String.toList_append, List.append_assoc, run_append, run_append, hrun]
      have hcomma : ({ r with stage, chars := s.toList } : Reader).InRow ∨
          ({ r with stage, chars := s.toList } : Reader).AtCell := by
        rcases hstage with hplain | hclosed | ⟨rfl, rfl⟩
        · exact Or.inl (Or.inr (Or.inl hplain))
        · exact Or.inl (Or.inr (Or.inr hclosed))
        · exact Or.inr ⟨h.1, rfl⟩
      have hnext : ({ r with stage, chars := s.toList } : Reader).run ",".toList =
          ⟨.cellStart, r.rows, r.cells ++ [s], []⟩ := by
        change ({ r with stage, chars := s.toList } : Reader).step ',' = _
        rw [step_comma hcomma, endCell, Reader.row, String.ofList_toList]
      have hrest := ih (r := ⟨.cellStart, r.rows, r.cells ++ [s], []⟩) ⟨Or.inr rfl, rfl⟩
        (List.cons_ne_nil t rest) nofun fun u hu => hkeeps u (List.mem_cons_of_mem s hu)
      rw [List.append_assoc, List.singleton_append] at hrest
      rw [hnext]
      exact hrest

end Reader

/-- The characters of a row before its line feed. -/
def rowChars (cells : List String) : List Char :=
  if cells = [""] then ['"', '"'] else (String.intercalate "," (cells.map cell)).toList

theorem toList_row (cells : List String) : (row cells).toList = rowChars cells ++ ['\n'] := by
  rw [row, rowChars, String.toList_append]
  split <;> rfl

/-- A row of a table has cells, and reading keeps them. -/
def KeepsRow (cells : List String) : Prop := cells ≠ [] ∧ ∀ s ∈ cells, Keeps s

namespace Reader

variable {cells : List String} {rows table : List (List String)}

theorem run_rowChars (h : KeepsRow cells) :
    (run ⟨.rowStart, rows, [], []⟩ (rowChars cells)).Holds rows cells := by
  rw [rowChars]
  split
  · rename_i hblank
    rw [hblank]
    exact ⟨Or.inr (Or.inr rfl), rfl, rfl⟩
  · rename_i hblank
    have hstart : AtCell ⟨.rowStart, rows, [], []⟩ := ⟨Or.inl rfl, rfl⟩
    exact hstart.run_cells h.1 (fun _ => hblank) h.2

/-- **A row is read as its cells.** -/
theorem run_row (h : KeepsRow cells) :
    run ⟨.rowStart, rows, [], []⟩ (Csv.row cells).toList =
      ⟨.rowStart, rows ++ [cells], [], []⟩ := by
  have hread : (run ⟨.rowStart, rows, [], []⟩ (rowChars cells)).Holds rows cells := run_rowChars h
  rw [toList_row, run_append]
  change step _ '\n' = _
  rw [hread.inRow.step_lineFeed, endRow, hread.rows_eq, hread.row_eq]

theorem run_table (h : ∀ cells ∈ table, KeepsRow cells) :
    run ⟨.rowStart, rows, [], []⟩ (table.flatMap fun cells => (Csv.row cells).toList) =
      ⟨.rowStart, rows ++ table, [], []⟩ := by
  induction table generalizing rows with
  | nil => rw [List.append_nil]; rfl
  | cons cells table ih =>
    rw [List.flatMap_cons, run_append, run_row (h cells List.mem_cons_self),
      ih fun other hother => h other (List.mem_cons_of_mem cells hother), List.append_assoc,
      List.singleton_append]

end Reader

/-! ## The end of a table -/

theorem getLast?_cell_ne (s : String) : (cell s).toList.getLast? ≠ some '\n' := by
  rw [cell, String.toList_ofList]
  split
  · rw [quote, List.getLast?_concat]
    decide
  · rename_i hquotes
    intro hlast
    exact hquotes (needsQuotes_iff.2 (Or.inr (Or.inr (List.mem_of_getLast? hlast))))

theorem getLast?_cells_ne (cells : List String) :
    (String.intercalate "," (cells.map cell)).toList.getLast? ≠ some '\n' := by
  induction cells with
  | nil => exact nofun
  | cons s rest ih =>
    rcases rest with - | ⟨t, rest⟩
    · exact getLast?_cell_ne s
    · rw [List.map_cons, List.map_cons, String.intercalate_cons_cons, String.toList_append,
        String.toList_append, List.getLast?_append]
      rcases hrest : (String.intercalate "," (cell t :: rest.map cell)).toList.getLast? with - | c
      · rw [Option.none_or, List.getLast?_append]
        exact nofun
      · rw [List.map_cons, hrest] at ih
        exact ih

theorem cell_eq_empty {s : String} (h : (cell s).toList = []) : s = "" := by
  rw [cell, String.toList_ofList] at h
  split at h
  · exact absurd h (List.cons_ne_nil _ _)
  · exact String.toList_eq_nil_iff.1 h

/-- **A row is not empty and does not end with a line feed of its own.** What
ends with one is quoted. -/
theorem rowChars_end {cells : List String} (h : cells ≠ []) :
    rowChars cells ≠ [] ∧ (rowChars cells).getLast? ≠ some '\n' := by
  rw [rowChars]
  split
  · exact ⟨List.cons_ne_nil _ _, by decide⟩
  · rename_i hblank
    refine ⟨fun hempty => ?_, getLast?_cells_ne cells⟩
    rcases cells with - | ⟨s, - | ⟨t, rest⟩⟩
    · exact absurd rfl h
    · rw [List.map_singleton, String.intercalate_singleton] at hempty
      exact hblank (by rw [cell_eq_empty hempty])
    · rw [List.map_cons, List.map_cons, String.intercalate_cons_cons, String.toList_append,
        String.toList_append, List.append_eq_nil_iff, List.append_eq_nil_iff] at hempty
      exact absurd hempty.1.2 (by decide)

theorem stripLineFeeds_append {cs : List Char} (hlast : cs.getLast? ≠ some '\n') :
    Text.stripLineFeeds (String.ofList (cs ++ ['\n'])) = String.ofList cs := by
  rw [Text.stripLineFeeds, String.toList_ofList]
  have hstrip : (cs ++ ['\n']).rdropWhile (· == '\n') = cs := by
    rw [List.rdropWhile_concat_pos (· == '\n') cs '\n' rfl, List.rdropWhile_eq_self_iff]
    intro hne hfeed
    rw [beq_iff_eq] at hfeed
    exact hlast (by rw [List.getLast?_eq_some_getLast hne, hfeed])
  exact congrArg String.ofList hstrip

section Table

variable {headings : List String} {rows : List (List String)}

/-- The characters of a table: its rows with their line feeds, but without that
of the last one. -/
theorem toList_table (h : ∀ cells ∈ headings :: rows, cells ≠ []) :
    ∃ above last, headings :: rows = above ++ [last] ∧
      (table headings rows).toList =
        (above.flatMap fun cells => (row cells).toList) ++ rowChars last := by
  obtain ⟨above, last, hrows⟩ :=
    (List.eq_nil_or_concat (headings :: rows)).resolve_left (List.cons_ne_nil _ _)
  rw [List.concat_eq_append] at hrows
  refine ⟨above, last, hrows, ?_⟩
  obtain ⟨hne, hlast⟩ := rowChars_end (h last (by rw [hrows]; simp))
  have htext : String.join ((headings :: rows).map row) =
      String.ofList (((above.flatMap fun cells => (row cells).toList) ++ rowChars last) ++
        ['\n']) := by
    rw [← String.toList_inj, String.toList_join, String.toList_ofList, hrows, List.flatMap_map,
      List.flatMap_append, List.flatMap_singleton, toList_row, List.append_assoc]
  rw [table, htext, stripLineFeeds_append, String.toList_ofList]
  rwa [List.getLast?_append_of_ne_nil _ hne]

/-- **Only the line feed of the last row is left out.** -/
theorem table_append_lineFeed (h : ∀ cells ∈ headings :: rows, cells ≠ []) :
    table headings rows ++ "\n" = String.join ((headings :: rows).map row) := by
  obtain ⟨above, last, hrows, htable⟩ := toList_table h
  rw [← String.toList_inj, String.toList_append, htable, String.toList_join, hrows,
    List.flatMap_map, List.flatMap_append, List.flatMap_singleton, toList_row, List.append_assoc]
  rfl

/-- **A table is read as the rows that were written.** -/
theorem read_table (h : ∀ cells ∈ headings :: rows, KeepsRow cells) :
    read (table headings rows) = headings :: rows := by
  obtain ⟨above, last, hrows, htable⟩ := toList_table fun cells hcells => (h cells hcells).1
  rw [hrows] at h
  have habove : ∀ cells ∈ above, KeepsRow cells :=
    fun cells hcells => h cells (List.mem_append_left _ hcells)
  have hlast : (Reader.run ⟨.rowStart, above, [], []⟩ (rowChars last)).Holds above last :=
    Reader.run_rowChars (h last (by simp))
  have hrun : Reader.start.run (above.flatMap fun cells => (row cells).toList) =
      ⟨.rowStart, above, [], []⟩ := Reader.run_table habove
  rw [read, htable, Reader.run_append, hrun, hlast.inRow.finish_eq, hlast.rows_eq, hlast.row_eq,
    hrows]

end Table

/-! ## Reports -/

/-- A written report: it is read as the rows of a table, and is the rows one
after the other but for the line feed at the end. -/
def IsTable (text : String) (table : List (List String)) : Prop :=
  read text = table ∧ text ++ "\n" = String.join (table.map row)

theorem isTable_map {α : Type} {headings : List String} {items : List α} {cells : α → List String}
    (hheadings : KeepsRow headings) (hitems : ∀ a ∈ items, KeepsRow (cells a)) :
    IsTable (table headings (items.map cells)) (headings :: items.map cells) := by
  have h : ∀ row ∈ headings :: items.map cells, KeepsRow row := by
    intro row hrow
    rcases List.mem_cons.1 hrow with rfl | hrow
    · exact hheadings
    · obtain ⟨a, ha, rfl⟩ := List.mem_map.1 hrow
      exact hitems a ha
  exact ⟨read_table h, table_append_lineFeed fun row hrow => (h row hrow).1⟩

/-- **Reports are read as they were written**, cell by cell, where every cell
with a carriage return also has a comma, a quote or a line feed. There is a row
of headings and one row for each module, top module or entry, and only the line
feed of the last row is left out. -/
theorem reports_read_back (separator : String) :
    (∀ rs : List ModuleRecord, (∀ r ∈ rs, ∀ s ∈ moduleCells separator r, Keeps s) →
      IsTable ((Renderer.csv separator).modules rs)
        (["File", "Module", "Ports", "Parameters", "Imports", "Instance Names", "Instance Types"] ::
          rs.map fun r => [r.path, r.name, separator.intercalate r.ports,
            separator.intercalate r.parameters, separator.intercalate r.imports,
            separator.intercalate r.instanceNames, separator.intercalate r.instanceTypes])) ∧
      (∀ names : List String, (∀ name ∈ names, Keeps name) →
        IsTable ((Renderer.csv separator).tops names)
          (["Top Module"] :: names.map fun name => [name])) ∧
      ∀ es : List Entry, (∀ e ∈ es, ∀ s ∈ entryCells e, Keeps s) →
        IsTable ((Renderer.csv separator).hierarchy es)
          (["Depth", "Instance", "Module", "Parent", "File"] ::
            es.map fun e => [toString e.depth, e.instance?.getD "", e.type, e.parent?.getD "",
              e.path?.getD ""]) := by
  refine ⟨fun rs hrs => ?_, fun names hnames => ?_, fun es hes => ?_⟩
  · exact isTable_map ⟨List.cons_ne_nil _ _, by decide⟩ fun r hr =>
      ⟨List.cons_ne_nil _ _, hrs r hr⟩
  · refine isTable_map ⟨List.cons_ne_nil _ _, by decide⟩ fun name hname => ?_
    exact ⟨List.cons_ne_nil _ _, by simpa using hnames name hname⟩
  · exact isTable_map ⟨List.cons_ne_nil _ _, by decide⟩ fun e he =>
      ⟨List.cons_ne_nil _ _, hes e he⟩

/-- A module whose cells hold all that is quoted, and nothing. -/
def quotedModule : ModuleRecord :=
  ⟨"a,b.sv", "m\n", ["\"q\"", "p\r"], [], [""], [⟨"u\r\n", "t"⟩, ⟨",", "\n\n"⟩]⟩

/-- Empty names, names that end with line feeds and a return inside quotes come
back. -/
theorem quoted_cells_read_back :
    (∀ s ∈ moduleCells ";" quotedModule, Keeps s) ∧
      read ((Renderer.csv ";").modules [quotedModule]) =
        [["File", "Module", "Ports", "Parameters", "Imports", "Instance Names", "Instance Types"],
          ["a,b.sv", "m\n", "\"q\";p\r", "", "", "u\r\n;,", "t;\n\n"]] ∧
      (∀ name ∈ ["", "x\n\n", "\r,", ""], Keeps name) ∧
      read ((Renderer.csv ";").tops ["", "x\n\n", "\r,", ""]) =
        [["Top Module"], [""], ["x\n\n"], ["\r,"], [""]] ∧
      (∀ s ∈ entryCells ⟨none, "x\n", -1, some "", none, false⟩, Keeps s) ∧
      read ((Renderer.csv ";").hierarchy [⟨none, "x\n", -1, some "", none, false⟩]) =
        [["Depth", "Instance", "Module", "Parent", "File"], ["-1", "", "x\n", "", ""]] := by
  obtain ⟨hmodules, htops, hentries⟩ := reports_read_back ";"
  have hmodule : ∀ s ∈ moduleCells ";" quotedModule, Keeps s := by decide
  have hnames : ∀ name ∈ ["", "x\n\n", "\r,", ""], Keeps name := by decide
  have hentry : ∀ s ∈ entryCells ⟨none, "x\n", -1, some "", none, false⟩, Keeps s := by decide
  refine ⟨hmodule, (hmodules [quotedModule] (by simpa using hmodule)).1.trans (by decide), hnames,
    (htops _ hnames).1, hentry, (hentries [_] (by simpa using hentry)).1.trans (by decide)⟩

end DesignAtlas.Csv
