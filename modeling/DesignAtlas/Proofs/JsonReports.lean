import DesignAtlas.Proofs.JsonScalars
import DesignAtlas.Proofs.OrderedMap
import DesignAtlas.Proofs.Reading
import DesignAtlas.Report.Renderer

/-!
# JSON reports, written and read

A text stands for a value (`Json.StandsFor`) when it is read as the value,
whatever follows it, as long as that does not go on with the value. Items are
read one after the other up to the closing bracket (`readItems_itemsText`) and
fields up to the closing brace (`readFields_fieldsText`); the blanks of the
layout are passed over, and the length of the text bounds the steps. By
induction on the value, every value that can be read (`Json.Readable`) is read
back from its text (`Readable.standsFor`), on one line or with an indent.

All three reports are such values. Only the depth of an entry may have more
digits than a reader with a limit takes.
-/

namespace DesignAtlas

namespace Json

variable {limit : Option Nat} {fuel depth : Nat} {bs cs rest : List Char}

/-! ## Blanks -/

theorem skipBlanks_append (h : skipBlanks bs = []) : skipBlanks (bs ++ cs) = skipBlanks cs :=
  List.dropWhile_append_of_pos (List.dropWhile_eq_nil_iff.1 h)

/-- A blank extends no number. -/
theorem ends_append (h : skipBlanks bs = []) (hcs : Ends cs) : Ends (bs ++ cs) := by
  cases bs with
  | nil => exact hcs
  | cons b bs =>
    have hb := List.dropWhile_eq_nil_iff.1 h b List.mem_cons_self
    simp only [Bool.or_eq_true, beq_iff_eq] at hb
    refine ends_cons ?_
    obtain ((rfl | rfl) | rfl) | rfl := hb <;> decide

theorem skipBlanks_lineBreak (layout : Layout) (depth : Nat) :
    skipBlanks (layout.lineBreak depth).toList = [] := by
  cases layout with
  | line => rfl
  | indented width =>
    rw [Layout.lineBreak, String.toList_ofList]
    refine List.dropWhile_eq_nil_iff.2 fun c hc => ?_
    rcases List.mem_cons.1 hc with rfl | hc
    · rfl
    · rw [List.eq_of_mem_replicate hc]
      rfl

theorem toList_separator (layout : Layout) (depth : Nat) :
    ∃ bs, (layout.separator depth).toList = ',' :: bs ∧ skipBlanks bs = [] := by
  cases layout with
  | line => exact ⟨[' '], by rw [Layout.separator]; rfl, rfl⟩
  | indented width =>
    refine ⟨((Layout.indented width).lineBreak depth).toList, ?_, skipBlanks_lineBreak _ _⟩
    rw [Layout.separator, String.toList_append]
    rfl

/-- **A text starts as a value does**: with a character that is no blank, no
closing bracket and no byte order mark. -/
def Starts (cs : List Char) : Prop :=
  ∃ c rest, cs = c :: rest ∧ skipBlanks [c] = [c] ∧ c ≠ ']' ∧ c ≠ '\uFEFF'

theorem Starts.append (h : Starts cs) : Starts (cs ++ rest) := by
  obtain ⟨c, cs, rfl, hc⟩ := h
  exact ⟨c, cs ++ rest, rfl, hc⟩

theorem Starts.skipBlanks_eq (h : Starts cs) : skipBlanks cs = cs := by
  obtain ⟨c, cs, rfl, hblank, -⟩ := h
  have hc : ¬ (c == ' ' || c == '\t' || c == '\n' || c == '\r') = true := by
    intro hc
    simp [skipBlanks, hc] at hblank
  exact List.dropWhile_cons_of_neg hc

/-! ## One step of each reader -/

theorem readValue_string (s : String) :
    readValue limit (fuel + 1) depth ((writeString s).toList ++ rest) = .ok (.str s, rest) := by
  rw [toList_writeString, List.cons_append, List.append_assoc, readValue]
  simp only [List.singleton_append, readString_written]
  rfl

theorem readValue_scalar {c : Char} (hquote : c ≠ '"') (hlist : c ≠ '[') (hobject : c ≠ '\x7b') :
    readValue limit (fuel + 1) depth (c :: cs) = readScalar limit (c :: cs) := by
  rw [readValue]
  all_goals simp [hquote, hlist, hobject]

theorem readValue_items (hbs : skipBlanks bs = []) (hcs : Starts cs) :
    readValue limit (fuel + 1) (depth + 1) ('[' :: (bs ++ cs)) =
      readItems limit fuel depth [] cs := by
  have hskip : skipBlanks (bs ++ cs) = cs := by rw [skipBlanks_append hbs, hcs.skipBlanks_eq]
  obtain ⟨c, cs, rfl, -, hclose, -⟩ := hcs
  rw [readValue]
  simp only [hskip]
  split
  · rename_i hnone
    exact absurd (List.cons.inj hnone).1 hclose
  · rfl

theorem readValue_fields (hbs : skipBlanks bs = []) :
    readValue limit (fuel + 1) (depth + 1) ('\x7b' :: (bs ++ '"' :: cs)) =
      readFields limit fuel depth [] ('"' :: cs) := by
  have hskip : skipBlanks (bs ++ '"' :: cs) = '"' :: cs := skipBlanks_append hbs
  rw [readValue]
  simp only [hskip]
  rfl

/-- An item before the closing bracket is the last one. -/
theorem readItems_last {item : Json} {items : List Json} (hbs : skipBlanks bs = [])
    (h : readValue limit fuel depth cs = .ok (item, bs ++ ']' :: rest)) :
    readItems limit (fuel + 1) depth items cs = .ok (.arr (item :: items).reverse, rest) := by
  have hskip : skipBlanks (bs ++ ']' :: rest) = ']' :: rest := skipBlanks_append hbs
  rw [readItems, h]
  simp only [bind, Except.bind, hskip]

/-- After a comma the reader goes on with the next item. -/
theorem readItems_next {item : Json} {items : List Json} {next : List Char}
    (hbs : skipBlanks bs = []) (hnext : Starts next)
    (h : readValue limit fuel depth cs = .ok (item, ',' :: (bs ++ next))) :
    readItems limit (fuel + 1) depth items cs =
      readItems limit fuel depth (item :: items) next := by
  have hskip : skipBlanks (',' :: (bs ++ next)) = ',' :: (bs ++ next) := rfl
  rw [readItems, h]
  simp only [bind, Except.bind, hskip, skipBlanks_append hbs, hnext.skipBlanks_eq]

/-- A field as it is written, before its value. -/
def fieldStart (name : String) : List Char := (writeString name).toList ++ [':', ' ']

theorem fieldStart_eq_cons (name : String) : ∃ cs, fieldStart name = '"' :: cs := by
  rw [fieldStart, toList_writeString]
  exact ⟨_, rfl⟩

/-- A field before the closing brace is the last one. -/
theorem readFields_last {name : String} {value : Json} {fields : List (CodePoints × Json)}
    (hbs : skipBlanks bs = []) (hcs : Starts cs)
    (h : readValue limit fuel depth cs = .ok (value, bs ++ '\x7d' :: rest)) :
    readFields limit (fuel + 1) depth fields (fieldStart name ++ cs) =
      .ok (.obj (upsert (.ofString name) value fields), rest) := by
  have hskip : skipBlanks (bs ++ '\x7d' :: rest) = '\x7d' :: rest := skipBlanks_append hbs
  have hcolon : skipBlanks (':' :: ' ' :: cs) = ':' :: ' ' :: cs := rfl
  have hblank : skipBlanks (' ' :: cs) = cs := hcs.skipBlanks_eq
  rw [fieldStart, toList_writeString]
  simp only [List.cons_append, List.append_assoc, List.nil_append]
  rw [readFields]
  simp only [readString_written, bind, Except.bind, hcolon, hblank, h, hskip]

theorem readFields_next {name : String} {value : Json} {fields : List (CodePoints × Json)}
    {next : List Char} (hbs : skipBlanks bs = []) (hcs : Starts cs) (hnext : Starts next)
    (h : readValue limit fuel depth cs = .ok (value, ',' :: (bs ++ next))) :
    readFields limit (fuel + 1) depth fields (fieldStart name ++ cs) =
      readFields limit fuel depth (upsert (.ofString name) value fields) next := by
  have hskip : skipBlanks (',' :: (bs ++ next)) = ',' :: (bs ++ next) := rfl
  have hcolon : skipBlanks (':' :: ' ' :: cs) = ':' :: ' ' :: cs := rfl
  have hblank : skipBlanks (' ' :: cs) = cs := hcs.skipBlanks_eq
  rw [fieldStart, toList_writeString]
  simp only [List.cons_append, List.append_assoc, List.nil_append]
  rw [readFields]
  simp only [readString_written, bind, Except.bind, hcolon, hblank, h, hskip,
    skipBlanks_append hbs, hnext.skipBlanks_eq]

/-! ## Values -/

/-- **The text stands for the value**, at a depth of nesting that is left: it
starts as a value does, and whatever follows that does not go on with it, it is
read as the value when there are two steps for each of its characters. -/
structure StandsFor (limit : Option Nat) (depth : Nat) (text : List Char) (j : Json) : Prop where
  starts : Starts text
  reads : ∀ fuel rest, 2 * text.length ≤ fuel → Ends rest →
    readValue limit fuel depth (text ++ rest) = .ok (j, rest)

/-- A text that starts a value has a step to read it with. -/
theorem StandsFor.of_step {text : List Char} {j : Json} (hstarts : Starts text)
    (h : ∀ fuel rest, 2 * text.length ≤ fuel + 1 → Ends rest →
      readValue limit (fuel + 1) depth (text ++ rest) = .ok (j, rest)) :
    StandsFor limit depth text j := by
  refine ⟨hstarts, fun fuel rest hfuel hrest => ?_⟩
  cases fuel with
  | zero =>
    obtain ⟨c, cs, rfl, -, -⟩ := hstarts
    rw [List.length_cons] at hfuel
    omega
  | succ fuel => exact h fuel rest hfuel hrest

/-- The items of a list in their texts, with the separator of a layout. -/
def itemsText (layout : Layout) (level : Nat) (items : List Json) : List Char :=
  (String.intercalate (layout.separator level) (writeItems layout level items)).toList

variable {layout : Layout} {level : Nat}

theorem itemsText_singleton (item : Json) :
    itemsText layout level [item] = (writeAt layout level item).toList := by
  simp [itemsText, writeItems]

theorem itemsText_cons_cons (item next : Json) (items : List Json) :
    itemsText layout level (item :: next :: items) =
      (writeAt layout level item).toList ++
        ((layout.separator level).toList ++ itemsText layout level (next :: items)) := by
  simp [itemsText, writeItems, String.intercalate_cons_cons]

theorem starts_itemsText {item : Json} (items : List Json)
    (h : StandsFor limit depth (writeAt layout level item).toList item) :
    Starts (itemsText layout level (item :: items)) := by
  cases items with
  | nil =>
    rw [itemsText_singleton]
    exact h.starts
  | cons next items =>
    rw [itemsText_cons_cons]
    exact h.starts.append

/-- **The items of a list are read one after the other**, up to the closing
bracket. -/
theorem readItems_itemsText {item : Json} {items before : List Json}
    (h : ∀ j ∈ item :: items, StandsFor limit depth (writeAt layout level j).toList j)
    (hbs : skipBlanks bs = [])
    (hfuel : 2 * (itemsText layout level (item :: items)).length + 1 ≤ fuel) :
    readItems limit fuel depth before
        (itemsText layout level (item :: items) ++ (bs ++ ']' :: rest)) =
      .ok (.arr (before.reverse ++ item :: items), rest) := by
  obtain ⟨fuel, rfl⟩ : ∃ n, fuel = n + 1 := ⟨fuel - 1, by omega⟩
  induction items generalizing item before fuel with
  | nil =>
    rw [itemsText_singleton] at hfuel ⊢
    have hitem := (h item List.mem_cons_self).reads fuel (bs ++ ']' :: rest) (by omega)
      (ends_append hbs (ends_cons rfl))
    rw [readItems_last hbs hitem, List.reverse_cons]
  | cons next items ih =>
    obtain ⟨blanks, hseparator, hblanks⟩ := toList_separator layout level
    have hlater : ∀ j ∈ next :: items, StandsFor limit depth (writeAt layout level j).toList j :=
      fun j hj => h j (List.mem_cons_of_mem _ hj)
    have hnext := starts_itemsText items (hlater next List.mem_cons_self)
    -- the comma has no part in any item, and pays for the step to the next one
    rw [itemsText_cons_cons, hseparator] at hfuel ⊢
    simp only [List.length_append, List.length_cons] at hfuel
    obtain ⟨left, rfl⟩ : ∃ n, fuel = n + 1 := ⟨fuel - 1, by omega⟩
    have hitem := (h item List.mem_cons_self).reads (left + 1)
      (',' :: (blanks ++ (itemsText layout level (next :: items) ++ (bs ++ ']' :: rest))))
      (by omega) (ends_cons rfl)
    simp only [List.append_assoc, List.cons_append]
    rw [readItems_next hblanks hnext.append hitem, ih hlater left (by omega)]
    simp

/-- A field of an object under a name of characters. -/
def named (x : String × Json) : CodePoints × Json := (.ofString x.1, x.2)

/-- The fields of an object in their texts, with the separator of a layout. -/
def fieldsText (layout : Layout) (level : Nat) (fields : List (String × Json)) : List Char :=
  (String.intercalate (layout.separator level)
    (writeFields layout level (fields.map named))).toList

theorem fieldsText_singleton (x : String × Json) :
    fieldsText layout level [x] = fieldStart x.1 ++ (writeAt layout level x.2).toList := by
  simp [fieldsText, writeFields, named, fieldStart]

theorem fieldsText_cons_cons (x next : String × Json) (fields : List (String × Json)) :
    fieldsText layout level (x :: next :: fields) =
      fieldStart x.1 ++ ((writeAt layout level x.2).toList ++
        ((layout.separator level).toList ++ fieldsText layout level (next :: fields))) := by
  simp [fieldsText, writeFields, named, fieldStart, String.intercalate_cons_cons]

theorem fieldsText_eq_cons (layout : Layout) (level : Nat) (x : String × Json)
    (fields : List (String × Json)) :
    ∃ cs, fieldsText layout level (x :: fields) = '"' :: cs := by
  obtain ⟨cs, hstart⟩ := fieldStart_eq_cons x.1
  cases fields with
  | nil =>
    rw [fieldsText_singleton, hstart]
    exact ⟨_, rfl⟩
  | cons next fields =>
    rw [fieldsText_cons_cons, hstart]
    exact ⟨_, rfl⟩

/-- A name that no field before it has is added at the end. -/
theorem upsert_named {x : String × Json} {fields : List (String × Json)}
    {before : List (CodePoints × Json)}
    (hnames : ((before ++ (x :: fields).map named).map Prod.fst).Nodup) :
    upsert (.ofString x.1) x.2 before = before ++ [named x] := by
  refine upsert_of_notMem fun hmem => ?_
  rw [List.map_append, List.nodup_append] at hnames
  exact hnames.2.2 _ hmem _ List.mem_cons_self rfl

/-- **The fields of an object are read one after the other**, up to the
closing brace. As the names differ, each is added at the end. -/
theorem readFields_fieldsText {x : String × Json} {fields : List (String × Json)}
    {before : List (CodePoints × Json)}
    (h : ∀ y ∈ x :: fields, StandsFor limit depth (writeAt layout level y.2).toList y.2)
    (hnames : ((before ++ (x :: fields).map named).map Prod.fst).Nodup)
    (hbs : skipBlanks bs = [])
    (hfuel : 2 * (fieldsText layout level (x :: fields)).length + 1 ≤ fuel) :
    readFields limit fuel depth before
        (fieldsText layout level (x :: fields) ++ (bs ++ '\x7d' :: rest)) =
      .ok (.obj (before ++ (x :: fields).map named), rest) := by
  obtain ⟨fuel, rfl⟩ : ∃ n, fuel = n + 1 := ⟨fuel - 1, by omega⟩
  induction fields generalizing x before fuel with
  | nil =>
    have hx := h x List.mem_cons_self
    rw [fieldsText_singleton] at hfuel ⊢
    simp only [List.length_append] at hfuel
    have hvalue := hx.reads fuel (bs ++ '\x7d' :: rest) (by omega) (ends_append hbs (ends_cons rfl))
    rw [List.append_assoc, readFields_last hbs hx.starts.append hvalue, upsert_named hnames]
    rfl
  | cons next fields ih =>
    obtain ⟨blanks, hseparator, hblanks⟩ := toList_separator layout level
    obtain ⟨cs, hcs⟩ := fieldsText_eq_cons layout level next fields
    have hnext : Starts (fieldsText layout level (next :: fields)) := ⟨'"', cs, hcs, rfl, by decide⟩
    have hx := h x List.mem_cons_self
    rw [fieldsText_cons_cons, hseparator] at hfuel ⊢
    simp only [List.length_append, List.length_cons] at hfuel
    obtain ⟨left, rfl⟩ : ∃ n, fuel = n + 1 := ⟨fuel - 1, by omega⟩
    have hvalue := hx.reads (left + 1)
      (',' :: (blanks ++ (fieldsText layout level (next :: fields) ++ (bs ++ '\x7d' :: rest))))
      (by omega) (ends_cons rfl)
    simp only [List.append_assoc, List.cons_append]
    rw [readFields_next hblanks hx.starts.append hnext.append hvalue, upsert_named hnames,
      ih (fun y hy => h y (List.mem_cons_of_mem _ hy)) (by simpa using hnames) left (by omega)]
    simp

/-- **The values that a text can hold without loss**, nested in at most the
given number of levels: whole numbers within the limit, texts of characters,
and objects whose names are texts of characters, none of them twice. -/
inductive Readable (limit : Option Nat) : Nat → Json → Prop
  | null {depth : Nat} : Readable limit depth .null
  | bool {depth : Nat} (b : Bool) : Readable limit depth (.bool b)
  | int {depth : Nat} {n : Int} : Fits limit n → Readable limit depth (.int n)
  | str {depth : Nat} (s : String) : Readable limit depth (.str s)
  | arr {depth : Nat} {items : List Json} :
      (∀ j ∈ items, Readable limit depth j) → Readable limit (depth + 1) (.arr items)
  | object {depth : Nat} {fields : List (String × Json)} :
      (fields.map Prod.fst).Nodup → (∀ x ∈ fields, Readable limit depth x.2) →
      Readable limit (depth + 1) (.object fields)

/-- A number has a digit in front, or a sign. -/
theorem exists_toString_eq_cons (n : Int) :
    ∃ c cs, (toString n).toList = c :: cs ∧ (c.isDigit = true ∨ c = '-') := by
  cases n with
  | ofNat n =>
    obtain ⟨c, cs, hdigits, hc⟩ := exists_toDigits_eq_cons n
    exact ⟨c, cs, (toList_toString_ofNat n).trans hdigits, .inl hc⟩
  | negSucc n => exact ⟨'-', _, toList_toString_negSucc n, .inr rfl⟩

theorem standsFor_int {n : Int} (h : Fits limit n) :
    StandsFor limit depth (toString n).toList (.int n) := by
  obtain ⟨c, cs, htext, hc⟩ := exists_toString_eq_cons n
  have hne : ∀ d : Char, (d.isDigit || d == '-') = false → c ≠ d := by
    rintro d hd rfl
    simp only [Bool.or_eq_false_iff, beq_eq_false_iff_ne] at hd
    simp [hd.1, hd.2] at hc
  refine .of_step ⟨c, cs, htext, ?_, hne ']' rfl, hne '\uFEFF' rfl⟩ fun fuel rest _ hrest => ?_
  · simp [skipBlanks, hne ' ' rfl, hne '\t' rfl, hne '\n' rfl, hne '\r' rfl]
  · rw [← readScalar_int h hrest, htext, List.cons_append]
    exact readValue_scalar (hne '"' rfl) (hne '[' rfl) (hne '\x7b' rfl)

theorem standsFor_null : StandsFor limit depth "null".toList .null :=
  .of_step ⟨'n', _, rfl, rfl, by decide⟩ fun _ _ _ _ => rfl

theorem standsFor_bool (b : Bool) :
    StandsFor limit depth (if b then "true" else "false").toList (.bool b) := by
  cases b with
  | false => exact .of_step ⟨'f', _, rfl, rfl, by decide⟩ fun _ _ _ _ => rfl
  | true => exact .of_step ⟨'t', _, rfl, rfl, by decide⟩ fun _ _ _ _ => rfl

theorem standsFor_str (s : String) : StandsFor limit depth (writeString s).toList (.str s) :=
  .of_step ⟨'"', _, toList_writeString s, rfl, by decide⟩ fun _ _ _ _ => readValue_string s

theorem toList_enclose_nil {left right : String} :
    (layout.enclose level left right []).toList = left.toList ++ right.toList := by
  simp [Layout.enclose]

theorem toList_enclose {left right item : String} {items : List String} :
    (layout.enclose level left right (item :: items)).toList =
      left.toList ++ ((layout.lineBreak (level + 1)).toList ++
        ((String.intercalate (layout.separator (level + 1)) (item :: items)).toList ++
          ((layout.lineBreak level).toList ++ right.toList))) := by
  simp [Layout.enclose]

theorem standsFor_arr {items : List Json}
    (h : ∀ j ∈ items, StandsFor limit depth (writeAt layout (level + 1) j).toList j) :
    StandsFor limit (depth + 1) (writeAt layout level (.arr items)).toList (.arr items) := by
  cases items with
  | nil =>
    have htext : (writeAt layout level (.arr [])).toList = ['[', ']'] := by
      rw [writeAt, writeItems, toList_enclose_nil]
      rfl
    rw [htext]
    exact .of_step ⟨'[', _, rfl, rfl, by decide⟩ fun _ _ _ _ => rfl
  | cons item items =>
    have htext : (writeAt layout level (.arr (item :: items))).toList =
        '[' :: ((layout.lineBreak (level + 1)).toList ++
          (itemsText layout (level + 1) (item :: items) ++
            ((layout.lineBreak level).toList ++ [']']))) := by
      rw [writeAt, writeItems, toList_enclose, ← writeItems]
      rfl
    have hstarts := starts_itemsText items (h item List.mem_cons_self)
    rw [htext]
    refine .of_step ⟨'[', _, rfl, rfl, by decide⟩ fun fuel rest hfuel _ => ?_
    simp only [List.length_cons, List.length_append] at hfuel
    simp only [List.cons_append, List.append_assoc, List.nil_append]
    rw [readValue_items (skipBlanks_lineBreak _ _) hstarts.append,
      readItems_itemsText h (skipBlanks_lineBreak _ _) (by omega)]
    rfl

theorem nodup_map_named {fields : List (String × Json)} (h : (fields.map Prod.fst).Nodup) :
    ((fields.map named).map Prod.fst).Nodup := by
  have hmap : (fields.map named).map Prod.fst = (fields.map Prod.fst).map CodePoints.ofString := by
    rw [List.map_map, List.map_map]
    rfl
  have hinjective : Function.Injective CodePoints.ofString :=
    Function.LeftInverse.injective CodePoints.shown_ofString
  rw [hmap]
  exact h.map hinjective

theorem standsFor_object {fields : List (String × Json)} (hnames : (fields.map Prod.fst).Nodup)
    (h : ∀ x ∈ fields, StandsFor limit depth (writeAt layout (level + 1) x.2).toList x.2) :
    StandsFor limit (depth + 1) (writeAt layout level (.object fields)).toList
      (.object fields) := by
  have hobject : object fields = .obj (fields.map named) := rfl
  rw [hobject]
  cases fields with
  | nil =>
    have htext : (writeAt layout level (.obj [])).toList = ['\x7b', '\x7d'] := by
      rw [writeAt, writeFields, toList_enclose_nil]
      rfl
    rw [List.map_nil, htext]
    exact .of_step ⟨'\x7b', _, rfl, rfl, by decide⟩ fun _ _ _ _ => rfl
  | cons x fields =>
    have htext : (writeAt layout level (.obj ((x :: fields).map named))).toList =
        '\x7b' :: ((layout.lineBreak (level + 1)).toList ++
          (fieldsText layout (level + 1) (x :: fields) ++
            ((layout.lineBreak level).toList ++ ['\x7d']))) := by
      rw [writeAt, List.map_cons, named, writeFields, toList_enclose, ← writeFields]
      rfl
    obtain ⟨cs, hcs⟩ := fieldsText_eq_cons layout (level + 1) x fields
    rw [htext]
    refine .of_step ⟨'\x7b', _, rfl, rfl, by decide⟩ fun fuel rest hfuel _ => ?_
    simp only [List.length_cons, List.length_append] at hfuel
    simp only [List.cons_append, List.append_assoc, List.nil_append]
    have hread : readFields limit fuel depth [] (fieldsText layout (level + 1) (x :: fields) ++
        ((layout.lineBreak level).toList ++ '\x7d' :: rest)) =
        .ok (.obj ((x :: fields).map named), rest) :=
      readFields_fieldsText h (nodup_map_named hnames) (skipBlanks_lineBreak _ _) (by omega)
    rw [hcs, List.cons_append] at hread ⊢
    exact (readValue_fields (skipBlanks_lineBreak _ _)).trans hread

/-- **A readable value is read back from its text**, in every layout and at
every level of it. -/
theorem Readable.standsFor {j : Json} (h : Readable limit depth j) (layout : Layout)
    (level : Nat) : StandsFor limit depth (writeAt layout level j).toList j := by
  induction h generalizing level with
  | null =>
    rw [writeAt]
    exact standsFor_null
  | bool b =>
    rw [writeAt]
    exact standsFor_bool b
  | int hfits =>
    rw [writeAt]
    exact standsFor_int hfits
  | str s =>
    rw [writeAt]
    exact standsFor_str s
  | arr _ ih => exact standsFor_arr fun j hj => ih j hj (level + 1)
  | object hnames _ ih => exact standsFor_object hnames fun x hx => ih x hx (level + 1)

/-- Reads a JSON text as its grammar has it, with any number of digits. -/
def readUnlimited (s : String) : Except ReadError Json :=
  (readTextWithin none s.toList).mapError (Stop.toError s.toList)

/-- A readable value is the whole of its text. -/
theorem readTextWithin_write {j : Json} (h : Readable limit nestingLimit j) (layout : Layout) :
    readTextWithin limit (j.write layout).toList = .ok j := by
  have hstands : StandsFor limit nestingLimit (j.write layout).toList j := h.standsFor layout 0
  have hmark : ¬ ((j.write layout).toList.head? == some '\uFEFF') = true := by
    obtain ⟨c, cs, htext, -, -, hc⟩ := hstands.starts
    rw [htext]
    simpa using hc
  have hvalue := hstands.reads (2 * (j.write layout).toList.length + 2) [] (by omega) ends_nil
  rw [List.append_nil] at hvalue
  rw [readTextWithin, if_neg hmark, hstands.starts.skipBlanks_eq, hvalue]
  rfl

theorem read_write {j : Json} (h : Readable (some digitLimit) nestingLimit j) (layout : Layout) :
    read (j.write layout) = .ok j :=
  mapError_eq_ok_iff.2 (readTextWithin_write h layout)

theorem readUnlimited_write {j : Json} (h : Readable none nestingLimit j) (layout : Layout) :
    readUnlimited (j.write layout) = .ok j :=
  mapError_eq_ok_iff.2 (readTextWithin_write h layout)

/-! ## Reports -/

theorem readable_strings (ss : List String) : Readable limit (depth + 1) (.strings ss) := by
  refine .arr fun j hj => ?_
  obtain ⟨s, -, rfl⟩ := List.mem_map.1 hj
  exact .str s

theorem readable_optional (s? : Option String) : Readable limit depth (.optional s?) := by
  cases s? with
  | none => exact .null
  | some s => exact .str s

/-- The text of a value. -/
def asText? : Json → Option String
  | .str s => some s.shown
  | _ => none

/-- The texts of a list. -/
def asTexts? : Json → Option (List String)
  | .arr items => items.mapM asText?
  | _ => none

theorem asText?_str (s : String) : asText? (.str s) = some s :=
  congrArg some (CodePoints.shown_ofString s)

/-- A list is restored when each of its items is. -/
theorem mapM_map_eq_some {α β : Type} {f : β → Option α} {g : α → β}
    (h : ∀ a, f (g a) = some a) (as : List α) : (as.map g).mapM f = some as := by
  induction as with
  | nil => rfl
  | cons a as ih =>
    rw [List.map_cons, List.mapM_cons, h, ih]
    rfl

theorem asTexts?_strings (ss : List String) : asTexts? (.strings ss) = some ss :=
  mapM_map_eq_some asText?_str ss

end Json

open Json

namespace ModuleRecord

/-- **The record that a value describes.** Its instances are the two lists of
names and types, zipped. -/
def ofJson? (j : Json) : Option ModuleRecord := do
  let instances ← j.field? "instances"
  let names ← instances.field? "name" >>= asTexts?
  let types ← instances.field? "type" >>= asTexts?
  return {
    path := ← j.field? "path" >>= asText?
    name := ← j.field? "name" >>= asText?
    ports := ← j.field? "ports" >>= asTexts?
    parameters := ← j.field? "parameters" >>= asTexts?
    imports := ← j.field? "imports" >>= asTexts?
    instances := List.zipWith Instance.mk names types }

theorem zipWith_instances (r : ModuleRecord) :
    List.zipWith Instance.mk r.instanceNames r.instanceTypes = r.instances := by
  simp [instanceNames, instanceTypes, List.zipWith_map, List.zipWith_self]

/-- A record as an object under names of characters. -/
theorem toJson_eq_object (r : ModuleRecord) :
    r.toJson = .object [("path", .str r.path), ("name", .str r.name),
      ("ports", .strings r.ports), ("parameters", .strings r.parameters),
      ("imports", .strings r.imports), ("instances", .object
        [("name", .strings r.instanceNames), ("type", .strings r.instanceTypes)])] := rfl

/-- **Zipping the two lists restores the record.** -/
theorem ofJson?_toJson (r : ModuleRecord) : ofJson? r.toJson = some r := by
  have hfields : ofJson? r.toJson = do
    let names ← asTexts? (.strings r.instanceNames)
    let types ← asTexts? (.strings r.instanceTypes)
    return {
      path := ← asText? (.str r.path)
      name := ← asText? (.str r.name)
      ports := ← asTexts? (.strings r.ports)
      parameters := ← asTexts? (.strings r.parameters)
      imports := ← asTexts? (.strings r.imports)
      instances := List.zipWith Instance.mk names types } := rfl
  rw [hfields]
  simp only [asTexts?_strings, asText?_str, zipWith_instances, Option.bind_eq_bind,
    Option.bind_some]
  rfl

variable {limit : Option Nat} {depth : Nat}

theorem readable_toJson (r : ModuleRecord) : Readable limit (depth + 3) r.toJson := by
  have hinstances : Readable limit (depth + 2)
      (.object [("name", .strings r.instanceNames), ("type", .strings r.instanceTypes)]) := by
    refine .object (show ["name", "type"].Nodup by decide) ?_
    simp only [List.forall_mem_cons]
    exact ⟨readable_strings _, readable_strings _, nofun⟩
  rw [toJson_eq_object]
  refine .object
    (show ["path", "name", "ports", "parameters", "imports", "instances"].Nodup by decide) ?_
  simp only [List.forall_mem_cons]
  exact ⟨.str _, .str _, readable_strings _, readable_strings _, readable_strings _, hinstances,
    nofun⟩

end ModuleRecord

namespace Document

variable {limit : Option Nat} {depth : Nat}

theorem readable_modules (rs : List ModuleRecord) : Readable limit (depth + 4) (modules rs) := by
  refine .arr fun j hj => ?_
  obtain ⟨r, -, rfl⟩ := List.mem_map.1 hj
  exact r.readable_toJson

theorem readable_entryJson {e : Entry} (h : Fits limit e.depth) :
    Readable limit (depth + 1) (entryJson e) := by
  have hobject : entryJson e = .object [("module", .str e.type),
    ("instance", .optional e.instance?), ("depth", .int e.depth), ("parent", .optional e.parent?),
    ("path", .optional e.path?), ("resolved", .bool e.resolved),
    ("recursive", .bool e.recursive)] := rfl
  rw [hobject]
  refine .object (show ["module", "instance", "depth", "parent", "path", "resolved",
    "recursive"].Nodup by decide) ?_
  simp only [List.forall_mem_cons]
  exact ⟨.str _, readable_optional _, .int h, readable_optional _, readable_optional _, .bool _,
    .bool _, nofun⟩

theorem readable_hierarchy {es : List Entry} (h : ∀ e ∈ es, Fits limit e.depth) :
    Readable limit (depth + 2) (hierarchy es) := by
  refine .arr fun j hj => ?_
  obtain ⟨e, he, rfl⟩ := List.mem_map.1 hj
  exact readable_entryJson (h e he)

/-- The records of a module report. -/
def records? : Json → Option (List ModuleRecord)
  | .arr items => items.mapM ModuleRecord.ofJson?
  | _ => none

theorem records?_modules (rs : List ModuleRecord) : records? (modules rs) = some rs :=
  mapM_map_eq_some ModuleRecord.ofJson?_toJson rs

/-! ## The values, written out -/

theorem optional_eq_elim (text? : Option String) :
    Json.optional text? = text?.elim .null fun text : String => .str text := by
  cases text? <;> rfl

theorem modules_eq (rs : List ModuleRecord) :
    modules rs = .arr (rs.map fun r => .obj [
      ("path", .str r.path),
      ("name", .str r.name),
      ("ports", .arr (r.ports.map fun port : String => .str port)),
      ("parameters", .arr (r.parameters.map fun parameter : String => .str parameter)),
      ("imports", .arr (r.imports.map fun name : String => .str name)),
      ("instances", .obj [
        ("name", .arr (r.instances.map fun i => .str i.name)),
        ("type", .arr (r.instances.map fun i => .str i.type))])]) := by
  refine congrArg Json.arr (List.map_congr_left fun r _ => ?_)
  rw [ModuleRecord.toJson, Json.strings, Json.strings, Json.strings, Json.strings, Json.strings,
    ModuleRecord.instanceNames, ModuleRecord.instanceTypes, List.map_map, List.map_map]
  rfl

theorem hierarchy_eq (es : List Entry) :
    hierarchy es = .arr (es.map fun e => .obj [
      ("module", .str e.type),
      ("instance", e.instance?.elim .null fun name : String => .str name),
      ("depth", .int e.depth),
      ("parent", e.parent?.elim .null fun name : String => .str name),
      ("path", e.record?.elim .null fun r => .str r.path),
      ("resolved", .bool e.record?.isSome),
      ("recursive", .bool e.recursive)]) := by
  refine congrArg Json.arr (List.map_congr_left fun e _ => ?_)
  have hpath : Json.optional e.path? = e.record?.elim .null fun r => .str r.path := by
    rw [Entry.path?, optional_eq_elim]
    cases e.record? <;> rfl
  rw [entryJson, hpath, optional_eq_elim, optional_eq_elim, Entry.resolved]

/-- **The reports are decoded without loss**, with or without an indent. A
module report is read as a list of objects, one for each record, in which the
names and the types of the instances are two lists; these, zipped, restore each
record, so different records never have the same text. A report of top modules
is read as their names. A hierarchy is read as a list of objects, one for each
entry, with null for an instance, parent or path that is not there: within the
limit for digits when its depths keep to it, and without the limit always. -/
theorem documents_read_back (indent : Option Int) :
    (∀ rs, Json.read ((Renderer.json indent).modules rs) = .ok (.arr (rs.map fun r => .obj [
        ("path", .str r.path),
        ("name", .str r.name),
        ("ports", .arr (r.ports.map fun port : String => .str port)),
        ("parameters", .arr (r.parameters.map fun parameter : String => .str parameter)),
        ("imports", .arr (r.imports.map fun name : String => .str name)),
        ("instances", .obj [
          ("name", .arr (r.instances.map fun i => .str i.name)),
          ("type", .arr (r.instances.map fun i => .str i.type))])]))) ∧
      (∀ names, Json.read ((Renderer.json indent).tops names) =
        .ok (.arr (names.map fun name : String => .str name))) ∧
      (∀ es,
        let objects := Json.arr (es.map fun e => .obj [
          ("module", .str e.type),
          ("instance", e.instance?.elim .null fun name : String => .str name),
          ("depth", .int e.depth),
          ("parent", e.parent?.elim .null fun name : String => .str name),
          ("path", e.record?.elim .null fun r => .str r.path),
          ("resolved", .bool e.record?.isSome),
          ("recursive", .bool e.recursive)])
        Json.readUnlimited ((Renderer.json indent).hierarchy es) = .ok objects ∧
          ((∀ e ∈ es, Fits (some digitLimit) e.depth) →
            Json.read ((Renderer.json indent).hierarchy es) = .ok objects)) ∧
      (∀ rs, (Json.read ((Renderer.json indent).modules rs)).toOption.bind records? = some rs) ∧
      Function.Injective (Renderer.json indent).modules := by
  have hmodules : ∀ rs, Json.read ((Renderer.json indent).modules rs) = .ok (modules rs) :=
    fun rs => read_write (readable_modules rs) _
  have hrecords : ∀ rs,
      (Json.read ((Renderer.json indent).modules rs)).toOption.bind records? = some rs := by
    intro rs
    rw [hmodules]
    exact records?_modules rs
  refine ⟨fun rs => ?_, fun names => read_write (readable_strings names) _, fun es => ?_, hrecords,
    fun rs rs' h => ?_⟩
  · rw [hmodules, modules_eq]
  · intro objects
    have hobjects : hierarchy es = objects := hierarchy_eq es
    rw [← hobjects]
    exact ⟨readUnlimited_write (readable_hierarchy fun e _ => fits_none e.depth) _,
      fun h => read_write (readable_hierarchy h) _⟩
  · have hread := hrecords rs
    rw [h, hrecords rs'] at hread
    exact (Option.some.inj hread).symm

/-- Two entries: one of a type that needs every kind of escape, without a
declaration and with a depth below zero, and one with all that an entry can
have. -/
def escapedEntries : List Entry := [
  ⟨none, "\"\\/\n\r\t\x08\x0c\x01\x7fé\u2028😀", -12, some "", none, true⟩,
  ⟨some ⟨"a.sv", "m", [], [], [], []⟩, "m", 1, some "u\\0", some "top", false⟩]

/-- The entries are read back from their indented text, field by field. -/
theorem escapedEntries_read_back :
    (∀ e ∈ escapedEntries, Fits (some digitLimit) e.depth) ∧
      Json.read ((Renderer.json (some 2)).hierarchy escapedEntries) = .ok (.arr [
        .obj [
          ("module", .str "\"\\/\n\r\t\x08\x0c\x01\x7fé\u2028😀"),
          ("instance", .str ""),
          ("depth", .int (-12)),
          ("parent", .null),
          ("path", .null),
          ("resolved", .bool false),
          ("recursive", .bool true)],
        .obj [
          ("module", .str "m"),
          ("instance", .str "u\\0"),
          ("depth", .int 1),
          ("parent", .str "top"),
          ("path", .str "a.sv"),
          ("resolved", .bool true),
          ("recursive", .bool false)]]) := by
  have hfits : ∀ e ∈ escapedEntries, Fits (some digitLimit) e.depth := by decide
  exact ⟨hfits, ((documents_read_back (some 2)).2.2.1 escapedEntries).2 hfits⟩

end Document

end DesignAtlas
