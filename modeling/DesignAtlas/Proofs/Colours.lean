import DesignAtlas.Proofs.Grouping
import DesignAtlas.Proofs.Tables
import Mathlib.Data.Int.Notation
import Mathlib.Data.List.Forall2

/-!
# Colours only decorate

A report for a terminal is coloured by control sequences around its parts. If
they are deleted, what is left is the report without colours, for all three
kinds of reports (`colours_only_decorate`).

A coloured text is related to the plain one under it (`Decorates`), and all
that the layouts do keeps the relation: putting texts after each other, joining
lines, and padding, which is measured on plain texts in both. A module report
has the line feeds at its end taken off, and there the two texts end
differently: the coloured one with a control sequence, the plain one with a
value. Both lose the same line feed, since no instance is described by a text
that ends with one (`modules_eq_intercalate`).
-/

namespace DesignAtlas

namespace Text

/-- A text without escape characters. -/
def Unescaped (s : String) : Prop := '\x1b' ∉ s.toList

instance (s : String) : Decidable (Unescaped s) := inferInstanceAs (Decidable (_ ∉ _))

theorem unescaped_append {s u : String} :
    Unescaped (s ++ u) ↔ Unescaped s ∧ Unescaped u := by
  rw [Unescaped, String.toList_append, List.mem_append, not_or]
  rfl

theorem Unescaped.of_intercalate {lines : List String}
    (h : Unescaped (String.intercalate "\n" lines)) : ∀ s ∈ lines, Unescaped s := by
  induction lines with
  | nil => simp
  | cons s lines ih =>
    rcases lines with - | ⟨u, lines⟩
    · rw [String.intercalate_singleton] at h
      exact List.forall_mem_singleton.2 h
    · rw [String.intercalate_cons_cons, unescaped_append, unescaped_append] at h
      exact List.forall_mem_cons.2 ⟨h.1.1, ih h.2⟩

/-! ## The end of a text -/

/-- A text that ends with a character other than a line feed. -/
def Ended (s : String) : Prop := ∃ cs c, s.toList = cs ++ [c] ∧ c ≠ '\n'

theorem Ended.append_left {u : String} (h : Ended u) (s : String) : Ended (s ++ u) := by
  obtain ⟨cs, c, hu, hc⟩ := h
  exact ⟨s.toList ++ cs, c, by rw [String.toList_append, hu, List.append_assoc], hc⟩

theorem ended_of_notMem {s : String} (hne : s ≠ "") (h : '\n' ∉ s.toList) : Ended s := by
  obtain ⟨cs, c, hs⟩ := (List.eq_nil_or_concat s.toList).resolve_left
    (mt String.toList_eq_nil_iff.1 hne)
  rw [List.concat_eq_append] at hs
  refine ⟨cs, c, hs, ?_⟩
  rintro rfl
  exact h (hs ▸ List.mem_append_right _ List.mem_cons_self)

/-- Joined lines end as the last of them does. -/
theorem ended_intercalate {lines : List String} {s : String} (h : lines.getLast? = some s)
    (hs : Ended s) : Ended (String.intercalate "\n" lines) := by
  induction lines with
  | nil => cases h
  | cons u lines ih =>
    rcases lines with - | ⟨v, lines⟩
    · rw [String.intercalate_singleton]
      obtain rfl : u = s := Option.some.inj h
      exact hs
    · rw [List.getLast?_cons_cons] at h
      rw [String.intercalate_cons_cons]
      exact (ih h).append_left _

/-- **Only the line feed after its end is stripped off a text.** -/
theorem Ended.stripLineFeeds_append {s : String} (h : Ended s) :
    stripLineFeeds (s ++ "\n") = s := by
  obtain ⟨cs, c, hs, hc⟩ := h
  have hchars : (s ++ "\n").toList.reverse = '\n' :: c :: cs.reverse := by
    rw [String.toList_append, hs]
    simp
  rw [stripLineFeeds, dropRightWhile, hchars, List.dropWhile_cons_of_pos (by decide),
    List.dropWhile_cons_of_neg (by simpa using hc), List.reverse_cons, List.reverse_reverse, ← hs,
    String.ofList_toList]

/-- Joined lines are joined as all their lines are. -/
theorem intercalate_flatMap {α : Type} {f : α → List String} {l : List α}
    (h : ∀ x ∈ l, f x ≠ []) :
    String.intercalate "\n" (l.map fun x => String.intercalate "\n" (f x)) =
      String.intercalate "\n" (l.flatMap f) := by
  induction l with
  | nil => rfl
  | cons x l ih =>
    rw [List.forall_mem_cons] at h
    rcases l with - | ⟨y, l⟩
    · rw [List.map_singleton, String.intercalate_singleton, List.flatMap_singleton]
    · have hrest : (y :: l).flatMap f ≠ [] := by
        rw [List.flatMap_cons]
        exact List.append_ne_nil_of_left_ne_nil (h.2 y List.mem_cons_self) _
      rw [List.flatMap_cons, String.intercalate_append_of_ne_nil h.1 hrest, ← ih h.2]
      exact String.intercalate_cons_cons

end Text

/-- Two functions that give related values for the members of a list. -/
theorem forall₂_map_map {α β γ : Type} {R : β → γ → Prop} {f : α → β} {g : α → γ} {l : List α}
    (h : ∀ x ∈ l, R (f x) (g x)) : List.Forall₂ R (l.map f) (l.map g) := by
  rw [List.forall₂_map_left_iff, List.forall₂_map_right_iff, List.forall₂_same]
  exact h

namespace ModuleRecord

theorem forall_mem_texts {r : ModuleRecord} {P : String → Prop} :
    (∀ s ∈ r.texts, P s) ↔ P r.name ∧ P r.path ∧ (∀ s ∈ r.ports, P s) ∧
      (∀ s ∈ r.parameters, P s) ∧ (∀ s ∈ r.imports, P s) ∧
        ∀ i ∈ r.instances, P i.type ∧ P i.name := by
  simp only [texts, List.forall_mem_cons, List.forall_mem_append, List.forall_mem_flatMap,
    List.not_mem_nil, false_imp_iff, implies_true, and_true, and_assoc]

end ModuleRecord

theorem Instance.describe_eq (i : Instance) : i.describe = i.type ++ (" " ++ i.name) :=
  String.append_assoc

/-- A description ends with the name of the instance, or else with the blank
before it. -/
theorem Instance.ended_describe {i : Instance} (h : '\n' ∉ i.name.toList) :
    Text.Ended i.describe := by
  have hname : (" " ++ i.name).toList = ' ' :: i.name.toList := by
    rw [String.toList_append]
    rfl
  rw [Instance.describe_eq]
  refine (Text.ended_of_notMem ?_ ?_).append_left _
  · intro hempty
    rw [hempty] at hname
    cases hname
  · rw [hname]
    exact List.not_mem_cons_of_ne_of_not_mem (by decide) h

namespace Terminal

open Text

/-! ## Control sequences -/

/-- The characters of the codes of control sequences. -/
def isCodeChar (c : Char) : Bool := c.isDigit || c == ';'

/-- **What a control sequence may hold** between its start `ESC [` and the `m`
that ends it: the characters of codes, and maybe others. -/
structure Dialect where
  inside : Char → Bool
  code : ∀ c, isCodeChar c = true → inside c = true
  final : inside 'm' = false

namespace Dialect

/-- A sequence holds nothing but a code. -/
def codes : Dialect := ⟨isCodeChar, fun _ h => h, by decide⟩

/-- A sequence holds whatever comes before the next `m`. -/
def anything : Dialect where
  inside c := c != 'm'
  code c h := bne_iff_ne.2 (by rintro rfl; cases h)
  final := by decide

variable (d : Dialect)

/-- The number of characters of the control sequence that a text starts with,
or zero. -/
def sequenceLength (cs : List Char) : ℕ :=
  if cs.take 2 = ['\x1b', '['] ∧ ((cs.drop 2).dropWhile d.inside).head? = some 'm' then
    ((cs.drop 2).takeWhile d.inside).length + 3
  else 0

/-- Deletes a number of characters, and then the control sequences. -/
def deleteFrom : ℕ → List Char → List Char
  | _, [] => []
  | n + 1, _ :: cs => deleteFrom n cs
  | 0, c :: cs =>
    if d.sequenceLength (c :: cs) = 0 then c :: deleteFrom 0 cs
    else deleteFrom (d.sequenceLength (c :: cs) - 1) cs

/-- **A text without its control sequences.** -/
def delete (s : String) : String := String.ofList (d.deleteFrom 0 s.toList)

theorem deleteFrom_cons_of_ne {c : Char} (hc : c ≠ '\x1b') (cs : List Char) :
    d.deleteFrom 0 (c :: cs) = c :: d.deleteFrom 0 cs := by
  have hnone : d.sequenceLength (c :: cs) = 0 := by
    refine if_neg fun h => hc ?_
    exact (List.cons.inj h.1).1
  rw [deleteFrom, if_pos hnone]

theorem deleteFrom_length_append (xs rest : List Char) :
    d.deleteFrom xs.length (xs ++ rest) = d.deleteFrom 0 rest := by
  induction xs with
  | nil => rfl
  | cons x xs ih => exact ih

theorem deleteFrom_sequence {code : List Char} (h : code.all isCodeChar = true)
    (rest : List Char) :
    d.deleteFrom 0 ('\x1b' :: '[' :: (code ++ 'm' :: rest)) = d.deleteFrom 0 rest := by
  have hinside : ∀ c ∈ code, d.inside c = true :=
    fun c hc => d.code c (List.all_eq_true.1 h c hc)
  have hfinal : ¬ d.inside 'm' = true := by simp [d.final]
  have hbody : ('\x1b' :: '[' :: (code ++ 'm' :: rest)).drop 2 = code ++ 'm' :: rest := rfl
  have hlength : d.sequenceLength ('\x1b' :: '[' :: (code ++ 'm' :: rest)) = code.length + 3 := by
    rw [sequenceLength, hbody, List.dropWhile_append_of_pos hinside,
      List.takeWhile_append_of_pos hinside, List.dropWhile_cons_of_neg hfinal,
      List.takeWhile_cons_of_neg hfinal, List.append_nil]
    exact if_pos ⟨rfl, rfl⟩
  have hskipped := d.deleteFrom_length_append ('[' :: (code ++ ['m'])) rest
  rw [List.length_cons, List.length_append, List.length_singleton, List.cons_append,
    List.append_assoc, List.singleton_append] at hskipped
  rw [deleteFrom, hlength, if_neg (Nat.succ_ne_zero _)]
  exact hskipped

end Dialect

/-! ## Coloured and plain texts -/

/-- **A coloured text over a plain one**, which has no escape characters: the
coloured one has control sequences besides. -/
inductive Colouring : List Char → List Char → Prop
  | nil : Colouring [] []
  | char {c : Char} {cs ds : List Char} (hc : c ≠ '\x1b') :
    Colouring cs ds → Colouring (c :: cs) (c :: ds)
  | sequence {code cs ds : List Char} (hcode : code.all isCodeChar = true) :
    Colouring cs ds → Colouring ('\x1b' :: '[' :: (code ++ 'm' :: cs)) ds

namespace Colouring

variable {cs ds : List Char}

theorem append (h : Colouring cs ds) {cs' ds' : List Char} (h' : Colouring cs' ds') :
    Colouring (cs ++ cs') (ds ++ ds') := by
  induction h with
  | nil => exact h'
  | char hc _ ih => exact .char hc ih
  | sequence hcode _ ih =>
    rw [List.cons_append, List.cons_append, List.append_assoc, List.cons_append]
    exact .sequence hcode ih

theorem refl (h : '\x1b' ∉ cs) : Colouring cs cs := by
  induction cs with
  | nil => exact .nil
  | cons c cs ih =>
    rw [List.mem_cons, not_or] at h
    exact .char (Ne.symm h.1) (ih h.2)

/-- Deleting the sequences of a coloured text uncovers the plain one. -/
theorem deleteFrom_eq (d : Dialect) (h : Colouring cs ds) : d.deleteFrom 0 cs = ds := by
  induction h with
  | nil => rfl
  | char hc _ ih => rw [d.deleteFrom_cons_of_ne hc, ih]
  | sequence hcode _ ih => rw [d.deleteFrom_sequence hcode, ih]

theorem escape_notMem (h : Colouring cs ds) : '\x1b' ∉ ds := by
  induction h with
  | nil => exact List.not_mem_nil
  | char hc _ ih => exact List.not_mem_cons_of_ne_of_not_mem (Ne.symm hc) ih
  | sequence _ _ ih => exact ih

end Colouring

/-- A coloured text decorates the plain one under it. -/
def Decorates (coloured plain : String) : Prop := Colouring coloured.toList plain.toList

namespace Decorates

variable {s s' u u' : String}

theorem delete_eq (d : Dialect) (h : Decorates s u) : d.delete s = u := by
  rw [Dialect.delete, h.deleteFrom_eq d, String.ofList_toList]

theorem unescaped (h : Decorates s u) : Unescaped u := h.escape_notMem

theorem refl (h : Unescaped s) : Decorates s s := Colouring.refl h

theorem append (h : Decorates s u) (h' : Decorates s' u') : Decorates (s ++ s') (u ++ u') := by
  rw [Decorates, String.toList_append, String.toList_append]
  exact Colouring.append h h'

/-- **Lines that decorate lines decorate them when they are joined.** -/
theorem intercalate {lines lines' : List String} (h : List.Forall₂ Decorates lines lines') :
    Decorates (String.intercalate "\n" lines) (String.intercalate "\n" lines') := by
  induction h with
  | nil => exact .refl (by decide)
  | cons hline hlines ih =>
    cases hlines with
    | nil =>
      rw [String.intercalate_singleton, String.intercalate_singleton]
      exact hline
    | cons =>
      rw [String.intercalate_cons_cons, String.intercalate_cons_cons]
      exact (hline.append (.refl (by decide))).append ih

end Decorates

theorem decorates_sequence {code : String} (h : code.toList.all isCodeChar = true) :
    Decorates (sequence code) "" := by
  have hchars : (sequence code).toList = '\x1b' :: '[' :: (code.toList ++ 'm' :: []) := by
    rw [sequence, String.toList_append, String.toList_append]
    rfl
  rw [Decorates, hchars]
  exact .sequence h .nil

/-! ## Parts of reports -/

section Parts

variable (t : Terminal) (indent : ℤ) {s : String} {r : ModuleRecord} {e : Entry}

theorem all_isCodeChar_code (p : Paint) : p.code.toList.all isCodeChar = true := by
  cases p <;> decide

theorem decorates_paint (p : Paint) (h : Unescaped s) :
    Decorates (paint ⟨true, indent⟩ p s) (paint ⟨false, indent⟩ p s) := by
  have hstart : Decorates (sequence p.code) "" := decorates_sequence (all_isCodeChar_code p)
  have hend : Decorates (sequence "0") "" := decorates_sequence (by decide)
  have hpainted := (hstart.append (.refl h)).append hend
  rw [String.empty_append, String.append_empty] at hpainted
  exact hpainted

theorem not_unescaped_paint (p : Paint) (s : String) :
    ¬ Unescaped (paint ⟨true, indent⟩ p s) := by
  intro h
  have hstart : Unescaped (sequence p.code) := (unescaped_append.1 (unescaped_append.1 h).1).1
  exact (unescaped_append.1 (unescaped_append.1 hstart).1).1 (by decide)

theorem unescaped_blanks (n : ℕ) : Unescaped (blanks n) := by
  intro h
  rw [blanks, String.toList_ofList] at h
  exact absurd (List.eq_of_mem_replicate h) (by decide)

theorem decorates_field {key : String} (hkey : Unescaped key) {values : List String}
    (h : ∀ v ∈ values, Unescaped v) :
    Decorates (field ⟨true, indent⟩ key values) (field ⟨false, indent⟩ key values) := by
  have hpainted := decorates_paint indent .key hkey
  cases values with
  | nil => exact hpainted.append (decorates_paint indent .dim (by decide))
  | cons v values =>
    rw [List.forall_mem_cons] at h
    have hblanks : Decorates (blanks key.length) (blanks key.length) := .refl (unescaped_blanks _)
    exact .intercalate (.cons (hpainted.append (decorates_paint indent .value h.1))
      (forall₂_map_map fun w hw => hblanks.append (decorates_paint indent .value (h.2 w hw))))

theorem not_unescaped_field (key : String) (values : List String) :
    ¬ Unescaped (field ⟨true, indent⟩ key values) := by
  intro h
  cases values with
  | nil => exact not_unescaped_paint indent .key key (unescaped_append.1 h).1
  | cons v values =>
    have hfirst := Unescaped.of_intercalate h _ List.mem_cons_self
    exact not_unescaped_paint indent .key key (unescaped_append.1 hfirst).1

theorem ended_paint (p : Paint) (h : Ended s) : Ended (t.paint p s) := by
  rw [Terminal.paint]
  split
  · exact (ended_of_notMem (by decide) (by decide)).append_left _
  · exact h

theorem ended_field (key : String) {values : List String} (h : ∀ v ∈ values, Ended v) :
    Ended (t.field key values) := by
  cases values with
  | nil => exact (t.ended_paint .dim (ended_of_notMem (by decide) (by decide))).append_left _
  | cons v values =>
    rw [List.forall_mem_cons] at h
    have hlines : ∀ line ∈ (t.paint .key key ++ t.paint .value v) ::
        values.map (fun w => blanks key.length ++ t.paint .value w), Ended line := by
      refine List.forall_mem_cons.2 ⟨(t.ended_paint .value h.1).append_left _, ?_⟩
      intro line hline
      obtain ⟨w, hw, rfl⟩ := List.mem_map.1 hline
      exact (t.ended_paint .value (h.2 w hw)).append_left _
    exact ended_intercalate List.getLast?_cons (hlines _ (List.mem_of_getLast? List.getLast?_cons))

theorem decorates_moduleLines (h : ∀ s ∈ r.texts, Unescaped s) :
    List.Forall₂ Decorates (moduleLines ⟨true, indent⟩ r) (moduleLines ⟨false, indent⟩ r) := by
  obtain ⟨hname, -, hports, hparameters, himports, hinstances⟩ := ModuleRecord.forall_mem_texts.1 h
  have hdescribed : ∀ v ∈ r.instances.map Instance.describe, Unescaped v := by
    intro v hv
    obtain ⟨i, hi, rfl⟩ := List.mem_map.1 hv
    obtain ⟨htype, hname⟩ := hinstances i hi
    rw [Instance.describe_eq, unescaped_append, unescaped_append]
    exact ⟨htype, by decide, hname⟩
  exact .cons (decorates_field indent (by decide) (List.forall_mem_singleton.2 hname)) <|
    .cons (decorates_field indent (by decide) hports) <|
    .cons (decorates_field indent (by decide) hparameters) <|
    .cons (decorates_field indent (by decide) himports) <|
    .cons (decorates_field indent (by decide) hdescribed) <|
    .cons (.refl (by decide)) .nil

theorem decorates_remark (e : Entry) :
    Decorates
      (if !e.resolved then paint ⟨true, indent⟩ .dim " (no declaration)"
        else if e.recursive then paint ⟨true, indent⟩ .alarm " (recursive)" else "")
      (if !e.resolved then paint ⟨false, indent⟩ .dim " (no declaration)"
        else if e.recursive then paint ⟨false, indent⟩ .alarm " (recursive)" else "") := by
  split
  · exact decorates_paint indent .dim (by decide)
  · split
    · exact decorates_paint indent .alarm (by decide)
    · exact .refl (by decide)

theorem decorates_entryLine (htype : Unescaped e.type)
    (hname : ∀ name ∈ e.instance?, Unescaped name) :
    Decorates (entryLine ⟨true, indent⟩ e) (entryLine ⟨false, indent⟩ e) := by
  have hblanks : Decorates (blanks (indent * e.depth).toNat) (blanks (indent * e.depth).toNat) :=
    .refl (unescaped_blanks _)
  refine (hblanks.append ?_).append (decorates_remark indent e)
  cases hinstance : e.instance? with
  | none => exact decorates_paint indent .key htype
  | some name =>
    have hpainted := decorates_paint indent .value (hname name hinstance)
    exact (hpainted.append (.refl (by decide))).append (decorates_paint indent .dim htype)

theorem not_unescaped_entryLine (e : Entry) : ¬ Unescaped (entryLine ⟨true, indent⟩ e) := by
  intro h
  have hlabel := (unescaped_append.1 (unescaped_append.1 h).1).2
  cases hinstance : e.instance? with
  | none =>
    rw [hinstance] at hlabel
    exact not_unescaped_paint indent .key e.type hlabel
  | some name =>
    rw [hinstance] at hlabel
    exact not_unescaped_paint indent .dim e.type (unescaped_append.1 hlabel).2

end Parts

/-! ## Module reports -/

section Modules

open ModuleRecord

variable (t : Terminal) (indent : ℤ) {rs : List ModuleRecord}
  {groups : List (String × List ModuleRecord)}

/-- The lines of the block of a group. -/
def blockLines (g : String × List ModuleRecord) : List String :=
  t.paint .banner (g.1 ++ " ") :: "" :: g.2.flatMap t.moduleLines

/-- The blocks end with the instances of a module and an empty line. -/
theorem exists_blockLines_eq (hgroups : IsStablePartition rs groups) (hne : rs ≠ []) :
    ∃ r ∈ rs, ∃ above, groups.flatMap t.blockLines =
      above ++ [t.field "instances:  " (r.instances.map Instance.describe)] ++ [""] := by
  obtain ⟨before, g, hlast⟩ := (List.eq_nil_or_concat groups).resolve_left
    (mt hgroups.eq_nil_iff.1 hne)
  rw [List.concat_eq_append] at hlast
  have hg : g ∈ groups := hlast ▸ List.mem_append_right _ List.mem_cons_self
  obtain ⟨records, r, hrecords⟩ := (List.eq_nil_or_concat g.2).resolve_left (hgroups.ne_nil hg)
  rw [List.concat_eq_append] at hrecords
  have hr : r ∈ g.2 := hrecords ▸ List.mem_append_right _ List.mem_cons_self
  have hmodule : [t.field "instances:  " (r.instances.map Instance.describe), ""] <:+
      t.moduleLines r := ⟨[_, _, _, _], rfl⟩
  have hblock : t.moduleLines r <:+ t.blockLines g := by
    rw [blockLines, hrecords, List.flatMap_append, List.flatMap_singleton]
    exact (List.suffix_append _ _).trans ((List.suffix_cons _ _).trans (List.suffix_cons _ _))
  have hreport : t.blockLines g <:+ groups.flatMap t.blockLines := by
    rw [hlast, List.flatMap_append, List.flatMap_singleton]
    exact List.suffix_append _ _
  obtain ⟨above, hlines⟩ := (hmodule.trans hblock).trans hreport
  exact ⟨r, hgroups.mem_records hg hr, above, by rw [← hlines, List.append_assoc]; rfl⟩

/-- **The end of a module report is that of its last module**: of the lines of
all blocks, it has all but the empty one at the end. -/
theorem modules_eq_intercalate (hgroups : IsStablePartition rs groups)
    (h : ∀ r ∈ rs, ∀ i ∈ r.instances, '\n' ∉ i.name.toList) :
    t.modules rs = String.intercalate "\n" (groups.flatMap t.blockLines).dropLast := by
  have hblocks : String.intercalate "\n" (groups.map fun g => t.fileBlock g.1 g.2) =
      String.intercalate "\n" (groups.flatMap t.blockLines) :=
    intercalate_flatMap fun g _ => List.cons_ne_nil _ _
  rw [t.modules_eq hgroups, hblocks]
  rcases eq_or_ne rs [] with rfl | hne
  · rw [hgroups.eq_nil_iff.2 rfl]
    rfl
  · obtain ⟨r, hr, above, hlines⟩ := t.exists_blockLines_eq hgroups hne
    have hdescribed : ∀ v ∈ r.instances.map Instance.describe, Ended v := by
      intro v hv
      obtain ⟨i, hi, rfl⟩ := List.mem_map.1 hv
      exact Instance.ended_describe (h r hr i hi)
    -- the instances are not empty, coloured or not, so only the line feed after them goes
    have hended := ended_intercalate (List.getLast?_concat (l := above))
      (t.ended_field "instances:  " hdescribed)
    rw [hlines, List.dropLast_concat, String.intercalate_append_of_ne_nil (by simp) (by simp),
      String.intercalate_singleton, String.append_empty, hended.stripLineFeeds_append]

theorem decorates_modules
    (h : ∀ r ∈ rs, (∀ s ∈ r.texts, Unescaped s) ∧ ∀ i ∈ r.instances, '\n' ∉ i.name.toList) :
    Decorates (modules ⟨true, indent⟩ rs) (modules ⟨false, indent⟩ rs) := by
  have hgroups := isStablePartition_byFile rs
  have hended : ∀ r ∈ rs, ∀ i ∈ r.instances, '\n' ∉ i.name.toList := fun r hr => (h r hr).2
  have hlines : List.Forall₂ Decorates ((byFile rs).entries.flatMap (blockLines ⟨true, indent⟩))
      ((byFile rs).entries.flatMap (blockLines ⟨false, indent⟩)) := by
    refine List.rel_flatten (forall₂_map_map fun g hg => ?_)
    -- the banner shows the path that the records of the group have
    obtain ⟨r, hr⟩ := List.exists_mem_of_ne_nil _ (hgroups.ne_nil hg)
    have hpath : Unescaped g.1 := by
      obtain ⟨-, hpath, -⟩ := forall_mem_texts.1 (h r (hgroups.mem_records hg hr)).1
      exact hgroups.path_eq hg hr ▸ hpath
    have hbanner := decorates_paint indent .banner
      (unescaped_append.2 ⟨hpath, (by decide : Unescaped " ")⟩)
    have hmodules := List.rel_flatten (forall₂_map_map fun r hr =>
      decorates_moduleLines indent (h r (hgroups.mem_records hg hr)).1)
    exact .cons hbanner (.cons (.refl (by decide)) hmodules)
  rw [modules_eq_intercalate _ hgroups hended, modules_eq_intercalate _ hgroups hended,
    List.dropLast_eq_take, List.dropLast_eq_take, hlines.length_eq]
  exact .intercalate (List.forall₂_take _ hlines)

/-- A coloured module report without control sequences is empty. -/
theorem unescaped_modules_iff (h : ∀ r ∈ rs, ∀ i ∈ r.instances, '\n' ∉ i.name.toList) :
    Unescaped (modules ⟨true, indent⟩ rs) ↔ rs = [] := by
  have hgroups := isStablePartition_byFile rs
  constructor
  · intro hreport
    by_contra hne
    obtain ⟨r, -, above, hlines⟩ := exists_blockLines_eq ⟨true, indent⟩ hgroups hne
    rw [modules_eq_intercalate _ hgroups h, hlines, List.dropLast_concat] at hreport
    exact not_unescaped_field indent _ _
      (hreport.of_intercalate _ (List.mem_append_right above List.mem_cons_self))
  · rintro rfl
    exact (by decide : Unescaped "")

end Modules

/-! ## All reports -/

theorem decorates_hierarchy (indent : ℤ) {es : List Entry}
    (h : ∀ e ∈ es, Unescaped e.type ∧ ∀ name ∈ e.instance?, Unescaped name) :
    Decorates (hierarchy ⟨true, indent⟩ es) (hierarchy ⟨false, indent⟩ es) :=
  .intercalate (forall₂_map_map fun e he => decorates_entryLine indent (h e he).1 (h e he).2)

theorem unescaped_hierarchy_iff (indent : ℤ) (es : List Entry) :
    Unescaped (hierarchy ⟨true, indent⟩ es) ↔ es = [] := by
  constructor
  · intro h
    rcases es with - | ⟨e, es⟩
    · rfl
    · exact absurd (h.of_intercalate _ List.mem_cons_self) (not_unescaped_entryLine indent e)
  · rintro rfl
    exact (by decide : Unescaped "")

/-- **Colours only decorate.** Where no name or path has an escape character,
deleting the control sequences of a coloured report leaves the report without
colours, in which there are none, whatever the indentation is. Module reports
are stripped of the line feeds at their end, so there the names of instances
have none. Every coloured report but an empty one has control sequences. -/
theorem colours_only_decorate (d : Dialect) (indent : ℤ) :
    (∀ rs : List ModuleRecord,
      (∀ r ∈ rs, (∀ s ∈ r.texts, Unescaped s) ∧ ∀ i ∈ r.instances, '\n' ∉ i.name.toList) →
        d.delete (modules ⟨true, indent⟩ rs) = modules ⟨false, indent⟩ rs ∧
        Unescaped (modules ⟨false, indent⟩ rs) ∧
        (Unescaped (modules ⟨true, indent⟩ rs) ↔ rs = [])) ∧
    (∀ names : List String, (∀ s ∈ names, Unescaped s) →
        d.delete (tops ⟨true, indent⟩ names) = tops ⟨false, indent⟩ names ∧
        Unescaped (tops ⟨false, indent⟩ names) ∧
        ¬ Unescaped (tops ⟨true, indent⟩ names)) ∧
    (∀ es : List Entry,
      (∀ e ∈ es, Unescaped e.type ∧ ∀ name ∈ e.instance?, Unescaped name) →
        d.delete (hierarchy ⟨true, indent⟩ es) = hierarchy ⟨false, indent⟩ es ∧
        Unescaped (hierarchy ⟨false, indent⟩ es) ∧
        (Unescaped (hierarchy ⟨true, indent⟩ es) ↔ es = [])) := by
  refine ⟨fun rs h => ?_, fun names h => ?_, fun es h => ?_⟩
  · have hreport := decorates_modules indent h
    exact ⟨hreport.delete_eq d, hreport.unescaped,
      unescaped_modules_iff indent fun r hr => (h r hr).2⟩
  · have hreport : Decorates (tops ⟨true, indent⟩ names) (tops ⟨false, indent⟩ names) :=
      decorates_field indent (by decide) h
    exact ⟨hreport.delete_eq d, hreport.unescaped, not_unescaped_field indent _ names⟩
  · have hreport := decorates_hierarchy indent h
    exact ⟨hreport.delete_eq d, hreport.unescaped, unescaped_hierarchy_iff indent es⟩

/-- Two modules of one file with one of another between them. -/
def parted : List ModuleRecord := [
  ⟨"a.sv", "top", ["clk", "rst"], [], [], [⟨"u", "core"⟩]⟩,
  ⟨"b.sv", "core", [], ["W"], [], [⟨"v", "alu"⟩, ⟨"", ""⟩]⟩,
  ⟨"a.sv", "alu", [], [], ["p::*"], []⟩]

/-- The last block has an instance without names, so the plain report ends with
a blank and the coloured one with a control sequence. -/
theorem parted_uncovered :
    (∀ r ∈ parted, (∀ s ∈ r.texts, Unescaped s) ∧ ∀ i ∈ r.instances, '\n' ∉ i.name.toList) ∧
      Dialect.codes.delete (modules ⟨true, 2⟩ parted) = modules ⟨false, 2⟩ parted ∧
      tops ⟨true, 2⟩ ["a", "b"] = "\x1b[33mtop modules: \x1b[0m\x1b[92ma\x1b[0m\n" ++
        "             \x1b[92mb\x1b[0m" ∧
      Dialect.anything.delete (tops ⟨true, 2⟩ ["a", "b"]) = "top modules: a\n             b" ∧
      hierarchy ⟨true, 3⟩ [⟨none, "m", 1, some "u", some "top", false⟩] =
        "   \x1b[92mu\x1b[0m \x1b[90mm\x1b[0m\x1b[90m (no declaration)\x1b[0m" ∧
      Dialect.codes.delete (hierarchy ⟨true, 3⟩ [⟨none, "m", 1, some "u", some "top", false⟩]) =
        "   u m (no declaration)" := by
  have hparted : ∀ r ∈ parted, (∀ s ∈ r.texts, Unescaped s) ∧
      ∀ i ∈ r.instances, '\n' ∉ i.name.toList := by decide +kernel
  have hmodules := (colours_only_decorate .codes 2).1 parted hparted
  have htops := (colours_only_decorate .anything 2).2.1 ["a", "b"] (by decide)
  have hhierarchy := (colours_only_decorate .codes 3).2.2
    [⟨none, "m", 1, some "u", some "top", false⟩] (by decide)
  refine ⟨hparted, hmodules.1, by decide +kernel, htops.1.trans (by decide +kernel),
    by decide +kernel, hhierarchy.1.trans (by decide +kernel)⟩

end Terminal

end DesignAtlas
