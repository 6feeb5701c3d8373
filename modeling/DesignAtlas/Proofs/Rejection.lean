import DesignAtlas.Proofs.Accumulation
import Mathlib.Data.List.Dedup
import Mathlib.Data.List.Perm.Lattice

/-!
# What a rejection leaves

Where second modules of a name are rejected, a rejection ends the call that
met it. The design is not touched by it and holds the first record of every
name. But the record was listed before the design was asked, and it stays
listed (`Analysis.HoldsFirst.reject`).

`Analysis.Takes` says which records of a call are listed: all, or those up
to the rejected one. `Analysis.HoldsFirst` says how the design and the list
of records stand to each other after some rejections. Both hold of whatever
is added, record by record (`Analysis.Admits`). So after any calls the list
is longer than the design by one record for each rejection, and the two are
in step only if nothing was rejected (`strict_calls_hold_first`).
-/

namespace DesignAtlas

/-- A list without repeats has nothing to erase. -/
theorem eraseDups_of_nodup {α : Type} [DecidableEq α] {xs : List α} (h : xs.Nodup) :
    xs.eraseDups = xs := by
  induction xs with
  | nil => rfl
  | cons a xs ih =>
    obtain ⟨ha, hxs⟩ := List.nodup_cons.1 h
    have hkeep : ∀ b ∈ xs, (!b == a) = true := by
      intro b hb
      have hne : b ≠ a := fun heq => ha (heq ▸ hb)
      simp [hne]
    rw [List.eraseDups_cons, List.filter_eq_self.2 hkeep, ih hxs]

theorem OrderedMap.size_eq_length_keys {κ ν : Type} (m : OrderedMap κ ν) :
    m.size = m.keys.length := by
  rw [keys, List.length_map, size]

/-- What becomes of a record where second ones of a name are rejected. -/
theorem Design.add_reject_cases (d : Design) (r : ModuleRecord) :
    (∃ old, d.get? r.name = some old ∧ d.add .reject r = .error ⟨r.name, old.path, r.path⟩) ∨
      (d.get? r.name = none ∧ d.add .reject r = .ok (d.put r)) := by
  unfold add
  rcases d.get? r.name with - | old
  · exact Or.inr ⟨rfl, rfl⟩
  · exact Or.inl ⟨old, rfl, rfl⟩

namespace Analysis

variable {a : Analysis} {rejected : ℕ} {r : ModuleRecord}

/-- **The design holds the first record of every name**, in the order of the
records, and each of the other records was rejected. -/
structure HoldsFirst (a : Analysis) (rejected : ℕ) : Prop where
  keys : a.design.keys = (a.records.map ModuleRecord.name).eraseDups
  first : ∀ name, a.design.get? name = a.records.find? fun r => r.name == name
  count : a.records.length = a.design.size + rejected

theorem holdsFirst_empty : Analysis.empty.HoldsFirst 0 := ⟨rfl, fun _ => rfl, rfl⟩

namespace HoldsFirst

/-! ## One record -/

/-- A record of a new name is held and listed. -/
theorem accept (h : a.HoldsFirst rejected) (hnew : a.design.get? r.name = none) :
    HoldsFirst { a with records := a.records ++ [r], design := (a.design.put r).1 } rejected where
  keys := by
    rw [List.map_append]
    exact OrderedMap.keys_insert h.keys r.name r
  first := by
    intro name
    have hget : (a.design.put r).1.get? name =
        if name = r.name then some r else a.design.get? name := OrderedMap.get?_insert
    rw [hget, List.find?_append, ← h.first, List.find?_singleton]
    by_cases hname : name = r.name
    · subst hname
      simp [hnew]
    · simp [hname, Ne.symm hname]
  count := by
    have hkey : r.name ∉ a.design.keys := OrderedMap.get?_eq_none_iff.1 hnew
    have hkeys : (a.design.put r).1.keys = a.design.keys ++ [r.name] :=
      (keys_upsert r.name r a.design.entries).trans (if_neg hkey)
    have hcount := h.count
    rw [OrderedMap.size_eq_length_keys] at hcount ⊢
    simp only [hkeys, List.length_append, List.length_singleton, hcount]
    omega

/-- **A rejected record is listed although it is not held.** -/
theorem reject (h : a.HoldsFirst rejected) {old : ModuleRecord}
    (hold : a.design.get? r.name = some old) :
    HoldsFirst { a with records := a.records ++ [r] } (rejected + 1) where
  keys := by
    have hmem : r.name ∈ a.records.map ModuleRecord.name := by
      rw [← List.mem_eraseDups, ← h.keys]
      exact OrderedMap.exists_get?_iff.1 ⟨old, hold⟩
    rw [List.map_append, List.map_singleton, OrderedMap.eraseDups_concat, if_pos hmem]
    exact h.keys
  first := by
    intro name
    rw [List.find?_append, ← h.first, List.find?_singleton]
    by_cases hname : name = r.name
    · subst hname
      simp [hold]
    · simp [Ne.symm hname]
  count := by
    have hcount := h.count
    simp only [List.length_append, List.length_singleton]
    omega

/-! ## In step -/

/-- **The names are all different only if nothing was rejected.** -/
theorem nodup_iff (h : a.HoldsFirst rejected) :
    (a.records.map ModuleRecord.name).Nodup ↔ rejected = 0 := by
  -- The keys are the names without repeats, so they are fewer than the records
  -- by the number of repeats.
  have hperm : a.design.keys.Perm (a.records.map ModuleRecord.name).dedup := by
    refine (List.perm_ext_iff_of_nodup a.design.nodup (List.nodup_dedup _)).2 fun name => ?_
    rw [← OrderedMap.keys, h.keys, List.mem_eraseDups, List.mem_dedup]
  have hlength : (a.records.map ModuleRecord.name).dedup.length = a.design.size := by
    rw [OrderedMap.size_eq_length_keys, hperm.length_eq]
  have hcount := h.count
  rw [← List.dedup_eq_self]
  constructor
  · intro hself
    rw [hself, List.length_map] at hlength
    omega
  · intro hzero
    refine (List.dedup_sublist _).eq_of_length ?_
    rw [hlength, List.length_map]
    omega

/-- **The design holds the records as listed only if nothing was
rejected.** -/
theorem values_eq_iff (h : a.HoldsFirst rejected) :
    a.design.values = a.records ↔ rejected = 0 := by
  constructor
  · intro hvalues
    have hlength : a.design.size = a.records.length := by
      rw [← hvalues, OrderedMap.values, List.length_map, OrderedMap.size]
    have hcount := h.count
    omega
  · intro hzero
    have hnodup := h.nodup_iff.2 hzero
    have hheld : ∀ r ∈ a.records, (a.design.get? ∘ ModuleRecord.name) r = some r := by
      intro r hr
      rcases hfirst : a.records.find? fun s => s.name == r.name with - | s
      · exact absurd (beq_self_eq_true r.name) (List.find?_eq_none.1 hfirst r hr)
      · have hfound := List.find?_some hfirst
        have hname : s.name = r.name := beq_iff_eq.1 hfound
        have hs := List.inj_on_of_nodup_map hnodup (List.mem_of_find?_eq_some hfirst) hr hname
        rw [Function.comp_apply, h.first, hfirst, hs]
    rw [OrderedMap.values_eq_filterMap, h.keys, eraseDups_of_nodup hnodup, List.filterMap_map,
      List.filterMap_eq_map_iff_forall_eq_some.2 hheld]
    exact List.map_id _

end HoldsFirst

/-! ## Records, files and calls -/

/-- **What becomes of a list when records are added to it**: it takes all of
them, or those up to the first that is rejected. The rejection names the
record's module, the file of the first record of that name and its own. -/
inductive Takes (rs listed : List ModuleRecord) : Option Duplicate → List ModuleRecord → Prop
  | all : Takes rs listed none (listed ++ rs)
  | upTo {before after : List ModuleRecord} {r old : ModuleRecord}
      (split : rs = before ++ r :: after)
      (first : ((listed ++ before).find? fun s => s.name == r.name) = some old) :
      Takes rs listed (some ⟨r.name, old.path, r.path⟩) (listed ++ before ++ [r])

namespace Takes

variable {rs later listed middle last : List ModuleRecord}

/-- Records that come after a rejection are not taken. -/
theorem stop {e : Duplicate} (h : Takes rs listed (some e) last) :
    Takes (rs ++ later) listed (some e) last := by
  rcases h with - | ⟨hsplit, hfirst⟩
  exact .upTo (by rw [hsplit, List.append_assoc, List.cons_append]) hfirst

theorem trans {rejected? : Option Duplicate} (h : Takes rs listed none middle)
    (hlater : Takes later middle rejected? last) : Takes (rs ++ later) listed rejected? last := by
  rcases h with - | -
  rcases hlater with - | ⟨hsplit, hfirst⟩
  · rw [List.append_assoc]
    exact .all
  · rw [List.append_assoc listed] at hfirst ⊢
    exact .upTo (by rw [hsplit, List.append_assoc]) hfirst

end Takes

/-- What adding records to an analysis comes to. -/
structure Admits (a : Analysis) (rejected : ℕ) (rs : List ModuleRecord) (added : Added) : Prop where
  takes : Takes rs a.records added.rejected? added.analysis.records
  holds : added.analysis.HoldsFirst (rejected + added.rejected?.toList.length)

theorem admits_nil (h : a.HoldsFirst rejected) : Admits a rejected [] ⟨a, none, []⟩ where
  takes := by
    have hall : Takes [] a.records none (a.records ++ []) := .all
    rwa [List.append_nil] at hall
  holds := h

/-- **Records are admitted up to the first that repeats a name.** -/
theorem admits_addRecords (h : a.HoldsFirst rejected) (rs : List ModuleRecord) :
    Admits a rejected rs (a.addRecords .reject rs) := by
  induction rs generalizing a with
  | nil => exact admits_nil h
  | cons r rs ih =>
    rw [addRecords]
    rcases a.design.add_reject_cases r with ⟨old, hold, hadd⟩ | ⟨hnew, hadd⟩
    -- What the design holds is the first listed, so the rejection names its file.
    · simp only [hadd]
      have hfirst : ((a.records ++ []).find? fun s => s.name == r.name) = some old := by
        rw [List.append_nil, ← h.first, hold]
      have htakes : Takes (r :: rs) a.records _ (a.records ++ [] ++ [r]) := .upTo rfl hfirst
      rw [List.append_nil] at htakes
      exact ⟨htakes, h.reject hold⟩
    · simp only [hadd]
      obtain ⟨htakes, hholds⟩ := ih (h.accept hnew)
      have hone : Takes [r] a.records none (a.records ++ [r]) := .all
      exact ⟨hone.trans htakes, hholds⟩

theorem admits_addFile (h : a.HoldsFirst rejected) (v : Vocabulary) (path : String)
    (file : ParsedFile) :
    Admits a rejected (v.recordsOf [(path, file)]) (a.addFile v .reject path file) := by
  have hfiles : HoldsFirst { a with files := a.files.insert path file } rejected :=
    ⟨h.keys, h.first, h.count⟩
  obtain ⟨htakes, hholds⟩ := admits_addRecords hfiles (v.extract path file.tree?).1
  rw [v.recordsOf_singleton]
  exact ⟨htakes, hholds⟩

/-- **So are the records of files**, one file after the other. -/
theorem admits_addFiles (h : a.HoldsFirst rejected) (v : Vocabulary)
    (added : List (String × ParsedFile)) :
    Admits a rejected (v.recordsOf added) (a.addFiles v .reject added) := by
  induction added generalizing a with
  | nil => exact admits_nil h
  | cons x added ih =>
    obtain ⟨path, file⟩ := x
    obtain ⟨htakes, hholds⟩ := admits_addFile h v path file
    rw [addFiles, ← List.singleton_append, v.recordsOf_append]
    rcases hrejected : (a.addFile v .reject path file).rejected? with - | e
    · rw [hrejected] at htakes hholds
      obtain ⟨hlater, hlast⟩ := ih hholds
      exact ⟨htakes.trans hlater, hlast⟩
    -- The file's own rejection ends the call: the files after it add no records.
    · rw [hrejected] at htakes
      simp only
      refine ⟨?_, hholds⟩
      rw [hrejected]
      exact htakes.stop

/-- **After any calls the design holds the first record of every name.** -/
theorem holdsFirst_runCalls (h : a.HoldsFirst rejected) (v : Vocabulary)
    (calls : List ParsedFiles) :
    (a.runCalls v .reject calls).1.HoldsFirst
      (rejected + (a.runCalls v .reject calls).2.length) := by
  induction calls generalizing a rejected with
  | nil => exact h
  | cons files calls ih =>
    have hcalls := ih (admits_addFiles h v files.entries).holds
    rw [runCalls]
    simp only [List.length_append, ← Nat.add_assoc]
    exact hcalls

/-- **Calls that reject keep the first record of every name.** After any
calls the design holds it, in the order in which the names first came, and
the list of records has one more for each rejection. So the names in the
list are all different, and the design holds the list as it is, exactly when
no call was rejected. And one more call takes all records of its files, or
those up to the first that it rejects, with that one. -/
theorem strict_calls_hold_first (v : Vocabulary) (calls : List ParsedFiles) :
    let run := Analysis.empty.runCalls v .reject calls
    run.1.HoldsFirst run.2.length ∧
    ((run.1.records.map ModuleRecord.name).Nodup ↔ run.2 = []) ∧
    (run.1.design.values = run.1.records ↔ run.2 = []) ∧
    ∀ files : ParsedFiles,
      let next := Analysis.empty.runCalls v .reject (calls ++ [files])
      ∃ rejected?, Takes (v.extractAll files).1 run.1.records rejected? next.1.records ∧
        next.2 = run.2 ++ rejected?.toList := by
  intro run
  have hholds : run.1.HoldsFirst run.2.length := by
    have hrun := holdsFirst_runCalls holdsFirst_empty v calls
    rwa [Nat.zero_add] at hrun
  refine ⟨hholds, ?_, ?_, ?_⟩
  · rw [hholds.nodup_iff, List.length_eq_zero_iff]
  · rw [hholds.values_eq_iff, List.length_eq_zero_iff]
  · intro files next
    have hnext : next = ((run.1.addFiles v .reject files.entries).analysis,
        run.2 ++ ((run.1.addFiles v .reject files.entries).rejected?.toList ++ [])) :=
      runCalls_append v .reject .empty calls [files]
    rw [hnext, v.fst_extractAll, List.append_nil]
    exact ⟨_, (admits_addFiles hholds v files.entries).takes, rfl⟩

/-- A module, another one of its name, and a third one, in a call each. -/
def secondRejected : List ParsedFiles :=
  [.ofList [("a.sv", .declaring "m")], .ofList [("b.sv", .declaring "m")],
    .ofList [("c.sv", .declaring "n")]]

/-- The rejected record stays between the two that are held. -/
theorem rejected_module_stays_listed :
    let run := Analysis.empty.runCalls .verible .reject secondRejected
    run.1.records.map ModuleRecord.name = ["m", "m", "n"] ∧
      run.1.design.keys = ["m", "n"] ∧
      ¬ (run.1.records.map ModuleRecord.name).Nodup ∧ run.1.design.values ≠ run.1.records := by
  decide +kernel

end Analysis

end DesignAtlas
