import DesignAtlas.Report.Terminal
import DesignAtlas.Proofs.Accumulation
import Mathlib.Data.List.Perm.Basic

/-!
# Records grouped by file

Records are grouped in one pass: each goes to the end of the group of its
file, and the first of a file opens a group. The groups are a stable
partition (`IsStablePartition`): they stand in the order in which their files
first occur, and each has the records of its file in their order. There is
only one such partition (`IsStablePartition.eq`), and nothing is lost or
repeated in it (`IsStablePartition.perm`).

Groups that follow each other are found again from their records alone
(`entries_byFile_flatMap`), so a report on the modules of a design is the same
when the records come file by file.
-/

namespace DesignAtlas

namespace ModuleRecord

variable {rs : List ModuleRecord} {m : OrderedMap String (List ModuleRecord)}
  {groups groups' : List (String × List ModuleRecord)}

/-- The records of a file, in their order. -/
def inFile (rs : List ModuleRecord) (path : String) : List ModuleRecord :=
  rs.filter fun r => r.path == path

theorem mem_inFile {r : ModuleRecord} {path : String} :
    r ∈ inFile rs path ↔ r ∈ rs ∧ r.path = path := by
  rw [inFile, List.mem_filter, beq_iff_eq]

theorem inFile_concat (rs : List ModuleRecord) (r : ModuleRecord) (path : String) :
    inFile (rs ++ [r]) path = if path = r.path then inFile rs path ++ [r] else inFile rs path := by
  rw [inFile, List.filter_append, List.filter_singleton]
  split
  · rename_i h
    rw [h, beq_self_eq_true]
    rfl
  · rename_i h
    rw [beq_eq_false_iff_ne.2 (Ne.symm h)]
    exact List.append_nil _

/-! ## Stable partitions -/

/-- **A stable partition of records by file.** -/
structure IsStablePartition (rs : List ModuleRecord) (groups : List (String × List ModuleRecord)) :
    Prop where
  /-- The files with a group are those of the records. -/
  mem_files : ∀ path, path ∈ groups.map Prod.fst ↔ ∃ r ∈ rs, r.path = path
  /-- The groups stand in the order in which their files first occur, and no
  file has two. -/
  first : (groups.map Prod.fst).Pairwise fun p q =>
    (rs.map ModuleRecord.path).idxOf p < (rs.map ModuleRecord.path).idxOf q
  /-- A group has exactly the records of its file, in their order. -/
  group : ∀ g ∈ groups, g.2 = inFile rs g.1

namespace IsStablePartition

theorem nodup (h : IsStablePartition rs groups) : (groups.map Prod.fst).Nodup :=
  h.first.imp fun hlt heq => absurd (heq ▸ hlt) (Nat.lt_irrefl _)

theorem eq_map (h : IsStablePartition rs groups) :
    groups = (groups.map Prod.fst).map fun path => (path, inFile rs path) := by
  rw [List.map_map]
  exact (List.map_id groups).symm.trans
    (List.map_congr_left fun g hg => Prod.ext rfl (h.group g hg))

theorem ne_nil (h : IsStablePartition rs groups) {g : String × List ModuleRecord}
    (hg : g ∈ groups) : g.2 ≠ [] := by
  obtain ⟨r, hr, hpath⟩ := (h.mem_files g.1).1 (List.mem_map_of_mem hg)
  rw [h.group g hg]
  exact List.ne_nil_of_mem (mem_inFile.2 ⟨hr, hpath⟩)

theorem path_eq (h : IsStablePartition rs groups) {g : String × List ModuleRecord}
    (hg : g ∈ groups) {r : ModuleRecord} (hr : r ∈ g.2) : r.path = g.1 := by
  rw [h.group g hg] at hr
  exact (mem_inFile.1 hr).2

theorem mem_records (h : IsStablePartition rs groups) {g : String × List ModuleRecord}
    (hg : g ∈ groups) {r : ModuleRecord} (hr : r ∈ g.2) : r ∈ rs := by
  rw [h.group g hg] at hr
  exact (mem_inFile.1 hr).1

/-- **Records have one stable partition only.** The files of both are the same
and in the same order, and they determine the groups. -/
theorem eq (h : IsStablePartition rs groups) (h' : IsStablePartition rs groups') :
    groups = groups' := by
  have hperm : (groups.map Prod.fst).Perm (groups'.map Prod.fst) :=
    (List.perm_ext_iff_of_nodup h.nodup h'.nodup).2 fun path =>
      (h.mem_files path).trans (h'.mem_files path).symm
  have hfiles : groups.map Prod.fst = groups'.map Prod.fst :=
    hperm.eq_of_pairwise (fun p q _ _ hpq hqp => absurd hqp (Nat.lt_asymm hpq)) h.first h'.first
  rw [h.eq_map, h'.eq_map, hfiles]

end IsStablePartition

/-- The records of different files, file by file, are those of all these
files. -/
theorem flatMap_inFile_perm (rs : List ModuleRecord) {paths : List String} (h : paths.Nodup) :
    (paths.flatMap (inFile rs)).Perm (rs.filter fun r => r.path ∈ paths) := by
  induction paths with
  | nil => simp
  | cons path paths ih =>
    obtain ⟨hnew, hrest⟩ := List.nodup_cons.1 h
    -- the records of the files are parted into those of the first and the others
    have hparts := List.filter_append_perm (fun r : ModuleRecord => r.path == path)
      (rs.filter fun r => r.path ∈ path :: paths)
    have hfirst : (rs.filter fun r => r.path ∈ path :: paths).filter (fun r => r.path == path) =
        inFile rs path := by
      rw [List.filter_filter, inFile]
      refine List.filter_congr fun r _ => ?_
      by_cases heq : r.path = path <;> simp [heq]
    have hothers : (rs.filter fun r => r.path ∈ path :: paths).filter
        (fun r => !(r.path == path)) = rs.filter fun r => r.path ∈ paths := by
      rw [List.filter_filter]
      refine List.filter_congr fun r _ => ?_
      by_cases heq : r.path = path
      · simp [heq, hnew]
      · simp [heq]
    rw [hfirst, hothers] at hparts
    rw [List.flatMap_cons]
    exact ((ih hrest).append_left _).trans hparts

/-- **Nothing is lost or repeated in a stable partition.** -/
theorem IsStablePartition.perm (h : IsStablePartition rs groups) :
    (groups.flatMap Prod.snd).Perm rs := by
  have hflat : groups.flatMap Prod.snd = (groups.map Prod.fst).flatMap (inFile rs) := by
    rw [List.flatMap_map]
    exact List.flatMap_congr fun g hg => h.group g hg
  have hall : (rs.filter fun r => r.path ∈ groups.map Prod.fst) = rs :=
    List.filter_eq_self.2 fun r hr => decide_eq_true ((h.mem_files r.path).2 ⟨r, hr, rfl⟩)
  have hfiles := flatMap_inFile_perm rs h.nodup
  rwa [← hflat, hall] at hfiles

/-! ## Grouping record by record -/

/-- **The groups of the records so far.** The files stand in the order in which
they first came, and a file has the records that came for it. -/
structure GroupedAs (rs : List ModuleRecord) (m : OrderedMap String (List ModuleRecord)) :
    Prop where
  keys : m.keys = (rs.map ModuleRecord.path).eraseDups
  get? : ∀ path, (m.get? path).getD [] = inFile rs path

theorem groupedAs_empty : GroupedAs [] .empty := ⟨rfl, fun _ => rfl⟩

/-- One record more. -/
theorem GroupedAs.fileUnder (h : GroupedAs rs m) (r : ModuleRecord) :
    GroupedAs (rs ++ [r]) (ModuleRecord.fileUnder m r) where
  keys := by
    rw [List.map_append]
    exact OrderedMap.keys_insert h.keys r.path _
  get? := by
    intro path
    rw [ModuleRecord.fileUnder, OrderedMap.get?_insert, inFile_concat, h.get?]
    split
    · rename_i hpath
      rw [hpath]
      rfl
    · exact h.get? path

theorem groupedAs_byFile (rs : List ModuleRecord) : GroupedAs rs (byFile rs) := by
  induction rs using List.reverseRecOn with
  | nil => exact groupedAs_empty
  | append_singleton rs r ih =>
    rw [byFile, List.foldl_concat]
    exact ih.fileUnder r

theorem GroupedAs.isStablePartition (h : GroupedAs rs m) : IsStablePartition rs m.entries where
  mem_files path := by
    rw [← OrderedMap.keys, h.keys, List.mem_eraseDups, List.mem_map]
  first := by
    rw [← OrderedMap.keys, h.keys]
    exact OrderedMap.eraseDups_pairwise _
  group g hg := by
    rw [← h.get? g.1, OrderedMap.get?_eq_some_iff.2 hg, Option.getD_some]

/-- **The groups of a pass over records are their stable partition.** -/
theorem isStablePartition_byFile (rs : List ModuleRecord) :
    IsStablePartition rs (byFile rs).entries :=
  (groupedAs_byFile rs).isStablePartition

theorem IsStablePartition.eq_nil_iff (h : IsStablePartition rs groups) : groups = [] ↔ rs = [] := by
  constructor
  · rintro rfl
    exact h.perm.symm.eq_nil
  · rintro rfl
    exact h.eq (isStablePartition_byFile [])

/-! ## Grouping what is grouped -/

/-- The records of a file that has no group yet make up the last group. -/
theorem entries_foldl_fileUnder {path : String} (hnew : path ∉ m.keys) {group : List ModuleRecord}
    (hne : group ≠ []) (h : ∀ r ∈ group, r.path = path) :
    (group.foldl ModuleRecord.fileUnder m).entries = m.entries ++ [(path, group)] := by
  induction group using List.reverseRecOn with
  | nil => exact absurd rfl hne
  | append_singleton group r ih =>
    obtain ⟨hgroup, hr⟩ := List.forall_mem_append.1 h
    rw [List.forall_mem_singleton] at hr
    rw [List.foldl_concat]
    rcases eq_or_ne group [] with rfl | hsome
    · have hnone : m.get? path = none := OrderedMap.get?_eq_none_iff.2 hnew
      rw [List.foldl_nil, ModuleRecord.fileUnder, hr, hnone]
      exact upsert_of_notMem hnew
    · have hentries := ih hsome hgroup
      have hget : (group.foldl ModuleRecord.fileUnder m).get? path = some group :=
        OrderedMap.get?_eq_some_iff.2 (hentries ▸ List.mem_append_right _ List.mem_cons_self)
      rw [ModuleRecord.fileUnder, hr, hget]
      change upsert path (group ++ [r]) (group.foldl ModuleRecord.fileUnder m).entries = _
      rw [hentries]
      exact upsert_concat hnew group

/-- **Groups that follow each other are found again**, if each is of one file
and no two are of the same. -/
theorem entries_byFile_flatMap (hnodup : (groups.map Prod.fst).Nodup)
    (h : ∀ g ∈ groups, g.2 ≠ [] ∧ ∀ r ∈ g.2, r.path = g.1) :
    (byFile (groups.flatMap Prod.snd)).entries = groups := by
  induction groups using List.reverseRecOn with
  | nil => rfl
  | append_singleton groups g ih =>
    obtain ⟨hgroups, hlast⟩ := List.forall_mem_append.1 h
    obtain ⟨hne, hpath⟩ := List.forall_mem_singleton.1 hlast
    rw [List.map_append, List.nodup_append] at hnodup
    have hentries := ih hnodup.1 hgroups
    have hnew : g.1 ∉ (byFile (groups.flatMap Prod.snd)).keys := by
      rw [OrderedMap.keys, hentries]
      exact fun hmem => hnodup.2.2 _ hmem _ List.mem_cons_self rfl
    have hstep := entries_foldl_fileUnder hnew hne hpath
    rw [hentries] at hstep
    rw [List.flatMap_append, List.flatMap_singleton, byFile, List.foldl_append]
    exact hstep

theorem IsStablePartition.entries_byFile (h : IsStablePartition rs groups) :
    (byFile (groups.flatMap Prod.snd)).entries = groups :=
  entries_byFile_flatMap h.nodup fun _ hg => ⟨h.ne_nil hg, fun _ hr => h.path_eq hg hr⟩

end ModuleRecord

/-- The blocks of a module report are those of the stable partition. -/
theorem Terminal.modules_eq (t : Terminal) {rs : List ModuleRecord}
    {groups : List (String × List ModuleRecord)} (h : ModuleRecord.IsStablePartition rs groups) :
    t.modules rs = Text.stripLineFeeds
      (String.intercalate "\n" (groups.map fun g => t.fileBlock g.1 g.2)) := by
  rw [h.eq (ModuleRecord.isStablePartition_byFile rs)]
  rfl

namespace Analysis

open ModuleRecord

/-- **Grouping by file is a stable partition, in an analysis and in a module
report alike.** The groups of an analysis stand in the order in which their
files first occur among the records, each with the records of its file in their
order, and all of them together have every record once. A module report has a
block for each group of the same partition, and it is the same text when the
records come group by group. -/
theorem records_grouped_stably (a : Analysis) (t : Terminal) :
    IsStablePartition a.records a.recordsByFile.entries ∧
    a.recordsByFile.values.flatten.Perm a.records ∧
    (∀ groups, IsStablePartition a.records groups →
      groups = a.recordsByFile.entries ∧
      t.modules a.records = Text.stripLineFeeds
        (String.intercalate "\n" (groups.map fun g => t.fileBlock g.1 g.2))) ∧
    t.modules a.recordsByFile.values.flatten = t.modules a.records := by
  have hgroups : IsStablePartition a.records a.recordsByFile.entries :=
    isStablePartition_byFile a.records
  refine ⟨hgroups, hgroups.perm, fun groups h => ⟨h.eq hgroups, t.modules_eq h⟩, ?_⟩
  have hagain : IsStablePartition a.recordsByFile.values.flatten a.recordsByFile.entries :=
    hgroups.entries_byFile ▸ isStablePartition_byFile a.recordsByFile.values.flatten
  rw [t.modules_eq hagain, t.modules_eq hgroups]

/-- A file is loaded again after another one, with a different module. -/
def reloaded : Analysis :=
  (Analysis.empty.runCalls .verible .replace
    [.ofList [("b.sv", .declaring "m"), ("a.sv", .declaring "n")],
      .ofList [("b.sv", .declaring "k")]]).1

/-- Its modules are those of two files in turn. The group of the file that came
first stays first, and the module that came last joins it. -/
theorem reloaded_grouped :
    ∃ m n k : ModuleRecord, reloaded.records = [m, n, k] ∧
      reloaded.recordsByFile.entries = [("b.sv", [m, k]), ("a.sv", [n])] ∧
      IsStablePartition [m, n, k] [("b.sv", [m, k]), ("a.sv", [n])] ∧
      ∀ t : Terminal, t.modules [m, k, n] = t.modules [m, n, k] := by
  refine ⟨⟨"b.sv", "m", [], [], [], []⟩, ⟨"a.sv", "n", [], [], [], []⟩,
    ⟨"b.sv", "k", [], [], [], []⟩, ?_⟩
  have hrecords : reloaded.records = [⟨"b.sv", "m", [], [], [], []⟩,
      ⟨"a.sv", "n", [], [], [], []⟩, ⟨"b.sv", "k", [], [], [], []⟩] := by decide +kernel
  have hentries : reloaded.recordsByFile.entries = [("b.sv", [⟨"b.sv", "m", [], [], [], []⟩,
      ⟨"b.sv", "k", [], [], [], []⟩]), ("a.sv", [⟨"a.sv", "n", [], [], [], []⟩])] := by
    decide +kernel
  have hpartition := (records_grouped_stably reloaded ⟨true, 2⟩).1
  refine ⟨hrecords, hentries, by rwa [hrecords, hentries] at hpartition, fun t => ?_⟩
  have hreport := (records_grouped_stably reloaded t).2.2.2
  rw [OrderedMap.values, hentries, hrecords] at hreport
  exact hreport

end Analysis

end DesignAtlas
