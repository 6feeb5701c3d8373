import DesignAtlas.Proofs.Accumulation
import DesignAtlas.Proofs.Coverage

/-!
# Top modules of a list of records

A list of records may define a name any number of times. Its design holds
the last record of each name (`get?_ofRecords`), in the place where the name
first came (`keys_ofRecords_eq`). So the top modules are the names that no
last record of another name instantiates, and what an overridden record
instantiates plays no part.
-/

namespace DesignAtlas

namespace ModuleRecord

/-- **The last record of a name** in a list. -/
def lastNamed (rs : List ModuleRecord) (name : String) : Option ModuleRecord :=
  (rs.filter fun r => r.name = name).getLast?

/-- One more record is the last of its name, and of no other. -/
theorem lastNamed_concat (rs : List ModuleRecord) (r : ModuleRecord) (name : String) :
    lastNamed (rs ++ [r]) name = if name = r.name then some r else lastNamed rs name := by
  rw [lastNamed, List.filter_append]
  by_cases h : name = r.name
  · have hone : ([r].filter fun r => r.name = name) = [r] := by simp [h]
    rw [hone, List.getLast?_concat, if_pos h]
  · have hnone : ([r].filter fun r => r.name = name) = [] := by simp [Ne.symm h]
    rw [hnone, List.append_nil, if_neg h, lastNamed]

/-- **The lists agree on what counts for the tops**: their names first come
in the same order, and the last records of a name have instances of the same
other modules. Records that are overridden, and the instances of a module
inside itself, may differ. -/
def AgreeAtLast (rs rs' : List ModuleRecord) : Prop :=
  (rs'.map name).eraseDups = (rs.map name).eraseDups ∧
    ∀ m r r', lastNamed rs m = some r → lastNamed rs' m = some r' →
      ∀ n, n ≠ m → (n ∈ r'.instanceTypes ↔ n ∈ r.instanceTypes)

end ModuleRecord

namespace Design

variable {rs rs' : List ModuleRecord} {n : String}

/-! ## The design of a list -/

/-- **The names stand in the order in which they first came.** -/
theorem keys_ofRecords_eq (rs : List ModuleRecord) :
    (ofRecords rs).1.keys = (rs.map ModuleRecord.name).eraseDups := by
  rw [fst_ofRecords]
  induction rs using List.reverseRecOn with
  | nil => rfl
  | append_singleton rs r ih =>
    rw [putAll_append, List.map_append]
    exact OrderedMap.keys_insert ih r.name r

/-- **Each name has its last record.** -/
theorem get?_ofRecords (rs : List ModuleRecord) (name : String) :
    (ofRecords rs).1.get? name = ModuleRecord.lastNamed rs name := by
  rw [fst_ofRecords]
  induction rs using List.reverseRecOn with
  | nil => rfl
  | append_singleton rs r ih =>
    rw [putAll_append, ModuleRecord.lastNamed_concat, ← ih]
    exact OrderedMap.get?_insert

theorem mem_keys_ofRecords : n ∈ (ofRecords rs).1.keys ↔ n ∈ rs.map ModuleRecord.name := by
  rw [keys_ofRecords_eq, List.mem_eraseDups]

/-! ## Its top modules -/

/-- **A top module is a name that no last record of another name
instantiates.** The record stands under its own name, so another record is
one of another name. -/
theorem mem_tops_ofRecords :
    n ∈ (ofRecords rs).1.tops ↔ n ∈ rs.map ModuleRecord.name ∧
      ∀ m r, m ≠ n → ModuleRecord.lastNamed rs m = some r → n ∉ r.instanceTypes := by
  rw [mem_tops_iff, mem_keys_ofRecords]
  refine and_congr_right fun _ => forall₂_congr fun m r => ?_
  rw [get?_ofRecords]
  constructor
  · intro h hne hlast
    have hname : r.name = m := named_ofRecords rs m r ((get?_ofRecords rs m).trans hlast)
    exact h hlast (hname ▸ hne)
  · intro h hlast hne
    have hname : r.name = m := named_ofRecords rs m r ((get?_ofRecords rs m).trans hlast)
    exact h (hname ▸ hne) hlast

theorem tops_ofRecords_pairwise (rs : List ModuleRecord) :
    (ofRecords rs).1.tops.Pairwise fun a b =>
      (rs.map ModuleRecord.name).idxOf a < (rs.map ModuleRecord.name).idxOf b := by
  have hkeys := OrderedMap.eraseDups_pairwise (rs.map ModuleRecord.name)
  rw [← keys_ofRecords_eq] at hkeys
  exact hkeys.sublist List.filter_sublist

end Design

namespace ModuleRecord.AgreeAtLast

variable {rs rs' : List ModuleRecord} {n : String}

theorem symm (h : AgreeAtLast rs rs') : AgreeAtLast rs' rs :=
  ⟨h.1.symm, fun m r r' hr hr' n hne => (h.2 m r' r hr' hr n hne).symm⟩

theorem keys_eq (h : AgreeAtLast rs rs') :
    (Design.ofRecords rs').1.keys = (Design.ofRecords rs).1.keys := by
  rw [Design.keys_ofRecords_eq, Design.keys_ofRecords_eq, h.1]

/-- **A top of one list is a top of the other.** A parent there is the last
record of its name; the name has a last record here too, with instances of
the same other modules. -/
theorem mem_tops (h : AgreeAtLast rs rs') (htop : n ∈ (Design.ofRecords rs).1.tops) :
    n ∈ (Design.ofRecords rs').1.tops := by
  obtain ⟨hname, hunused⟩ := Design.mem_tops_ofRecords.1 htop
  refine Design.mem_tops_ofRecords.2 ⟨?_, fun m r' hne hlast' => ?_⟩
  · rwa [← Design.mem_keys_ofRecords, h.keys_eq, Design.mem_keys_ofRecords]
  · have hkey : m ∈ (Design.ofRecords rs').1.keys :=
      Design.mem_keys_of_get? ((Design.get?_ofRecords rs' m).trans hlast')
    rw [h.keys_eq] at hkey
    obtain ⟨r, hr⟩ := OrderedMap.exists_get?_iff.2 hkey
    have hlast : lastNamed rs m = some r := (Design.get?_ofRecords rs m).symm.trans hr
    rw [h.2 m r r' hlast hlast' n hne.symm]
    exact hunused m r hne hlast

theorem tops_eq (h : AgreeAtLast rs rs') :
    (Design.ofRecords rs').1.tops = (Design.ofRecords rs).1.tops := by
  rw [Design.tops_eq_filter, h.keys_eq, Design.tops_eq_filter (Design.ofRecords rs).1]
  exact List.filter_congr fun n _ => decide_eq_decide.2 ⟨h.symm.mem_tops, h.mem_tops⟩

end ModuleRecord.AgreeAtLast

namespace Design

/-- **The top modules of any list of records.** They are listed once each, in
the order in which their names first occur: the names that no other name's
last record instantiates. Lists that differ in overridden records, or in
instances of a module inside itself, have the same tops. -/
theorem tops_decided_by_last_records (rs : List ModuleRecord) :
    (ofRecords rs).1.tops.Nodup ∧
      ((ofRecords rs).1.tops.Pairwise fun a b =>
        (rs.map ModuleRecord.name).idxOf a < (rs.map ModuleRecord.name).idxOf b) ∧
      (∀ n, n ∈ (ofRecords rs).1.tops ↔ n ∈ rs.map ModuleRecord.name ∧
        ∀ m r, m ≠ n → ModuleRecord.lastNamed rs m = some r → n ∉ r.instanceTypes) ∧
      ∀ rs', ModuleRecord.AgreeAtLast rs rs' → (ofRecords rs').1.tops = (ofRecords rs).1.tops := by
  have hordered := tops_ofRecords_pairwise rs
  have hnodup : (ofRecords rs).1.tops.Nodup :=
    hordered.imp fun {a b} hlt (heq : a = b) => Nat.lt_irrefl _ (heq ▸ hlt)
  exact ⟨hnodup, hordered, fun _ => mem_tops_ofRecords, fun _ h => h.tops_eq⟩

-- the first `a` holds the only instance of `c` by another module, and is overridden
example : (ofRecords [⟨"x.sv", "a", [], [], [], [⟨"u", "c"⟩]⟩,
    ⟨"x.sv", "c", [], [], [], [⟨"v", "c"⟩, ⟨"w", "b"⟩]⟩, ⟨"x.sv", "b", [], [], [], []⟩,
    ⟨"y.sv", "a", [], [], [], [⟨"u", "b"⟩]⟩]).1.tops = ["a", "c"] := by decide

end Design

end DesignAtlas
