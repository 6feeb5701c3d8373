import DesignAtlas.Proofs.Rejection
import DesignAtlas.Proofs.Tops

/-!
# Records added call by call

A design takes records one call at a time, and a caller may go on after a
rejection. `Design.attempts` makes the calls in order and keeps the outcome
of each.

What the design holds is read off the records of all calls so far. Where
later records replace earlier ones, a name has its last record, and a call
of a known name leaves one warning (`Replaces`). Where they are rejected, a
name has its first record, and a call of a known name leaves nothing but
its rejection (`Rejects`). Both hold after every run of calls, since one
more call keeps what the design holds in step with the records.
-/

namespace DesignAtlas

namespace Design

/-- What a call noted, or why it was rejected. -/
abbrev Outcome := Except Duplicate (List Event)

/-- **The design after some calls**, and the outcome of each in order. A
rejection ends its own call only. -/
def attempts (policy : NamePolicy) : Design → List ModuleRecord → Design × List Outcome
  | d, [] => (d, [])
  | d, r :: rs =>
    let next := d.attempt policy r
    let rest := attempts policy next.1 rs
    (rest.1, next.2 :: rest.2)

variable {d : Design} {r : ModuleRecord}

/-! ## One call in a run -/

theorem attempts_append (policy : NamePolicy) (d : Design) (rs later : List ModuleRecord) :
    (d.attempts policy (rs ++ later)).1 = ((d.attempts policy rs).1.attempts policy later).1 := by
  induction rs generalizing d with
  | nil => rfl
  | cons r rs ih =>
    rw [List.cons_append, attempts, attempts]
    exact ih (d.attempt policy r).1

theorem length_outcomes (policy : NamePolicy) (d : Design) (rs : List ModuleRecord) :
    (d.attempts policy rs).2.length = rs.length := by
  induction rs generalizing d with
  | nil => rfl
  | cons r rs ih =>
    rw [attempts, List.length_cons, List.length_cons]
    exact congrArg (· + 1) (ih (d.attempt policy r).1)

/-- **The outcome of a call is decided by the calls before it.** -/
theorem outcome_eq (policy : NamePolicy) (d : Design) (before after : List ModuleRecord)
    (r : ModuleRecord) :
    (d.attempts policy (before ++ r :: after)).2[before.length]? =
      some ((d.attempts policy before).1.attempt policy r).2 := by
  induction before generalizing d with
  | nil => rfl
  | cons b before ih =>
    rw [List.cons_append, attempts, List.length_cons, List.getElem?_cons_succ, attempts]
    exact ih (d.attempt policy b).1

theorem attempt_replace (d : Design) (r : ModuleRecord) :
    d.attempt .replace r = ((d.put r).1, .ok (d.put r).2) := rfl

/-- A call of a known name is rejected with the path of the record that is held. -/
theorem attempt_reject_known {old : ModuleRecord} (h : d.get? r.name = some old) :
    d.attempt .reject r = (d, .error ⟨r.name, old.path, r.path⟩) := by
  rcases d.add_reject_cases r with ⟨held, hheld, hadd⟩ | ⟨hnew, -⟩
  · obtain rfl : held = old := Option.some.inj (hheld.symm.trans h)
    rw [attempt, hadd]
  · exact absurd (hnew.symm.trans h) (Option.some_ne_none old).symm

theorem attempt_reject_new (h : d.get? r.name = none) :
    d.attempt .reject r = ((d.put r).1, .ok []) := by
  have hnoted : (d.put r).2 = [] := by rw [put, h]; rfl
  rcases d.add_reject_cases r with ⟨held, hheld, -⟩ | ⟨-, hadd⟩
  · exact absurd (h.symm.trans hheld) (Option.some_ne_none held).symm
  · rw [attempt, hadd]
    exact congrArg (fun noted => ((d.put r).1, Except.ok noted)) hnoted

/-! ## Calls that replace -/

theorem fst_attempts_replace (d : Design) (rs : List ModuleRecord) :
    (d.attempts .replace rs).1 = d.putAll rs := by
  induction rs generalizing d with
  | nil => rfl
  | cons r rs ih => exact ih (d.put r).1

theorem attempts_replace_eq (rs : List ModuleRecord) :
    (attempts .replace .empty rs).1 = (ofRecords rs).1 :=
  (fst_attempts_replace .empty rs).trans (fst_ofRecords rs).symm

/-- **What calls come to where a later record replaces an earlier one of its
name.** The names stand in the order in which they first came, each with its
last record. No call is rejected. A call notes nothing if its name is new,
and otherwise one warning with the path of its record and the path of the
record that this replaces. -/
structure Replaces (rs : List ModuleRecord) (run : Design × List Outcome) : Prop where
  keys : run.1.keys = (rs.map ModuleRecord.name).eraseDups
  last : ∀ name, run.1.get? name = ModuleRecord.lastNamed rs name
  named : run.1.Named
  outcomes : run.2.length = rs.length
  new : ∀ before r after, rs = before ++ r :: after → r.name ∉ before.map ModuleRecord.name →
    run.2[before.length]? = some (.ok [])
  known : ∀ before r after, rs = before ++ r :: after → r.name ∈ before.map ModuleRecord.name →
    ∃ old e, ModuleRecord.lastNamed before r.name = some old ∧
      run.2[before.length]? = some (.ok [e]) ∧
      e = .overridden r.name r.path old.path ∧ e.severity = .warning

theorem replaces_attempts (rs : List ModuleRecord) :
    Replaces rs (attempts .replace .empty rs) where
  keys := by rw [attempts_replace_eq, keys_ofRecords_eq]
  last := by
    intro name
    rw [attempts_replace_eq, get?_ofRecords]
  named := by
    rw [attempts_replace_eq]
    exact named_ofRecords rs
  outcomes := length_outcomes .replace .empty rs
  new := by
    rintro before r after rfl hnew
    have hnone : (ofRecords before).1.get? r.name = none := by
      rw [OrderedMap.get?_eq_none_iff, mem_keys_ofRecords]
      exact hnew
    rw [outcome_eq, attempt_replace, attempts_replace_eq, put, hnone]
    rfl
  known := by
    rintro before r after rfl hknown
    obtain ⟨old, hold⟩ := OrderedMap.exists_get?_iff.2 (mem_keys_ofRecords.2 hknown)
    refine ⟨old, .overridden r.name r.path old.path, ?_, ?_, rfl, rfl⟩
    · rw [← get?_ofRecords, hold]
    · rw [outcome_eq, attempt_replace, attempts_replace_eq, put, hold]
      rfl

/-! ## Calls that reject -/

/-- **After any calls the design holds the first record of every name.** The
calls so far stand to it as the listed records of an analysis stand to its
design, so one more call is one more listed record, held or not. -/
theorem holdsFirst_attempts (rs : List ModuleRecord) :
    ∃ rejected, Analysis.HoldsFirst ⟨.empty, rs, (attempts .reject .empty rs).1⟩ rejected := by
  induction rs using List.reverseRecOn with
  | nil => exact ⟨0, Analysis.holdsFirst_empty⟩
  | append_singleton rs r ih =>
    obtain ⟨rejected, hholds⟩ := ih
    rw [attempts_append, attempts]
    rcases hget : (attempts .reject .empty rs).1.get? r.name with - | old
    · rw [attempt_reject_new hget]
      exact ⟨rejected, hholds.accept hget⟩
    · rw [attempt_reject_known hget]
      exact ⟨rejected + 1, hholds.reject hget⟩

/-- **What calls come to where second records of a name are rejected.** The
names stand in the order in which they first came, each with its first
record. A call is rejected exactly if the design has its name. The rejection
has the path of the record that the design holds, and the design is as it
was before the call. No other call notes anything. -/
structure Rejects (rs : List ModuleRecord) (run : Design × List Outcome) : Prop where
  keys : run.1.keys = (rs.map ModuleRecord.name).eraseDups
  first : ∀ name, run.1.get? name = rs.find? fun r => r.name == name
  outcomes : run.2.length = rs.length
  rejected_iff : ∀ before r after, rs = before ++ r :: after →
    ((∃ e, run.2[before.length]? = some (.error e)) ↔
      r.name ∈ (attempts .reject .empty before).1.keys)
  new : ∀ before r after, rs = before ++ r :: after →
    r.name ∉ (attempts .reject .empty before).1.keys → run.2[before.length]? = some (.ok [])
  known : ∀ before r after old, rs = before ++ r :: after →
    (attempts .reject .empty before).1.get? r.name = some old →
    run.2[before.length]? = some (.error ⟨r.name, old.path, r.path⟩) ∧
      (attempts .reject .empty (before ++ [r])).1 = (attempts .reject .empty before).1

theorem rejects_attempts (rs : List ModuleRecord) :
    Rejects rs (attempts .reject .empty rs) := by
  obtain ⟨rejected, hholds⟩ := holdsFirst_attempts rs
  have hnew : ∀ before r after, rs = before ++ r :: after →
      r.name ∉ (attempts .reject .empty before).1.keys →
      (attempts .reject .empty rs).2[before.length]? = some (.ok []) := by
    rintro before r after rfl habsent
    rw [outcome_eq, attempt_reject_new (OrderedMap.get?_eq_none_iff.2 habsent)]
  have hknown : ∀ before r after old, rs = before ++ r :: after →
      (attempts .reject .empty before).1.get? r.name = some old →
      (attempts .reject .empty rs).2[before.length]? =
          some (.error ⟨r.name, old.path, r.path⟩) ∧
        (attempts .reject .empty (before ++ [r])).1 = (attempts .reject .empty before).1 := by
    rintro before r after old rfl hold
    refine ⟨by rw [outcome_eq, attempt_reject_known hold], ?_⟩
    rw [attempts_append, attempts, attempt_reject_known hold]
    rfl
  refine ⟨hholds.keys, hholds.first, length_outcomes .reject .empty rs, ?_, hnew, hknown⟩
  -- a call of a new name has another outcome, so these are all the rejections
  intro before r after hsplit
  constructor
  · rintro ⟨e, he⟩
    by_contra habsent
    rw [hnew before r after hsplit habsent] at he
    cases he
  · intro hmem
    obtain ⟨old, hold⟩ := OrderedMap.exists_get?_iff.2 hmem
    exact ⟨_, (hknown before r after old hsplit hold).1⟩

/-! ## Under both policies -/

/-- **After every sequence of calls the design holds one record of each
name**, the last or the first as the policy has it. The calls of known names
are those that warn, or those that are rejected. -/
theorem calls_hold_one_record_per_name (rs : List ModuleRecord) :
    Replaces rs (attempts .replace .empty rs) ∧ Rejects rs (attempts .reject .empty rs) :=
  ⟨replaces_attempts rs, rejects_attempts rs⟩

-- the third record of the name warns about the second, and is rejected for the first
example :
    let rs := ["a.sv", "b.sv", "c.sv"].map fun path => ModuleRecord.mk path "m" [] [] [] []
    (attempts .replace .empty rs).2[2]? = some (.ok [.overridden "m" "c.sv" "b.sv"]) ∧
      (attempts .reject .empty rs).2[2]? = some (.error ⟨"m", "a.sv", "c.sv"⟩) := by
  decide

end Design

end DesignAtlas
