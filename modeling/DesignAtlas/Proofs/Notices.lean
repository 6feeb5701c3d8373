import DesignAtlas.Proofs.Nesting

/-!
# What is noted along a walk, read off the report

A report without the undeclared types is the full report with some entries
left out, since an undeclared type opens nothing. What is noted is the same
in both cases, and the full report says what it is: a note for each
undeclared type, and a warning for each entry marked recursive, with the
types of the entries that enclose it. `Entry.notices` reads them off the
entries alone.
-/

namespace DesignAtlas

/-- What is seen of an event: its severity and its wording. -/
def Event.notice (event : Event) : Severity × String := (event.severity, event.message)

namespace Entry

/-- **What an entry gives to note**, after the entries listed before it. -/
def notice? (before : List Entry) (e : Entry) : Option (Severity × String) :=
  let above := String.intercalate " > " ((e.enclosing before).map Entry.type)
  if e.recursive then
    some (.warning, s!"recursive instantiation of {e.type} below {above}, not expanded")
  else if e.resolved then none
  else some (.debug, s!"no declaration for {e.type}, not expanded")

/-- What entries give to note, one after the other. -/
def notices : List Entry → List Entry → List (Severity × String)
  | _, [] => []
  | before, e :: after => (e.notice? before).toList ++ notices (before ++ [e]) after

end Entry

namespace Visit

/-- Without the undeclared types a visit has the entry that it has with
them, if that is resolved. -/
theorem entryIf_false (v : Visit) : v.entryIf false = (v.entryIf true).filter Entry.resolved := by
  obtain ⟨p, fate⟩ := v
  cases fate <;> rfl

theorem entries_false (vs : List Visit) :
    entries false vs = (entries true vs).filter Entry.resolved := by
  rw [entries, entries, List.filter_filterMap]
  exact congrArg (fun f => vs.filterMap f) (funext entryIf_false)

theorem events_cons (v : Visit) (vs : List Visit) :
    events (v :: vs) = v.event?.toList ++ events vs := by
  rw [events, List.filterMap_cons]
  cases v.event? <;> rfl

end Visit

namespace Design

variable {d : Design} {p : Pending} {frontier rest : List Pending} {done : List Entry}

/-- **A visit notes what its entry gives to note**: the modules above the
item are the types of the entries that enclose it. -/
theorem Nested.notice_eq (h : d.Nested done (p :: rest)) :
    (d.visit p).event?.map Event.notice = (d.entryOf p).notice? done := by
  have habove : ((d.entryOf p).enclosing done).map Entry.type = p.ancestors :=
    (h.ancestors p List.mem_cons_self).symm
  rcases visit_cases d p with ⟨hr, hv⟩ | ⟨r, hr, hp, hv⟩ | ⟨r, hr, hp, hv⟩
  · have hunknown : p.type ∉ d.keys := OrderedMap.get?_eq_none_iff.1 hr
    rw [Entry.notice?, if_neg fun h => hunknown (recursive_entryOf.1 h).1,
      if_neg fun h => hunknown (resolved_entryOf.1 h), hv]
    rfl
  · rw [Entry.notice?, if_pos (recursive_entryOf.2 ⟨mem_keys_of_get? hr, hp⟩), habove, hv]
    rfl
  · rw [Entry.notice?, if_neg fun h => hp (recursive_entryOf.1 h).2,
      if_pos (resolved_entryOf.2 (mem_keys_of_get? hr)), hv]
    rfl

/-- **So does the whole walk.** -/
theorem Nested.notices_eq (h : d.Nested done frontier) :
    (Visit.events (d.visitsFrom frontier)).map Event.notice =
      Entry.notices done (d.lines frontier) := by
  fun_induction visitsFrom d frontier generalizing done with
  | case1 =>
    rw [lines_nil]
    rfl
  | case2 p rest ih =>
    rw [lines_cons, Entry.notices, ← h.notice_eq, ← ih h.step, Visit.events_cons, List.map_append]
    cases (d.visit p).event? <;> rfl

/-- **Showing the undeclared types only adds entries.** Without them the
report is the full one less the unresolved entries, in order and otherwise
unchanged. Both walks note the same: in the order of the full report, one
debug note for each unresolved entry, and one warning for each entry marked
recursive, which gives the types that enclose it from the top down. -/
theorem undeclared_types_only_add (d : Design) (tops? : Option (List String)) :
    (d.hierarchy tops? false).1 = (d.hierarchy tops? true).1.filter Entry.resolved ∧
      (d.hierarchy tops? false).2 = (d.hierarchy tops? true).2 ∧
      (d.hierarchy tops? true).2.map Event.notice = Entry.notices [] (d.hierarchy tops? true).1 :=
  ⟨Visit.entries_false _, rfl, (d.nested_tops _).notices_eq⟩

end Design

end DesignAtlas
