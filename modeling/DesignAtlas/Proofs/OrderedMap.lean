import DesignAtlas.OrderedMap
import Mathlib.Data.List.Induction
import Mathlib.Data.List.Nodup

/-!
# Look-ups in ordered maps

A look-up finds the one pair of its key, and putting a value under a key
is seen by the look-ups of that key only. So after pairs were put one after
the other, the keys stand in the order in which they first came
(`keys_insertAll`), and each has the value that came last under it
(`get?_insertAll`).
-/

namespace DesignAtlas

variable {κ ν : Type} [DecidableEq κ] {key other : κ} {value : ν}

theorem lookup_cons_eq_ite (rest : List (κ × ν)) :
    ((key, value) :: rest).lookup other = if other = key then some value else rest.lookup other := by
  rw [List.lookup_cons]
  by_cases h : other = key
  · rw [if_pos h, beq_iff_eq.2 h]
  · rw [if_neg h, beq_eq_false_iff_ne.2 h]

theorem lookup_upsert (entries : List (κ × ν)) :
    (upsert key value entries).lookup other =
      if other = key then some value else entries.lookup other := by
  induction entries with
  | nil => rw [upsert, lookup_cons_eq_ite]
  | cons entry rest ih =>
    obtain ⟨k, v⟩ := entry
    rw [upsert]
    split
    · rename_i hk
      rw [lookup_cons_eq_ite, lookup_cons_eq_ite, hk]
      split <;> rfl
    · rename_i hk
      rw [lookup_cons_eq_ite, lookup_cons_eq_ite, ih]
      by_cases ho : other = k
      · rw [if_pos ho, if_pos ho, if_neg fun e => hk (ho.symm.trans e)]
      · rw [if_neg ho, if_neg ho]

theorem mem_upsert {entries : List (κ × ν)} {x : κ × ν}
    (h : x ∈ upsert key value entries) : x.2 = value ∨ x ∈ entries := by
  induction entries with
  | nil => exact Or.inl (congrArg Prod.snd (List.mem_singleton.1 h))
  | cons entry rest ih =>
    obtain ⟨k, v⟩ := entry
    rw [upsert] at h
    split at h
    · rcases List.mem_cons.1 h with rfl | h
      · exact Or.inl rfl
      · exact Or.inr (List.mem_cons_of_mem _ h)
    · rcases List.mem_cons.1 h with rfl | h
      · exact Or.inr List.mem_cons_self
      · exact (ih h).imp_right (List.mem_cons_of_mem _)

/-- What comes before a key stays as it is. -/
theorem upsert_append_of_notMem {entries : List (κ × ν)} (h : key ∉ entries.map Prod.fst)
    (rest : List (κ × ν)) :
    upsert key value (entries ++ rest) = entries ++ upsert key value rest := by
  induction entries with
  | nil => rfl
  | cons entry entries ih =>
    obtain ⟨k, v⟩ := entry
    rw [List.map_cons, List.mem_cons, not_or] at h
    rw [List.cons_append, upsert, if_neg (Ne.symm h.1), ih h.2, List.cons_append]

/-- A new key goes to the end with its value. -/
theorem upsert_of_notMem {entries : List (κ × ν)} (h : key ∉ entries.map Prod.fst) :
    upsert key value entries = entries ++ [(key, value)] := by
  have hend : upsert key value (entries ++ []) = entries ++ [(key, value)] :=
    upsert_append_of_notMem h []
  rwa [List.append_nil] at hend

/-- The value of the last key is replaced. -/
theorem upsert_concat {entries : List (κ × ν)} (h : key ∉ entries.map Prod.fst) (old : ν) :
    upsert key value (entries ++ [(key, old)]) = entries ++ [(key, value)] := by
  rw [upsert_append_of_notMem h, upsert, if_pos rfl]

namespace OrderedMap

variable {m : OrderedMap κ ν}

theorem get?_insert :
    (m.insert key value).get? other = if other = key then some value else m.get? other :=
  lookup_upsert m.entries

theorem get?_eq_none_iff : m.get? key = none ↔ key ∉ m.keys := by
  rw [get?, List.lookup_eq_none_iff, keys]
  simp only [List.mem_map, not_exists, not_and, bne_iff_ne, ne_eq]
  exact ⟨fun h p hp e => h p hp e.symm, fun h p hp e => h p hp e.symm⟩

theorem exists_get?_iff : (∃ v, m.get? key = some v) ↔ key ∈ m.keys := by
  rw [← Option.ne_none_iff_exists', Ne, get?_eq_none_iff, not_not]

theorem contains_iff : m.contains key = true ↔ key ∈ m.keys := by
  rw [contains, Option.isSome_iff_exists, exists_get?_iff]

/-- **A look-up finds a pair exactly when the map holds it**, since no key
occurs twice. -/
theorem get?_eq_some_iff : m.get? key = some value ↔ (key, value) ∈ m.entries := by
  rw [get?, List.lookup_eq_some_iff]
  constructor
  · rintro ⟨before, after, heq, -⟩
    rw [heq]
    exact List.mem_append_right _ List.mem_cons_self
  · intro hmem
    obtain ⟨before, after, heq⟩ := List.append_of_mem hmem
    have hnodup := m.nodup
    rw [heq, List.map_append, List.nodup_append] at hnodup
    refine ⟨before, after, heq, fun p hp => bne_iff_ne.2 fun e => ?_⟩
    exact hnodup.2.2 p.1 (List.mem_map_of_mem hp) key List.mem_cons_self e.symm

/-- The keys and their values, by look-ups. -/
theorem values_eq_filterMap (m : OrderedMap κ ν) : m.values = m.keys.filterMap m.get? := by
  have hget : ∀ x ∈ m.entries, (m.get? ∘ Prod.fst) x = some x.2 :=
    fun x hx => get?_eq_some_iff.2 hx
  rw [keys, List.filterMap_map, List.filterMap_eq_map_iff_forall_eq_some.2 hget, values]

/-- The keys whose values pass a test. -/
theorem keys_filter_entries (m : OrderedMap κ ν) (p : ν → Bool) :
    (m.entries.filter fun x => p x.2).map Prod.fst =
      m.keys.filter fun key => (m.get? key).any p := by
  have htest : ∀ x ∈ m.entries, p x.2 = (m.get? x.1).any p := by
    intro x hx
    rw [get?_eq_some_iff.2 hx, Option.any_some]
  rw [keys, List.filter_map, List.filter_congr htest]
  rfl

/-! ## Pairs put one after the other -/

/-- Puts pairs into a map, one after the other. -/
def insertAll (m : OrderedMap κ ν) (pairs : List (κ × ν)) : OrderedMap κ ν :=
  pairs.foldl (fun m (key, value) => m.insert key value) m

theorem insertAll_append (m : OrderedMap κ ν) (pairs later : List (κ × ν)) :
    m.insertAll (pairs ++ later) = (m.insertAll pairs).insertAll later :=
  List.foldl_append

/-- A key that comes again keeps its place, and a new one goes to the end. -/
theorem eraseDups_concat (seen : List κ) (key : κ) :
    (seen ++ [key]).eraseDups = if key ∈ seen then seen.eraseDups else seen.eraseDups ++ [key] := by
  rw [List.eraseDups_append]
  split
  · rename_i hkey
    have hnone : [key].removeAll seen = [] := by simp [List.removeAll, hkey]
    rw [hnone, List.eraseDups_nil, List.append_nil]
  · rename_i hkey
    have hone : [key].removeAll seen = [key] := by simp [List.removeAll, hkey]
    rw [hone, List.eraseDups_cons, List.filter_nil, List.eraseDups_nil]

/-- What is kept stands in the order of the first occurrences. -/
theorem eraseDups_pairwise (seen : List κ) :
    seen.eraseDups.Pairwise fun a b => seen.idxOf a < seen.idxOf b := by
  induction seen using List.reverseRecOn with
  | nil => exact List.Pairwise.nil
  | append_singleton seen key ih =>
    have hold : ∀ a ∈ seen.eraseDups, (seen ++ [key]).idxOf a = seen.idxOf a := fun a ha =>
      List.idxOf_append_of_mem (List.mem_eraseDups.1 ha)
    have hseen : seen.eraseDups.Pairwise fun a b =>
        (seen ++ [key]).idxOf a < (seen ++ [key]).idxOf b :=
      ih.imp_of_mem fun ha hb hlt => by rwa [hold _ ha, hold _ hb]
    rw [eraseDups_concat]
    split
    · exact hseen
    · rename_i hkey
      refine List.pairwise_append.2 ⟨hseen, List.pairwise_singleton _ _, fun a ha b hb => ?_⟩
      rw [List.mem_singleton.1 hb, hold a ha, List.idxOf_append_of_notMem hkey]
      exact Nat.lt_add_right _ (List.idxOf_lt_length_of_mem (List.mem_eraseDups.1 ha))

theorem keys_insert {seen : List κ} (h : m.keys = seen.eraseDups) (key : κ) (value : ν) :
    (m.insert key value).keys = (seen ++ [key]).eraseDups := by
  have hkeys : (m.insert key value).keys = if key ∈ m.keys then m.keys else m.keys ++ [key] :=
    keys_upsert key value m.entries
  rw [hkeys, eraseDups_concat, h]
  simp only [List.mem_eraseDups]

/-- **The keys stand in the order in which they first came.** -/
theorem keys_insertAll {seen : List κ} (h : m.keys = seen.eraseDups) (pairs : List (κ × ν)) :
    (m.insertAll pairs).keys = (seen ++ pairs.map Prod.fst).eraseDups := by
  induction pairs generalizing m seen with
  | nil => rw [List.map_nil, List.append_nil, ← h]; rfl
  | cons pair rest ih =>
    have hrest := ih (keys_insert h pair.1 pair.2)
    rw [List.append_assoc] at hrest
    exact hrest

/-- **A key has the value that came last under it**, or else the one that it
had before. -/
theorem get?_insertAll (m : OrderedMap κ ν) (pairs : List (κ × ν)) (key : κ) :
    (m.insertAll pairs).get? key = (pairs.reverse.lookup key).or (m.get? key) := by
  induction pairs generalizing m with
  | nil => rfl
  | cons pair rest ih =>
    have hone : ([pair].lookup key).or (m.get? key) = (m.insert pair.1 pair.2).get? key := by
      rw [get?_insert, lookup_cons_eq_ite, List.lookup_nil]
      split <;> rfl
    rw [List.reverse_cons, List.lookup_append, Option.or_assoc, hone]
    exact ih (m.insert pair.1 pair.2)

theorem keys_ofList (pairs : List (κ × ν)) :
    (ofList pairs).keys = (pairs.map Prod.fst).eraseDups := by
  have hempty : (empty : OrderedMap κ ν).keys = ([] : List κ).eraseDups := rfl
  exact keys_insertAll hempty pairs

theorem get?_ofList (pairs : List (κ × ν)) (key : κ) :
    (ofList pairs).get? key = pairs.reverse.lookup key :=
  (get?_insertAll empty pairs key).trans Option.or_none

theorem entries_insertAll {pairs : List (κ × ν)}
    (h : (m.entries.map Prod.fst ++ pairs.map Prod.fst).Nodup) :
    (m.insertAll pairs).entries = m.entries ++ pairs := by
  induction pairs generalizing m with
  | nil => exact (List.append_nil _).symm
  | cons pair rest ih =>
    have hnew : pair.1 ∉ m.entries.map Prod.fst := by
      intro hmem
      exact (List.nodup_append.1 h).2.2 _ hmem _ (by simp) rfl
    have hinsert : (m.insert pair.1 pair.2).entries = m.entries ++ [pair] := upsert_of_notMem hnew
    have hrest := ih (m := m.insert pair.1 pair.2) (by
      rw [hinsert]
      simpa using h)
    rw [hinsert, List.append_assoc, List.singleton_append] at hrest
    exact hrest

/-- **Pairs with different keys are the pairs of their map.** -/
theorem entries_ofList {pairs : List (κ × ν)} (h : (pairs.map Prod.fst).Nodup) :
    (ofList pairs).entries = pairs :=
  entries_insertAll (m := empty) h

end OrderedMap

end DesignAtlas
