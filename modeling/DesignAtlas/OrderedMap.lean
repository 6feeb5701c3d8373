/-!
# Ordered maps

Key and value pairs in the order in which the keys first came. Putting a value under
a known key replaces it in place; a new key goes to the end. `upsert` does this on a
list of pairs, and `OrderedMap` is such a list without repeated keys.
-/

namespace DesignAtlas

variable {κ ν : Type} [DecidableEq κ]

/-- Puts a value under a key of a list of pairs. -/
def upsert (key : κ) (value : ν) : List (κ × ν) → List (κ × ν)
  | [] => [(key, value)]
  | (k, v) :: rest =>
    if k = key then (k, value) :: rest else (k, v) :: upsert key value rest

/-- A known key keeps its place, and a new one goes to the end. -/
theorem keys_upsert (key : κ) (value : ν) (entries : List (κ × ν)) :
    (upsert key value entries).map Prod.fst =
      if key ∈ entries.map Prod.fst then entries.map Prod.fst
      else entries.map Prod.fst ++ [key] := by
  induction entries with
  | nil => simp [upsert]
  | cons entry rest ih =>
    obtain ⟨k, v⟩ := entry
    by_cases h : k = key
    · simp [upsert, h]
    · have h' : ¬ key = k := fun e => h e.symm
      simp only [upsert, h, if_false, List.map_cons, List.mem_cons, h', false_or, ih]
      split <;> simp

theorem nodup_keys_upsert (key : κ) (value : ν) {entries : List (κ × ν)}
    (h : (entries.map Prod.fst).Nodup) : ((upsert key value entries).map Prod.fst).Nodup := by
  rw [keys_upsert]
  split
  · exact h
  · rename_i hk
    rw [List.nodup_append]
    exact ⟨h, List.pairwise_singleton _ _, fun a ha b hb => by
      rw [List.mem_singleton] at hb
      exact fun e => hk (hb ▸ e ▸ ha)⟩

/-- Pairs of a key and a value, no key twice, in order of first insertion. -/
structure OrderedMap (κ ν : Type) where
  /-- The pairs in order. -/
  entries : List (κ × ν)
  /-- No key occurs twice. -/
  nodup : (entries.map Prod.fst).Nodup

namespace OrderedMap

/-- The map without pairs. -/
def empty : OrderedMap κ ν := ⟨[], by simp⟩

instance : Inhabited (OrderedMap κ ν) := ⟨⟨[], by simp⟩⟩

/-- The keys in order. -/
def keys (m : OrderedMap κ ν) : List κ := m.entries.map Prod.fst

/-- The values in order of their keys. -/
def values (m : OrderedMap κ ν) : List ν := m.entries.map Prod.snd

/-- The number of keys. -/
def size (m : OrderedMap κ ν) : Nat := m.entries.length

/-- The value under a key. -/
def get? (m : OrderedMap κ ν) (key : κ) : Option ν := m.entries.lookup key

/-- Whether a key has a value. -/
def contains (m : OrderedMap κ ν) (key : κ) : Bool := (m.get? key).isSome

/-- Puts a value under a key. -/
def insert (m : OrderedMap κ ν) (key : κ) (value : ν) : OrderedMap κ ν :=
  ⟨upsert key value m.entries, nodup_keys_upsert key value m.nodup⟩

/-- The map of a list of pairs, of which a later one replaces an earlier one. -/
def ofList (pairs : List (κ × ν)) : OrderedMap κ ν :=
  pairs.foldl (fun m (key, value) => m.insert key value) empty

end OrderedMap

end DesignAtlas
