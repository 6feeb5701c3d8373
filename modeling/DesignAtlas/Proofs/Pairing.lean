import DesignAtlas.Module.Extraction
import DesignAtlas.Proofs.Position
import Mathlib.Algebra.Order.BigOperators.Group.List
import Mathlib.Algebra.Order.Ring.Nat
import Mathlib.Data.List.Forall2

/-!
# Instances and their types

The names and the types of a declaration's instances come from two searches
over the whole declaration, and are paired by position when there are as
many of one as of the other. Here a declaration is divided into instantiation
statements, which are subtrees apart from each other that together hold all
type nodes and all instance nodes (`Vocabulary.InStatements`). Both searches
then go through the statements in the same order (`identifiers_eq_flatMap`).

Where every statement has one type and one instance, each name meets its own
type. Where a statement may name several instances or none, the numbers can
agree although the positions do not: a statement with two names and one
without any make up for each other (`recorded_pairs_own_iff`).
-/

namespace DesignAtlas

/-! ## Parts of a tree that are apart -/

section Apart

variable {h h' p q : List ℕ} {homes ps : List (List ℕ)}

/-- **Subtrees that are apart stay in order**, with everything in them. -/
theorem lt_of_apart (hlt : h < h') (hnot : ¬ h <+: h') (hp : h <+: p) (hq : h' <+: q) :
    p < q := by
  induction h generalizing h' p q with
  | nil => exact absurd List.nil_prefix hnot
  | cons a h ih =>
    cases h' with
    | nil => exact absurd hlt (List.not_lt_nil _)
    | cons b h' =>
      obtain ⟨p, rfl⟩ := hp
      obtain ⟨q, rfl⟩ := hq
      rw [List.cons_append, List.cons_append]
      rcases List.cons_lt_cons_iff.1 hlt with hab | ⟨rfl, htail⟩
      · exact List.cons_lt_cons_iff.2 (Or.inl hab)
      · have hapart : ¬ h <+: h' := fun hpre => hnot (List.cons_prefix_cons.2 ⟨rfl, hpre⟩)
        have hlt' := ih htail hapart (List.prefix_append h p) (List.prefix_append h' q)
        exact List.cons_lt_cons_iff.2 (Or.inr ⟨rfl, hlt'⟩)

/-- **Positions in order come subtree by subtree**, if the subtrees are
apart and hold them all. Both sides are in order and have the same members. -/
theorem eq_flatMap_filter (hps : ps.Pairwise (· < ·))
    (hapart : homes.Pairwise fun h h' => h < h' ∧ ¬ h <+: h')
    (hcover : ∀ p ∈ ps, ∃ h ∈ homes, h <+: p) :
    ps = homes.flatMap fun h => ps.filter (h <+: ·) := by
  refine List.Pairwise.eq_of_mem_iff hps ?_ ?_
  · rw [List.pairwise_flatMap]
    refine ⟨fun h _ => hps.filter _, hapart.imp ?_⟩
    rintro h h' ⟨hlt, hnot⟩ p hp q hq
    exact lt_of_apart hlt hnot (of_decide_eq_true (List.mem_filter.1 hp).2)
      (of_decide_eq_true (List.mem_filter.1 hq).2)
  · intro p
    rw [List.mem_flatMap]
    constructor
    · intro hp
      obtain ⟨h, hh, hpre⟩ := hcover p hp
      exact ⟨h, hh, List.mem_filter.2 ⟨hp, decide_eq_true hpre⟩⟩
    · rintro ⟨h, -, hp⟩
      exact (List.mem_filter.1 hp).1

end Apart

namespace Vocabulary

variable {v : Vocabulary} {source : Source} {path : String} {n : Node} {f : TagFilter}
variable {home : List ℕ} {homes : List (List ℕ)}

/-! ## Statements of a declaration -/

/-- The places of the type nodes in the subtree at a position. -/
def typesIn (v : Vocabulary) (n : Node) (home : List ℕ) : List (List ℕ) :=
  (n.places v.instantiationType).filter (home <+: ·)

/-- The places of the instance nodes in the subtree at a position. -/
def instancesIn (v : Vocabulary) (n : Node) (home : List ℕ) : List (List ℕ) :=
  (n.places v.instanceName).filter (home <+: ·)

/-- The first identifier below the node at a position. -/
def identifierAt (v : Vocabulary) (source : Source) (n : Node) (p : List ℕ) : Option String :=
  (n.at? p).bind (v.firstIdentifier? source)

/-- **The type nodes and instance nodes of a declaration lie in statements**,
which are given by the positions of their roots. The statements come in
document order, and none stands inside another. -/
structure InStatements (v : Vocabulary) (n : Node) (homes : List (List ℕ)) : Prop where
  apart : homes.Pairwise fun h h' => h < h' ∧ ¬ h <+: h'
  types : ∀ p ∈ n.places v.instantiationType, ∃ h ∈ homes, h <+: p
  instances : ∀ p ∈ n.places v.instanceName, ∃ h ∈ homes, h <+: p

theorem identifiers_eq_places :
    v.identifiers source n f = (n.places f).filterMap (v.identifierAt source n) := by
  rw [identifiers, Node.findAll_eq_places, List.filterMap_filterMap]
  rfl

/-- **A search goes through the statements in their order.** -/
theorem identifiers_eq_flatMap (hapart : homes.Pairwise fun h h' => h < h' ∧ ¬ h <+: h')
    (hcover : ∀ p ∈ n.places f, ∃ h ∈ homes, h <+: p) :
    v.identifiers source n f =
      homes.flatMap fun h => ((n.places f).filter (h <+: ·)).filterMap (v.identifierAt source n) := by
  rw [identifiers_eq_places, eq_flatMap_filter (n.places_pairwise f) hapart hcover,
    List.filterMap_flatMap, ← eq_flatMap_filter (n.places_pairwise f) hapart hcover]

end Vocabulary

/-- What an instantiation statement says: its type, and the names of its
instances. Instances without a name are left out. -/
structure Statement where
  type : String
  names : List String
  deriving DecidableEq

namespace Statement

/-- The instances of a statement. -/
def instances (s : Statement) : List Instance := s.names.map (Instance.mk · s.type)

end Statement

namespace Vocabulary

variable {v : Vocabulary} {source : Source} {path : String} {n : Node}
variable {home : List ℕ} {homes : List (List ℕ)} {ss : List Statement}

/-- **A statement is read**: its subtree holds one type node, whose first
identifier is the type, and the names are the first identifiers of its
instance nodes. -/
structure Reads (v : Vocabulary) (source : Source) (n : Node) (home : List ℕ) (s : Statement) :
    Prop where
  type : ∃ p, v.typesIn n home = [p] ∧ v.identifierAt source n p = some s.type
  names : (v.instancesIn n home).filterMap (v.identifierAt source n) = s.names

/-- The names of a declaration are those of its statements. -/
theorem identifiers_instanceName (hin : v.InStatements n homes)
    (hreads : List.Forall₂ (v.Reads source n) homes ss) :
    v.identifiers source n v.instanceName = ss.flatMap Statement.names := by
  rw [identifiers_eq_flatMap hin.apart hin.instances]
  refine List.forall₂_eq_eq_eq ▸ List.rel_flatMap hreads fun home s h => ?_
  exact List.forall₂_eq_eq_eq ▸ h.names

/-- The types of a declaration are those of its statements, one each. -/
theorem identifiers_instantiationType (hin : v.InStatements n homes)
    (hreads : List.Forall₂ (v.Reads source n) homes ss) :
    v.identifiers source n v.instantiationType = ss.map Statement.type := by
  rw [identifiers_eq_flatMap hin.apart hin.types, List.map_eq_flatMap]
  refine List.forall₂_eq_eq_eq ▸ List.rel_flatMap hreads fun home s h => ?_
  obtain ⟨p, hp, htype⟩ := h.type
  rw [typesIn] at hp
  rw [hp, List.filterMap_cons_some htype, List.forall₂_eq_eq_eq]
  rfl

/-! ## What a declaration gives -/

/-- The name of a declaration: the first identifier of its header. -/
def nameOf? (v : Vocabulary) (source : Source) (n : Node) : Option String :=
  (n.find? v.moduleHeader).bind (v.firstIdentifier? source)

/-- The instances that a declaration gives: its names and types paired by
position, when there are as many of one as of the other. -/
def paired (v : Vocabulary) (source : Source) (n : Node) : List Instance :=
  if (v.identifiers source n v.instanceName).length =
      (v.identifiers source n v.instantiationType).length then
    List.zipWith Instance.mk (v.identifiers source n v.instanceName)
      (v.identifiers source n v.instantiationType)
  else []

/-- **What a declaration can give.** Without a name it gives no record. With
one it gives a record with the paired instances, and it is noted where the
numbers of names and types differ. -/
theorem readDeclaration_cases (v : Vocabulary) (source : Source) (path : String) (n : Node) :
    ((∀ name, v.nameOf? source n = some name → name = "") ∧
      (v.readDeclaration source path n).record? = none ∧
      ((v.readDeclaration source path n).event? path = some (.headerless path) ∨
        (v.readDeclaration source path n).event? path = some (.nameless path))) ∨
    ∃ name r, v.nameOf? source n = some name ∧ name ≠ "" ∧
      (v.readDeclaration source path n).record? = some r ∧
      r.name = name ∧ r.instances = v.paired source n ∧
      (v.readDeclaration source path n).event? path =
        if (v.identifiers source n v.instanceName).length =
            (v.identifiers source n v.instantiationType).length then none
        else some (.unpaired path name (v.identifiers source n v.instanceName).length
          (v.identifiers source n v.instantiationType).length) := by
  unfold readDeclaration nameOf? paired
  rcases n.find? v.moduleHeader with - | header
  · exact Or.inl ⟨nofun, rfl, Or.inl rfl⟩
  · simp only [Option.bind_some]
    rcases v.firstIdentifier? source header with - | name
    · exact Or.inl ⟨nofun, rfl, Or.inr rfl⟩
    · by_cases hempty : name = ""
      · subst hempty
        exact Or.inl ⟨fun name hname => (Option.some.inj hname).symm, rfl, Or.inr rfl⟩
      · refine Or.inr ?_
        simp only [Option.getD_some, String.isEmpty_iff, hempty, if_false]
        split
        · exact ⟨name, _, rfl, hempty, rfl, rfl, rfl, rfl⟩
        · exact ⟨name, _, rfl, hempty, rfl, rfl, rfl, rfl⟩

theorem isSome_record?_iff :
    (v.readDeclaration source path n).record?.isSome ↔
      ∃ name, v.nameOf? source n = some name ∧ name ≠ "" := by
  rcases v.readDeclaration_cases source path n with ⟨hnone, hr, -⟩ | ⟨name, r, hname, hne, hr, -⟩
  · rw [hr]
    exact ⟨nofun, fun ⟨name, hname, hne⟩ => absurd (hnone name hname) hne⟩
  · rw [hr]
    exact ⟨fun _ => ⟨name, hname, hne⟩, fun _ => rfl⟩

theorem instances_of_record? {r : ModuleRecord}
    (h : (v.readDeclaration source path n).record? = some r) :
    r.instances = v.paired source n := by
  rcases v.readDeclaration_cases source path n with ⟨-, hr, -⟩ | ⟨_, r', -, -, hr, -, hpaired, -⟩
  · cases h.symm.trans hr
  · cases h.symm.trans hr
    exact hpaired

/-- Where there are as many names as types, no difference is noted. -/
theorem event?_ne_unpaired (hlen : (v.identifiers source n v.instanceName).length =
      (v.identifiers source n v.instantiationType).length) (name : String) (names types : ℕ) :
    (v.readDeclaration source path n).event? path ≠ some (.unpaired path name names types) := by
  rcases v.readDeclaration_cases source path n with ⟨-, -, he | he⟩ | ⟨_, _, -, -, -, -, -, he⟩
  · rw [he]
    nofun
  · rw [he]
    nofun
  · rw [he, if_pos hlen]
    nofun

/-! ## One name for each type -/

/-- Where every statement names one instance, names and types meet. -/
theorem zipWith_of_one (hone : ∀ s ∈ ss, s.names.length = 1) :
    List.zipWith Instance.mk (ss.flatMap Statement.names) (ss.map Statement.type) =
      ss.flatMap Statement.instances := by
  induction ss with
  | nil => rfl
  | cons s ss ih =>
    obtain ⟨hs, hone⟩ := List.forall_mem_cons.1 hone
    obtain ⟨name, hname⟩ := List.length_eq_one_iff.1 hs
    rw [List.flatMap_cons, List.map_cons, List.flatMap_cons, Statement.instances, hname,
      ← ih hone]
    rfl

theorem length_names_of_one (hone : ∀ s ∈ ss, s.names.length = 1) :
    (ss.flatMap Statement.names).length = ss.length := by
  induction ss with
  | nil => rfl
  | cons s ss ih =>
    obtain ⟨hs, hone⟩ := List.forall_mem_cons.1 hone
    rw [List.flatMap_cons, List.length_append, hs, ih hone, List.length_cons]
    omega

theorem paired_of_reads (hin : v.InStatements n homes)
    (hreads : List.Forall₂ (v.Reads source n) homes ss) :
    v.paired source n =
      if (ss.flatMap Statement.names).length = ss.length then
        List.zipWith Instance.mk (ss.flatMap Statement.names) (ss.map Statement.type)
      else [] := by
  rw [paired, identifiers_instanceName hin hreads, identifiers_instantiationType hin hreads,
    List.length_map]

/-- **A statement is the statement of one instance**: its subtree holds one
type node and one instance node, and their first identifiers are the type
and the name. -/
structure Describes (v : Vocabulary) (source : Source) (n : Node) (home : List ℕ) (i : Instance) :
    Prop where
  type : ∃ p, v.typesIn n home = [p] ∧ v.identifierAt source n p = some i.type
  name : ∃ p, v.instancesIn n home = [p] ∧ v.identifierAt source n p = some i.name

theorem Describes.reads {i : Instance} (h : v.Describes source n home i) :
    v.Reads source n home ⟨i.type, [i.name]⟩ := by
  obtain ⟨p, hp, hname⟩ := h.name
  refine ⟨h.type, ?_⟩
  rw [hp, List.filterMap_cons_some hname]
  rfl

/-- **Where every statement has one type and one instance, the statements
are what is extracted**: the record has their instances in document order,
and no difference in number is noted. There is a record exactly when the
declaration has a name. -/
theorem single_statements_extracted {insts : List Instance} (path : String)
    (hin : v.InStatements n homes) (hdescribes : List.Forall₂ (v.Describes source n) homes insts) :
    (∀ r, (v.readDeclaration source path n).record? = some r → r.instances = insts) ∧
    (∀ name names types,
      (v.readDeclaration source path n).event? path ≠ some (.unpaired path name names types)) ∧
    ((v.readDeclaration source path n).record?.isSome ↔
      ∃ name, v.nameOf? source n = some name ∧ name ≠ "") := by
  let ss : List Statement := insts.map fun i => ⟨i.type, [i.name]⟩
  have hreads : List.Forall₂ (v.Reads source n) homes ss :=
    List.forall₂_map_right_iff.2 (hdescribes.imp fun _ _ h => h.reads)
  have hone : ∀ s ∈ ss, s.names.length = 1 := by
    intro s hs
    obtain ⟨i, -, rfl⟩ := List.mem_map.1 hs
    rfl
  have hinsts : ss.flatMap Statement.instances = insts := by
    rw [List.flatMap_map]
    exact List.flatMap_singleton' insts
  have hlen : (v.identifiers source n v.instanceName).length =
      (v.identifiers source n v.instantiationType).length := by
    rw [identifiers_instanceName hin hreads, identifiers_instantiationType hin hreads,
      List.length_map, length_names_of_one hone]
  refine ⟨?_, event?_ne_unpaired hlen, isSome_record?_iff⟩
  intro r hr
  rw [instances_of_record? hr, paired_of_reads hin hreads, if_pos (length_names_of_one hone),
    zipWith_of_one hone, hinsts]

end Vocabulary

/-- A token with a text of its own. -/
def Node.word (tag : String) (start : ℕ) (text : String) : Node :=
  .token ⟨tag, start, start + text.length, some text, by omega⟩

/-- A declaration with two statements, one of them in a block. Each is the type
node, with the instance node inside it. -/
def Node.nestedInstances : Node :=
  .branch "ModuleDeclaration" [
    .branch "ModuleHeader" [word "Identifier" 7 "top"],
    .branch "HierarchyInstantiation" [
      word "Identifier" 12 "sub",
      .branch "HierarchicalInstance" [word "Identifier" 16 "u_sub"]],
    .branch "GenerateBlock" [
      word "BeginKeyword" 23 "begin",
      .branch "HierarchyInstantiation" [
        word "Identifier" 29 "alu",
        .branch "HierarchicalInstance" [word "Identifier" 33 "u_alu"]]]]

namespace Vocabulary

variable {v : Vocabulary} {source : Source} {path : String} {n : Node}
variable {homes : List (List ℕ)} {ss : List Statement}

theorem nested_instances_extracted :
    slang.InStatements .nestedInstances [[1], [2, 1]] ∧
    List.Forall₂ (slang.Describes .absent .nestedInstances) [[1], [2, 1]]
      [⟨"u_sub", "sub"⟩, ⟨"u_alu", "alu"⟩] ∧
    ∃ r, (slang.readDeclaration .absent "top.sv" .nestedInstances).record? = some r ∧
      r.instances = [⟨"u_sub", "sub"⟩, ⟨"u_alu", "alu"⟩] := by
  have hin : slang.InStatements .nestedInstances [[1], [2, 1]] :=
    ⟨by decide +kernel, by decide +kernel, by decide +kernel⟩
  have hsub : slang.Describes .absent .nestedInstances [1] ⟨"u_sub", "sub"⟩ :=
    ⟨⟨[1], by decide +kernel, by decide +kernel⟩, ⟨[1, 1], by decide +kernel, by decide +kernel⟩⟩
  have halu : slang.Describes .absent .nestedInstances [2, 1] ⟨"u_alu", "alu"⟩ :=
    ⟨⟨[2, 1], by decide +kernel, by decide +kernel⟩,
      ⟨[2, 1, 1], by decide +kernel, by decide +kernel⟩⟩
  have hdescribes : List.Forall₂ (slang.Describes .absent .nestedInstances) [[1], [2, 1]]
      [⟨"u_sub", "sub"⟩, ⟨"u_alu", "alu"⟩] :=
    .cons hsub (.cons halu .nil)
  obtain ⟨hinstances, -, hrecord⟩ := single_statements_extracted "top.sv" hin hdescribes
  obtain ⟨r, hr⟩ := Option.isSome_iff_exists.1 (hrecord.2 ⟨"top", by decide +kernel, by decide⟩)
  exact ⟨hin, hdescribes, r, hr, hinstances r hr⟩

/-! ## Several names for a type, or none -/

/-- Counts with the same sum, each at most its counterpart, are the same. -/
theorem eq_of_sum_eq {α : Type} {xs : List α} {g k : α → ℕ} (hle : ∀ x ∈ xs, g x ≤ k x)
    (hsum : (xs.map g).sum = (xs.map k).sum) : ∀ x ∈ xs, g x = k x := by
  intro x hx
  by_contra hne
  have hlt := List.sum_lt_sum g k hle ⟨x, hx, lt_of_le_of_ne (hle x hx) hne⟩
  omega

/-- **Only a statement with two names and one with none make up for each
other.** If the numbers agree and there are not both, every statement has
one name. -/
theorem one_of_length_eq (hlen : (ss.flatMap Statement.names).length = ss.length)
    (h : (∀ s ∈ ss, s.names.length ≤ 1) ∨ ∀ s ∈ ss, 1 ≤ s.names.length) :
    ∀ s ∈ ss, s.names.length = 1 := by
  have hsum : (ss.map fun s => s.names.length).sum = (ss.map fun _ => 1).sum := by
    simpa [List.length_flatMap] using hlen
  rcases h with hle | hge
  · exact eq_of_sum_eq hle hsum
  · intro s hs
    exact (eq_of_sum_eq hge hsum.symm s hs).symm

/-- Pairs that are all right, with types that are all different, need a name
in every statement. -/
theorem one_le_of_own (hlen : (ss.flatMap Statement.names).length = ss.length)
    (hnodup : (ss.map Statement.type).Nodup)
    (hown : ∀ i ∈ List.zipWith Instance.mk (ss.flatMap Statement.names) (ss.map Statement.type),
      ∃ s ∈ ss, s.type = i.type ∧ i.name ∈ s.names) :
    ∀ s ∈ ss, 1 ≤ s.names.length := by
  intro s hs
  obtain ⟨k, hk, rfl⟩ := List.mem_iff_getElem.1 hs
  -- the name at the place of the statement is paired with its type
  have hk' : k < (ss.flatMap Statement.names).length := by omega
  have hpair : Instance.mk (ss.flatMap Statement.names)[k] ss[k].type ∈
      List.zipWith Instance.mk (ss.flatMap Statement.names) (ss.map Statement.type) := by
    refine List.mem_iff_getElem.2 ⟨k, by simp [hlen, hk], ?_⟩
    rw [List.getElem_zipWith, List.getElem_map]
  obtain ⟨s', hs', htype, hname⟩ := hown _ hpair
  have heq : s' = ss[k] := List.inj_on_of_nodup_map hnodup hs' hs htype
  rw [← heq]
  exact List.length_pos_of_mem hname

/-- **What is recorded of statements with any number of names.** Names and
types are paired by position if their numbers agree. Every pair is a name
with its own type when no statement has two names or none is without a name;
and where the types are all different, only when nothing is recorded or
every statement has one name. -/
theorem recorded_pairs_own_iff {r : ModuleRecord} (hin : v.InStatements n homes)
    (hreads : List.Forall₂ (v.Reads source n) homes ss)
    (hr : (v.readDeclaration source path n).record? = some r) :
    (r.instances =
      if (ss.flatMap Statement.names).length = ss.length then
        List.zipWith Instance.mk (ss.flatMap Statement.names) (ss.map Statement.type)
      else []) ∧
    ((∀ s ∈ ss, s.names.length ≤ 1) ∨ (∀ s ∈ ss, 1 ≤ s.names.length) →
      ∀ i ∈ r.instances, ∃ s ∈ ss, s.type = i.type ∧ i.name ∈ s.names) ∧
    ((ss.map Statement.type).Nodup →
      ((∀ i ∈ r.instances, ∃ s ∈ ss, s.type = i.type ∧ i.name ∈ s.names) ↔
        r.instances = [] ∨ ∀ s ∈ ss, s.names.length = 1)) := by
  have hrecorded := (instances_of_record? hr).trans (paired_of_reads hin hreads)
  have hown : (∀ s ∈ ss, s.names.length = 1) →
      ∀ i ∈ r.instances, ∃ s ∈ ss, s.type = i.type ∧ i.name ∈ s.names := by
    intro hone i hi
    rw [hrecorded, if_pos (length_names_of_one hone), zipWith_of_one hone] at hi
    obtain ⟨s, hs, hi⟩ := List.mem_flatMap.1 hi
    obtain ⟨name, hname, rfl⟩ := List.mem_map.1 hi
    exact ⟨s, hs, rfl, hname⟩
  refine ⟨hrecorded, ?_, ?_⟩
  · intro h
    by_cases hlen : (ss.flatMap Statement.names).length = ss.length
    · exact hown (one_of_length_eq hlen h)
    · rw [hrecorded, if_neg hlen]
      exact fun i hi => absurd hi List.not_mem_nil
  · intro hnodup
    constructor
    · intro hright
      by_cases hlen : (ss.flatMap Statement.names).length = ss.length
      · rw [hrecorded, if_pos hlen] at hright
        exact Or.inr (one_of_length_eq hlen (Or.inr (one_le_of_own hlen hnodup hright)))
      · exact Or.inl (by rw [hrecorded, if_neg hlen])
    · rintro (hnone | hone)
      · rw [hnone]
        exact fun i hi => absurd hi List.not_mem_nil
      · exact hown hone

end Vocabulary

/-- Two statements that make up for each other: one type has two names, and
one has an instance without a name. -/
def Node.crossedStatements : Node :=
  .branch "kModuleDeclaration" [
    .branch "kModuleHeader" [word "SymbolIdentifier" 7 "m"],
    .branch "kDataDeclaration" [
      .branch "kInstantiationType" [word "SymbolIdentifier" 10 "sub"],
      .branch "kGateInstance" [word "SymbolIdentifier" 14 "u1"],
      .branch "kGateInstance" [word "SymbolIdentifier" 20 "u2"]],
    .branch "kDataDeclaration" [
      .branch "kInstantiationType" [word "SymbolIdentifier" 26 "other"],
      .branch "kGateInstance" [word "(" 31 "("]]]

namespace Vocabulary

theorem inStatements_crossedStatements : verible.InStatements .crossedStatements [[1], [2]] :=
  ⟨by decide +kernel, by decide +kernel, by decide +kernel⟩

theorem reads_crossedStatements :
    List.Forall₂ (verible.Reads .absent .crossedStatements) [[1], [2]]
      [⟨"sub", ["u1", "u2"]⟩, ⟨"other", []⟩] :=
  .cons ⟨⟨[1, 0], by decide +kernel, by decide +kernel⟩, by decide +kernel⟩
    (.cons ⟨⟨[2, 0], by decide +kernel, by decide +kernel⟩, by decide +kernel⟩ .nil)

theorem crossed_statements_characterized :
    ∃ r, (verible.readDeclaration .absent "m.sv" .crossedStatements).record? = some r ∧
      r.instances = [⟨"u1", "sub"⟩, ⟨"u2", "other"⟩] := by
  have hname : (verible.readDeclaration .absent "m.sv" .crossedStatements).record?.isSome := by
    decide +kernel
  obtain ⟨r, hr⟩ := Option.isSome_iff_exists.1 hname
  exact ⟨r, hr, (recorded_pairs_own_iff inStatements_crossedStatements
    reads_crossedStatements hr).1⟩

/-- **Statements that make up for each other are paired wrongly**: every
statement has its type first and then its instances, the second name belongs
to the first type, and it is recorded with the second. -/
theorem crossed_statements_mispaired :
    verible.InStatements .crossedStatements [[1], [2]] ∧
    List.Forall₂ (verible.Reads .absent .crossedStatements) [[1], [2]]
      [⟨"sub", ["u1", "u2"]⟩, ⟨"other", []⟩] ∧
    (∀ home ∈ [[1], [2]], ∀ p ∈ verible.typesIn .crossedStatements home,
      ∀ q ∈ verible.instancesIn .crossedStatements home, p < q) ∧
    ∃ r, verible.readDeclaration .absent "m.sv" .crossedStatements = .found r ∧
      ⟨"u2", "other"⟩ ∈ r.instances ∧
      ¬ ∃ s ∈ [(⟨"sub", ["u1", "u2"]⟩ : Statement), ⟨"other", []⟩],
        s.type = "other" ∧ "u2" ∈ s.names := by
  have hfound : verible.readDeclaration .absent "m.sv" .crossedStatements =
      .found ⟨"m.sv", "m", [], [], [], [⟨"u1", "sub"⟩, ⟨"u2", "other"⟩]⟩ := by
    decide +kernel
  exact ⟨inStatements_crossedStatements, reads_crossedStatements, by decide +kernel,
    _, hfound, by decide, by decide⟩

end Vocabulary

end DesignAtlas
