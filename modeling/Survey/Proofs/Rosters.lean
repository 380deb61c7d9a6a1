import Survey.Record
import Mathlib.Data.List.Nodup

set_option autoImplicit false

/-!
# Rosters as ordered maps

A roster whose places follow its records is a map from names to records that also
remembers the order of first mention. Such a roster is determined by its names and by
what each name leads to (`ext_of_find?`), so two ways of building one are compared
name by name. Everything that a survey does to a roster is one operation: `touch`
enters a name and changes the record that it leads to.
-/

namespace Survey
namespace Roster

variable {α : Type}

/-- The names of the records, in the order of the records. -/
def names (key : α → String) (roster : Roster α) : List String := roster.records.map key

/-- The places are those of the names of the records, and no name is there twice. -/
structure Indexed (key : α → String) (roster : Roster α) : Prop where
  places_eq : roster.places = (roster.names key).zipIdx
  nodup : (roster.names key).Nodup

theorem empty_indexed (key : α → String) : (empty : Roster α).Indexed key :=
  ⟨rfl, List.nodup_nil⟩

/-- Enter a name and change the record that it leads to. -/
def touch (roster : Roster α) (name : String) (fresh : α) (change : α → α) : Roster α :=
  (roster.enter name fresh).2.update (roster.enter name fresh).1 change

private theorem lookup_zipIdx_of_notMem {names : List String} {name : String}
    (absent : name ∉ names) (first : Nat) : (names.zipIdx first).lookup name = none := by
  induction names generalizing first with
  | nil => rfl
  | cons head rest ih =>
      rw [List.mem_cons, not_or] at absent
      rw [List.zipIdx_cons, List.lookup_cons, beq_false_of_ne absent.1]
      exact ih absent.2 (first + 1)

private theorem lookup_zipIdx_of_split {before after : List String} {name : String}
    (absent : name ∉ before) (first : Nat) :
    ((before ++ name :: after).zipIdx first).lookup name = some (first + before.length) := by
  induction before generalizing first with
  | nil =>
      rw [List.nil_append, List.zipIdx_cons, List.lookup_cons, beq_self_eq_true]
      rfl
  | cons head rest ih =>
      rw [List.mem_cons, not_or] at absent
      rw [List.cons_append, List.zipIdx_cons, List.lookup_cons, beq_false_of_ne absent.1]
      rw [List.length_cons, Nat.add_comm rest.length 1, ← Nat.add_assoc]
      exact ih absent.2 (first + 1)

private theorem modify_middle (before after : List α) (record : α) (change : α → α) :
    (before ++ record :: after).modify before.length change = before ++ change record :: after := by
  induction before with
  | nil => rfl
  | cons head rest ih =>
      rw [List.cons_append, List.length_cons, List.modify_succ_cons, ih, List.cons_append]

namespace Indexed

variable {key : α → String} {roster other : Roster α} {name : String}

theorem place?_of_notMem (indexed : roster.Indexed key) (absent : name ∉ roster.names key) :
    roster.place? name = none := by
  unfold place?
  rw [indexed.places_eq]
  exact lookup_zipIdx_of_notMem absent 0

theorem find?_of_notMem (indexed : roster.Indexed key) (absent : name ∉ roster.names key) :
    roster.find? name = none := by
  unfold find?
  rw [indexed.place?_of_notMem absent]
  rfl

/-- A name that is there splits the records around the one that it leads to. -/
theorem split_of_mem (indexed : roster.Indexed key) (member : name ∈ roster.names key) :
    ∃ before record after, roster.records = before ++ record :: after ∧ key record = name ∧
      name ∉ before.map key ∧ name ∉ after.map key ∧
      roster.place? name = some before.length := by
  obtain ⟨record, recordMember, rfl⟩ := List.mem_map.mp member
  obtain ⟨before, after, split⟩ := List.append_of_mem recordMember
  have distinct := indexed.nodup
  unfold names at distinct
  rw [split, List.map_append, List.map_cons, List.nodup_middle, List.nodup_cons,
    List.mem_append, not_or] at distinct
  refine ⟨before, record, after, split, rfl, distinct.1.1, distinct.1.2, ?_⟩
  unfold place?
  rw [indexed.places_eq, names, split, List.map_append, List.map_cons,
    lookup_zipIdx_of_split distinct.1.1, Nat.zero_add, List.length_map]

theorem find?_of_split (indexed : roster.Indexed key) {before after : List α} {record : α}
    (split : roster.records = before ++ record :: after) :
    roster.find? (key record) = some record := by
  have member : key record ∈ roster.names key := by
    unfold names
    rw [split]
    simp
  have distinct := indexed.nodup
  unfold names at distinct
  rw [split, List.map_append, List.map_cons, List.nodup_middle, List.nodup_cons,
    List.mem_append, not_or] at distinct
  unfold find? place?
  rw [indexed.places_eq, names, split, List.map_append, List.map_cons,
    lookup_zipIdx_of_split distinct.1.1, Nat.zero_add, List.length_map, Option.bind_some]
  simp

theorem find?_of_mem (indexed : roster.Indexed key) {record : α}
    (member : record ∈ roster.records) : roster.find? (key record) = some record := by
  obtain ⟨before, after, split⟩ := List.append_of_mem member
  exact indexed.find?_of_split split

/-- A name leads to a record exactly when the record is there and has the name. -/
theorem find?_eq_some_iff (indexed : roster.Indexed key) {record : α} :
    roster.find? name = some record ↔ record ∈ roster.records ∧ key record = name := by
  constructor
  · intro found
    by_cases member : name ∈ roster.names key
    · obtain ⟨before, there, after, split, named, -, -, -⟩ := indexed.split_of_mem member
      rw [← named, indexed.find?_of_split split] at found
      cases found
      exact ⟨by rw [split]; simp, named⟩
    · rw [indexed.find?_of_notMem member] at found
      cases found
  · rintro ⟨member, rfl⟩
    exact indexed.find?_of_mem member

theorem find?_isSome_iff (indexed : roster.Indexed key) :
    (roster.find? name).isSome = true ↔ name ∈ roster.names key := by
  constructor
  · intro isSome
    obtain ⟨record, found⟩ := Option.isSome_iff_exists.mp isSome
    obtain ⟨member, rfl⟩ := indexed.find?_eq_some_iff.mp found
    exact List.mem_map_of_mem member
  · intro member
    obtain ⟨record, recordMember, rfl⟩ := List.mem_map.mp member
    rw [indexed.find?_of_mem recordMember]
    rfl

private theorem map_find? (indexed : roster.Indexed key) :
    (roster.names key).map roster.find? = roster.records.map some := by
  unfold names
  rw [List.map_map]
  apply List.map_congr_left
  intro record member
  exact indexed.find?_of_mem member

/-- Names and what they lead to make up the whole roster. -/
theorem ext_of_find? (left : roster.Indexed key) (right : other.Indexed key)
    (sameNames : roster.names key = other.names key)
    (sameRecords : ∀ name, roster.find? name = other.find? name) : roster = other := by
  have records : roster.records = other.records := by
    have mapped : roster.records.map some = other.records.map some := by
      rw [← left.map_find?, ← right.map_find?, sameNames]
      apply List.map_congr_left
      intro name _
      exact sameRecords name
    exact List.map_injective_iff.mpr (fun _ _ => Option.some.inj) mapped
  have places : roster.places = other.places := by
    rw [left.places_eq, right.places_eq, sameNames]
  cases roster
  cases other
  subst records places
  rfl

/-! ### Touching a name -/

variable {fresh : α} {change : α → α}

theorem touch_of_split {before after : List α} {record : α}
    (split : roster.records = before ++ record :: after)
    (place : roster.place? (key record) = some before.length) :
    roster.touch (key record) fresh change =
      ⟨before ++ change record :: after, roster.places⟩ := by
  unfold touch
  rw [enter_of_place place]
  unfold update
  rw [split, modify_middle]

theorem touch_of_notMem (indexed : roster.Indexed key) (absent : name ∉ roster.names key) :
    roster.touch name fresh change =
      ⟨roster.records ++ [change fresh], roster.places ++ [(name, roster.records.length)]⟩ := by
  unfold touch enter
  rw [indexed.place?_of_notMem absent]
  unfold update
  dsimp only
  rw [modify_middle]

/-- Touching a name changes one record, which is a new one at the end if the name is
new. -/
theorem touch_cases (indexed : roster.Indexed key) (name : String) (fresh : α)
    (change : α → α) :
    (∃ before record after, roster.records = before ++ record :: after ∧ key record = name ∧
      (roster.touch name fresh change).records = before ++ change record :: after) ∨
    (name ∉ roster.names key ∧
      (roster.touch name fresh change).records = roster.records ++ [change fresh]) := by
  by_cases member : name ∈ roster.names key
  · left
    obtain ⟨before, record, after, split, rfl, -, -, place⟩ := indexed.split_of_mem member
    refine ⟨before, record, after, split, rfl, ?_⟩
    rw [touch_of_split split place]
  · right
    refine ⟨member, ?_⟩
    rw [indexed.touch_of_notMem member]

theorem names_touch (indexed : roster.Indexed key)
    (keepsKey : ∀ record, key (change record) = key record) (named : key fresh = name) :
    (roster.touch name fresh change).names key =
      if name ∈ roster.names key then roster.names key else roster.names key ++ [name] := by
  by_cases member : name ∈ roster.names key
  · rw [if_pos member]
    obtain ⟨before, record, after, split, rfl, -, -, place⟩ := indexed.split_of_mem member
    rw [touch_of_split split place]
    unfold names
    rw [split]
    simp [keepsKey]
  · rw [if_neg member, indexed.touch_of_notMem member]
    unfold names
    simp [keepsKey, named]

theorem touch (indexed : roster.Indexed key) (keepsKey : ∀ record, key (change record) = key record)
    (named : key fresh = name) : (roster.touch name fresh change).Indexed key := by
  have sameNames := indexed.names_touch keepsKey named
  by_cases member : name ∈ roster.names key
  · rw [if_pos member] at sameNames
    refine ⟨?_, ?_⟩
    · rw [sameNames, ← indexed.places_eq]
      obtain ⟨before, record, after, split, rfl, -, -, place⟩ := indexed.split_of_mem member
      rw [touch_of_split split place]
    · rw [sameNames]
      exact indexed.nodup
  · rw [if_neg member] at sameNames
    refine ⟨?_, ?_⟩
    · rw [sameNames, indexed.touch_of_notMem member, indexed.places_eq, List.zipIdx_append]
      simp [names]
    · rw [sameNames, ← List.concat_eq_append, List.nodup_concat]
      exact ⟨member, indexed.nodup⟩

/-- Only the touched name leads to something else than before. -/
theorem find?_touch (indexed : roster.Indexed key)
    (keepsKey : ∀ record, key (change record) = key record) (named : key fresh = name)
    (sought : String) :
    (roster.touch name fresh change).find? sought =
      if sought = name then some (change ((roster.find? name).getD fresh))
      else roster.find? sought := by
  have touched := indexed.touch keepsKey named
  rcases indexed.touch_cases name fresh change with
    ⟨before, record, after, split, rfl, records⟩ | ⟨absent, records⟩
  · rw [indexed.find?_of_split split]
    by_cases same : sought = key record
    · subst same
      rw [if_pos rfl, Option.getD_some]
      exact (congrArg _ (keepsKey record).symm).trans (touched.find?_of_split records)
    · rw [if_neg same]
      apply Option.ext
      intro candidate
      rw [touched.find?_eq_some_iff, indexed.find?_eq_some_iff, records, split]
      simp only [List.mem_append, List.mem_cons]
      constructor
      · rintro ⟨inBefore | rfl | inAfter, rfl⟩
        · exact ⟨Or.inl inBefore, rfl⟩
        · exact absurd (keepsKey record) same
        · exact ⟨Or.inr (Or.inr inAfter), rfl⟩
      · rintro ⟨inBefore | rfl | inAfter, rfl⟩
        · exact ⟨Or.inl inBefore, rfl⟩
        · exact absurd rfl same
        · exact ⟨Or.inr (Or.inr inAfter), rfl⟩
  · rw [indexed.find?_of_notMem absent, Option.getD_none]
    by_cases same : sought = name
    · subst same
      rw [if_pos rfl]
      exact (congrArg _ ((keepsKey fresh).trans named).symm).trans
        (touched.find?_of_split records)
    · rw [if_neg same]
      apply Option.ext
      intro candidate
      rw [touched.find?_eq_some_iff, indexed.find?_eq_some_iff, records]
      simp only [List.mem_append, List.mem_singleton]
      constructor
      · rintro ⟨inRecords | rfl, rfl⟩
        · exact ⟨inRecords, rfl⟩
        · exact absurd ((keepsKey fresh).trans named) same
      · rintro ⟨inRecords, rfl⟩
        exact ⟨Or.inl inRecords, rfl⟩

end Indexed
/-- Do an edit, if there is one: a name with what becomes of its record. -/
def edit (fresh : String → α) (roster : Roster α) : Option (String × (α → α)) → Roster α
  | none => roster
  | some (name, change) => roster.touch name (fresh name) change

@[simp] theorem edit_none (fresh : String → α) (roster : Roster α) :
    roster.edit fresh none = roster := rfl

@[simp] theorem edit_some (fresh : String → α) (roster : Roster α) (name : String)
    (change : α → α) :
    roster.edit fresh (some (name, change)) = roster.touch name (fresh name) change := rfl

/-- An edit that leaves the name of a record alone. -/
def KeepsKey (key : α → String) (edit? : Option (String × (α → α))) : Prop :=
  ∀ name change, edit? = some (name, change) → ∀ record, key (change record) = key record

namespace Indexed

variable {key : α → String} {roster : Roster α} {fresh : String → α}
variable {edit? : Option (String × (α → α))}

theorem edit (indexed : roster.Indexed key) (named : ∀ name, key (fresh name) = name)
    (keeps : KeepsKey key edit?) : (roster.edit fresh edit?).Indexed key := by
  cases edit? with
  | none => exact indexed
  | some pair => exact indexed.touch (keeps pair.1 pair.2 rfl) (named pair.1)

theorem find?_edit (indexed : roster.Indexed key) (named : ∀ name, key (fresh name) = name)
    {name : String} {change : α → α} (keeps : KeepsKey key (some (name, change)))
    (sought : String) :
    (roster.edit fresh (some (name, change))).find? sought =
      if sought = name then some (change ((roster.find? name).getD (fresh name)))
      else roster.find? sought :=
  indexed.find?_touch (keeps name change rfl) (named name) sought

end Indexed
end Roster
end Survey
