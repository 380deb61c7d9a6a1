import Survey.Proofs.InventoryContents

set_option autoImplicit false

/-!
# Merging inventories

The inventory of two parts of a text is put together from the inventories of the parts.
Plain lists are joined. Records of types and traits are merged by name: the order is that
of the first mention, and a record of the first part takes in what the second part knows
under its name. Writing down the findings of both parts one after the other comes to the
same (`ofFindings_append`), because every edit of a record commutes with taking in.
-/

namespace Survey

/-- A type with what a later part of the text knows about it. -/
def TypeRecord.absorb (type later : TypeRecord) : TypeRecord where
  name := type.name
  span? := type.span? <|> later.span?
  methods := type.methods ++ later.methods
  traits := type.traits ++ later.traits.filter fun traitName => decide (traitName ∉ type.traits)

/-- A trait with what a later part of the text knows about it. -/
def TraitRecord.absorb (record later : TraitRecord) : TraitRecord where
  name := record.name
  span? := record.span? <|> later.span?

namespace Roster

variable {α : Type}

/-- Each record of the first roster takes in the one that its name leads to in the
second. The records of new names follow in their order. -/
def merge (key : α → String) (absorb : α → α → α) (first second : Roster α) : Roster α :=
  let records :=
    first.records.map (fun record => (second.find? (key record)).elim record (absorb record)) ++
      second.records.filter fun record => decide (key record ∉ first.names key)
  ⟨records, (records.map key).zipIdx⟩

/-- What taking in must respect: names stay, and of a fresh record there is nothing to
take in. -/
structure Absorbs (key : α → String) (fresh : String → α) (absorb : α → α → α) : Prop where
  fresh_key : ∀ name, key (fresh name) = name
  absorb_key : ∀ record later, key (absorb record later) = key record
  absorb_fresh : ∀ record name, absorb record (fresh name) = record

/-- To edit what is taken in is to edit what takes in. -/
def Commutes (absorb : α → α → α) (edit? : Option (String × (α → α))) : Prop :=
  ∀ name change, edit? = some (name, change) →
    ∀ record later, absorb record (change later) = change (absorb record later)

namespace Absorbs

variable {key : α → String} {fresh : String → α} {absorb : α → α → α}
variable {first second : Roster α}

theorem names_merge (absorbs : Absorbs key fresh absorb) (first second : Roster α) :
    (first.merge key absorb second).names key =
      first.names key ++
        (second.names key).filter fun name => decide (name ∉ first.names key) := by
  have same : ∀ record : α,
      key ((second.find? (key record)).elim record (absorb record)) = key record := by
    intro record
    cases second.find? (key record) with
    | none => rfl
    | some later => exact absorbs.absorb_key record later
  unfold merge names
  rw [List.map_append, List.map_map, List.filter_map]
  congr 1
  exact List.map_congr_left fun record _ => same record

theorem merge_indexed (absorbs : Absorbs key fresh absorb) (left : first.Indexed key)
    (right : second.Indexed key) : (first.merge key absorb second).Indexed key where
  places_eq := rfl
  nodup := by
    rw [absorbs.names_merge, List.nodup_append]
    refine ⟨left.nodup, right.nodup.filter _, ?_⟩
    intro name inFirst other isNew same
    subst same
    exact of_decide_eq_true (List.mem_filter.mp isNew).2 inFirst

theorem find?_merge (absorbs : Absorbs key fresh absorb) (left : first.Indexed key)
    (right : second.Indexed key) (name : String) :
    (first.merge key absorb second).find? name =
      match first.find? name with
      | some record => some ((second.find? name).elim record (absorb record))
      | none => second.find? name := by
  have merged := absorbs.merge_indexed left right
  cases inFirst : first.find? name with
  | some record =>
      obtain ⟨member, rfl⟩ := left.find?_eq_some_iff.mp inFirst
      refine merged.find?_eq_some_iff.mpr ⟨?_, ?_⟩
      · apply List.mem_append_left
        exact List.mem_map_of_mem member
      · cases second.find? (key record) with
        | none => rfl
        | some later => exact absorbs.absorb_key record later
  | none =>
      have absent : name ∉ first.names key := by
        intro member
        rw [← left.find?_isSome_iff, inFirst] at member
        cases member
      cases inSecond : second.find? name with
      | some record =>
          obtain ⟨member, rfl⟩ := right.find?_eq_some_iff.mp inSecond
          apply merged.find?_of_mem
          apply List.mem_append_right
          exact List.mem_filter.mpr ⟨member, decide_eq_true absent⟩
      | none =>
          apply merged.find?_of_notMem
          rw [absorbs.names_merge, List.mem_append, List.mem_filter, ← right.find?_isSome_iff,
            inSecond]
          simp [absent]

theorem merge_empty (absorbs : Absorbs key fresh absorb) (left : first.Indexed key) :
    first.merge key absorb .empty = first := by
  have right : (empty : Roster α).Indexed key := empty_indexed key
  apply (absorbs.merge_indexed left right).ext_of_find? left
  · rw [absorbs.names_merge]
    exact List.append_nil _
  · intro name
    rw [absorbs.find?_merge left right]
    cases first.find? name <;> rfl

theorem names_merge_edit (absorbs : Absorbs key fresh absorb) (left : first.Indexed key)
    (right : second.Indexed key) {edit? : Option (String × (α → α))} (keeps : KeepsKey key edit?) :
    (first.merge key absorb (second.edit fresh edit?)).names key =
      ((first.merge key absorb second).edit fresh edit?).names key := by
  cases edit? with
  | none => rfl
  | some pair =>
      obtain ⟨name, change⟩ := pair
      have merged := absorbs.merge_indexed left right
      rw [absorbs.names_merge, edit_some, edit_some,
        right.names_touch (keeps name change rfl) (absorbs.fresh_key name),
        merged.names_touch (keeps name change rfl) (absorbs.fresh_key name), absorbs.names_merge]
      simp only [List.mem_append, List.mem_filter, decide_eq_true_eq]
      by_cases inFirst : name ∈ first.names key
      · by_cases inSecond : name ∈ second.names key
        · simp [inFirst, inSecond]
        · simp [inFirst, inSecond]
      · by_cases inSecond : name ∈ second.names key
        · simp [inFirst, inSecond]
        · simp [inFirst, inSecond]

theorem find?_merge_edit (absorbs : Absorbs key fresh absorb) (left : first.Indexed key)
    (right : second.Indexed key) {edit? : Option (String × (α → α))} (keeps : KeepsKey key edit?)
    (commutes : Commutes absorb edit?) (sought : String) :
    (first.merge key absorb (second.edit fresh edit?)).find? sought =
      ((first.merge key absorb second).edit fresh edit?).find? sought := by
  cases edit? with
  | none => rfl
  | some pair =>
      obtain ⟨name, change⟩ := pair
      have changes := commutes name change rfl
      have merged := absorbs.merge_indexed left right
      have edited := right.edit absorbs.fresh_key keeps
      rw [absorbs.find?_merge left edited, right.find?_edit absorbs.fresh_key keeps,
        merged.find?_edit absorbs.fresh_key keeps, absorbs.find?_merge left right,
        absorbs.find?_merge left right]
      by_cases same : sought = name
      · subst same
        rw [if_pos rfl, if_pos rfl]
        cases first.find? sought with
        | none => rfl
        | some record =>
            cases second.find? sought with
            | some later => exact congrArg some (changes record later)
            | none =>
                have absorbed := changes record (fresh sought)
                rw [absorbs.absorb_fresh] at absorbed
                exact congrArg some absorbed
      · rw [if_neg same, if_neg same]

/-- Editing after a merge is merging with what was edited. -/
theorem merge_edit (absorbs : Absorbs key fresh absorb) (left : first.Indexed key)
    (right : second.Indexed key) {edit? : Option (String × (α → α))} (keeps : KeepsKey key edit?)
    (commutes : Commutes absorb edit?) :
    first.merge key absorb (second.edit fresh edit?) =
      (first.merge key absorb second).edit fresh edit? := by
  have edited := right.edit absorbs.fresh_key keeps
  have merged := absorbs.merge_indexed left right
  exact (absorbs.merge_indexed left edited).ext_of_find? (merged.edit absorbs.fresh_key keeps)
    (absorbs.names_merge_edit left right keeps)
    (absorbs.find?_merge_edit left right keeps commutes)

end Absorbs
end Roster

theorem TypeRecord.absorbs :
    Roster.Absorbs TypeRecord.name TypeRecord.named TypeRecord.absorb where
  fresh_key _ := rfl
  absorb_key _ _ := rfl
  absorb_fresh record name := by
    cases record
    simp [absorb, named]

theorem TraitRecord.absorbs :
    Roster.Absorbs TraitRecord.name TraitRecord.named TraitRecord.absorb where
  fresh_key _ := rfl
  absorb_key _ _ := rfl
  absorb_fresh record name := by
    cases record
    simp [absorb, named]

theorem TypeRecord.absorb_addTrait (type later : TypeRecord) (traitName : String) :
    type.absorb (later.addTrait traitName) = (type.absorb later).addTrait traitName := by
  unfold addTrait absorb
  dsimp only
  by_cases known : traitName ∈ later.traits
  · by_cases old : traitName ∈ type.traits
    · simp [known, old]
    · simp [known, old]
  · by_cases old : traitName ∈ type.traits
    · simp [known, old]
    · simp [known, old]

theorem Finding.typeEdit?_commutes (finding : Finding) :
    Roster.Commutes TypeRecord.absorb finding.typeEdit? := by
  intro name change edited type later
  cases finding with
  | function draft blocks =>
      simp only [typeEdit?, Option.bind_eq_some_iff, Option.map_eq_some_iff, Prod.mk.injEq] at edited
      obtain ⟨function, -, owner, -, -, rfl⟩ := edited
      simp [TypeRecord.absorb, TypeRecord.addMethod]
  | struct declared extent =>
      simp only [typeEdit?, Option.map_eq_some_iff, Prod.mk.injEq] at edited
      obtain ⟨span, -, -, rfl⟩ := edited
      simp [TypeRecord.absorb, TypeRecord.declare]
  | target typeName traitName? =>
      cases traitName? with
      | none =>
          cases edited
          rfl
      | some traitName =>
          cases edited
          exact TypeRecord.absorb_addTrait type later traitName
  | _ => cases edited

theorem Finding.traitEdit?_commutes (finding : Finding) :
    Roster.Commutes TraitRecord.absorb finding.traitEdit? := by
  intro name change edited record later
  cases finding with
  | trait declared extent =>
      simp only [traitEdit?, Option.map_eq_some_iff, Prod.mk.injEq] at edited
      obtain ⟨span, -, -, rfl⟩ := edited
      simp [TraitRecord.absorb, TraitRecord.declare]
  | target typeName traitName? =>
      cases traitName? with
      | none => cases edited
      | some traitName =>
          cases edited
          rfl
  | _ => cases edited

namespace Inventory

/-- The inventory of a text from those of its two parts. -/
def merge (first second : Inventory) : Inventory where
  functions := first.functions ++ second.functions
  types := first.types.merge TypeRecord.name TypeRecord.absorb second.types
  enums := first.enums ++ second.enums
  traits := first.traits.merge TraitRecord.name TraitRecord.absorb second.traits
  tests := first.tests ++ second.tests
  unsafeBlocks := first.unsafeBlocks ++ second.unsafeBlocks
  testModuleLine? := first.testModuleLine? <|> second.testModuleLine?
  length := first.length + second.length

theorem merge_note (first second : List Finding) (finding : Finding) :
    (ofFindings first).merge ((ofFindings second).note finding) =
      ((ofFindings first).merge (ofFindings second)).note finding := by
  have types := TypeRecord.absorbs.merge_edit (ofFindings_types_indexed first)
    (ofFindings_types_indexed second) (typeEdit?_keepsKey finding) finding.typeEdit?_commutes
  have traits := TraitRecord.absorbs.merge_edit (ofFindings_traits_indexed first)
    (ofFindings_traits_indexed second) (traitEdit?_keepsKey finding) finding.traitEdit?_commutes
  unfold merge note
  dsimp only
  rw [types, traits]
  simp [Option.or_assoc]

theorem merge_empty (found : List Finding) : (ofFindings found).merge empty = ofFindings found := by
  have types := TypeRecord.absorbs.merge_empty (ofFindings_types_indexed found)
  have traits := TraitRecord.absorbs.merge_empty (ofFindings_traits_indexed found)
  unfold merge empty
  dsimp only
  rw [types, traits]
  simp

/-- What is written down for two lists of findings is merged from what is written down
for each. -/
theorem ofFindings_append (first second : List Finding) :
    ofFindings (first ++ second) = (ofFindings first).merge (ofFindings second) := by
  induction second using List.reverseRecOn with
  | nil =>
      rw [List.append_nil]
      exact (merge_empty first).symm
  | append_singleton second finding ih =>
      rw [← List.append_assoc, ofFindings_concat, ofFindings_concat, ih, merge_note]

end Inventory
end Survey
