import Mathlib.Data.List.Nodup
import Survey.Proofs.InventoryContents

set_option autoImplicit false

/-!
# Histories of edits

What some edits say when they have been done one after the other: the names in the order of
their first mention, and for each name the first span that was given for it and what was added
at its place. An edit is refused where the place that it addresses is not that of a name yet, so
the place of a name can be read in the order at the end as well as in the order at the time.
`typeRecord_changed` says what one more edit makes of a record.
-/

namespace Survey

/-- Why an extent is no span. -/
def Extent.fault? (extent : Extent) : Option Fault :=
  if extent.start.offset ≤ extent.stop.offset then none
  else some (.reversedSpan extent.start.offset extent.stop.offset)

namespace Edit

/-! ### What an edit says -/

/-- The place of the type that is addressed. -/
@[simp] def place? : Edit → Option Nat
  | .addTypeTrait place _ | .addMethod place _ | .renameType place _ | .readType place =>
      some place
  | _ => none

/-- The extents that are to be spans. -/
@[simp] def extents : Edit → List Extent
  | .addFunction draft | .addMethod _ draft => [draft.extent]
  | .addEnum _ _ extent | .addTest _ extent | .declareType _ extent
  | .declareTrait _ extent => [extent]
  | .addUnsafeBlocks extents => extents
  | _ => []

/-- Why the edit is refused while there are this many types. The place comes before the
extents. -/
def fault? (count : Nat) (edit : Edit) : Option Fault :=
  (edit.place?.bind fun place =>
    if place < count then none else some (.indexOutOfBounds count place)) <|>
  edit.extents.findSome? Extent.fault?

/-- The type that is mentioned. -/
def typeName? : Edit → Option String
  | .enterType name | .declareType name _ => some name
  | _ => none

/-- The trait that is mentioned. -/
def traitName? : Edit → Option String
  | .enterTrait name | .declareTrait name _ => some name
  | _ => none

/-- Where the type of this name is declared. -/
@[simp] def typeSpan? (name : String) : Edit → Option Span
  | .declareType declared extent => if declared = name then extent.span.toOption else none
  | _ => none

/-- Where the trait of this name is declared. -/
@[simp] def traitSpan? (name : String) : Edit → Option Span
  | .declareTrait declared extent => if declared = name then extent.span.toOption else none
  | _ => none

/-- The method that is added at this place. -/
@[simp] def methodAt? (place : Nat) : Edit → Option FunctionRecord
  | .addMethod there draft => if there = place then draft.record.toOption else none
  | _ => none

/-- The trait that is added at this place. -/
@[simp] def traitAt? (place : Nat) : Edit → Option String
  | .addTypeTrait there traitName => if there = place then some traitName else none
  | _ => none

@[simp] def function? : Edit → Option FunctionRecord
  | .addFunction draft => draft.record.toOption
  | _ => none

@[simp] def enum? : Edit → Option EnumRecord
  | .addEnum name variants extent => extent.span.toOption.map fun span => ⟨name, span, variants⟩
  | _ => none

@[simp] def test? : Edit → Option TestRecord
  | .addTest name extent => extent.span.toOption.map fun span => ⟨name, span⟩
  | _ => none

@[simp] def blocks : Edit → List Span
  | .addUnsafeBlocks extents => extents.filterMap fun extent => extent.span.toOption
  | _ => []

@[simp] def testModule? : Edit → Option Nat
  | .markTestModule line => some line
  | _ => none

/-! ### What a history says -/

/-- The types in the order of their first mention. -/
def typeNames (done : List Edit) : List String := (done.filterMap typeName?).eraseDups

/-- The traits in the order of their first mention. -/
def traitNames (done : List Edit) : List String := (done.filterMap traitName?).eraseDups

/-- The record of a type: the first span given for its name, and what was added at its
place. -/
def typeRecord (done : List Edit) (name : String) : TypeRecord where
  name := name
  span? := done.findSome? (typeSpan? name)
  methods := done.filterMap (methodAt? ((typeNames done).idxOf name))
  traits := (done.filterMap (traitAt? ((typeNames done).idxOf name))).eraseDups

/-- The record of a trait. -/
def traitRecord (done : List Edit) (name : String) : TraitRecord where
  name := name
  span? := done.findSome? (traitSpan? name)

/-- The edits that are done once another is tried. -/
def accept (done : List Edit) (edit : Edit) : List Edit :=
  if (edit.fault? (typeNames done).length).isSome then done else done ++ [edit]

/-- The edits of a history that are done. -/
def accepted (history : List Edit) : List Edit := history.foldl accept []

/-- What an edit replies that is done, given the places of the names and the types. -/
@[simp] def reply (typePlace traitPlace : String → Nat) (typeAt? : Nat → Option TypeRecord) :
    Edit → EditResult
  | .enterType name | .declareType name _ => .place (typePlace name)
  | .enterTrait name | .declareTrait name _ => .place (traitPlace name)
  | .readType place => (typeAt? place).elim .done .type
  | _ => .done

/-- What an edit answers after some edits were done, where the places of names are those
in a whole history. -/
def answer (before whole : List Edit) (edit : Edit) : Except Fault EditResult :=
  match edit.fault? (typeNames before).length with
  | some fault => .error fault
  | none => .ok (edit.reply (fun name => (typeNames whole).idxOf name)
      (fun name => (traitNames whole).idxOf name)
      fun place => (typeNames before)[place]?.map (typeRecord before))

end Edit

/-! ### Names and records after another edit -/

namespace Roster

/-- The names once another is mentioned. -/
def entered (names : List String) : Option String → List String
  | none => names
  | some name => if name ∈ names then names else names ++ [name]

theorem entered_some (names : List String) (name : String) :
    entered names (some name) = if name ∈ names then names else names ++ [name] := rfl

theorem mem_entered (names : List String) (name : String) : name ∈ entered names (some name) := by
  rw [entered_some]
  by_cases member : name ∈ names
  · rw [if_pos member]
    exact member
  · rw [if_neg member]
    exact List.mem_concat_self

theorem entered_of_mem {names : List String} {name : String} (member : name ∈ names) :
    entered names (some name) = names := if_pos member

end Roster

namespace Extent

/-- An extent has a fault, or it has a span. -/
theorem span_cases (extent : Extent) :
    (∃ fault, extent.fault? = some fault ∧ extent.span = .error fault) ∨
      (extent.fault? = none ∧ ∃ span, extent.span = .ok span) := by
  unfold fault? span Span.between
  by_cases ordered : extent.start.offset ≤ extent.stop.offset
  · right
    rw [if_pos ordered, dif_pos ordered]
    exact ⟨rfl, _, rfl⟩
  · left
    rw [if_neg ordered, dif_neg ordered]
    exact ⟨_, rfl, rfl⟩

theorem span_of_sound {extent : Extent} (sound : extent.fault? = none) :
    ∃ span, extent.span = .ok span := by
  rcases extent.span_cases with ⟨fault, faulty, -⟩ | ⟨-, spanned⟩
  · rw [sound] at faulty
    cases faulty
  · exact spanned

end Extent

theorem TypeRecord.addTrait_eq (type : TypeRecord) (traitName : String) :
    type.addTrait traitName =
      { type with traits := Roster.entered type.traits (some traitName) } := by
  unfold addTrait
  rw [Roster.entered_some]
  split <;> rfl

namespace Edit

variable {done : List Edit} {edit : Edit} {name : String}

/-- The type that is entered or addressed, and what becomes of its record. -/
@[simp] def typeEdit? (names : List String) : Edit → Option (String × (TypeRecord → TypeRecord))
  | .enterType name => some (name, id)
  | .declareType name extent => extent.span.toOption.map fun span => (name, (·.declare span))
  | .addTypeTrait place traitName => names[place]?.map fun name => (name, (·.addTrait traitName))
  | .addMethod place draft =>
      draft.record.toOption.bind fun method =>
        names[place]?.map fun name => (name, (·.addMethod method))
  | _ => none

/-- The trait that is entered, and what becomes of its record. -/
@[simp] def traitEdit? : Edit → Option (String × (TraitRecord → TraitRecord))
  | .enterTrait name => some (name, id)
  | .declareTrait name extent => extent.span.toOption.map fun span => (name, (·.declare span))
  | _ => none

theorem typeEdit?_keepsKey (names : List String) (edit : Edit) :
    Roster.KeepsKey TypeRecord.name (edit.typeEdit? names) := by
  intro name change edited record
  cases edit with
  | enterType entered =>
      cases edited
      rfl
  | declareType declared extent =>
      obtain ⟨span, -, same⟩ := Option.map_eq_some_iff.mp edited
      cases same
      rfl
  | addTypeTrait place traitName =>
      obtain ⟨there, -, same⟩ := Option.map_eq_some_iff.mp edited
      cases same
      dsimp only [TypeRecord.addTrait]
      split <;> rfl
  | addMethod place draft =>
      obtain ⟨method, -, added⟩ := Option.bind_eq_some_iff.mp edited
      obtain ⟨there, -, same⟩ := Option.map_eq_some_iff.mp added
      cases same
      rfl
  | _ => cases edited

theorem traitEdit?_keepsKey (edit : Edit) :
    Roster.KeepsKey TraitRecord.name edit.traitEdit? := by
  intro name change edited record
  cases edit with
  | enterTrait entered =>
      cases edited
      rfl
  | declareTrait declared extent =>
      obtain ⟨span, -, same⟩ := Option.map_eq_some_iff.mp edited
      cases same
      rfl
  | _ => cases edited

theorem fault?_eq_none_iff {count : Nat} :
    edit.fault? count = none ↔ (∀ place, edit.place? = some place → place < count) ∧
      ∀ extent ∈ edit.extents, extent.fault? = none := by
  unfold fault?
  rw [← List.findSome?_eq_none_iff]
  cases edit.place? with
  | none => simp
  | some place => simp [Option.bind_some]

theorem eraseDups_concat (names : List String) (name : String) :
    (names ++ [name]).eraseDups = Roster.entered names.eraseDups (some name) := by
  have sameMember : name ∈ names.eraseDups ↔ name ∈ names := List.mem_eraseDups
  rw [List.eraseDups_append, Roster.entered_some]
  by_cases member : name ∈ names
  · rw [if_pos (sameMember.mpr member)]
    simp [List.removeAll, member]
  · rw [if_neg (mt sameMember.mp member)]
    simp [List.removeAll, member, List.eraseDups_cons]

theorem filterMap_concat {β : Type} (read : Edit → Option β) (done : List Edit)
    (edit : Edit) :
    (done ++ [edit]).filterMap read = done.filterMap read ++ (read edit).toList := by
  rw [List.filterMap_append]
  cases added : read edit with
  | none => rw [List.filterMap_cons_none added, List.filterMap_nil, Option.toList_none]
  | some value => rw [List.filterMap_cons_some added, List.filterMap_nil, Option.toList_some]

private theorem eraseDups_filterMap_concat (read : Edit → Option String) (done : List Edit)
    (edit : Edit) :
    ((done ++ [edit]).filterMap read).eraseDups =
      Roster.entered (done.filterMap read).eraseDups (read edit) := by
  rw [filterMap_concat]
  cases read edit with
  | none =>
      rw [Option.toList_none, List.append_nil]
      rfl
  | some name => exact eraseDups_concat _ name

theorem typeNames_concat (done : List Edit) (edit : Edit) :
    typeNames (done ++ [edit]) = Roster.entered (typeNames done) edit.typeName? :=
  eraseDups_filterMap_concat typeName? done edit

theorem traitNames_concat (done : List Edit) (edit : Edit) :
    traitNames (done ++ [edit]) = Roster.entered (traitNames done) edit.traitName? :=
  eraseDups_filterMap_concat traitName? done edit

/-- What an edit that is done enters are the names that it mentions. -/
theorem entered_typeEdit? (sound : edit.fault? (typeNames done).length = none) :
    Roster.entered (typeNames done) ((edit.typeEdit? (typeNames done)).map Prod.fst) =
      Roster.entered (typeNames done) edit.typeName? := by
  obtain ⟨inside, spanned⟩ := fault?_eq_none_iff.mp sound
  cases edit with
  | declareType name extent =>
      obtain ⟨span, isSpan⟩ := Extent.span_of_sound (spanned extent (by simp))
      simp [isSpan, Except.toOption, typeName?]
  | addTypeTrait place traitName =>
      have there := List.getElem?_eq_getElem (inside place rfl)
      simp only [typeEdit?, there, Option.map_some]
      exact Roster.entered_of_mem (List.getElem_mem _)
  | addMethod place draft =>
      have there := List.getElem?_eq_getElem (inside place rfl)
      cases recorded : draft.record.toOption with
      | none =>
          simp only [typeEdit?, recorded, Option.bind_none, Option.map_none]
          rfl
      | some method =>
          simp only [typeEdit?, recorded, there, Option.bind_some, Option.map_some]
          exact Roster.entered_of_mem (List.getElem_mem _)
  | _ => rfl

theorem entered_traitEdit? {count : Nat} (sound : edit.fault? count = none) :
    edit.traitEdit?.map Prod.fst = edit.traitName? := by
  obtain ⟨-, spanned⟩ := fault?_eq_none_iff.mp sound
  cases edit with
  | declareTrait name extent =>
      obtain ⟨span, isSpan⟩ := Extent.span_of_sound (spanned extent (by simp))
      simp [isSpan, Except.toOption, traitName?]
  | _ => rfl

/-- The places that edits address are those of names mentioned by then. -/
def Placed (done : List Edit) : Prop :=
  ∀ edit ∈ done, ∀ place, edit.place? = some place → place < (typeNames done).length

private theorem idxOf_eraseDups_append {read : Edit → Option String}
    (member : name ∈ (done.filterMap read).eraseDups) (more : List Edit) :
    ((done ++ more).filterMap read).eraseDups.idxOf name =
      (done.filterMap read).eraseDups.idxOf name := by
  rw [List.filterMap_append, List.eraseDups_append, List.idxOf_append_of_mem member]

theorem idxOf_typeNames_append (member : name ∈ typeNames done) (more : List Edit) :
    (typeNames (done ++ more)).idxOf name = (typeNames done).idxOf name :=
  idxOf_eraseDups_append member more

theorem idxOf_traitNames_append (member : name ∈ traitNames done) (more : List Edit) :
    (traitNames (done ++ more)).idxOf name = (traitNames done).idxOf name :=
  idxOf_eraseDups_append member more

theorem length_le_idxOf_typeNames (absent : name ∉ typeNames done) (more : List Edit) :
    (typeNames done).length ≤ (typeNames (done ++ more)).idxOf name := by
  unfold typeNames at *
  rw [List.filterMap_append, List.eraseDups_append, List.idxOf_append_of_notMem absent]
  exact Nat.le_add_right _ _

/-- What was added at the place of a name is what is added there in a longer history. -/
theorem filterMap_place {β : Type} {read : Nat → Edit → Option β}
    (reads : ∀ place edit value, read place edit = some value → edit.place? = some place)
    (placed : Placed done) (name : String) (more : List Edit) :
    done.filterMap (read ((typeNames (done ++ more)).idxOf name)) =
      done.filterMap (read ((typeNames done).idxOf name)) := by
  by_cases member : name ∈ typeNames done
  · rw [idxOf_typeNames_append member]
  -- The place of a name that is not there lies behind all places that were addressed.
  · have nothing : ∀ place, (typeNames done).length ≤ place →
        done.filterMap (read place) = [] := by
      intro place outside
      rw [List.filterMap_eq_nil_iff]
      intro edit isDone
      rw [Option.eq_none_iff_forall_ne_some]
      intro value isRead
      have inside := placed edit isDone place (reads place edit value isRead)
      omega
    rw [nothing _ (length_le_idxOf_typeNames member more),
      nothing _ (Nat.le_of_eq (List.idxOf_eq_length member).symm)]

theorem place?_of_methodAt? (place : Nat) (edit : Edit) (method : FunctionRecord)
    (added : edit.methodAt? place = some method) : edit.place? = some place := by
  cases edit with
  | addMethod there draft =>
      by_cases same : there = place
      · exact congrArg some same
      · rw [methodAt?, if_neg same] at added
        cases added
  | _ => cases added

theorem place?_of_traitAt? (place : Nat) (edit : Edit) (traitName : String)
    (added : edit.traitAt? place = some traitName) : edit.place? = some place := by
  cases edit with
  | addTypeTrait there name =>
      by_cases same : there = place
      · exact congrArg some same
      · rw [traitAt?, if_neg same] at added
        cases added
  | _ => cases added

/-- One more edit gives a span if there is none, and adds at the place of the name. -/
theorem typeRecord_concat (placed : Placed done) (edit : Edit) (name : String) :
    typeRecord (done ++ [edit]) name =
      { name := name
        span? := (typeRecord done name).span?.or (edit.typeSpan? name)
        methods := (typeRecord done name).methods ++
          (edit.methodAt? ((typeNames (done ++ [edit])).idxOf name)).toList
        traits := Roster.entered (typeRecord done name).traits
          (edit.traitAt? ((typeNames (done ++ [edit])).idxOf name)) } := by
  have methods := filterMap_place place?_of_methodAt? placed name [edit]
  have traits := filterMap_place place?_of_traitAt? placed name [edit]
  unfold typeRecord
  rw [List.findSome?_append, filterMap_concat, eraseDups_filterMap_concat, methods, traits,
    List.findSome?_singleton]

/-- In a list without repetition a place leads to one element. -/
theorem idxOf_eq_iff {names : List String} {there : String} {place : Nat} (name : String)
    (distinct : names.Nodup) (isThere : names[place]? = some there) :
    place = names.idxOf name ↔ there = name := by
  obtain ⟨inside, rfl⟩ := List.getElem?_eq_some_iff.mp isThere
  constructor
  · intro same
    subst same
    exact List.getElem_idxOf inside
  · rintro rfl
    exact (distinct.idxOf_getElem place inside).symm

theorem typeRecord_changed (placed : Placed done) (distinct : (typeNames done).Nodup)
    (sound : edit.fault? (typeNames done).length = none) (name : String) :
    typeRecord (done ++ [edit]) name =
      Inventory.changed (edit.typeEdit? (typeNames done)) name (typeRecord done name) := by
  obtain ⟨inside, -⟩ := fault?_eq_none_iff.mp sound
  rw [typeRecord_concat placed]
  cases edit with
  | declareType declared extent =>
      cases isSpan : extent.span.toOption with
      | none => simp [Inventory.changed, isSpan, Roster.entered, typeRecord]
      | some span =>
          by_cases same : declared = name <;>
            simp [Inventory.changed, isSpan, Roster.entered, same, typeRecord, TypeRecord.declare]
  | addTypeTrait place traitName =>
      obtain ⟨there, isThere⟩ : ∃ there, (typeNames done)[place]? = some there :=
        ⟨_, List.getElem?_eq_getElem (inside place rfl)⟩
      have sameNames : typeNames (done ++ [.addTypeTrait place traitName]) = typeNames done :=
        typeNames_concat done _
      have leads := idxOf_eq_iff name distinct isThere
      by_cases same : there = name
      · simp [Inventory.changed, isThere, sameNames, leads, same, TypeRecord.addTrait_eq,
          typeRecord]
      · simp [Inventory.changed, isThere, sameNames, leads, same, Roster.entered, typeRecord]
  | addMethod place draft =>
      obtain ⟨there, isThere⟩ : ∃ there, (typeNames done)[place]? = some there :=
        ⟨_, List.getElem?_eq_getElem (inside place rfl)⟩
      have sameNames : typeNames (done ++ [.addMethod place draft]) = typeNames done :=
        typeNames_concat done _
      have leads := idxOf_eq_iff name distinct isThere
      cases recorded : draft.record.toOption with
      | none => simp [Inventory.changed, recorded, Roster.entered, typeRecord]
      | some method =>
          by_cases same : there = name <;>
            simp [Inventory.changed, recorded, isThere, sameNames, leads, same, Roster.entered,
              TypeRecord.addMethod, typeRecord]
  | _ => simp [Inventory.changed, Roster.entered, typeRecord]

theorem traitRecord_changed (done : List Edit) (edit : Edit) (name : String) :
    traitRecord (done ++ [edit]) name =
      Inventory.changed edit.traitEdit? name (traitRecord done name) := by
  unfold traitRecord
  rw [List.findSome?_append, List.findSome?_singleton]
  cases edit with
  | enterTrait entered => simp [Inventory.changed]
  | declareTrait declared extent =>
      cases isSpan : extent.span.toOption with
      | none => simp [Inventory.changed, isSpan]
      | some span =>
          by_cases same : declared = name <;>
            simp [Inventory.changed, isSpan, same, TraitRecord.declare]
  | _ => simp [Inventory.changed]

theorem Placed.concat (placed : Placed done) (sound : edit.fault? (typeNames done).length = none) :
    Placed (done ++ [edit]) := by
  obtain ⟨inside, -⟩ := fault?_eq_none_iff.mp sound
  have grows : (typeNames done).length ≤ (typeNames (done ++ [edit])).length := by
    unfold typeNames
    rw [List.filterMap_append, List.eraseDups_append, List.length_append]
    exact Nat.le_add_right _ _
  intro other member place addressed
  rcases List.mem_append.mp member with before | last
  · exact Nat.lt_of_lt_of_le (placed other before place addressed) grows
  · cases List.mem_singleton.mp last
    exact Nat.lt_of_lt_of_le (inside place addressed) grows

end Edit

/-! ### Answers -/

namespace Edit

/-- Places that were told stay what they are. -/
theorem reply_append (done more : List Edit) (edit : Edit)
    (typeAt? : Nat → Option TypeRecord) :
    edit.reply (fun name => (typeNames (done ++ [edit] ++ more)).idxOf name)
        (fun name => (traitNames (done ++ [edit] ++ more)).idxOf name) typeAt? =
      edit.reply (fun name => (typeNames (done ++ [edit])).idxOf name)
        (fun name => (traitNames (done ++ [edit])).idxOf name) typeAt? := by
  have types : ∀ name, edit.typeName? = some name →
      (typeNames (done ++ [edit] ++ more)).idxOf name =
        (typeNames (done ++ [edit])).idxOf name := by
    intro name mentioned
    apply idxOf_typeNames_append
    rw [typeNames_concat, mentioned]
    exact Roster.mem_entered _ name
  have traits : ∀ name, edit.traitName? = some name →
      (traitNames (done ++ [edit] ++ more)).idxOf name =
        (traitNames (done ++ [edit])).idxOf name := by
    intro name mentioned
    apply idxOf_traitNames_append
    rw [traitNames_concat, mentioned]
    exact Roster.mem_entered _ name
  cases edit with
  | enterType name => exact congrArg EditResult.place (types name rfl)
  | declareType name extent => exact congrArg EditResult.place (types name rfl)
  | enterTrait name => exact congrArg EditResult.place (traits name rfl)
  | declareTrait name extent => exact congrArg EditResult.place (traits name rfl)
  | _ => rfl

theorem answer_append (done more : List Edit) (edit : Edit) :
    edit.answer done (accept done edit ++ more) = edit.answer done (accept done edit) := by
  unfold answer accept
  cases edit.fault? (typeNames done).length with
  | some fault => rfl
  | none => exact congrArg Except.ok (reply_append done more edit _)

theorem foldl_accept (done history : List Edit) :
    ∃ more, history.foldl accept done = done ++ more := by
  induction history generalizing done with
  | nil => exact ⟨[], (List.append_nil done).symm⟩
  | cons edit rest ih =>
      obtain ⟨more, extended⟩ := ih (accept done edit)
      rw [List.foldl_cons, extended]
      unfold accept
      split
      · exact ⟨more, rfl⟩
      · exact ⟨edit :: more, List.append_assoc done [edit] more⟩

end Edit

end Survey
