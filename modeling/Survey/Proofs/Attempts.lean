import Survey.Proofs.Histories

set_option autoImplicit false

/-!
# Trying edits

Edits are tried one after the other, and one that is refused leaves the inventory as it was.
`Inventory.apply_cases` says once for all edits what trying one can do. From it follows what
stays true of an inventory step by step (`Inventory.Follows`): at the end, it tells exactly what
the edits say that were done, and every place that was answered is the place of its name.
-/

namespace Survey
namespace Inventory

/-- Try an edit. If it is refused, the inventory stays as it was. -/
def attempt (inventory : Inventory) (edit : Edit) : Except Fault EditResult × Inventory :=
  match inventory.apply edit with
  | .ok (result, changed) => (.ok result, changed)
  | .error fault => (.error fault, inventory)

/-- Try edits in order. -/
def attemptAll (inventory : Inventory) (history : List Edit) : Inventory :=
  history.foldl (fun inventory edit => (inventory.attempt edit).2) inventory

/-- The plain lists hold what the edits added, in order. -/
structure Lists (inventory : Inventory) (done : List Edit) : Prop where
  functions : inventory.functions = done.filterMap Edit.function?
  enums : inventory.enums = done.filterMap Edit.enum?
  tests : inventory.tests = done.filterMap Edit.test?
  unsafeBlocks : inventory.unsafeBlocks = done.flatMap Edit.blocks
  testModuleLine? : inventory.testModuleLine? = done.findSome? Edit.testModule?

/-- The inventory tells what the edits say, name by name. -/
structure Tells (inventory : Inventory) (done : List Edit) : Prop extends inventory.Lists done where
  types : inventory.types.records = (Edit.typeNames done).map (Edit.typeRecord done)
  typesOnce : (Edit.typeNames done).Nodup
  type? : ∀ name, inventory.type? name =
    if name ∈ Edit.typeNames done then some (Edit.typeRecord done name) else none
  traits : inventory.traits.records = (Edit.traitNames done).map (Edit.traitRecord done)
  traitsOnce : (Edit.traitNames done).Nodup
  trait? : ∀ name, inventory.trait? name =
    if name ∈ Edit.traitNames done then some (Edit.traitRecord done name) else none

end Inventory

/-! ### Rosters by name -/

namespace Roster

variable {α : Type} {key : α → String} {roster : Roster α}

theorem getElem?_names {place : Nat} {record : α} (there : roster.records[place]? = some record) :
    (roster.names key)[place]? = some (key record) := by
  unfold names
  rw [List.getElem?_map, there, Option.map_some]

namespace Indexed

theorem place?_eq_idxOf (indexed : roster.Indexed key) {name : String}
    (member : name ∈ roster.names key) :
    roster.place? name = some ((roster.names key).idxOf name) := by
  obtain ⟨before, record, after, split, rfl, absent, -, place⟩ := indexed.split_of_mem member
  rw [place]
  unfold names
  rw [split, List.map_append, List.map_cons, List.idxOf_append_of_notMem absent,
    List.idxOf_cons_self, List.length_map, Nat.add_zero]

/-- Changing the record at a place is touching the name there. -/
theorem touch_of_getElem? (indexed : roster.Indexed key) {place : Nat} {name : String}
    (there : (roster.names key)[place]? = some name) (fresh : α) (change : α → α) :
    roster.touch name fresh change = roster.update place change := by
  obtain ⟨inside, rfl⟩ := List.getElem?_eq_some_iff.mp there
  have known := indexed.place?_eq_idxOf (List.getElem_mem inside)
  rw [indexed.nodup.idxOf_getElem] at known
  unfold Roster.touch
  rw [enter_of_place known]

end Indexed

/-- The roster holds these names in this order, and a name leads to its record. What a name
that is not there would lead to is the fresh record. -/
structure Holds (key : α → String) (fresh : String → α) (roster : Roster α)
    (names : List String) (record : String → α) : Prop where
  indexed : roster.Indexed key
  names_eq : roster.names key = names
  leads : ∀ name, (roster.find? name).getD (fresh name) = record name

namespace Holds

variable {fresh : String → α} {names : List String} {record : String → α}

theorem empty (key : α → String) (fresh : String → α) :
    (empty : Roster α).Holds key fresh [] fresh :=
  ⟨empty_indexed key, rfl, fun _ => rfl⟩

theorem nodup (holds : roster.Holds key fresh names record) : names.Nodup := by
  rw [← holds.names_eq]
  exact holds.indexed.nodup

theorem edit (holds : roster.Holds key fresh names record)
    (named : ∀ name, key (fresh name) = name) {edit? : Option (String × (α → α))}
    (keeps : KeepsKey key edit?) :
    (roster.edit fresh edit?).Holds key fresh (entered names (edit?.map Prod.fst))
      (fun name => Inventory.changed edit? name (record name)) where
  indexed := holds.indexed.edit named keeps
  names_eq := by
    cases edit? with
    | none => exact holds.names_eq
    | some pair =>
        rw [← holds.names_eq]
        exact holds.indexed.names_touch (keeps pair.1 pair.2 rfl) (named pair.1)
  leads name := by
    rw [Inventory.find?_edit_getD holds.indexed fresh named keeps, holds.leads]

theorem records_eq (holds : roster.Holds key fresh names record) :
    roster.records = names.map record := by
  have same : ∀ there ∈ roster.records, record (key there) = there := by
    intro there member
    rw [← holds.leads, holds.indexed.find?_of_mem member, Option.getD_some]
  rw [← holds.names_eq]
  unfold Roster.names
  rw [List.map_map]
  exact ((List.map_congr_left same).trans (List.map_id roster.records)).symm

theorem find?_eq (holds : roster.Holds key fresh names record) (name : String) :
    roster.find? name = if name ∈ names then some (record name) else none := by
  rw [← holds.names_eq, ← holds.leads]
  by_cases member : name ∈ roster.names key
  · obtain ⟨there, found⟩ :=
      Option.isSome_iff_exists.mp (holds.indexed.find?_isSome_iff.mpr member)
    rw [if_pos member, found, Option.getD_some]
  · rw [if_neg member, holds.indexed.find?_of_notMem member]

/-- Entering a name tells its place among the names. -/
theorem enter_place (holds : roster.Holds key fresh names record) (name : String) :
    (roster.enter name (fresh name)).1 = (entered names (some name)).idxOf name := by
  rw [entered_some, ← holds.names_eq]
  by_cases member : name ∈ roster.names key
  · rw [if_pos member, enter_of_place (holds.indexed.place?_eq_idxOf member)]
  · rw [if_neg member, List.idxOf_append_of_notMem member, List.idxOf_cons_self]
    unfold enter
    rw [holds.indexed.place?_of_notMem member]
    exact (List.length_map key).symm

end Holds
end Roster

/-! ### What an edit does -/

theorem Extent.mapM_span_cases (extents : List Extent) :
    (∃ fault, extents.findSome? Extent.fault? = some fault ∧
        extents.mapM Extent.span = .error fault) ∨
      (extents.findSome? Extent.fault? = none ∧
        extents.mapM Extent.span = .ok (extents.filterMap fun extent => extent.span.toOption)) := by
  induction extents with
  | nil => exact .inr ⟨rfl, rfl⟩
  | cons extent rest ih =>
      rw [List.findSome?_cons, List.mapM_cons]
      rcases extent.span_cases with ⟨fault, faulty, refused⟩ | ⟨sound, span, spanned⟩
      · left
        refine ⟨fault, ?_, ?_⟩
        · rw [faulty]
        · rw [refused]
          rfl
      · rw [sound, spanned]
        rcases ih with ⟨fault, faulty, refused⟩ | ⟨soundRest, mapped⟩
        · left
          refine ⟨fault, faulty, ?_⟩
          rw [refused]
          rfl
        · right
          refine ⟨soundRest, ?_⟩
          rw [mapped, List.filterMap_cons, spanned]
          rfl

/-- A draft has the fault of its extent, or it has a record. -/
theorem FunctionDraft.record_cases (draft : FunctionDraft) :
    (∃ fault, draft.extent.fault? = some fault ∧ draft.record = .error fault) ∨
      (draft.extent.fault? = none ∧ ∃ function, draft.record = .ok function) := by
  unfold FunctionDraft.record
  rcases draft.extent.span_cases with ⟨fault, faulty, refused⟩ | ⟨sound, span, spanned⟩
  · left
    rw [refused]
    exact ⟨fault, faulty, rfl⟩
  · right
    rw [spanned]
    exact ⟨sound, _, rfl⟩

namespace Inventory

/-- The inventory with what one more edit adds. -/
def perform (inventory : Inventory) (edit : Edit) : Inventory where
  functions := inventory.functions ++ edit.function?.toList
  types := inventory.types.edit TypeRecord.named
    (edit.typeEdit? (inventory.types.names TypeRecord.name))
  enums := inventory.enums ++ edit.enum?.toList
  traits := inventory.traits.edit TraitRecord.named edit.traitEdit?
  tests := inventory.tests ++ edit.test?.toList
  unsafeBlocks := inventory.unsafeBlocks ++ edit.blocks
  testModuleLine? := inventory.testModuleLine? <|> edit.testModule?
  length := inventory.length

/-- What an edit replies that is done. -/
def reply (inventory : Inventory) (edit : Edit) : EditResult :=
  edit.reply (fun name => (inventory.types.enter name (.named name)).1)
    (fun name => (inventory.traits.enter name (.named name)).1)
    fun place => inventory.types.records[place]?

theorem typeAt_cases (inventory : Inventory) (place : Nat) :
    (¬ place < inventory.types.records.length ∧ inventory.typeAt place =
        .error (.indexOutOfBounds inventory.types.records.length place)) ∨
      (place < inventory.types.records.length ∧
        ∃ type, inventory.types.records[place]? = some type ∧
          inventory.typeAt place = .ok type) := by
  unfold typeAt
  cases found : inventory.types.records[place]? with
  | none => exact .inl ⟨Nat.not_lt.mpr (List.getElem?_eq_none_iff.mp found), rfl⟩
  | some type => exact .inr ⟨(List.getElem?_eq_some_iff.mp found).1, type, rfl, rfl⟩

/-- An edit that renames nothing is refused with its fault, or does what it says. -/
theorem apply_cases (inventory : Inventory) (edit : Edit)
    (indexed : inventory.types.Indexed TypeRecord.name)
    (ordinary : ∀ place name, edit ≠ .renameType place name) :
    (∃ fault, edit.fault? inventory.types.records.length = some fault ∧
      inventory.apply edit = .error fault) ∨
    (edit.fault? inventory.types.records.length = none ∧
      inventory.apply edit = .ok (inventory.reply edit, inventory.perform edit)) := by
  cases edit with
  | addFunction draft =>
      rcases draft.record_cases with ⟨fault, faulty, refused⟩ | ⟨sound, function, recorded⟩
      · left
        simp [apply, Edit.fault?, faulty, refused, bind, Except.bind]
      · right
        simp [apply, Edit.fault?, sound, recorded, reply, perform, addFunction, bind, Except.bind,
          pure, Except.pure, Except.toOption]
  | addEnum name variants extent =>
      rcases extent.span_cases with ⟨fault, faulty, refused⟩ | ⟨sound, span, spanned⟩
      · left
        simp [apply, Edit.fault?, faulty, refused, bind, Except.bind]
      · right
        simp [apply, Edit.fault?, sound, spanned, reply, perform, addEnum, bind, Except.bind,
          pure, Except.pure, Except.toOption]
  | addTest name extent =>
      rcases extent.span_cases with ⟨fault, faulty, refused⟩ | ⟨sound, span, spanned⟩
      · left
        simp [apply, Edit.fault?, faulty, refused, bind, Except.bind]
      · right
        simp [apply, Edit.fault?, sound, spanned, reply, perform, addTest, bind, Except.bind,
          pure, Except.pure, Except.toOption]
  | addUnsafeBlocks extents =>
      rcases Extent.mapM_span_cases extents with ⟨fault, faulty, refused⟩ | ⟨sound, mapped⟩
      · left
        simp [apply, Edit.fault?, faulty, refused, bind, Except.bind]
      · right
        simp only [apply, mapped]
        simp [Edit.fault?, sound, reply, perform, addUnsafeBlocks, bind, Except.bind, pure,
          Except.pure]
  | markTestModule line =>
      right
      simp [apply, Edit.fault?, reply, perform, markTestModule, pure, Except.pure]
  | enterType name =>
      right
      simp [apply, Edit.fault?, reply, perform, enterType, Roster.touch_id, pure, Except.pure]
  | declareType name extent =>
      rcases extent.span_cases with ⟨fault, faulty, refused⟩ | ⟨sound, span, spanned⟩
      · left
        simp [apply, Edit.fault?, faulty, refused, bind, Except.bind]
      · right
        simp [apply, Edit.fault?, sound, spanned, reply, perform, declareType, enterType,
          updateType, Roster.touch, bind, Except.bind, pure, Except.pure, Except.toOption]
  | enterTrait name =>
      right
      simp [apply, Edit.fault?, reply, perform, enterTrait, Roster.touch_id, pure, Except.pure]
  | declareTrait name extent =>
      rcases extent.span_cases with ⟨fault, faulty, refused⟩ | ⟨sound, span, spanned⟩
      · left
        simp [apply, Edit.fault?, faulty, refused, bind, Except.bind]
      · right
        simp [apply, Edit.fault?, sound, spanned, reply, perform, declareTrait, enterTrait,
          Roster.touch, bind, Except.bind, pure, Except.pure, Except.toOption]
  | addTypeTrait place traitName =>
      rcases inventory.typeAt_cases place with ⟨outside, refused⟩ | ⟨inside, type, there, found⟩
      · left
        simp [apply, Edit.fault?, outside, refused, bind, Except.bind]
      · right
        have touched := indexed.touch_of_getElem? (Roster.getElem?_names there)
          (.named type.name) (·.addTrait traitName)
        simp [apply, Edit.fault?, inside, found, Roster.getElem?_names there, touched, reply,
          perform, updateType, bind, Except.bind, pure, Except.pure]
  | addMethod place draft =>
      rcases inventory.typeAt_cases place with ⟨outside, refused⟩ | ⟨inside, type, there, found⟩
      · left
        simp [apply, Edit.fault?, outside, refused, bind, Except.bind]
      · rcases draft.record_cases with ⟨fault, faulty, refused⟩ | ⟨sound, method, recorded⟩
        · left
          simp [apply, Edit.fault?, inside, found, faulty, refused, bind, Except.bind]
        · right
          have touched := indexed.touch_of_getElem? (Roster.getElem?_names there)
            (.named type.name) (·.addMethod method)
          simp [apply, Edit.fault?, inside, found, sound, recorded, Roster.getElem?_names there,
            touched, reply, perform, updateType, bind, Except.bind, pure, Except.pure,
            Except.toOption]
  | renameType place name => exact absurd rfl (ordinary place name)
  | readType place =>
      rcases inventory.typeAt_cases place with ⟨outside, refused⟩ | ⟨inside, type, there, found⟩
      · left
        simp [apply, Edit.fault?, outside, refused, bind, Except.bind]
      · right
        obtain ⟨_, rfl⟩ := List.getElem?_eq_some_iff.mp there
        simp [apply, Edit.fault?, inside, found, reply, perform, bind, Except.bind, pure,
          Except.pure]

end Inventory

/-! ### Whole histories -/

namespace Inventory

variable {inventory : Inventory} {done : List Edit} {edit : Edit}

/-- What stays true while edits are tried. -/
structure Follows (inventory : Inventory) (done : List Edit) : Prop where
  lists : inventory.Lists done
  types : inventory.types.Holds TypeRecord.name TypeRecord.named (Edit.typeNames done)
    (Edit.typeRecord done)
  traits : inventory.traits.Holds TraitRecord.name TraitRecord.named (Edit.traitNames done)
    (Edit.traitRecord done)
  placed : Edit.Placed done

theorem empty_follows : empty.Follows [] where
  lists := ⟨rfl, rfl, rfl, rfl, rfl⟩
  types := .empty _ _
  traits := .empty _ _
  placed := nofun

theorem Lists.perform (lists : inventory.Lists done) (edit : Edit) :
    (inventory.perform edit).Lists (done ++ [edit]) where
  functions := by
    rw [Edit.filterMap_concat, ← lists.functions]
    rfl
  enums := by
    rw [Edit.filterMap_concat, ← lists.enums]
    rfl
  tests := by
    rw [Edit.filterMap_concat, ← lists.tests]
    rfl
  unsafeBlocks := by
    rw [List.flatMap_append, ← lists.unsafeBlocks, List.flatMap_singleton]
    rfl
  testModuleLine? := by
    rw [List.findSome?_append, ← lists.testModuleLine?, List.findSome?_singleton]
    exact Option.orElse_eq_or

namespace Follows

theorem perform (follows : inventory.Follows done)
    (sound : edit.fault? (Edit.typeNames done).length = none) :
    (inventory.perform edit).Follows (done ++ [edit]) where
  lists := follows.lists.perform edit
  types := by
    have edited := follows.types.edit (fun _ => rfl)
      (Edit.typeEdit?_keepsKey (Edit.typeNames done) edit)
    have records : Edit.typeRecord (done ++ [edit]) = fun name =>
        changed (edit.typeEdit? (Edit.typeNames done)) name (Edit.typeRecord done name) :=
      funext (Edit.typeRecord_changed follows.placed follows.types.nodup sound)
    rw [Edit.typeNames_concat, ← Edit.entered_typeEdit? sound, records]
    unfold Inventory.perform
    rw [follows.types.names_eq]
    exact edited
  traits := by
    have edited := follows.traits.edit (fun _ => rfl) (Edit.traitEdit?_keepsKey edit)
    have records : Edit.traitRecord (done ++ [edit]) = fun name =>
        changed edit.traitEdit? name (Edit.traitRecord done name) :=
      funext (Edit.traitRecord_changed done edit)
    rw [Edit.traitNames_concat, ← Edit.entered_traitEdit? sound, records]
    exact edited
  placed := follows.placed.concat sound

theorem length_types (follows : inventory.Follows done) :
    inventory.types.records.length = (Edit.typeNames done).length := by
  rw [follows.types.records_eq, List.length_map]

theorem reply_eq (follows : inventory.Follows done) (edit : Edit) :
    inventory.reply edit =
      edit.reply (fun name => (Edit.typeNames (done ++ [edit])).idxOf name)
        (fun name => (Edit.traitNames (done ++ [edit])).idxOf name)
        fun place => (Edit.typeNames done)[place]?.map (Edit.typeRecord done) := by
  unfold reply
  rw [Edit.typeNames_concat, Edit.traitNames_concat]
  cases edit with
  | enterType name => exact congrArg EditResult.place (follows.types.enter_place name)
  | declareType name extent => exact congrArg EditResult.place (follows.types.enter_place name)
  | enterTrait name => exact congrArg EditResult.place (follows.traits.enter_place name)
  | declareTrait name extent => exact congrArg EditResult.place (follows.traits.enter_place name)
  | readType place => rw [Edit.reply, Edit.reply, follows.types.records_eq, List.getElem?_map]
  | _ => rfl

/-- Trying an edit answers what the history says, and what is true stays true. -/
theorem attempt (follows : inventory.Follows done)
    (ordinary : ∀ place name, edit ≠ .renameType place name) :
    (inventory.attempt edit).1 = edit.answer done (Edit.accept done edit) ∧
      (inventory.attempt edit).2.Follows (Edit.accept done edit) := by
  have outcome := inventory.apply_cases edit follows.types.indexed ordinary
  rw [follows.length_types] at outcome
  unfold Inventory.attempt Edit.answer Edit.accept
  rcases outcome with ⟨fault, faulty, refused⟩ | ⟨sound, performed⟩
  · rw [refused, faulty]
    exact ⟨rfl, follows⟩
  · rw [performed, sound]
    exact ⟨congrArg Except.ok (follows.reply_eq edit), follows.perform sound⟩

theorem tells (follows : inventory.Follows done) (length : Nat) :
    (inventory.withLength length).Tells done where
  toLists := ⟨follows.lists.functions, follows.lists.enums, follows.lists.tests,
    follows.lists.unsafeBlocks, follows.lists.testModuleLine?⟩
  types := follows.types.records_eq
  typesOnce := follows.types.nodup
  type? := follows.types.find?_eq
  traits := follows.traits.records_eq
  traitsOnce := follows.traits.nodup
  trait? := follows.traits.find?_eq

end Follows

theorem attemptAll_follows (history : List Edit)
    (ordinary : ∀ place name, .renameType place name ∉ history) :
    (empty.attemptAll history).Follows (Edit.accepted history) := by
  induction history using List.reverseRecOn with
  | nil => exact empty_follows
  | append_singleton history edit ih =>
      have before := ih fun place name member =>
        ordinary place name (List.mem_append_left [edit] member)
      have last : ∀ place name, edit ≠ .renameType place name := by
        rintro place name rfl
        exact ordinary place name (by simp)
      unfold attemptAll Edit.accepted at before ⊢
      rw [List.foldl_append, List.foldl_append]
      exact (before.attempt last).2

/-- After any edits that rename nothing, some of them refused, the inventory tells what the edits
that were done say. Each edit was answered by its fault, or by the place that its name has in
the end. -/
theorem attemptAll_tells (history : List Edit) (length : Nat)
    (ordinary : ∀ place name, .renameType place name ∉ history) :
    ((empty.attemptAll history).withLength length).Tells (Edit.accepted history) ∧
      ((empty.attemptAll history).withLength length).length = length ∧
      ∀ before edit after, history = before ++ edit :: after →
        ((empty.attemptAll before).attempt edit).1 =
          edit.answer (Edit.accepted before) (Edit.accepted history) := by
  refine ⟨(attemptAll_follows history ordinary).tells length, rfl, ?_⟩
  rintro before edit after rfl
  have follows := attemptAll_follows before fun place name member =>
    ordinary place name (List.mem_append_left (edit :: after) member)
  have once : ∀ place name, edit ≠ .renameType place name := by
    rintro place name rfl
    exact ordinary place name (by simp)
  obtain ⟨more, extended⟩ := Edit.foldl_accept (Edit.accept (Edit.accepted before) edit) after
  have whole : Edit.accepted (before ++ edit :: after) =
      Edit.accept (Edit.accepted before) edit ++ more := by
    unfold Edit.accepted at extended ⊢
    rw [List.foldl_append, List.foldl_cons, extended]
  -- Later edits add names behind those that are there, so no place that was told moves.
  rw [whole, Edit.answer_append]
  exact (follows.attempt once).1

/-- A trait is added before there is any type, and at a place behind the last type; both edits
are refused. The type that is mentioned before its declaration keeps its place. -/
theorem attemptAll_tells_refused :
    let late : Extent := ⟨.start, ⟨1, 5, 4⟩⟩
    let early : List Edit := [.addTypeTrait 0 "Debug", .enterType "B", .enterTrait "T",
      .declareType "A" .atStart, .addTypeTrait 0 "T"]
    let later : List Edit := [.addMethod 1 ⟨"f", [], "", late, .none⟩, .addTypeTrait 0 "T",
      .declareType "B" late, .markTestModule 3, .declareType "B" .atStart, .markTestModule 9]
    let history := early ++ .addTypeTrait 2 "T" :: later
    (∀ place name, .renameType place name ∉ history) ∧
      Edit.typeNames (Edit.accepted history) = ["B", "A"] ∧
      ((empty.attemptAll history).withLength 4).Tells (Edit.accepted history) ∧
      ((empty.attemptAll early).attempt (.addTypeTrait 2 "T")).1 =
        .error (.indexOutOfBounds 2 2) := by
  intro late early later history
  have ordinary : ∀ place name, .renameType place name ∉ history := by
    intro place name
    simp [history, early, later]
  have told := attemptAll_tells history 4 ordinary
  refine ⟨ordinary, by decide +kernel, told.1, ?_⟩
  rw [told.2.2 early _ later rfl]
  decide +kernel

end Inventory

end Survey
