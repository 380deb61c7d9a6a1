import Survey.Inventory.Basic

set_option autoImplicit false

/-!
# Stored form of an inventory

An inventory is stored as a tree of named values and read back from it. That
reading back gives what was stored is part of what it means to be storable.
-/

namespace Survey

inductive Value where
  | null
  | number (value : Nat)
  | text (value : String)
  | list (items : List Value)
  | record (fields : List (String × Value))

def Value.field? (name : String) : Value → Option Value
  | .record fields => fields.lookup name
  | _ => none

class Storable (α : Type) where
  encode : α → Value
  decode? : Value → Option α
  decode?_encode : ∀ stored : α, decode? (encode stored) = some stored

/-- What is stored as something other than `null`, which stands for absence. -/
class StorablePresent (α : Type) extends Storable α where
  encode_ne_null : ∀ stored : α, encode stored ≠ .null

namespace Storable

attribute [simp] decode?_encode

def get? {α : Type} [Storable α] (value : Value) (name : String) : Option α :=
  (value.field? name).bind decode?

instance : StorablePresent Nat where
  encode := .number
  decode?
    | .number value => some value
    | _ => none
  decode?_encode _ := rfl
  encode_ne_null _ := nofun

instance : StorablePresent String where
  encode := .text
  decode?
    | .text value => some value
    | _ => none
  decode?_encode _ := rfl
  encode_ne_null _ := nofun

def decodeList? {α : Type} [Storable α] : List Value → Option (List α)
  | [] => some []
  | value :: rest => do
      let first ← decode? value
      let later ← decodeList? rest
      pure (first :: later)

theorem decodeList?_map_encode {α : Type} [Storable α] (stored : List α) :
    decodeList? (stored.map encode) = some stored := by
  induction stored with
  | nil => rfl
  | cons first rest ih => simp [decodeList?, ih]

instance {α : Type} [Storable α] : Storable (List α) where
  encode stored := .list (stored.map encode)
  decode?
    | .list values => decodeList? values
    | _ => none
  decode?_encode := decodeList?_map_encode

instance {α : Type} [StorablePresent α] : Storable (Option α) where
  encode
    | none => .null
    | some stored => encode stored
  decode?
    | .null => some none
    | value => (decode? value).map some
  decode?_encode
    | none => rfl
    | some stored => by
        have readBack := Storable.decode?_encode stored
        have present := StorablePresent.encode_ne_null stored
        cases shape : encode stored with
        | null => exact absurd shape present
        | _ => simp only [shape] at readBack ⊢; simp [readBack]

instance : Storable Position where
  encode place :=
    .record [("line", encode place.line), ("column", encode place.column),
      ("offset", encode place.offset)]
  decode? value := do
    pure ⟨← get? value "line", ← get? value "column", ← get? value "offset"⟩
  decode?_encode place := by simp [get?, Value.field?, List.lookup_cons]

def decodeSpan? (value : Value) : Option Span := do
  let start ← get? value "start"
  let stop ← get? value "end"
  if ordered : start.offset ≤ stop.offset then some ⟨start, stop, ordered⟩ else none

instance : StorablePresent Span where
  encode span := .record [("start", encode span.start), ("end", encode span.stop)]
  decode? := decodeSpan?
  decode?_encode span := by
    simp [decodeSpan?, get?, Value.field?, List.lookup_cons, span.ordered]
  encode_ne_null _ := nofun

instance : Storable FunctionRecord where
  encode function :=
    .record [("name", encode function.name), ("params", encode function.parameters),
      ("ret", encode function.result), ("span", encode function.span),
      ("owner_type", encode function.owner.type?),
      ("owner_trait", encode function.owner.trait?)]
  decode? value := do
    pure ⟨← get? value "name", ← get? value "params", ← get? value "ret",
      ← get? value "span", ⟨← get? value "owner_type", ← get? value "owner_trait"⟩⟩
  decode?_encode function := by simp [get?, Value.field?, List.lookup_cons]

instance : Storable TypeRecord where
  encode type :=
    .record [("name", encode type.name), ("span", encode type.span?),
      ("methods", encode type.methods), ("traits", encode type.traits)]
  decode? value := do
    pure ⟨← get? value "name", ← get? value "span", ← get? value "methods",
      ← get? value "traits"⟩
  decode?_encode type := by simp [get?, Value.field?, List.lookup_cons]

instance : Storable EnumRecord where
  encode enum :=
    .record [("name", encode enum.name), ("span", encode enum.span),
      ("variants", encode enum.variants)]
  decode? value := do
    pure ⟨← get? value "name", ← get? value "span", ← get? value "variants"⟩
  decode?_encode enum := by simp [get?, Value.field?, List.lookup_cons]

instance : Storable TraitRecord where
  encode record := .record [("name", encode record.name), ("span", encode record.span?)]
  decode? value := do
    pure ⟨← get? value "name", ← get? value "span"⟩
  decode?_encode record := by simp [get?, Value.field?, List.lookup_cons]

instance : Storable TestRecord where
  encode test := .record [("name", encode test.name), ("span", encode test.span)]
  decode? value := do
    pure ⟨← get? value "name", ← get? value "span"⟩
  decode?_encode test := by simp [get?, Value.field?, List.lookup_cons]

/-- An unsafe block is stored as a record of its own. -/
def encodeBlock (span : Span) : Value := .record [("span", encode span)]

@[simp] theorem get?_encodeBlock (span : Span) :
    get? (encodeBlock span) "span" = some span := by
  simp [encodeBlock, get?, Value.field?]

def decodeBlocks? : List Value → Option (List Span)
  | [] => some []
  | value :: rest => do
      let first ← get? value "span"
      let later ← decodeBlocks? rest
      pure (first :: later)

theorem decodeBlocks?_map_encodeBlock (blocks : List Span) :
    decodeBlocks? (blocks.map encodeBlock) = some blocks := by
  induction blocks with
  | nil => rfl
  | cons first rest ih => simp [decodeBlocks?, ih]

def encodePlaces (places : List (String × Nat)) : Value :=
  .record (places.map fun (name, place) => (name, encode place))

def decodePlaces? : List (String × Value) → Option (List (String × Nat))
  | [] => some []
  | (name, value) :: rest => do
      let place ← decode? value
      let later ← decodePlaces? rest
      pure ((name, place) :: later)

theorem decodePlaces?_map_encode (places : List (String × Nat)) :
    decodePlaces? (places.map fun (name, place) => (name, encode place)) =
      some places := by
  induction places with
  | nil => rfl
  | cons first rest ih => simp [decodePlaces?, ih]

def listIn? {β : Type} (value : Value) (name : String)
    (read : List Value → Option (List β)) : Option (List β) :=
  match value.field? name with
  | some (.list values) => read values
  | _ => none

def placesIn? (value : Value) (name : String) : Option (List (String × Nat)) :=
  match value.field? name with
  | some (.record fields) => decodePlaces? fields
  | _ => none

instance : Storable Inventory where
  encode inventory :=
    .record [("functions", encode inventory.functions),
      ("type_decls", encode inventory.types.records),
      ("type_index", encodePlaces inventory.types.places),
      ("enums", encode inventory.enums),
      ("traits", encode inventory.traits.records),
      ("trait_index", encodePlaces inventory.traits.places),
      ("tests", encode inventory.tests),
      ("unsafe_blocks", .list (inventory.unsafeBlocks.map encodeBlock)),
      ("test_module_line", encode inventory.testModuleLine?),
      ("len", encode inventory.length)]
  decode? value := do
    pure ⟨← get? value "functions",
      ⟨← get? value "type_decls", ← placesIn? value "type_index"⟩,
      ← get? value "enums",
      ⟨← get? value "traits", ← placesIn? value "trait_index"⟩,
      ← get? value "tests", ← listIn? value "unsafe_blocks" decodeBlocks?,
      ← get? value "test_module_line", ← get? value "len"⟩
  decode?_encode inventory := by
    simp [get?, listIn?, placesIn?, encodePlaces, Value.field?, List.lookup_cons,
      decodeBlocks?_map_encodeBlock, decodePlaces?_map_encode]

instance : Storable Audit where
  encode audit :=
    .record [("blocks", encode audit.blocks), ("unsafe_bytes", encode audit.unsafeBytes),
      ("unsafe_lines", encode audit.unsafeLines),
      ("total_bytes", encode audit.totalBytes)]
  decode? value := do
    pure ⟨← get? value "blocks", ← get? value "unsafe_bytes",
      ← get? value "unsafe_lines", ← get? value "total_bytes"⟩
  decode?_encode audit := by simp [get?, Value.field?, List.lookup_cons]

end Storable

def Inventory.readsBack (inventory : Inventory) : Bool :=
  Storable.decode? (Storable.encode inventory) == some inventory

theorem Inventory.readsBack_eq_true (inventory : Inventory) :
    inventory.readsBack = true := by
  simp [Inventory.readsBack]

end Survey
