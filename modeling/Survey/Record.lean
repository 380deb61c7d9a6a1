import Survey.Signature
import Survey.Position

set_option autoImplicit false

/-!
# Records and rosters

What is written down about declarations, and the lists that names lead into.
-/

namespace Survey

/-! ### Rosters

A roster lists records in the order in which their names were first mentioned. A
name leads to the same record for ever, whatever the record itself says later. -/

structure Roster (α : Type) where
  records : List α
  places : List (String × Nat)
deriving DecidableEq, Repr

namespace Roster

variable {α : Type}

def empty : Roster α := ⟨[], []⟩

def place? (roster : Roster α) (name : String) : Option Nat := roster.places.lookup name

def find? (roster : Roster α) (name : String) : Option α :=
  (roster.place? name).bind (roster.records[·]?)

/-- The place of a name. A name that is new gets the next place, with a fresh
record. -/
def enter (roster : Roster α) (name : String) (fresh : α) : Nat × Roster α :=
  match roster.place? name with
  | some place => (place, roster)
  | none =>
      (roster.records.length,
        ⟨roster.records ++ [fresh], roster.places ++ [(name, roster.records.length)]⟩)

def update (roster : Roster α) (place : Nat) (change : α → α) : Roster α :=
  { roster with records := roster.records.modify place change }

@[simp] theorem update_places (roster : Roster α) (place : Nat) (change : α → α) :
    (roster.update place change).places = roster.places := rfl

@[simp] theorem length_update_records (roster : Roster α) (place : Nat) (change : α → α) :
    (roster.update place change).records.length = roster.records.length := by
  simp [update]

theorem enter_of_place {roster : Roster α} {name : String} {place : Nat}
    (known : roster.place? name = some place) (fresh : α) :
    roster.enter name fresh = (place, roster) := by
  simp [enter, known]

end Roster

/-! ### Records

What a survey writes down about a declaration: its name as written, the extent that
it takes, and raw pieces of its text. Records are shallow; they do not model types. -/

structure Owner where
  type? : Option String
  trait? : Option String
deriving DecidableEq, Repr

def Owner.none : Owner := ⟨.none, .none⟩

/-- A function or method. Its span ends after its body, or after the semicolon of a
signature without one. -/
structure FunctionRecord where
  name : String
  /-- The parameters in order, the receiver included. -/
  parameters : List String
  /-- The result type, empty if none is written. -/
  result : String
  span : Span
  owner : Owner
deriving DecidableEq, Repr

namespace FunctionRecord

def receiver? (function : FunctionRecord) : Option String :=
  function.parameters.head?.filter fun first => Signature.isReceiver first.toList

def isMethod (function : FunctionRecord) : Bool := function.receiver?.isSome

def valueParameters (function : FunctionRecord) : List String :=
  if function.isMethod then function.parameters.tail else function.parameters

def returnsUnit (function : FunctionRecord) : Bool :=
  function.result == "" || function.result == "()"

end FunctionRecord

/-- A function before it is written down: its extent has not been checked. -/
structure FunctionDraft where
  name : String
  parameters : List String
  result : String
  extent : Extent
  owner : Owner
deriving DecidableEq, Repr

def FunctionDraft.record (draft : FunctionDraft) : Except Fault FunctionRecord := do
  let span ← draft.extent.span
  pure ⟨draft.name, draft.parameters, draft.result, span, draft.owner⟩

/-- A type, known through its declaration, through implementations, or both. -/
structure TypeRecord where
  name : String
  span? : Option Span
  /-- The methods of all implementations, in the order of the text. -/
  methods : List FunctionRecord
  /-- The traits implemented for the type, each once. -/
  traits : List String
deriving DecidableEq, Repr

namespace TypeRecord

def named (name : String) : TypeRecord := ⟨name, none, [], []⟩

def isDeclared (type : TypeRecord) : Bool := type.span?.isSome

def declare (type : TypeRecord) (span : Span) : TypeRecord :=
  { type with span? := type.span? <|> some span }

def addMethod (type : TypeRecord) (method : FunctionRecord) : TypeRecord :=
  { type with methods := type.methods ++ [method] }

def addTrait (type : TypeRecord) (traitName : String) : TypeRecord :=
  if traitName ∈ type.traits then type
  else { type with traits := type.traits ++ [traitName] }

end TypeRecord

structure EnumRecord where
  name : String
  span : Span
  variants : List String
deriving DecidableEq, Repr

/-- The name of a variant, which ends where its payload or its value starts. -/
def variantName (variant : String) : String :=
  let isNamed := fun c : Char => !(c == ':' || c == '\x7b' || c == '(' || c == '=')
  String.ofList (Text.trim (variant.toList.takeWhile isNamed))

def EnumRecord.variantNames (enum : EnumRecord) : List String :=
  enum.variants.map variantName

structure TraitRecord where
  name : String
  span? : Option Span
deriving DecidableEq, Repr

namespace TraitRecord

def named (name : String) : TraitRecord := ⟨name, none⟩

def declare (record : TraitRecord) (span : Span) : TraitRecord :=
  { record with span? := record.span? <|> some span }

end TraitRecord

/-- A function marked as a test. Its span starts at the mark. -/
structure TestRecord where
  name : String
  span : Span
deriving DecidableEq, Repr

end Survey
