import Survey.Record

set_option autoImplicit false

/-!
# Inventories

The inventory of one Rust source file, the edits that it grows by, and its audit.
-/

namespace Survey

/-! ### Look-ups

The inventory of one Rust source file: everything that a survey recorded, with
look-ups by name and the list of all spans. -/

structure Inventory where
  /-- Functions outside implementations, those of trait bodies included. -/
  functions : List FunctionRecord
  types : Roster TypeRecord
  enums : List EnumRecord
  traits : Roster TraitRecord
  tests : List TestRecord
  unsafeBlocks : List Span
  /-- The line of the first mark of a test module. -/
  testModuleLine? : Option Nat
  length : Nat
deriving DecidableEq, Repr

namespace Inventory

def empty : Inventory := ⟨[], .empty, [], .empty, [], [], none, 0⟩

def isEmpty (inventory : Inventory) : Bool := inventory.length == 0

def methods (inventory : Inventory) : List FunctionRecord :=
  inventory.types.records.flatMap TypeRecord.methods

def allFunctions (inventory : Inventory) : List FunctionRecord :=
  inventory.functions ++ inventory.methods

def type? (inventory : Inventory) (name : String) : Option TypeRecord :=
  inventory.types.find? name

/-- The first enumeration of this name. -/
def enum? (inventory : Inventory) (name : String) : Option EnumRecord :=
  inventory.enums.find? (·.name == name)

def trait? (inventory : Inventory) (name : String) : Option TraitRecord :=
  inventory.traits.find? name

def hasTest (inventory : Inventory) (name : String) : Bool :=
  inventory.tests.any (·.name == name)

def spans (inventory : Inventory) : List Span :=
  inventory.allFunctions.map FunctionRecord.span ++
    inventory.types.records.filterMap TypeRecord.span? ++
    inventory.enums.map EnumRecord.span ++
    inventory.traits.records.filterMap TraitRecord.span? ++
    inventory.tests.map TestRecord.span ++
    inventory.unsafeBlocks

end Inventory

/-! ### Edits of an inventory

An inventory grows record by record. Types and traits are entered by name: the
first mention creates the record, and the first declaration fixes its span. An edit
that addresses a type by its place fails if there is none at that place; only then is
the extent of what it brings checked. -/

namespace Inventory

def addFunction (inventory : Inventory) (function : FunctionRecord) : Inventory :=
  { inventory with functions := inventory.functions ++ [function] }

def addEnum (inventory : Inventory) (enum : EnumRecord) : Inventory :=
  { inventory with enums := inventory.enums ++ [enum] }

def addTest (inventory : Inventory) (test : TestRecord) : Inventory :=
  { inventory with tests := inventory.tests ++ [test] }

def addUnsafeBlocks (inventory : Inventory) (blocks : List Span) : Inventory :=
  { inventory with unsafeBlocks := inventory.unsafeBlocks ++ blocks }

def markTestModule (inventory : Inventory) (line : Nat) : Inventory :=
  { inventory with testModuleLine? := inventory.testModuleLine? <|> some line }

def enterType (inventory : Inventory) (name : String) : Nat × Inventory :=
  let (place, types) := inventory.types.enter name (.named name)
  (place, { inventory with types := types })

def updateType (inventory : Inventory) (place : Nat) (change : TypeRecord → TypeRecord) :
    Inventory :=
  { inventory with types := inventory.types.update place change }

def declareType (inventory : Inventory) (name : String) (span : Span) : Nat × Inventory :=
  let (place, inventory) := inventory.enterType name
  (place, inventory.updateType place (·.declare span))

def enterTrait (inventory : Inventory) (name : String) : Nat × Inventory :=
  let (place, traits) := inventory.traits.enter name (.named name)
  (place, { inventory with traits := traits })

def declareTrait (inventory : Inventory) (name : String) (span : Span) : Nat × Inventory :=
  let (place, inventory) := inventory.enterTrait name
  (place, { inventory with traits := inventory.traits.update place (·.declare span) })

def withLength (inventory : Inventory) (length : Nat) : Inventory :=
  { inventory with length := length }

def typeAt (inventory : Inventory) (place : Nat) : Except Fault TypeRecord :=
  match inventory.types.records[place]? with
  | some type => .ok type
  | none => .error (.indexOutOfBounds inventory.types.records.length place)

end Inventory

/-- One change to an inventory. Extents are checked when the edit is done. -/
inductive Edit where
  | addFunction (draft : FunctionDraft)
  | addEnum (name : String) (variants : List String) (extent : Extent)
  | addTest (name : String) (extent : Extent)
  /-- Either all blocks are added or none. -/
  | addUnsafeBlocks (extents : List Extent)
  | markTestModule (line : Nat)
  | enterType (name : String)
  | declareType (name : String) (extent : Extent)
  | enterTrait (name : String)
  | declareTrait (name : String) (extent : Extent)
  | addTypeTrait (place : Nat) (traitName : String)
  | addMethod (place : Nat) (draft : FunctionDraft)
  /-- Change what the record says; names keep leading where they led. -/
  | renameType (place : Nat) (name : String)
  | readType (place : Nat)
deriving DecidableEq, Repr

inductive EditResult where
  | done
  | place (value : Nat)
  | type (record : TypeRecord)
deriving DecidableEq, Repr

namespace Inventory

/-- Do an edit. A fault leaves the caller with the inventory as it was. -/
def apply (inventory : Inventory) (edit : Edit) :
    Except Fault (EditResult × Inventory) := do
  match edit with
  | .addFunction draft =>
      let function ← draft.record
      pure (.done, inventory.addFunction function)
  | .addEnum name variants extent =>
      let span ← extent.span
      pure (.done, inventory.addEnum ⟨name, span, variants⟩)
  | .addTest name extent =>
      let span ← extent.span
      pure (.done, inventory.addTest ⟨name, span⟩)
  | .addUnsafeBlocks extents =>
      let blocks ← extents.mapM Extent.span
      pure (.done, inventory.addUnsafeBlocks blocks)
  | .markTestModule line => pure (.done, inventory.markTestModule line)
  | .enterType name =>
      let (place, inventory) := inventory.enterType name
      pure (.place place, inventory)
  | .declareType name extent =>
      let span ← extent.span
      let (place, inventory) := inventory.declareType name span
      pure (.place place, inventory)
  | .enterTrait name =>
      let (place, inventory) := inventory.enterTrait name
      pure (.place place, inventory)
  | .declareTrait name extent =>
      let span ← extent.span
      let (place, inventory) := inventory.declareTrait name span
      pure (.place place, inventory)
  | .addTypeTrait place traitName =>
      let _ ← inventory.typeAt place
      pure (.done, inventory.updateType place (·.addTrait traitName))
  | .addMethod place draft =>
      let _ ← inventory.typeAt place
      let method ← draft.record
      pure (.done, inventory.updateType place (·.addMethod method))
  | .renameType place name =>
      let _ ← inventory.typeAt place
      pure (.done, inventory.updateType place ({ · with name := name }))
  | .readType place =>
      let type ← inventory.typeAt place
      pure (.type type, inventory)

end Inventory

/-! ### Audit of unsafe code

How much of a file lies under unsafe blocks. Blocks may overlap; a byte or a line
that several of them cover counts once. The blocks are put in order of their start,
joined where they overlap or touch, and summed up. -/

structure Audit where
  blocks : Nat
  unsafeBytes : Nat
  unsafeLines : Nat
  totalBytes : Nat
deriving DecidableEq, Repr

namespace Audit

def ratio (audit : Audit) : Float :=
  if audit.totalBytes = 0 then 0 else audit.unsafeBytes.toFloat / audit.totalBytes.toFloat

def startsBefore (first second : Span) : Bool := first.start.offset ≤ second.start.offset

def extend (span other : Span) : Span :=
  if further : span.stop.offset < other.stop.offset then
    ⟨span.start, other.stop, Nat.le_trans span.ordered (Nat.le_of_lt further)⟩
  else span

/-- Join spans that overlap or touch, given in order of their start. -/
def join (current : Span) : List Span → List Span
  | [] => [current]
  | next :: rest =>
      if next.start.offset ≤ current.stop.offset then join (extend current next) rest
      else current :: join next rest

def merged (blocks : List Span) : List Span :=
  match blocks.mergeSort startsBefore with
  | [] => []
  | first :: rest => join first rest

/-- The bytes and lines counted so far, and the last line counted. -/
structure Tally where
  bytes : Nat
  lines : Nat
  lastLine : Nat
deriving DecidableEq, Repr

/-- Count a span that starts after all spans counted before. -/
def Tally.count (tally : Tally) (span : Span) : Except Fault Tally := do
  let bytes ← Counter.add tally.bytes span.length
  let first := max span.start.line (← Counter.add tally.lastLine 1)
  let lines ←
    if first ≤ span.stop.line then do
      let touched ← Counter.add (span.stop.line - first) 1
      Counter.add tally.lines touched
    else pure tally.lines
  pure ⟨bytes, lines, max tally.lastLine span.stop.line⟩

end Audit

def Inventory.audit (inventory : Inventory) : Except Fault Audit := do
  let tally ← (Audit.merged inventory.unsafeBlocks).foldlM Audit.Tally.count ⟨0, 0, 0⟩
  pure ⟨inventory.unsafeBlocks.length, tally.bytes, tally.lines, inventory.length⟩

end Survey
