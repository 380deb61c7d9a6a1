import Survey.Finding.Stream
import Survey.Encoding

set_option autoImplicit false

/-!
# Surveys

A survey writes down what it finds, and tells what it does in a log.
-/

namespace Survey

/-! ### Recording

The inventory of a text is built from its findings, one after the other. -/

/-- Write a finding down. Notices leave the inventory as it is. -/
def Inventory.record (inventory : Inventory) : Finding → Except Fault Inventory
  | .unsafeBlock extent => do
      let span ← extent.span
      pure (inventory.addUnsafeBlocks [span])
  | .function draft _ => do
      let function ← draft.record
      match function.owner.type? with
      | none => pure (inventory.addFunction function)
      | some typeName =>
          let (place, inventory) := inventory.enterType typeName
          pure (inventory.updateType place (·.addMethod function))
  | .struct name extent => do
      let span ← extent.span
      pure (inventory.declareType name span).2
  | .enum name variants extent => do
      let span ← extent.span
      pure (inventory.addEnum ⟨name, span, variants⟩)
  | .trait name extent => do
      let span ← extent.span
      pure (inventory.declareTrait name span).2
  | .target typeName traitName? =>
      let (place, inventory) := inventory.enterType typeName
      match traitName? with
      | none => .ok inventory
      | some traitName =>
          .ok ((inventory.enterTrait traitName).2.updateType place (·.addTrait traitName))
  | .test name extent => do
      let span ← extent.span
      pure (inventory.addTest ⟨name, span⟩)
  | .testModule line => .ok (inventory.markTestModule line)
  | .unsafeAtEnd | .signatureAtEnd _ | .enumAtEnd _ | .traitBody _ _ _
  | .implementationAtEnd _ | .targetUnresolved _ | .implementationBody _ _ _ =>
      .ok inventory

def Inventory.recordAll (inventory : Inventory) (findings : List Finding) :
    Except Fault Inventory :=
  findings.foldlM Inventory.record inventory

/-- The findings of a text whose places are all made of counters. If the place at its end is,
so is every place before it. A place is read out by adding it to where the text starts, and the
one that is added first has to fit as well: the check is that of the scan for texts of at most
2^32 - 3 bytes, where both succeed. -/
def findings (config : Config) (text : String) : Except Fault (List Finding) := do
  let _ ← (Position.ofText text.toList).checked
  pure (Finding.ofText config text.toList)

def survey (config : Config) (text : String) : Except Fault Inventory := do
  let found ← findings config text
  let inventory ← Inventory.empty.recordAll found
  pure (inventory.withLength (Counter.clamp (Text.byteLength text.toList)))

/-! ### The log of a survey

A survey tells what it does: the issues of the input first, then that it starts,
then its findings, and at the end what the inventory holds. Findings that only
mention a name stay silent. -/

inductive Level where
  | warning
  | debug
  | trace
deriving DecidableEq, Repr

def Level.name : Level → String
  | .warning => "WARN"
  | .debug => "DEBUG"
  | .trace => "TRACE"

inductive LogValue where
  | text (value : String)
  | number (value : Nat)
deriving DecidableEq, Repr

structure LogEntry where
  level : Level
  /-- Does the entry open the survey, rather than tell of an event in it? -/
  isOpening : Bool
  fields : List (String × LogValue)
deriving DecidableEq, Repr

namespace LogEntry

def event (level : Level) (message : String) (fields : List (String × LogValue)) :
    LogEntry :=
  ⟨level, false, fields ++ [("message", .text message)]⟩

def ofIssue (issue : Encoding.Issue) : LogEntry :=
  event .warning "encoding issue in source"
    [("kind", .text issue.kind.name), ("offset", .number issue.offset),
      ("len", .number issue.length)]

def opening (text : String) : LogEntry :=
  ⟨.debug, true, [("len", .number (Text.byteLength text.toList))]⟩

def closing (inventory : Inventory) : LogEntry :=
  event .debug "scan complete"
    [("functions", .number inventory.functions.length),
      ("types", .number inventory.types.records.length),
      ("enums", .number inventory.enums.length),
      ("traits", .number inventory.traits.records.length),
      ("tests", .number inventory.tests.length),
      ("unsafe_blocks", .number inventory.unsafeBlocks.length)]

def item (message name : String) (line : Nat) (more : List (String × LogValue)) :
    LogEntry :=
  event .trace message ([("item", .text name), ("line", .number line)] ++ more)

def ofFinding? : Finding → Option LogEntry
  | .unsafeBlock extent =>
      some (event .trace "unsafe block" [("line", .number extent.start.line)])
  | .unsafeAtEnd =>
      some (event .debug "`unsafe` without a block before end of input" [])
  | .function draft blocks =>
      some (item "function" draft.name draft.extent.start.line
        [("unsafe_blocks", .number blocks)])
  | .signatureAtEnd line =>
      some (event .debug "function signature runs to end of input"
        [("line", .number line)])
  | .struct name extent => some (item "struct" name extent.start.line [])
  | .enumAtEnd name =>
      some (event .debug "enum body runs to end of input" [("item", .text name)])
  | .enum name variants extent =>
      some (item "enum" name extent.start.line [("variants", .number variants.length)])
  | .traitBody name line functions =>
      some (item "trait" name line [("functions", .number functions)])
  | .implementationAtEnd line =>
      some (event .debug "impl signature runs to end of input" [("line", .number line)])
  | .targetUnresolved line =>
      some (event .debug "impl target not resolved" [("line", .number line)])
  | .implementationBody name line methods =>
      some (item "impl" name line [("methods", .number methods)])
  | .test name extent => some (item "test" name extent.start.line [])
  | .trait _ _ | .target _ _ | .testModule _ => none

end LogEntry

def surveyLog (config : Config) (decoded : Encoding.Decoded) :
    Except Fault (List LogEntry) := do
  let found ← findings config decoded.text
  let inventory ← survey config decoded.text
  pure (decoded.issues.map LogEntry.ofIssue ++ [LogEntry.opening decoded.text] ++
    found.filterMap LogEntry.ofFinding? ++ [LogEntry.closing inventory])

end Survey
