import Survey.Inventory.Recording

set_option autoImplicit false

/-!
# Surveys of streams and files

The text of a survey may come from a stream or from a file. Content never makes it fail,
since all bytes decode; only reading can.
-/

namespace Survey

/-! ### Streams

A stream is a script of deliveries. Reading it to the end joins the data, tries
again after an interruption, and stops at the first failure or at the first
delivery without data. -/

inductive Delivery where
  | data (bytes : List UInt8)
  | interrupted
  | failure (cause : String)
deriving DecidableEq, Repr

namespace Delivery

def readAll : List Delivery → Except String (List UInt8)
  | [] => .ok []
  | .data [] :: _ => .ok []
  | .data (byte :: bytes) :: rest => (readAll rest).map (byte :: bytes ++ ·)
  | .interrupted :: rest => readAll rest
  | .failure cause :: _ => .error cause

end Delivery

/-! ### Files -/

/-- The files of a host: what lies at a path, or why nothing can be read there. -/
structure FileTree where
  content : String → Except String (List UInt8)

namespace FileTree

def bareHost : FileTree := ⟨fun _ => .error "No such file or directory (os error 2)"⟩

def put (files : FileTree) (name : String) (bytes : List UInt8) : FileTree :=
  ⟨fun path => if path = name then .ok bytes else files.content path⟩

end FileTree

/-! ### Surveys -/

inductive Failure where
  /-- Reading a stream failed. -/
  | stream (cause : String)
  /-- Opening or reading a file failed. -/
  | file (path cause : String)
  | fault (cause : Fault)
deriving DecidableEq, Repr

def Failure.message : Failure → String
  | .stream cause => "failed to read source: " ++ cause
  | .file path cause => "failed to read " ++ path ++ ": " ++ cause
  | .fault cause => cause.message

def surveyBytes (config : Config) (bytes : List UInt8) : Except Failure Inventory :=
  (survey config (Encoding.decode bytes).text).mapError .fault

def surveyStream (config : Config) (deliveries : List Delivery) :
    Except Failure Inventory := do
  let bytes ← (Delivery.readAll deliveries).mapError .stream
  surveyBytes config bytes

/-- Survey a file with the standard markers. -/
def surveyFile (files : FileTree) (path : String) : Except Failure Inventory := do
  let bytes ← (files.content path).mapError (.file path)
  surveyBytes .standard bytes

end Survey
