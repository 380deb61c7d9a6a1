import Survey.Finding.Item

set_option autoImplicit false

/-!
# Findings of a file

A file is read from token to token; the configuration says which attributes mark tests.
-/

namespace Survey

/-! ### Configuration

Which attributes mark tests. Markers are compared without regard to white space. -/

structure Config where
  testMarkers : List String
  testModuleMarkers : List String
deriving DecidableEq, Repr

namespace Config

def standard : Config := ⟨["#[test]"], ["#[cfg(test)]"]⟩

def isAmong (markers : List String) (mark : List Char) : Bool :=
  markers.any fun marker => Text.withoutWhiteSpace marker.toList == mark

def isTest (config : Config) (mark : List Char) : Bool :=
  isAmong config.testMarkers mark

def isTestModule (config : Config) (mark : List Char) : Bool :=
  isAmong config.testModuleMarkers mark

end Config

/-! ### The findings of a file

A Rust source file is read token by token. A keyword, an attribute or the mark of a
macro hands the text behind it to what reads that construct; reading goes on behind
it. -/

namespace Finding

def afterHash (config : Config) (start : Position) (cursor : Cursor) : Visit :=
  match Attribute.read? cursor.rest with
  | none => .skipped 0
  | some mark =>
      if config.isTestModule mark.text then ⟨[.testModule start.line], mark.length⟩
      else if config.isTest mark.text then
        let test := afterTestMark start (cursor.skip mark.length)
        ⟨test.found, mark.length + test.length⟩
      else .skipped mark.length

def afterKeyword (keyword : Keyword) (start : Position) (cursor : Cursor) : Visit :=
  match keyword with
  | .function => afterFunction .none start cursor
  | .struct => afterStruct start cursor
  | .enum => afterEnum start cursor
  | .trait => afterTrait start cursor
  | .implementation => afterImplementation start cursor
  | .unsafeMark => afterUnsafe cursor
  | .macroRules => .skipped 0

/-- What a token of a file leads to; the cursor stands behind it. The flag says
whether the token before it announces the definition of a macro. -/
def inFile (config : Config) (inDefinition : Bool) (token : Token) (cursor : Cursor) :
    Visit :=
  match token.tag with
  | .bang => .skipped (macroLength inDefinition cursor.rest)
  | .hash => afterHash config token.start cursor
  | _ =>
    match token.keyword? with
    | some keyword => afterKeyword keyword token.start cursor
    | none => .skipped 0

def stream (config : Config) (inDefinition : Bool) (cursor : Cursor) : List Finding :=
  match _next : cursor.significant? with
  | none => []
  | some (token, length) =>
    let announces := token.keyword? == some .macroRules
    match inFile config inDefinition token (cursor.skip length) with
    | ⟨[], more⟩ => stream config announces (cursor.skip (length + more))
    | ⟨found, more⟩ => found ++ stream config announces (cursor.skip (length + more))
termination_by cursor.rest.length
decreasing_by all_goals exact Cursor.length_skip_add_lt _next _

theorem stream_of_none {cursor : Cursor} (atEnd : cursor.significant? = none)
    (config : Config) (inDefinition : Bool) : stream config inDefinition cursor = [] := by
  rw [stream]
  split
  · rfl
  · simp_all

theorem stream_of_some {cursor : Cursor} {token : Token} {length : Nat}
    (next : cursor.significant? = some (token, length)) (config : Config)
    (inDefinition : Bool) :
    stream config inDefinition cursor =
      (inFile config inDefinition token (cursor.skip length)).found ++
        stream config (token.keyword? == some .macroRules)
          (cursor.skip
            (length + (inFile config inDefinition token (cursor.skip length)).length)) := by
  rw [stream]
  split
  · simp_all
  · rename_i token' length' next'
    obtain ⟨rfl, rfl⟩ : token = token' ∧ length = length' := by simp_all
    cases visit : inFile config inDefinition token (cursor.skip length) with
    | mk found more => cases found <;> simp

def ofText (config : Config) (text : List Char) : List Finding :=
  stream config false (.ofText text)

end Finding

end Survey
