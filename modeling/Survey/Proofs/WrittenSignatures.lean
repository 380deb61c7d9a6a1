import Survey.Proofs.PairedBrackets
import Survey.Proofs.Consistency

set_option autoImplicit false

/-!
# Signatures as they are written

A grammar of names, types, parameters and constraints beside the readers of signatures, each
part with its text. However deeply types nest, every type is a text whose brackets pair off,
and no white space stands at its ends; so are parameters, receivers and conditions.
-/

namespace Survey

/-! ### Trimmed texts -/

namespace Text

variable {text first last : List Char} {c : Char}

theorem trimStart_of_notSpace (notSpace : isWhiteSpace c = false) (rest : List Char) :
    trimStart (c :: rest) = c :: rest :=
  List.dropWhile_cons_of_neg (by rw [notSpace]; exact Bool.false_ne_true)

theorem trimStart_append {blanks : List Char} (blank : ∀ d ∈ blanks, isWhiteSpace d = true)
    (rest : List Char) : trimStart (blanks ++ rest) = trimStart rest :=
  List.dropWhile_append_of_pos blank

theorem IsTrimmed.trimStart_append (trimmed : IsTrimmed text) (rest : List Char) :
    trimStart (text ++ rest) = text ++ rest := by
  cases text with
  | nil => exact absurd rfl trimmed.filled
  | cons c text => exact trimStart_of_notSpace (trimmed.start c rfl) _

theorem IsTrimmed.trimStart_eq (trimmed : IsTrimmed text) : trimStart text = text := by
  have starts := trimmed.trimStart_append []
  rwa [List.append_nil] at starts

/-- No white space stands at the end of the text. -/
def EndsTight (text : List Char) : Prop :=
  ∀ d, text.getLast? = some d → isWhiteSpace d = false

theorem endsTight_nil : EndsTight [] := nofun

theorem EndsTight.append (tight : EndsTight first) (later : EndsTight last) :
    EndsTight (first ++ last) := by
  cases last with
  | nil =>
      rw [List.append_nil]
      exact tight
  | cons d last =>
      intro e isLast
      rw [List.getLast?_append_of_ne_nil _ (List.cons_ne_nil d last)] at isLast
      exact later e isLast

/-- White space behind a text is trimmed, up to the end of the text. -/
theorem EndsTight.trimEnd_append (tight : EndsTight text) {blanks : List Char}
    (blank : ∀ d ∈ blanks, isWhiteSpace d = true) : trimEnd (text ++ blanks) = text := by
  have reversed : ∀ d ∈ blanks.reverse, isWhiteSpace d = true :=
    fun d member => blank d (List.mem_reverse.mp member)
  have stays : text.reverse.dropWhile isWhiteSpace = text.reverse := by
    unfold EndsTight at tight
    rw [List.getLast?_eq_head?_reverse] at tight
    cases backwards : text.reverse with
    | nil => rfl
    | cons d rest =>
        rw [backwards] at tight
        exact trimStart_of_notSpace (tight d rfl) rest
  unfold trimEnd
  rw [List.reverse_append, List.dropWhile_append_of_pos reversed, stays, List.reverse_reverse]

theorem EndsTight.trimEnd_eq (tight : EndsTight text) : trimEnd text = text := by
  have trimmed : trimEnd (text ++ []) = text := tight.trimEnd_append nofun
  rwa [List.append_nil] at trimmed

/-- White space around a trimmed text is trimmed. -/
theorem IsTrimmed.trim_eq (trimmed : IsTrimmed text) {before after : List Char}
    (blankBefore : ∀ d ∈ before, isWhiteSpace d = true)
    (blankAfter : ∀ d ∈ after, isWhiteSpace d = true) :
    trim (before ++ (text ++ after)) = text := by
  unfold trim
  rw [Text.trimStart_append blankBefore, trimmed.trimStart_append,
    EndsTight.trimEnd_append trimmed.stop blankAfter]

theorem IsTrimmed.append_tight (starts : IsTrimmed first) (tight : EndsTight last) :
    IsTrimmed (first ++ last) where
  filled := List.append_ne_nil_of_left_ne_nil starts.filled _
  start d isFirst := by
    rw [List.head?_append_of_ne_nil _ starts.filled] at isFirst
    exact starts.start d isFirst
  stop := EndsTight.append starts.stop tight

theorem IsTrimmed.endsTight_append (stops : IsTrimmed last) (first : List Char) :
    EndsTight (first ++ last) := by
  intro d isLast
  rw [List.getLast?_append_of_ne_nil _ stops.filled] at isLast
  exact stops.stop d isLast

theorem IsTrimmed.append (starts : IsTrimmed first) (middle : List Char) (stops : IsTrimmed last) :
    IsTrimmed (first ++ (middle ++ last)) :=
  starts.append_tight (stops.endsTight_append middle)

theorem isTrimmed_singleton (notSpace : isWhiteSpace c = false) : IsTrimmed [c] where
  filled := List.cons_ne_nil _ _
  start := by
    rintro d ⟨⟩
    exact notSpace
  stop := by
    rintro d ⟨⟩
    exact notSpace

theorem IsTrimmed.cons (notSpace : isWhiteSpace c = false) (middle : List Char)
    (stops : IsTrimmed last) : IsTrimmed (c :: (middle ++ last)) :=
  (isTrimmed_singleton notSpace).append middle stops

theorem isTrimmed_of_parts (filled : text ≠ []) (parts : ∀ d ∈ text, isWordPart d = true) :
    IsTrimmed text where
  filled := filled
  start d isFirst := isWhiteSpace_of_isWordPart (parts d (List.mem_of_mem_head? isFirst))
  stop d isLast := isWhiteSpace_of_isWordPart (parts d (List.mem_of_getLast? isLast))

theorem filled_parts_of_isWord {word : List Char} (isName : isWord word = true) :
    word ≠ [] ∧ ∀ c ∈ word, isWordPart c = true := by
  unfold isWord at isName
  rw [Bool.and_eq_true, List.all_eq_true] at isName
  refine ⟨?_, isName.2⟩
  rintro rfl
  exact absurd isName.1 Bool.false_ne_true

theorem isTrimmed_enclose (kind : Delimiter) (inner : List Char) :
    IsTrimmed (kind.enclose inner) := by
  have notSpace : isWhiteSpace kind.opener = false ∧ isWhiteSpace kind.closer = false := by
    cases kind <;> decide
  exact .cons notSpace.1 inner (isTrimmed_singleton notSpace.2)

end Text

namespace Written

open Signature

/-! ### Names -/

/-- The words that signatures are written with; they name nothing. -/
def reserved : List (List Char) :=
  [['c', 'o', 'n', 's', 't'], ['d', 'y', 'n'], ['f', 'n'], ['f', 'o', 'r'], ['i', 'm', 'p', 'l'],
    ['m', 'u', 't'], ['p', 'u', 'b'], ['s', 'e', 'l', 'f'], ['w', 'h', 'e', 'r', 'e']]

/-- A word that is not reserved: a name or a number. -/
structure Word where
  chars : List Char
  filled : chars ≠ []
  parts : ∀ c ∈ chars, Text.isWordPart c = true
  free : chars ∉ reserved

/-- A word that names something. -/
structure Name extends Word where
  starts : chars.head?.any Text.isWordStart = true

/-- A word that is not reserved names something. -/
def Name.ofWord (word : List Char) (isWord : Text.isWord word = true) (free : word ∉ reserved) :
    Name where
  chars := word
  filled := (Text.filled_parts_of_isWord isWord).1
  parts := (Text.filled_parts_of_isWord isWord).2
  free := free
  starts := (Bool.and_eq_true_iff.mp isWord).1

/-- The name of a lifetime; any word will do. -/
structure Lifetime where
  chars : List Char
  filled : chars ≠ []
  parts : ∀ c ∈ chars, Text.isWordPart c = true

/-- Names one inside the other. -/
structure Path where
  first : Name
  later : List Name

/-- The text of names with double colons between them. -/
def Path.textFrom (first : Name) : List Name → List Char
  | [] => first.chars
  | next :: later => first.chars ++ ':' :: ':' :: textFrom next later

def Path.text (path : Path) : List Char := textFrom path.first path.later

def Lifetime.text (lifetime : Lifetime) : List Char := '\'' :: lifetime.chars

/-! ### Types -/

/-- The types of a signature. -/
inductive Ty where
  | path (names : Path) (arguments : List Ty)
  | reference (lifetime? : Option Lifetime) (isMutable : Bool) (target : Ty)
  | tuple (parts : List Ty)
  | slice (element : Ty)
  | array (element : Ty) (length : Word)
  | function (parameters : List Ty) (result : Ty)
  | closure (names : Path) (parameters : List Ty) (result : Ty)
  | dynamic (names : Path)

/-- Texts with commas between them. -/
def listed (parts : List (List Char)) : List Char := [',', ' '].intercalate parts

/-- A list in angle brackets; no brackets are written without a list. -/
def angled : List (List Char) → List Char
  | [] => []
  | part :: parts => Delimiter.angle.enclose (listed (part :: parts))

/-- What stands between `&` and the type or receiver that is borrowed. -/
def borrow (lifetime? : Option Lifetime) (isMutable : Bool) (target : List Char) : List Char :=
  let qualified := if isMutable then 'm' :: 'u' :: 't' :: ' ' :: target else target
  match lifetime? with
  | none => qualified
  | some lifetime => lifetime.text ++ ' ' :: qualified

def arrow (result : List Char) : List Char := ' ' :: '-' :: '>' :: ' ' :: result

mutual

/-- A type as it is written. -/
def Ty.text : Ty → List Char
  | .path names arguments => names.text ++ angled (Ty.texts arguments)
  | .reference lifetime? isMutable target => '&' :: borrow lifetime? isMutable target.text
  | .tuple parts => Delimiter.paren.enclose (listed (Ty.texts parts))
  | .slice element => Delimiter.bracket.enclose element.text
  | .array element length => Delimiter.bracket.enclose (element.text ++ ';' :: ' ' :: length.chars)
  | .function parameters result =>
      ['f', 'n'] ++ (Delimiter.paren.enclose (listed (Ty.texts parameters)) ++ arrow result.text)
  | .closure names parameters result =>
      ['i', 'm', 'p', 'l'] ++ ' ' :: (names.text ++
        (Delimiter.paren.enclose (listed (Ty.texts parameters)) ++ arrow result.text))
  | .dynamic names => ['d', 'y', 'n'] ++ ' ' :: names.text

/-- Types as they are written. -/
def Ty.texts : List Ty → List (List Char)
  | [] => []
  | type :: types => type.text :: Ty.texts types

end

/-- The name that a type has as the target of an implementation: borrows, lifetimes and
qualifiers are left out, and so are the arguments of a path; a group is named by itself. -/
def Ty.name? : Ty → Option (List Char)
  | .path names _ => some names.text
  | .reference _ _ target => target.name?
  | .tuple parts => some (Ty.tuple parts).text
  | .slice element => some (Ty.slice element).text
  | .array element length => some (Ty.array element length).text
  | .dynamic names => some names.text
  | .function _ _ | .closure _ _ _ => none

/-! ### Signatures -/

/-- An entry of a generic list. -/
inductive Generic where
  | lifetime (label : Lifetime)
  | type (name : Name)
  | bounded (name : Name) (bound : Ty)
  | constant (name : Name) (type : Ty)

def Generic.text : Generic → List Char
  | .lifetime label => label.text
  | .type name => name.chars
  | .bounded name bound => name.chars ++ ':' :: ' ' :: bound.text
  | .constant name kind =>
      ['c', 'o', 'n', 's', 't'] ++ ' ' :: (name.chars ++ ':' :: ' ' :: kind.text)

/-- What a method is called on. -/
inductive Receiver where
  | value
  | borrowed (lifetime? : Option Lifetime) (isMutable : Bool)

def Receiver.text : Receiver → List Char
  | .value => ['s', 'e', 'l', 'f']
  | .borrowed lifetime? isMutable => '&' :: borrow lifetime? isMutable ['s', 'e', 'l', 'f']

structure Parameter where
  name : Name
  type : Ty

def Parameter.text (parameter : Parameter) : List Char :=
  parameter.name.chars ++ ':' :: ' ' :: parameter.type.text

/-- A trait with its arguments. -/
structure Trait where
  names : Path
  arguments : List Ty

def Trait.text (trait : Trait) : List Char := (Ty.path trait.names trait.arguments).text

/-- A condition that a `where` introduces. -/
structure Constraint where
  subject : Ty
  bound : Trait

def Constraint.text (condition : Constraint) : List Char :=
  condition.subject.text ++ ':' :: ' ' :: condition.bound.text

/-- Conditions with the word before them; no conditions, no word. -/
def constraintsText : List Constraint → List Char
  | [] => []
  | condition :: conditions =>
      ' ' :: (['w', 'h', 'e', 'r', 'e'] ++
        ' ' :: listed ((condition :: conditions).map Constraint.text))

/-- A function up to its body. -/
structure Prototype where
  name : Name
  generics : List Generic
  receiver? : Option Receiver
  parameters : List Parameter
  result? : Option Ty
  constraints : List Constraint

namespace Prototype

/-- The parameters one by one, the receiver first. -/
def fragments (prototype : Prototype) : List (List Char) :=
  prototype.receiver?.toList.map Receiver.text ++ prototype.parameters.map Parameter.text

def resultText (prototype : Prototype) : List Char :=
  match prototype.result? with
  | none => []
  | some result => result.text

/-- What stands behind the parameters. -/
def tailText (prototype : Prototype) : List Char :=
  (match prototype.result? with
    | none => []
    | some result => arrow result.text) ++ constraintsText prototype.constraints

/-- A function as it is written between its keyword and its body. -/
def text (prototype : Prototype) : List Char :=
  prototype.name.chars ++ (angled (prototype.generics.map Generic.text) ++
    (Delimiter.paren.enclose (listed prototype.fragments) ++ prototype.tailText))

end Prototype

/-- An implementation up to its body. -/
structure Implementation where
  generics : List Generic
  trait? : Option Trait
  target : Ty
  constraints : List Constraint

namespace Implementation

/-- The type, with the trait before it if there is one. -/
def subjectText (implementation : Implementation) : List Char :=
  match implementation.trait? with
  | none => implementation.target.text
  | some trait => trait.text ++ ' ' :: (['f', 'o', 'r'] ++ ' ' :: implementation.target.text)

/-- An implementation as it is written between its keyword and its body. -/
def text (implementation : Implementation) : List Char :=
  angled (implementation.generics.map Generic.text) ++
    ' ' :: (implementation.subjectText ++ constraintsText implementation.constraints)

end Implementation

/-! ### Brackets of what is written -/

variable {separators text rest : List Char} {parts : List (List Char)}

theorem ordinary_of_free {word : List Char} (free : word ∉ reserved) : word ∉ introducers := by
  intro member
  have within : ∀ other ∈ introducers, other ∈ reserved := by
    decide
  exact free (within word member)

theorem Word.bracketed (word : Word) (ends : Text.EndsWord text)
    (later : Bracketed separators text) : Bracketed separators (word.chars ++ text) :=
  .word word.filled word.parts (ordinary_of_free word.free) ends later

theorem Lifetime.bracketed (lifetime : Lifetime) (ends : Text.EndsWord text)
    (later : Bracketed separators text) : Bracketed separators (lifetime.text ++ text) :=
  .lifetime lifetime.filled lifetime.parts ends later

theorem endsWord_of_mem {c : Char} (member : c ∈ spacers ++ dividers) (rest : List Char) :
    Text.EndsWord (c :: rest) := by
  have other : ∀ d ∈ spacers ++ dividers, d ∉ ['\'', '"', '#'] := by
    decide
  exact Text.endsWord_cons (Nesting.level_of_mem c member).2 (other c member) rest

theorem endsWord_enclose (kind : Delimiter) (inner rest : List Char) :
    Text.EndsWord (kind.enclose inner ++ rest) := by
  rw [Delimiter.enclose_append]
  apply Text.endsWord_cons <;> cases kind <;> decide

theorem Path.bracketed (path : Path) : Bracketed separators path.text := by
  obtain ⟨first, later⟩ := path
  unfold Path.text
  dsimp only
  induction later generalizing first with
  | nil =>
      have bracketed := first.bracketed Text.endsWord_nil (.nothing separators)
      rwa [List.append_nil] at bracketed
  | cons next later ih =>
      exact first.bracketed (endsWord_of_mem (by decide) _)
        (.spacer (by decide) (.spacer (by decide) (ih next)))

theorem Path.isTrimmed (path : Path) : Text.IsTrimmed path.text := by
  obtain ⟨first, later⟩ := path
  unfold Path.text
  dsimp only
  induction later generalizing first with
  | nil => exact Text.isTrimmed_of_parts first.filled first.parts
  | cons next later ih =>
      exact (Text.isTrimmed_of_parts first.filled first.parts).append [':', ':'] (ih next)

theorem listed_cons (part next : List Char) (parts : List (List Char)) :
    listed (part :: next :: parts) = part ++ ',' :: ' ' :: listed (next :: parts) := by
  unfold listed
  rw [List.intercalate_cons_cons, List.append_assoc]
  rfl

theorem listed_singleton (part : List Char) : listed [part] = part := by
  unfold listed
  exact List.intercalate_singleton

theorem bracketed_listed (bracketed : ∀ part ∈ parts, Bracketed [] part) :
    Bracketed [','] (listed parts) := by
  induction parts with
  | nil => exact .nothing _
  | cons part parts ih =>
      have first := (bracketed part List.mem_cons_self).mono (List.nil_subset [','])
      cases parts with
      | nil =>
          rw [listed_singleton]
          exact first
      | cons next parts =>
          rw [listed_cons]
          have later := ih fun other member => bracketed other (List.mem_cons_of_mem _ member)
          exact first.append (endsWord_of_mem (by decide) _)
            (.divider (by decide) (by decide) (.spacer (by decide) later))

theorem bracketed_group (kind : Delimiter) (notBrace : kind ≠ .brace) {inner : List Char}
    (inside : Bracketed dividers inner) : Bracketed separators (kind.enclose inner) := by
  have bracketed := Bracketed.group kind notBrace inside (.nothing separators)
  rwa [List.append_nil] at bracketed

theorem bracketed_group_listed (kind : Delimiter) (notBrace : kind ≠ .brace)
    (bracketed : ∀ part ∈ parts, Bracketed [] part) :
    Bracketed separators (kind.enclose (listed parts)) :=
  bracketed_group kind notBrace ((bracketed_listed bracketed).mono (by decide))

theorem bracketed_angled (bracketed : ∀ part ∈ parts, Bracketed [] part) :
    Bracketed separators (angled parts) := by
  cases parts with
  | nil => exact .nothing _
  | cons part parts => exact bracketed_group_listed .angle (by decide) bracketed

theorem endsWord_angled (parts : List (List Char)) (ends : Text.EndsWord rest) :
    Text.EndsWord (angled parts ++ rest) := by
  cases parts with
  | nil => exact ends
  | cons part parts => exact endsWord_enclose .angle _ rest

theorem bracketed_borrow (lifetime? : Option Lifetime) (isMutable : Bool)
    (bracketed : Bracketed separators text) :
    Bracketed separators (borrow lifetime? isMutable text) := by
  have qualified : Bracketed separators
      (if isMutable then 'm' :: 'u' :: 't' :: ' ' :: text else text) := by
    split
    · exact @Bracketed.word _ ['m', 'u', 't'] _ (by decide) (by decide) (by decide)
        (endsWord_of_mem (by decide) _) (.spacer (by decide) bracketed)
    · exact bracketed
  unfold borrow
  cases lifetime? with
  | none => exact qualified
  | some lifetime =>
      exact lifetime.bracketed (endsWord_of_mem (by decide) _) (.spacer (by decide) qualified)

theorem bracketed_arrow (bracketed : Bracketed separators text) :
    Bracketed separators (arrow text) :=
  .spacer (by decide) (.arrow (.spacer (by decide) bracketed))

theorem endsWord_arrow (result rest : List Char) : Text.EndsWord (arrow result ++ rest) :=
  endsWord_of_mem (by decide) _

/-- The inside of an array type. -/
theorem bracketed_counted (bracketed : Bracketed [] text) (length : Word) :
    Bracketed dividers (text ++ ';' :: ' ' :: length.chars) := by
  have counted := length.bracketed Text.endsWord_nil (.nothing dividers)
  rw [List.append_nil] at counted
  exact (bracketed.mono (List.nil_subset _)).append (endsWord_of_mem (by decide) _)
    (.divider (by decide) (by decide) (.spacer (by decide) counted))

mutual

/-- The brackets of a type pair off, and commas and semicolons stand inside them. -/
theorem Ty.bracketed : (type : Ty) → Bracketed [] type.text
  | .path names arguments => by
      have ends := endsWord_angled (Ty.texts arguments) Text.endsWord_nil
      rw [List.append_nil] at ends
      rw [Ty.text]
      exact names.bracketed.append ends (bracketed_angled (Ty.texts_bracketed arguments))
  | .reference lifetime? isMutable target => by
      rw [Ty.text]
      exact .spacer (by decide) (bracketed_borrow lifetime? isMutable target.bracketed)
  | .tuple parts => by
      rw [Ty.text]
      exact bracketed_group_listed .paren (by decide) (Ty.texts_bracketed parts)
  | .slice element => by
      rw [Ty.text]
      exact bracketed_group .bracket (by decide) (element.bracketed.mono (List.nil_subset _))
  | .array element length => by
      rw [Ty.text]
      exact bracketed_group .bracket (by decide) (bracketed_counted element.bracketed length)
  | .function parameters result => by
      rw [Ty.text]
      exact .word (by decide) (by decide) (by decide) (endsWord_enclose .paren _ _)
        ((bracketed_group_listed .paren (by decide) (Ty.texts_bracketed parameters)).append
          (endsWord_of_mem (by decide) _) (bracketed_arrow result.bracketed))
  | .closure names parameters result => by
      rw [Ty.text]
      exact .word (by decide) (by decide) (by decide) (endsWord_of_mem (by decide) _)
        (.spacer (by decide) (names.bracketed.append (endsWord_enclose .paren _ _)
          ((bracketed_group_listed .paren (by decide) (Ty.texts_bracketed parameters)).append
            (endsWord_of_mem (by decide) _) (bracketed_arrow result.bracketed))))
  | .dynamic names => by
      rw [Ty.text]
      exact .word (by decide) (by decide) (by decide) (endsWord_of_mem (by decide) _)
        (.spacer (by decide) names.bracketed)

theorem Ty.texts_bracketed : (types : List Ty) → ∀ part ∈ Ty.texts types, Bracketed [] part
  | [] => by
      rw [Ty.texts]
      exact nofun
  | type :: types => by
      rw [Ty.texts, List.forall_mem_cons]
      exact ⟨type.bracketed, Ty.texts_bracketed types⟩

end

/-- A name with a type behind a colon. -/
theorem bracketed_typed (name : Name) (type : Ty) :
    Bracketed [] (name.chars ++ ':' :: ' ' :: type.text) :=
  name.bracketed (endsWord_of_mem (by decide) _)
    (.spacer (by decide) (.spacer (by decide) type.bracketed))

theorem Generic.bracketed (generic : Generic) : Bracketed [] generic.text := by
  cases generic with
  | lifetime label =>
      have bracketed := label.bracketed Text.endsWord_nil (.nothing [])
      rwa [List.append_nil] at bracketed
  | type name =>
      have bracketed := name.bracketed Text.endsWord_nil (.nothing [])
      rwa [List.append_nil] at bracketed
  | bounded name bound => exact bracketed_typed name bound
  | constant name kind =>
      exact .word (by decide) (by decide) (by decide) (endsWord_of_mem (by decide) _)
        (.spacer (by decide) (bracketed_typed name kind))

theorem Receiver.bracketed (receiver : Receiver) : Bracketed [] receiver.text := by
  have itself : Bracketed [] ['s', 'e', 'l', 'f'] :=
    @Bracketed.word _ ['s', 'e', 'l', 'f'] _ (by decide) (by decide) (by decide)
      Text.endsWord_nil (.nothing [])
  cases receiver with
  | value => exact itself
  | borrowed lifetime? isMutable =>
      exact .spacer (by decide) (bracketed_borrow lifetime? isMutable itself)

theorem Constraint.bracketed (condition : Constraint) : Bracketed [] condition.text :=
  condition.subject.bracketed.append (endsWord_of_mem (by decide) _)
    (.spacer (by decide) (.spacer (by decide) (Ty.bracketed _)))

theorem Prototype.bracketed_fragments (prototype : Prototype) :
    ∀ part ∈ prototype.fragments, Bracketed [] part := by
  unfold fragments
  rw [List.forall_mem_append]
  exact ⟨List.forall_mem_map.mpr fun receiver _ => receiver.bracketed,
    List.forall_mem_map.mpr fun parameter _ => bracketed_typed parameter.name parameter.type⟩

/-! ### Ends of what is written -/

theorem isTrimmed_borrow (lifetime? : Option Lifetime) (isMutable : Bool)
    (trimmed : Text.IsTrimmed text) : Text.IsTrimmed (borrow lifetime? isMutable text) := by
  have qualified : Text.IsTrimmed
      (if isMutable then 'm' :: 'u' :: 't' :: ' ' :: text else text) := by
    split
    · exact .cons (by decide) ['u', 't', ' '] trimmed
    · exact trimmed
  unfold borrow
  cases lifetime? with
  | none => exact qualified
  | some lifetime =>
      have split : lifetime.text ++ ' ' :: (if isMutable then 'm' :: 'u' :: 't' :: ' ' :: text
          else text) = '\'' :: ((lifetime.chars ++ [' ']) ++
            (if isMutable then 'm' :: 'u' :: 't' :: ' ' :: text else text)) := by
        simp [Lifetime.text]
      dsimp only
      rw [split]
      exact .cons (by decide) _ qualified

theorem isTrimmed_append_angled (trimmed : Text.IsTrimmed text) (parts : List (List Char)) :
    Text.IsTrimmed (text ++ angled parts) := by
  cases parts with
  | nil =>
      unfold angled
      rwa [List.append_nil]
  | cons part parts => exact trimmed.append [] (Text.isTrimmed_enclose .angle _)

/-- No white space stands at the ends of a type. -/
theorem Ty.isTrimmed : (type : Ty) → Text.IsTrimmed type.text
  | .path names arguments => by
      rw [Ty.text]
      exact isTrimmed_append_angled names.isTrimmed _
  | .reference lifetime? isMutable target => by
      rw [Ty.text]
      exact .cons (by decide) [] (isTrimmed_borrow lifetime? isMutable target.isTrimmed)
  | .tuple parts => by
      rw [Ty.text]
      exact Text.isTrimmed_enclose .paren _
  | .slice element => by
      rw [Ty.text]
      exact Text.isTrimmed_enclose .bracket _
  | .array element length => by
      rw [Ty.text]
      exact Text.isTrimmed_enclose .bracket _
  | .function parameters result => by
      have split : (Ty.function parameters result).text = 'f' :: ('n' ::
          (Delimiter.paren.enclose (listed (Ty.texts parameters)) ++ arrow []) ++
            result.text) := by
        rw [Ty.text]
        simp [arrow]
      rw [split]
      exact .cons (by decide) _ result.isTrimmed
  | .closure names parameters result => by
      have split : (Ty.closure names parameters result).text = 'i' :: ('m' :: 'p' :: 'l' :: ' ' ::
          (names.text ++ (Delimiter.paren.enclose (listed (Ty.texts parameters)) ++ arrow [])) ++
            result.text) := by
        rw [Ty.text]
        simp [arrow]
      rw [split]
      exact .cons (by decide) _ result.isTrimmed
  | .dynamic names => by
      rw [Ty.text]
      exact .cons (by decide) ['y', 'n', ' '] names.isTrimmed

theorem Name.isTrimmed (name : Name) : Text.IsTrimmed name.chars :=
  Text.isTrimmed_of_parts name.filled name.parts

theorem Receiver.isTrimmed (receiver : Receiver) : Text.IsTrimmed receiver.text := by
  have itself : Text.IsTrimmed ['s', 'e', 'l', 'f'] :=
    Text.isTrimmed_of_parts (by decide) (by decide)
  cases receiver with
  | value => exact itself
  | borrowed lifetime? isMutable =>
      exact .cons (by decide) [] (isTrimmed_borrow lifetime? isMutable itself)

theorem Prototype.isTrimmed_fragments (prototype : Prototype) :
    ∀ part ∈ prototype.fragments, Text.IsTrimmed part := by
  unfold fragments
  rw [List.forall_mem_append]
  exact ⟨List.forall_mem_map.mpr fun receiver _ => receiver.isTrimmed,
    List.forall_mem_map.mpr fun parameter _ =>
      parameter.name.isTrimmed.append [':', ' '] parameter.type.isTrimmed⟩

theorem isTrimmed_listed (part : List Char) (parts : List (List Char))
    (trimmed : ∀ other ∈ part :: parts, Text.IsTrimmed other) :
    Text.IsTrimmed (listed (part :: parts)) := by
  induction parts generalizing part with
  | nil =>
      rw [listed_singleton]
      exact trimmed part List.mem_cons_self
  | cons next parts ih =>
      have later := ih next fun other member => trimmed other (List.mem_cons_of_mem _ member)
      rw [listed_cons]
      exact (trimmed part List.mem_cons_self).append [',', ' '] later

theorem Constraint.isTrimmed (condition : Constraint) : Text.IsTrimmed condition.text :=
  condition.subject.isTrimmed.append [':', ' '] (Ty.isTrimmed _)

theorem endsTight_constraintsText (conditions : List Constraint) :
    Text.EndsTight (constraintsText conditions) := by
  cases conditions with
  | nil => exact Text.endsTight_nil
  | cons condition conditions =>
      have each : ∀ part ∈ (condition :: conditions).map Constraint.text, Text.IsTrimmed part :=
        List.forall_mem_map.mpr fun written _ => written.isTrimmed
      have trimmed : Text.IsTrimmed (listed ((condition :: conditions).map Constraint.text)) :=
        isTrimmed_listed _ _ each
      exact trimmed.endsTight_append [' ', 'w', 'h', 'e', 'r', 'e', ' ']

theorem Prototype.isTrimmed (prototype : Prototype) : Text.IsTrimmed prototype.text := by
  have result : Text.EndsTight prototype.tailText := by
    unfold tailText
    apply Text.EndsTight.append _ (endsTight_constraintsText _)
    cases prototype.result? with
    | none => exact Text.endsTight_nil
    | some result => exact result.isTrimmed.endsTight_append [' ', '-', '>', ' ']
  have split : prototype.text = prototype.name.chars ++
      (angled (prototype.generics.map Generic.text) ++
        (Delimiter.paren.enclose (listed prototype.fragments) ++ prototype.tailText)) := rfl
  have tail := ((Text.isTrimmed_enclose .paren (listed prototype.fragments)).append_tight result)
  rw [split]
  exact prototype.name.isTrimmed.append _ tail

end Written
end Survey
