import Survey.Proofs.WrittenSignatures

set_option autoImplicit false

/-!
# Signatures taken apart

A written signature that is taken apart yields the name, the parameters and the result that it
was written with, and the receiver is told from the other parameters. A written implementation
is resolved to the name of its type and to the path of its trait. Commas, colons, arrows and the
words `for` and `where` are found where they were put, however deeply the types nest.
-/

namespace Survey
namespace Written

open Signature

variable {text : List Char} {parts : List (List Char)} {conditions : List Constraint}

/-! ### Parameters -/

theorem splitTop_blank (separator : Char) (apart : ' ' ≠ separator) (text : List Char) :
    splitTop separator (' ' :: text) = prepend [' '] (splitTop separator text) := by
  have stays : ¬ (Nesting.surface.depthOf ' ' = 0 ∧ ' ' = separator) := fun both => apart both.2
  have level : Nesting.surface.past ' ' = .surface := Nesting.past_level (by decide) _
  unfold splitTop
  rw [splitTop.go, if_neg stays, level]
  cases splitTop.go separator Nesting.surface text <;> rfl

/-- A list is split at its commas; the space behind a comma stays with the next part. -/
theorem splitTop_listed (part : List Char) (parts : List (List Char))
    (bracketed : ∀ other ∈ part :: parts, Bracketed [] other) :
    splitTop ',' (listed (part :: parts)) = part :: parts.map (' ' :: ·) := by
  induction parts generalizing part with
  | nil =>
      have split : splitTop ',' (part ++ []) = prepend part (splitTop ',' []) :=
        splitTop_of_bracketed (by decide) (bracketed part List.mem_cons_self) (by decide)
          Text.endsWord_nil
      rw [List.append_nil] at split
      rw [listed_singleton, split]
      exact congrArg (· :: []) (List.append_nil part)
  | cons next parts ih =>
      have first := bracketed part List.mem_cons_self
      have later := ih next fun other member => bracketed other (List.mem_cons_of_mem _ member)
      have comma : splitTop ',' (',' :: ' ' :: listed (next :: parts)) =
          [] :: splitTop ',' (' ' :: listed (next :: parts)) := rfl
      rw [listed_cons, splitTop_of_bracketed (by decide) first (by decide)
        (endsWord_of_mem (by decide) _), comma, splitTop_blank _ (by decide), later]
      change (part ++ []) :: _ = _
      rw [List.append_nil]
      rfl

/-- The parts of a written list are its parameters. -/
theorem parameters_listed (bracketed : ∀ part ∈ parts, Bracketed [] part)
    (trimmed : ∀ part ∈ parts, Text.IsTrimmed part) : parameters (listed parts) = parts := by
  cases parts with
  | nil => rfl
  | cons part parts =>
      have trims : ∀ other ∈ part :: parts, Text.trim other = other := by
        intro other member
        have trim : Text.trim ([] ++ (other ++ [])) = other :=
          (trimmed other member).trim_eq nofun nofun
        rwa [List.nil_append, List.append_nil] at trim
      have all : (part :: parts.map (' ' :: ·)).map Text.trim = part :: parts := by
        rw [List.map_cons, trims part List.mem_cons_self, List.map_map]
        refine congrArg (part :: ·) (.trans (List.map_congr_left ?_) (List.map_id parts))
        intro other member
        exact trims other (List.mem_cons_of_mem _ member)
      unfold parameters
      rw [splitTop_listed part parts bracketed, all, List.filter_eq_self]
      intro other member
      have filled := (trimmed other member).filled
      simpa using filled

/-! ### Constraints -/

theorem bracketed_spaces {separators : List Char} (spaces : Nat)
    (bracketed : Bracketed separators text) :
    Bracketed separators (List.replicate spaces ' ' ++ text) := by
  induction spaces with
  | zero => exact bracketed
  | succ spaces ih => exact .spacer (by decide) ih

theorem isWhiteSpace_of_mem_spaces {spaces : Nat} :
    ∀ c ∈ List.replicate spaces ' ', Text.isWhiteSpace c = true := by
  intro c member
  rw [List.eq_of_mem_replicate member]
  decide

theorem endsWord_spaces (spaces : Nat) : Text.EndsWord (List.replicate spaces ' ') := by
  cases spaces with
  | zero => exact Text.endsWord_nil
  | succ spaces => exact endsWord_of_mem (by decide) _

/-- Constraints are cut off with the white space around them. -/
theorem beforeConstraints_text (lacks : Lacks ['w', 'h', 'e', 'r', 'e'] text)
    (tight : Text.EndsTight text) (conditions : List Constraint) (spaces : Nat) :
    beforeConstraints (text ++ (constraintsText conditions ++ List.replicate spaces ' ')) =
      text := by
  cases conditions with
  | nil =>
      have blanks := bracketed_spaces spaces (.nothing [])
      rw [List.append_nil] at blanks
      have missing := (lacks.append (endsWord_spaces spaces)
        (blanks.lacks (by decide))).wordIndex?_eq_none
      unfold beforeConstraints constraintsText
      rw [List.nil_append, missing]
      exact tight.trimEnd_append isWhiteSpace_of_mem_spaces
  | cons condition conditions =>
      let after := ' ' :: (listed ((condition :: conditions).map Constraint.text) ++
        List.replicate spaces ' ')
      have found := lacks.wordIndex?_append (by decide) after rfl
      have split : constraintsText (condition :: conditions) ++ List.replicate spaces ' ' =
          ' ' :: (['w', 'h', 'e', 'r', 'e'] ++ after) := by
        simp [constraintsText, after]
      have before : (text ++ ' ' :: (['w', 'h', 'e', 'r', 'e'] ++ after)).take (text.length + 1) =
          text ++ [' '] := by
        rw [List.take_length_add_append]
        rfl
      unfold beforeConstraints
      rw [split, found]
      dsimp only
      rw [before]
      exact tight.trimEnd_append (List.forall_mem_singleton.mpr (by decide))

/-! ### Functions -/

theorem trimStart_enclose (kind : Delimiter) (inner rest : List Char) :
    Text.trimStart (kind.enclose inner ++ rest) = kind.enclose inner ++ rest :=
  (Text.isTrimmed_enclose kind inner).trimStart_append rest

theorem trimStart_angled (parts : List (List Char)) (kind : Delimiter) (inner rest : List Char) :
    Text.trimStart (angled parts ++ (kind.enclose inner ++ rest)) =
      angled parts ++ (kind.enclose inner ++ rest) := by
  cases parts with
  | nil => exact trimStart_enclose kind inner rest
  | cons part parts => exact trimStart_enclose .angle _ _

theorem angled_cases (parts : List (List Char)) (rest : List Char) :
    angled parts ++ rest = rest ∨ (angled parts ++ rest).head? = some '<' := by
  cases parts with
  | nil => exact .inl rfl
  | cons part parts => exact .inr rfl

/-- A generic list is stepped over, if one is written. -/
theorem afterGenerics_angled (bracketed : ∀ part ∈ parts, Bracketed [] part) {rest : List Char}
    (plain : rest.head? ≠ some '<') : afterGenerics (angled parts ++ rest) = rest := by
  cases parts with
  | nil =>
      cases rest with
      | nil => rfl
      | cons c rest =>
          unfold angled
          rw [List.nil_append, afterGenerics]
          intro inner starts
          exact plain (congrArg List.head? starts)
  | cons part parts => exact afterGenerics_enclose (bracketed_listed bracketed) rest

/-- The result is what stands between the arrow and the constraints. -/
theorem resultType_tailText (prototype : Prototype) :
    resultType prototype.tailText = prototype.resultText := by
  unfold Prototype.tailText Prototype.resultText
  cases prototype.result? with
  | none =>
      cases prototype.constraints <;> rfl
  | some result =>
      have lacks : Lacks ['w', 'h', 'e', 'r', 'e'] result.text :=
        result.bracketed.lacks (by decide)
      have cut := beforeConstraints_text lacks result.isTrimmed.stop prototype.constraints 0
      rw [List.replicate_zero, List.append_nil] at cut
      have starts := result.isTrimmed.trimStart_append (constraintsText prototype.constraints)
      exact (congrArg beforeConstraints starts).trans cut

theorem functionParts_text (prototype : Prototype) (spaces : Nat) :
    functionParts (' ' :: (prototype.text ++ List.replicate spaces ' ')) =
      ⟨prototype.name.chars, prototype.fragments, prototype.resultText⟩ := by
  let isNamed := fun c : Char => !(Text.isWhiteSpace c || c == '<' || c == '(')
  let group := Delimiter.paren.enclose (listed prototype.fragments) ++ prototype.tailText
  let after := angled (prototype.generics.map Generic.text) ++ group
  have trims : Text.trim (' ' :: (prototype.text ++ List.replicate spaces ' ')) =
      prototype.name.chars ++ after := by
    change Text.trim ([' '] ++ (prototype.text ++ List.replicate spaces ' ')) = _
    exact prototype.isTrimmed.trim_eq (List.forall_mem_singleton.mpr (by decide))
      isWhiteSpace_of_mem_spaces
  have named : ∀ c ∈ prototype.name.chars, isNamed c = true := by
    intro c member
    have part := prototype.name.parts c member
    have notAngle : c ≠ '<' := Text.ne_of_isWordPart part (by decide)
    have notParen : c ≠ '(' := Text.ne_of_isWordPart part (by decide)
    simp [isNamed, Text.isWhiteSpace_of_isWordPart part, notAngle, notParen]
  have ends : ∀ c, after.head? = some c → isNamed c = false := by
    intro c first
    rcases angled_cases (prototype.generics.map Generic.text) group with none | angle
    · rw [show after = group from none] at first
      cases first
      rfl
    · rw [show after.head? = some '<' from angle] at first
      cases first
      rfl
  have generics : afterGenerics after = group :=
    afterGenerics_angled (List.forall_mem_map.mpr fun generic _ => generic.bracketed) nofun
  have inside := bracketed_listed prototype.bracketed_fragments
  have closer : closerIndex? (listed prototype.fragments ++ ')' :: prototype.tailText) =
      some (listed prototype.fragments).length :=
    closerIndex?_of_bracketed inside .paren prototype.tailText
  have parameters := parameters_listed prototype.bracketed_fragments prototype.isTrimmed_fragments
  have opened : Delimiter.paren.enclose (listed prototype.fragments) ++ prototype.tailText =
      '(' :: (listed prototype.fragments ++ ')' :: prototype.tailText) :=
    Delimiter.enclose_append .paren _ _
  have behind : (listed prototype.fragments ++ ')' :: prototype.tailText).drop
      ((listed prototype.fragments).length + 1) = prototype.tailText := by
    rw [← List.drop_drop, List.drop_left]
    rfl
  unfold functionParts
  dsimp only
  rw [trims, Text.takeWhile_exact named ends, Text.dropWhile_exact named ends,
    trimStart_angled, generics, trimStart_enclose, opened]
  simp only [closer, List.take_left, parameters, behind, resultType_tailText]

/-! ### Receivers -/

theorem Word.ne_mark (word : Word) {c : Char} (mark : Text.isWordPart c = false)
    (after rest : List Char) : word.chars ++ after ≠ c :: rest := by
  have filled := word.filled
  have parts := word.parts
  intro same
  cases chars : word.chars with
  | nil => exact filled chars
  | cons d more =>
      rw [chars] at same parts
      rw [← (List.cons.inj same).1, parts d List.mem_cons_self] at mark
      cases mark

theorem Word.ne_reserved (word : Word) {other after more : List Char}
    (ends : ∀ c, after.head? = some c → Text.isWordPart c = false) (isReserved : other ∈ reserved)
    (endsMore : ∀ c, more.head? = some c → Text.isWordPart c = false) :
    word.chars ++ after ≠ other ++ more := by
  have parts : ∀ keyword ∈ reserved, ∀ c ∈ keyword, Text.isWordPart c = true := by
    decide +kernel
  intro same
  have taken := congrArg (List.takeWhile Text.isWordPart) same
  rw [Text.takeWhile_exact word.parts ends, Text.takeWhile_exact (parts other isReserved) endsMore]
    at taken
  exact word.free (taken ▸ isReserved)

/-- A receiver is told from other parameters. -/
theorem isReceiver_receiver (receiver : Receiver) : isReceiver receiver.text = true := by
  cases receiver with
  | value => decide
  | borrowed lifetime? isMutable =>
      cases lifetime? with
      | none => cases isMutable <;> decide
      | some lifetime =>
          have ends : ∀ rest c, (' ' :: rest : List Char).head? = some c →
              Text.isWordPart c = false := by
            rintro rest c ⟨⟩
            decide
          have marks : ∀ rest, Text.trimStart ('&' :: rest) = '&' :: rest ∧
              Text.trimStart ('\'' :: rest) = '\'' :: rest := fun _ => ⟨rfl, rfl⟩
          unfold Receiver.text borrow Lifetime.text isReceiver
          simp only [List.cons_append, marks, Text.dropWhile_exact lifetime.parts (ends _)]
          cases isMutable <;> rfl

theorem isReceiver_parameter (parameter : Parameter) : isReceiver parameter.text = false := by
  have ends : ∀ c, (':' :: ' ' :: parameter.type.text).head? = some c →
      Text.isWordPart c = false := by
    rintro c ⟨⟩
    decide
  have starts : Text.trimStart parameter.text = parameter.text :=
    parameter.name.isTrimmed.trimStart_append _
  have notBorrowed : ∀ rest, parameter.text ≠ '&' :: rest :=
    parameter.name.ne_mark (by decide) _
  have notMutable : ∀ rest, parameter.text ≠ 'm' :: 'u' :: 't' :: ' ' :: rest := by
    intro rest
    change _ ≠ ['m', 'u', 't'] ++ ' ' :: rest
    refine parameter.name.ne_reserved ends (by decide) ?_
    rintro c ⟨⟩
    decide
  unfold isReceiver
  rw [starts]
  dsimp only
  split
  · rename_i rest bare
    split at bare
    · rename_i mutable
      split at mutable
      · rename_i borrowed
        exact absurd borrowed (notBorrowed _)
      · exact absurd mutable (notMutable _)
    · split at bare
      · rename_i borrowed
        exact absurd borrowed (notBorrowed _)
      · have goesOn : rest.head?.any Text.isWordPart = true := by
          by_contra stops
          change _ = ['s', 'e', 'l', 'f'] ++ rest at bare
          refine parameter.name.ne_reserved ends (by decide) ?_ bare
          intro c first
          rw [first, Option.any_some, Bool.not_eq_true] at stops
          exact stops
        rw [goesOn]
        rfl
  · rfl

/-! ### Targets -/

theorem Path.mem_text (path : Path) : ∀ c ∈ path.text, Text.isWordPart c = true ∨ c = ':' := by
  obtain ⟨first, later⟩ := path
  unfold Path.text
  dsimp only
  induction later generalizing first with
  | nil => exact fun c member => .inl (first.parts c member)
  | cons next later ih =>
      intro c member
      rcases List.mem_append.mp member with part | other
      · exact .inl (first.parts c part)
      · rcases List.mem_cons.mp other with rfl | other
        · exact .inr rfl
        · rcases List.mem_cons.mp other with rfl | other
          · exact .inr rfl
          · exact ih next c other

/-- A path starts with a name that ends there. -/
theorem Path.text_eq (path : Path) : ∃ later, path.text = path.first.chars ++ later ∧
    ∀ c, later.head? = some c → Text.isWordPart c = false := by
  obtain ⟨first, later⟩ := path
  unfold Path.text
  cases later with
  | nil => exact ⟨[], (List.append_nil _).symm, nofun⟩
  | cons next later =>
      refine ⟨_, rfl, ?_⟩
      rintro c ⟨⟩
      decide

theorem bareType_borrow {text : List Char} (trimmed : Text.IsTrimmed text)
    (lifetime? : Option Lifetime) (isMutable : Bool) :
    bareType ('&' :: borrow lifetime? isMutable text) = bareType text := by
  have starts := trimmed.trimStart_eq
  have qualified : bareType (Text.trimStart
      (if isMutable then 'm' :: 'u' :: 't' :: ' ' :: text else text)) = bareType text := by
    cases isMutable with
    | false => exact congrArg bareType starts
    | true => exact (bareType.eq_3 text).trans (congrArg bareType starts)
  unfold borrow
  rw [bareType.eq_1]
  cases lifetime? with
  | none => exact qualified
  | some lifetime =>
      have ends : ∀ rest c, (' ' :: rest : List Char).head? = some c →
          Text.isWordPart c = false := by
        rintro rest c ⟨⟩
        decide
      change bareType ('\'' :: (lifetime.chars ++ ' ' :: _)) = _
      rw [bareType.eq_2, Text.dropWhile_exact lifetime.parts (ends _)]
      exact qualified

theorem Path.notSpace_of_mem (path : Path) {c : Char} (member : c ∈ path.text) :
    Text.isWhiteSpace c = false ∧ c ≠ '<' := by
  rcases path.mem_text c member with part | rfl
  · exact ⟨Text.isWhiteSpace_of_isWordPart part, Text.ne_of_isWordPart part (by decide)⟩
  · decide

/-- A path goes on behind its first name with no part of a word. -/
theorem Path.text_angled (path : Path) (parts : List (List Char)) :
    ∃ later, path.text ++ angled parts = path.first.chars ++ later ∧
      ∀ c, later.head? = some c → Text.isWordPart c = false := by
  obtain ⟨later, split, ends⟩ := path.text_eq
  refine ⟨later ++ angled parts, by rw [split, List.append_assoc], ?_⟩
  intro c first
  cases later with
  | cons d later => exact ends c first
  | nil =>
      cases parts with
      | nil => cases first
      | cons part parts =>
          cases first
          decide

theorem Path.ne_mark (path : Path) (parts : List (List Char)) {c : Char}
    (mark : Text.isWordPart c = false) (rest : List Char) :
    path.text ++ angled parts ≠ c :: rest := by
  obtain ⟨later, split, -⟩ := path.text_angled parts
  rw [split]
  exact path.first.ne_mark mark _ rest

theorem Path.ne_reserved (path : Path) (parts : List (List Char)) {word : List Char}
    (isReserved : word ∈ reserved) (rest : List Char) :
    path.text ++ angled parts ≠ word ++ ' ' :: rest := by
  obtain ⟨later, split, ends⟩ := path.text_angled parts
  rw [split]
  refine path.first.ne_reserved ends isReserved ?_
  rintro c ⟨⟩
  decide

theorem bareType_path (path : Path) (parts : List (List Char)) :
    bareType (path.text ++ angled parts) = path.text ++ angled parts :=
  bareType.eq_5 _ (path.ne_mark parts (by decide)) (path.ne_mark parts (by decide))
    (@path.ne_reserved parts ['m', 'u', 't'] (by decide))
    (@path.ne_reserved parts ['d', 'y', 'n'] (by decide))

/-- A path is named by itself, without its arguments. -/
theorem typeName_path (path : Path) (parts : List (List Char)) :
    typeName (path.text ++ angled parts) = path.text := by
  have starts : Text.trimStart (path.text ++ angled parts) = path.text ++ angled parts :=
    path.isTrimmed.trimStart_append _
  have named : ∀ c ∈ path.text, (!(Text.isWhiteSpace c || c == '<')) = true := by
    intro c member
    simp [path.notSpace_of_mem member]
  unfold typeName
  dsimp only
  rw [starts, bareType_path]
  split
  · rename_i inner isGroup
    exact absurd isGroup (path.ne_mark parts (by decide) _)
  · rename_i inner isGroup
    exact absurd isGroup (path.ne_mark parts (by decide) _)
  · apply Text.takeWhile_exact named
    intro c first
    cases parts with
    | nil => cases first
    | cons part parts =>
        cases first
        rfl

/-- A group is named by itself. -/
theorem typeName_group {kind : Delimiter} (group : kind = .paren ∨ kind = .bracket)
    {separators inner : List Char} (inside : Bracketed separators inner) :
    typeName (kind.enclose inner) = kind.enclose inner := by
  have closer := closerIndex?_of_bracketed inside kind []
  have whole : (kind.enclose inner).take (inner.length + 2) = kind.enclose inner := by
    rw [← Delimiter.length_enclose kind, List.take_length]
  have starts := (Text.isTrimmed_enclose kind inner).trimStart_eq
  have bare : bareType (kind.enclose inner) = kind.enclose inner := by
    apply bareType.eq_5 <;> rintro rest same <;> rcases group with rfl | rfl <;>
      exact absurd (List.cons.inj same).1 (by decide)
  unfold typeName
  dsimp only
  rw [starts, bare]
  rcases group with rfl | rfl <;>
    · simp only [Delimiter.enclose, Delimiter.opener, Delimiter.closer] at closer whole ⊢
      simp only [closer]
      exact whole

theorem typeName_congr {text other : List Char}
    (same : bareType (Text.trimStart text) = bareType (Text.trimStart other)) :
    typeName text = typeName other := by
  unfold typeName
  rw [same]

/-- The name of a type is read off its text. -/
theorem Ty.typeName_text {name : List Char} :
    (type : Ty) → type.name? = some name → typeName type.text = name
  | .path names arguments, named => by
      rw [Ty.name?, Option.some.injEq] at named
      rw [Ty.text, typeName_path, named]
  | .reference lifetime? isMutable target, named => by
      rw [Ty.name?] at named
      refine (typeName_congr ?_).trans (target.typeName_text named)
      rw [(Ty.isTrimmed _).trimStart_eq, target.isTrimmed.trimStart_eq, Ty.text]
      exact bareType_borrow target.isTrimmed lifetime? isMutable
  | .tuple parts, named => by
      rw [Ty.name?, Option.some.injEq] at named
      rw [← named, Ty.text]
      exact typeName_group (.inl rfl) (bracketed_listed (Ty.texts_bracketed parts))
  | .slice element, named => by
      rw [Ty.name?, Option.some.injEq] at named
      rw [← named, Ty.text]
      exact typeName_group (.inr rfl) element.bracketed
  | .array element length, named => by
      rw [Ty.name?, Option.some.injEq] at named
      rw [← named, Ty.text]
      exact typeName_group (.inr rfl) (bracketed_counted element.bracketed length)
  | .dynamic names, named => by
      rw [Ty.name?, Option.some.injEq] at named
      have itself := typeName_path names []
      rw [angled, List.append_nil] at itself
      rw [← named]
      refine (typeName_congr ?_).trans itself
      rw [(Ty.isTrimmed _).trimStart_eq, Ty.text]
      exact bareType.eq_4 _

/-- A trait is named by its path, without its arguments. -/
theorem traitName?_text (trait : Trait) (before after : Nat) :
    traitName? (List.replicate before ' ' ++ (trait.text ++ List.replicate after ' ')) =
      some trait.names.text := by
  let leading := List.replicate before ' ' ++ trait.names.text
  have tight : Text.EndsTight leading := trait.names.isTrimmed.endsTight_append _
  have plain : ∀ c ∈ leading, (c != '<') = true := by
    intro c member
    rcases List.mem_append.mp member with space | named
    · rw [List.eq_of_mem_replicate space]
      decide
    · exact bne_iff_ne.mpr (trait.names.notSpace_of_mem named).2
  have split : List.replicate before ' ' ++ (trait.text ++ List.replicate after ' ') =
      leading ++ (angled (Ty.texts trait.arguments) ++ List.replicate after ' ') := by
    unfold Trait.text leading
    rw [Ty.text, List.append_assoc, List.append_assoc]
  -- With arguments the text is cut before their bracket; without, at its end.
  have path : Text.trimEnd ((leading ++ (angled (Ty.texts trait.arguments) ++
      List.replicate after ' ')).takeWhile (· != '<')) = leading := by
    cases Ty.texts trait.arguments with
    | nil =>
        have spaces : ∀ c ∈ List.replicate after ' ', (c != '<') = true := by
          intro c member
          rw [List.eq_of_mem_replicate member]
          decide
        unfold angled
        rw [List.nil_append, List.takeWhile_append_of_pos plain,
          List.takeWhile_eq_self_iff.mpr spaces]
        exact tight.trimEnd_append isWhiteSpace_of_mem_spaces
    | cons part parts =>
        rw [Text.takeWhile_exact plain (by rintro c ⟨⟩; rfl)]
        exact tight.trimEnd_eq
  have word : (leading.reverse.takeWhile fun c => !Text.isWhiteSpace c).reverse =
      trait.names.text := by
    unfold leading
    rw [List.reverse_append, Text.takeWhile_exact, List.reverse_reverse]
    · intro c member
      rw [(trait.names.notSpace_of_mem (List.mem_reverse.mp member)).1]
      rfl
    · intro c first
      rw [List.reverse_replicate] at first
      rw [isWhiteSpace_of_mem_spaces c (List.mem_of_mem_head? first)]
      rfl
  unfold traitName?
  dsimp only
  rw [split, path, word, if_neg]
  simpa using trait.names.isTrimmed.filled

/-- The word `for` is not taken for `where`. -/
theorem lacks_where_for {text : List Char} (lacks : Lacks ['w', 'h', 'e', 'r', 'e'] text) :
    Lacks ['w', 'h', 'e', 'r', 'e'] (' ' :: (['f', 'o', 'r'] ++ ' ' :: text)) := by
  intro afterSpace passed rest ends
  obtain ⟨spaceBehind, later⟩ := lacks true (passed + 5) rest ends
  have other : ∀ c ∈ [' ', 'f', 'o', 'r'], ∀ after,
      wordIndex?.standsAlone ['w', 'h', 'e', 'r', 'e'] (c :: after) = false := by
    simp [wordIndex?.standsAlone, List.isPrefixOf?]
  have step : ∀ c ∈ [' ', 'f', 'o', 'r'], ∀ afterSpace passed after,
      wordIndex?.go ['w', 'h', 'e', 'r', 'e'] .surface afterSpace passed (c :: after) =
        wordIndex?.go ['w', 'h', 'e', 'r', 'e'] .surface (Text.isWhiteSpace c) (passed + 1)
          after := by
    intro c member afterSpace passed after
    have level : ∀ c ∈ [' ', 'f', 'o', 'r'], c ∉ shifting := by
      decide
    exact wordIndex?_step (level c member) (fun _ => other c member after) passed
  refine ⟨spaceBehind, ?_⟩
  change wordIndex?.go _ _ _ _ (' ' :: 'f' :: 'o' :: 'r' :: ' ' :: (text ++ rest)) = _
  rw [step _ (by decide), step _ (by decide), step _ (by decide), step _ (by decide),
    step _ (by decide)]
  refine later.trans ?_
  congr 1
  simp
  omega

/-- No `where` stands before a type, with a trait and `for` before it or without. -/
theorem Implementation.lacks_where (implementation : Implementation) (spaces : Nat) :
    Lacks ['w', 'h', 'e', 'r', 'e']
      (List.replicate spaces ' ' ++ implementation.subjectText) := by
  have target := implementation.target.bracketed
  unfold subjectText
  cases implementation.trait? with
  | none => exact (bracketed_spaces spaces target).lacks (by decide)
  | some trait =>
      have before : Bracketed [] (List.replicate spaces ' ' ++ trait.text) :=
        bracketed_spaces spaces (Ty.bracketed _)
      dsimp only
      rw [← List.append_assoc]
      exact (before.lacks (by decide)).append (endsWord_of_mem (by decide) _)
        (lacks_where_for (target.lacks (by decide)))

theorem Ty.head?_ne_angle (type : Ty) : type.text.head? ≠ some '<' := by
  have named : ∀ (names : Path) (after : List Char), (names.text ++ after).head? ≠ some '<' := by
    intro names after starts
    obtain ⟨later, split, -⟩ := names.text_eq
    obtain ⟨rest, isAngle⟩ := List.head?_eq_some_iff.mp starts
    rw [split, List.append_assoc] at isAngle
    exact names.first.ne_mark (by decide) _ _ isAngle
  cases type with
  | path names arguments =>
      rw [Ty.text]
      exact named names _
  | _ =>
      rw [Ty.text]
      exact nofun

/-- The type that is implemented, or the trait before it, starts like a type. -/
theorem Implementation.subjectText_eq (implementation : Implementation) :
    ∃ (type : Ty) (rest : List Char), implementation.subjectText = type.text ++ rest ∧
      Text.EndsTight rest := by
  unfold subjectText
  cases implementation.trait? with
  | none => exact ⟨implementation.target, [], (List.append_nil _).symm, Text.endsTight_nil⟩
  | some trait =>
      exact ⟨.path trait.names trait.arguments, _, rfl,
        implementation.target.isTrimmed.endsTight_append [' ', 'f', 'o', 'r', ' ']⟩

/-- Behind the generic list, at most one space stands before what is implemented. -/
theorem Implementation.afterGenerics_text (implementation : Implementation) (rest : List Char) :
    ∃ spaces, afterGenerics (Text.trimStart (implementation.text ++ rest)) =
      List.replicate spaces ' ' ++ implementation.subjectText ++
        (constraintsText implementation.constraints ++ rest) := by
  obtain ⟨type, more, split, -⟩ := implementation.subjectText_eq
  have bracketed : ∀ part ∈ implementation.generics.map Generic.text, Bracketed [] part :=
    List.forall_mem_map.mpr fun generic _ => generic.bracketed
  unfold text
  rw [List.append_assoc]
  cases generics : implementation.generics.map Generic.text with
  | nil =>
      refine ⟨0, ?_⟩
      have plain : (type.text ++ (more ++
          (constraintsText implementation.constraints ++ rest))).head? ≠ some '<' := by
        rw [List.head?_append_of_ne_nil _ type.isTrimmed.filled]
        exact type.head?_ne_angle
      have stays := @afterGenerics_angled [] (List.forall_mem_nil _) _ plain
      have starts := type.isTrimmed.trimStart_append
        (more ++ (constraintsText implementation.constraints ++ rest))
      change afterGenerics (Text.trimStart (implementation.subjectText ++ _ ++ rest)) = _
      rw [split]
      simp only [List.append_assoc] at starts ⊢
      rw [starts]
      exact stays
  | cons part parts =>
      rw [generics] at bracketed
      refine ⟨1, ?_⟩
      unfold angled
      rw [trimStart_enclose, afterGenerics_enclose (bracketed_listed bracketed)]
      simp

theorem Ty.name?_filled {name : List Char} :
    (type : Ty) → type.name? = some name → name ≠ []
  | .path names arguments, named => by
      cases named
      exact names.isTrimmed.filled
  | .reference lifetime? isMutable target, named => target.name?_filled named
  | .tuple parts, named => by
      cases named
      exact (Ty.tuple parts).isTrimmed.filled
  | .slice element, named => by
      cases named
      exact (Ty.slice element).isTrimmed.filled
  | .array element length, named => by
      cases named
      exact (Ty.array element length).isTrimmed.filled
  | .dynamic names, named => by
      cases named
      exact names.isTrimmed.filled

/-- An implementation is resolved to the name of its type and the path of its trait. -/
theorem target?_text (implementation : Implementation) {name : List Char}
    (named : implementation.target.name? = some name) (spaces : Nat) :
    target? (implementation.text ++ List.replicate spaces ' ') =
      some ⟨name, implementation.trait?.map fun trait => trait.names.text⟩ := by
  obtain ⟨before, behind⟩ := implementation.afterGenerics_text (List.replicate spaces ' ')
  have tight : Text.EndsTight (List.replicate before ' ' ++ implementation.subjectText) := by
    obtain ⟨type, more, split, later⟩ := implementation.subjectText_eq
    rw [split]
    exact (type.isTrimmed.append_tight later).endsTight_append _
  have cut := beforeConstraints_text (implementation.lacks_where before) tight
    implementation.constraints spaces
  have typeName_eq : ∀ spaces,
      typeName (List.replicate spaces ' ' ++ implementation.target.text) = name := by
    intro spaces
    refine (typeName_congr ?_).trans (implementation.target.typeName_text named)
    rw [Text.trimStart_append isWhiteSpace_of_mem_spaces]
  have filled : name.isEmpty = false := by
    have := implementation.target.name?_filled named
    simpa using this
  unfold target?
  dsimp only
  rw [behind, cut]
  have target := implementation.target.bracketed
  unfold Implementation.subjectText
  cases implementation.trait? with
  | none =>
      have lacks : Lacks ['f', 'o', 'r'] _ := (bracketed_spaces before target).lacks (by decide)
      have missing := lacks.wordIndex?_eq_none
      simp only [missing, typeName_eq, filled]
      rfl
  | some trait =>
      -- No type holds the word at its surface, so the first one stands behind the trait.
      let leading := List.replicate before ' ' ++ trait.text
      have bracketed : Bracketed [] leading := bracketed_spaces before (Ty.bracketed _)
      have split : List.replicate before ' ' ++ (trait.text ++
          ' ' :: (['f', 'o', 'r'] ++ ' ' :: implementation.target.text)) =
            leading ++ ' ' :: (['f', 'o', 'r'] ++ ' ' :: implementation.target.text) :=
        (List.append_assoc _ _ _).symm
      have lacks : Lacks ['f', 'o', 'r'] leading := bracketed.lacks (by decide)
      have found := lacks.wordIndex?_append (by decide) (' ' :: implementation.target.text) rfl
      have first : (leading ++ ' ' :: (['f', 'o', 'r'] ++
          ' ' :: implementation.target.text)).take (leading.length + 1) =
            List.replicate before ' ' ++ (trait.text ++ List.replicate 1 ' ') := by
        rw [List.take_length_add_append]
        exact List.append_assoc _ _ _
      have last : (leading ++ ' ' :: (['f', 'o', 'r'] ++
          ' ' :: implementation.target.text)).drop (leading.length + 1 + 3) =
            List.replicate 1 ' ' ++ implementation.target.text := by
        rw [Nat.add_assoc, ← List.drop_drop, List.drop_left]
        rfl
      simp only [split, found, first, last, traitName?_text, typeName_eq, filled]
      rfl

end Written
end Survey
