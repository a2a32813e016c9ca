import Conformance.Syntax.Lexeme
import Conformance.Syntax.Resolution

/-!
# Reading schemas and suites

The reader of schema texts, one rule of the grammar after the other. A rule looks at the current token
only. What a rule has read stays read when a later one fails, so one text can be read in several calls.

* `Parser` — a reader; `Parser.State` is what is left of the text, and the checks not yet carried out.
* `Parser.value` — a node with so many levels at most.
* `Parser.schema`, `Parser.suite` — the two kinds of whole texts.
* `Schema.ofText`, `Suite.ofText` — read a text that is a schema or a suite.
-/

set_option autoImplicit false

namespace Conformance

/-- The current token with its position, the lexemes after it, and what remains to be checked. -/
structure Parser.State where
  current : Token
  position : Position
  rest : List Lexeme
  checks : List Check

/-- Reads from the current token on, or fails. -/
abbrev Parser := EStateM ParseError Parser.State

namespace Parser

/-- Fails at a position. -/
def failAt {α : Type} (position : Position) (fault : Fault) (detail? : Option String) : Parser α :=
  throw (.structural fault detail? position)

/-- Fails at the current token. -/
def fail {α : Type} (fault : Fault) (detail? : Option String := none) : Parser α := do
  failAt (← get).position fault detail?

/-- The current token. -/
def current : Parser Token := return (← get).current

/-- The position of the current token. -/
def position : Parser Position := return (← get).position

/-- Goes on to the next token. A fault in place of it is passed over, and the current token stays. -/
def advance : Parser Unit := do
  let s ← get
  match s.rest with
  | [] => return
  | lexeme :: rest =>
    match lexeme.result with
    | .ok (position, token) => set { s with current := token, position := position, rest := rest }
    | .error e =>
      set { s with rest := rest }
      throw (.lexical e)

/-- Notes down a check. -/
def note (check : Check) : Parser Unit :=
  modify fun s => { s with checks := s.checks ++ [check] }

/-- Takes a symbol if it is the current token, and tells whether it was. -/
def accept (s : Symbol) : Parser Bool := do
  if (← current) = .symbol s then
    advance
    return true
  else return false

/-- Takes a symbol, or fails if another token is the current one. -/
def expect (s : Symbol) (fault : Fault) : Parser Unit := do
  if (← current) = .symbol s then advance else fail fault

/-- A bound for the number of members of a list, each of which takes a token. -/
def listBound : Parser Nat := return (← get).rest.length + 1

/-- What follows a member of a list in braces: the end of the list, with or without a comma before it, or
a comma and another member. Tells whether there is another member. -/
def another : Parser Bool := do
  if ← accept .comma then return !(← accept .closeBrace)
  else
    expect .closeBrace .expectedCloseBrace
    return false

/-- A name, which may be a keyword. -/
def name : Parser String := do
  match (← current).name? with
  | some text =>
    advance
    return text
  | none => fail .expectedName

/-- A key: a name, or any text in quotes. -/
def key : Parser String := do
  match ← current with
  | .text content =>
    advance
    return content
  | .integer _ | .real _ => fail .expectedNameInQuotes
  | _ => name

/-- The value that a token is as a literal. -/
def literalValue? : Token → Option Value
  | .keyword .trueLiteral => some (.boolean true)
  | .keyword .falseLiteral => some (.boolean false)
  | .integer i => some (.integer i)
  | .real r => some (.real r)
  | .text content => some (.string content)
  | _ => none

/-- A literal. -/
def literal : Parser Value := do
  match literalValue? (← current) with
  | some v =>
    advance
    return v
  | none => fail .expectedDefaultLiteral

/-- The elements of an array and its end, at least one element and at most the given number. -/
def elements (value : Parser Node) : Nat → Parser (List Node × ArraySize)
  | 0 => fail .expectedCloseBracket
  | n + 1 => do
    let node ← value
    let comma ← accept .comma
    match ← current with
    | .symbol .ellipsis =>
      advance
      expect .closeBracket .expectedCloseBracket
      return ([node], .repeating)
    | .symbol .closeBracket =>
      advance
      return ([node], .exact)
    | _ =>
      if comma then
        let (nodes, size) ← elements value n
        return (node :: nodes, size)
      else fail .expectedCloseBracket

/-- An array after its opening bracket. -/
def array (value : Parser Node) : Parser Node := do
  if (← current) = .symbol .closeBracket then fail .emptyArray
  else
    let (nodes, size) ← elements value (← listBound)
    return .array nodes size

/-- The default of a field, where one is declared. -/
def fieldDefault? (node : Node) : Parser (Option Value) := do
  if ← accept .equals then
    let position ← position
    let v ← literal
    note (.default node v position)
    return some v
  else return none

/-- A field of a map. -/
def field (value : Parser Node) : Parser (Field Node) := do
  let name ← key
  let isOptional ← accept .question
  expect .colon .expectedColon
  let node ← value
  let default? ← fieldDefault? node
  return ⟨name, node, isOptional, default?⟩

/-- The fields of a map and its end, at most the given number, with names other than those before. -/
def fields (value : Parser Node) : Nat → List String → Parser (List (Field Node))
  | 0, _ => fail .expectedCloseBrace
  | n + 1, before => do
    let position ← position
    let f ← field value
    if before.contains f.name then failAt position .duplicateFieldName (some f.name)
    else if ← another then return f :: (← fields value n (f.name :: before))
    else return [f]

/-- A map or dictionary after its opening brace. -/
def map (value : Parser Node) : Parser Node := do
  match ← current with
  | .symbol .closeBrace => fail .emptyMap
  | .symbol .dollar =>
    advance
    expect .colon .expectedColon
    let entry ← value
    expect .closeBrace .expectedCloseBrace
    return .dictionary entry
  | _ => return .map (← fields value (← listBound) [])

/-- The key of an alternative that is the current token. -/
def alternativeKey : Parser Value := do
  match ← current with
  | .text content => return .string content
  | .integer i => return .integer i
  | .real _ | .keyword .trueLiteral | .keyword .falseLiteral => fail .selectorDiscriminantNotScalar
  | _ => fail .expectedSelectorKey

/-- The alternatives of a selector and its end, at most the given number, with keys other than those
before. Each comes with the position of its key. -/
def alternatives (value : Parser Node) : Nat → List Value → Parser (List (Position × Alternative Node))
  | 0, _ => fail .expectedCloseBrace
  | n + 1, before => do
    let position ← position
    let key ← alternativeKey
    if before.any fun k => k.equal key then fail .duplicateSelectorAlternative (some key.text)
    else
      advance
      expect .colon .expectedColon
      let node ← value
      if ← another then return (position, ⟨key, node⟩) :: (← alternatives value n (key :: before))
      else return [(position, ⟨key, node⟩)]

/-- A selector after its keyword. -/
def selector (value : Parser Node) : Parser Node := do
  let discriminant ← key
  expect .openBrace .expectedOpenBrace
  if (← current) = .symbol .closeBrace then fail .emptyMap
  else
    let found ← alternatives value (← listBound) []
    note (.selector discriminant found)
    return .selector discriminant (found.map Prod.snd)

/-- A name that stands for its definitions, after the ampersand at the given position. -/
def reference (position : Position) : Parser Node := do
  let name ← name
  note (.reference name position)
  return .reference name

/-- A node with so many levels at most. -/
def value : Nat → Parser Node
  | 0 => fail .nestingTooDeep
  | levels + 1 => do
    let token ← current
    match token.kind? with
    | some kind =>
      advance
      return .primitive kind
    | none =>
      match token with
      | .keyword .undef =>
        advance
        return .any
      | .keyword .select =>
        advance
        selector (value levels)
      | .symbol .openBracket =>
        advance
        array (value levels)
      | .symbol .openBrace =>
        advance
        map (value levels)
      | .symbol .ampersand =>
        let position ← position
        advance
        reference position
      | .name text => fail .unknownType (some text)
      | .endOfInput | .symbol _ => fail .expectedValue
      | _ => return .literal (← literal)

/-- The access that a token names. -/
def access? : Token → Option Access
  | .symbol .post => some .post
  | .symbol .get => some .get
  | .symbol .put => some .put
  | .symbol .getPut => some .getPut
  | .symbol .getPutDelete => some .getPutDelete
  | _ => none

/-- The access and the bodies of a resource. -/
def resource (maxDepth : Nat) (name : String) : Parser Resource := do
  match access? (← current) with
  | none => fail .expectedResourceArrow
  | some access =>
    advance
    let first ← value maxDepth
    match access with
    | .post =>
      expect .result .expectedResultArrow
      return ⟨name, access, first, ← value maxDepth⟩
    | .get => return ⟨name, access, .any, first⟩
    | .put => return ⟨name, access, first, .any⟩
    | .getPut | .getPutDelete => return ⟨name, access, first, first⟩

/-- The declarations read so far, with the position of the first definition of each name. -/
structure Declarations where
  resources : Entries Resource := []
  definitions : Definitions := []
  positions : Entries Position := []

/-- Declarations up to the end of the text, at most the given number, after those read so far. -/
def declarations (maxDepth : Nat) : Nat → Declarations → Parser Declarations
  | 0, _ => fail .expectedDeclaration
  | n + 1, d => do
    match ← current with
    | .endOfInput => return d
    | .symbol .resource =>
      advance
      let position ← position
      let name ← name
      if (Entries.get? d.resources name).isSome then
        failAt position .duplicateResourceName (some name)
      else
        let r ← resource maxDepth name
        declarations maxDepth n { d with resources := Entries.insert name r d.resources }
    | .symbol .ampersand =>
      advance
      let position ← position
      let name ← name
      expect .equals .expectedEqualsSign
      let node ← value maxDepth
      let positions :=
        if (Entries.get? d.positions name).isSome then d.positions
        else Entries.insert name position d.positions
      declarations maxDepth n
        { d with definitions := d.definitions.declare name node, positions := positions }
    | _ => fail .expectedDeclaration

/-- Carries out the checks noted down so far, and forgets them. -/
def resolveAll (definitions : Definitions) (positions : Entries Position) (maxDepth : Nat) :
    Parser Unit := do
  let checks := (← get).checks
  modify fun s => { s with checks := [] }
  match resolve definitions positions maxDepth checks with
  | .ok _ => return
  | .error e => throw e

/-- A schema up to the end of the text. -/
def schema (maxDepth : Nat) : Parser Schema := do
  let node ← value maxDepth
  if (← current) = .endOfInput then
    resolveAll [] [] maxDepth
    return { node := node }
  else fail .expectedEndOfInput

/-- A suite up to the end of the text. -/
def suite (maxDepth : Nat) : Parser Suite := do
  let d ← declarations maxDepth (← listBound) {}
  resolveAll d.definitions d.positions maxDepth
  return { resources := d.resources, definitions := d.definitions }

/-- The state at the beginning of a text, where its first token is the current one. -/
def start (text : String) : Except ParseError State :=
  match advance ⟨.endOfInput, {}, lexemes text.toList, []⟩ with
  | .ok _ s => .ok s
  | .error e _ => .error e

/-- Reads a whole text. -/
def run {α : Type} (parser : Parser α) (text : String) : Except ParseError α := do
  match parser (← start text) with
  | .ok a _ => .ok a
  | .error e _ => .error e

end Parser

/-- Reads a schema text with so many levels at most. -/
def Schema.ofText (text : String) (maxDepth : Nat := defaultMaxDepth) : Except ParseError Schema :=
  (Parser.schema maxDepth).run text

/-- Reads a suite text whose bodies and definitions have so many levels at most. -/
def Suite.ofText (text : String) (maxDepth : Nat := defaultMaxDepth) : Except ParseError Suite :=
  (Parser.suite maxDepth).run text

end Conformance
