import Conformance.Suite
import Conformance.Syntax.Token

/-!
# The grammar of schema texts

The documented grammar, stated apart from the reader. A rule relates the tokens it starts at to what they
derive and to the tokens behind it, so a derivation of a whole is made up of derivations of its parts.

* `Rule` — what some tokens derive, and what is left of them.
* `Grammar.Value` — the values that nest so many values at most; `Grammar.Suite` — whole suites.
* `Grammar.Value.unique`, `Grammar.Suite.unique` — tokens derive one tree at most.
* `Grammar.Value.shorter` — a derivation takes at least one token.
-/

set_option autoImplicit false

namespace Conformance

/-- Tokens, what the first of them derive, and the tokens behind. -/
abbrev Rule (α : Type) := List Token → α → List Token → Prop

namespace Grammar

/-! ## Rules -/

section Rules

variable {α β : Type}

/-- Items with commas between them, and what closes the list. -/
inductive Listed (item : Rule α) (close : Rule β) : Rule (List α × β) where
  | last {tokens middle rest : List Token} {a : α} {b : β} :
    item tokens a middle → close middle b rest → Listed item close tokens ([a], b) rest
  | more {tokens middle rest : List Token} {a : α} {as : List α} {b : β} :
    item tokens a (.symbol .comma :: middle) → Listed item close middle (as, b) rest →
    Listed item close tokens (a :: as, b) rest

/-- A comma that may be missing. -/
def OptionalComma (tokens rest : List Token) : Prop := tokens = rest ∨ tokens = .symbol .comma :: rest

/-- `','? '...'? ']'`. -/
inductive ArrayEnd : Rule ArraySize where
  | exact {tokens rest : List Token} :
    OptionalComma tokens (.symbol .closeBracket :: rest) → ArrayEnd tokens .exact rest
  | repeating {tokens rest : List Token} :
    OptionalComma tokens (.symbol .ellipsis :: .symbol .closeBracket :: rest) →
    ArrayEnd tokens .repeating rest

/-- `','? '}'`. -/
inductive BraceEnd : Rule Unit where
  | brace {tokens rest : List Token} :
    OptionalComma tokens (.symbol .closeBrace :: rest) → BraceEnd tokens () rest

/-- A literal. -/
inductive Literal : Rule Value where
  | yes {rest : List Token} : Literal (.keyword .trueLiteral :: rest) (.boolean true) rest
  | no {rest : List Token} : Literal (.keyword .falseLiteral :: rest) (.boolean false) rest
  | integer {rest : List Token} {i : Int32} : Literal (.integer i :: rest) (.integer i) rest
  | real {rest : List Token} {r : Binary64} : Literal (.real r :: rest) (.real r) rest
  | text {rest : List Token} {content : String} :
    Literal (.text content :: rest) (.string content) rest

/-- A name; the keywords are names too. -/
inductive Name : Rule String where
  | name {rest : List Token} {spelling : String} : Name (.name spelling :: rest) spelling rest
  | keyword {rest : List Token} {k : Keyword} : Name (.keyword k :: rest) k.text rest

/-- A name, or any text in quotes. -/
inductive Key : Rule String where
  | name {tokens rest : List Token} {spelling : String} :
    Name tokens spelling rest → Key tokens spelling rest
  | text {rest : List Token} {content : String} : Key (.text content :: rest) content rest

/-- The key of an alternative. -/
inductive AlternativeKey : Rule Value where
  | text {rest : List Token} {content : String} :
    AlternativeKey (.text content :: rest) (.string content) rest
  | integer {rest : List Token} {i : Int32} : AlternativeKey (.integer i :: rest) (.integer i) rest

/-- A question mark that may be missing. -/
inductive OptionalMark : Rule Bool where
  | absent {rest : List Token} : OptionalMark rest false rest
  | present {rest : List Token} : OptionalMark (.symbol .question :: rest) true rest

/-- `( '=' literal )?`. -/
inductive Default : Rule (Option Value) where
  | absent {rest : List Token} : Default rest none rest
  | present {tokens rest : List Token} {v : Value} :
    Literal tokens v rest → Default (.symbol .equals :: tokens) (some v) rest

end Rules

section Values

variable (value : Rule Node)

/-- `key '?'? ':' value ( '=' literal )?`. -/
inductive FieldRule : Rule (Field Node) where
  | field {tokens afterKey afterMark afterNode rest : List Token} {name : String} {isOptional : Bool}
    {node : Node} {default? : Option Value} :
    Key tokens name afterKey → OptionalMark afterKey isOptional (.symbol .colon :: afterMark) →
    value afterMark node afterNode → Default afterNode default? rest →
    FieldRule tokens ⟨name, node, isOptional, default?⟩ rest

/-- `selkey ':' value`. -/
inductive AlternativeRule : Rule (Alternative Node) where
  | alternative {tokens afterKey rest : List Token} {key : Value} {node : Node} :
    AlternativeKey tokens key (.symbol .colon :: afterKey) → value afterKey node rest →
    AlternativeRule tokens ⟨key, node⟩ rest

/-- A value whose parts are values of the given rule. -/
inductive ValueRule : Rule Node where
  | any {rest : List Token} : ValueRule (.keyword .undef :: rest) .any rest
  | primitive {rest : List Token} {k : Keyword} {kind : Kind} :
    k.kind? = some kind → ValueRule (.keyword k :: rest) (.primitive kind) rest
  | literal {tokens rest : List Token} {v : Value} :
    Literal tokens v rest → ValueRule tokens (.literal v) rest
  | array {tokens rest : List Token} {elements : List Node} {size : ArraySize} :
    Listed value ArrayEnd tokens (elements, size) rest →
    ValueRule (.symbol .openBracket :: tokens) (.array elements size) rest
  | map {tokens rest : List Token} {fields : List (Field Node)} :
    Listed (FieldRule value) BraceEnd tokens (fields, ()) rest →
    ValueRule (.symbol .openBrace :: tokens) (.map fields) rest
  | dictionary {tokens rest : List Token} {entry : Node} :
    value tokens entry (.symbol .closeBrace :: rest) →
    ValueRule (.symbol .openBrace :: .symbol .dollar :: .symbol .colon :: tokens) (.dictionary entry)
      rest
  | reference {tokens rest : List Token} {name : String} :
    Name tokens name rest → ValueRule (.symbol .ampersand :: tokens) (.reference name) rest
  | selector {tokens afterKey rest : List Token} {discriminant : String}
    {alternatives : List (Alternative Node)} :
    Key tokens discriminant (.symbol .openBrace :: afterKey) →
    Listed (AlternativeRule value) BraceEnd afterKey (alternatives, ()) rest →
    ValueRule (.keyword .select :: tokens) (.selector discriminant alternatives) rest

/-- The arrow of a resource and its bodies. -/
inductive Arrow : Rule (Access × Node × Node) where
  | post {tokens afterRequest rest : List Token} {request response : Node} :
    value tokens request (.symbol .result :: afterRequest) → value afterRequest response rest →
    Arrow (.symbol .post :: tokens) (.post, request, response) rest
  | get {tokens rest : List Token} {response : Node} :
    value tokens response rest → Arrow (.symbol .get :: tokens) (.get, .any, response) rest
  | put {tokens rest : List Token} {request : Node} :
    value tokens request rest → Arrow (.symbol .put :: tokens) (.put, request, .any) rest
  | getPut {tokens rest : List Token} {node : Node} :
    value tokens node rest → Arrow (.symbol .getPut :: tokens) (.getPut, node, node) rest
  | getPutDelete {tokens rest : List Token} {node : Node} :
    value tokens node rest → Arrow (.symbol .getPutDelete :: tokens) (.getPutDelete, node, node) rest

end Values

/-- A resource or a definition. -/
inductive Declaration where
  | resource (r : Resource)
  | definition (name : String) (node : Node)

/-- `'%%' name arrow` or `'&' name '=' value`. -/
inductive DeclarationRule (value : Rule Node) : Rule Declaration where
  | resource {tokens afterName rest : List Token} {name : String} {access : Access}
    {request response : Node} :
    Name tokens name afterName → Arrow value afterName (access, request, response) rest →
    DeclarationRule value (.symbol .resource :: tokens) (.resource ⟨name, access, request, response⟩)
      rest
  | definition {tokens afterName rest : List Token} {name : String} {node : Node} :
    Name tokens name (.symbol .equals :: afterName) → value afterName node rest →
    DeclarationRule value (.symbol .ampersand :: tokens) (.definition name node) rest

/-- A value that nests so many values at most, itself included. -/
def Value : Nat → Rule Node
  | 0 => fun _ _ _ => False
  | depth + 1 => ValueRule (Value depth)

/-- Declarations up to the end of the text, the values in which nest so many values at most. -/
inductive Suite (depth : Nat) : List Token → List Declaration → Prop where
  | endOfInput : Suite depth [.endOfInput] []
  | declaration {tokens rest : List Token} {d : Declaration} {ds : List Declaration} :
    DeclarationRule (Value depth) tokens d rest → Suite depth rest ds → Suite depth tokens (d :: ds)

/-! ## Derivations take tokens -/

section Shorter

variable {α β : Type}

/-- The rule takes at least one token. -/
def Shortens (rule : Rule α) : Prop := ∀ tokens a rest, rule tokens a rest → rest.length < tokens.length

theorem Literal.shorter : Shortens Literal := by
  rintro tokens v rest h
  cases h <;> exact Nat.lt_succ_self _

theorem Name.shorter : Shortens Name := by
  rintro tokens name rest h
  cases h <;> exact Nat.lt_succ_self _

theorem Key.shorter : Shortens Key := by
  rintro tokens key rest h
  cases h with
  | name h => exact Name.shorter _ _ _ h
  | text => exact Nat.lt_succ_self _

theorem AlternativeKey.shorter : Shortens AlternativeKey := by
  rintro tokens key rest h
  cases h <;> exact Nat.lt_succ_self _

theorem OptionalComma.length_le {tokens rest : List Token} (h : OptionalComma tokens rest) :
    rest.length ≤ tokens.length := by
  rcases h with rfl | rfl
  · exact Nat.le_refl _
  · exact Nat.le_succ _

theorem ArrayEnd.shorter : Shortens ArrayEnd := by
  rintro tokens size rest h
  cases h with
  | exact h => exact h.length_le
  | repeating h => exact Nat.lt_of_succ_lt h.length_le

theorem BraceEnd.shorter : Shortens BraceEnd := by
  rintro tokens u rest ⟨h⟩
  exact h.length_le

theorem Listed.shorter {item : Rule α} {close : Rule β} (hitem : Shortens item)
    (hclose : Shortens close) : Shortens (Listed item close) := by
  intro tokens found rest h
  induction h with
  | last ha hb => exact Nat.lt_trans (hclose _ _ _ hb) (hitem _ _ _ ha)
  | more ha _ ih => exact Nat.lt_trans ih (Nat.lt_of_succ_lt (hitem _ _ _ ha))

theorem OptionalMark.length_le {tokens rest : List Token} {b : Bool} (h : OptionalMark tokens b rest) :
    rest.length ≤ tokens.length := by
  cases h with
  | absent => exact Nat.le_refl _
  | present => exact Nat.le_succ _

theorem Default.length_le {tokens rest : List Token} {v? : Option Conformance.Value}
    (h : Default tokens v? rest) : rest.length ≤ tokens.length := by
  cases h with
  | absent => exact Nat.le_refl _
  | present h => exact Nat.le_of_lt (Nat.lt_succ_of_lt (Literal.shorter _ _ _ h))

variable {value : Rule Node} (hvalue : Shortens value)

include hvalue

theorem FieldRule.shorter : Shortens (FieldRule value) := by
  rintro tokens f rest ⟨hkey, hmark, hnode, hdefault⟩
  have hkey := Key.shorter _ _ _ hkey
  have hmark := hmark.length_le
  have hnode := hvalue _ _ _ hnode
  have hdefault := hdefault.length_le
  rw [List.length_cons] at hmark
  omega

theorem AlternativeRule.shorter : Shortens (AlternativeRule value) := by
  rintro tokens a rest ⟨hkey, hnode⟩
  have hkey := AlternativeKey.shorter _ _ _ hkey
  have hnode := hvalue _ _ _ hnode
  rw [List.length_cons] at hkey
  omega

theorem ValueRule.shorter : Shortens (ValueRule value) := by
  intro tokens n rest h
  cases h with
  | any => exact Nat.lt_succ_self _
  | primitive => exact Nat.lt_succ_self _
  | literal h => exact Literal.shorter _ _ _ h
  | array h => exact Nat.lt_succ_of_lt (Listed.shorter hvalue ArrayEnd.shorter _ _ _ h)
  | map h =>
    exact Nat.lt_succ_of_lt (Listed.shorter (FieldRule.shorter hvalue) BraceEnd.shorter _ _ _ h)
  | dictionary h =>
    have := hvalue _ _ _ h
    simp only [List.length_cons] at this ⊢
    omega
  | reference h => exact Nat.lt_succ_of_lt (Name.shorter _ _ _ h)
  | selector hkey halternatives =>
    have hkey := Key.shorter _ _ _ hkey
    have := Listed.shorter (AlternativeRule.shorter hvalue) BraceEnd.shorter _ _ _ halternatives
    simp only [List.length_cons] at hkey ⊢
    omega

omit hvalue in
theorem Value.shorter (depth : Nat) : Shortens (Value depth) := by
  induction depth with
  | zero => exact fun _ _ _ h => h.elim
  | succ depth ih => exact ValueRule.shorter ih

theorem Arrow.shorter : Shortens (Arrow value) := by
  intro tokens x rest h
  cases h with
  | post hrequest hresponse =>
    have hrequest := hvalue _ _ _ hrequest
    have hresponse := hvalue _ _ _ hresponse
    simp only [List.length_cons] at hrequest ⊢
    omega
  | get h => exact Nat.lt_succ_of_lt (hvalue _ _ _ h)
  | put h => exact Nat.lt_succ_of_lt (hvalue _ _ _ h)
  | getPut h => exact Nat.lt_succ_of_lt (hvalue _ _ _ h)
  | getPutDelete h => exact Nat.lt_succ_of_lt (hvalue _ _ _ h)

theorem DeclarationRule.shorter : Shortens (DeclarationRule value) := by
  intro tokens d rest h
  cases h with
  | resource hname harrow =>
    have hname := Name.shorter _ _ _ hname
    have harrow := Arrow.shorter hvalue _ _ _ harrow
    rw [List.length_cons]
    omega
  | definition hname hnode =>
    have hname := Name.shorter _ _ _ hname
    have hnode := hvalue _ _ _ hnode
    simp only [List.length_cons] at hname ⊢
    omega

end Shorter

/-! ## More levels derive no less -/

section Mono

variable {α β : Type}

/-- Whatever the first rule derives, the second does. -/
def Includes (rule more : Rule α) : Prop := ∀ tokens a rest, rule tokens a rest → more tokens a rest

theorem Listed.mono {item more : Rule α} {close : Rule β} (h : Includes item more) :
    Includes (Listed item close) (Listed more close) := by
  intro tokens found rest hlisted
  induction hlisted with
  | last ha hb => exact .last (h _ _ _ ha) hb
  | more ha _ ih => exact .more (h _ _ _ ha) ih

variable {value more : Rule Node} (h : Includes value more)

include h

theorem FieldRule.mono : Includes (FieldRule value) (FieldRule more) := by
  rintro tokens f rest ⟨hkey, hmark, hnode, hdefault⟩
  exact ⟨hkey, hmark, h _ _ _ hnode, hdefault⟩

theorem AlternativeRule.mono : Includes (AlternativeRule value) (AlternativeRule more) := by
  rintro tokens a rest ⟨hkey, hnode⟩
  exact ⟨hkey, h _ _ _ hnode⟩

theorem ValueRule.mono : Includes (ValueRule value) (ValueRule more) := by
  intro tokens n rest hrule
  cases hrule with
  | any => exact .any
  | primitive hkind => exact .primitive hkind
  | literal hliteral => exact .literal hliteral
  | array helements => exact .array (Listed.mono h _ _ _ helements)
  | map hfields => exact .map (Listed.mono (FieldRule.mono h) _ _ _ hfields)
  | dictionary hentry => exact .dictionary (h _ _ _ hentry)
  | reference hname => exact .reference hname
  | selector hkey halternatives =>
    exact .selector hkey (Listed.mono (AlternativeRule.mono h) _ _ _ halternatives)

omit h in
theorem Value.step (depth : Nat) : Includes (Value depth) (Value (depth + 1)) := by
  induction depth with
  | zero => exact fun _ _ _ h => h.elim
  | succ depth ih => exact ValueRule.mono ih

theorem Arrow.mono : Includes (Arrow value) (Arrow more) := by
  intro tokens x rest hrule
  cases hrule with
  | post hrequest hresponse => exact .post (h _ _ _ hrequest) (h _ _ _ hresponse)
  | get hnode => exact .get (h _ _ _ hnode)
  | put hnode => exact .put (h _ _ _ hnode)
  | getPut hnode => exact .getPut (h _ _ _ hnode)
  | getPutDelete hnode => exact .getPutDelete (h _ _ _ hnode)

theorem DeclarationRule.mono : Includes (DeclarationRule value) (DeclarationRule more) := by
  intro tokens d rest hrule
  cases hrule with
  | resource hname harrow => exact .resource hname (Arrow.mono h _ _ _ harrow)
  | definition hname hnode => exact .definition hname (h _ _ _ hnode)

omit h in
theorem Value.mono {depth levels : Nat} (h : depth ≤ levels) :
    Includes (Value depth) (Value levels) := by
  induction h with
  | refl => exact fun _ _ _ h => h
  | step _ ih => exact fun _ _ _ h => Value.step _ _ _ _ (ih _ _ _ h)

omit h in
theorem Suite.mono {depth levels : Nat} (h : depth ≤ levels) {tokens : List Token}
    {ds : List Declaration} (hsuite : Suite depth tokens ds) : Suite levels tokens ds := by
  induction hsuite with
  | endOfInput => exact .endOfInput
  | declaration hd _ ih => exact .declaration (DeclarationRule.mono (Value.mono h) _ _ _ hd) ih

end Mono

/-! ## Tokens that nothing begins with -/

/-- No derivation of the rule begins with the symbol. -/
def NeverBegins {α : Type} (rule : Rule α) (s : Symbol) : Prop :=
  ∀ tokens a rest, ¬ rule (.symbol s :: tokens) a rest

theorem Literal.neverBegins (s : Symbol) : NeverBegins Literal s := fun _ _ _ h => by cases h

theorem Name.neverBegins (s : Symbol) : NeverBegins Name s := fun _ _ _ h => by cases h

theorem Key.neverBegins (s : Symbol) : NeverBegins Key s := by
  intro tokens key rest h
  cases h with
  | name h => exact Name.neverBegins s _ _ _ h

theorem FieldRule.neverBegins (value : Rule Node) (s : Symbol) : NeverBegins (FieldRule value) s := by
  rintro tokens f rest ⟨hkey, -, -, -⟩
  exact Key.neverBegins s _ _ _ hkey

theorem AlternativeRule.neverBegins (value : Rule Node) (s : Symbol) :
    NeverBegins (AlternativeRule value) s := by
  rintro tokens a rest ⟨hkey, -⟩
  cases hkey

/-- A value begins with a bracket, a brace or an ampersand if it begins with a symbol. -/
theorem Value.neverBegins {s : Symbol} (depth : Nat)
    (h : s ≠ .openBracket ∧ s ≠ .openBrace ∧ s ≠ .ampersand) : NeverBegins (Value depth) s := by
  intro tokens n rest hvalue
  cases depth with
  | zero => exact hvalue
  | succ depth =>
    cases hvalue with
    | literal hliteral => exact Literal.neverBegins s _ _ _ hliteral
    | array => exact h.1 rfl
    | map => exact h.2.1 rfl
    | dictionary => exact h.2.1 rfl
    | reference => exact h.2.2 rfl

/-! ## Derivations are unique -/

section Unique

variable {α β : Type}

/-- The next token is no equals sign. -/
def NoEquals (tokens : List Token) : Prop := tokens.head? ≠ some (.symbol .equals)

/-- Tokens derive one thing at most by the rule. -/
def Unique (rule : Rule α) : Prop := ∀ tokens a rest b other,
  rule tokens a rest → rule tokens b other → a = b ∧ rest = other

/-- Tokens derive one thing at most by the rule if no equals sign follows. -/
def UniqueBefore (rule : Rule α) : Prop := ∀ tokens a rest b other,
  rule tokens a rest → NoEquals rest → rule tokens b other → NoEquals other → a = b ∧ rest = other

theorem Unique.before {rule : Rule α} (h : Unique rule) : UniqueBefore rule :=
  fun _ _ _ _ _ ha _ hb _ => h _ _ _ _ _ ha hb

theorem Literal.unique : Unique Literal := by
  intro tokens a rest b other ha hb
  cases ha <;> cases hb <;> exact ⟨rfl, rfl⟩

theorem Name.unique : Unique Name := by
  intro tokens a rest b other ha hb
  cases ha <;> cases hb <;> exact ⟨rfl, rfl⟩

theorem Key.unique : Unique Key := by
  intro tokens a rest b other ha hb
  cases ha with
  | name ha =>
    cases hb with
    | name hb => exact Name.unique _ _ _ _ _ ha hb
    | text => cases ha
  | text =>
    cases hb with
    | name hb => cases hb
    | text => exact ⟨rfl, rfl⟩

theorem AlternativeKey.unique : Unique AlternativeKey := by
  intro tokens a rest b other ha hb
  cases ha <;> cases hb <;> exact ⟨rfl, rfl⟩

theorem ArrayEnd.unique : Unique ArrayEnd := by
  intro tokens a rest b other ha hb
  cases ha with
  | exact ha =>
    cases hb with
    | exact hb => rcases ha with rfl | rfl <;> rcases hb with hb | hb <;> cases hb <;> exact ⟨rfl, rfl⟩
    | repeating hb => rcases ha with rfl | rfl <;> rcases hb with hb | hb <;> cases hb
  | repeating ha =>
    cases hb with
    | exact hb => rcases ha with rfl | rfl <;> rcases hb with hb | hb <;> cases hb
    | repeating hb =>
      rcases ha with rfl | rfl <;> rcases hb with hb | hb <;> cases hb <;> exact ⟨rfl, rfl⟩

theorem BraceEnd.unique : Unique BraceEnd := by
  rintro tokens a rest b other ⟨ha⟩ ⟨hb⟩
  rcases ha with rfl | rfl <;> rcases hb with hb | hb <;> cases hb <;> exact ⟨rfl, rfl⟩

theorem ArrayEnd.noEquals {tokens rest : List Token} {size : ArraySize}
    (h : ArrayEnd tokens size rest) : NoEquals tokens := by
  cases h with
  | exact h => rcases h with rfl | rfl <;> simp [NoEquals]
  | repeating h => rcases h with rfl | rfl <;> simp [NoEquals]

theorem BraceEnd.noEquals {tokens rest : List Token} {u : Unit} (h : BraceEnd tokens u rest) :
    NoEquals tokens := by
  obtain ⟨h⟩ := h
  rcases h with rfl | rfl <;> simp [NoEquals]

theorem Listed.begins {item : Rule α} {close : Rule β} {tokens rest : List Token} {found : List α × β}
    (h : Listed item close tokens found rest) : ∃ a middle, item tokens a middle := by
  cases h with
  | last ha _ => exact ⟨_, _, ha⟩
  | more ha _ => exact ⟨_, _, ha⟩

/-- A list ends where its end is: what closes it cannot be taken for a comma and another item. -/
theorem Listed.unique {item : Rule α} {close : Rule β} (hitem : UniqueBefore item)
    (hclose : Unique close) (hequals : ∀ tokens b rest, close tokens b rest → NoEquals tokens)
    (hdisjoint : ∀ tokens b rest a other, close (.symbol .comma :: tokens) b rest →
      ¬ item tokens a other) : Unique (Listed item close) := by
  have hcomma : ∀ tokens, NoEquals (.symbol .comma :: tokens) := fun _ => by simp [NoEquals]
  intro tokens found rest found' other h h'
  induction h generalizing found' other with
  | last ha hb =>
    cases h' with
    | last ha' hb' =>
      obtain ⟨rfl, rfl⟩ := hitem _ _ _ _ _ ha (hequals _ _ _ hb) ha' (hequals _ _ _ hb')
      obtain ⟨rfl, rfl⟩ := hclose _ _ _ _ _ hb hb'
      exact ⟨rfl, rfl⟩
    | more ha' hmore =>
      obtain ⟨rfl, rfl⟩ := hitem _ _ _ _ _ ha (hequals _ _ _ hb) ha' (hcomma _)
      obtain ⟨a, middle, hnext⟩ := hmore.begins
      exact (hdisjoint _ _ _ _ _ hb hnext).elim
  | more ha hmore ih =>
    cases h' with
    | last ha' hb' =>
      obtain ⟨rfl, rfl⟩ := hitem _ _ _ _ _ ha (hcomma _) ha' (hequals _ _ _ hb')
      obtain ⟨a, middle, hnext⟩ := hmore.begins
      exact (hdisjoint _ _ _ _ _ hb' hnext).elim
    | more ha' hmore' =>
      obtain ⟨rfl, heq⟩ := hitem _ _ _ _ _ ha (hcomma _) ha' (hcomma _)
      cases heq
      obtain ⟨hfound, rfl⟩ := ih _ _ hmore'
      cases hfound
      exact ⟨rfl, rfl⟩

theorem OptionalMark.unique {tokens rest other : List Token} {a b : Bool}
    (ha : OptionalMark tokens a (.symbol .colon :: rest))
    (hb : OptionalMark tokens b (.symbol .colon :: other)) : a = b ∧ rest = other := by
  cases ha <;> cases hb <;> exact ⟨rfl, rfl⟩

theorem Default.unique : UniqueBefore Default := by
  intro tokens a rest b other ha hrest hb hother
  cases ha with
  | absent =>
    cases hb with
    | absent => exact ⟨rfl, rfl⟩
    | present => exact absurd rfl hrest
  | present ha =>
    cases hb with
    | absent => exact absurd rfl hother
    | present hb =>
      obtain ⟨rfl, rfl⟩ := Literal.unique _ _ _ _ _ ha hb
      exact ⟨rfl, rfl⟩

/-- Where a list in braces can end, no item can begin. -/
theorem BraceEnd.disjoint {item : Rule α} (h : NeverBegins item .closeBrace) (tokens : List Token)
    (u : Unit) (rest : List Token) (a : α) (other : List Token)
    (hend : BraceEnd (.symbol .comma :: tokens) u rest) : ¬ item tokens a other := by
  obtain ⟨hend⟩ := hend
  rcases hend with hend | hend <;> cases hend
  exact h _ _ _

/-- Where an array can end, no element can begin. -/
theorem ArrayEnd.disjoint {item : Rule α} (h : NeverBegins item .closeBracket)
    (h' : NeverBegins item .ellipsis) (tokens : List Token) (size : ArraySize) (rest : List Token)
    (a : α) (other : List Token) (hend : ArrayEnd (.symbol .comma :: tokens) size rest) :
    ¬ item tokens a other := by
  cases hend with
  | exact hend =>
    rcases hend with hend | hend <;> cases hend
    exact h _ _ _
  | repeating hend =>
    rcases hend with hend | hend <;> cases hend
    exact h' _ _ _

variable {value : Rule Node} (hvalue : Unique value)

include hvalue

theorem FieldRule.unique : UniqueBefore (FieldRule value) := by
  rintro tokens a rest b other ⟨hkey, hmark, hnode, hdefault⟩ hrest ⟨hkey', hmark', hnode', hdefault'⟩
    hother
  obtain ⟨rfl, rfl⟩ := Key.unique _ _ _ _ _ hkey hkey'
  obtain ⟨rfl, rfl⟩ := hmark.unique hmark'
  obtain ⟨rfl, rfl⟩ := hvalue _ _ _ _ _ hnode hnode'
  obtain ⟨rfl, rfl⟩ := Default.unique _ _ _ _ _ hdefault hrest hdefault' hother
  exact ⟨rfl, rfl⟩

theorem AlternativeRule.unique : Unique (AlternativeRule value) := by
  rintro tokens a rest b other ⟨hkey, hnode⟩ ⟨hkey', hnode'⟩
  obtain ⟨rfl, heq⟩ := AlternativeKey.unique _ _ _ _ _ hkey hkey'
  cases heq
  obtain ⟨rfl, rfl⟩ := hvalue _ _ _ _ _ hnode hnode'
  exact ⟨rfl, rfl⟩

theorem ValueRule.unique (hbracket : NeverBegins value .closeBracket)
    (hellipsis : NeverBegins value .ellipsis) : Unique (ValueRule value) := by
  intro tokens a rest b other ha hb
  cases ha with
  | any =>
    cases hb with
    | any => exact ⟨rfl, rfl⟩
    | primitive h => cases h
    | literal h => cases h
  | primitive h =>
    cases hb with
    | any => cases h
    | primitive h' =>
      cases Option.some.inj (h.symm.trans h')
      exact ⟨rfl, rfl⟩
    | literal h' => cases h' <;> cases h
    | selector => cases h
  | literal h =>
    cases hb with
    | literal h' =>
      obtain ⟨rfl, rfl⟩ := Literal.unique _ _ _ _ _ h h'
      exact ⟨rfl, rfl⟩
    | primitive h' => cases h <;> cases h'
    | _ => cases h
  | array h =>
    cases hb with
    | literal h' => cases h'
    | array h' =>
      obtain ⟨heq, rfl⟩ := Listed.unique hvalue.before ArrayEnd.unique (fun _ _ _ => ArrayEnd.noEquals)
        (ArrayEnd.disjoint hbracket hellipsis) _ _ _ _ _ h h'
      cases heq
      exact ⟨rfl, rfl⟩
  | map h =>
    cases hb with
    | literal h' => cases h'
    | map h' =>
      obtain ⟨heq, rfl⟩ := Listed.unique (FieldRule.unique hvalue) BraceEnd.unique
        (fun _ _ _ => BraceEnd.noEquals)
        (BraceEnd.disjoint (FieldRule.neverBegins value .closeBrace)) _ _ _ _ _ h h'
      cases heq
      exact ⟨rfl, rfl⟩
    | dictionary =>
      obtain ⟨f, middle, hf⟩ := h.begins
      exact (FieldRule.neverBegins value .dollar _ _ _ hf).elim
  | dictionary h =>
    cases hb with
    | literal h' => cases h'
    | map h' =>
      obtain ⟨f, middle, hf⟩ := h'.begins
      exact (FieldRule.neverBegins value .dollar _ _ _ hf).elim
    | dictionary h' =>
      obtain ⟨rfl, heq⟩ := hvalue _ _ _ _ _ h h'
      cases heq
      exact ⟨rfl, rfl⟩
  | reference h =>
    cases hb with
    | literal h' => cases h'
    | reference h' =>
      obtain ⟨rfl, rfl⟩ := Name.unique _ _ _ _ _ h h'
      exact ⟨rfl, rfl⟩
  | selector hkey halternatives =>
    cases hb with
    | literal h' => cases h'
    | primitive h' => cases h'
    | selector hkey' halternatives' =>
      obtain ⟨rfl, heq⟩ := Key.unique _ _ _ _ _ hkey hkey'
      cases heq
      obtain ⟨heq, rfl⟩ := Listed.unique (AlternativeRule.unique hvalue).before BraceEnd.unique
        (fun _ _ _ => BraceEnd.noEquals)
        (BraceEnd.disjoint (AlternativeRule.neverBegins value .closeBrace)) _ _ _ _ _
        halternatives halternatives'
      cases heq
      exact ⟨rfl, rfl⟩

omit hvalue in
theorem Value.uniqueWithin (depth : Nat) : Unique (Value depth) := by
  induction depth with
  | zero => exact fun _ _ _ _ _ h => h.elim
  | succ depth ih =>
    exact ValueRule.unique ih (Value.neverBegins depth (by decide)) (Value.neverBegins depth (by decide))

omit hvalue in
/-- **Tokens derive one value at most**, however deep. -/
theorem Value.unique {depth levels : Nat} {tokens rest other : List Token} {n m : Node}
    (h : Value depth tokens n rest) (h' : Value levels tokens m other) : n = m ∧ rest = other :=
  uniqueWithin _ _ _ _ _ _ (Value.mono (Nat.le_max_left depth levels) _ _ _ h)
    (Value.mono (Nat.le_max_right depth levels) _ _ _ h')

theorem Arrow.unique : Unique (Arrow value) := by
  intro tokens a rest b other ha hb
  cases ha with
  | post hrequest hresponse =>
    cases hb with
    | post hrequest' hresponse' =>
      obtain ⟨rfl, heq⟩ := hvalue _ _ _ _ _ hrequest hrequest'
      cases heq
      obtain ⟨rfl, rfl⟩ := hvalue _ _ _ _ _ hresponse hresponse'
      exact ⟨rfl, rfl⟩
  | get h =>
    cases hb with
    | get h' =>
      obtain ⟨rfl, rfl⟩ := hvalue _ _ _ _ _ h h'
      exact ⟨rfl, rfl⟩
  | put h =>
    cases hb with
    | put h' =>
      obtain ⟨rfl, rfl⟩ := hvalue _ _ _ _ _ h h'
      exact ⟨rfl, rfl⟩
  | getPut h =>
    cases hb with
    | getPut h' =>
      obtain ⟨rfl, rfl⟩ := hvalue _ _ _ _ _ h h'
      exact ⟨rfl, rfl⟩
  | getPutDelete h =>
    cases hb with
    | getPutDelete h' =>
      obtain ⟨rfl, rfl⟩ := hvalue _ _ _ _ _ h h'
      exact ⟨rfl, rfl⟩

theorem DeclarationRule.unique : Unique (DeclarationRule value) := by
  intro tokens a rest b other ha hb
  cases ha with
  | resource hname harrow =>
    cases hb with
    | resource hname' harrow' =>
      obtain ⟨rfl, rfl⟩ := Name.unique _ _ _ _ _ hname hname'
      obtain ⟨heq, rfl⟩ := Arrow.unique hvalue _ _ _ _ _ harrow harrow'
      cases heq
      exact ⟨rfl, rfl⟩
  | definition hname hnode =>
    cases hb with
    | definition hname' hnode' =>
      obtain ⟨rfl, heq⟩ := Name.unique _ _ _ _ _ hname hname'
      cases heq
      obtain ⟨rfl, rfl⟩ := hvalue _ _ _ _ _ hnode hnode'
      exact ⟨rfl, rfl⟩

omit hvalue in
theorem Suite.uniqueWithin {depth : Nat} {tokens : List Token} {ds es : List Declaration}
    (h : Suite depth tokens ds) (h' : Suite depth tokens es) : ds = es := by
  induction h generalizing es with
  | endOfInput =>
    cases h' with
    | endOfInput => rfl
    | declaration hd _ => cases hd
  | declaration hd _ ih =>
    cases h' with
    | endOfInput => cases hd
    | declaration hd' hrest' =>
      obtain ⟨rfl, rfl⟩ := DeclarationRule.unique (Value.uniqueWithin depth) _ _ _ _ _ hd hd'
      rw [ih hrest']

omit hvalue in
/-- **Tokens derive one list of declarations at most**, however deep. -/
theorem Suite.unique {depth levels : Nat} {tokens : List Token} {ds es : List Declaration}
    (h : Suite depth tokens ds) (h' : Suite levels tokens es) : ds = es :=
  uniqueWithin (Suite.mono (Nat.le_max_left depth levels) h)
    (Suite.mono (Nat.le_max_right depth levels) h')

end Unique

end Grammar

end Conformance
