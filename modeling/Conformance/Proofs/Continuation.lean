import Conformance.Proofs.Grammar
import Conformance.Proofs.Tokens

/-!
# What can follow

Which tokens can follow at a place of a text, by the grammar, where any depth is allowed. Behind some tokens of a rule
these are what the rest of the rule derives, and then what can follow the rule.

* `Continuation`, `Rule.before` — which tokens can follow; what a rule derives, and then what can follow that.
* `Continuation.Live`, `Grammar.Productive` — something can follow, and a rule keeps it so.
* `Grammar.AnyValue`, `Grammar.AnySuite` — values and suites however deep; `Grammar.anyValue_iff`,
  `Grammar.anySuite_iff` — their parts are so, too.
* `Grammar.before_listed`, `Grammar.before_field`, `Grammar.before_alternative`, `Grammar.before_arrow` — what can
  follow at the beginning of a rule, in terms of its parts.
-/

set_option autoImplicit false

namespace Conformance

/-! ## What can follow -/

/-- Which tokens can follow at a place, up to the end of the text. -/
abbrev Continuation := List Token → Prop

namespace Continuation

/-- Some tokens that a text can have can follow. -/
def Live (K : Continuation) : Prop := ∃ tokens, (∀ t ∈ tokens, t.Lexical) ∧ K tokens

/-- The token follows, and then what can follow it. -/
def one (t : Token) (K : Continuation) : Continuation := fun tokens => ∃ rest, tokens = t :: rest ∧ K rest

theorem Live.mono {K L : Continuation} (h : K.Live) (hKL : ∀ tokens, K tokens → L tokens) : L.Live :=
  h.imp fun tokens => And.imp_right (hKL tokens)

theorem Live.cons {K L : Continuation} (h : K.Live) {t : Token} (ht : t.Lexical)
    (hKL : ∀ tokens, K tokens → L (t :: tokens)) : L.Live := by
  obtain ⟨tokens, hlexical, htokens⟩ := h
  exact ⟨t :: tokens, List.forall_mem_cons.2 ⟨ht, hlexical⟩, hKL tokens htokens⟩

theorem Live.one {K : Continuation} (h : K.Live) (s : Symbol) : (one (.symbol s) K).Live :=
  h.cons (t := .symbol s) trivial fun rest hrest => ⟨rest, rfl, hrest⟩

theorem one_cons {t u : Token} {K : Continuation} {rest : List Token} :
    one t K (u :: rest) ↔ u = t ∧ K rest := by
  constructor
  · rintro ⟨others, heq, h⟩
    cases heq
    exact ⟨rfl, h⟩
  · rintro ⟨rfl, h⟩
    exact ⟨rest, rfl, h⟩

end Continuation

open Continuation (one)

/-- What the rule derives follows, and then what can follow that. -/
def Rule.before {α : Type} (rule : Rule α) (K : Continuation) : Continuation :=
  fun tokens => ∃ a rest, rule tokens a rest ∧ K rest

namespace Grammar

variable {α β : Type} {K : Continuation}

/-- Something is derived in front of any tokens, from tokens that a text can have. -/
def Productive (rule : Rule α) : Prop := ∀ K : Continuation, K.Live → (rule.before K).Live

theorem Productive.live {rule : Rule α} (h : Productive rule) (hK : K.Live) : (rule.before K).Live := h K hK

theorem Literal.productive : Productive Literal := fun _ hK =>
  hK.cons (t := .keyword .trueLiteral) trivial fun rest hrest => ⟨_, rest, .yes, hrest⟩

theorem Name.productive : Productive Name := fun _ hK =>
  hK.cons (t := .keyword .undef) trivial fun rest hrest => ⟨_, rest, .keyword, hrest⟩

theorem Key.productive : Productive Key := fun _ hK =>
  (Name.productive _ hK).mono fun _ ⟨spelling, rest, h, hrest⟩ => ⟨spelling, rest, .name h, hrest⟩

/-! ### Values at any depth -/

/-- A value, however deep. -/
def AnyValue : Rule Node := fun tokens n rest => ∃ depth, Value depth tokens n rest

theorem Value.anyDepth {depth : Nat} : Includes (Value depth) AnyValue := fun _ _ _ h => ⟨depth, h⟩

theorem AnyValue.neverBegins {s : Symbol} (h : s ≠ .openBracket ∧ s ≠ .openBrace ∧ s ≠ .ampersand) :
    NeverBegins AnyValue s := fun _ _ _ ⟨depth, hvalue⟩ => Value.neverBegins depth h _ _ _ hvalue

theorem AnyValue.productive : Productive AnyValue := fun _ hK =>
  hK.cons (t := .keyword .undef) trivial fun rest hrest => ⟨.any, rest, ⟨1, ValueRule.any⟩, hrest⟩

/-- Where each member of a family derives no less than those before it, a list of items that are derived at some depth
each is derived at one depth. -/
theorem Listed.exists_depth {item : Nat → Rule α} {anyItem : Rule α} {close : Rule β}
    (hmono : ∀ depth levels, depth ≤ levels → Includes (item depth) (item levels))
    (hitem : ∀ tokens a rest, anyItem tokens a rest → ∃ depth, item depth tokens a rest)
    {tokens rest : List Token} {found : List α × β} (h : Listed anyItem close tokens found rest) :
    ∃ depth, Listed (item depth) close tokens found rest := by
  induction h with
  | last ha hb =>
    obtain ⟨depth, ha⟩ := hitem _ _ _ ha
    exact ⟨depth, .last ha hb⟩
  | more ha _ ih =>
    obtain ⟨depth, ha⟩ := hitem _ _ _ ha
    obtain ⟨levels, hrest⟩ := ih
    refine ⟨max depth levels, .more (hmono _ _ (Nat.le_max_left _ _) _ _ _ ha) ?_⟩
    exact Listed.mono (hmono _ _ (Nat.le_max_right _ _)) _ _ _ hrest

/-- What derives a value from values of any depth does so from values of some depth. -/
theorem ValueRule.exists_depth {tokens rest : List Token} {n : Node} (h : ValueRule AnyValue tokens n rest) :
    ∃ depth, ValueRule (Value depth) tokens n rest := by
  cases h with
  | any => exact ⟨0, .any⟩
  | primitive hkind => exact ⟨0, .primitive hkind⟩
  | literal hliteral => exact ⟨0, .literal hliteral⟩
  | array helements =>
    obtain ⟨depth, helements⟩ := helements.exists_depth (fun _ _ => Value.mono) fun _ _ _ h => h
    exact ⟨depth, .array helements⟩
  | map hfields =>
    obtain ⟨depth, hfields⟩ := hfields.exists_depth (fun _ _ h => FieldRule.mono (Value.mono h))
      fun _ _ _ ⟨hkey, hmark, ⟨depth, hnode⟩, hdefault⟩ => ⟨depth, ⟨hkey, hmark, hnode, hdefault⟩⟩
    exact ⟨depth, .map hfields⟩
  | dictionary hentry =>
    obtain ⟨depth, hentry⟩ := hentry
    exact ⟨depth, .dictionary hentry⟩
  | reference hname => exact ⟨0, .reference hname⟩
  | selector hkey halternatives =>
    obtain ⟨depth, halternatives⟩ := halternatives.exists_depth (fun _ _ h => AlternativeRule.mono (Value.mono h))
      fun tokens a rest ⟨hkey, ⟨depth, hnode⟩⟩ => ⟨depth, ⟨hkey, hnode⟩⟩
    exact ⟨depth, .selector hkey halternatives⟩

theorem AnyValue.unique : Unique AnyValue := fun _ _ _ _ _ ⟨_, h⟩ ⟨_, h'⟩ => Value.unique h h'

/-- The parts of a value are values, however deep. -/
theorem anyValue_iff {tokens rest : List Token} {n : Node} :
    AnyValue tokens n rest ↔ ValueRule AnyValue tokens n rest := by
  constructor
  · rintro ⟨_ | depth, h⟩
    · exact h.elim
    · exact ValueRule.mono Value.anyDepth _ _ _ h
  · intro h
    obtain ⟨depth, h⟩ := h.exists_depth
    exact ⟨depth + 1, h⟩

/-- A suite, however deep. -/
def AnySuite : Continuation := fun tokens => ∃ depth ds, Suite depth tokens ds

theorem DeclarationRule.exists_depth {tokens rest : List Token} {d : Declaration}
    (h : DeclarationRule AnyValue tokens d rest) : ∃ depth, DeclarationRule (Value depth) tokens d rest := by
  cases h with
  | resource hname harrow =>
    cases harrow with
    | post hrequest hresponse =>
      obtain ⟨depth, hrequest⟩ := hrequest
      obtain ⟨levels, hresponse⟩ := hresponse
      exact ⟨max depth levels, .resource hname (.post (Value.mono (Nat.le_max_left _ _) _ _ _ hrequest)
        (Value.mono (Nat.le_max_right _ _) _ _ _ hresponse))⟩
    | get hnode =>
      obtain ⟨depth, hnode⟩ := hnode
      exact ⟨depth, .resource hname (.get hnode)⟩
    | put hnode =>
      obtain ⟨depth, hnode⟩ := hnode
      exact ⟨depth, .resource hname (.put hnode)⟩
    | getPut hnode =>
      obtain ⟨depth, hnode⟩ := hnode
      exact ⟨depth, .resource hname (.getPut hnode)⟩
    | getPutDelete hnode =>
      obtain ⟨depth, hnode⟩ := hnode
      exact ⟨depth, .resource hname (.getPutDelete hnode)⟩
  | definition hname hnode =>
    obtain ⟨depth, hnode⟩ := hnode
    exact ⟨depth, .definition hname hnode⟩

theorem anySuite_iff {tokens : List Token} : AnySuite tokens ↔
    tokens = [.endOfInput] ∨ (Rule.before (DeclarationRule AnyValue) AnySuite) tokens := by
  constructor
  · rintro ⟨depth, ds, h⟩
    cases h with
    | endOfInput => exact .inl rfl
    | declaration hd hrest => exact .inr ⟨_, _, DeclarationRule.mono Value.anyDepth _ _ _ hd, depth, _, hrest⟩
  · rintro (rfl | ⟨d, rest, hd, levels, ds, hrest⟩)
    · exact ⟨0, [], .endOfInput⟩
    · obtain ⟨depth, hd⟩ := hd.exists_depth
      refine ⟨max depth levels, d :: ds, .declaration ?_ (Suite.mono (Nat.le_max_right _ _) hrest)⟩
      exact DeclarationRule.mono (Value.mono (Nat.le_max_left _ _)) _ _ _ hd

/-- Nothing but the end of the text can follow. -/
def ended : Continuation := (· = [.endOfInput])

theorem ended_live : ended.Live := ⟨[.endOfInput], List.forall_mem_cons.2 ⟨trivial, nofun⟩, rfl⟩

theorem AnySuite.live : AnySuite.Live := ended_live.mono fun _ h => anySuite_iff.2 (.inl h)

/-! ### Lists -/

/-- Behind an item of a list: what closes the list, or a comma and more items. -/
def listTail (item : Rule α) (close : Rule β) (K : Continuation) : Continuation := fun tokens =>
  close.before K tokens ∨ ∃ rest, tokens = .symbol .comma :: rest ∧ (Listed item close).before K rest

theorem before_listed {item : Rule α} {close : Rule β} {tokens : List Token} :
    (Listed item close).before K tokens ↔ item.before (listTail item close K) tokens := by
  constructor
  · rintro ⟨found, rest, h, hrest⟩
    cases h with
    | last ha hb => exact ⟨_, _, ha, .inl ⟨_, rest, hb, hrest⟩⟩
    | more ha hmore => exact ⟨_, _, ha, .inr ⟨_, rfl, _, rest, hmore, hrest⟩⟩
  · rintro ⟨a, middle, ha, ⟨b, rest, hb, hrest⟩ | ⟨others, rfl, found, rest, hmore, hrest⟩⟩
    · exact ⟨_, rest, .last ha hb, hrest⟩
    · exact ⟨_, rest, .more ha hmore, hrest⟩

/-- The end of an array, from its bracket on or from the ellipsis in front of it. -/
def arrayClose (K : Continuation) : Continuation := fun tokens =>
  one (.symbol .closeBracket) K tokens ∨ one (.symbol .ellipsis) (one (.symbol .closeBracket) K) tokens

/-- What closes a list is so with a comma in front of it, too. -/
def ClosedBy (close : Rule β) (C K : Continuation) : Prop :=
  (∀ tokens, close.before K tokens ↔ C tokens ∨ ∃ rest, tokens = .symbol .comma :: rest ∧ C rest) ∧
    ∀ rest, ¬ C (.symbol .comma :: rest)

theorem BraceEnd.closedBy : ClosedBy BraceEnd (one (.symbol .closeBrace) K) K := by
  refine ⟨fun tokens => ⟨?_, ?_⟩, fun rest h => nomatch (Continuation.one_cons.1 h).1⟩
  · rintro ⟨u, rest, ⟨rfl | rfl⟩, hrest⟩
    · exact .inl ⟨rest, rfl, hrest⟩
    · exact .inr ⟨_, rfl, rest, rfl, hrest⟩
  · rintro (⟨rest, rfl, hrest⟩ | ⟨_, rfl, rest, rfl, hrest⟩)
    · exact ⟨(), rest, .brace (.inl rfl), hrest⟩
    · exact ⟨(), rest, .brace (.inr rfl), hrest⟩

theorem ArrayEnd.closedBy : ClosedBy ArrayEnd (arrayClose K) K := by
  refine ⟨fun tokens => ⟨?_, ?_⟩, fun rest h => ?_⟩
  · rintro ⟨size, rest, h, hrest⟩
    cases h with
    | exact h =>
      rcases h with rfl | rfl
      · exact .inl (.inl ⟨rest, rfl, hrest⟩)
      · exact .inr ⟨_, rfl, .inl ⟨rest, rfl, hrest⟩⟩
    | repeating h =>
      rcases h with rfl | rfl
      · exact .inl (.inr ⟨_, rfl, rest, rfl, hrest⟩)
      · exact .inr ⟨_, rfl, .inr ⟨_, rfl, rest, rfl, hrest⟩⟩
  · rintro ((⟨rest, rfl, hrest⟩ | ⟨_, rfl, rest, rfl, hrest⟩) |
      ⟨_, rfl, ⟨rest, rfl, hrest⟩ | ⟨_, rfl, rest, rfl, hrest⟩⟩)
    · exact ⟨_, rest, .exact (.inl rfl), hrest⟩
    · exact ⟨_, rest, .repeating (.inl rfl), hrest⟩
    · exact ⟨_, rest, .exact (.inr rfl), hrest⟩
    · exact ⟨_, rest, .repeating (.inr rfl), hrest⟩
  · rcases h with h | h
    · cases (Continuation.one_cons.1 h).1
    · cases (Continuation.one_cons.1 h).1

theorem listTail_live {item : Rule α} {close : Rule β} {C : Continuation} (hclose : ClosedBy close C K)
    (hC : C.Live) : (listTail item close K).Live :=
  hC.mono fun tokens h => .inl ((hclose.1 tokens).2 (.inl h))

theorem Listed.productive {item : Rule α} {close : Rule β} (hitem : Productive item) (hclose : Productive close) :
    Productive (Listed item close) := fun _ hK =>
  (hitem _ (hclose _ hK)).mono fun _ ⟨a, _, ha, b, rest, hb, hrest⟩ => ⟨([a], b), rest, .last ha hb, hrest⟩

theorem not_before_listed {item : Rule α} {close : Rule β} {symbol : Symbol} (hitem : NeverBegins item symbol)
    (rest : List Token) : ¬ (Listed item close).before K (.symbol symbol :: rest) := by
  rintro ⟨found, others, hlisted, -⟩
  obtain ⟨a, middle, ha⟩ := hlisted.begins
  exact hitem _ _ _ ha

theorem BraceEnd.productive : Productive BraceEnd := fun _ hK =>
  (hK.one .closeBrace).mono fun _ h => (BraceEnd.closedBy.1 _).2 (.inl h)

theorem ArrayEnd.productive : Productive ArrayEnd := fun _ hK =>
  (hK.one .closeBracket).mono fun _ h => (ArrayEnd.closedBy.1 _).2 (.inl (.inl h))

/-! ### Fields and alternatives -/

/-- No equals sign can follow. -/
def NeverEquals (K : Continuation) : Prop := ∀ rest, ¬ K (.symbol .equals :: rest)

theorem listTail_neverEquals {item : Rule α} : NeverEquals (listTail item BraceEnd K) := by
  rintro rest (⟨u, others, h, -⟩ | ⟨others, heq, -⟩)
  · exact h.noEquals rfl
  · cases heq

/-- A question mark, if there is one, and then what can follow. -/
def marked (K : Continuation) : Continuation := fun tokens => K tokens ∨ one (.symbol .question) K tokens

theorem before_field {value : Rule Node} {tokens : List Token} : (FieldRule value).before K tokens ↔
    Key.before (marked (one (.symbol .colon) (value.before (Default.before K)))) tokens := by
  constructor
  · rintro ⟨f, rest, ⟨hkey, hmark, hnode, hdefault⟩, hrest⟩
    refine ⟨_, _, hkey, ?_⟩
    cases hmark with
    | absent => exact .inl ⟨_, rfl, _, _, hnode, _, rest, hdefault, hrest⟩
    | present => exact .inr ⟨_, rfl, _, rfl, _, _, hnode, _, rest, hdefault, hrest⟩
  · rintro ⟨name, _, hkey, ⟨_, rfl, n, _, hnode, v?, rest, hdefault, hrest⟩ |
      ⟨_, rfl, _, rfl, n, _, hnode, v?, rest, hdefault, hrest⟩⟩
    · exact ⟨_, rest, ⟨hkey, .absent, hnode, hdefault⟩, hrest⟩
    · exact ⟨_, rest, ⟨hkey, .present, hnode, hdefault⟩, hrest⟩

theorem before_alternative {value : Rule Node} {tokens : List Token} : (AlternativeRule value).before K tokens ↔
    AlternativeKey.before (one (.symbol .colon) (value.before K)) tokens := by
  constructor
  · rintro ⟨a, rest, ⟨hkey, hnode⟩, hrest⟩
    exact ⟨_, _, hkey, _, rfl, _, rest, hnode, hrest⟩
  · rintro ⟨key, _, hkey, _, rfl, n, rest, hnode, hrest⟩
    exact ⟨_, rest, ⟨hkey, hnode⟩, hrest⟩

theorem Default.productive : Productive Default := fun _ hK =>
  hK.mono fun rest hrest => ⟨none, rest, .absent, hrest⟩

theorem FieldRule.productive : Productive (FieldRule AnyValue) := fun _ hK =>
  (Key.productive _ (((AnyValue.productive _ (Default.productive _ hK)).one .colon).mono fun _ => .inl)).mono
    fun _ => before_field.2

theorem AlternativeKey.productive : Productive AlternativeKey := fun _ hK =>
  hK.cons (t := .text "") trivial fun rest hrest => ⟨_, rest, .text, hrest⟩

theorem AlternativeRule.productive : Productive (AlternativeRule AnyValue) := fun _ hK =>
  (AlternativeKey.productive _ ((AnyValue.productive _ hK).one .colon)).mono fun _ => before_alternative.2

/-! ### Values -/

theorem anyValue_primitive {token : Token} {kind : Kind} (h : token.kind? = some kind) (rest : List Token) :
    AnyValue (token :: rest) (.primitive kind) rest := by
  cases token with
  | keyword k => exact anyValue_iff.2 (.primitive h)
  | _ => cases h

theorem before_array {rest : List Token} :
    AnyValue.before K (.symbol .openBracket :: rest) ↔ (Listed AnyValue ArrayEnd).before K rest := by
  constructor
  · rintro ⟨n, others, hn, hothers⟩
    cases anyValue_iff.1 hn with
    | literal h => cases h
    | array h => exact ⟨_, others, h, hothers⟩
  · rintro ⟨found, others, h, hothers⟩
    exact ⟨_, others, anyValue_iff.2 (.array h), hothers⟩

theorem before_reference {rest : List Token} :
    AnyValue.before K (.symbol .ampersand :: rest) ↔ Name.before K rest := by
  constructor
  · rintro ⟨n, others, hn, hothers⟩
    cases anyValue_iff.1 hn with
    | literal h => cases h
    | reference h => exact ⟨_, others, h, hothers⟩
  · rintro ⟨name, others, h, hothers⟩
    exact ⟨_, others, anyValue_iff.2 (.reference h), hothers⟩

theorem before_selector {rest : List Token} : AnyValue.before K (.keyword .select :: rest) ↔
    Key.before (one (.symbol .openBrace) ((Listed (AlternativeRule AnyValue) BraceEnd).before K)) rest := by
  constructor
  · rintro ⟨n, others, hn, hothers⟩
    cases anyValue_iff.1 hn with
    | primitive h => cases h
    | literal h => cases h
    | selector hkey h => exact ⟨_, _, hkey, _, rfl, _, others, h, hothers⟩
  · rintro ⟨key, _, hkey, _, rfl, found, others, h, hothers⟩
    exact ⟨_, others, anyValue_iff.2 (.selector hkey h), hothers⟩

theorem not_before_name {text : String} (rest : List Token) : ¬ AnyValue.before K (.name text :: rest) := by
  rintro ⟨n, others, hn, -⟩
  cases anyValue_iff.1 hn with
  | literal h => cases h

theorem not_before_endOfInput (rest : List Token) : ¬ AnyValue.before K (.endOfInput :: rest) := by
  rintro ⟨n, others, hn, -⟩
  cases anyValue_iff.1 hn with
  | literal h => cases h

/-- A value that begins with no type, no keyword of its own and no bracket is a literal. -/
theorem before_literal {token : Token} {rest : List Token} (hkind : token.kind? = none)
    (hundef : token ≠ .keyword .undef) (hselect : token ≠ .keyword .select)
    (hbracket : token ≠ .symbol .openBracket) (hbrace : token ≠ .symbol .openBrace)
    (hampersand : token ≠ .symbol .ampersand) (h : AnyValue.before K (token :: rest)) :
    Literal.before K (token :: rest) := by
  obtain ⟨n, others, hn, hothers⟩ := h
  cases anyValue_iff.1 hn with
  | literal hv => exact ⟨_, others, hv, hothers⟩
  | any => exact (hundef rfl).elim
  | primitive h => cases hkind.symm.trans h
  | array => exact (hbracket rfl).elim
  | map => exact (hbrace rfl).elim
  | dictionary => exact (hbrace rfl).elim
  | reference => exact (hampersand rfl).elim
  | selector => exact (hselect rfl).elim

/-! ### Arrows -/

/-- Behind the first body of a resource: a second one, if the access is one that has two. -/
def afterBody (access : Access) (K : Continuation) : Continuation :=
  match access with
  | .post => one (.symbol .result) (AnyValue.before K)
  | _ => K

theorem afterBody_live (access : Access) (hK : K.Live) : (afterBody access K).Live := by
  cases access with
  | post => exact (AnyValue.productive.live hK).one _
  | _ => exact hK

theorem before_arrow {token : Token} {access : Access} (h : Parser.access? token = some access)
    (rest : List Token) :
    (Arrow AnyValue).before K (token :: rest) ↔ AnyValue.before (afterBody access K) rest := by
  constructor
  · rintro ⟨x, others, harrow, hothers⟩
    cases harrow with
    | post hrequest hresponse =>
      cases h
      exact ⟨_, _, hrequest, _, rfl, _, others, hresponse, hothers⟩
    | get hnode =>
      cases h
      exact ⟨_, others, hnode, hothers⟩
    | put hnode =>
      cases h
      exact ⟨_, others, hnode, hothers⟩
    | getPut hnode =>
      cases h
      exact ⟨_, others, hnode, hothers⟩
    | getPutDelete hnode =>
      cases h
      exact ⟨_, others, hnode, hothers⟩
  · rintro ⟨n, middle, hnode, hothers⟩
    unfold Parser.access? at h
    split at h
    · cases h
      obtain ⟨_, rfl, m, others, hresponse, hothers⟩ := hothers
      exact ⟨_, others, .post hnode hresponse, hothers⟩
    · cases h
      exact ⟨_, middle, .get hnode, hothers⟩
    · cases h
      exact ⟨_, middle, .put hnode, hothers⟩
    · cases h
      exact ⟨_, middle, .getPut hnode, hothers⟩
    · cases h
      exact ⟨_, middle, .getPutDelete hnode, hothers⟩
    · cases h

theorem access?_of_arrow {token : Token} {tokens rest : List Token} {x : Access × Node × Node} {value : Rule Node}
    (h : Arrow value (token :: tokens) x rest) : Parser.access? token = some x.1 := by
  cases h <;> rfl

theorem Arrow.productive : Productive (Arrow AnyValue) := fun _ hK =>
  (AnyValue.productive _ hK).cons (t := .symbol .get) trivial
    fun _ ⟨_, rest, hn, hrest⟩ => ⟨_, rest, .get hn, hrest⟩

/-! ### Declarations -/

theorem anySuite_resource {rest : List Token} :
    AnySuite (.symbol .resource :: rest) ↔ Name.before ((Arrow AnyValue).before AnySuite) rest := by
  rw [anySuite_iff]
  constructor
  · rintro (h | ⟨d, others, hd, hothers⟩)
    · cases h
    · cases hd with
      | resource hname harrow => exact ⟨_, _, hname, _, others, harrow, hothers⟩
  · rintro ⟨name, _, hname, x, others, harrow, hothers⟩
    exact .inr ⟨_, others, .resource hname harrow, hothers⟩

theorem anySuite_definition {rest : List Token} :
    AnySuite (.symbol .ampersand :: rest) ↔
      Name.before (one (.symbol .equals) (AnyValue.before AnySuite)) rest := by
  rw [anySuite_iff]
  constructor
  · rintro (h | ⟨d, others, hd, hothers⟩)
    · cases h
    · cases hd with
      | definition hname hnode => exact ⟨_, _, hname, _, rfl, _, others, hnode, hothers⟩
  · rintro ⟨name, _, hname, _, rfl, n, others, hnode, hothers⟩
    exact .inr ⟨_, others, .definition hname hnode, hothers⟩

/-- A suite begins with a declaration, or it is the end of the text. -/
theorem AnySuite.begins {token : Token} {rest : List Token} (h : AnySuite (token :: rest)) :
    token = .endOfInput ∨ token = .symbol .resource ∨ token = .symbol .ampersand := by
  rcases anySuite_iff.1 h with h | ⟨d, others, hd, -⟩
  · exact .inl (List.cons.inj h).1
  · cases hd with
    | resource => exact .inr (.inl rfl)
    | definition => exact .inr (.inr rfl)

end Grammar

end Conformance
