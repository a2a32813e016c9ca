import Conformance.Proofs.Acceptance
import Conformance.Proofs.Joining

/-!
# The order of declarations

A suite text is the texts of its declarations one behind the other. Where these are put into another order, the
text is accepted just as well, and as the same suite, provided that the definitions of one name keep their
order.

* `Grammar.IsLocal` — what a rule derives does not depend on the tokens behind.
* `Grammar.Phrase` — the tokens of one declaration; `Grammar.Phrase.suite_iff` — those of several derive their
  declarations and no others.
* `DeclarationText`, `DeclarationText.lexed_joined` — texts of declarations, and the tokens of such texts one
  behind the other.
* `Suite.ofText_phrases_iff` — what a text of declarations is read as.
* `Grammar.Rearranged` — declarations in another order; `Suite.ofText_rearranged` — texts of these.
-/

set_option autoImplicit false

namespace Conformance

/-! ## Derivations do not look ahead -/

namespace Grammar

section Rules

variable {α β : Type}

/-- The tokens that the rule takes derive the same by it whatever is behind them. -/
def IsLocal (rule : Rule α) : Prop := ∀ tokens a rest, rule tokens a rest →
  ∃ used, tokens = used ++ rest ∧ ∀ others, rule (used ++ others) a others

theorem Literal.isLocal : IsLocal Literal := by
  intro tokens v rest h
  cases h
  case yes => exact ⟨[_], rfl, fun _ => .yes⟩
  case no => exact ⟨[_], rfl, fun _ => .no⟩
  case integer => exact ⟨[_], rfl, fun _ => .integer⟩
  case real => exact ⟨[_], rfl, fun _ => .real⟩
  case text => exact ⟨[_], rfl, fun _ => .text⟩

theorem Name.isLocal : IsLocal Name := by
  intro tokens name rest h
  cases h
  case name => exact ⟨[_], rfl, fun _ => .name⟩
  case keyword => exact ⟨[_], rfl, fun _ => .keyword⟩

theorem Key.isLocal : IsLocal Key := by
  intro tokens key rest h
  cases h with
  | name h =>
    obtain ⟨used, rfl, hused⟩ := Name.isLocal _ _ _ h
    exact ⟨used, rfl, fun others => .name (hused others)⟩
  | text => exact ⟨[_], rfl, fun _ => .text⟩

theorem AlternativeKey.isLocal : IsLocal AlternativeKey := by
  intro tokens key rest h
  cases h
  case text => exact ⟨[_], rfl, fun _ => .text⟩
  case integer => exact ⟨[_], rfl, fun _ => .integer⟩

theorem OptionalMark.isLocal : IsLocal OptionalMark := by
  intro tokens mark rest h
  cases h
  case absent => exact ⟨[], rfl, fun _ => .absent⟩
  case present => exact ⟨[_], rfl, fun _ => .present⟩

theorem Default.isLocal : IsLocal Default := by
  intro tokens v? rest h
  cases h with
  | absent => exact ⟨[], rfl, fun _ => .absent⟩
  | present h =>
    obtain ⟨used, rfl, hused⟩ := Literal.isLocal _ _ _ h
    exact ⟨.symbol .equals :: used, rfl, fun others => .present (hused others)⟩

theorem OptionalComma.exists_used {tokens middle : List Token} (h : OptionalComma tokens middle) :
    ∃ used, tokens = used ++ middle ∧ ∀ others, OptionalComma (used ++ others) others := by
  rcases h with rfl | rfl
  · exact ⟨[], rfl, fun _ => .inl rfl⟩
  · exact ⟨[_], rfl, fun _ => .inr rfl⟩

theorem ArrayEnd.isLocal : IsLocal ArrayEnd := by
  intro tokens size rest h
  cases h with
  | exact h =>
    obtain ⟨used, rfl, hused⟩ := h.exists_used
    refine ⟨used ++ [.symbol .closeBracket], by simp, fun others => .exact ?_⟩
    rw [List.append_assoc]
    exact hused _
  | repeating h =>
    obtain ⟨used, rfl, hused⟩ := h.exists_used
    refine ⟨used ++ [.symbol .ellipsis, .symbol .closeBracket], by simp, fun others => .repeating ?_⟩
    rw [List.append_assoc]
    exact hused _

theorem BraceEnd.isLocal : IsLocal BraceEnd := by
  rintro tokens u rest ⟨h⟩
  obtain ⟨used, rfl, hused⟩ := h.exists_used
  refine ⟨used ++ [.symbol .closeBrace], by simp, fun others => .brace ?_⟩
  rw [List.append_assoc]
  exact hused _

theorem Listed.isLocal {item : Rule α} {close : Rule β} (hitem : IsLocal item) (hclose : IsLocal close) :
    IsLocal (Listed item close) := by
  intro tokens found rest h
  induction h with
  | last ha hb =>
    obtain ⟨first, rfl, hfirst⟩ := hitem _ _ _ ha
    obtain ⟨last, rfl, hlast⟩ := hclose _ _ _ hb
    refine ⟨first ++ last, (List.append_assoc _ _ _).symm, fun others => ?_⟩
    rw [List.append_assoc]
    exact .last (hfirst _) (hlast others)
  | more ha _ ih =>
    obtain ⟨first, rfl, hfirst⟩ := hitem _ _ _ ha
    obtain ⟨more, rfl, hmore⟩ := ih
    refine ⟨first ++ .symbol .comma :: more, by simp, fun others => ?_⟩
    rw [List.append_assoc]
    exact .more (hfirst _) (hmore others)

end Rules

section Values

variable {value : Rule Node} (hvalue : IsLocal value)

include hvalue

theorem FieldRule.isLocal : IsLocal (FieldRule value) := by
  rintro tokens f rest ⟨hkey, hmark, hnode, hdefault⟩
  obtain ⟨key, rfl, ofKey⟩ := Key.isLocal _ _ _ hkey
  obtain ⟨mark, rfl, ofMark⟩ := OptionalMark.isLocal _ _ _ hmark
  obtain ⟨node, rfl, ofNode⟩ := hvalue _ _ _ hnode
  obtain ⟨default, rfl, ofDefault⟩ := Default.isLocal _ _ _ hdefault
  refine ⟨key ++ (mark ++ .symbol .colon :: (node ++ default)), by simp, fun others => ?_⟩
  simp only [List.append_assoc, List.cons_append]
  exact .field (ofKey _) (ofMark _) (ofNode _) (ofDefault others)

theorem AlternativeRule.isLocal : IsLocal (AlternativeRule value) := by
  rintro tokens a rest ⟨hkey, hnode⟩
  obtain ⟨key, rfl, ofKey⟩ := AlternativeKey.isLocal _ _ _ hkey
  obtain ⟨node, rfl, ofNode⟩ := hvalue _ _ _ hnode
  refine ⟨key ++ .symbol .colon :: node, by simp, fun others => ?_⟩
  simp only [List.append_assoc, List.cons_append]
  exact .alternative (ofKey _) (ofNode others)

theorem ValueRule.isLocal : IsLocal (ValueRule value) := by
  intro tokens n rest h
  cases h with
  | any => exact ⟨[_], rfl, fun _ => .any⟩
  | primitive hkind => exact ⟨[_], rfl, fun _ => .primitive hkind⟩
  | literal h =>
    obtain ⟨used, rfl, hused⟩ := Literal.isLocal _ _ _ h
    exact ⟨used, rfl, fun others => .literal (hused others)⟩
  | array h =>
    obtain ⟨used, rfl, hused⟩ := Listed.isLocal hvalue ArrayEnd.isLocal _ _ _ h
    exact ⟨.symbol .openBracket :: used, rfl, fun others => .array (hused others)⟩
  | map h =>
    obtain ⟨used, rfl, hused⟩ :=
      Listed.isLocal (FieldRule.isLocal hvalue) BraceEnd.isLocal _ _ _ h
    exact ⟨.symbol .openBrace :: used, rfl, fun others => .map (hused others)⟩
  | dictionary h =>
    obtain ⟨used, rfl, hused⟩ := hvalue _ _ _ h
    refine ⟨.symbol .openBrace :: .symbol .dollar :: .symbol .colon :: (used ++ [.symbol .closeBrace]),
      by simp, fun others => ?_⟩
    simp only [List.append_assoc, List.cons_append, List.nil_append]
    exact .dictionary (hused _)
  | reference h =>
    obtain ⟨used, rfl, hused⟩ := Name.isLocal _ _ _ h
    exact ⟨.symbol .ampersand :: used, rfl, fun others => .reference (hused others)⟩
  | selector hkey halternatives =>
    obtain ⟨key, rfl, ofKey⟩ := Key.isLocal _ _ _ hkey
    obtain ⟨used, rfl, hused⟩ :=
      Listed.isLocal (AlternativeRule.isLocal hvalue) BraceEnd.isLocal _ _ _ halternatives
    refine ⟨.keyword .select :: (key ++ .symbol .openBrace :: used), by simp, fun others => ?_⟩
    simp only [List.append_assoc, List.cons_append]
    exact .selector (ofKey _) (hused others)

omit hvalue in
theorem Value.isLocal (depth : Nat) : IsLocal (Value depth) := by
  induction depth with
  | zero => exact fun _ _ _ h => h.elim
  | succ depth ih => exact ValueRule.isLocal ih

theorem Arrow.isLocal : IsLocal (Arrow value) := by
  intro tokens bodies rest h
  cases h with
  | post hrequest hresponse =>
    obtain ⟨request, rfl, ofRequest⟩ := hvalue _ _ _ hrequest
    obtain ⟨response, rfl, ofResponse⟩ := hvalue _ _ _ hresponse
    refine ⟨.symbol .post :: (request ++ .symbol .result :: response), by simp, fun others => ?_⟩
    simp only [List.append_assoc, List.cons_append]
    exact .post (ofRequest _) (ofResponse others)
  | get h =>
    obtain ⟨used, rfl, hused⟩ := hvalue _ _ _ h
    exact ⟨.symbol .get :: used, rfl, fun others => .get (hused others)⟩
  | put h =>
    obtain ⟨used, rfl, hused⟩ := hvalue _ _ _ h
    exact ⟨.symbol .put :: used, rfl, fun others => .put (hused others)⟩
  | getPut h =>
    obtain ⟨used, rfl, hused⟩ := hvalue _ _ _ h
    exact ⟨.symbol .getPut :: used, rfl, fun others => .getPut (hused others)⟩
  | getPutDelete h =>
    obtain ⟨used, rfl, hused⟩ := hvalue _ _ _ h
    exact ⟨.symbol .getPutDelete :: used, rfl, fun others => .getPutDelete (hused others)⟩

theorem DeclarationRule.isLocal : IsLocal (DeclarationRule value) := by
  intro tokens d rest h
  cases h with
  | resource hname harrow =>
    obtain ⟨name, rfl, ofName⟩ := Name.isLocal _ _ _ hname
    obtain ⟨arrow, rfl, ofArrow⟩ := Arrow.isLocal hvalue _ _ _ harrow
    refine ⟨.symbol .resource :: (name ++ arrow), by simp, fun others => ?_⟩
    simp only [List.append_assoc, List.cons_append]
    exact .resource (ofName _) (ofArrow others)
  | definition hname hnode =>
    obtain ⟨name, rfl, ofName⟩ := Name.isLocal _ _ _ hname
    obtain ⟨node, rfl, ofNode⟩ := hvalue _ _ _ hnode
    refine ⟨.symbol .ampersand :: (name ++ .symbol .equals :: node), by simp, fun others => ?_⟩
    simp only [List.append_assoc, List.cons_append]
    exact .definition (ofName _) (ofNode others)

end Values

/-- A declaration is derived by its own tokens whatever is behind them. -/
theorem DeclarationRule.behind {depth : Nat} {tokens rest : List Token} {d : Declaration}
    (h : DeclarationRule (Value depth) (tokens ++ rest) d rest) (others : List Token) :
    DeclarationRule (Value depth) (tokens ++ others) d others := by
  obtain ⟨used, heq, hused⟩ := DeclarationRule.isLocal (Value.isLocal depth) _ _ _ h
  obtain rfl := List.append_cancel_right heq
  exact hused others

/-! ## Declarations one behind the other -/

/-- The tokens of one declaration, and what they declare, with however many levels. -/
structure Phrase where
  tokens : List Token
  declaration : Declaration
  derived : ∃ depth, DeclarationRule (Value depth) (tokens ++ [.endOfInput]) declaration [.endOfInput]

namespace Phrase

/-- The values in the declaration nest so many values at most. -/
def Within (p : Phrase) (maxDepth : Nat) : Prop :=
  DeclarationRule (Value maxDepth) (p.tokens ++ [.endOfInput]) p.declaration [.endOfInput]

/-- The tokens of a text of these declarations. -/
def allTokens (ps : List Phrase) : List Token := ps.flatMap Phrase.tokens ++ [.endOfInput]

theorem allTokens_cons (p : Phrase) (ps : List Phrase) :
    allTokens (p :: ps) = p.tokens ++ allTokens ps := by
  simp only [allTokens, List.flatMap_cons, List.append_assoc]

/-- What is in the declarations, in their order. -/
def declarations (ps : List Phrase) : List Declaration := ps.map Phrase.declaration

/-- The first token is that of a declaration. -/
theorem begins (p : Phrase) :
    ∃ s more, (s = .resource ∨ s = .ampersand) ∧ p.tokens = .symbol s :: more := by
  obtain ⟨depth, h⟩ := p.derived
  generalize p.declaration = d at h
  cases htokens : p.tokens with
  | nil =>
    rw [htokens] at h
    cases h
  | cons t more =>
    rw [htokens] at h
    cases h with
    | resource => exact ⟨_, _, .inl rfl, rfl⟩
    | definition => exact ⟨_, _, .inr rfl, rfl⟩

/-- A declaration takes just its own tokens, and nothing else can be declared by them. -/
theorem declarationRule_iff (p : Phrase) {maxDepth : Nat} {d : Declaration} {others rest : List Token} :
    DeclarationRule (Value maxDepth) (p.tokens ++ others) d rest ↔
      d = p.declaration ∧ rest = others ∧ p.Within maxDepth := by
  constructor
  · intro h
    obtain ⟨depth, hderived⟩ := p.derived
    -- The depths of both derivations differ, and what they derive is unique at either one.
    have hp := DeclarationRule.mono (Value.mono (Nat.le_max_left depth maxDepth)) _ _ _
      (hderived.behind others)
    have hd := DeclarationRule.mono (Value.mono (Nat.le_max_right depth maxDepth)) _ _ _ h
    obtain ⟨rfl, rfl⟩ := DeclarationRule.unique (Value.uniqueWithin _) _ _ _ _ _ hd hp
    exact ⟨rfl, rfl, h.behind _⟩
  · rintro ⟨rfl, rfl, h⟩
    exact h.behind _

/-- **The tokens of several declarations derive these and no others.** -/
theorem suite_iff {maxDepth : Nat} {ps : List Phrase} {ds : List Declaration} :
    Suite maxDepth (allTokens ps) ds ↔ ds = declarations ps ∧ ∀ p ∈ ps, p.Within maxDepth := by
  induction ps generalizing ds with
  | nil =>
    constructor
    · intro h
      cases h with
      | endOfInput => exact ⟨rfl, nofun⟩
      | declaration hd _ => cases hd
    · rintro ⟨rfl, -⟩
      exact .endOfInput
  | cons p ps ih =>
    rw [allTokens_cons, List.forall_mem_cons]
    constructor
    · intro h
      generalize htokens : p.tokens ++ allTokens ps = tokens at h
      cases h with
      | endOfInput =>
        obtain ⟨s, more, -, hmore⟩ := p.begins
        rw [hmore] at htokens
        cases htokens
      | declaration hd hds =>
        rw [← htokens] at hd
        obtain ⟨rfl, rfl, hp⟩ := p.declarationRule_iff.1 hd
        obtain ⟨rfl, hps⟩ := ih.1 hds
        exact ⟨rfl, hp, hps⟩
    · rintro ⟨rfl, hp, hps⟩
      exact .declaration (p.declarationRule_iff.2 ⟨rfl, rfl, hp⟩) (ih.2 ⟨rfl, hps⟩)

end Phrase

/-- The same declarations in another order, which for the definitions of one name is the same one. -/
structure Rearranged (ps qs : List Phrase) : Prop where
  perm : ps.Perm qs
  definitions : ∀ name, (Phrase.declarations ps).filterMap (Declaration.definitionOf? name) =
    (Phrase.declarations qs).filterMap (Declaration.definitionOf? name)

namespace Rearranged

variable {ps qs : List Phrase}

theorem declarations_perm (h : Rearranged ps qs) :
    (Phrase.declarations ps).Perm (Phrase.declarations qs) := h.perm.map _

theorem within_iff (h : Rearranged ps qs) (maxDepth : Nat) :
    (∀ p ∈ ps, p.Within maxDepth) ↔ ∀ q ∈ qs, q.Within maxDepth :=
  forall_congr' fun _ => imp_congr_left h.perm.mem_iff

theorem resourceNames_nodup_iff (h : Rearranged ps qs) :
    (resourceNames (Phrase.declarations ps)).Nodup ↔ (resourceNames (Phrase.declarations qs)).Nodup :=
  ((h.declarations_perm.filterMap _).map _).nodup_iff

end Rearranged

end Grammar

open Grammar (Declaration Phrase)

/-! ## Texts of declarations -/

/-- The text of one declaration, with blanks and comments before and behind it. The last comment ends in the
text: an ampersand put behind it is a token there. -/
structure DeclarationText extends Phrase where
  text : String
  lexed : Lexed text (tokens ++ [.endOfInput])
  closed : Lexed (text ++ "&") (tokens ++ [.symbol .ampersand, .endOfInput])

namespace DeclarationText

/-- The texts one behind the other. -/
def joined (ps : List DeclarationText) : String := String.join (ps.map text)

/-- The declarations without the characters that they are written with. -/
def phrases (ps : List DeclarationText) : List Phrase := ps.map toPhrase

theorem toList_joined_cons (p : DeclarationText) (ps : List DeclarationText) :
    (joined (p :: ps)).toList = p.text.toList ++ (joined ps).toList := by
  simp only [joined, String.toList_join, List.map_cons, List.flatMap_cons]

/-- No name or number at the end of another text goes on in these. -/
theorem apart_joined (ps : List DeclarationText) : Apart (joined ps).toList := by
  cases ps with
  | nil => exact Stops.nil
  | cons p ps =>
    obtain ⟨s, more, hs, hmore⟩ := p.begins
    have htext := lexed_iff.1 p.lexed
    rw [hmore] at htext
    rw [toList_joined_cons]
    exact htext.apart hs _

/-- **The tokens of texts one behind the other** are those of each text. -/
theorem lexed_joined (ps : List DeclarationText) : Lexed (joined ps) (Phrase.allTokens (phrases ps)) := by
  rw [lexed_iff]
  induction ps with
  | nil => exact .endOfInput rfl
  | cons p ps ih =>
    have hclosed := lexed_iff.1 p.closed
    rw [String.toList_append] at hclosed
    rw [toList_joined_cons, phrases, List.map_cons, Phrase.allTokens_cons]
    exact (lexed_iff.1 p.lexed).append hclosed ih (apart_joined ps)

end DeclarationText

/-! ## The suite that is read -/

theorem Collects.congr {ds es : List Declaration} {resources : Entries Resource} {definitions : Definitions}
    (hmem : ∀ d, d ∈ ds ↔ d ∈ es)
    (hnodes : ∀ name, ds.filterMap (Declaration.definitionOf? name) =
      es.filterMap (Declaration.definitionOf? name))
    (h : Collects ds resources definitions) : Collects es resources definitions where
  resources_sorted := h.resources_sorted
  definitions_sorted := h.definitions_sorted
  resource_iff := fun name r => (h.resource_iff name r).trans (and_congr_left' (hmem _))
  nodes_eq := fun name => (h.nodes_eq name).trans (hnodes name)
  inhabited := h.inhabited

theorem Grammar.Rearranged.collects_iff {ps qs : List Phrase} (h : Grammar.Rearranged ps qs)
    {resources : Entries Resource} {definitions : Definitions} :
    Collects (Phrase.declarations ps) resources definitions ↔
      Collects (Phrase.declarations qs) resources definitions := by
  have hmem := fun d => h.declarations_perm.mem_iff (a := d)
  exact ⟨.congr hmem h.definitions, .congr (fun d => (hmem d).symm) fun name => (h.definitions name).symm⟩

/-- What a text of declarations is read as: what these make up, where none of them nests too many values. -/
theorem Suite.ofText_phrases_iff {text : String} {ps : List Phrase} (h : Lexed text (Phrase.allTokens ps))
    (maxDepth : Nat) (s : Suite) : Suite.ofText text maxDepth = .ok s ↔ s.maxDepth = defaultMaxDepth ∧
      (∀ p ∈ ps, p.Within maxDepth) ∧ (Grammar.resourceNames (Phrase.declarations ps)).Nodup ∧
      Collects (Phrase.declarations ps) s.resources s.definitions ∧
      (∀ d ∈ Phrase.declarations ps, ∀ n ∈ d.nodes, n.AllDistinct ∧ n.AllResolved s.definitions maxDepth) ∧
      s.definitions.Acyclic := by
  rw [Suite.ofText_iff h]
  refine and_congr_right fun _ => ?_
  constructor
  · rintro ⟨ds, hderived, hall⟩
    obtain ⟨rfl, hwithin⟩ := Phrase.suite_iff.1 hderived
    exact ⟨hwithin, hall⟩
  · rintro ⟨hwithin, hall⟩
    exact ⟨_, Phrase.suite_iff.2 ⟨rfl, hwithin⟩, hall⟩

theorem Suite.ofText_iff_of_rearranged {ps qs : List Phrase} (h : Grammar.Rearranged ps qs)
    {text other : String} (htext : Lexed text (Phrase.allTokens ps))
    (hother : Lexed other (Phrase.allTokens qs)) (maxDepth : Nat) (s : Suite) :
    Suite.ofText text maxDepth = .ok s ↔ Suite.ofText other maxDepth = .ok s := by
  rw [ofText_phrases_iff htext, ofText_phrases_iff hother, h.within_iff, h.resourceNames_nodup_iff,
    h.collects_iff]
  simp only [h.declarations_perm.mem_iff]

/-- **The order of declarations does not matter.** Two texts hold the same declarations, token for token, with
whatever blanks and comments between them, and in another order, except that the definitions of one name keep
theirs. Then the second text is read as a suite just where the first one is, and as the same suite, however
many levels are allowed, and wherever a name is defined. Texts of declarations that are put one behind the
other are such texts. -/
theorem Suite.ofText_rearranged {ps qs : List Phrase} (h : Grammar.Rearranged ps qs) :
    (∀ text other, Lexed text (Phrase.allTokens ps) → Lexed other (Phrase.allTokens qs) →
      ∀ maxDepth s, Suite.ofText text maxDepth = .ok s ↔ Suite.ofText other maxDepth = .ok s) ∧
    ∀ ts us : List DeclarationText, DeclarationText.phrases ts = ps → DeclarationText.phrases us = qs →
      ∀ maxDepth s, Suite.ofText (DeclarationText.joined ts) maxDepth = .ok s ↔
        Suite.ofText (DeclarationText.joined us) maxDepth = .ok s := by
  refine ⟨fun text other => ofText_iff_of_rearranged h, ?_⟩
  rintro ts us rfl rfl
  exact ofText_iff_of_rearranged h (DeclarationText.lexed_joined ts) (DeclarationText.lexed_joined us)

/-- A resource that refers to a name in front of its definitions can stand behind these as well. -/
theorem Suite.ofText_rearranged_forward : ∃ ts us : List DeclarationText,
    Grammar.Rearranged (DeclarationText.phrases ts) (DeclarationText.phrases us) ∧
    DeclarationText.joined ts = "%% r >> &a\n&a = int ; whole\n&a = [&a, ...]" ∧
    DeclarationText.joined us = "&a = int ; whole\n&a = [&a, ...]%% r >> &a\n" ∧
    ∃ s, Suite.ofText "%% r >> &a\n&a = int ; whole\n&a = [&a, ...]" = .ok s ∧
      Suite.ofText "&a = int ; whole\n&a = [&a, ...]%% r >> &a\n" = .ok s := by
  let resource : DeclarationText :=
    { text := "%% r >> &a\n"
      tokens := [.symbol .resource, .name "r", .symbol .put, .symbol .ampersand, .name "a"]
      declaration := .resource ⟨"r", .put, .reference "a", .any⟩
      derived := ⟨1, .resource .name (.put (.reference .name))⟩
      lexed := by unfold Lexed; rfl
      closed := by unfold Lexed; rfl }
  let first : DeclarationText :=
    { text := "&a = int ; whole\n"
      tokens := [.symbol .ampersand, .name "a", .symbol .equals, .keyword .int]
      declaration := .definition "a" (.primitive .integer)
      derived := ⟨1, .definition .name (.primitive rfl)⟩
      lexed := by unfold Lexed; rfl
      closed := by unfold Lexed; rfl }
  let second : DeclarationText :=
    { text := "&a = [&a, ...]"
      tokens := [.symbol .ampersand, .name "a", .symbol .equals, .symbol .openBracket,
        .symbol .ampersand, .name "a", .symbol .comma, .symbol .ellipsis, .symbol .closeBracket]
      declaration := .definition "a" (.array [.reference "a"] .repeating)
      derived := ⟨2, .definition .name (.array (.last (.reference .name) (.repeating (.inr rfl))))⟩
      lexed := by unfold Lexed; rfl
      closed := by unfold Lexed; rfl }
  have h : Grammar.Rearranged (DeclarationText.phrases [resource, first, second])
      (DeclarationText.phrases [first, second, resource]) :=
    ⟨(List.perm_append_singleton resource [first, second]).symm.map _, fun name => rfl⟩
  let s : Suite :=
    { resources := [("r", ⟨"r", .put, .reference "a", .any⟩)]
      definitions := [("a", [.primitive .integer, .array [.reference "a"] .repeating])] }
  have hs : Suite.ofText "%% r >> &a\n&a = int ; whole\n&a = [&a, ...]" = .ok s := rfl
  have hts : DeclarationText.joined [resource, first, second] =
      "%% r >> &a\n&a = int ; whole\n&a = [&a, ...]" := rfl
  have hus : DeclarationText.joined [first, second, resource] =
      "&a = int ; whole\n&a = [&a, ...]%% r >> &a\n" := rfl
  refine ⟨_, _, h, hts, hus, s, hs, ?_⟩
  rw [← hts] at hs
  rw [← hus]
  exact ((Suite.ofText_rearranged h).2 _ _ rfl rfl _ s).1 hs

/-- Where definitions of one name change places, so do the nodes that it stands for. -/
example : Suite.ofText "&a = int &a = string" ≠ Suite.ofText "&a = string &a = int" := by
  intro h
  have hfirst : Suite.ofText "&a = int &a = string" =
      .ok { resources := [], definitions := [("a", [.primitive .integer, .primitive .string])] } := rfl
  have hsecond : Suite.ofText "&a = string &a = int" =
      .ok { resources := [], definitions := [("a", [.primitive .string, .primitive .integer])] } := rfl
  rw [hfirst, hsecond] at h
  cases h

end Conformance
