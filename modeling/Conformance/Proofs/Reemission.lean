import Conformance.Proofs.Spelling
import Conformance.Proofs.WellFormed

/-!
# What is written reads back

The text of a schema or a suite that was read from a text is a text again, and what is read from it is the
same. A rule of the grammar and a spelling belong together if the rule derives the thing from the tokens
of the spelling, whatever is written behind; the spellings of the parts make up that of the whole.

* `Writes` — the spelling of a thing, for a rule that derives it; one lemma for each rule.
* `Writes.value`, `Writes.declaration` — the texts of nodes, resources and definitions.
* `Suite.declarations` — a suite as the declarations of its text; `Collects.declarations`.
* `Node.equal_self`, `Suite.equal_self` — what was read equals itself, as there is no `nan` in it.
* `Parser.reads_written` — whole texts.
-/

set_option autoImplicit false

namespace Conformance

/-! ## Spellings -/

/-- Where the spelling is written before a delimiter, the rule derives the thing from the tokens, and the
tokens of the text behind are left. -/
def Writes {α : Type} (rule : Rule α) (spelling : List Char) (a : α) : Prop :=
  ∀ rest tail, Delimited rest → Tokenized rest tail →
    ∃ tokens, Tokenized (spelling ++ rest) tokens ∧ rule tokens a tail

/-- The characters of a list with commas between its members. -/
def commaSeparated {α : Type} (spell : α → List Char) : List α → List Char
  | [] => []
  | a :: as => spell a ++ separatorBefore ", " as ++ commaSeparated spell as

theorem Delimited.text {spelling : String} {rest : List Char}
    (h : spelling.toList.head?.any (· ∈ delimiters) = true) : Delimited (spelling.toList ++ rest) := by
  intro c hc
  cases hs : spelling.toList with
  | nil =>
    rw [hs] at h
    cases h
  | cons d others =>
    rw [hs] at h hc
    obtain rfl : d = c := Option.some.inj hc
    exact of_decide_eq_true h

/-- The characters that end an array. -/
def ArraySize.ending : ArraySize → List Char
  | .exact => " ]".toList
  | .repeating => ", ... ]".toList

theorem ArraySize.delimited_ending (size : ArraySize) (rest : List Char) :
    Delimited (size.ending ++ rest) := by
  cases size with
  | exact => exact .text rfl
  | repeating => exact .text rfl

namespace Tokenized

variable {rest : List Char} {tail : List Token}

/-- A symbol with a blank after it. -/
theorem symbolSpace (s : Symbol) (h : Tokenized rest tail) :
    Tokenized (s.text.toList ++ ' ' :: rest) (.symbol s :: tail) := h.space.symbol s

theorem keyword (k : Keyword) (hrest : Delimited rest) (h : Tokenized rest tail) :
    Tokenized (k.text.toList ++ rest) (.keyword k :: tail) := by
  have hname : Name.isName k.text.toList = true := by cases k <;> decide
  have htoken := h.name hname hrest
  rw [String.ofList_toList] at htoken
  unfold Token.ofName at htoken
  rw [Keyword.ofText?_text] at htoken
  exact htoken

end Tokenized

namespace Writes

variable {α β : Type}

theorem literal {v : Value} (h : v.IsLiteral) : Writes Grammar.Literal v.literalCharacters v := by
  intro rest tail hrest htail
  cases v with
  | boolean b =>
    cases b with
    | true => exact ⟨_, htail.keyword .trueLiteral hrest, .yes⟩
    | false => exact ⟨_, htail.keyword .falseLiteral hrest, .no⟩
  | integer i => exact ⟨_, htail.integer i hrest, .integer⟩
  | real r => exact ⟨_, htail.real h hrest, .real⟩
  | string content => exact ⟨_, htail.text content, .text⟩
  | _ => exact h.elim

theorem name {spelling : String} (h : Name.isName spelling.toList = true) :
    Writes Grammar.Name spelling.toList spelling := by
  intro rest tail hrest htail
  have htoken := htail.name h hrest
  rw [String.ofList_toList] at htoken
  refine ⟨_, htoken, ?_⟩
  have hname := Token.name?_ofName spelling
  unfold Token.ofName at hname ⊢
  cases hk : Keyword.ofText? spelling with
  | none => exact .name
  | some k =>
    rw [hk] at hname
    have htext : k.text = spelling := Option.some.inj hname
    rw [← htext]
    exact .keyword

theorem key (name : String) : Writes Grammar.Key (keyCharacters name) name := by
  intro rest tail hrest htail
  unfold keyCharacters
  by_cases h : Name.isName name.toList = true
  · rw [if_pos h]
    obtain ⟨tokens, htokens, hname⟩ := Writes.name h rest tail hrest htail
    exact ⟨tokens, htokens, .name hname⟩
  · rw [if_neg h]
    exact ⟨_, htail.text name, .text⟩

theorem alternativeKey {v : Value} (h : v.isDiscriminant = true) :
    Writes Grammar.AlternativeKey v.literalCharacters v := by
  intro rest tail hrest htail
  cases v with
  | string content => exact ⟨_, htail.text content, .text⟩
  | integer i => exact ⟨_, htail.integer i hrest, .integer⟩
  | _ => cases h

theorem optionalMark (b : Bool) : Writes Grammar.OptionalMark (if b then ['?'] else []) b := by
  intro rest tail _ htail
  cases b with
  | true => exact ⟨_, htail.symbol .question, .present⟩
  | false => exact ⟨_, htail, .absent⟩

theorem default {default? : Option Value} (h : ∀ v, default? = some v → v.IsLiteral) :
    Writes Grammar.Default (defaultCharacters default?) default? := by
  intro rest tail hrest htail
  cases default? with
  | none => exact ⟨_, htail, .absent⟩
  | some v =>
    obtain ⟨tokens, htokens, hliteral⟩ := literal (h v rfl) rest tail hrest htail
    exact ⟨_, (htokens.symbolSpace .equals).space, .present hliteral⟩

theorem delimited_default {default? : Option Value} {rest : List Char} (h : Delimited rest) :
    Delimited (defaultCharacters default? ++ rest) := by
  cases default? with
  | none => exact h
  | some v => exact .cons (by decide)

/-- A list whose members are written, with commas between, before what closes it. -/
theorem listed {item : Rule α} {close : Rule β} {spell : α → List Char} {ending : List Char} {b : β}
    (hclose : Writes close ending b) (hending : ∀ rest, Delimited (ending ++ rest)) {as : List α}
    (hne : as ≠ []) (hitems : ∀ a ∈ as, Writes item (spell a) a) :
    Writes (Grammar.Listed item close) (commaSeparated spell as ++ ending) (as, b) := by
  intro rest tail hrest htail
  induction as with
  | nil => exact absurd rfl hne
  | cons a as ih =>
    have ha := hitems a List.mem_cons_self
    cases as with
    | nil =>
      obtain ⟨middle, hmiddle, hend⟩ := hclose rest tail hrest htail
      obtain ⟨tokens, htokens, hitem⟩ := ha _ _ (hending rest) hmiddle
      refine ⟨tokens, ?_, .last hitem hend⟩
      have heq : commaSeparated spell [a] ++ ending ++ rest = spell a ++ (ending ++ rest) := by
        simp [commaSeparated, separatorBefore]
      rw [heq]
      exact htokens
    | cons other others =>
      obtain ⟨middle, hmiddle, hmore⟩ := ih (List.cons_ne_nil _ _)
        fun a h => hitems a (List.mem_cons_of_mem _ h)
      have hcomma : Tokenized (", ".toList ++ _) _ := hmiddle.symbolSpace .comma
      obtain ⟨tokens, htokens, hitem⟩ := ha _ _ (.text rfl) hcomma
      refine ⟨tokens, ?_, .more hitem hmore⟩
      have heq : commaSeparated spell (a :: other :: others) ++ ending ++ rest =
          spell a ++ (", ".toList ++ (commaSeparated spell (other :: others) ++ ending ++ rest)) := by
        conv_lhs => unfold commaSeparated
        simp only [List.append_assoc]
        rfl
      rw [heq]
      exact htokens

theorem arrayEnd (size : ArraySize) : Writes Grammar.ArrayEnd size.ending size := by
  intro rest tail _ htail
  have hclose := (htail.symbol .closeBracket).space
  cases size with
  | exact => exact ⟨_, hclose, .exact (.inl rfl)⟩
  | repeating => exact ⟨_, (hclose.symbol .ellipsis).space.symbol .comma, .repeating (.inr rfl)⟩

theorem braceEnd : Writes Grammar.BraceEnd " \x7d".toList () := by
  intro rest tail _ htail
  exact ⟨_, (htail.symbol .closeBrace).space, .brace (.inl rfl)⟩

end Writes

/-! ## Nodes -/

namespace Node

/-- The characters of a field. -/
def spellField (f : Field Node) : List Char :=
  keyCharacters f.name ++ (if f.isOptional then ['?'] else []) ++ ": ".toList ++ f.node.characters ++
    defaultCharacters f.default?

/-- The characters of an alternative. -/
def spellAlternative (a : Alternative Node) : List Char :=
  a.key.literalCharacters ++ ": ".toList ++ a.node.characters

theorem elementCharacters_eq (elements : List Node) :
    elementCharacters elements = commaSeparated characters elements := by
  induction elements with
  | nil => rfl
  | cons n elements ih =>
    unfold elementCharacters commaSeparated
    rw [ih]

theorem characters_array (elements : List Node) (size : ArraySize) :
    (Node.array elements size).characters =
      "[ ".toList ++ commaSeparated characters elements ++ size.ending := by
  rw [← elementCharacters_eq]
  cases size with
  | exact =>
    unfold characters
    rfl
  | repeating =>
    unfold characters
    rfl

theorem fieldCharacters_eq (fields : List (Field Node)) :
    fieldCharacters fields = commaSeparated spellField fields := by
  induction fields with
  | nil => rfl
  | cons f fields ih =>
    unfold fieldCharacters commaSeparated
    rw [ih]
    rfl

theorem alternativeCharacters_eq (alternatives : List (Alternative Node)) :
    alternativeCharacters alternatives = commaSeparated spellAlternative alternatives := by
  induction alternatives with
  | nil => rfl
  | cons a alternatives ih =>
    unfold alternativeCharacters commaSeparated
    rw [ih]
    rfl

end Node

/-- The parts of a node that fits have one level less to fit. -/
theorem Grammar.Fits.part {levels : Nat} {node m : Node} (h : Grammar.Fits (levels + 1) node)
    (hm : m.Part node) : Grammar.Fits levels m := by
  refine ⟨?_, fun k hk => h.2 k (hm.mem_subnodes hk)⟩
  have hdepth := h.1
  cases hm with
  | element hm => exact Node.depthAll_le.1 (Nat.le_of_succ_le_succ hdepth) _ hm
  | field hf => exact Node.depthFields_le.1 (Nat.le_of_succ_le_succ hdepth) _ hf
  | entry => exact Nat.le_of_succ_le_succ hdepth
  | alternative ha => exact Node.depthAlternatives_le.1 (Nat.le_of_succ_le_succ hdepth) _ ha

namespace Writes

section Nodes

variable {value : Rule Node}

theorem field {f : Field Node} (hnode : Writes value f.node.characters f.node)
    (hdefault : ∀ v, f.default? = some v → v.IsLiteral) :
    Writes (Grammar.FieldRule value) (Node.spellField f) f := by
  intro rest tail hrest htail
  obtain ⟨_, htail, hdefault⟩ := default hdefault rest tail hrest htail
  obtain ⟨_, htail, hnode⟩ := hnode _ _ (delimited_default hrest) htail
  have hcolon : Tokenized (": ".toList ++ _) _ := htail.symbolSpace .colon
  obtain ⟨_, hmarked, hmark⟩ := optionalMark f.isOptional _ _ (.text rfl) hcolon
  have hdelimited : ∀ others,
      Delimited ((if f.isOptional then ['?'] else []) ++ (": ".toList ++ others)) := by
    cases f.isOptional
    · exact fun _ => .text rfl
    · exact fun _ => .cons (by decide)
  obtain ⟨tokens, htokens, hkey⟩ := key f.name _ _ (hdelimited _) hmarked
  refine ⟨tokens, ?_, .field hkey hmark hnode hdefault⟩
  unfold Node.spellField
  simpa only [List.append_eq, List.append_assoc] using htokens

theorem alternative {a : Alternative Node} (hkey : a.key.isDiscriminant = true)
    (hnode : Writes value a.node.characters a.node) :
    Writes (Grammar.AlternativeRule value) (Node.spellAlternative a) a := by
  intro rest tail hrest htail
  obtain ⟨_, htail, hnode⟩ := hnode rest tail hrest htail
  have hcolon : Tokenized (": ".toList ++ _) _ := htail.symbolSpace .colon
  obtain ⟨tokens, htokens, hkey⟩ := alternativeKey hkey _ _ (.text rfl) hcolon
  refine ⟨tokens, ?_, .alternative hkey hnode⟩
  unfold Node.spellAlternative
  simpa only [List.append_eq, List.append_assoc] using htokens

/-- A node is written if its parts are. -/
theorem node {node : Node} (h : node.Formed)
    (hparts : ∀ m, m.Part node → Writes value m.characters m) :
    Writes (Grammar.ValueRule value) node.characters node := by
  intro rest tail hrest htail
  cases node with
  | any => exact ⟨_, htail.keyword .undef hrest, .any⟩
  | primitive kind =>
    obtain ⟨k, hk⟩ := h
    refine ⟨_, ?_, .primitive hk⟩
    unfold Node.characters
    rw [← Keyword.text_eq_typeName hk]
    exact htail.keyword k hrest
  | literal v =>
    obtain ⟨tokens, htokens, hv⟩ := literal h rest tail hrest htail
    exact ⟨tokens, htokens, .literal hv⟩
  | array elements size =>
    have helements : ∀ n ∈ elements, Writes value n.characters n := fun n hn => hparts n (.element hn)
    obtain ⟨_, htokens, hlisted⟩ :=
      listed (arrayEnd size) size.delimited_ending h helements rest tail hrest htail
    have hopen : Tokenized ("[ ".toList ++ _) _ := htokens.symbolSpace .openBracket
    refine ⟨_, ?_, .array hlisted⟩
    rw [Node.characters_array]
    simpa only [List.append_eq, List.append_assoc] using hopen
  | map fields =>
    obtain ⟨_, htokens, hlisted⟩ := listed braceEnd (fun _ => .text rfl) h.1
      (fun f hf => field (hparts _ (.field hf)) (h.2 f hf)) rest tail hrest htail
    have hopen : Tokenized ("\x7b ".toList ++ _) _ := htokens.symbolSpace .openBrace
    refine ⟨_, ?_, .map hlisted⟩
    unfold Node.characters
    rw [Node.fieldCharacters_eq]
    simpa only [List.append_eq, List.append_assoc] using hopen
  | dictionary entry =>
    have hclose : Tokenized (" \x7d".toList ++ _) _ := (htail.symbol .closeBrace).space
    obtain ⟨_, htokens, hentry⟩ := hparts entry .entry _ _ (.text rfl) hclose
    have hopen : Tokenized ("\x7b $: ".toList ++ _) _ :=
      ((htokens.symbolSpace .colon).symbol .dollar).symbolSpace .openBrace
    refine ⟨_, ?_, .dictionary hentry⟩
    unfold Node.characters
    simpa only [List.append_eq, List.append_assoc] using hopen
  | selector discriminant alternatives =>
    obtain ⟨_, htokens, hlisted⟩ := listed braceEnd (fun _ => .text rfl) h.1
      (fun a ha => alternative (h.2 a ha) (hparts _ (.alternative ha))) rest tail hrest htail
    have hopen : Tokenized (" \x7b ".toList ++ _) _ := (htokens.symbolSpace .openBrace).space
    obtain ⟨_, htokens, hkey⟩ := key discriminant _ _ (.text rfl) hopen
    have hselect : Tokenized ("select ".toList ++ _) _ :=
      htokens.space.keyword .select (.cons (by decide))
    refine ⟨_, ?_, .selector hkey hlisted⟩
    unfold Node.characters
    rw [Node.alternativeCharacters_eq]
    simpa only [List.append_eq, List.append_assoc] using hselect
  | reference name =>
    obtain ⟨tokens, htokens, hname⟩ := Writes.name h rest tail hrest htail
    exact ⟨_, htokens.symbol .ampersand, .reference hname⟩

end Nodes

/-- **The text of a node that fits is derived as the node.** -/
theorem value (depth : Nat) {node : Node} (h : Grammar.Fits depth node) :
    Writes (Grammar.Value depth) node.characters node := by
  induction depth generalizing node with
  | zero =>
    have hdepth := h.1
    cases node <;> exact absurd hdepth (Nat.not_succ_le_zero _)
  | succ depth ih => exact .node (h.2 node node.mem_subnodes_self) fun m hm => ih (h.part hm)

end Writes

/-! ## Equality with itself -/

namespace Node

theorem equalAll_self {ns : List Node} (h : ∀ n ∈ ns, n.equal n = true) : equalAll ns ns = true := by
  induction ns with
  | nil => simp [equalAll]
  | cons n ns ih =>
    obtain ⟨hn, hns⟩ := List.forall_mem_cons.1 h
    simp [equalAll, hn, ih hns]

theorem equalFields_self {fs : List (Field Node)} (h : ∀ f ∈ fs, f.node.equal f.node = true)
    (hdefault : ∀ f ∈ fs, ∀ v, f.default? = some v → v.IsLiteral) : equalFields fs fs = true := by
  induction fs with
  | nil => simp [equalFields]
  | cons f fs ih =>
    obtain ⟨hf, hfs⟩ := List.forall_mem_cons.1 h
    obtain ⟨hv, hothers⟩ := List.forall_mem_cons.1 hdefault
    have hsame : Field.equalDefault f.default? f.default? = true := by
      cases hd : f.default? with
      | none => rfl
      | some v => exact (hv v hd).equal_self
    obtain ⟨name, node, isOptional, default?⟩ := f
    simp [equalFields, hf, hsame, ih hfs hothers]

theorem equalAlternatives_self {xs : List (Alternative Node)}
    (h : ∀ a ∈ xs, a.node.equal a.node = true) (hkey : ∀ a ∈ xs, a.key.isDiscriminant = true) :
    equalAlternatives xs xs = true := by
  induction xs with
  | nil => simp [equalAlternatives]
  | cons a xs ih =>
    obtain ⟨ha, hxs⟩ := List.forall_mem_cons.1 h
    obtain ⟨hk, hothers⟩ := List.forall_mem_cons.1 hkey
    have hsame : a.key.equal a.key = true := (Value.equal_iff_of_isDiscriminant hk).2 rfl
    obtain ⟨key, node⟩ := a
    simp [equalAlternatives, ha, hsame, ih hxs hothers]

/-- A tree without `nan` equals itself. -/
theorem equal_self {levels : Nat} {node : Node} (h : Grammar.Fits levels node) :
    node.equal node = true := by
  induction levels generalizing node with
  | zero =>
    have hdepth := h.1
    cases node <;> exact absurd hdepth (Nat.not_succ_le_zero _)
  | succ levels ih =>
    have hformed := h.2 node node.mem_subnodes_self
    have hparts : ∀ m, Part m node → equal m m = true := fun m hm => ih (h.part hm)
    unfold equal
    cases node with
    | any => rfl
    | primitive kind => exact beq_self_eq_true kind
    | literal v => exact Value.IsLiteral.equal_self hformed
    | array elements size =>
      have helements := equalAll_self fun n hn => hparts n (.element hn)
      simp [helements]
    | map fields => exact equalFields_self (fun f hf => hparts _ (.field hf)) hformed.2
    | dictionary entry => exact hparts entry .entry
    | selector discriminant alternatives =>
      have halternatives :=
        equalAlternatives_self (fun a ha => hparts _ (.alternative ha)) hformed.2
      simp [halternatives]
    | reference name => exact beq_self_eq_true name

end Node

/-! ## Declarations -/

/-- The bodies are those that the arrow of the access leaves room for. -/
def Resource.Declared (r : Resource) : Prop :=
  match r.access with
  | .post => True
  | .get => r.request = .any
  | .put => r.response = .any
  | .getPut | .getPutDelete => r.response = r.request

/-- The characters of a resource behind its name. -/
def Resource.arrowCharacters (r : Resource) : List Char :=
  match r.access with
  | .post => "\n-> ".toList ++ r.request.characters ++ "\n<- ".toList ++ r.response.characters
  | .get => " << ".toList ++ r.response.characters
  | .put | .getPut | .getPutDelete => ' ' :: r.access.arrow.toList ++ ' ' :: r.request.characters

theorem Resource.characters_eq (r : Resource) :
    r.characters = "%% ".toList ++ r.name.toList ++ r.arrowCharacters := rfl

/-- The characters of a declaration, without the end of its line. -/
def Grammar.Declaration.characters : Grammar.Declaration → List Char
  | .resource r => r.characters
  | .definition name node => '&' :: name.toList ++ " = ".toList ++ node.characters

/-- A resource that is declared has bodies by its arrow. -/
theorem Grammar.Suite.declared {depth : Nat} {tokens : List Token} {ds : List Grammar.Declaration}
    (h : Grammar.Suite depth tokens ds) {r : Resource} (hr : .resource r ∈ ds) : r.Declared := by
  induction h with
  | endOfInput => cases hr
  | declaration hd _ ih =>
    rcases List.mem_cons.1 hr with rfl | hr
    · cases hd with
      | resource _ harrow =>
        cases harrow with
        | post => trivial
        | get => rfl
        | put => rfl
        | getPut => rfl
        | getPutDelete => rfl
    · exact ih hr

namespace Writes

/-- An arrow with one body behind it. -/
theorem arrowBody {value : Rule Node} {node : Node} {x : Access × Node × Node} (s : Symbol)
    (hnode : Writes value node.characters node) (harrow : ∀ tokens rest, value tokens node rest →
      Grammar.Arrow value (.symbol s :: tokens) x rest) :
    Writes (Grammar.Arrow value) (' ' :: s.text.toList ++ ' ' :: node.characters) x := by
  intro rest tail hrest htail
  obtain ⟨tokens, htokens, hnode⟩ := hnode rest tail hrest htail
  have hsymbol := (htokens.symbolSpace s).space
  refine ⟨_, ?_, harrow tokens tail hnode⟩
  rw [List.append_assoc]
  exact hsymbol

theorem arrow {value : Rule Node} {r : Resource} (hdeclared : r.Declared)
    (hrequest : Writes value r.request.characters r.request)
    (hresponse : Writes value r.response.characters r.response) :
    Writes (Grammar.Arrow value) r.arrowCharacters (r.access, r.request, r.response) := by
  obtain ⟨name, access, request, response⟩ := r
  cases access with
  | post =>
    intro rest tail hrest htail
    obtain ⟨_, htokens, hresponse⟩ := hresponse rest tail hrest htail
    have hresult : Tokenized ("\n<- ".toList ++ _) _ := (htokens.symbolSpace .result).newline
    obtain ⟨_, htokens, hrequest⟩ := hrequest _ _ (.text rfl) hresult
    have hpost : Tokenized ("\n-> ".toList ++ _) _ := (htokens.symbolSpace .post).newline
    refine ⟨_, ?_, .post hrequest hresponse⟩
    unfold Resource.arrowCharacters
    simpa only [List.append_eq, List.append_assoc] using hpost
  | get =>
    obtain rfl : request = .any := hdeclared
    exact arrowBody .get hresponse fun _ _ => .get
  | put =>
    obtain rfl : response = .any := hdeclared
    exact arrowBody .put hrequest fun _ _ => .put
  | getPut =>
    obtain rfl : response = request := hdeclared
    exact arrowBody .getPut hrequest fun _ _ => .getPut
  | getPutDelete =>
    obtain rfl : response = request := hdeclared
    exact arrowBody .getPutDelete hrequest fun _ _ => .getPutDelete

theorem delimited_arrow (r : Resource) (rest : List Char) : Delimited (r.arrowCharacters ++ rest) := by
  obtain ⟨name, access, request, response⟩ := r
  cases access <;> exact .cons (by decide)

theorem resource {value : Rule Node} {r : Resource} (hname : Name.isName r.name.toList = true)
    (harrow : Writes (Grammar.Arrow value) r.arrowCharacters (r.access, r.request, r.response)) :
    Writes (Grammar.DeclarationRule value) r.characters (.resource r) := by
  intro rest tail hrest htail
  obtain ⟨_, htokens, harrow⟩ := harrow rest tail hrest htail
  obtain ⟨_, htokens, hname⟩ := Writes.name hname _ _ (delimited_arrow r rest) htokens
  have hline : Tokenized ("%% ".toList ++ _) _ := htokens.symbolSpace .resource
  refine ⟨_, ?_, .resource hname harrow⟩
  rw [Resource.characters_eq]
  simpa only [List.append_eq, List.append_assoc] using hline

theorem definition {value : Rule Node} {name : String} {node : Node}
    (hname : Name.isName name.toList = true) (hnode : Writes value node.characters node) :
    Writes (Grammar.DeclarationRule value) ('&' :: name.toList ++ " = ".toList ++ node.characters)
      (.definition name node) := by
  intro rest tail hrest htail
  obtain ⟨_, htokens, hnode⟩ := hnode rest tail hrest htail
  have hequals : Tokenized (" = ".toList ++ _) _ := (htokens.symbolSpace .equals).space
  obtain ⟨_, htokens, hname⟩ := Writes.name hname _ _ (.text rfl) hequals
  have hline := htokens.symbol .ampersand
  refine ⟨_, ?_, .definition hname hnode⟩
  simp only [List.append_assoc]
  exact hline

/-- **The text of a declaration is derived as the declaration.** -/
theorem declaration {depth : Nat} {d : Grammar.Declaration} (hfits : d.Fits depth)
    (hdeclared : ∀ r, d = .resource r → r.Declared) :
    Writes (Grammar.DeclarationRule (Grammar.Value depth)) d.characters d := by
  obtain ⟨hname, hnodes⟩ := hfits
  cases d with
  | resource r =>
    have hrequest := hnodes r.request List.mem_cons_self
    have hresponse := hnodes r.response (List.mem_cons_of_mem _ List.mem_cons_self)
    exact resource hname (arrow (hdeclared r rfl) (value depth hrequest) (value depth hresponse))
  | definition name node => exact definition hname (value depth (hnodes node (List.mem_singleton_self _)))

/-- Declarations that are written on lines of their own make up a suite. -/
theorem suite {depth : Nat} {ds : List Grammar.Declaration}
    (h : ∀ d ∈ ds, Writes (Grammar.DeclarationRule (Grammar.Value depth)) d.characters d) :
    ∃ tokens, Tokenized (ds.flatMap fun d => d.characters ++ ['\n']) tokens ∧
      Grammar.Suite depth tokens ds := by
  induction ds with
  | nil => exact ⟨_, .endOfInput, .endOfInput⟩
  | cons d ds ih =>
    obtain ⟨hd, hds⟩ := List.forall_mem_cons.1 h
    obtain ⟨others, hothers, hsuite⟩ := ih hds
    obtain ⟨tokens, htokens, hderived⟩ := hd _ _ (.cons (by decide)) hothers.newline
    refine ⟨tokens, ?_, .declaration hderived hsuite⟩
    rw [List.flatMap_cons, List.append_assoc]
    exact htokens

end Writes

/-! ## Suites -/

/-- The declarations of the text of a suite, in the order of their lines. -/
def Suite.declarations (s : Suite) : List Grammar.Declaration :=
  (s.definitions.flatMap fun e => e.2.map (.definition e.1)) ++ s.resources.map fun e => .resource e.2

/-- The text of a suite has a line, or a few, for each of its declarations. -/
theorem Suite.characters_eq (s : Suite) :
    s.characters = s.declarations.flatMap fun d => d.characters ++ ['\n'] := by
  unfold characters declarations Definitions.characters Definitions.declarationCharacters
  rw [List.flatMap_append, List.flatMap_assoc, List.flatMap_map]
  simp only [List.flatMap_map]
  rfl

namespace Collects

variable {ds : List Grammar.Declaration} {s : Suite}

/-- A resource stands at its name. -/
theorem name_eq (h : Collects ds s.resources s.definitions) {e : String × Resource}
    (he : e ∈ s.resources) : e.2.name = e.1 :=
  ((h.resource_iff e.1 e.2).1 (Entries.get?_of_mem h.resources_sorted.nodup_keys he)).2

/-- What the text of a suite declares has been declared. -/
theorem mem_of_declarations (h : Collects ds s.resources s.definitions) {d : Grammar.Declaration}
    (hd : d ∈ s.declarations) : d ∈ ds := by
  rcases List.mem_append.1 hd with hd | hd
  · obtain ⟨e, he, hd⟩ := List.mem_flatMap.1 hd
    obtain ⟨node, hnode, rfl⟩ := List.mem_map.1 hd
    refine h.exists_definition ?_
    unfold Definitions.nodes
    rw [Entries.get?_of_mem h.definitions_sorted.nodup_keys he]
    exact hnode
  · obtain ⟨e, he, rfl⟩ := List.mem_map.1 hd
    exact ((h.resource_iff e.1 e.2).1 (Entries.get?_of_mem h.resources_sorted.nodup_keys he)).1

theorem resourceNames_declarations (h : Collects ds s.resources s.definitions) :
    Grammar.resourceNames s.declarations = s.resources.map Prod.fst := by
  have hdefinitions : (s.definitions.flatMap fun e =>
      e.2.map (Grammar.Declaration.definition e.1)).filterMap Grammar.Declaration.resource? = [] := by
    refine List.filterMap_eq_nil_iff.2 fun d hd => ?_
    obtain ⟨e, -, hd⟩ := List.mem_flatMap.1 hd
    obtain ⟨node, -, rfl⟩ := List.mem_map.1 hd
    rfl
  have hresources : (s.resources.map fun e => Grammar.Declaration.resource e.2).filterMap
      Grammar.Declaration.resource? = s.resources.map Prod.snd := by
    rw [List.filterMap_map]
    exact congrFun (List.filterMap_eq_map' (f := Prod.snd)) s.resources
  unfold Grammar.resourceNames Suite.declarations
  rw [List.filterMap_append, hdefinitions, hresources, List.nil_append, List.map_map]
  exact List.map_congr_left fun e he => h.name_eq he

/-- The definitions of a name stand in the text in their order. -/
theorem filterMap_definitionOf {definitions : Definitions}
    (hsorted : (definitions.map Prod.fst).Nodup) (name : String) :
    (definitions.flatMap fun e => e.2.map (Grammar.Declaration.definition e.1)).filterMap
      (Grammar.Declaration.definitionOf? name) = definitions.nodes name := by
  unfold Definitions.nodes
  induction definitions with
  | nil => rfl
  | cons e definitions ih =>
    obtain ⟨hother, hsorted⟩ := List.nodup_cons.1 hsorted
    rw [List.flatMap_cons, List.filterMap_append, ih hsorted, List.filterMap_map, Entries.get?_cons]
    by_cases heq : name = e.1
    · rw [if_pos heq]
      subst heq
      have hnone : Entries.get? definitions e.1 = none :=
        Entries.get?_eq_none.2 fun e' he' heq => hother (heq ▸ List.mem_map_of_mem he')
      have hall : Grammar.Declaration.definitionOf? e.1 ∘ Grammar.Declaration.definition e.1 = some :=
        funext fun node => if_pos rfl
      rw [hnone, hall, List.filterMap_some]
      exact List.append_nil _
    · rw [if_neg heq]
      have hnone : Grammar.Declaration.definitionOf? name ∘ Grammar.Declaration.definition e.1 =
          fun _ => none := funext fun node => if_neg (Ne.symm heq)
      rw [hnone, List.filterMap_none, List.nil_append]

/-- **The text of a suite declares what makes up the suite.** -/
theorem declarations (h : Collects ds s.resources s.definitions) :
    Collects s.declarations s.resources s.definitions where
  resources_sorted := h.resources_sorted
  definitions_sorted := h.definitions_sorted
  resource_iff := by
    intro name r
    constructor
    · intro hr
      have hmem := Entries.mem_of_get? hr
      refine ⟨List.mem_append_right _ (List.mem_map.2 ⟨_, hmem, rfl⟩), ?_⟩
      exact h.name_eq hmem
    · rintro ⟨hr, hname⟩
      exact (h.resource_iff name r).2 ⟨h.mem_of_declarations hr, hname⟩
  nodes_eq := by
    intro name
    have hresources : (s.resources.map fun e => Grammar.Declaration.resource e.2).filterMap
        (Grammar.Declaration.definitionOf? name) = [] := by
      refine List.filterMap_eq_nil_iff.2 fun d hd => ?_
      obtain ⟨e, -, rfl⟩ := List.mem_map.1 hd
      rfl
    unfold Suite.declarations
    rw [List.filterMap_append, filterMap_definitionOf h.definitions_sorted.nodup_keys, hresources,
      List.append_nil]
  inhabited := h.inhabited

end Collects

theorem Suite.equalResources_self {resources : Entries Resource}
    (h : ∀ e ∈ resources, e.2.equal e.2 = true) : equalResources resources resources = true := by
  induction resources with
  | nil => rfl
  | cons e resources ih =>
    obtain ⟨he, hresources⟩ := List.forall_mem_cons.1 h
    simp [equalResources, he, ih hresources]

theorem Definitions.equal_self {definitions : Definitions}
    (h : ∀ e ∈ definitions, ∀ n ∈ e.2, n.equal n = true) : definitions.equal definitions = true := by
  induction definitions with
  | nil => rfl
  | cons e definitions ih =>
    obtain ⟨he, hdefinitions⟩ := List.forall_mem_cons.1 h
    simp [equal, Node.equalAll_self he, ih hdefinitions]

/-- A suite the bodies and definitions of which fit equals itself. -/
theorem Suite.equal_self {s : Suite} {depth : Nat} (h : ∀ d ∈ s.declarations, d.Fits depth) :
    s.equal s = true := by
  have hresources : ∀ e ∈ s.resources, e.2.equal e.2 = true := by
    intro e he
    obtain ⟨-, hnodes⟩ := h _ (List.mem_append_right _ (List.mem_map_of_mem he))
    have hrequest := Node.equal_self (hnodes e.2.request List.mem_cons_self)
    have hresponse :=
      Node.equal_self (hnodes e.2.response (List.mem_cons_of_mem _ List.mem_cons_self))
    simp [Resource.equal, hrequest, hresponse]
  have hdefinitions : ∀ e ∈ s.definitions, ∀ n ∈ e.2, n.equal n = true := by
    intro e he n hn
    have hmem : Grammar.Declaration.definition e.1 n ∈ s.declarations :=
      List.mem_append_left _ (List.mem_flatMap.2 ⟨e, he, List.mem_map_of_mem hn⟩)
    exact Node.equal_self ((h _ hmem).2 n (List.mem_singleton_self n))
  simp [equal, equalResources_self hresources, Definitions.equal_self hdefinitions]

/-! ## Whole texts -/

theorem Schema.equal_self {s : Schema} {depth : Nat} (h : Grammar.Fits depth s.node) :
    s.equal s = true := by
  simp [equal, Node.equal_self h]

theorem Schema.ofText_text {text : String} {maxDepth : Nat} {s : Schema}
    (h : Schema.ofText text maxDepth = .ok s) :
    Schema.ofText s.text maxDepth = .ok s ∧ s.equal s = true := by
  obtain ⟨start, rest, hstart, hrun⟩ := Parser.run_ok_iff.1 h
  have hproper := Parser.start_proper hstart
  have hfits := Parser.schema_fits hproper hrun
  obtain ⟨hdepth, -, hdistinct, hresolved⟩ :=
    (Parser.schema_iff hproper (Parser.start_checks hstart) s).1 ⟨rest, hrun⟩
  obtain ⟨tokens, htokens, hderived⟩ :=
    Writes.value maxDepth hfits [] [.endOfInput] .nil .endOfInput
  have htext : s.text.toList = s.node.characters ++ [] := by
    rw [List.append_nil]
    exact String.toList_ofList
  rw [← htext] at htokens
  refine ⟨(Schema.ofText_iff htokens.lexed maxDepth s).2 ⟨hdepth, hderived, hdistinct, hresolved⟩, ?_⟩
  exact s.equal_self hfits

theorem Suite.ofText_text {text : String} {maxDepth : Nat} {s : Suite}
    (h : Suite.ofText text maxDepth = .ok s) :
    Suite.ofText s.text maxDepth = .ok s ∧ s.equal s = true := by
  obtain ⟨start, rest, hstart, hrun⟩ := Parser.run_ok_iff.1 h
  have hproper := Parser.start_proper hstart
  obtain ⟨hdepth, ds, hderived, -, hcollects, hnodes, hacyclic⟩ :=
    (Parser.suite_iff hproper (Parser.start_checks hstart) s).1 ⟨rest, hrun⟩
  have hfits : ∀ d ∈ s.declarations, d.Fits maxDepth := fun d hd =>
    hderived.fits hproper.lexical_tokens d (hcollects.mem_of_declarations hd)
  have hwrites : ∀ d ∈ s.declarations,
      Writes (Grammar.DeclarationRule (Grammar.Value maxDepth)) d.characters d := by
    intro d hd
    refine .declaration (hfits d hd) fun r hr => hderived.declared (r := r) ?_
    exact hr ▸ hcollects.mem_of_declarations hd
  obtain ⟨tokens, htokens, hsuite⟩ := Writes.suite hwrites
  have htext : s.text.toList = s.characters := String.toList_ofList
  rw [← Suite.characters_eq, ← htext] at htokens
  have hnames : (Grammar.resourceNames s.declarations).Nodup := by
    rw [hcollects.resourceNames_declarations]
    exact hcollects.resources_sorted.nodup_keys
  refine ⟨(Suite.ofText_iff htokens.lexed maxDepth s).2 ?_, s.equal_self hfits⟩
  exact ⟨hdepth, s.declarations, hsuite, hnames, hcollects.declarations,
    fun d hd => hnodes d (hcollects.mem_of_declarations hd), hacyclic⟩

/-- **What is written of a schema or a suite reads back as the same.** Of every text that is read as a
schema, the text of that schema is read, with as many levels, as the same tree; and of every text that is
read as a suite, the text of that suite is read as the same resources with their accesses and bodies, and
the same definitions, the nodes of each name in the same order. Either equals itself, so what is read
back equals what was written. -/
theorem Parser.reads_written (text : String) (maxDepth : Nat) :
    (∀ s : Schema, Schema.ofText text maxDepth = .ok s →
      Schema.ofText s.text maxDepth = .ok s ∧ s.equal s = true) ∧
    ∀ s : Suite, Suite.ofText text maxDepth = .ok s →
      Suite.ofText s.text maxDepth = .ok s ∧ s.equal s = true :=
  ⟨fun _ => Schema.ofText_text, fun _ => Suite.ofText_text⟩

/-- A key that is spelled like a keyword, a negative default and a comma at the end; a resource, and a name
with two definitions. -/
theorem Parser.reads_written_keyword :
    let s : Schema := { node := .map [⟨"true", .primitive .integer, true, some (.integer (-1))⟩] }
    let t : Suite :=
      { resources := [("r", ⟨"r", .getPutDelete, .reference "t", .reference "t"⟩)],
        definitions := [("t", [.array [.primitive .integer] .repeating, .dictionary .any])] }
    (Schema.ofText "\x7btrue?:int=-1,\x7d" = .ok s ∧ s.text = "\x7b true?: int = -1 \x7d" ∧
      Schema.ofText s.text = .ok s ∧ s.equal s = true) ∧
    Suite.ofText "&t=[int...]%%r<x>&t &t=\x7b$:undef\x7d" = .ok t ∧
      t.text = "&t = [ int, ... ]\n&t = \x7b $: undef \x7d\n%% r <x> &t\n" ∧
      Suite.ofText t.text = .ok t ∧ t.equal t = true := by
  intro s t
  have hs : Schema.ofText "\x7btrue?:int=-1,\x7d" = .ok s := rfl
  have ht : Suite.ofText "&t=[int...]%%r<x>&t &t=\x7b$:undef\x7d" = .ok t := rfl
  exact ⟨⟨hs, rfl, (reads_written _ _).1 s hs⟩, ht, rfl, (reads_written _ _).2 t ht⟩

end Conformance
