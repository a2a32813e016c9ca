import Conformance.Proofs.Declared

/-!
# What is derived is read

Where tokens derive something by a rule of the grammar, the rule of the reader that stands for it succeeds
with just that and stops behind it. The one condition is that no name and no key is repeated. Each member
of a list takes a token, so the bound for their number is never reached.

* `Parser.Finds` — a rule of the reader finds what is derived.
* `Parser.Finds.value` — a value that is derived is read.
* `Parser.declarations_of_suite` — declarations that are derived are read.
-/

set_option autoImplicit false

namespace Conformance

namespace Parser

open Grammar (Listed ArrayEnd BraceEnd FieldRule AlternativeRule ValueRule Shortens NeverBegins)

variable {α β : Type}

/-- What is derived, with something left behind it, is what the rule gives. -/
def Finds (p : Parser α) (rule : Rule α) (P : α → Prop) : Prop :=
  ∀ s a token rest, rule s.tokens a (token :: rest) → P a →
    ∃ t, Runs p s a t ∧ t.tokens = token :: rest

theorem bind_current {f : Token → Parser β} {s : State} {token : Token} (h : s.current = token) :
    (Parser.current >>= f) s = f token s := bind_of_ok (h ▸ rfl)

theorem bind_position {f : Position → Parser β} {s : State} :
    (Parser.position >>= f) s = f s.position s := rfl

theorem bind_listBound {f : Nat → Parser β} {s : State} :
    (Parser.listBound >>= f) s = f (s.rest.length + 1) s := rfl

/-! ## Single tokens -/

theorem accept_found {s : State} {symbol : Symbol} {token : Token} {rest : List Token}
    (h : s.tokens = .symbol symbol :: token :: rest) :
    ∃ t, Runs (accept symbol) s true t ∧ t.tokens = token :: rest := by
  obtain ⟨t, hadvance, htokens, -⟩ := advance_of_tokens h
  refine ⟨t, ?_, htokens⟩
  unfold Runs accept
  rw [bind_current (State.current_of_tokens h), if_pos rfl, bind_of_ok hadvance]
  rfl

theorem accept_missing {s : State} {symbol : Symbol} (h : s.current ≠ .symbol symbol) :
    Runs (accept symbol) s false s := by
  unfold Runs accept
  rw [bind_current rfl, if_neg h]
  rfl

theorem expect_found {s : State} {symbol : Symbol} {fault : Fault} {token : Token} {rest : List Token}
    (h : s.tokens = .symbol symbol :: token :: rest) :
    ∃ t, Runs (expect symbol fault) s () t ∧ t.tokens = token :: rest := by
  obtain ⟨t, hadvance, htokens, -⟩ := advance_of_tokens h
  refine ⟨t, ?_, htokens⟩
  unfold Runs expect
  rw [bind_current (State.current_of_tokens h), if_pos rfl]
  exact hadvance

theorem another_more {s : State} {token : Token} {rest : List Token}
    (h : s.tokens = .symbol .comma :: token :: rest) (hmore : token ≠ .symbol .closeBrace) :
    ∃ t, Runs another s true t ∧ t.tokens = token :: rest := by
  obtain ⟨t, hcomma, htokens⟩ := accept_found h
  refine ⟨t, ?_, htokens⟩
  unfold Runs another
  have hclose := accept_missing (State.current_of_tokens htokens ▸ hmore)
  rw [bind_of_ok hcomma, if_pos rfl, bind_of_ok hclose]
  rfl

theorem another_last {s : State} {token : Token} {rest : List Token}
    (h : BraceEnd s.tokens () (token :: rest)) :
    ∃ t, Runs another s false t ∧ t.tokens = token :: rest := by
  obtain ⟨h⟩ := h
  unfold Runs another
  rcases h with h | h
  · obtain ⟨t, hexpect, htokens⟩ := expect_found h
    refine ⟨t, ?_, htokens⟩
    have hcomma : s.current ≠ .symbol .comma := State.current_of_tokens h ▸ nofun
    rw [bind_of_ok (accept_missing hcomma), if_neg Bool.false_ne_true, bind_of_ok hexpect]
    rfl
  · obtain ⟨u, hcomma, htokens⟩ := accept_found h
    obtain ⟨t, hclose, htokens⟩ := accept_found htokens
    refine ⟨t, ?_, htokens⟩
    rw [bind_of_ok hcomma, if_pos rfl, bind_of_ok hclose]
    rfl

theorem Finds.name : Finds Parser.name Grammar.Name fun _ => True := by
  intro s name token rest h _
  obtain ⟨first, htokens, hname⟩ : ∃ first, s.tokens = first :: token :: rest ∧
      first.name? = some name := by
    generalize hs : s.tokens = tokens at h
    cases h with
    | name => exact ⟨_, rfl, rfl⟩
    | keyword => exact ⟨_, rfl, rfl⟩
  obtain ⟨t, hadvance, ht, -⟩ := advance_of_tokens htokens
  refine ⟨t, ?_, ht⟩
  unfold Runs Parser.name
  rw [bind_current (State.current_of_tokens htokens), hname]
  dsimp only
  rw [bind_of_ok hadvance]
  rfl

theorem Finds.key : Finds Parser.key Grammar.Key fun _ => True := by
  intro s key token rest h _
  generalize hs : s.tokens = tokens at h
  cases h with
  | name h =>
    obtain ⟨t, hname, ht⟩ := Finds.name s key token rest (hs ▸ h) trivial
    refine ⟨t, ?_, ht⟩
    unfold Runs Parser.key
    cases h with
    | name =>
      rw [bind_current (State.current_of_tokens hs)]
      exact hname
    | keyword =>
      rw [bind_current (State.current_of_tokens hs)]
      exact hname
  | text =>
    obtain ⟨t, hadvance, ht, -⟩ := advance_of_tokens hs
    refine ⟨t, ?_, ht⟩
    unfold Runs Parser.key
    rw [bind_current (State.current_of_tokens hs)]
    dsimp only
    rw [bind_of_ok hadvance]
    rfl

theorem literalValue?_of_literal {token : Token} {tokens rest : List Token} {v : Value}
    (h : Grammar.Literal (token :: tokens) v rest) : literalValue? token = some v ∧ tokens = rest := by
  cases h <;> exact ⟨rfl, rfl⟩

theorem Finds.literal : Finds Parser.literal Grammar.Literal fun _ => True := by
  intro s v token rest h _
  obtain ⟨hv, hrest⟩ := literalValue?_of_literal h
  obtain ⟨t, hadvance, ht, -⟩ := advance_of_tokens (congrArg (List.cons s.current) hrest)
  refine ⟨t, ?_, ht⟩
  unfold Runs Parser.literal
  rw [bind_current rfl, hv]
  dsimp only
  rw [bind_of_ok hadvance]
  rfl

/-- Something is left where a rule that takes tokens applies. -/
theorem exists_token {rule : Rule α} (h : Shortens rule) {tokens rest : List Token} {a : α}
    (hrule : rule tokens a rest) : ∃ token more, tokens = token :: more := by
  cases tokens with
  | nil => exact absurd (h _ _ _ hrule) (Nat.not_lt_zero _)
  | cons token more => exact ⟨token, more, rfl⟩

/-- A bound that is enough for the tokens leaves a turn for the rule and is enough for the rest. -/
theorem exists_bound {rule : Rule α} (h : Shortens rule) {tokens rest : List Token} {a : α}
    (hrule : rule tokens a rest) {bound : Nat} (hbound : tokens.length ≤ bound) :
    ∃ n, bound = n + 1 ∧ rest.length ≤ n := by
  have hlength := h _ _ _ hrule
  exact ⟨bound - 1, by omega, by omega⟩

/-- Keys that are new and differ from one more key are new when that one is taken. -/
theorem fresh_cons {key : α → β} {a : α} {as : List α} {before : List β} (hother : key a ∉ as.map key)
    (hfresh : ∀ e ∈ as, key e ∉ before) : ∀ e ∈ as, key e ∉ key a :: before := by
  intro e he hmem
  rcases List.mem_cons.1 hmem with heq | hmem
  · exact hother (List.mem_map.2 ⟨e, he, heq⟩)
  · exact hfresh e he hmem

/-- The comma that may be there is taken before the end is looked at. -/
theorem optionalComma_found {s : State} {symbol : Symbol} {token : Token} {rest : List Token}
    (h : Grammar.OptionalComma s.tokens (.symbol symbol :: token :: rest)) (hne : symbol ≠ .comma) :
    ∃ comma t, Runs (accept .comma) s comma t ∧ t.tokens = .symbol symbol :: token :: rest := by
  rcases h with h | h
  · refine ⟨false, s, accept_missing ?_, h⟩
    rw [State.current_of_tokens h]
    exact fun heq => hne (Token.symbol.inj heq)
  · obtain ⟨t, haccept, ht⟩ := accept_found h
    exact ⟨true, t, haccept, ht⟩

namespace Finds

section Parts

variable {rule : Parser Node} {value : Rule Node} (hshort : Shortens value)
  (hrule : Finds rule value Node.AllDistinct)

include hshort hrule

/-! ## Arrays -/

theorem elements (hbracket : NeverBegins value .closeBracket) (hellipsis : NeverBegins value .ellipsis)
    {tokens after : List Token} {found : List Node × ArraySize}
    (h : Listed value ArrayEnd tokens found after) {token : Token} {rest : List Token}
    (hafter : after = token :: rest) (hdistinct : ∀ n ∈ found.1, n.AllDistinct)
    {s : State} (hs : s.tokens = tokens) {bound : Nat} (hbound : tokens.length ≤ bound) :
    ∃ t, Runs (Parser.elements rule bound) s found t ∧ t.tokens = token :: rest := by
  induction h generalizing s bound with
  | @last tokens middle after node size hnode hend =>
    obtain ⟨bound, rfl, -⟩ := exists_bound hshort hnode hbound
    subst hafter
    obtain ⟨next, more, rfl⟩ := exists_token Grammar.ArrayEnd.shorter hend
    obtain ⟨s₁, hnode, hs₁⟩ := hrule s node next more (hs ▸ hnode) (hdistinct node List.mem_cons_self)
    unfold Runs Parser.elements
    rw [bind_of_ok hnode]
    cases hend with
    | exact hend =>
      obtain ⟨comma, s₂, haccept, hs₂⟩ := optionalComma_found (hs₁.symm ▸ hend) (by decide)
      obtain ⟨t, hadvance, ht, -⟩ := advance_of_tokens hs₂
      refine ⟨t, ?_, ht⟩
      rw [bind_of_ok haccept, bind_current (State.current_of_tokens hs₂)]
      dsimp only
      rw [bind_of_ok hadvance]
      rfl
    | repeating hend =>
      obtain ⟨comma, s₂, haccept, hs₂⟩ := optionalComma_found (hs₁.symm ▸ hend) (by decide)
      obtain ⟨s₃, hadvance, hs₃, -⟩ := advance_of_tokens hs₂
      obtain ⟨t, hexpect, ht⟩ := expect_found hs₃
      refine ⟨t, ?_, ht⟩
      rw [bind_of_ok haccept, bind_current (State.current_of_tokens hs₂)]
      dsimp only
      rw [bind_of_ok hadvance, bind_of_ok hexpect]
      rfl
  | @more tokens middle after node nodes size hnode hlisted ih =>
    obtain ⟨bound, rfl, hlength⟩ := exists_bound hshort hnode hbound
    obtain ⟨n, left, hn⟩ := hlisted.begins
    obtain ⟨next, more, rfl⟩ := exists_token hshort hn
    obtain ⟨hnodeDistinct, hnodesDistinct⟩ := List.forall_mem_cons.1 hdistinct
    obtain ⟨s₁, hnode, hs₁⟩ := hrule s node _ _ (hs ▸ hnode) hnodeDistinct
    obtain ⟨s₂, haccept, hs₂⟩ := accept_found hs₁
    obtain ⟨t, hmore, ht⟩ := ih hafter hnodesDistinct hs₂ (Nat.le_of_succ_le hlength)
    refine ⟨t, ?_, ht⟩
    unfold Runs Parser.elements
    rw [bind_of_ok hnode, bind_of_ok haccept, bind_current (State.current_of_tokens hs₂)]
    have hclose : next ≠ .symbol .closeBracket := by
      rintro rfl
      exact hbracket _ _ _ hn
    have hdots : next ≠ .symbol .ellipsis := by
      rintro rfl
      exact hellipsis _ _ _ hn
    split
    · exact absurd rfl hdots
    · exact absurd rfl hclose
    · rw [if_pos rfl, bind_of_ok hmore]
      rfl

theorem array (hbracket : NeverBegins value .closeBracket) (hellipsis : NeverBegins value .ellipsis)
    {s : State} {nodes : List Node} {size : ArraySize} {token : Token} {rest : List Token}
    (h : Listed value ArrayEnd s.tokens (nodes, size) (token :: rest))
    (hdistinct : (Node.array nodes size).AllDistinct) :
    ∃ t, Runs (Parser.array rule) s (.array nodes size) t ∧ t.tokens = token :: rest := by
  have hall : ∀ n ∈ nodes, n.AllDistinct := fun n hn => hdistinct.part (.element hn)
  obtain ⟨t, helements, ht⟩ :=
    elements hshort hrule hbracket hellipsis h rfl hall rfl s.length_tokens_le
  refine ⟨t, ?_, ht⟩
  have hclose : s.current ≠ .symbol .closeBracket := by
    intro heq
    obtain ⟨n, left, hn⟩ := h.begins
    unfold State.tokens at hn
    rw [heq] at hn
    exact hbracket _ _ _ hn
  unfold Runs Parser.array
  rw [bind_current rfl, if_neg hclose, bind_listBound, bind_of_ok helements]
  rfl

/-! ## Maps -/

omit hshort hrule in
theorem fieldDefault? {node : Node} {s : State} {default? : Option Value} {token : Token}
    {rest : List Token} (h : Grammar.Default s.tokens default? (token :: rest))
    (hequals : token ≠ .symbol .equals) :
    ∃ t, Runs (Parser.fieldDefault? node) s default? t ∧ t.tokens = token :: rest := by
  generalize hs : s.tokens = tokens at h
  cases h with
  | absent =>
    refine ⟨s, ?_, hs⟩
    unfold Runs Parser.fieldDefault?
    rw [bind_of_ok (accept_missing (State.current_of_tokens hs ▸ hequals)),
      if_neg Bool.false_ne_true]
    rfl
  | @present _ _ v h =>
    obtain ⟨first, others, rfl⟩ := exists_token Grammar.Literal.shorter h
    obtain ⟨s₁, haccept, hs₁⟩ := accept_found hs
    obtain ⟨s₂, hliteral, hs₂⟩ := Finds.literal s₁ _ _ _ (hs₁.symm ▸ h) trivial
    refine ⟨{ s₂ with checks := s₂.checks ++ [.default node v s₁.position] }, ?_, hs₂⟩
    unfold Runs Parser.fieldDefault?
    rw [bind_of_ok haccept, if_pos rfl, bind_position, bind_of_ok hliteral]
    rfl

theorem field {s : State} {f : Field Node} {token : Token} {rest : List Token}
    (h : FieldRule value s.tokens f (token :: rest)) (hequals : token ≠ .symbol .equals)
    (hdistinct : f.node.AllDistinct) :
    ∃ t, Runs (Parser.field rule) s f t ∧ t.tokens = token :: rest := by
  generalize htokens : s.tokens = tokens at h
  obtain ⟨hkey, hmark, hnode, hdefault⟩ := h
  rename_i afterKey afterMark afterNode name isOptional node default?
  obtain ⟨first, others, rfl⟩ : ∃ first others, afterKey = first :: others := by
    cases hmark <;> exact ⟨_, _, rfl⟩
  obtain ⟨second, more, rfl⟩ := exists_token hshort hnode
  obtain ⟨third, left, rfl⟩ : ∃ third left, afterNode = third :: left := by
    cases hdefault <;> exact ⟨_, _, rfl⟩
  obtain ⟨s₁, hkey, hs₁⟩ := Finds.key s name _ _ (htokens.symm ▸ hkey) trivial
  obtain ⟨s₂, haccept, hs₂⟩ : ∃ s₂, Runs (accept .question) s₁ isOptional s₂ ∧
      s₂.tokens = .symbol .colon :: second :: more := by
    cases hmark with
    | absent => exact ⟨s₁, accept_missing (State.current_of_tokens hs₁ ▸ nofun), hs₁⟩
    | present => exact accept_found hs₁
  obtain ⟨s₃, hexpect, hs₃⟩ := expect_found hs₂
  obtain ⟨s₄, hnode, hs₄⟩ := hrule s₃ node _ _ (hs₃.symm ▸ hnode) hdistinct
  obtain ⟨t, hdefault, ht⟩ := fieldDefault? (hs₄.symm ▸ hdefault) hequals
  refine ⟨t, ?_, ht⟩
  unfold Runs Parser.field
  rw [bind_of_ok hkey, bind_of_ok haccept, bind_of_ok hexpect, bind_of_ok hnode,
    bind_of_ok hdefault]
  rfl

theorem fields {tokens after : List Token} {found : List (Field Node) × Unit}
    (h : Listed (FieldRule value) BraceEnd tokens found after) {token : Token} {rest : List Token}
    (hafter : after = token :: rest) (hdistinct : ∀ f ∈ found.1, f.node.AllDistinct)
    (hnames : (found.1.map Field.name).Nodup) {before : List String}
    (hfresh : ∀ f ∈ found.1, f.name ∉ before) {s : State} (hs : s.tokens = tokens) {bound : Nat}
    (hbound : tokens.length ≤ bound) :
    ∃ t, Runs (Parser.fields rule bound before) s found.1 t ∧ t.tokens = token :: rest := by
  have hfields := FieldRule.shorter hshort
  induction h generalizing s bound before with
  | @last tokens middle after f u hf hend =>
    obtain ⟨bound, rfl, -⟩ := exists_bound hfields hf hbound
    subst hafter
    have hequals := hend.noEquals
    obtain ⟨next, more, rfl⟩ := exists_token Grammar.BraceEnd.shorter hend
    have hequals : next ≠ .symbol .equals := fun heq => hequals (congrArg some heq)
    obtain ⟨s₁, hf, hs₁⟩ := field hshort hrule (hs.symm ▸ hf) hequals (hdistinct f List.mem_cons_self)
    obtain ⟨t, hanother, ht⟩ := another_last (hs₁.symm ▸ hend)
    refine ⟨t, ?_, ht⟩
    have hname : ¬ before.contains f.name = true := by simpa using hfresh f List.mem_cons_self
    unfold Runs Parser.fields
    rw [bind_position, bind_of_ok hf, if_neg hname, bind_of_ok hanother,
      if_neg Bool.false_ne_true]
    rfl
  | @more tokens middle after f fs u hf hlisted ih =>
    obtain ⟨bound, rfl, hlength⟩ := exists_bound hfields hf hbound
    obtain ⟨g, left, hg⟩ := hlisted.begins
    obtain ⟨next, more, rfl⟩ := exists_token hfields hg
    have hclose : next ≠ .symbol .closeBrace := by
      rintro rfl
      exact Grammar.FieldRule.neverBegins value .closeBrace _ _ _ hg
    obtain ⟨hfDistinct, hfsDistinct⟩ := List.forall_mem_cons.1 hdistinct
    obtain ⟨hname, hfsFresh⟩ := List.forall_mem_cons.1 hfresh
    obtain ⟨hother, hnames⟩ := List.nodup_cons.1 hnames
    obtain ⟨s₁, hf, hs₁⟩ := field hshort hrule (hs.symm ▸ hf) (by decide) hfDistinct
    obtain ⟨s₂, hanother, hs₂⟩ := another_more hs₁ hclose
    obtain ⟨t, hmore, ht⟩ :=
      ih hafter hfsDistinct hnames (fresh_cons hother hfsFresh) hs₂ (Nat.le_of_succ_le hlength)
    refine ⟨t, ?_, ht⟩
    have hname : ¬ before.contains f.name = true := by simpa using hname
    unfold Runs Parser.fields
    rw [bind_position, bind_of_ok hf, if_neg hname, bind_of_ok hanother, if_pos rfl,
      bind_of_ok hmore]
    rfl

theorem map {s : State} {fs : List (Field Node)} {token : Token} {rest : List Token}
    (h : Listed (FieldRule value) BraceEnd s.tokens (fs, ()) (token :: rest))
    (hdistinct : (Node.map fs).AllDistinct) :
    ∃ t, Runs (Parser.map rule) s (.map fs) t ∧ t.tokens = token :: rest := by
  have hall : ∀ f ∈ fs, f.node.AllDistinct := fun f hf => hdistinct.part (.field hf)
  obtain ⟨t, hfields, ht⟩ := fields hshort hrule h rfl hall hdistinct.self
    (fun _ _ => List.not_mem_nil) rfl s.length_tokens_le
  refine ⟨t, ?_, ht⟩
  have hbegin : ∀ symbol, s.current ≠ .symbol symbol := by
    intro symbol heq
    obtain ⟨f, left, hf⟩ := h.begins
    unfold State.tokens at hf
    rw [heq] at hf
    exact Grammar.FieldRule.neverBegins value symbol _ _ _ hf
  unfold Runs Parser.map
  rw [bind_current rfl]
  cases htoken : s.current with
  | symbol symbol => exact absurd htoken (hbegin symbol)
  | _ =>
    dsimp only
    rw [bind_listBound, bind_of_ok hfields]
    rfl

theorem dictionary {s : State} {entry : Node} {tokens : List Token} {token : Token} {rest : List Token}
    (hs : s.tokens = .symbol .dollar :: .symbol .colon :: tokens)
    (h : value tokens entry (.symbol .closeBrace :: token :: rest)) (hdistinct : entry.AllDistinct) :
    ∃ t, Runs (Parser.map rule) s (.dictionary entry) t ∧ t.tokens = token :: rest := by
  obtain ⟨first, others, rfl⟩ := exists_token hshort h
  obtain ⟨s₁, hadvance, hs₁, -⟩ := advance_of_tokens hs
  obtain ⟨s₂, hcolon, hs₂⟩ := expect_found hs₁
  obtain ⟨s₃, hentry, hs₃⟩ := hrule s₂ entry _ _ (hs₂.symm ▸ h) hdistinct
  obtain ⟨t, hclose, ht⟩ := expect_found hs₃
  refine ⟨t, ?_, ht⟩
  unfold Runs Parser.map
  rw [bind_current (State.current_of_tokens hs)]
  dsimp only
  rw [bind_of_ok hadvance, bind_of_ok hcolon, bind_of_ok hentry, bind_of_ok hclose]
  rfl

/-! ## Selectors -/

omit hshort hrule in
theorem alternativeKey {s : State} {key : Value} {after : List Token}
    (h : Grammar.AlternativeKey s.tokens key after) : Runs Parser.alternativeKey s key s := by
  generalize hs : s.tokens = tokens at h
  unfold Runs Parser.alternativeKey
  cases h with
  | text =>
    rw [bind_current (State.current_of_tokens hs)]
    rfl
  | integer =>
    rw [bind_current (State.current_of_tokens hs)]
    rfl

/-- One alternative, up to what stands behind it. -/
theorem alternative {s : State} {a : Alternative Node} {token : Token} {rest : List Token}
    (h : AlternativeRule value s.tokens a (token :: rest)) (hdistinct : a.node.AllDistinct) :
    ∃ s₁ s₂ t, Runs Parser.alternativeKey s a.key s ∧ Runs advance s () s₁ ∧
      Runs (expect .colon .expectedColon) s₁ () s₂ ∧ Runs rule s₂ a.node t ∧
      t.tokens = token :: rest := by
  generalize htokens : s.tokens = tokens at h
  obtain ⟨hkey, hnode⟩ := h
  rename_i afterKey key node
  obtain ⟨first, others, rfl⟩ := exists_token hshort hnode
  have hadvance : ∃ head, tokens = head :: .symbol .colon :: first :: others := by
    cases hkey <;> exact ⟨_, rfl⟩
  obtain ⟨head, rfl⟩ := hadvance
  obtain ⟨s₁, hadvance, hs₁, -⟩ := advance_of_tokens htokens
  obtain ⟨s₂, hcolon, hs₂⟩ := expect_found hs₁
  obtain ⟨t, hnode, ht⟩ := hrule s₂ node _ _ (hs₂.symm ▸ hnode) hdistinct
  exact ⟨s₁, s₂, t, alternativeKey (htokens.symm ▸ hkey), hadvance, hcolon, hnode, ht⟩

theorem alternatives {tokens after : List Token} {found : List (Alternative Node) × Unit}
    (h : Listed (AlternativeRule value) BraceEnd tokens found after) {token : Token}
    {rest : List Token} (hafter : after = token :: rest)
    (hdistinct : ∀ a ∈ found.1, a.node.AllDistinct) (hkeys : (found.1.map Alternative.key).Nodup)
    {before : List Value} (hfresh : ∀ a ∈ found.1, a.key ∉ before) {s : State} (hs : s.tokens = tokens)
    {bound : Nat} (hbound : tokens.length ≤ bound) :
    ∃ read t, Runs (Parser.alternatives rule bound before) s read t ∧
      read.map Prod.snd = found.1 ∧ t.tokens = token :: rest := by
  have hshorter := AlternativeRule.shorter hshort
  have hnew : ∀ {tokens after : List Token} {a : Alternative Node} {before : List Value},
      AlternativeRule value tokens a after → a.key ∉ before →
        ¬ (before.any fun k => k.equal a.key) = true := by
    rintro tokens after a before ⟨hkey, -⟩ hfresh
    rwa [Reads.any_equal_iff (Reads.isDiscriminant_of_alternativeKey hkey)]
  induction h generalizing s bound before with
  | @last tokens middle after a u ha hend =>
    obtain ⟨bound, rfl, -⟩ := exists_bound hshorter ha hbound
    subst hafter
    obtain ⟨next, more, rfl⟩ := exists_token Grammar.BraceEnd.shorter hend
    have hnew := hnew ha (hfresh a List.mem_cons_self)
    obtain ⟨s₁, s₂, s₃, hkey, hadvance, hcolon, hnode, hs₃⟩ :=
      alternative hshort hrule (hs.symm ▸ ha) (hdistinct a List.mem_cons_self)
    obtain ⟨t, hanother, ht⟩ := another_last (hs₃.symm ▸ hend)
    refine ⟨[(s.position, a)], t, ?_, rfl, ht⟩
    unfold Runs Parser.alternatives
    rw [bind_position, bind_of_ok hkey, if_neg hnew, bind_of_ok hadvance, bind_of_ok hcolon,
      bind_of_ok hnode, bind_of_ok hanother, if_neg Bool.false_ne_true]
    rfl
  | @more tokens middle after a as u ha hlisted ih =>
    obtain ⟨bound, rfl, hlength⟩ := exists_bound hshorter ha hbound
    obtain ⟨b, left, hb⟩ := hlisted.begins
    obtain ⟨next, more, rfl⟩ := exists_token hshorter hb
    have hclose : next ≠ .symbol .closeBrace := by
      rintro rfl
      exact Grammar.AlternativeRule.neverBegins value .closeBrace _ _ _ hb
    obtain ⟨haDistinct, hasDistinct⟩ := List.forall_mem_cons.1 hdistinct
    obtain ⟨hkeyFresh, hasFresh⟩ := List.forall_mem_cons.1 hfresh
    obtain ⟨hother, hkeys⟩ := List.nodup_cons.1 hkeys
    have hnew := hnew ha hkeyFresh
    obtain ⟨s₁, s₂, s₃, hkey, hadvance, hcolon, hnode, hs₃⟩ :=
      alternative hshort hrule (hs.symm ▸ ha) haDistinct
    obtain ⟨s₄, hanother, hs₄⟩ := another_more hs₃ hclose
    obtain ⟨read, t, hmore, hread, ht⟩ :=
      ih hafter hasDistinct hkeys (fresh_cons hother hasFresh) hs₄ (Nat.le_of_succ_le hlength)
    refine ⟨(s.position, a) :: read, t, ?_, congrArg (List.cons a) hread, ht⟩
    unfold Runs Parser.alternatives
    rw [bind_position, bind_of_ok hkey, if_neg hnew, bind_of_ok hadvance, bind_of_ok hcolon,
      bind_of_ok hnode, bind_of_ok hanother, if_pos rfl, bind_of_ok hmore]
    rfl

theorem selector {s : State} {discriminant : String} {afterKey : List Token}
    {as : List (Alternative Node)} {token : Token} {rest : List Token}
    (hkey : Grammar.Key s.tokens discriminant (.symbol .openBrace :: afterKey))
    (h : Listed (AlternativeRule value) BraceEnd afterKey (as, ()) (token :: rest))
    (hdistinct : (Node.selector discriminant as).AllDistinct) :
    ∃ t, Runs (Parser.selector rule) s (.selector discriminant as) t ∧ t.tokens = token :: rest := by
  have hall : ∀ a ∈ as, a.node.AllDistinct := fun a ha => hdistinct.part (.alternative ha)
  obtain ⟨a, left, ha⟩ := h.begins
  obtain ⟨first, others, rfl⟩ := exists_token (AlternativeRule.shorter hshort) ha
  obtain ⟨s₁, hkey, hs₁⟩ := Finds.key s discriminant _ _ hkey trivial
  obtain ⟨s₂, hopen, hs₂⟩ := expect_found hs₁
  obtain ⟨read, s₃, hfound, hread, hs₃⟩ := alternatives hshort hrule h rfl hall hdistinct.self
    (fun _ _ => List.not_mem_nil) hs₂ (hs₂ ▸ s₂.length_tokens_le)
  obtain rfl : read.map Prod.snd = as := hread
  refine ⟨{ s₃ with checks := s₃.checks ++ [.selector discriminant read] }, ?_, hs₃⟩
  have hclose : s₂.current ≠ .symbol .closeBrace := by
    rw [State.current_of_tokens hs₂]
    rintro rfl
    exact Grammar.AlternativeRule.neverBegins value .closeBrace _ _ _ ha
  unfold Runs Parser.selector
  rw [bind_of_ok hkey, bind_of_ok hopen, bind_current rfl, if_neg hclose, bind_listBound,
    bind_of_ok hfound]
  rfl

end Parts

/-! ## Values -/

/-- **A value that is derived is read**, if nothing in it repeats a name or a key. -/
theorem value (depth : Nat) : Finds (Parser.value depth) (Grammar.Value depth) Node.AllDistinct := by
  induction depth with
  | zero => exact fun _ _ _ _ h _ => h.elim
  | succ depth ih =>
    have hshort := Grammar.Value.shorter depth
    intro s n token rest h hdistinct
    change ValueRule (Grammar.Value depth) _ _ _ at h
    generalize hs : s.tokens = tokens at h
    unfold Runs Parser.value
    rw [bind_current rfl]
    cases h with
    | any =>
      obtain ⟨t, hadvance, ht, -⟩ := advance_of_tokens hs
      refine ⟨t, ?_, ht⟩
      rw [State.current_of_tokens hs]
      exact bind_of_ok hadvance
    | @primitive _ k kind hkind =>
      obtain ⟨t, hadvance, ht, -⟩ := advance_of_tokens hs
      refine ⟨t, ?_, ht⟩
      have hkind : s.current.kind? = some kind := State.current_of_tokens hs ▸ hkind
      rw [hkind]
      exact bind_of_ok hadvance
    | @literal _ _ v hliteral =>
      obtain ⟨t, hv, ht⟩ := Finds.literal s v token rest (hs ▸ hliteral) trivial
      refine ⟨t, ?_, ht⟩
      have hlast : Runs (Parser.literal >>= fun v => pure (Node.literal v)) s (.literal v) t :=
        bind_of_ok hv
      cases hliteral <;> rw [State.current_of_tokens hs] <;> exact hlast
    | array helements =>
      obtain ⟨a, left, ha⟩ := helements.begins
      obtain ⟨first, others, rfl⟩ := exists_token hshort ha
      obtain ⟨s₁, hadvance, hs₁, -⟩ := advance_of_tokens hs
      obtain ⟨t, harray, ht⟩ := array hshort ih (Grammar.Value.neverBegins depth (by decide))
        (Grammar.Value.neverBegins depth (by decide)) (hs₁.symm ▸ helements) hdistinct
      refine ⟨t, ?_, ht⟩
      rw [State.current_of_tokens hs]
      exact (bind_of_ok hadvance).trans harray
    | map hfields =>
      obtain ⟨f, left, hf⟩ := hfields.begins
      obtain ⟨first, others, rfl⟩ := exists_token (FieldRule.shorter hshort) hf
      obtain ⟨s₁, hadvance, hs₁, -⟩ := advance_of_tokens hs
      obtain ⟨t, hmap, ht⟩ := map hshort ih (hs₁.symm ▸ hfields) hdistinct
      refine ⟨t, ?_, ht⟩
      rw [State.current_of_tokens hs]
      exact (bind_of_ok hadvance).trans hmap
    | dictionary hentry =>
      obtain ⟨s₁, hadvance, hs₁, -⟩ := advance_of_tokens hs
      obtain ⟨t, hmap, ht⟩ := dictionary hshort ih hs₁ hentry (hdistinct.part .entry)
      refine ⟨t, ?_, ht⟩
      rw [State.current_of_tokens hs]
      exact (bind_of_ok hadvance).trans hmap
    | @reference _ _ name hname =>
      obtain ⟨first, others, rfl⟩ := exists_token Grammar.Name.shorter hname
      obtain ⟨s₁, hadvance, hs₁, -⟩ := advance_of_tokens hs
      obtain ⟨s₂, hname, hs₂⟩ := Finds.name s₁ name _ _ (hs₁.symm ▸ hname) trivial
      refine ⟨{ s₂ with checks := s₂.checks ++ [.reference name s.position] }, ?_, hs₂⟩
      rw [State.current_of_tokens hs]
      refine (bind_of_ok hadvance).trans ?_
      unfold Parser.reference
      rw [bind_of_ok hname]
      rfl
    | selector hkey halternatives =>
      obtain ⟨first, others, rfl⟩ := exists_token Grammar.Key.shorter hkey
      obtain ⟨s₁, hadvance, hs₁, -⟩ := advance_of_tokens hs
      obtain ⟨t, hselector, ht⟩ := selector hshort ih (hs₁.symm ▸ hkey) halternatives hdistinct
      refine ⟨t, ?_, ht⟩
      rw [State.current_of_tokens hs]
      exact (bind_of_ok hadvance).trans hselector

/-! ## Declarations -/

/-- The arrow and the first body, which all accesses have. -/
theorem firstBody (maxDepth : Nat) {s : State} {symbol : Symbol} {others : List Token} {node : Node}
    {token : Token} {rest : List Token} (hs : s.tokens = .symbol symbol :: others)
    (hnode : Grammar.Value maxDepth others node (token :: rest)) (hdistinct : node.AllDistinct) :
    ∃ s₁ t, Runs advance s () s₁ ∧ Runs (Parser.value maxDepth) s₁ node t ∧ t.tokens = token :: rest := by
  obtain ⟨first, more, rfl⟩ := exists_token (Grammar.Value.shorter maxDepth) hnode
  obtain ⟨s₁, hadvance, hs₁, -⟩ := advance_of_tokens hs
  obtain ⟨t, hnode, ht⟩ := Finds.value maxDepth s₁ node token rest (hs₁.symm ▸ hnode) hdistinct
  exact ⟨s₁, t, hadvance, hnode, ht⟩

theorem resource (maxDepth : Nat) (name : String) {s : State} {access : Access} {request response : Node}
    {token : Token} {rest : List Token}
    (h : Grammar.Arrow (Grammar.Value maxDepth) s.tokens (access, request, response) (token :: rest))
    (hrequest : request.AllDistinct) (hresponse : response.AllDistinct) :
    ∃ t, Runs (Parser.resource maxDepth name) s ⟨name, access, request, response⟩ t ∧
      t.tokens = token :: rest := by
  have hshort := Grammar.Value.shorter maxDepth
  have hvalue := Finds.value maxDepth
  generalize hs : s.tokens = tokens at h
  unfold Runs Parser.resource
  cases h with
  | post hderived hderived' =>
    obtain ⟨first, more, rfl⟩ := exists_token hshort hderived'
    obtain ⟨s₁, s₂, hadvance, hnode, hs₂⟩ := firstBody maxDepth hs hderived hrequest
    obtain ⟨s₃, hexpect, hs₃⟩ := expect_found hs₂
    obtain ⟨t, hnode', ht⟩ := hvalue s₃ _ _ _ (hs₃.symm ▸ hderived') hresponse
    refine ⟨t, ?_, ht⟩
    rw [bind_current (State.current_of_tokens hs)]
    refine (bind_of_ok hadvance).trans ((bind_of_ok hnode).trans ?_)
    exact (bind_of_ok hexpect).trans (bind_of_ok hnode')
  | get hderived =>
    obtain ⟨s₁, t, hadvance, hnode, ht⟩ := firstBody maxDepth hs hderived hresponse
    refine ⟨t, ?_, ht⟩
    rw [bind_current (State.current_of_tokens hs)]
    exact (bind_of_ok hadvance).trans (bind_of_ok hnode)
  | put hderived =>
    obtain ⟨s₁, t, hadvance, hnode, ht⟩ := firstBody maxDepth hs hderived hrequest
    refine ⟨t, ?_, ht⟩
    rw [bind_current (State.current_of_tokens hs)]
    exact (bind_of_ok hadvance).trans (bind_of_ok hnode)
  | getPut hderived =>
    obtain ⟨s₁, t, hadvance, hnode, ht⟩ := firstBody maxDepth hs hderived hrequest
    refine ⟨t, ?_, ht⟩
    rw [bind_current (State.current_of_tokens hs)]
    exact (bind_of_ok hadvance).trans (bind_of_ok hnode)
  | getPutDelete hderived =>
    obtain ⟨s₁, t, hadvance, hnode, ht⟩ := firstBody maxDepth hs hderived hrequest
    refine ⟨t, ?_, ht⟩
    rw [bind_current (State.current_of_tokens hs)]
    exact (bind_of_ok hadvance).trans (bind_of_ok hnode)

end Finds

/-- Something is left where declarations are derived, if it is only the end of the text. -/
theorem exists_token_of_suite {maxDepth : Nat} {tokens : List Token} {ds : List Grammar.Declaration}
    (h : Grammar.Suite maxDepth tokens ds) : ∃ token more, tokens = token :: more := by
  cases h with
  | endOfInput => exact ⟨_, _, rfl⟩
  | declaration hd _ =>
    exact exists_token (Grammar.DeclarationRule.shorter (Grammar.Value.shorter maxDepth)) hd

/-- **Declarations that are derived are read**, if they repeat no name of a resource, among themselves and
with those that have been collected before. -/
theorem declarations_of_suite {maxDepth : Nat} {tokens : List Token} {ds before : List Grammar.Declaration}
    (h : Grammar.Suite maxDepth tokens ds) (hdistinct : ∀ d ∈ ds, ∀ n ∈ d.nodes, n.AllDistinct)
    (hnames : (Grammar.resourceNames (before ++ ds)).Nodup) {d : Declarations}
    (hd : d.Collected before) {s : State} (hs : s.tokens = tokens) {bound : Nat}
    (hbound : tokens.length ≤ bound) :
    ∃ d' t, Runs (Parser.declarations maxDepth bound d) s d' t := by
  have hshort := Grammar.Value.shorter maxDepth
  induction h generalizing before d s bound with
  | endOfInput =>
    obtain ⟨bound, rfl⟩ : ∃ n, bound = n + 1 :=
      Nat.exists_eq_succ_of_ne_zero (Nat.ne_of_gt hbound)
    refine ⟨d, s, ?_⟩
    unfold Runs Parser.declarations
    rw [bind_current (State.current_of_tokens hs)]
    rfl
  | @declaration tokens rest e es he hsuite ih =>
    obtain ⟨bound, rfl, hle⟩ := exists_bound (Grammar.DeclarationRule.shorter hshort) he hbound
    obtain ⟨next, more, rfl⟩ := exists_token_of_suite hsuite
    obtain ⟨heDistinct, hesDistinct⟩ := List.forall_mem_cons.1 hdistinct
    rw [List.append_cons] at hnames
    unfold Runs Parser.declarations
    cases he with
    | @resource _ afterName _ name access request response hname harrow =>
      have hnew : ¬ (Entries.get? d.resources name).isSome = true := by
        rw [← hd.mem_resourceNames]
        intro hmem
        unfold Grammar.resourceNames at hnames hmem
        rw [List.filterMap_append, List.filterMap_append, List.append_assoc, List.map_append] at hnames
        exact (List.nodup_append.1 hnames).2.2 name hmem name List.mem_cons_self rfl
      obtain ⟨first, others, rfl⟩ := exists_token Grammar.Name.shorter hname
      obtain ⟨second, left, rfl⟩ := exists_token (Grammar.Arrow.shorter hshort) harrow
      obtain ⟨s₁, hadvance, hs₁, -⟩ := advance_of_tokens hs
      obtain ⟨s₂, hname, hs₂⟩ := Finds.name s₁ name _ _ (hs₁.symm ▸ hname) trivial
      obtain ⟨s₃, hresource, hs₃⟩ := Finds.resource maxDepth name (hs₂.symm ▸ harrow)
        (heDistinct _ List.mem_cons_self) (heDistinct _ (List.mem_cons_of_mem _ List.mem_cons_self))
      have hget : Entries.get? d.resources name = none := by simpa using hnew
      obtain ⟨d', t, hmore⟩ := ih hesDistinct hnames
        (hd.resource (r := ⟨name, access, request, response⟩) hget) hs₃ hle
      refine ⟨d', t, ?_⟩
      rw [bind_current (State.current_of_tokens hs)]
      dsimp only
      rw [bind_of_ok hadvance, bind_position, bind_of_ok hname, if_neg hnew,
        bind_of_ok hresource]
      exact hmore
    | @definition _ afterName _ name node hname hnode =>
      obtain ⟨first, others, rfl⟩ := exists_token Grammar.Name.shorter hname
      obtain ⟨second, left, rfl⟩ := exists_token hshort hnode
      obtain ⟨s₁, hadvance, hs₁, -⟩ := advance_of_tokens hs
      obtain ⟨s₂, hname, hs₂⟩ := Finds.name s₁ name _ _ (hs₁.symm ▸ hname) trivial
      obtain ⟨s₃, hequals, hs₃⟩ := expect_found hs₂
      obtain ⟨s₄, hnode, hs₄⟩ := Finds.value maxDepth s₃ node _ _ (hs₃.symm ▸ hnode)
        (heDistinct _ List.mem_cons_self)
      obtain ⟨d', t, hmore⟩ := ih hesDistinct hnames (hd.definition name node s₁.position) hs₄ hle
      refine ⟨d', t, ?_⟩
      rw [bind_current (State.current_of_tokens hs)]
      dsimp only
      rw [bind_of_ok hadvance, bind_position, bind_of_ok hname, bind_of_ok hequals,
        bind_of_ok hnode]
      exact hmore

end Parser

end Conformance
