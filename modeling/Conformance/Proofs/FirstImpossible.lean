import Conformance.Proofs.Completeness
import Conformance.Proofs.Continuation
import Conformance.Proofs.Located

/-!
# Errors show at the first impossible token

Where the tokens of a text are not those of a schema or a suite, the error is at a token that cannot stand there: what
is in front of it can go on to tokens that the grammar derives, and with the token it cannot. The conditions that are
not a matter of grammar have errors of their own.

* `Parser.Goes`, `Parser.AtImpossible` — how a rule that succeeds moves the place, and what one that fails has found
  there.
* `Parser.Tracks` — both for a rule, with a lemma for each way to put rules together (`Tracks.bind`, `Tracks.weaken`).
* `Parser.Tracks.value`, `Parser.Tracks.declarations` — the rules of the reader, one by one.
* `Parser.first_impossible` — whole texts.
-/

set_option autoImplicit false

namespace Conformance

open Continuation (one)

namespace ParseError

/-- What is wrong is a repeated name or key, or too many levels: no matter of grammar. -/
def BeyondGrammar (e : ParseError) : Prop :=
  ∃ fault detail? position, e = .structural fault detail? position ∧
    fault ∈ [.duplicateFieldName, .duplicateResourceName, .duplicateSelectorAlternative, .nestingTooDeep]

end ParseError

namespace Parser

open Grammar (Listed ArrayEnd BraceEnd FieldRule AlternativeRule ValueRule AnyValue AnySuite NeverBegins listTail)

variable {α β : Type} {s t u : State} {L M K : Continuation} {e : ParseError}

/-! ## Places in the text -/

/-- The place of the second state is behind some tokens from the first one on. What can follow there is what can follow
those tokens, as far as it begins with the token that is there. -/
def Goes (s : State) (L : Continuation) (t : State) (K : Continuation) : Prop :=
  ∃ taken, s.spots = taken ++ t.spots ∧ (∀ rest, K rest → L (taken.map Prod.snd ++ rest)) ∧
    ∀ rest, L (taken.map Prod.snd ++ t.current :: rest) → K (t.current :: rest)

/-- The error is at a token that is not possible: tokens that a text can have can follow the tokens in front of it, and
nothing can follow these and the token. -/
def AtImpossible (spots : List Spot) (L : Continuation) (e : ParseError) : Prop :=
  ∃ before p t after, spots = before ++ (p, t) :: after ∧ e.position = p ∧
    (∃ rest, (∀ u ∈ rest, u.Lexical) ∧ L (before.map Prod.snd ++ rest)) ∧
    ∀ rest, ¬ L (before.map Prod.snd ++ t :: rest)

/-- Whatever is left from a later place on begins with the current token. -/
theorem exists_current {before after : List Spot} {p : Position} {token : Token}
    (h : s.spots = before ++ (p, token) :: after) (rest : List Token) :
    ∃ others, before.map Prod.snd ++ token :: rest = s.current :: others := by
  cases before with
  | nil =>
    obtain ⟨hspot, -⟩ := List.cons.inj h
    exact ⟨rest, congrArg (· :: rest) (congrArg Prod.snd hspot).symm⟩
  | cons spot before =>
    obtain ⟨hspot, -⟩ := List.cons.inj h
    exact ⟨_, congrArg (· :: _) (congrArg Prod.snd hspot).symm⟩

namespace Goes

theorem refl : Goes s K s K := ⟨[], rfl, fun _ h => h, fun _ h => h⟩

theorem trans (h : Goes s L t M) (h' : Goes t M u K) : Goes s L u K := by
  obtain ⟨taken, hspots, hforth, hback⟩ := h
  obtain ⟨more, hmore, hforth', hback'⟩ := h'
  refine ⟨taken ++ more, ?_, fun rest hrest => ?_, fun rest hrest => hback' rest ?_⟩
  · rw [hspots, hmore, List.append_assoc]
  · rw [List.map_append, List.append_assoc]
    exact hforth _ (hforth' _ hrest)
  · rw [List.map_append, List.append_assoc] at hrest
    obtain ⟨others, heq⟩ := exists_current hmore rest
    rw [heq] at hrest ⊢
    exact hback _ hrest

theorem atImpossible (h : Goes s L t M) (h' : AtImpossible t.spots M e) : AtImpossible s.spots L e := by
  obtain ⟨taken, hspots, hforth, hback⟩ := h
  obtain ⟨before, p, token, after, hafter, hposition, ⟨rest, hlexical, hlive⟩, hnone⟩ := h'
  refine ⟨taken ++ before, p, token, after, ?_, hposition, ⟨rest, hlexical, ?_⟩, fun others hothers => ?_⟩
  · rw [hspots, hafter, List.append_assoc]
  · rw [List.map_append, List.append_assoc]
    exact hforth _ hlive
  · rw [List.map_append, List.append_assoc] at hothers
    obtain ⟨more, heq⟩ := exists_current hafter others
    refine hnone others ?_
    rw [heq] at hothers ⊢
    exact hback _ hothers

theorem length_le (h : Goes s L t K) : t.spots.length ≤ s.spots.length := by
  obtain ⟨taken, hspots, -⟩ := h
  rw [hspots, List.length_append]
  exact Nat.le_add_left _ _

end Goes

/-- Fewer tokens are left behind one that is taken. -/
theorem length_lt_of_taken {token : Token} (h : s.tokens = token :: t.tokens) :
    t.spots.length < s.spots.length := by
  rw [State.tokens_eq, State.tokens_eq] at h
  have hlength := congrArg List.length h
  rw [List.length_map, List.length_cons, List.length_map] at hlength
  omega

theorem length_lt_of_accept (hs : s.Clear) {symbol : Symbol} (h : Runs (accept symbol) s true t) :
    t.spots.length < s.spots.length := by
  obtain ⟨-, -, ⟨-, htaken⟩ | ⟨hmissing, -⟩⟩ := accept_ok hs.proper h
  · exact length_lt_of_taken htaken
  · cases hmissing

theorem length_lt_of_another (hs : s.Clear) (h : Runs another s true t) : t.spots.length < s.spots.length := by
  obtain ⟨-, -, ⟨-, htaken⟩ | ⟨hmissing, -⟩⟩ := another_ok hs.proper h
  · exact length_lt_of_taken htaken
  · cases hmissing

/-! ## Rules that keep track -/

/-- From the state on, the rule goes on as long as something can follow, and an error of it is at a token that cannot,
or is no matter of grammar. -/
structure Tracks (p : Parser α) (s : State) (L : Continuation) (K : α → Continuation) : Prop where
  ok : ∀ a t, Runs p s a t → t.Clear ∧ Goes s L t (K a)
  error : ∀ e t, p s = .error e t → e.BeyondGrammar ∨ AtImpossible s.spots L e

namespace Tracks

variable {p : Parser α} {f : α → Parser β} {m : α → Continuation} {k : β → Continuation}

theorem bind (hp : Tracks p s L m)
    (hf : ∀ a t, Runs p s a t → t.Clear → t.spots.length ≤ s.spots.length → Tracks (f a) t (m a) k) :
    Tracks (p >>= f) s L k := by
  cases h : p s with
  | ok a t =>
    obtain ⟨ht, hgoes⟩ := hp.ok a t h
    have hf := hf a t h ht hgoes.length_le
    refine ⟨fun b u hb => ?_, fun e u he => ?_⟩
    · rw [Runs, bind_of_ok h] at hb
      obtain ⟨hu, hgoes'⟩ := hf.ok b u hb
      exact ⟨hu, hgoes.trans hgoes'⟩
    · rw [bind_of_ok h] at he
      exact (hf.error e u he).imp_right hgoes.atImpossible
  | error e t =>
    refine ⟨fun b u hb => ?_, fun e' u he => ?_⟩
    · rw [Runs, bind_of_error h] at hb
      cases hb
    · rw [bind_of_error h] at he
      cases he
      exact hp.error e t h

theorem pure (hs : s.Clear) {b : β} (h : k b = L) : Tracks (Pure.pure b) s L k := by
  subst h
  refine ⟨fun a t h => ?_, fun e t h => ?_⟩
  · cases h
    exact ⟨hs, .refl⟩
  · cases h

/-- A rule that is the same at the state keeps track just as well. -/
theorem of_eq {q : Parser α} (hq : Tracks q s L m) (h : p s = q s) : Tracks p s L m :=
  ⟨fun a t hp => hq.ok a t (h.symm.trans hp), fun e t hp => hq.error e t (h.symm.trans hp)⟩

theorem current {f : Token → Parser β} (h : Tracks (f s.current) s L k) : Tracks (Parser.current >>= f) s L k :=
  h.of_eq (bind_current rfl)

theorem position {f : Position → Parser β} (h : Tracks (f s.position) s L k) :
    Tracks (Parser.position >>= f) s L k := h.of_eq bind_position

theorem listBound {f : Nat → Parser β} (h : Tracks (f (s.rest.length + 1)) s L k) :
    Tracks (Parser.listBound >>= f) s L k := h.of_eq bind_listBound

/-- What can follow may be given by more than one rule, as long as the current token tells which. -/
theorem weaken (h : Tracks p s M m) (hforth : ∀ rest, M rest → L rest)
    (hback : ∀ rest, L (s.current :: rest) → M (s.current :: rest)) : Tracks p s L m := by
  have hgoes : Goes s L s M := ⟨[], rfl, hforth, hback⟩
  refine ⟨fun a t ha => ?_, fun e t he => (h.error e t he).imp_right hgoes.atImpossible⟩
  obtain ⟨ht, hgoes'⟩ := h.ok a t ha
  exact ⟨ht, hgoes.trans hgoes'⟩

/-- An error at the current token. -/
theorem fail {fault : Fault} {detail? : Option String} (hlive : L.Live) (hnone : ∀ rest, ¬ L (s.current :: rest)) :
    Tracks (Parser.fail fault detail? : Parser α) s L m := by
  refine ⟨fun a t h => (by cases h), fun e t h => .inr ?_⟩
  cases h
  exact ⟨[], s.position, s.current, _, rfl, rfl, hlive, hnone⟩

/-- An error that is no matter of grammar. -/
theorem failAt {fault : Fault} {detail? : Option String} {place : Position}
    (h : fault ∈ [.duplicateFieldName, .duplicateResourceName, .duplicateSelectorAlternative, .nestingTooDeep]) :
    Tracks (Parser.failAt place fault detail? : Parser α) s L m := by
  refine ⟨fun a t h => (by cases h), fun e t he => .inl ?_⟩
  cases he
  exact ⟨fault, detail?, place, rfl, h⟩

theorem advance (hs : s.Clear) {token : Token} (h : s.current = token) (hmore : token ≠ .endOfInput) :
    Tracks Parser.advance s (one token K) fun _ => K := by
  subst h
  obtain ⟨t, hadvance, hspots, -, ht⟩ := hs.advance hmore
  refine ⟨fun a u h => ?_, fun e u h => ?_⟩
  · cases hadvance.symm.trans h
    refine ⟨ht, [(s.position, s.current)], hspots, fun rest hrest => ⟨rest, rfl, hrest⟩, fun rest hrest => ?_⟩
    exact (Continuation.one_cons.1 hrest).2
  · cases hadvance.symm.trans h

/-! ### Single tokens -/

/-- What follows a symbol that is taken if it is there, and what can follow where it is not. -/
theorem accept (hs : s.Clear) {symbol : Symbol} {k : Bool → Continuation}
    (htaken : s.current = .symbol symbol → (∀ rest, k true rest → L (.symbol symbol :: rest)) ∧
      ∀ rest, L (.symbol symbol :: rest) → k true rest)
    (hmissing : s.current ≠ .symbol symbol → (∀ rest, k false rest → L rest) ∧
      ∀ rest, L (s.current :: rest) → k false (s.current :: rest)) :
    Tracks (Parser.accept symbol) s L k := by
  refine current ?_
  split
  · rename_i hsymbol
    obtain ⟨hforth, hback⟩ := htaken hsymbol
    have htracks : Tracks (do Parser.advance; return true) s (one (.symbol symbol) (k true)) k :=
      (advance hs hsymbol nofun).bind fun _ t _ ht _ => pure ht rfl
    refine htracks.weaken ?_ fun rest hrest => ?_
    · rintro _ ⟨rest, rfl, hrest⟩
      exact hforth rest hrest
    · rw [hsymbol] at hrest ⊢
      exact ⟨rest, rfl, hback rest hrest⟩
  · rename_i hsymbol
    obtain ⟨hforth, hback⟩ := hmissing hsymbol
    exact weaken (pure hs rfl) hforth hback

theorem expect (hs : s.Clear) (hK : K.Live) (symbol : Symbol) (fault : Fault) :
    Tracks (Parser.expect symbol fault) s (one (.symbol symbol) K) fun _ => K := by
  refine current ?_
  split
  · rename_i hsymbol
    exact advance hs hsymbol nofun
  · rename_i hsymbol
    exact fail (hK.one _) fun rest hrest => hsymbol (Continuation.one_cons.1 hrest).1

/-- Taking the current token where a rule derives something from just that token. -/
theorem take (hs : s.Clear) {rule : Rule α} {a : α} (hrule : ∀ rest, rule (s.current :: rest) a rest)
    (hunique : Grammar.Unique rule) (hmore : s.current ≠ .endOfInput) :
    Tracks Parser.advance s (rule.before K) fun _ => K := by
  refine (advance hs rfl hmore).weaken ?_ ?_
  · rintro _ ⟨rest, rfl, hrest⟩
    exact ⟨a, rest, hrule rest, hrest⟩
  · rintro rest ⟨b, others, hb, hothers⟩
    obtain ⟨-, rfl⟩ := hunique _ _ _ _ _ (hrule rest) hb
    exact ⟨rest, rfl, hothers⟩

theorem token (hs : s.Clear) {rule : Rule α} {a : α} (hrule : ∀ rest, rule (s.current :: rest) a rest)
    (hunique : Grammar.Unique rule) (hmore : s.current ≠ .endOfInput) :
    Tracks (do Parser.advance; return a) s (rule.before K) fun _ => K :=
  (take hs hrule hunique hmore).bind fun _ _ _ ht _ => pure ht rfl

theorem name?_of_name {token : Token} {tokens rest : List Token} {spelling : String}
    (h : Grammar.Name (token :: tokens) spelling rest) : token.name? = some spelling := by
  cases h <;> rfl

theorem name (hs : s.Clear) (hK : K.Live) : Tracks Parser.name s (Grammar.Name.before K) fun _ => K := by
  refine current ?_
  split
  · rename_i spelling hname
    exact token hs (fun rest => name_of_name? hname) Grammar.Name.unique fun hend => by
      rw [hend] at hname
      cases hname
  · rename_i hname
    refine fail (Grammar.Name.productive.live hK) ?_
    rintro rest ⟨spelling, others, h, -⟩
    rw [name?_of_name h] at hname
    cases hname

theorem key (hs : s.Clear) (hK : K.Live) : Tracks Parser.key s (Grammar.Key.before K) fun _ => K := by
  have hlive := Grammar.Key.productive.live hK
  refine current ?_
  split
  · rename_i content hcontent
    exact token hs (fun rest => hcontent ▸ .text) Grammar.Key.unique (by rw [hcontent]; nofun)
  · rename_i i hi
    refine fail hlive ?_
    rintro rest ⟨spelling, others, h, -⟩
    rw [hi] at h
    cases h with
    | name h => cases h
  · rename_i r hr
    refine fail hlive ?_
    rintro rest ⟨spelling, others, h, -⟩
    rw [hr] at h
    cases h with
    | name h => cases h
  · rename_i htext _ _
    refine (name hs hK).weaken ?_ ?_
    · rintro tokens ⟨spelling, others, h, hothers⟩
      exact ⟨spelling, others, .name h, hothers⟩
    · rintro rest ⟨spelling, others, h, hothers⟩
      generalize s.current = token at h htext ⊢
      cases h with
      | name h => exact ⟨spelling, others, h, hothers⟩
      | text => exact absurd rfl (htext _)

theorem literal (hs : s.Clear) (hK : K.Live) : Tracks Parser.literal s (Grammar.Literal.before K) fun _ => K := by
  refine current ?_
  split
  · rename_i v hv
    exact token hs (fun rest => literal_of_literalValue? hv) Grammar.Literal.unique fun hend => by
      rw [hend] at hv
      cases hv
  · rename_i hv
    refine fail (Grammar.Literal.productive.live hK) ?_
    rintro rest ⟨v, others, h, -⟩
    rw [(literalValue?_of_literal h).1] at hv
    cases hv

/-! ### Lists -/

/-- The comma behind a member of a list, if there is one. -/
theorem comma {item : Rule α} {close : Rule β} {C : Continuation} (hs : s.Clear)
    (hclose : Grammar.ClosedBy close C K) : Tracks (Parser.accept .comma) s (listTail item close K)
      fun found => if found then fun rest => C rest ∨ (Listed item close).before K rest else C := by
  refine accept hs (fun hcomma => ⟨?_, ?_⟩) fun hcomma => ⟨?_, ?_⟩
  · rintro rest (hrest | hmore)
    · exact .inl ((hclose.1 _).2 (.inr ⟨rest, rfl, hrest⟩))
    · exact .inr ⟨rest, rfl, hmore⟩
  · rintro rest (hrest | ⟨others, heq, hmore⟩)
    · rcases (hclose.1 _).1 hrest with h | ⟨others, heq, h⟩
      · exact absurd h (hclose.2 rest)
      · cases heq
        exact .inl h
    · cases heq
      exact .inr hmore
  · exact fun rest hrest => .inl ((hclose.1 rest).2 (.inl hrest))
  · rintro rest (hrest | ⟨others, heq, -⟩)
    · rcases (hclose.1 _).1 hrest with h | ⟨others, heq, -⟩
      · exact h
      · exact absurd (List.cons.inj heq).1 hcomma
    · exact absurd (List.cons.inj heq).1 hcomma

/-- What follows a member of a list in braces. -/
theorem another {item : Rule α} (hs : s.Clear) (hK : K.Live) (hitem : NeverBegins item .closeBrace) :
    Tracks Parser.another s (listTail item BraceEnd K)
      fun more => if more then (Listed item BraceEnd).before K else K := by
  refine (comma hs Grammar.BraceEnd.closedBy).bind fun found t _ ht _ => ?_
  cases found with
  | true =>
    have hclose : Tracks (Parser.accept .closeBrace) t
        (fun rest => one (.symbol .closeBrace) K rest ∨ (Listed item BraceEnd).before K rest)
        fun closed => if closed then K else (Listed item BraceEnd).before K := by
      refine accept ht (fun hbrace => ⟨?_, ?_⟩) fun hbrace => ⟨fun rest hrest => .inr hrest, ?_⟩
      · exact fun rest hrest => .inl ⟨rest, rfl, hrest⟩
      · rintro rest (hrest | ⟨found, others, hlisted, hothers⟩)
        · exact (Continuation.one_cons.1 hrest).2
        · exact (Grammar.not_before_listed hitem rest ⟨found, others, hlisted, hothers⟩).elim
      · rintro rest (hrest | hmore)
        · exact absurd (Continuation.one_cons.1 hrest).1 hbrace
        · exact hmore
    refine hclose.bind fun closed u _ hu _ => ?_
    cases closed with
    | true => exact pure hu rfl
    | false => exact pure hu rfl
  | false => exact (expect ht hK .closeBrace .expectedCloseBrace).bind fun _ u _ hu _ => pure hu rfl

section Values

variable {rule : Parser Node} (hrule : ∀ {s : State} {K : Continuation}, s.Clear → K.Live →
  Tracks rule s (AnyValue.before K) fun _ => K)

include hrule

theorem elements (hs : s.Clear) (hK : K.Live) {bound : Nat} (hbound : s.spots.length ≤ bound) :
    Tracks (Parser.elements rule bound) s ((Listed AnyValue ArrayEnd).before K) fun _ => K := by
  induction bound generalizing s with
  | zero => exact absurd hbound (Nat.not_succ_le_zero _)
  | succ bound ih =>
    have hclose : (Grammar.arrayClose K).Live := (hK.one .closeBracket).mono fun _ => .inl
    have hforth : ∀ tokens, AnyValue.before (listTail AnyValue ArrayEnd K) tokens →
        (Listed AnyValue ArrayEnd).before K tokens := fun tokens => Grammar.before_listed.2
    refine weaken ?_ hforth fun rest => Grammar.before_listed.1
    refine (hrule hs (Grammar.listTail_live Grammar.ArrayEnd.closedBy hclose)).bind fun node t _ ht hle => ?_
    refine (comma ht Grammar.ArrayEnd.closedBy).bind fun found u hfound hu hle' => current ?_
    -- Whether there was a comma matters only where the list is not closed here.
    have hend : ∀ rest, Grammar.arrayClose K rest → (if found then fun rest => Grammar.arrayClose K rest ∨
        (Listed AnyValue ArrayEnd).before K rest else Grammar.arrayClose K) rest := by
      intro rest hrest
      cases found with
      | true => exact .inl hrest
      | false => exact hrest
    have hcases : ∀ rest, (if found then fun rest => Grammar.arrayClose K rest ∨
        (Listed AnyValue ArrayEnd).before K rest else Grammar.arrayClose K) rest →
        Grammar.arrayClose K rest ∨ (Listed AnyValue ArrayEnd).before K rest := by
      intro rest hrest
      cases found with
      | true => exact hrest
      | false => exact .inl hrest
    have hbracket : NeverBegins AnyValue .closeBracket := AnyValue.neverBegins (by decide)
    have hellipsis : NeverBegins AnyValue .ellipsis := AnyValue.neverBegins (by decide)
    split
    · rename_i hcurrent
      have hrepeating : Tracks (do
          Parser.advance
          Parser.expect .closeBracket .expectedCloseBracket
          return ([node], ArraySize.repeating)) u (one (.symbol .ellipsis) (one (.symbol .closeBracket) K))
          fun _ => K :=
        (advance hu hcurrent nofun).bind fun _ v _ hv _ => (expect hv hK _ _).bind fun _ w _ hw _ => pure hw rfl
      refine hrepeating.weaken (fun rest hrest => hend rest (.inr hrest)) fun rest hrest => ?_
      rw [hcurrent] at hrest ⊢
      rcases hcases _ hrest with (hclosed | hrest) | hmore
      · cases (Continuation.one_cons.1 hclosed).1
      · exact hrest
      · exact (Grammar.not_before_listed hellipsis _ hmore).elim
    · rename_i hcurrent
      have hexact : Tracks (do
          Parser.advance
          return ([node], ArraySize.exact)) u (one (.symbol .closeBracket) K) fun _ => K :=
        (advance hu hcurrent nofun).bind fun _ v _ hv _ => pure hv rfl
      refine hexact.weaken (fun rest hrest => hend rest (.inl hrest)) fun rest hrest => ?_
      rw [hcurrent] at hrest ⊢
      rcases hcases _ hrest with (hrest | hclosed) | hmore
      · exact hrest
      · cases (Continuation.one_cons.1 hclosed).1
      · exact (Grammar.not_before_listed hbracket _ hmore).elim
    · rename_i hnoEllipsis hnoBracket
      have hopen : ∀ rest, ¬ Grammar.arrayClose K (u.current :: rest) := by
        rintro rest (h | h)
        · exact hnoBracket (Continuation.one_cons.1 h).1
        · exact hnoEllipsis (Continuation.one_cons.1 h).1
      cases found with
      | true =>
        have hless : u.spots.length ≤ bound := by
          have := length_lt_of_accept ht hfound
          omega
        rw [if_pos rfl]
        refine weaken ?_ (fun rest hrest => .inr hrest) fun rest hrest => (hcases _ hrest).resolve_left (hopen rest)
        exact (ih hu hless).bind fun found v _ hv _ => pure hv rfl
      | false => exact fail hclose hopen

theorem array (hs : s.Clear) (hK : K.Live) :
    Tracks (Parser.array rule) s ((Listed AnyValue ArrayEnd).before K) fun _ => K := by
  refine current ?_
  split
  · rename_i hbracket
    refine fail ((Grammar.Listed.productive AnyValue.productive Grammar.ArrayEnd.productive).live hK) fun rest => ?_
    rw [hbracket]
    exact Grammar.not_before_listed (AnyValue.neverBegins (by decide)) rest
  · refine listBound ((elements hrule hs hK hs.length_spots.le).bind fun found t _ ht _ => pure ht rfl)

omit hrule in
theorem note (hs : s.Clear) (check : Check) : Tracks (Parser.note check) s K fun _ => K := by
  refine ⟨fun a t h => ?_, fun e t h => (by cases h)⟩
  cases h
  exact ⟨⟨steady_proper.checks s _ hs.proper, hs.rest_ok⟩, [], rfl, fun _ h => h, fun _ h => h⟩

omit hrule in
/-- A default may follow if no equals sign can follow besides. -/
theorem fieldDefault? (hs : s.Clear) (hK : K.Live) (hequals : Grammar.NeverEquals K) (node : Node) :
    Tracks (Parser.fieldDefault? node) s (Grammar.Default.before K) fun _ => K := by
  have haccept : Tracks (Parser.accept .equals) s (Grammar.Default.before K)
      fun found => if found then Grammar.Literal.before K else K := by
    refine accept hs (fun _ => ⟨?_, ?_⟩) fun hmissing =>
      ⟨fun rest hrest => ⟨none, rest, .absent, hrest⟩, ?_⟩
    · rintro tokens ⟨v, rest, hv, hrest⟩
      exact ⟨some v, rest, .present hv, hrest⟩
    · rintro tokens ⟨v?, rest, hv, hrest⟩
      cases hv with
      | absent => exact (hequals _ hrest).elim
      | present hv => exact ⟨_, rest, hv, hrest⟩
    · rintro tokens ⟨v?, rest, hv, hrest⟩
      generalize s.current = token at hv hmissing ⊢
      cases hv with
      | absent => exact hrest
      | present => exact absurd rfl hmissing
  refine haccept.bind fun found t _ ht _ => ?_
  cases found with
  | true =>
    refine position ((literal ht hK).bind fun v u _ hu _ => ?_)
    exact (note hu _).bind fun _ w _ hw _ => pure hw rfl
  | false => exact pure ht rfl

theorem field (hs : s.Clear) (hK : K.Live) (hequals : Grammar.NeverEquals K) :
    Tracks (Parser.field rule) s ((FieldRule AnyValue).before K) fun _ => K := by
  have hdefault : (Grammar.Default.before K).Live := Grammar.Default.productive.live hK
  have hvalue : (AnyValue.before (Grammar.Default.before K)).Live := AnyValue.productive.live hdefault
  have hcolon := hvalue.one .colon
  refine weaken ?_ (fun tokens => Grammar.before_field.2) fun rest => Grammar.before_field.1
  refine (key hs (hcolon.mono fun _ => .inl)).bind fun name t _ ht _ => ?_
  have hmark : Tracks (Parser.accept .question) t
      (Grammar.marked (one (.symbol .colon) (AnyValue.before (Grammar.Default.before K))))
      fun _ => one (.symbol .colon) (AnyValue.before (Grammar.Default.before K)) := by
    refine accept ht (fun _ => ⟨fun rest hrest => .inr ⟨rest, rfl, hrest⟩, ?_⟩) fun hmissing =>
      ⟨fun _ => .inl, ?_⟩
    · rintro rest (hrest | hrest)
      · cases (Continuation.one_cons.1 hrest).1
      · exact (Continuation.one_cons.1 hrest).2
    · rintro rest (hrest | hrest)
      · exact hrest
      · exact absurd (Continuation.one_cons.1 hrest).1 hmissing
  refine hmark.bind fun isOptional u _ hu _ => (expect hu hvalue _ _).bind fun _ v _ hv _ => ?_
  refine (hrule hv hdefault).bind fun node w _ hw _ => ?_
  exact (fieldDefault? hw hK hequals node).bind fun default? x _ hx _ => pure hx rfl

theorem fields (hs : s.Clear) (hK : K.Live) {bound : Nat} (hbound : s.spots.length ≤ bound)
    (before : List String) :
    Tracks (Parser.fields rule bound before) s ((Listed (FieldRule AnyValue) BraceEnd).before K) fun _ => K := by
  induction bound generalizing s before with
  | zero => exact absurd hbound (Nat.not_succ_le_zero _)
  | succ bound ih =>
    have hclosed : (listTail (FieldRule AnyValue) BraceEnd K).Live :=
      Grammar.listTail_live Grammar.BraceEnd.closedBy (hK.one _)
    refine position (weaken ?_ (fun tokens => Grammar.before_listed.2) fun rest => Grammar.before_listed.1)
    refine (field hrule hs hclosed Grammar.listTail_neverEquals).bind fun f t _ ht hle => ?_
    split
    · exact failAt (by decide)
    · refine (another ht hK (FieldRule.neverBegins AnyValue _)).bind fun more u hmore hu _ => ?_
      cases more with
      | true =>
        have hless : u.spots.length ≤ bound := by
          have := length_lt_of_another ht hmore
          omega
        exact (ih hu hless (f.name :: before)).bind fun others v _ hv _ => pure hv rfl
      | false => exact pure hu rfl

theorem map (hs : s.Clear) (hK : K.Live) :
    Tracks (Parser.map rule) s (fun rest => (ValueRule AnyValue).before K (.symbol .openBrace :: rest))
      fun _ => K := by
  have hlive : ((Listed (FieldRule AnyValue) BraceEnd).before K).Live :=
    (Grammar.Listed.productive Grammar.FieldRule.productive Grammar.BraceEnd.productive).live hK
  have hfields : ∀ rest, (Listed (FieldRule AnyValue) BraceEnd).before K rest →
      (ValueRule AnyValue).before K (.symbol .openBrace :: rest) :=
    fun rest ⟨found, others, h, hothers⟩ => ⟨_, others, .map h, hothers⟩
  -- After the brace there are fields, or what a dictionary has instead.
  have hcases : ∀ rest, (ValueRule AnyValue).before K (.symbol .openBrace :: rest) →
      (Listed (FieldRule AnyValue) BraceEnd).before K rest ∨
        one (.symbol .dollar) (one (.symbol .colon) (AnyValue.before (one (.symbol .closeBrace) K))) rest := by
    rintro rest ⟨n, others, h, hothers⟩
    cases h with
    | literal h => cases h
    | map h => exact .inl ⟨_, others, h, hothers⟩
    | dictionary h => exact .inr ⟨_, rfl, _, rfl, _, _, h, others, rfl, hothers⟩
  refine current ?_
  split
  · rename_i hbrace
    refine fail (hlive.mono hfields) fun rest hrest => ?_
    rw [hbrace] at hrest
    rcases hcases _ hrest with hlisted | hdollar
    · exact Grammar.not_before_listed (FieldRule.neverBegins AnyValue _) _ hlisted
    · cases (Continuation.one_cons.1 hdollar).1
  · rename_i hdollar
    have hclose := hK.one .closeBrace
    have hvalue : (AnyValue.before (one (.symbol .closeBrace) K)).Live := AnyValue.productive.live hclose
    have hentry : Tracks (do
        Parser.advance
        Parser.expect .colon .expectedColon
        let entry ← rule
        Parser.expect .closeBrace .expectedCloseBrace
        return Node.dictionary entry) s
        (one (.symbol .dollar) (one (.symbol .colon) (AnyValue.before (one (.symbol .closeBrace) K))))
        fun _ => K := by
      refine (advance hs hdollar nofun).bind fun _ t _ ht _ => (expect ht hvalue _ _).bind fun _ u _ hu _ => ?_
      exact (hrule hu hclose).bind fun entry v _ hv _ => (expect hv hK _ _).bind fun _ w _ hw _ => pure hw rfl
    refine hentry.weaken ?_ fun rest hrest => (hcases _ hrest).resolve_left ?_
    · rintro _ ⟨_, rfl, _, rfl, n, _, h, others, rfl, hothers⟩
      exact ⟨_, others, .dictionary h, hothers⟩
    · rw [hdollar]
      exact Grammar.not_before_listed (FieldRule.neverBegins AnyValue _) _
  · rename_i hdollar
    have hmap : Tracks (do return Node.map (← Parser.fields rule (s.rest.length + 1) [])) s
        ((Listed (FieldRule AnyValue) BraceEnd).before K) fun _ => K :=
      (fields hrule hs hK hs.length_spots.le []).bind fun found t _ ht _ => pure ht rfl
    refine listBound (hmap.weaken hfields fun rest hrest => (hcases _ hrest).resolve_right fun h => ?_)
    exact hdollar (Continuation.one_cons.1 h).1

omit hrule in
/-- The key of an alternative is looked at and not yet taken. -/
theorem alternativeKey (hs : s.Clear) (hK : K.Live) :
    Tracks Parser.alternativeKey s (Grammar.AlternativeKey.before K)
      fun _ => Grammar.AlternativeKey.before K := by
  have hlive : (Grammar.AlternativeKey.before K).Live := Grammar.AlternativeKey.productive.live hK
  have hnone : (∀ content, s.current ≠ .text content) → (∀ i, s.current ≠ .integer i) →
      ∀ rest, ¬ (Grammar.AlternativeKey.before K) (s.current :: rest) := by
    rintro htext hinteger rest ⟨key, others, h, -⟩
    generalize s.current = token at h htext hinteger
    cases h with
    | text => exact htext _ rfl
    | integer => exact hinteger _ rfl
  refine current ?_
  cases hcurrent : s.current with
  | text content => exact pure hs rfl
  | integer i => exact pure hs rfl
  | keyword k => cases k <;> exact fail hlive (hnone (by rw [hcurrent]; nofun) (by rw [hcurrent]; nofun))
  | _ => exact fail hlive (hnone (by rw [hcurrent]; nofun) (by rw [hcurrent]; nofun))

theorem alternatives (hs : s.Clear) (hK : K.Live) {bound : Nat} (hbound : s.spots.length ≤ bound)
    (before : List Value) : Tracks (Parser.alternatives rule bound before) s
      ((Listed (AlternativeRule AnyValue) BraceEnd).before K) fun _ => K := by
  induction bound generalizing s before with
  | zero => exact absurd hbound (Nat.not_succ_le_zero _)
  | succ bound ih =>
    have hclosed : (listTail (AlternativeRule AnyValue) BraceEnd K).Live :=
      Grammar.listTail_live Grammar.BraceEnd.closedBy (hK.one _)
    have hvalue : (AnyValue.before (listTail (AlternativeRule AnyValue) BraceEnd K)).Live :=
      AnyValue.productive.live hclosed
    refine position (weaken ?_ (fun tokens => Grammar.before_listed.2) fun rest => Grammar.before_listed.1)
    refine weaken ?_ (fun tokens => Grammar.before_alternative.2) fun rest => Grammar.before_alternative.1
    refine (alternativeKey hs (hvalue.one _)).bind fun key t hkey ht _ => ?_
    obtain ⟨rfl, hmore, hderived⟩ := alternativeKey_ok hkey
    split
    · exact (failAt (by decide)).of_eq rfl
    · refine (take ht hderived Grammar.AlternativeKey.unique hmore).bind fun _ u hadvance hu _ => ?_
      refine (expect hu hvalue _ _).bind fun _ v _ hv hle => ?_
      refine (hrule hv hclosed).bind fun node w _ hw hle' => ?_
      refine (another hw hK (AlternativeRule.neverBegins AnyValue _)).bind fun more x hanother hx _ => ?_
      cases more with
      | true =>
        have hless : x.spots.length ≤ bound := by
          have := length_lt_of_another hw hanother
          have := length_lt_of_taken (advance_ok ht.proper hmore hadvance).1
          omega
        exact (ih hx hless _).bind fun others y _ hy _ => pure hy rfl
      | false => exact pure hx rfl

theorem selector (hs : s.Clear) (hK : K.Live) : Tracks (Parser.selector rule) s
    (Grammar.Key.before (one (.symbol .openBrace) ((Listed (AlternativeRule AnyValue) BraceEnd).before K)))
    fun _ => K := by
  have hlive : ((Listed (AlternativeRule AnyValue) BraceEnd).before K).Live :=
    (Grammar.Listed.productive Grammar.AlternativeRule.productive Grammar.BraceEnd.productive).live hK
  refine (key hs (hlive.one _)).bind fun discriminant t _ ht _ => ?_
  refine (expect ht hlive _ _).bind fun _ u _ hu _ => current ?_
  split
  · rename_i hbrace
    refine fail hlive fun rest => ?_
    rw [hbrace]
    exact Grammar.not_before_listed (AlternativeRule.neverBegins AnyValue _) rest
  · refine listBound ((alternatives hrule hu hK hu.length_spots.le []).bind fun found v _ hv _ => ?_)
    exact (note hv _).bind fun _ w _ hw _ => pure hw rfl

omit hrule in
theorem reference (hs : s.Clear) (hK : K.Live) (place : Position) :
    Tracks (Parser.reference place) s (Grammar.Name.before K) fun _ => K :=
  (name hs hK).bind fun _ _ _ ht _ => (note ht _).bind fun _ _ _ hu _ => pure hu rfl

end Values

/-- Taking a token that tells what can follow. -/
theorem branch {p : Parser α} {token : Token} {k : α → Continuation} (hs : s.Clear) (htoken : s.current = token)
    (hmore : token ≠ .endOfInput) (hiff : ∀ rest, L (token :: rest) ↔ K rest)
    (hp : ∀ t, Runs Parser.advance s () t → t.Clear → Tracks p t K k) :
    Tracks (do Parser.advance; p) s L k := by
  have htracks : Tracks (do Parser.advance; p) s (one token K) k :=
    (advance hs htoken hmore).bind fun _ t hadvance ht _ => hp t hadvance ht
  refine htracks.weaken ?_ fun rest hrest => ?_
  · rintro _ ⟨rest, rfl, hrest⟩
    exact (hiff rest).2 hrest
  · rw [htoken] at hrest ⊢
    exact ⟨rest, rfl, (hiff rest).1 hrest⟩

/-- A value keeps track at any depth: too many levels are no matter of grammar. -/
theorem value (levels : Nat) (hs : s.Clear) (hK : K.Live) :
    Tracks (Parser.value levels) s (AnyValue.before K) fun _ => K := by
  induction levels generalizing s K with
  | zero => exact (failAt (by decide)).of_eq rfl
  | succ levels ih =>
    have hlive : (AnyValue.before K).Live := AnyValue.productive.live hK
    refine current ?_
    split
    · rename_i kind hkind
      refine token hs (Grammar.anyValue_primitive hkind) AnyValue.unique fun hend => ?_
      rw [hend] at hkind
      cases hkind
    · rename_i hkind
      split
      · rename_i h
        exact token hs (fun rest => h ▸ Grammar.anyValue_iff.2 .any) AnyValue.unique (by rw [h]; nofun)
      · rename_i h
        exact branch hs h nofun (fun _ => Grammar.before_selector) fun t _ ht => selector ih ht hK
      · rename_i h
        exact branch hs h nofun (fun _ => Grammar.before_array) fun t _ ht => array ih ht hK
      · rename_i h
        refine branch hs h nofun (fun rest => ⟨?_, ?_⟩) fun t _ ht => map ih ht hK
        · exact fun ⟨n, others, h, hothers⟩ => ⟨n, others, Grammar.anyValue_iff.1 h, hothers⟩
        · exact fun ⟨n, others, h, hothers⟩ => ⟨n, others, Grammar.anyValue_iff.2 h, hothers⟩
      · rename_i h
        exact position (branch hs h nofun (fun _ => Grammar.before_reference) fun t _ ht => reference ht hK _)
      · rename_i h
        exact fail hlive fun rest => h ▸ Grammar.not_before_name rest
      · rename_i h
        exact fail hlive fun rest => h ▸ Grammar.not_before_endOfInput rest
      · rename_i hbracket hbrace hampersand h
        refine fail hlive ?_
        rintro rest ⟨n, others, hn, -⟩
        rw [h] at hn
        exact AnyValue.neverBegins ⟨hbracket, hbrace, hampersand⟩ _ _ _ hn
      · rename_i hundef hselect hbracket hbrace hampersand _ _ _
        have hliteral : Tracks (do return Node.literal (← Parser.literal)) s (Grammar.Literal.before K) fun _ => K :=
          (literal hs hK).bind fun v _ _ ht _ => pure ht rfl
        refine hliteral.weaken ?_ fun rest => ?_
        · exact fun tokens ⟨v, rest, hv, hrest⟩ => ⟨_, rest, Grammar.anyValue_iff.2 (.literal hv), hrest⟩
        · exact Grammar.before_literal hkind hundef hselect hbracket hbrace hampersand

/-! ### Declarations -/

/-- The arrow of a resource with its bodies. -/
theorem resource (maxDepth : Nat) (name : String) (hs : s.Clear) (hK : K.Live) :
    Tracks (Parser.resource maxDepth name) s ((Grammar.Arrow AnyValue).before K) fun _ => K := by
  refine current ?_
  split
  · rename_i hnone
    refine fail (Grammar.Arrow.productive.live hK) ?_
    rintro rest ⟨x, others, h, -⟩
    rw [Grammar.access?_of_arrow h] at hnone
    cases hnone
  · rename_i access haccess
    have hmore : s.current ≠ .endOfInput := fun hend => by
      rw [hend] at haccess
      cases haccess
    have hafter := Grammar.afterBody_live access hK
    refine branch hs rfl hmore (Grammar.before_arrow haccess) fun t _ ht => ?_
    refine (value maxDepth ht hafter).bind fun first u _ hu _ => ?_
    cases access with
    | post =>
      refine (expect hu (AnyValue.productive.live hK) _ _).bind fun _ v _ hv _ => ?_
      exact (value maxDepth hv hK).bind fun second w _ hw _ => pure hw rfl
    | _ => exact pure hu rfl

theorem declarations (maxDepth : Nat) (hs : s.Clear) {bound : Nat} (hbound : s.spots.length ≤ bound)
    (d : Declarations) : Tracks (Parser.declarations maxDepth bound d) s AnySuite fun _ => AnySuite := by
  induction bound generalizing s d with
  | zero => exact absurd hbound (Nat.not_succ_le_zero _)
  | succ bound ih =>
    have hlive := Grammar.AnySuite.live
    refine current ?_
    split
    · exact pure hs rfl
    · rename_i hresource
      refine branch hs hresource nofun (fun _ => Grammar.anySuite_resource) fun t hadvance ht => position ?_
      have hless := length_lt_of_taken (advance_ok hs.proper (by rw [hresource]; nofun) hadvance).1
      refine (name ht (Grammar.Arrow.productive.live hlive)).bind fun text u _ hu hle => ?_
      split
      · exact failAt (by decide)
      · exact (resource maxDepth text hu hlive).bind fun r v _ hv hle' => ih hv (by omega) _
    · rename_i hampersand
      refine branch hs hampersand nofun (fun _ => Grammar.anySuite_definition) fun t hadvance ht => position ?_
      have hless := length_lt_of_taken (advance_ok hs.proper (by rw [hampersand]; nofun) hadvance).1
      have hvalue : (AnyValue.before AnySuite).Live := AnyValue.productive.live hlive
      refine (name ht (hvalue.one _)).bind fun text u _ hu hle => ?_
      refine (expect hu hvalue _ _).bind fun _ v _ hv hle' => ?_
      exact (value maxDepth hv hlive).bind fun node w _ hw hle'' => ih hw (by omega) _
    · rename_i hend hresource hampersand
      refine fail hlive fun rest hrest => ?_
      rcases hrest.begins with h | h | h
      · exact hend h
      · exact hresource h
      · exact hampersand h

end Tracks

/-! ## Whole texts -/

theorem tracks_schemaPass (maxDepth : Nat) (hs : s.Clear) :
    Tracks (schemaPass maxDepth) s (AnyValue.before Grammar.ended) fun _ => Grammar.ended := by
  refine (Tracks.value maxDepth hs Grammar.ended_live).bind fun node t _ ht _ => .current ?_
  split
  · exact .pure ht rfl
  · rename_i hmore
    exact .fail Grammar.ended_live fun rest h => hmore (List.cons.inj h).1

theorem tracks_suitePass (maxDepth : Nat) (hs : s.Clear) :
    Tracks (suitePass maxDepth) s AnySuite fun _ => AnySuite :=
  .listBound (Tracks.declarations maxDepth hs hs.length_spots.le {})

/-- Where a call that keeps track fails, the error is at an impossible token, if it is a matter of grammar. -/
theorem Tracks.run_error {p : Parser α} {k : α → Continuation} {text : String} (hp : Tracks p s L k)
    (hstart : start text = .ok s) (he : p.run text = .error e) : e.BeyondGrammar ∨ AtImpossible s.spots L e := by
  rw [run_of_start hstart] at he
  cases h : p s with
  | ok a t =>
    rw [h] at he
    cases he
  | error e' t =>
    rw [h] at he
    cases he
    exact hp.error e t h

/-- **A call fails at the first impossible token.** Where reading a text without faults in its tokens fails before the
checks that need all definitions, the call fails with that error. It is about a repeated name or key or too many levels,
or else its place is that of a token such that the tokens before it can go on to tokens that derive a value, for a
schema, or a suite, however deep, while those up to the token and with it cannot. -/
theorem first_impossible {text : String} {spots : List Spot} (h : Located text spots) (maxDepth : Nat)
    (e : ParseError) :
    ((schemaPass maxDepth).run text = .error e → Schema.ofText text maxDepth = .error e ∧
      (e.BeyondGrammar ∨ AtImpossible spots
        (fun tokens => ∃ depth n, Grammar.Value depth tokens n [.endOfInput]) e)) ∧
    ((suitePass maxDepth).run text = .error e → Suite.ofText text maxDepth = .error e ∧
      (e.BeyondGrammar ∨ AtImpossible spots (fun tokens => ∃ depth ds, Grammar.Suite depth tokens ds) e)) := by
  obtain ⟨s, hstart, hs, rfl, -⟩ := start_of_located h
  have hwhole : AnyValue.before Grammar.ended =
      fun tokens => ∃ depth n, Grammar.Value depth tokens n [.endOfInput] := by
    funext tokens
    refine propext ⟨?_, ?_⟩
    · rintro ⟨n, _, ⟨depth, hn⟩, rfl⟩
      exact ⟨depth, n, hn⟩
    · rintro ⟨depth, n, hn⟩
      exact ⟨n, _, ⟨depth, hn⟩, rfl⟩
  rw [← hwhole]
  exact ⟨fun he => ⟨Schema.ofText_error he, (tracks_schemaPass maxDepth hs).run_error hstart he⟩,
    fun he => ⟨Suite.ofText_error he, (tracks_suitePass maxDepth hs).run_error hstart he⟩⟩

/-- A question mark behind an element of an array: a comma, an ellipsis or the bracket could stand there. -/
theorem first_impossible_mark : ∃ spots, Located "[int?]" spots ∧
    (schemaPass 2).run "[int?]" = .error (.structural .expectedCloseBracket none ⟨⟨1, 5, 4⟩, 4, 5⟩) ∧
    AtImpossible spots (fun tokens => ∃ depth n, Grammar.Value depth tokens n [.endOfInput])
      (.structural .expectedCloseBracket none ⟨⟨1, 5, 4⟩, 4, 5⟩) := by
  have hlocated : Located "[int?]" [(⟨⟨1, 1, 0⟩, 0, 1⟩, .symbol .openBracket),
      (⟨⟨1, 2, 1⟩, 1, 4⟩, .keyword .int),
      (⟨⟨1, 5, 4⟩, 4, 5⟩, .symbol .question), (⟨⟨1, 6, 5⟩, 5, 6⟩, .symbol .closeBracket),
      (⟨⟨1, 7, 6⟩, 0, 0⟩, .endOfInput)] := by
    unfold Located
    rfl
  have hrun : (schemaPass 2).run "[int?]" =
      .error (.structural .expectedCloseBracket none ⟨⟨1, 5, 4⟩, 4, 5⟩) := by
    rfl
  have hfault : ¬ (ParseError.structural .expectedCloseBracket none ⟨⟨1, 5, 4⟩, 4, 5⟩).BeyondGrammar := by
    rintro ⟨fault, detail?, position, heq, hfault⟩
    cases heq
    exact absurd hfault (by decide)
  exact ⟨_, hlocated, hrun, ((first_impossible hlocated 2 _).1 hrun).2.resolve_left hfault⟩

end Parser

end Conformance
