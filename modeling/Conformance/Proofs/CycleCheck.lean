import Conformance.Proofs.CycleSearch
import Conformance.Proofs.UndefinedNames

/-!
# The check for cycles is exact

Names of a suite that stand for themselves through bare names are reported once all names are known to be defined. The
error is there just where the declarations of the text have such a chain, and it is about the least name on one.

* `BytesBefore` — the order of texts by their UTF-8 bytes; `bytesBefore_of_lt` says that it is that of the names.
* `Grammar.Placed.Bare`, `Grammar.Placed.Cyclic` — a name stands for another, and a name stands for itself, by the
  declarations of a text.
* `cycles_reported` — the error for cycles, and the end of every search.
-/

set_option autoImplicit false

namespace Conformance

open Relation (TransGen ReflTransGen)

/-! ## The order of names -/

/-- The bytes of the first text come before those of the second. -/
def BytesBefore (a b : String) : Prop :=
  List.Lex (fun x y : UInt8 => x.toNat < y.toNat) a.toUTF8.data.toList b.toUTF8.data.toList

theorem utf8_toList (s : String) : s.toUTF8.data.toList = s.toList.flatMap String.utf8EncodeChar := by
  rw [String.toUTF8, ← String.utf8Encode_toList, List.utf8Encode, List.toList_data_toByteArray]

/-- A byte that is no greater, and where it is the same, what follows it. -/
theorem lex_cons_ofNat {m n : Nat} {l l' : List UInt8} (hm : m < 256) (hn : n < 256) (hle : m ≤ n)
    (h : m = n → List.Lex (fun x y : UInt8 => x.toNat < y.toNat) l l') :
    List.Lex (fun x y : UInt8 => x.toNat < y.toNat) (UInt8.ofNat m :: l) (UInt8.ofNat n :: l') := by
  rcases Nat.lt_or_eq_of_le hle with hlt | rfl
  · refine .rel ?_
    rwa [UInt8.toNat_ofNat_of_lt' hm, UInt8.toNat_ofNat_of_lt' hn]
  · exact .cons (h rfl)

/-- The bytes of a character come before those of a later one, whatever follows. -/
theorem lex_utf8EncodeChar {c d : Char} (h : c < d) (l l' : List UInt8) :
    List.Lex (fun x y : UInt8 => x.toNat < y.toNat) (String.utf8EncodeChar c ++ l) (String.utf8EncodeChar d ++ l') := by
  have hlt : c.val.toNat < d.val.toNat := h
  have hd : d.val.toNat < 0x110000 := by
    have := d.valid
    rcases this with h | h <;> omega
  unfold String.utf8EncodeChar
  generalize c.val.toNat = v at hlt
  generalize d.val.toNat = w at hlt hd
  dsimp only
  split_ifs <;> simp only [List.cons_append, List.nil_append] <;>
    refine lex_cons_ofNat (by omega) (by omega) (by omega) fun h => ?_
  -- Bytes are compared as long as they are the same, at most four of them.
  iterate 4 all_goals first
    | omega
    | refine lex_cons_ofNat (by omega) (by omega) (by omega) fun h => ?_

/-- **The order of texts is that of their bytes.** -/
theorem bytesBefore_of_lt {a b : String} (h : a < b) : BytesBefore a b := by
  unfold BytesBefore
  rw [utf8_toList, utf8_toList]
  change List.Lex (· < ·) a.toList b.toList at h
  generalize a.toList = l, b.toList = l' at h
  induction h with
  | @nil c rest =>
    rw [List.flatMap_cons]
    cases hbytes : String.utf8EncodeChar c with
    | nil => exact absurd hbytes String.utf8EncodeChar_ne_nil
    | cons byte bytes => exact .nil
  | rel h => exact lex_utf8EncodeChar h _ _
  | @cons c rest others _ ih =>
    rw [List.flatMap_cons, List.flatMap_cons]
    induction String.utf8EncodeChar c with
    | nil => exact ih
    | cons byte bytes ih' => exact .cons ih'

open Grammar (Placed)

/-! ## Names that stand for themselves -/

namespace Grammar.Placed

/-- The second name by itself is one of the definitions of the first. -/
def Bare (ps : List Placed) (name next : String) : Prop :=
  ∃ p ∈ ps, p.declaration = .definition name (.reference next)

/-- A chain of bare names leads from the name back to it. -/
def Cyclic (ps : List Placed) (name : String) : Prop := TransGen (Bare ps) name name

/-- The name is the least one from which a chain of bare names leads back to it, in the order of bytes, and this is the
position of its first definition. -/
structure LeastCyclic (ps : List Placed) (name : String) (place : Position) : Prop where
  cyclic : Cyclic ps name
  least : ∀ other, Cyclic ps other → other ≠ name → BytesBefore name other
  first : first? name ps = some place

theorem Cyclic.defined {ps : List Placed} {name : String} (h : Cyclic ps name) : Defined ps name := by
  obtain ⟨next, ⟨p, hp, heq⟩, -⟩ := Relation.TransGen.head'_iff.1 h
  exact ⟨p, hp, congrArg Declaration.definedName? heq⟩

end Grammar.Placed

namespace Parser.SuiteRead

variable {text name next : String} {maxDepth : Nat} {d : Declarations} {ps : List Placed} {checks : List Check}

theorem bare_iff (h : SuiteRead text maxDepth d ps checks) :
    d.definitions.Bare name next ↔ Placed.Bare ps name next := by
  unfold Definitions.Bare Placed.Bare
  rw [h.collects.nodes_eq, List.mem_filterMap]
  constructor
  · rintro ⟨e, he, hnode⟩
    obtain ⟨p, hp, rfl⟩ := List.mem_map.1 he
    refine ⟨p, hp, ?_⟩
    cases hdeclaration : p.declaration with
    | resource r =>
      rw [hdeclaration] at hnode
      cases hnode
    | definition other node =>
      rw [hdeclaration] at hnode
      simp only [Grammar.Declaration.definitionOf?, Option.ite_none_right_eq_some, Option.some.injEq] at hnode
      obtain ⟨rfl, rfl⟩ := hnode
      rfl
  · rintro ⟨p, hp, heq⟩
    refine ⟨_, List.mem_map_of_mem hp, ?_⟩
    rw [heq]
    exact if_pos rfl

theorem isCyclic_iff (h : SuiteRead text maxDepth d ps checks) :
    d.definitions.isCyclic name = true ↔ Placed.Cyclic ps name := by
  have hbare : d.definitions.Bare = Placed.Bare ps := by
    funext a b
    exact propext h.bare_iff
  rw [Definitions.isCyclic_iff, hbare, Placed.Cyclic]

theorem exists_position (h : SuiteRead text maxDepth d ps checks) (hcyclic : Placed.Cyclic ps name) :
    ∃ place, (name, place) ∈ d.positions := by
  have hsome := Placed.first?_iff.2 hcyclic.defined
  rw [← h.positions_eq] at hsome
  obtain ⟨place, hplace⟩ := Option.isSome_iff_exists.1 hsome
  exact ⟨place, Entries.mem_of_get? hplace⟩

theorem find?_eq_none_iff (h : SuiteRead text maxDepth d ps checks) :
    (d.positions.find? fun e => d.definitions.isCyclic e.1) = none ↔ ¬ ∃ name, Placed.Cyclic ps name := by
  rw [List.find?_eq_none]
  simp only [h.isCyclic_iff]
  constructor
  · rintro hnone ⟨name, hcyclic⟩
    obtain ⟨place, hmem⟩ := h.exists_position hcyclic
    exact hnone _ hmem hcyclic
  · exact fun hnone e _ hcyclic => hnone ⟨e.1, hcyclic⟩

/-- The names that are looked at come in their order, so the first that stands for itself is the least. -/
theorem leastCyclic (h : SuiteRead text maxDepth d ps checks) {place : Position}
    (hfind : (d.positions.find? fun e => d.definitions.isCyclic e.1) = some (name, place)) :
    Placed.LeastCyclic ps name place := by
  obtain ⟨hcyclic, before, after, heq, hbefore⟩ := List.find?_eq_some_iff_append.1 hfind
  refine ⟨h.isCyclic_iff.1 hcyclic, fun other hother hne => bytesBefore_of_lt ?_, ?_⟩
  · obtain ⟨otherPlace, hmem⟩ := h.exists_position hother
    rw [heq, List.mem_append] at hmem
    rcases hmem with hmem | hmem
    · have hnot := hbefore _ hmem
      rw [h.isCyclic_iff.2 hother] at hnot
      cases hnot
    · have hsorted := h.positions_sorted
      rw [heq] at hsorted
      rcases List.mem_cons.1 hmem with heq | hmem
      · exact absurd (congrArg Prod.fst heq) hne
      · exact (List.pairwise_cons.1 (List.pairwise_append.1 hsorted).2.1).1 _ hmem
  · rw [← h.positions_eq]
    exact Entries.get?_of_mem h.positions_sorted.nodup_keys (List.mem_of_find?_eq_some hfind)

end Parser.SuiteRead

/-- **Cycles are reported exactly, and each search for one ends.** Where the declarations of a text can be read up to
its end, the text has one list of declarations. If every name that is used in them has a definition, the call fails for
a cycle just where a chain of bare names leads from some name back to it; the error is about the least such name in the
order of bytes, at the position of its first definition.

For any definitions whatever and in any order of pending names, no search for a chain goes on for ever, and it ends with
what is made use of here. -/
theorem cycles_reported :
    (∀ (text : String) (maxDepth : Nat) (d : Parser.Declarations), (Parser.suitePass maxDepth).run text = .ok d →
      ∃ ps, Declares text maxDepth ps ∧ (∀ others, Declares text maxDepth others → others = ps) ∧
        ((∀ name, Placed.Used ps name → Placed.Defined ps name) →
          ((∃ detail? place, Suite.ofText text maxDepth = .error (.structural .cyclicName detail? place)) ↔
            ∃ name, Placed.Cyclic ps name) ∧
          ∀ detail? place, Suite.ofText text maxDepth = .error (.structural .cyclicName detail? place) →
            ∃ name, detail? = some name ∧ Placed.LeastCyclic ps name place)) ∧
    ∀ (definitions : Definitions) (goal : String),
      (WellFounded fun t s => Definitions.Search.Step definitions goal s t) ∧
      ∀ s, ReflTransGen (Definitions.Search.Step definitions goal) (.start goal) s →
        (∃ t, Definitions.Search.Step definitions goal s t) ∨ s.Ends definitions goal (definitions.isCyclic goal) := by
  refine ⟨fun text maxDepth d h => ?_, Definitions.search_ends⟩
  obtain ⟨ps, checks, hread⟩ := Parser.suitePass_ok h
  refine ⟨ps, hread.declares, fun others hothers => hothers.unique hread.declares, fun hdefined => ?_⟩
  have hnames : checkNames d.definitions checks = .ok () := by
    unfold checkNames
    rw [hread.undefinedNames_nil_iff.2 hdefined]
  have herror : ∀ detail? place, Suite.ofText text maxDepth = .error (.structural .cyclicName detail? place) ↔
      checkCycles d.definitions d.positions = .error (.structural .cyclicName detail? place) := fun detail? place =>
    hread.error_iff.trans (resolve_cyclicName_iff hnames)
  simp only [herror]
  unfold checkCycles
  cases hfind : d.positions.find? fun e => d.definitions.isCyclic e.1 with
  | none =>
    exact ⟨iff_of_false nofun (hread.find?_eq_none_iff.1 hfind), fun detail? place he => by cases he⟩
  | some found =>
    obtain ⟨name, place⟩ := found
    have hleast := hread.leastCyclic hfind
    refine ⟨iff_of_true ⟨_, _, rfl⟩ ⟨name, hleast.cyclic⟩, fun detail? place' he => ?_⟩
    cases he
    exact ⟨name, rfl, hleast⟩

/-- Two names that stand for each other. The one that is defined later is reported, as it is the least. -/
theorem cycles_reported_pair :
    (∃ d, (Parser.suitePass 1).run "&b = &a &a = &b" = .ok d) ∧
      ∃ ps, Declares "&b = &a &a = &b" 1 ps ∧ (∀ name, Placed.Used ps name → Placed.Defined ps name) ∧
        Suite.ofText "&b = &a &a = &b" 1 = .error (.structural .cyclicName (some "a") ⟨⟨1, 10, 9⟩, 9, 10⟩) ∧
        Placed.LeastCyclic ps "a" ⟨⟨1, 10, 9⟩, 9, 10⟩ := by
  have hpass : ∃ d, (Parser.suitePass 1).run "&b = &a &a = &b" = .ok d := ⟨_, rfl⟩
  have herror : Suite.ofText "&b = &a &a = &b" 1 =
      .error (.structural .cyclicName (some "a") ⟨⟨1, 10, 9⟩, 9, 10⟩) := by
    rfl
  have hlocated : Located "&b = &a &a = &b" [(⟨⟨1, 1, 0⟩, 0, 1⟩, .symbol .ampersand),
      (⟨⟨1, 2, 1⟩, 1, 2⟩, .name "b"), (⟨⟨1, 4, 3⟩, 3, 4⟩, .symbol .equals),
      (⟨⟨1, 6, 5⟩, 5, 6⟩, .symbol .ampersand), (⟨⟨1, 7, 6⟩, 6, 7⟩, .name "a"),
      (⟨⟨1, 9, 8⟩, 8, 9⟩, .symbol .ampersand), (⟨⟨1, 10, 9⟩, 9, 10⟩, .name "a"),
      (⟨⟨1, 12, 11⟩, 11, 12⟩, .symbol .equals), (⟨⟨1, 14, 13⟩, 13, 14⟩, .symbol .ampersand),
      (⟨⟨1, 15, 14⟩, 14, 15⟩, .name "b"), (⟨⟨1, 16, 15⟩, 0, 0⟩, .endOfInput)] := by
    unfold Located
    rfl
  -- One definition by a bare name in front of others.
  have hcons : ∀ {p q r u v : Position} {name next : String} {rest : List Spot} {ps : List Placed},
      Grammar.Places 1 rest ps → Grammar.Places 1 ((p, .symbol .ampersand) :: (q, .name name) ::
        ([(r, .symbol .equals), (u, .symbol .ampersand), (v, .name next)] ++ rest))
        (⟨.definition name (.reference next), q, [(next, u)]⟩ :: ps) := fun hrest =>
    .declaration (.definition .name (.reference .name)) (.other nofun (.use rfl .nil)) hrest
  obtain ⟨d, hd⟩ := hpass
  obtain ⟨ps, hdeclares, hunique, hcheck⟩ := cycles_reported.1 _ _ _ hd
  have hps := hunique _ ⟨_, hlocated, hcons (hcons .endOfInput)⟩
  have hdefined : ∀ name, Placed.Used ps name → Placed.Defined ps name := by
    rintro name ⟨p, hp, n, hn, hused⟩
    rw [← hps] at hp ⊢
    rcases List.mem_pair.1 hp with rfl | rfl
    · obtain rfl := List.mem_singleton.1 hn
      cases List.mem_singleton.1 hused
      exact ⟨_, List.mem_cons_of_mem _ List.mem_cons_self, rfl⟩
    · obtain rfl := List.mem_singleton.1 hn
      cases List.mem_singleton.1 hused
      exact ⟨_, List.mem_cons_self, rfl⟩
  obtain ⟨name, hname, hleast⟩ := (hcheck hdefined).2 _ _ herror
  cases hname
  exact ⟨⟨d, hd⟩, ps, hdeclares, hdefined, herror, hleast⟩

end Conformance
