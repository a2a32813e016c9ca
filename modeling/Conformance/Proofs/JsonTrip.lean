import Conformance.Json.Basic
import Conformance.Proofs.Dates
import Conformance.Proofs.Evolution

/-!
# Values that went through JSON

A value that conforms to a schema, is written as JSON and is read again, still conforms but for the scalars
that JSON has no kind for, and comparing it with the schema brings back the value itself.

* `Uuid.ofText?_characters` — the text of an identifier is read as the identifier.
* `Value.Portable` — JSON has a form for all that the value holds.
* `Value.trip` — what the value is after the way to JSON and back.
* `Restores` — the grading of one value gives back another one by conversions alone.
* `gradeItems_restores`, `gradeMap_restores`, … — restoring a composite, by restoring its parts.
* `grade_restores` — restoring any value that matches.
* `Schema.compare_trip` — the same for accepted schemas.
-/

set_option autoImplicit false

namespace Conformance

/-! ## The text of an identifier -/

namespace Uuid

theorem hexDigit?_hexChar : ∀ n : Fin 16, hexDigit? (hexChar n) = some n := by decide

theorem mapM_hexDigit? (digits : List (Fin 16)) :
    (digits.map hexChar).mapM hexDigit? = some digits := by
  induction digits with
  | nil => rfl
  | cons n digits ih => simp [hexDigit?_hexChar, ih]

theorem unhyphenate?_hyphenate {sizes : List Nat} (hne : sizes ≠ []) {digits : List Char}
    (h : digits.length = sizes.sum) : unhyphenate? sizes (hyphenate sizes digits) = some digits := by
  induction sizes generalizing digits with
  | nil => exact absurd rfl hne
  | cons size sizes ih =>
    cases sizes with
    | nil =>
      have hlength : digits.length = size := by simpa using h
      simp [hyphenate, unhyphenate?, hlength]
    | cons next sizes =>
      have hsize : (digits.take size).length = size := by
        rw [List.length_take]
        simp only [List.sum_cons] at h
        omega
      have hrest : (digits.drop size).length = (next :: sizes).sum := by
        rw [List.length_drop, h, List.sum_cons, Nat.add_sub_cancel_left]
      have hdrop : ∀ rest, (digits.take size ++ '-' :: rest).drop size = '-' :: rest := fun rest => by
        rw [List.drop_append_of_le_length (by omega), List.drop_of_length_le (by omega), List.nil_append]
      have htake : ∀ rest, (digits.take size ++ '-' :: rest).take size = digits.take size :=
        fun rest => by
          rw [List.take_append_of_le_length (by omega), List.take_of_length_le (by omega)]
      simp only [hyphenate, unhyphenate?, hdrop, htake, ih (List.cons_ne_nil _ _) hrest,
        Option.map_some, List.take_append_drop]

/-- **The text of an identifier is read as the identifier.** -/
theorem ofText?_characters (u : Uuid) : ofText? u.characters = some u := by
  have hlength : (u.digits.map hexChar).length = groups.sum := by
    rw [List.length_map, u.digits_length]
    rfl
  have hread : (unhyphenate? groups u.characters).bind (·.mapM hexDigit?) = some u.digits := by
    have hgroups : groups ≠ [] := List.cons_ne_nil _ _
    unfold characters
    rw [unhyphenate?_hyphenate hgroups hlength, Option.bind_some, mapM_hexDigit?]
  unfold ofText?
  rw [hread]
  exact dif_pos u.digits_length

end Uuid

/-! ## The way to JSON and back -/

namespace Value

mutual

/-- JSON has a form for all that the value holds: numbers are finite, dates lie in the years 0000 to 9999 and
inside a leap second only at the end of a minute, and URIs are not empty and are URI references. -/
def Portable : Value → Prop
  | .real r => r.isFinite = true
  | .date t => (0 ≤ t.day.year ∧ t.day.year ≤ 9999) ∧ t.LeapEndsMinute
  | .uri text => text ≠ "" ∧ UriReference.isValid text.toList = true
  | .array items => PortableItems items
  | .map entries => PortableEntries entries
  | _ => True

/-- Every item is portable. -/
def PortableItems : List Value → Prop
  | [] => True
  | v :: vs => v.Portable ∧ PortableItems vs

/-- Every value at a key is portable. -/
def PortableEntries : List (String × Value) → Prop
  | [] => True
  | (_, v) :: rest => v.Portable ∧ PortableEntries rest

end

theorem portableItems_iff {items : List Value} : PortableItems items ↔ ∀ v ∈ items, v.Portable := by
  induction items with
  | nil => simp [PortableItems]
  | cons v items ih => simp [PortableItems, ih]

theorem portableEntries_iff {entries : List (String × Value)} :
    PortableEntries entries ↔ ∀ e ∈ entries, e.2.Portable := by
  induction entries with
  | nil => simp [PortableEntries]
  | cons e entries ih => simp [PortableEntries, ih]

/-- The value that a value is after it was written as JSON and read again. -/
def trip (v : Value) : Value := (Json.ofValue v).toValue

theorem trip_array (items : List Value) : (Value.array items).trip = .array (items.map trip) := by
  have h : ∀ items, Json.itemsToValues (Json.ofItems items) = items.map trip := by
    intro items
    induction items with
    | nil => rfl
    | cons v items ih => simp only [Json.ofItems, Json.itemsToValues, ih, List.map_cons, trip]
  simp only [trip, Json.ofValue, Json.toValue, h]

/-- The entries of a map with the values that they are after the way to JSON and back. -/
def tripEntries (entries : Entries Value) : Entries Value := entries.map fun e => (e.1, e.2.trip)

theorem trip_map (entries : List (String × Value)) :
    (Value.map entries).trip = .map (tripEntries entries) := by
  have h : ∀ entries, Json.membersToValues (Json.ofEntries entries) = tripEntries entries := by
    intro entries
    induction entries with
    | nil => rfl
    | cons e entries ih =>
      simp only [Json.ofEntries, Json.membersToValues, ih]
      rfl
  simp only [trip, Json.ofValue, Json.toValue, h]

theorem get?_tripEntries (entries : Entries Value) (key : String) :
    Entries.get? (tripEntries entries) key = (Entries.get? entries key).map trip := by
  induction entries with
  | nil => rfl
  | cons e entries ih =>
    have hcons : tripEntries (e :: entries) = (e.1, e.2.trip) :: tripEntries entries := rfl
    rw [hcons, Entries.get?_cons, Entries.get?_cons, ih]
    split <;> rfl

/-- What a literal can stand for has a kind of its own in JSON. -/
theorem IsLiteral.trip {v : Value} (h : v.IsLiteral) : v.trip = v := by
  cases v
  case boolean => rfl
  case string => rfl
  case integer i => simp [Value.trip, Json.ofValue, Json.toValue, Scan.int32?_toInt]
  case real r =>
    have hr : r.isFinite = true := h
    simp [Value.trip, Json.ofValue, Json.toValue, hr]
  all_goals exact h.elim

theorem isLiteral_of_isDiscriminant {v : Value} (h : v.isDiscriminant = true) : v.IsLiteral := by
  cases v <;> trivial

theorem isUndefined_trip {v : Value} (h : v.Portable) : v.trip.isUndefined = v.isUndefined := by
  cases v <;> try rfl
  case integer i => exact congrArg isUndefined (IsLiteral.trip (v := .integer i) trivial)
  case real r => exact congrArg isUndefined (IsLiteral.trip (v := .real r) h)

end Value

/-! ## Restoring scalars -/

/-- A text that is not empty is converted to what it is read as. -/
theorem coerce_text {target : Kind} {text : String} {v : Value} (hkind : target ≠ .string)
    (hne : text ≠ "") (h : Coercion.convert? target (.string text) = some v) :
    coerce target (.string text) = .converted v := by
  rw [coerce_of_present (Ne.symm hkind) (Coercion.isMissing_text hne), h]
  rfl

/-- The grade is that of a value that conforms as it is or by conversions only. -/
def Outcome.Lossless (o : Outcome) : Prop := o = .matched ∨ o = .converted

theorem Outcome.Lossless.join {a b : Outcome} (ha : a.Lossless) (hb : b.Lossless) :
    (a.join b).Lossless := by
  rcases ha with rfl | rfl <;> rcases hb with rfl | rfl
  · exact .inl rfl
  · exact .inr rfl
  · exact .inr rfl
  · exact .inr rfl

theorem Outcome.Lossless.ne_incompatible {o : Outcome} (h : o.Lossless) : o ≠ .incompatible := by
  rcases h with rfl | rfl <;> decide

/-- The grading of the first value gives back the second one by conversions alone. -/
def Restores (definitions : Definitions) (levels : Nat) (entered : List String) (node : Node)
    (w v : Value) : Prop :=
  ∃ g, grade definitions levels entered node w = some g ∧ g.outcome.Lossless ∧ g.value = v

/-- The grading of a part gives back another part by conversions alone. -/
def Inside.Restores (inside : Inside) (node : Node) (w v : Value) : Prop :=
  ∃ g, inside.grade node w = some g ∧ g.outcome.Lossless ∧ g.value = v

theorem gradePrimitive_restores {kind : Kind} {w v : Value}
    (h : coerce kind w = .matched ∧ w = v ∨ coerce kind w = .converted v) :
    (gradePrimitive kind w).outcome.Lossless ∧ (gradePrimitive kind w).value = v := by
  unfold gradePrimitive
  rcases h with ⟨hmatched, rfl⟩ | hconverted
  · rw [hmatched]
    exact ⟨.inl rfl, rfl⟩
  · rw [hconverted]
    exact ⟨.inr rfl, rfl⟩

/-- What JSON has a kind for stays as it is, and what becomes a text is read from it. -/
theorem coerce_trip {v : Value} (hv : v.Portable) (hbinary : v.kind ≠ .binary)
    (harray : v.kind ≠ .array) (hmap : v.kind ≠ .map) :
    coerce v.kind v.trip = .matched ∧ v.trip = v ∨ coerce v.kind v.trip = .converted v := by
  have hsame : v.trip = v → coerce v.kind v.trip = .matched ∧ v.trip = v := fun heq =>
    ⟨coerce_eq_matched.2 (congrArg Value.kind heq), heq⟩
  cases v
  case undefined => exact .inl (hsame rfl)
  case boolean => exact .inl (hsame rfl)
  case integer i => exact .inl (hsame (Value.IsLiteral.trip trivial))
  case real r => exact .inl (hsame (Value.IsLiteral.trip hv))
  case string => exact .inl (hsame rfl)
  case uuid u =>
    have hread := Uuid.ofText?_characters u
    refine .inr (coerce_text (by rintro ⟨⟩) ?_ ?_)
    · intro hnil
      have hchars : u.characters = [] := by simpa [Uuid.text] using congrArg String.toList hnil
      rw [hchars] at hread
      cases hread
    · simp [Value.kind, Coercion.convert?, Coercion.toUuid?, Uuid.text, hread]
  case date t =>
    have hread := Instant.ofText?_characters_of_leapEndsMinute hv.1 hv.2
    refine .inr (coerce_text (by rintro ⟨⟩) ?_ ?_)
    · intro hnil
      have hchars : t.characters = [] := by simpa [Instant.toList_text] using congrArg String.toList hnil
      rw [hchars] at hread
      cases hread
    · simp [Value.kind, Coercion.convert?, Coercion.toDate?, Instant.toList_text, hread]
  case uri text =>
    obtain ⟨hne, hvalid⟩ := hv
    refine .inr (coerce_text (by rintro ⟨⟩) hne ?_)
    simp [Value.kind, Coercion.convert?, Coercion.toUri?, hvalid]
  case binary => exact absurd rfl hbinary
  case array => exact absurd rfl harray
  case map => exact absurd rfl hmap

/-! ## Restoring composites -/

/-- Pieces make up sorted entries again where they are these entries in any order. -/
theorem Entries.ofList_eq {α : Type} {pieces : List (String × α)} {entries : Entries α}
    (hpieces : (pieces.map Prod.fst).Nodup) (hentries : entries.Sorted)
    (h : ∀ e, e ∈ pieces ↔ e ∈ entries) : ofList pieces = entries := by
  refine (sorted_ofList pieces).ext hentries fun key => ?_
  rw [get?_ofList hpieces]
  cases hget : get? pieces key with
  | some v => exact (get?_of_mem hentries.nodup_keys ((h _).1 (mem_of_get? hget))).symm
  | none =>
    refine (get?_eq_none.2 fun e he hkey => ?_).symm
    exact get?_eq_none.1 hget e ((h e).2 he) hkey

section Composites

variable {inside : Inside}

theorem gradeItems_restores (index : Nat) {nodes : List Node} {items : List Value}
    (h : List.Forall₂ (fun n v => inside.Restores n v.trip v) nodes items) :
    ∃ p, gradeItems inside index nodes (items.map Value.trip) = some p ∧ p.outcome.Lossless ∧
      p.pieces = items := by
  induction h generalizing index with
  | nil => exact ⟨_, rfl, .inl rfl, rfl⟩
  | @cons n v nodes items hfirst _ ih =>
    obtain ⟨g, hg, hlossless, hvalue⟩ := hfirst
    obtain ⟨rest, hrest, hlossless', hpieces⟩ := ih (index + 1)
    refine ⟨_, gradeItems_cons_cons.2 ⟨g, rest, hg, hrest, rfl⟩, hlossless.join hlossless', ?_⟩
    change g.value :: rest.pieces = v :: items
    rw [hvalue, hpieces]

theorem gradeArray_restores {elements : List Node} {size : ArraySize} {items : List Value}
    (hne : elements ≠ [])
    (h : List.Forall₂ (fun n v => inside.Restores n v.trip v) (size.unroll elements items.length) items) :
    ∃ g, gradeArray inside elements size (Value.array items).trip = some g ∧ g.outcome.Lossless ∧
      g.value = .array items := by
  obtain ⟨p, hp, hlossless, hpieces⟩ := gradeItems_restores 0 h
  refine ⟨p.close .array (Value.array items).trip, ?_, hlossless, ?_⟩
  · rw [Value.trip_array]
    simp [gradeArray, hne, hp]
  · change (if p.outcome = .incompatible then _ else Value.array p.pieces) = _
    rw [if_neg hlossless.ne_incompatible, hpieces]

variable {entries : Entries Value}

/-- A field that matches before the way to JSON and back is restored after it. -/
theorem gradeField_restores {f : Field Node} (hm : FieldMatches inside entries f)
    (hportable : ∀ v, Entries.get? entries f.name = some v → v.Portable)
    (hin : ∀ v, Entries.get? entries f.name = some v → inside.Matches f.node v →
      inside.Restores f.node v.trip v) :
    ∃ p v, gradeField inside (Value.tripEntries entries) f = some p ∧ p.outcome.Lossless ∧
      p.pieces = [(f.name, v)] ∧ Entries.get? entries f.name = some v := by
  rcases hm with ⟨v, hget, hpresent, hmatches⟩ | ⟨hget, habsent, hfill⟩
  · obtain ⟨g, hg, hlossless, rfl⟩ := hin v hget hmatches
    refine ⟨.graded (.key f.name) (f.name, ·) g, g.value, ?_, hlossless, rfl, hget⟩
    have hundefined := Value.isUndefined_trip (hportable _ hget)
    rw [← hundefined] at hpresent
    simp [gradeField, Value.get?_tripEntries, hget, hpresent, hg]
  · refine ⟨.kept (f.name, .undefined), .undefined, ?_, .inl rfl, rfl, hget⟩
    have hundefined : Value.trip .undefined = .undefined := rfl
    simp [gradeField, gradeField.fillIn, Value.get?_tripEntries, hget, hundefined, habsent, hfill,
      Value.isUndefined]

theorem gradeFields_restores {fields : List (Field Node)}
    (hm : ∀ f ∈ fields, FieldMatches inside entries f)
    (hportable : ∀ e ∈ entries, e.2.Portable)
    (hin : ∀ f ∈ fields, ∀ v, Entries.get? entries f.name = some v → inside.Matches f.node v →
      inside.Restores f.node v.trip v) :
    ∃ p, gradeFields inside (Value.tripEntries entries) fields = some p ∧ p.outcome.Lossless ∧
      p.pieces.map Prod.fst = fields.map Field.name ∧ ∀ e ∈ p.pieces, e ∈ entries := by
  induction fields with
  | nil => exact ⟨.empty, rfl, .inl rfl, rfl, fun _ he => (List.not_mem_nil he).elim⟩
  | cons f fields ih =>
    obtain ⟨hf, hm⟩ := List.forall_mem_cons.1 hm
    obtain ⟨hin', hin⟩ := List.forall_mem_cons.1 hin
    obtain ⟨part, v, hpart, hlossless, hpiece, hget⟩ :=
      gradeField_restores hf (fun v hv => hportable _ (Entries.mem_of_get? hv)) hin'
    obtain ⟨rest, hrest, hlossless', hnames, hpieces⟩ := ih hm hin
    refine ⟨_, gradeFields_cons.2 ⟨part, rest, hpart, hrest, rfl⟩, hlossless.join hlossless', ?_, ?_⟩
    · simp only [Parts.append, hpiece, List.singleton_append, List.map_cons, hnames]
    · intro e he
      simp only [Parts.append, hpiece, List.singleton_append, List.mem_cons] at he
      rcases he with rfl | he
      · exact Entries.mem_of_get? hget
      · exact hpieces e he

section Pieces

variable {fields : List (Field Node)} {pieces : List (String × Value)}
  (hnames : pieces.map Prod.fst = fields.map Field.name)

include hnames

/-- No key comes up twice among the pieces of fields and what is kept beside them. -/
theorem nodup_pieces (hnd : (fields.map Field.name).Nodup) (hsorted : entries.Sorted)
    (kept : Option String) :
    ((pieces ++ (undeclaredEntries fields kept (Value.tripEntries entries)).pieces).map Prod.fst).Nodup := by
  rw [List.map_append, List.nodup_append]
  refine ⟨hnames ▸ hnd, ?_, ?_⟩
  · rw [undeclaredEntries_pieces]
    have hkeys : (Value.tripEntries entries).map Prod.fst = entries.map Prod.fst := by
      simp [Value.tripEntries]
    exact (hkeys ▸ hsorted.nodup_keys).sublist (List.filter_sublist.map Prod.fst)
  · rintro key hkey _ hkey' rfl
    rw [hnames] at hkey
    obtain ⟨f, hf, rfl⟩ := List.mem_map.1 hkey
    obtain ⟨d, hd, hsame⟩ := List.mem_map.1 hkey'
    have hnone := List.find?_eq_none.1 (mem_undeclaredEntries.1 hd).2.1 f hf
    exact hnone (by simpa using hsame.symm)

/-- The pieces of fields and what is kept beside them are the entries of the map, where the map has no others. -/
theorem mem_pieces_iff {kept : Option String} (hsorted : entries.Sorted) (hm : MapMatches inside fields kept entries)
    (hkept : ∀ e ∈ entries, kept = some e.1 → e.2.trip = e.2) (hpieces : ∀ e ∈ pieces, e ∈ entries)
    (e : String × Value) :
    e ∈ pieces ++ (undeclaredEntries fields kept (Value.tripEntries entries)).pieces ↔ e ∈ entries := by
  rw [List.mem_append, mem_undeclaredEntries]
  constructor
  · rintro (he | ⟨he, -, hkey⟩)
    · exact hpieces e he
    · obtain ⟨d, hd, rfl⟩ := List.mem_map.1 he
      rw [hkept d hd hkey]
      exact hd
  · intro he
    by_cases hfind : (Field.find? fields e.1).isSome = true
    · obtain ⟨f, hf, hname⟩ := List.find?_isSome.1 hfind
      have hmem : e.1 ∈ pieces.map Prod.fst := by
        rw [hnames, ← show f.name = e.1 by simpa using hname]
        exact List.mem_map_of_mem hf
      obtain ⟨d, hd, hkey⟩ := List.mem_map.1 hmem
      have hvalue := Entries.get?_of_mem hsorted.nodup_keys (hpieces d hd)
      rw [hkey, Entries.get?_of_mem hsorted.nodup_keys he] at hvalue
      have hsame : d = e := Prod.ext hkey (Option.some.inj hvalue).symm
      exact .inl (hsame ▸ hd)
    · have hkey := (hm.others e he).resolve_left hfind
      refine .inr ⟨List.mem_map.2 ⟨e, he, ?_⟩, by simpa using hfind, hkey⟩
      rw [hkept e he hkey]

end Pieces

/-- A map that matches before the way to JSON and back is restored after it, where the way does not change
what stands at the key that is kept. -/
theorem gradeMap_restores {fields : List (Field Node)} {kept : Option String}
    (hnd : (fields.map Field.name).Nodup) (hsorted : entries.Sorted)
    (hm : MapMatches inside fields kept entries) (hportable : ∀ e ∈ entries, e.2.Portable)
    (hkept : ∀ e ∈ entries, kept = some e.1 → e.2.trip = e.2)
    (hin : ∀ f ∈ fields, ∀ v, Entries.get? entries f.name = some v → inside.Matches f.node v →
      inside.Restores f.node v.trip v) :
    ∃ g, gradeMap inside fields kept (Value.map entries).trip = some g ∧ g.outcome.Lossless ∧
      g.value = .map entries := by
  obtain ⟨p, hp, hlossless, hnames, hpieces⟩ := gradeFields_restores hm.declared hportable hin
  have hothers : (undeclaredEntries fields kept (Value.tripEntries entries)).outcome = .matched := by
    refine undeclaredEntries_matched_iff.2 fun e he => ?_
    obtain ⟨d, hd, rfl⟩ := List.mem_map.1 he
    exact hm.others d hd
  have hlossless : (p.append (undeclaredEntries fields kept (Value.tripEntries entries))).outcome.Lossless :=
    hlossless.join (.inl hothers)
  refine ⟨_, by rw [Value.trip_map, gradeMap, hp, Option.map_some], hlossless, ?_⟩
  change (if _ then _ else Value.map (Entries.ofList _)) = _
  rw [if_neg hlossless.ne_incompatible]
  have hpieces := mem_pieces_iff hnames hsorted hm hkept hpieces
  exact congrArg Value.map (Entries.ofList_eq (nodup_pieces hnames hnd hsorted kept) hsorted hpieces)

theorem gradeEntries_restores {entry : Node} {others : Entries Value}
    (h : ∀ e ∈ others, inside.Restores entry e.2.trip e.2) :
    ∃ p, gradeEntries inside entry (Value.tripEntries others) = some p ∧ p.outcome.Lossless ∧
      p.pieces = others := by
  induction others with
  | nil => exact ⟨.empty, rfl, .inl rfl, rfl⟩
  | cons e others ih =>
    obtain ⟨⟨g, hg, hlossless, hvalue⟩, h⟩ := List.forall_mem_cons.1 h
    obtain ⟨rest, hrest, hlossless', hpieces⟩ := ih h
    have hcons : Value.tripEntries (e :: others) = (e.1, e.2.trip) :: Value.tripEntries others := rfl
    refine ⟨_, by rw [hcons]; exact gradeEntries_cons.2 ⟨g, rest, hg, hrest, rfl⟩,
      hlossless.join hlossless', ?_⟩
    change (e.1, g.value) :: rest.pieces = e :: others
    rw [hvalue, hpieces]

theorem gradeDictionary_restores {entry : Node} (hsorted : entries.Sorted)
    (h : ∀ e ∈ entries, inside.Restores entry e.2.trip e.2) :
    ∃ g, gradeDictionary inside entry (Value.map entries).trip = some g ∧ g.outcome.Lossless ∧
      g.value = .map entries := by
  obtain ⟨p, hp, hlossless, hpieces⟩ := gradeEntries_restores h
  refine ⟨_, by rw [Value.trip_map, gradeDictionary, hp, Option.map_some], hlossless, ?_⟩
  change (if p.outcome = .incompatible then _ else Value.map (Entries.ofList p.pieces)) = _
  rw [if_neg hlossless.ne_incompatible, hpieces,
    Entries.ofList_eq hsorted.nodup_keys hsorted fun _ => Iff.rfl]

end Composites

/-! ## Restoring every value -/

/-- What the way to JSON and back asks of a node: it is formed, declares no name twice, and takes neither
bytes nor any value. -/
structure Node.Bridged (node : Node) : Prop where
  formed : node.Formed
  distinct : node.DistinctNames
  not_any : node ≠ .any
  not_binary : node ≠ .primitive .binary

/-- A type of a schema text is that of a scalar. -/
theorem Keyword.kind?_ne {k : Keyword} {kind : Kind} (h : k.kind? = some kind) :
    kind ≠ .array ∧ kind ≠ .map := by
  cases k <;> cases h <;> decide

/-- A map is restored where the values in it are. -/
theorem gradeMap_bridged {levels : Nat} {fields : List (Field Node)} {kept : Option String}
    {entries : Entries Value}
    (ih : ∀ {node v}, (∀ m ∈ node.subnodes, m.Bridged) → v.Tidy → v.Portable → Matches [] levels [] node v →
      Restores [] levels [] node v.trip v)
    (hn : ∀ m ∈ (Node.map fields).subnodes, m.Bridged) (hv : (Value.map entries).Tidy)
    (hportable : (Value.map entries).Portable) (hm : MapMatches (.below [] levels []) fields kept entries)
    (hkept : ∀ e ∈ entries, kept = some e.1 → e.2.trip = e.2) :
    ∃ g, gradeMap (.below [] levels []) fields kept (Value.map entries).trip = some g ∧
      g.outcome.Lossless ∧ g.value = .map entries := by
  obtain ⟨hself, hparts⟩ := Node.forall_subnodes_iff.1 hn
  have hportable := Value.portableEntries_iff.1 hportable
  have htidy := Value.tidyEntries_iff.1 hv.2
  refine gradeMap_restores hself.distinct hv.1 hm hportable hkept fun f hf w hget hmatches => ?_
  have hmem := Entries.mem_of_get? hget
  exact ih (hparts _ (.field hf)) (htidy _ hmem) (hportable _ hmem) hmatches

theorem gradeLiteral_restores {expected v : Value} (hexpected : expected.IsLiteral) (hportable : v.Portable)
    (hequal : expected.equal v = true) : gradeLiteral expected v.trip = .matched v := by
  have hliteral : v.IsLiteral := by
    cases expected <;> cases v <;>
      first | exact hexpected.elim | exact trivial | exact hportable | cases hequal
  rw [hliteral.trip, gradeLiteral, if_pos hequal]

/-- The way to JSON and back does not change the key, so the same alternative is chosen. -/
theorem Alternative.chosen?_tripEntries {discriminant : String} {alternatives : List (Alternative Node)}
    {entries : Entries Value} {a : Alternative Node}
    (h : chosen? alternatives discriminant entries = some a) :
    chosen? alternatives discriminant (Value.tripEntries entries) = some a ∧
      ∀ w, Entries.get? entries discriminant = some w → w.trip = w := by
  obtain ⟨key, hget, hdiscriminant, hfind⟩ := chosen?_eq_some.1 h
  have hkey : key.trip = key := (Value.isLiteral_of_isDiscriminant hdiscriminant).trip
  refine ⟨chosen?_eq_some.2 ⟨key, ?_, hdiscriminant, hfind⟩, fun w hw => ?_⟩
  · rw [Value.get?_tripEntries, hget, Option.map_some, hkey]
  · rw [hget] at hw
    rw [← Option.some.inj hw, hkey]

/-- **A value that matches is restored after the way to JSON and back**, with as many levels. -/
theorem grade_restores {levels : Nat} {node : Node} {v : Value}
    (hn : ∀ m ∈ node.subnodes, m.Bridged) (hv : v.Tidy) (hportable : v.Portable)
    (hm : Matches [] levels [] node v) : Restores [] levels [] node v.trip v := by
  induction levels generalizing node v with
  | zero => exact absurd hm not_matches_zero
  | succ levels ih =>
    obtain ⟨hself, hparts⟩ := Node.forall_subnodes_iff.1 hn
    cases node
    case any => exact absurd rfl hself.not_any
    case primitive kind =>
      obtain rfl := grade_primitive_matched_iff.1 hm
      obtain ⟨k, hk⟩ := hself.formed
      obtain ⟨harray, hmap⟩ := k.kind?_ne hk
      have hbinary : v.kind ≠ .binary := fun heq => hself.not_binary (congrArg Node.primitive heq)
      exact ⟨_, rfl, gradePrimitive_restores (coerce_trip hportable hbinary harray hmap)⟩
    case literal expected =>
      have hmatched := gradeLiteral_restores hself.formed hportable (grade_literal_matched_iff.1 hm)
      exact ⟨_, congrArg some hmatched, .inl rfl, rfl⟩
    case array elements size =>
      obtain ⟨items, rfl, hnil | hall⟩ := grade_array_matched_iff.1 hm
      · exact absurd hnil hself.formed
      have hportable := Value.portableItems_iff.1 hportable
      have htidy := Value.tidyItems_iff.1 hv
      have hnodes : ∀ n ∈ size.unroll elements items.length, ∀ m ∈ n.subnodes, m.Bridged :=
        fun n hn => hparts n (.element (ArraySize.mem_unroll hn))
      have hall := (List.forall₂_and_left _ _).2 ⟨hnodes, hall⟩
      have hall := (List.forall₂_and_left _ _).2
        ⟨fun w hw => And.intro (htidy w hw) (hportable w hw), hall.flip⟩
      refine gradeArray_restores hself.formed (hall.flip.imp fun n w h => ?_)
      obtain ⟨⟨htidy, hportable⟩, hn, hmatches⟩ := h
      exact ih hn htidy hportable hmatches
    case map fields =>
      obtain ⟨entries, rfl, hmatches⟩ := grade_map_matched_iff.1 hm
      exact gradeMap_bridged ih hn hv hportable hmatches fun _ _ hkept => by cases hkept
    case dictionary entry =>
      obtain ⟨entries, rfl, hall⟩ := grade_dictionary_matched_iff.1 hm
      have hportable := Value.portableEntries_iff.1 hportable
      have htidy := Value.tidyEntries_iff.1 hv.2
      refine gradeDictionary_restores hv.1 fun e he => ?_
      exact ih (hparts _ .entry) (htidy e he) (hportable e he) (hall e he)
    case selector discriminant alternatives =>
      obtain ⟨entries, a, rfl, ha, hcase⟩ := grade_selector_matched hm
      obtain ⟨hchosen, hkey⟩ := Alternative.chosen?_tripEntries ha
      have hpart := hparts _ (.alternative (Alternative.mem_of_chosen? ha))
      unfold Restores
      rw [grade_selector, Value.trip_map, gradeSelector_of_chosen hchosen, ← Value.trip_map]
      rcases hcase with ⟨fields, hfields, hmatches⟩ | ⟨hnone, hmatches⟩
      · rw [hfields]
        rw [Definitions.resolveMap?_nil.1 hfields] at hpart
        refine gradeMap_bridged ih hpart hv hportable hmatches fun e he hkept => hkey e.2 ?_
        rw [Option.some.inj hkept]
        exact Entries.get?_of_mem hv.1.nodup_keys he
      · rw [hnone]
        exact ih hpart hv hportable hmatches
    case reference name =>
      obtain ⟨g, hg, hmatched⟩ := hm
      cases hg
      cases hmatched

/-! ## Accepted schemas -/

theorem Schema.bridged {text : String} {depth : Nat} {s : Schema}
    (h : Schema.ofText text depth = .ok s) (hany : .any ∉ s.node.subnodes)
    (hbinary : .primitive .binary ∉ s.node.subnodes) : ∀ m ∈ s.node.subnodes, m.Bridged := by
  intro m hm
  refine ⟨allFormed_of_text h m hm, ((soundAlone h).inTree m hm).1.distinctNames, ?_, ?_⟩
  · rintro rfl
    exact hany hm
  · rintro rfl
    exact hbinary hm

/-- **Values that conform survive the way through JSON.** Let a schema be accepted that takes neither any value
nor bytes at any place, and let a value match it in which all numbers are finite, all dates lie in the years
0000 to 9999 and inside a leap second only at the end of a minute, and all URIs are not empty and are URI
references. Written as JSON and read again it matches, or it is converted, and the converted value is the value
itself. -/
theorem Schema.compare_trip {text : String} {depth : Nat} {s : Schema}
    (h : Schema.ofText text depth = .ok s) (hany : .any ∉ s.node.subnodes)
    (hbinary : .primitive .binary ∉ s.node.subnodes) {v : Value} (hv : v.Tidy) (hportable : v.Portable)
    {maxDepth : Nat} {g : Grading} (hg : Conformance.compare [] maxDepth s.node v = some g)
    (hm : g.outcome = .matched) :
    ∃ r, Conformance.compare [] maxDepth s.node (Json.ofValue v).toValue = some r ∧
      (r.outcome = .matched ∨ r.outcome = .converted) ∧ r.value = v :=
  grade_restores (bridged h hany hbinary) hv hportable ⟨g, hg, hm⟩

/-- An identifier and a date become texts and are read from them; the key that chooses the map stays. -/
theorem Schema.compare_trip_selector :
    let s : Schema := { node := .selector "k" [⟨.integer 7, .map [⟨"t", .primitive .date, false, none⟩,
      ⟨"u", .primitive .uuid, true, none⟩]⟩] }
    let v : Value := .map [("k", .integer 7), ("t", .date .epoch), ("u", .uuid .nil)]
    Schema.ofText "select k { 7: { t: date, u?: uuid } }" = .ok s ∧
    .any ∉ s.node.subnodes ∧ .primitive .binary ∉ s.node.subnodes ∧ v.Tidy ∧ v.Portable ∧
    (∃ g, Conformance.compare [] 2 s.node v = some g ∧ g.outcome = .matched) ∧
    ∃ r, Conformance.compare [] 2 s.node (Json.ofValue v).toValue = some r ∧
      (r.outcome = .matched ∨ r.outcome = .converted) ∧ r.value = v := by
  intro s v
  have h : Schema.ofText "select k { 7: { t: date, u?: uuid } }" = .ok s := rfl
  have hany : .any ∉ s.node.subnodes := by
    simp [s, Node.subnodes, Node.subnodesAlternatives, Node.subnodesFields]
  have hbinary : .primitive .binary ∉ s.node.subnodes := by
    simp [s, Node.subnodes, Node.subnodesAlternatives, Node.subnodesFields]
  have hsorted : ["k", "t", "u"].Pairwise (· < ·) := by decide +kernel
  have hv : v.Tidy := ⟨List.pairwise_map.1 hsorted, trivial, trivial, trivial, trivial⟩
  have hdate : (0 ≤ Instant.epoch.day.year ∧ Instant.epoch.day.year ≤ 9999) ∧ Instant.epoch.LeapEndsMinute := by
    decide +kernel
  have hportable : v.Portable := ⟨trivial, hdate, trivial, trivial⟩
  obtain ⟨g, hg, hm⟩ : ∃ g, Conformance.compare [] 2 s.node v = some g ∧ g.outcome = .matched :=
    ⟨_, rfl, by decide +kernel⟩
  exact ⟨h, hany, hbinary, hv, hportable, ⟨g, hg, hm⟩, compare_trip h hany hbinary hv hportable hg hm⟩

/-- A leap second within a minute comes back as the second after it, which is converted and is another date. -/
theorem Schema.compare_trip_midMinute :
    let s : Schema := { node := .primitive .date }
    let t : Instant := ⟨30, 1500000000, by decide⟩
    let later : Instant := ⟨31, 500000000, by decide⟩
    Schema.ofText "date" = .ok s ∧ .any ∉ s.node.subnodes ∧ .primitive .binary ∉ s.node.subnodes ∧
    (0 ≤ t.day.year ∧ t.day.year ≤ 9999) ∧
    (∃ g, Conformance.compare [] 128 s.node (.date t) = some g ∧ g.outcome = .matched) ∧
    ∃ r, Conformance.compare [] 128 s.node (Json.ofValue (.date t)).toValue = some r ∧
      r.outcome = .converted ∧ r.value = .date later ∧ r.value ≠ .date t := by
  intro s t later
  have hany : .any ∉ s.node.subnodes := by simp [s, Node.subnodes]
  have hbinary : .primitive .binary ∉ s.node.subnodes := by simp [s, Node.subnodes]
  have hyear : 0 ≤ t.day.year ∧ t.day.year ≤ 9999 := by decide +kernel
  have hmatched : ∃ g, Conformance.compare [] 128 s.node (.date t) = some g ∧ g.outcome = .matched :=
    ⟨_, rfl, by decide +kernel⟩
  have hread : Instant.ofText? t.text.toList = some later := by decide +kernel
  have hconverted : coerce .date (Json.ofValue (.date t)).toValue = .converted (.date later) := by
    refine coerce_text (by rintro ⟨⟩) (by decide +kernel) ?_
    simp [Coercion.convert?, Coercion.toDate?, hread]
  have hcompare : Conformance.compare [] 128 s.node (Json.ofValue (.date t)).toValue =
      some (gradePrimitive .date (Json.ofValue (.date t)).toValue) := rfl
  have hne : later ≠ t := by decide
  refine ⟨rfl, hany, hbinary, hyear, hmatched, _, hcompare, ?_⟩
  unfold gradePrimitive
  rw [hconverted]
  exact ⟨rfl, rfl, fun heq => hne (Value.date.inj heq)⟩

end Conformance
