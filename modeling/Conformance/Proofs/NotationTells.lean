import Conformance.Proofs.ScalarText

/-!
# The notation of a value tells it

A value is told by its text in notation, however its parts are nested and whatever texts and keys it holds. Its first
character tells its kind, what the kind writes tells the content, and the end of the content is where a character
follows that cannot go on with it. Only dates in a leap second within a minute are not told from those in the second
after it.

* `Value.LeapsEndMinutes` — the dates in a value are told by their texts.
* `Value.mark` — the first character, which tells the kind (`Value.kind_eq_of_characters`).
* `Value.characters_tell_of_scalar` — a value without parts, in any place in a text.
* `Value.characters_tell`, `Value.items_tell`, `Value.entries_tell` — any value, and the parts of one.
* `Value.text_injective` — different values have different texts.
-/

set_option autoImplicit false

namespace Conformance

namespace Value

/-! ## Leap seconds -/

mutual

/-- All dates in the value lie inside a leap second, if at all, at the end of a minute. -/
def LeapsEndMinutes : Value → Prop
  | .date t => t.LeapEndsMinute
  | .array items => LeapsEndMinutesItems items
  | .map entries => LeapsEndMinutesEntries entries
  | _ => True

/-- So do all dates in the items. -/
def LeapsEndMinutesItems : List Value → Prop
  | [] => True
  | v :: vs => v.LeapsEndMinutes ∧ LeapsEndMinutesItems vs

/-- So do all dates in the values at the keys. -/
def LeapsEndMinutesEntries : List (String × Value) → Prop
  | [] => True
  | (_, v) :: rest => v.LeapsEndMinutes ∧ LeapsEndMinutesEntries rest

end

/-! ## The first character -/

/-- The first character of the notation. -/
def mark : Value → Char
  | .undefined => '!'
  | .boolean b => if b then 't' else 'f'
  | .integer _ => 'i'
  | .real _ => 'r'
  | .string _ => '\''
  | .uuid _ => 'u'
  | .date _ => 'd'
  | .uri _ => 'l'
  | .binary _ => 'b'
  | .array _ => '['
  | .map _ => '{'

/-- The kind that a first character tells. -/
def kindOfMark : Char → Option Kind
  | '!' => some .undefined
  | 't' | 'f' => some .boolean
  | 'i' => some .integer
  | 'r' => some .real
  | '\'' => some .string
  | 'u' => some .uuid
  | 'd' => some .date
  | 'l' => some .uri
  | 'b' => some .binary
  | '[' => some .array
  | '{' => some .map
  | _ => none

theorem characters_eq_mark (v : Value) : ∃ tail, v.characters = v.mark :: tail := by
  cases v with
  | boolean b => cases b <;> exact ⟨_, rfl⟩
  | _ => exact ⟨_, rfl⟩

theorem kindOfMark_mark (v : Value) : kindOfMark v.mark = some v.kind := by
  cases v with
  | boolean b => cases b <;> rfl
  | _ => rfl

/-- Nothing that may follow a value begins one. -/
theorem mark_not_closers (v : Value) : v.mark ∉ closers := by
  intro h
  have hkind := kindOfMark_mark v
  simp only [closers, List.mem_cons, List.not_mem_nil, or_false] at h
  rcases h with h | h | h <;> rw [h] at hkind <;> cases hkind

variable {v w : Value} {rest rest' : List Char}

/-- Values with the same text are of one kind. -/
theorem kind_eq_of_characters (h : v.characters ++ rest = w.characters ++ rest') : v.kind = w.kind := by
  obtain ⟨tail, hv⟩ := characters_eq_mark v
  obtain ⟨tail', hw⟩ := characters_eq_mark w
  rw [hv, hw] at h
  have hmark : v.mark = w.mark := List.cons.inj h |>.1
  have hkind := kindOfMark_mark v
  rw [hmark, kindOfMark_mark w] at hkind
  exact (Option.some.inj hkind).symm

/-- What may follow a value is not taken for the beginning of one. -/
theorem characters_ne_closer {c : Char} (hc : c ∈ closers) : v.characters ++ rest ≠ c :: rest' := by
  intro h
  obtain ⟨tail, hv⟩ := characters_eq_mark v
  rw [hv] at h
  obtain ⟨rfl, -⟩ := List.cons.inj h
  exact mark_not_closers v hc

/-! ## Values without parts -/

theorem suits_string : Quoted.Suits '\'' := by
  unfold Quoted.Suits
  decide

theorem suits_uri : Quoted.Suits '"' := by
  unfold Quoted.Suits
  decide

theorem boolean_text_injective : ∀ b c : Bool, (toString b).toList = (toString c).toList → b = c := by decide

theorem boolean_not_closers (b : Bool) : ∀ c ∈ (toString b).toList, c ∉ closers := by
  cases b <;> exact not_closers_of_all rfl

/-- A value that is no array and no map is told by its text, and so is what follows it. -/
theorem characters_tell_of_scalar (harray : v.kind ≠ .array) (hmap : v.kind ≠ .map) (hv : v.LeapsEndMinutes)
    (hw : w.LeapsEndMinutes) (hrest : Closes rest) (hrest' : Closes rest')
    (h : v.characters ++ rest = w.characters ++ rest') : v = w ∧ rest = rest' := by
  have hkind := kind_eq_of_characters h
  cases v <;> cases w <;> cases hkind
  case undefined.undefined => exact ⟨rfl, List.cons.inj h |>.2⟩
  case boolean.boolean b c =>
    obtain ⟨hname, hend⟩ := run_tells (boolean_not_closers b) (boolean_not_closers c) hrest hrest' h
    exact ⟨congrArg _ (boolean_text_injective b c hname), hend⟩
  case integer.integer i j =>
    obtain ⟨hdigits, hend⟩ := run_tells (Digits.ofInt_not_closers _) (Digits.ofInt_not_closers _) hrest hrest'
      (List.cons.inj h).2
    exact ⟨congrArg _ (Digits.ofInt_injective hdigits), hend⟩
  case real.real r s =>
    obtain ⟨hliteral, hend⟩ := run_tells r.literalText_not_closers s.literalText_not_closers hrest hrest'
      (List.cons.inj h).2
    exact ⟨congrArg _ (Binary64.literalText_injective hliteral), hend⟩
  case uuid.uuid a b =>
    obtain ⟨hdigits, hend⟩ := run_tells a.characters_not_closers b.characters_not_closers hrest hrest'
      (List.cons.inj h).2
    exact ⟨congrArg _ (Uuid.characters_injective hdigits), hend⟩
  case string.string =>
    obtain ⟨rfl, hend⟩ := Quoted.write_tells suits_string h
    exact ⟨rfl, hend⟩
  case uri.uri =>
    obtain ⟨rfl, hend⟩ := Quoted.write_tells suits_uri (List.cons.inj h).2
    exact ⟨rfl, hend⟩
  case date.date t u =>
    simp only [characters, List.cons_append, List.append_assoc, List.cons.injEq, true_and, List.nil_append] at h
    obtain ⟨hdate, hend⟩ := quoted_run_tells t.quote_not_mem_characters u.quote_not_mem_characters h
    exact ⟨congrArg _ (Instant.characters_injective hv hw hdate), hend⟩
  case binary.binary bytes others =>
    simp only [characters, List.append_assoc, List.cons_append, List.nil_append] at h
    obtain ⟨hbytes, hend⟩ := quoted_run_tells (Base64.quote_not_mem_encode bytes)
      (Base64.quote_not_mem_encode others) (List.append_cancel_left h)
    exact ⟨congrArg _ (Base64.encode_injective hbytes), hend⟩
  case array.array => exact absurd rfl harray
  case map.map => exact absurd rfl hmap

/-! ## All values -/

theorem characters_array (vs : List Value) :
    (array vs).characters ++ rest = '[' :: (itemCharacters vs ++ ']' :: rest) := by
  simp [characters]

theorem characters_map (xs : List (String × Value)) :
    (map xs).characters ++ rest = '{' :: (entryCharacters xs ++ '}' :: rest) := by
  simp [characters]

theorem itemCharacters_cons (v : Value) (vs : List Value) :
    itemCharacters (v :: vs) ++ rest = v.characters ++ (separatorBefore "," vs ++ (itemCharacters vs ++ rest)) := by
  simp [itemCharacters]

theorem entryCharacters_cons (k : String) (v : Value) (xs : List (String × Value)) :
    entryCharacters ((k, v) :: xs) ++ rest =
      Quoted.write '\'' k ++ ':' :: (v.characters ++ (separatorBefore "," xs ++ (entryCharacters xs ++ rest))) := by
  simp [entryCharacters]

section Members

variable {α : Type} {members others : List α} {text : List α → List Char} {bracket : Char}

/-- What follows a member, a comma or the closing bracket, may follow a value. -/
theorem separator_closes (hbracket : bracket ∈ closers) (hempty : text [] = []) :
    Closes (separatorBefore "," members ++ (text members ++ bracket :: rest)) := by
  cases members with
  | nil =>
    rw [hempty]
    exact Closes.cons hbracket
  | cons m members => exact Closes.cons (by decide)

/-- Where the same follows a member of two lists, the same follows the comma, if there is one. -/
theorem separator_tells (hbracket : bracket ≠ ',') (hempty : text [] = [])
    (h : separatorBefore "," members ++ (text members ++ bracket :: rest) =
      separatorBefore "," others ++ (text others ++ bracket :: rest')) :
    text members ++ bracket :: rest = text others ++ bracket :: rest' := by
  cases members with
  | nil =>
    cases others with
    | nil => exact h
    | cons o others =>
      rw [hempty] at h
      exact absurd (List.cons.inj h).1 hbracket
  | cons m members =>
    cases others with
    | nil =>
      rw [hempty] at h
      exact absurd (List.cons.inj h).1.symm hbracket
    | cons o others => exact (List.cons.inj h).2

end Members

theorem write_ne_brace {k : String} : Quoted.write '\'' k ++ rest ≠ '}' :: rest' := by
  intro h
  cases (List.cons.inj h).1

mutual

/-- **A value is told by its text wherever it stands**, if what follows may follow a value, and so is what follows. -/
theorem characters_tell : ∀ (v w : Value) (rest rest' : List Char), v.LeapsEndMinutes → w.LeapsEndMinutes →
    Closes rest → Closes rest' → v.characters ++ rest = w.characters ++ rest' → v = w ∧ rest = rest'
  | .array vs, w, rest, rest', hv, hw, hrest, hrest', h => by
    have hkind := kind_eq_of_characters h
    cases w <;> cases hkind
    case array ws =>
      rw [characters_array, characters_array] at h
      obtain ⟨rfl, hend⟩ := items_tell vs ws rest rest' hv hw (List.cons.inj h).2
      exact ⟨rfl, hend⟩
  | .map xs, w, rest, rest', hv, hw, hrest, hrest', h => by
    have hkind := kind_eq_of_characters h
    cases w <;> cases hkind
    case map ys =>
      rw [characters_map, characters_map] at h
      obtain ⟨rfl, hend⟩ := entries_tell xs ys rest rest' hv hw (List.cons.inj h).2
      exact ⟨rfl, hend⟩
  | .undefined, _, _, _, hv, hw, hrest, hrest', h | .boolean _, _, _, _, hv, hw, hrest, hrest', h
  | .integer _, _, _, _, hv, hw, hrest, hrest', h | .real _, _, _, _, hv, hw, hrest, hrest', h
  | .string _, _, _, _, hv, hw, hrest, hrest', h | .uuid _, _, _, _, hv, hw, hrest, hrest', h
  | .date _, _, _, _, hv, hw, hrest, hrest', h | .uri _, _, _, _, hv, hw, hrest, hrest', h
  | .binary _, _, _, _, hv, hw, hrest, hrest', h => by
    apply characters_tell_of_scalar _ _ hv hw hrest hrest' h <;>
      intro hkind <;>
      cases hkind

/-- The items between brackets are told, and so is what follows the closing one. -/
theorem items_tell : ∀ (vs ws : List Value) (rest rest' : List Char), LeapsEndMinutesItems vs →
    LeapsEndMinutesItems ws → itemCharacters vs ++ ']' :: rest = itemCharacters ws ++ ']' :: rest' →
    vs = ws ∧ rest = rest'
  | [], [], _, _, _, _, h => ⟨rfl, (List.cons.inj h).2⟩
  | [], w :: ws, rest, rest', _, _, h => by
    rw [itemCharacters_cons] at h
    exact absurd h.symm (characters_ne_closer (by decide))
  | v :: vs, [], rest, rest', _, _, h => by
    rw [itemCharacters_cons] at h
    exact absurd h (characters_ne_closer (by decide))
  | v :: vs, w :: ws, rest, rest', hvs, hws, h => by
    rw [itemCharacters_cons, itemCharacters_cons] at h
    obtain ⟨rfl, hafter⟩ := characters_tell v w _ _ hvs.1 hws.1 (separator_closes (by decide) rfl)
      (separator_closes (by decide) rfl) h
    obtain ⟨rfl, hend⟩ := items_tell vs ws rest rest' hvs.2 hws.2 (separator_tells (by decide) rfl hafter)
    exact ⟨rfl, hend⟩

/-- The keys and values between braces are told, and so is what follows the closing one. -/
theorem entries_tell : ∀ (xs ys : List (String × Value)) (rest rest' : List Char), LeapsEndMinutesEntries xs →
    LeapsEndMinutesEntries ys → entryCharacters xs ++ '}' :: rest = entryCharacters ys ++ '}' :: rest' →
    xs = ys ∧ rest = rest'
  | [], [], _, _, _, _, h => ⟨rfl, (List.cons.inj h).2⟩
  | [], (k, w) :: ys, rest, rest', _, _, h => by
    rw [entryCharacters_cons] at h
    exact absurd h.symm write_ne_brace
  | (k, v) :: xs, [], rest, rest', _, _, h => by
    rw [entryCharacters_cons] at h
    exact absurd h write_ne_brace
  | (k, v) :: xs, (l, w) :: ys, rest, rest', hxs, hys, h => by
    rw [entryCharacters_cons, entryCharacters_cons] at h
    obtain ⟨rfl, hvalue⟩ := Quoted.write_tells suits_string h
    obtain ⟨rfl, hafter⟩ := characters_tell v w _ _ hxs.1 hys.1 (separator_closes (by decide) rfl)
      (separator_closes (by decide) rfl) (List.cons.inj hvalue).2
    obtain ⟨rfl, hend⟩ := entries_tell xs ys rest rest' hxs.2 hys.2 (separator_tells (by decide) rfl hafter)
    exact ⟨rfl, hend⟩

end

end Value

/-! ## Bit for bit -/

namespace Binary64

/-- A word is put together again from its sign and its rank. -/
theorem bits_word (word : UInt64) :
    bits.word (decide (signBit ≤ word.toNat)) (word.toNat % signBit) = word := by
  have hword : word.toNat < 2 * signBit := word.toNat_lt
  have hsum : (if signBit ≤ word.toNat then signBit else 0) + word.toNat % signBit = word.toNat := by
    unfold signBit at *
    split <;> omega
  unfold bits.word
  simp only [decide_eq_true_eq]
  rw [hsum, UInt64.ofNat_toNat]

/-- A word that is a number is told by the number. -/
theorem bits_ofBits {word : UInt64} (h : ofBits word ≠ .nan) : (ofBits word).bits = word := by
  unfold ofBits at h ⊢
  dsimp only at h ⊢
  split
  case isTrue hrank => exact bits_word word
  case isFalse hrank =>
    rw [dif_neg hrank] at h
    split
    case isTrue hcount =>
      rw [bits, ← hcount]
      exact bits_word word
    case isFalse hcount => exact absurd (if_neg hcount) h

/-- Words stand for the same number just if they are the same, or neither of them is a number. -/
theorem ofBits_eq_iff {word other : UInt64} :
    ofBits word = ofBits other ↔ word = other ∨ ofBits word = .nan ∧ ofBits other = .nan := by
  constructor
  · intro h
    by_cases hword : ofBits word = .nan
    · exact .inr ⟨hword, h ▸ hword⟩
    · have hbits := bits_ofBits hword
      rw [h, bits_ofBits (h ▸ hword)] at hbits
      exact .inl hbits.symm
  · rintro (rfl | ⟨hword, hother⟩)
    · rfl
    · rw [hword, hother]

end Binary64

/-- **The notation tells the value**: different values, however nested and whatever texts, keys and bytes they hold,
have different texts, where dates lie inside a leap second only at the end of a minute. Numbers are told bit for bit,
where all words that are not a number are alike. -/
theorem Value.text_injective :
    (∀ v w : Value, v.LeapsEndMinutes → w.LeapsEndMinutes → v.text = w.text → v = w) ∧
    ∀ word other : UInt64, (real (.ofBits word)).text = (real (.ofBits other)).text ↔
      word = other ∨ Binary64.ofBits word = .nan ∧ Binary64.ofBits other = .nan := by
  have hinjective : ∀ v w : Value, v.LeapsEndMinutes → w.LeapsEndMinutes → v.text = w.text → v = w := by
    intro v w hv hw h
    have hcharacters : v.characters ++ [] = w.characters ++ [] := by
      rw [String.ofList_injective h]
    exact (characters_tell v w [] [] hv hw .nil .nil hcharacters).1
  refine ⟨hinjective, fun word other => ?_⟩
  rw [← Binary64.ofBits_eq_iff]
  constructor
  · intro h
    exact Value.real.inj (hinjective (real (.ofBits word)) (real (.ofBits other)) trivial trivial h)
  · intro h
    rw [h]

/-- A comma and quotes within a text are not those between two texts, also behind a leap second. -/
theorem Value.text_injective_separator :
    let leap : Value := date ⟨59, 1500000000, by decide⟩
    let v := array [leap, string "a", string "b"]
    let w := array [leap, string "a','b"]
    v.LeapsEndMinutes ∧ w.LeapsEndMinutes ∧ v.text ≠ w.text := by
  intro leap v w
  have hleap : leap.LeapsEndMinutes := fun _ => rfl
  have hv : v.LeapsEndMinutes := ⟨hleap, trivial, trivial, trivial⟩
  have hw : w.LeapsEndMinutes := ⟨hleap, trivial, trivial⟩
  refine ⟨hv, hw, fun h => ?_⟩
  have hitems : [leap, string "a", string "b"] = [leap, string "a','b"] :=
    Value.array.inj (Value.text_injective.1 v w hv hw h)
  cases (List.cons.inj (List.cons.inj hitems).2).2

end Conformance
