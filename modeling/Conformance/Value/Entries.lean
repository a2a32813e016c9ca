/-!
# Entries by key

The entries of a map as a list in ascending order of their keys. Keys compare by code points, which is
also the order of their UTF-8 bytes.

* `Entries.Sorted` — the keys ascend strictly, so each occurs once.
* `Entries.insert`, `Entries.ofList` — keep the order; a later entry replaces one with the same key.
* `Entries.get?_insert`, `Entries.get?_ofList` — what is found at a key afterwards.
* `Entries.Sorted.ext` — sorted entries are equal if they have the same value at each key.
-/

set_option autoImplicit false

namespace Conformance

/-- Entries of a map with text keys. -/
abbrev Entries (α : Type) := List (String × α)

namespace Entries

variable {α : Type}

/-- The keys ascend strictly. -/
def Sorted (entries : Entries α) : Prop :=
  entries.Pairwise fun e f => e.1 < f.1

/-- The value at a key. -/
def get? (entries : Entries α) (key : String) : Option α := entries.lookup key

/-- Puts a value at a key, in place of the one that may be there. -/
def insert (key : String) (value : α) : Entries α → Entries α
  | [] => [(key, value)]
  | (k, v) :: rest =>
    if key < k then (key, value) :: (k, v) :: rest
    else if key = k then (key, value) :: rest
    else (k, v) :: insert key value rest

/-- The entries of a list in any order; of entries with one key the last is kept. -/
def ofList (entries : List (String × α)) : Entries α :=
  entries.foldl (fun sorted e => insert e.1 e.2 sorted) []

theorem mem_insert {key : String} {value : α} {entries : Entries α} {e : String × α}
    (h : e ∈ insert key value entries) : e = (key, value) ∨ e ∈ entries := by
  induction entries with
  | nil => simpa [insert] using h
  | cons f rest ih =>
    simp only [insert] at h
    split at h
    · simpa using h
    split at h
    · simp only [List.mem_cons] at h ⊢
      exact h.imp id .inr
    · simp only [List.mem_cons] at h ⊢
      rcases h with h | h
      · exact .inr (.inl h)
      · exact (ih h).imp id .inr

theorem sorted_insert {key : String} {value : α} {entries : Entries α} (h : entries.Sorted) :
    Sorted (insert key value entries) := by
  induction entries with
  | nil => simp [insert, Sorted]
  | cons f rest ih =>
    obtain ⟨hf, hrest⟩ := List.pairwise_cons.1 h
    simp only [insert]
    split
    · next hlt =>
      refine List.pairwise_cons.2 ⟨fun e he => ?_, h⟩
      rcases List.mem_cons.1 he with rfl | he
      · exact hlt
      · exact String.lt_trans hlt (hf e he)
    split
    · next heq =>
      subst heq
      exact List.pairwise_cons.2 ⟨hf, hrest⟩
    · next hlt hne =>
      refine List.pairwise_cons.2 ⟨fun e he => ?_, ih hrest⟩
      rcases mem_insert he with rfl | he
      · exact Decidable.byContradiction fun hgt =>
          hne (String.le_antisymm (String.not_lt.1 hgt) (String.not_lt.1 hlt))
      · exact hf e he

theorem sorted_ofList (entries : List (String × α)) : Sorted (ofList entries) := by
  suffices h : ∀ (l : List (String × α)) (s : Entries α), s.Sorted →
      Sorted (l.foldl (fun sorted e => insert e.1 e.2 sorted) s) from
    h entries [] List.Pairwise.nil
  intro l
  induction l with
  | nil => exact fun _ hs => hs
  | cons e l ih => exact fun s hs => ih _ (sorted_insert hs)

@[simp] theorem get?_nil (key : String) : get? ([] : Entries α) key = none := rfl

theorem get?_cons (e : String × α) (entries : Entries α) (key : String) :
    get? (e :: entries) key = if key = e.1 then some e.2 else get? entries key := by
  obtain ⟨k, v⟩ := e
  rw [get?, List.lookup_cons]
  by_cases h : key = k
  · rw [if_pos h, beq_iff_eq.2 h]
  · rw [if_neg h, beq_eq_false_iff_ne.2 h]
    rfl

theorem get?_append (entries others : Entries α) (key : String) :
    get? (entries ++ others) key = (get? entries key).or (get? others key) :=
  List.lookup_append

theorem mem_of_get? {entries : Entries α} {key : String} {value : α}
    (h : get? entries key = some value) : (key, value) ∈ entries := by
  obtain ⟨before, after, rfl, -⟩ := List.lookup_eq_some_iff.1 h
  simp

theorem get?_eq_none {entries : Entries α} {key : String} :
    get? entries key = none ↔ ∀ e ∈ entries, e.1 ≠ key := by
  simp only [get?, List.lookup_eq_none_iff, bne_iff_ne]
  exact forall₂_congr fun _ _ => ne_comm

theorem get?_of_mem {entries : Entries α} {e : String × α} (hnd : (entries.map Prod.fst).Nodup)
    (h : e ∈ entries) : get? entries e.1 = some e.2 := by
  induction entries with
  | nil => cases h
  | cons d entries ih =>
    rw [List.map_cons, List.nodup_cons] at hnd
    rw [get?_cons]
    rcases List.mem_cons.1 h with rfl | h
    · rw [if_pos rfl]
    · have hne : e.1 ≠ d.1 := fun heq => hnd.1 (heq ▸ List.mem_map_of_mem h)
      rw [if_neg hne, ih hnd.2 h]

theorem get?_insert (key : String) (value : α) (entries : Entries α) (k : String) :
    get? (insert key value entries) k = if k = key then some value else get? entries k := by
  induction entries with
  | nil => exact get?_cons _ _ _
  | cons e entries ih =>
    simp only [insert]
    split
    · exact get?_cons _ _ _
    split
    · rename_i heq
      subst heq
      simp only [get?_cons]
      split <;> rfl
    · rename_i hne
      rw [get?_cons, get?_cons, ih]
      by_cases hk : k = key
      · subst hk
        rw [if_neg hne, if_pos rfl, if_pos rfl]
      · rw [if_neg hk, if_neg hk]

theorem get?_foldl_insert (l : List (String × α)) (hnd : (l.map Prod.fst).Nodup) (s : Entries α)
    (key : String) :
    get? (l.foldl (fun sorted e => insert e.1 e.2 sorted) s) key = (get? l key).or (get? s key) := by
  induction l generalizing s with
  | nil => rfl
  | cons e l ih =>
    rw [List.map_cons, List.nodup_cons] at hnd
    rw [List.foldl_cons, ih hnd.2, get?_insert, get?_cons]
    by_cases hk : key = e.1
    · have hnone : get? l key = none :=
        get?_eq_none.2 fun d hd heq => hnd.1 (hk ▸ heq ▸ List.mem_map_of_mem hd)
      rw [if_pos hk, if_pos hk, hnone]
      rfl
    · rw [if_neg hk, if_neg hk]

theorem get?_ofList {l : List (String × α)} (hnd : (l.map Prod.fst).Nodup) (key : String) :
    get? (ofList l) key = get? l key := by
  rw [ofList, get?_foldl_insert l hnd, get?_nil, Option.or_none]

theorem Sorted.nodup_keys {entries : Entries α} (h : entries.Sorted) :
    (entries.map Prod.fst).Nodup := by
  refine List.pairwise_map.2 (h.imp fun hlt heq => ?_)
  rw [heq] at hlt
  exact String.lt_irrefl _ hlt

/-- Being sorted is a matter of the keys alone. -/
theorem Sorted.of_keys {β : Type} {a : Entries α} {b : Entries β} (hb : b.Sorted)
    (h : a.map Prod.fst = b.map Prod.fst) : a.Sorted := by
  have hkeys : (b.map Prod.fst).Pairwise (· < ·) := List.pairwise_map.2 hb
  rw [← h] at hkeys
  exact List.pairwise_map.1 hkeys

theorem Sorted.ext {a b : Entries α} (ha : a.Sorted) (hb : b.Sorted)
    (h : ∀ key, get? a key = get? b key) : a = b := by
  induction a generalizing b with
  | nil =>
    cases b with
    | nil => rfl
    | cons f b =>
      have := h f.1
      rw [get?_nil, get?_cons, if_pos rfl] at this
      cases this
  | cons e a ih =>
    cases b with
    | nil =>
      have := h e.1
      rw [get?_nil, get?_cons, if_pos rfl] at this
      cases this
    | cons f b =>
      have hle : ∀ {c d : Entries α} {x y : String × α}, Sorted (y :: d) →
          get? (x :: c) x.1 = get? (y :: d) x.1 → ¬ x.1 < y.1 := by
        intro c d x y hd heq hlt
        rw [get?_cons, if_pos rfl] at heq
        rcases List.mem_cons.1 (mem_of_get? heq.symm) with hxy | hxd
        · exact String.lt_irrefl _ (congrArg Prod.fst hxy ▸ hlt)
        · exact String.lt_irrefl _ (String.lt_trans hlt ((List.pairwise_cons.1 hd).1 _ hxd))
      have hkey : e.1 = f.1 := String.le_antisymm
        (String.not_lt.1 (hle ha (h f.1).symm)) (String.not_lt.1 (hle hb (h e.1)))
      have hval := h e.1
      rw [get?_cons, if_pos rfl, get?_cons, if_pos hkey] at hval
      have hef : e = f := Prod.ext hkey (Option.some.inj hval)
      subst hef
      obtain ⟨hea, ha⟩ := List.pairwise_cons.1 ha
      obtain ⟨heb, hb⟩ := List.pairwise_cons.1 hb
      have hnone : ∀ {c : Entries α}, (∀ d ∈ c, e.1 < d.1) → get? c e.1 = none := fun hc =>
        get?_eq_none.2 fun d hd heq => String.lt_irrefl _ (heq ▸ hc d hd)
      rw [ih ha hb fun key => ?_]
      by_cases hk : key = e.1
      · rw [hk, hnone hea, hnone heb]
      · have := h key
        rwa [get?_cons, if_neg hk, get?_cons, if_neg hk] at this

/-- Sorted entries are what their own list makes up. -/
theorem Sorted.ofList_eq {entries : Entries α} (h : entries.Sorted) : ofList entries = entries :=
  (sorted_ofList entries).ext h fun key => get?_ofList h.nodup_keys key

end Entries

end Conformance
