import ContextAdvisor.Dictionary

/-!
# Look-ups in dictionaries

What a look-up answers after each operation, so that no proof has to open the list of entries. A
dictionary is determined by its look-ups.
-/
namespace ContextAdvisor.Dictionary

variable {α β : Type}

theorem lookup_cons (entry : String × α) (rest : List (String × α)) (k : String) :
    (entry :: rest).lookup k = if k = entry.1 then some entry.2 else rest.lookup k := by
  obtain ⟨key, value⟩ := entry
  rw [List.lookup_cons]
  by_cases h : k = key
  · simp [h]
  · simp [h, beq_false_of_ne h]

theorem lookup_insertEntry (key : String) (value : α) (entries : List (String × α))
    (k : String) :
    (insertEntry key value entries).lookup k =
      if k = key then some value else entries.lookup k := by
  induction entries with
  | nil => simp [insertEntry, lookup_cons]
  | cons entry rest ih =>
    unfold insertEntry
    split
    · rw [lookup_cons]
    · split
      · next same =>
        rw [lookup_cons, lookup_cons]
        by_cases h : k = key
        · simp [h]
        · simp [h, same ▸ h]
      · next other =>
        rw [lookup_cons, lookup_cons, ih]
        by_cases h : k = entry.1
        · have : k ≠ key := fun e => other (e ▸ h)
          simp [h, h ▸ this]
        · simp [h]

theorem lookup_filter_ne (key : String) (entries : List (String × α)) (k : String) :
    (entries.filter (·.1 != key)).lookup k = if k = key then none else entries.lookup k := by
  induction entries with
  | nil => simp
  | cons entry rest ih =>
    by_cases here : entry.1 = key
    · rw [List.filter_cons_of_neg (by simp [here]), ih, lookup_cons]
      by_cases h : k = key
      · simp [h]
      · simp [h, here]
    · rw [List.filter_cons_of_pos (by simp [here]), lookup_cons, ih, lookup_cons]
      by_cases h : k = entry.1
      · simp [h, here]
      · simp [h]

/-- A key below all others has no value. -/
theorem lookup_eq_none {key : String} {entries : List (String × α)}
    (h : ∀ e ∈ entries, key < e.1) : entries.lookup key = none := by
  rw [List.lookup_eq_none_iff]
  intro e he
  have below := h e he
  simp only [bne_iff_ne, ne_eq]
  intro same
  exact String.lt_irrefl e.1 (same ▸ below)

/-- Whatever a look-up finds is an entry. -/
theorem mem_of_lookup {entries : List (String × α)} {key : String} {value : α}
    (h : entries.lookup key = some value) : (key, value) ∈ entries := by
  obtain ⟨front, back, rfl, _⟩ := List.lookup_eq_some_iff.mp h
  simp

/-- If no key is repeated, every entry is found under its key. -/
theorem lookup_of_mem {entries : List (String × α)} (h : (entries.map (·.1)).Nodup)
    {e : String × α} (he : e ∈ entries) : entries.lookup e.1 = some e.2 := by
  induction entries with
  | nil => cases he
  | cons first rest ih =>
    obtain ⟨fresh, tail⟩ := List.nodup_cons.mp h
    rw [lookup_cons]
    rcases List.mem_cons.1 he with rfl | he
    · rw [if_pos rfl]
    · have hkey : e.1 ∈ rest.map (·.1) := List.mem_map_of_mem he
      have other : e.1 ≠ first.1 := fun same => fresh (by rwa [same] at hkey)
      rw [if_neg other, ih tail he]

theorem nodup_of_ascending {entries : List (String × α)} (h : Ascending entries) :
    (entries.map (·.1)).Nodup := by
  refine List.pairwise_map.mpr (h.imp fun {p q} below same => ?_)
  exact String.lt_irrefl q.1 (same ▸ below)

/-- An entry with a key above all others is put at the end. -/
theorem insertEntry_of_forall_lt {key : String} {value : α} {entries : List (String × α)}
    (h : ∀ e ∈ entries, e.1 < key) : insertEntry key value entries = entries ++ [(key, value)] := by
  induction entries with
  | nil => rfl
  | cons entry rest ih =>
    have below : entry.1 < key := h entry List.mem_cons_self
    have other : key ≠ entry.1 := by
      rintro rfl
      exact String.lt_irrefl _ below
    rw [insertEntry, if_neg (String.lt_asymm below), if_neg other,
      ih fun e he => h e (List.mem_cons_of_mem _ he), List.cons_append]

/-- Two ascending lists that answer every look-up alike start with the same key. -/
theorem head_not_lt {a b : List (String × α)} {e e' : String × α}
    (hb : Ascending (e' :: b)) (h : ∀ k, (e :: a).lookup k = (e' :: b).lookup k) :
    ¬ e.1 < e'.1 := by
  intro below
  have found := h e.1
  rw [lookup_cons, if_pos rfl, lookup_eq_none] at found
  · simp at found
  · intro x hx
    rcases List.mem_cons.1 hx with rfl | hx
    · exact below
    · exact String.lt_trans below ((List.pairwise_cons.1 hb).1 x hx)

/-- An ascending list is determined by its look-ups. -/
theorem eq_of_lookup {a b : List (String × α)} (ha : Ascending a) (hb : Ascending b)
    (h : ∀ k, a.lookup k = b.lookup k) : a = b := by
  induction a generalizing b with
  | nil =>
    cases b with
    | nil => rfl
    | cons e r => simpa [lookup_cons] using h e.1
  | cons e r ih =>
    cases b with
    | nil => simpa [lookup_cons] using h e.1
    | cons e' r' =>
      obtain ⟨above, tail⟩ := List.pairwise_cons.1 ha
      obtain ⟨above', tail'⟩ := List.pairwise_cons.1 hb
      have same : e.1 = e'.1 := by
        have up := String.not_lt.1 (head_not_lt hb h)
        have down := String.not_lt.1 (head_not_lt ha fun k => (h k).symm)
        exact String.le_antisymm down up
      have values : e.2 = e'.2 := by simpa [lookup_cons, same] using h e.1
      have tails : r = r' := by
        refine ih tail tail' fun k => ?_
        by_cases hk : k = e.1
        · rw [hk, lookup_eq_none above, same, lookup_eq_none above']
        · simpa [lookup_cons, hk, same ▸ hk] using h k
      rw [tails, Prod.ext same values]

@[simp] theorem get?_empty (k : String) : (∅ : Dictionary α).get? k = none := rfl

/-- A key above all others has no value. -/
theorem get?_of_forall_lt {key : String} {d : Dictionary α} (h : ∀ e ∈ d.entries, e.1 < key) :
    d.get? key = none := by
  refine List.lookup_eq_none_iff.mpr fun e he => bne_iff_ne.mpr ?_
  intro same
  exact String.lt_irrefl _ (same ▸ h e he)

theorem get?_of_mem {d : Dictionary α} {e : String × α} (h : e ∈ d.entries) :
    d.get? e.1 = some e.2 :=
  lookup_of_mem (nodup_of_ascending d.ascending) h

theorem mem_entries {d : Dictionary α} {key : String} {value : α} :
    (key, value) ∈ d.entries ↔ d.get? key = some value :=
  ⟨get?_of_mem, mem_of_lookup⟩

@[simp] theorem get?_insert (d : Dictionary α) (key : String) (value : α) (k : String) :
    (d.insert key value).get? k = if k = key then some value else d.get? k :=
  lookup_insertEntry key value d.entries k

@[simp] theorem get?_erase (d : Dictionary α) (key k : String) :
    (d.erase key).get? k = if k = key then none else d.get? k :=
  lookup_filter_ne key d.entries k

@[simp] theorem get?_map (f : α → β) (d : Dictionary α) (k : String) :
    (d.map f).get? k = (d.get? k).map f := by
  show (d.entries.map fun e => (e.1, f e.2)).lookup k = (d.entries.lookup k).map f
  induction d.entries with
  | nil => rfl
  | cons entry rest ih =>
    rw [List.map_cons, lookup_cons, lookup_cons, ih]
    by_cases h : k = entry.1 <;> simp [h]

theorem mem_keys {d : Dictionary α} {k : String} : k ∈ d.keys ↔ (d.get? k).isSome := by
  show k ∈ d.entries.map (·.1) ↔ (d.entries.lookup k).isSome
  induction d.entries with
  | nil => simp
  | cons entry rest ih =>
    rw [List.map_cons, List.mem_cons, ih, lookup_cons]
    by_cases h : k = entry.1 <;> simp [h]

@[simp] theorem mem_keys_insert {d : Dictionary α} {key : String} {value : α} {k : String} :
    k ∈ (d.insert key value).keys ↔ k = key ∨ k ∈ d.keys := by
  rw [mem_keys, mem_keys, get?_insert]
  by_cases h : k = key <;> simp [h]

theorem mem_keys_foldl_insert {entries : List (String × α)} {d : Dictionary α} {k : String} :
    k ∈ (entries.foldl (fun d e => d.insert e.1 e.2) d).keys ↔
      k ∈ d.keys ∨ k ∈ entries.map (·.1) := by
  induction entries generalizing d with
  | nil => simp
  | cons entry rest ih =>
    rw [List.foldl_cons, ih, mem_keys_insert, List.map_cons, List.mem_cons]
    simp only [or_assoc, or_left_comm]

/-- The keys of a dictionary made from a list are those of the list. -/
@[simp] theorem mem_keys_ofList {entries : List (String × α)} {k : String} :
    k ∈ (ofList entries).keys ↔ k ∈ entries.map (·.1) := by
  rw [ofList, mem_keys_foldl_insert]
  simp [keys, empty]

theorem nodup_keys (d : Dictionary α) : d.keys.Nodup :=
  nodup_of_ascending d.ascending

theorem get?_foldl_insert {entries : List (String × α)} (h : (entries.map (·.1)).Nodup)
    (d : Dictionary α) (k : String) :
    (entries.foldl (fun d e => d.insert e.1 e.2) d).get? k =
      (entries.lookup k).or (d.get? k) := by
  induction entries generalizing d with
  | nil => rfl
  | cons entry rest ih =>
    rw [List.map_cons, List.nodup_cons] at h
    rw [List.foldl_cons, ih h.2, get?_insert, lookup_cons]
    by_cases hk : k = entry.1
    · have hnone : rest.lookup k = none := by
        refine List.lookup_eq_none_iff.mpr fun e he => bne_iff_ne.mpr ?_
        rintro rfl
        exact h.1 (hk ▸ List.mem_map_of_mem he)
      rw [hnone, if_pos hk, if_pos hk]
      rfl
    · rw [if_neg hk, if_neg hk]

theorem mem_of_get?_foldl_insert {entries : List (String × α)} {d : Dictionary α} {k : String}
    {v : α} (h : (entries.foldl (fun d e => d.insert e.1 e.2) d).get? k = some v) :
    (k, v) ∈ entries ∨ d.get? k = some v := by
  induction entries generalizing d with
  | nil => exact .inr h
  | cons entry rest ih =>
    rcases ih h with hrest | hd
    · exact .inl (List.mem_cons_of_mem _ hrest)
    · rw [get?_insert] at hd
      by_cases hk : k = entry.1
      · rw [if_pos hk] at hd
        obtain rfl := hk
        obtain rfl := Option.some.inj hd
        exact .inl List.mem_cons_self
      · rw [if_neg hk] at hd
        exact .inr hd

/-- Every entry of a dictionary made from a list is one of the list. -/
theorem mem_of_get?_ofList {entries : List (String × α)} {k : String} {v : α}
    (h : (ofList entries).get? k = some v) : (k, v) ∈ entries :=
  (mem_of_get?_foldl_insert h).resolve_right fun hd => nomatch hd

/-- If no key is repeated, the list answers like the dictionary made from it. -/
theorem get?_ofList {entries : List (String × α)} (h : (entries.map (·.1)).Nodup) (k : String) :
    (ofList entries).get? k = entries.lookup k := by
  rw [ofList, get?_foldl_insert h]
  exact Option.or_none

/-- A dictionary is determined by its look-ups. -/
@[ext] theorem ext {a b : Dictionary α} (h : ∀ k, a.get? k = b.get? k) : a = b := by
  have : a.entries = b.entries := eq_of_lookup a.ascending b.ascending h
  cases a
  cases b
  simp_all

@[simp] theorem ofList_entries (d : Dictionary α) : ofList d.entries = d :=
  ext fun k => get?_ofList d.nodup_keys k

end ContextAdvisor.Dictionary
