set_option autoImplicit false

/-!
# Maps in the order of names

A finite map from names to values, kept as the list of its entries with the names strictly increasing.
Names are ordered by their characters, which for text is the same as the order of the bytes of UTF-8. A map
has only one such list, so two maps with the same entries are equal.

## Main definitions

* `SparseDot.NameMap` — the maps.
* `SparseDot.NameMap.get?`, `SparseDot.NameMap.insert` — looking a name up, and setting its value.

## Main results

* `SparseDot.NameMap.get?_insert` — setting a value changes that name and no other.
* `SparseDot.NameMap.ext_get?` — maps that look up alike are equal.
-/

namespace SparseDot

/-- **A finite map from names to values**, as its entries in the order of names. -/
structure NameMap (β : Type) where
  /-- The entries. -/
  entries : List (String × β)
  /-- The names are strictly increasing. -/
  sorted : entries.Pairwise fun a b => a.1 < b.1
  deriving DecidableEq

namespace NameMap

variable {β : Type}

/-- The map without entries. -/
def empty : NameMap β := ⟨[], .nil⟩

/-- Whether the map has no entries. -/
def isEmpty (m : NameMap β) : Bool := m.entries.isEmpty

/-- The value of a name. -/
def get? (m : NameMap β) (name : String) : Option β := m.entries.lookup name

/-- The names, in order. -/
def names (m : NameMap β) : List String := m.entries.map (·.1)

/-- The entries with the value of a name set: a new entry goes to its place in the order. -/
def insertEntry (name : String) (value : β) : List (String × β) → List (String × β)
  | [] => [(name, value)]
  | entry :: rest =>
    if name < entry.1 then (name, value) :: entry :: rest
    else if name = entry.1 then (name, value) :: rest
    else entry :: insertEntry name value rest

/-- Setting the value of a name brings in no other entry. -/
theorem mem_insertEntry {name : String} {value : β} {entry : String × β} :
    ∀ {entries : List (String × β)}, entry ∈ insertEntry name value entries →
      entry = (name, value) ∨ entry ∈ entries
  | [], h => by simpa [insertEntry] using h
  | first :: rest, h => by
    rw [insertEntry] at h
    split at h
    · simpa using h
    · split at h
      · rcases List.mem_cons.1 h with h | h
        · exact .inl h
        · exact .inr (List.mem_cons_of_mem _ h)
      · rcases List.mem_cons.1 h with h | h
        · exact .inr (h ▸ List.mem_cons_self)
        · exact (mem_insertEntry h).imp id (List.mem_cons_of_mem _)

/-- Setting the value of a name keeps the order. -/
theorem sorted_insertEntry (name : String) (value : β) :
    ∀ {entries : List (String × β)}, entries.Pairwise (fun a b => a.1 < b.1) →
      (insertEntry name value entries).Pairwise fun a b => a.1 < b.1
  | [], _ => by simp [insertEntry]
  | first :: rest, h => by
    obtain ⟨hfirst, hrest⟩ := List.pairwise_cons.1 h
    rw [insertEntry]
    split
    next hlt =>
      refine List.pairwise_cons.2 ⟨fun entry hmem => ?_, h⟩
      rcases List.mem_cons.1 hmem with rfl | hmem
      · exact hlt
      · exact String.lt_trans hlt (hfirst entry hmem)
    next hnlt =>
      split
      next heq =>
        subst heq
        exact List.pairwise_cons.2 ⟨hfirst, hrest⟩
      next hne =>
        refine List.pairwise_cons.2 ⟨fun entry hmem => ?_, sorted_insertEntry name value hrest⟩
        rcases mem_insertEntry hmem with rfl | hmem
        · have hle : first.1 ≤ name := String.not_lt.1 hnlt
          exact String.not_le.1 fun hge => hne (String.le_antisymm hge hle)
        · exact hfirst entry hmem

/-- **The map with the value of a name set.** -/
def insert (m : NameMap β) (name : String) (value : β) : NameMap β :=
  ⟨insertEntry name value m.entries, sorted_insertEntry name value m.sorted⟩

/-! ## Looking up -/

/-- No name is found in the empty map. -/
@[simp] theorem get?_empty (name : String) : (empty : NameMap β).get? name = none := rfl

/-- A name is looked up in the first entry, and then in the others. -/
theorem lookup_entry_cons (name other : String) (value : β) (rest : List (String × β)) :
    List.lookup other ((name, value) :: rest) = if other = name then some value else rest.lookup other := by
  by_cases h : other = name
  · simp [h]
  · have hb : (other == name) = false := by simpa using h
    simp [List.lookup_cons, h, hb]

/-- Setting the value of a name changes the look-up of that name only. -/
theorem lookup_insertEntry (name other : String) (value : β) :
    ∀ entries : List (String × β), (insertEntry name value entries).lookup other =
      if other = name then some value else entries.lookup other
  | [] => lookup_entry_cons ..
  | (first, old) :: rest => by
    have ih := lookup_insertEntry name other value rest
    rw [insertEntry]
    split
    · rw [lookup_entry_cons]
    · split
      next heq =>
        obtain rfl : name = first := heq
        rw [lookup_entry_cons, lookup_entry_cons]
        split <;> rfl
      next hne =>
        have hne : name ≠ first := hne
        rw [lookup_entry_cons, lookup_entry_cons, ih]
        by_cases hf : other = first
        · subst hf
          simp [Ne.symm hne]
        · simp [hf]

/-- **Setting a value changes that name and no other.** -/
theorem get?_insert (m : NameMap β) (name other : String) (value : β) :
    (m.insert name value).get? other = if other = name then some value else m.get? other :=
  lookup_insertEntry name other value m.entries

/-- An entry of the map is what its name is looked up to, and there are no others. -/
theorem get?_eq_some_iff (m : NameMap β) {name : String} {value : β} :
    m.get? name = some value ↔ (name, value) ∈ m.entries := by
  obtain ⟨entries, sorted⟩ := m
  simp only [get?]
  induction entries with
  | nil => simp
  | cons first rest ih =>
    obtain ⟨hfirst, hrest⟩ := List.pairwise_cons.1 sorted
    obtain ⟨key, old⟩ := first
    rw [lookup_entry_cons, List.mem_cons]
    by_cases h : name = key
    · subst h
      simp only [if_true, Option.some.injEq, Prod.mk.injEq, true_and]
      constructor
      · intro h
        exact .inl h.symm
      · rintro (h | h)
        · exact h.symm
        · exact absurd (hfirst _ h) (String.lt_irrefl _)
    · simp [h, ih hrest]

/-- **Maps that look up alike are equal.** -/
theorem ext_get? {m n : NameMap β} (h : ∀ name, m.get? name = n.get? name) : m = n := by
  have hmem : ∀ entry : String × β, entry ∈ m.entries ↔ entry ∈ n.entries := fun entry => by
    rw [← m.get?_eq_some_iff, ← n.get?_eq_some_iff, h]
  have hlist : m.entries = n.entries := by
    obtain ⟨xs, hx⟩ := m
    obtain ⟨ys, hy⟩ := n
    simp only at hmem
    clear h
    induction xs generalizing ys with
    | nil =>
      cases ys with
      | nil => rfl
      | cons y ys => exact absurd ((hmem y).2 List.mem_cons_self) List.not_mem_nil
    | cons x xs ih =>
      cases ys with
      | nil => exact absurd ((hmem x).1 List.mem_cons_self) List.not_mem_nil
      | cons y ys =>
        obtain ⟨hx₁, hx₂⟩ := List.pairwise_cons.1 hx
        obtain ⟨hy₁, hy₂⟩ := List.pairwise_cons.1 hy
        have hxy : x = y := by
          rcases List.mem_cons.1 ((hmem x).1 List.mem_cons_self) with heq | hin
          · exact heq
          · rcases List.mem_cons.1 ((hmem y).2 List.mem_cons_self) with heq | hin'
            · exact heq.symm
            · exact absurd (hx₁ _ hin') (String.lt_asymm (hy₁ _ hin))
        subst hxy
        refine congrArg (x :: ·) (ih hx₂ ys hy₂ fun entry => ⟨fun hin => ?_, fun hin => ?_⟩)
        · rcases List.mem_cons.1 ((hmem entry).1 (List.mem_cons_of_mem _ hin)) with rfl | hin'
          · exact absurd (hx₁ _ hin) (String.lt_irrefl _)
          · exact hin'
        · rcases List.mem_cons.1 ((hmem entry).2 (List.mem_cons_of_mem _ hin)) with rfl | hin'
          · exact absurd (hy₁ _ hin) (String.lt_irrefl _)
          · exact hin'
  obtain ⟨xs, hx⟩ := m
  obtain ⟨ys, hy⟩ := n
  simp only at hlist
  subst hlist
  rfl

end NameMap

end SparseDot
