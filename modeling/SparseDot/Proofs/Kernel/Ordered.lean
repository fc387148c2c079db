import SparseDot.Proofs.Kernel.Bytes

set_option autoImplicit false

/-!
# Early exit on ordered tokens

A kernel stops at the first token out of range, whatever comes after it. On ordered tokens that are not
negative it misses nothing by that: a token that is too large has only larger ones behind it. A negative
token is different. It is out of range as well, but ordering puts it in front of all that are in range, and
the kernel stops before it has come to any of them.

## Main definitions

* `SparseDot.Kernel.entries` — the tokens with their weights.
* `SparseDot.Kernel.factors?` — the factors of the product that one entry brings.

## Main results

* `SparseDot.Kernel.terms_eq_filterMap_takeWhile` — a walk has the terms of the entries before the first one
  out of range.
* `SparseDot.Kernel.terms_eq_filterMap` — on ordered tokens that are not negative it has those of all entries
  in range.
* `SparseDot.Kernel.ofPairs_dot_int8` — what the product is on a vector that was sorted when it was built.
-/

namespace SparseDot.Kernel

section Entries

variable {α : Type}

/-! ## Entries in range -/

/-- The entries of a sparse vector: every token with its weight. -/
def entries (tokens : Array Int16) (weights : Array α) : List (Int16 × α) :=
  tokens.toList.zip weights.toList

/-- **The factors of the product that an entry brings**: its weight and the dense value that its token
addresses. An entry out of range brings none. -/
def factors? (dense : Array α) (entry : Int16 × α) : Option (α × α) :=
  (slot entry.1 dense.size).bind fun t => dense[t]?.map fun value => (entry.2, value)

/-- An entry brings factors exactly if its token is in range. -/
private lemma isSome_factors?_iff {dense : Array α} {entry : Int16 × α} :
    (factors? dense entry).isSome ↔ 0 ≤ entry.1.toInt ∧ entry.1.toInt < dense.size := by
  constructor
  · intro h
    obtain ⟨factors, hfactors⟩ := Option.isSome_iff_exists.mp h
    obtain ⟨t, ht, -⟩ := Option.bind_eq_some_iff.mp hfactors
    obtain ⟨htoken, hlt⟩ := slot_eq_some_iff.mp ht
    omega
  · rintro ⟨hlow, hhigh⟩
    have ht : slot entry.1 dense.size = some entry.1.toInt.toNat :=
      slot_eq_some_iff.mpr ⟨by omega, by omega⟩
    have hlt : entry.1.toInt.toNat < dense.size := by omega
    rw [factors?, ht, Option.bind_some, Array.getElem?_eq_getElem hlt]
    rfl

variable {tokens : Array Int16} {weights dense : Array α} (enough : tokens.size ≤ weights.size)

include enough in
/-- There is an entry for every token. -/
lemma length_entries : (entries tokens weights).length = tokens.size := by
  simp [entries, enough]

/-- The entries from a position on. -/
private lemma drop_entries {i : ℕ} (hi : i < tokens.size) :
    (entries tokens weights).drop i =
      (tokens[i], getElem weights i (hi.trans_le enough)) :: (entries tokens weights).drop (i + 1) := by
  rw [List.drop_eq_getElem_cons (by rwa [length_entries enough])]
  simp [entries]

/-- The entry at a position brings the factors of its term. -/
private lemma factors?_position (p : Position tokens dense.size) :
    factors? dense (getElem tokens p.index p.index_lt, p.weight weights enough) =
      some (p.weight weights enough, p.value dense) := by
  simp [factors?, p.slot_token, Position.value, p.slot_lt]

/-- **A walk has the terms of the entries before the first one out of range.**

**Proof sketch.** Induction along the walk. At a position in range the entry brings its factors and the others follow.
Where the walk ends there are no entries left, or the first of them brings none. -/
theorem terms_eq_filterMap_takeWhile (i : ℕ) :
    terms tokens weights dense enough i =
      (((entries tokens weights).drop i).takeWhile fun e => (factors? dense e).isSome).filterMap
        (factors? dense) := by
  induction i using reached_induction tokens dense.size with
  | stop i h =>
    rw [terms_of_not_inRange enough h]
    by_cases hi : i < tokens.size
    · rw [drop_entries enough hi, List.takeWhile_cons_of_neg]
      · rfl
      · rw [isSome_factors?_iff]
        exact fun hr => h ⟨hi, hr⟩
    · rw [List.drop_eq_nil_of_le (by rw [length_entries enough]; omega)]
      rfl
  | step i h ih =>
    have hfactors := factors?_position enough h.position
    rw [terms_of_inRange enough h, ih, drop_entries enough h.1, List.takeWhile_cons_of_pos]
    · exact (List.filterMap_cons_some hfactors).symm
    · exact Option.isSome_iff_exists.mpr ⟨_, hfactors⟩

/-! ## Ordered entries -/

/-- Where a property is lost for good, taking the elements before that and taking those that have it is the
same.

**Proof sketch.** Induction on the list: once an element does not have the property, none of those after it has. -/
private lemma takeWhile_eq_filter {γ : Type} {p : γ → Bool} {l : List γ}
    (h : l.Pairwise fun a b => p b → p a) : l.takeWhile p = l.filter p := by
  induction l with
  | nil => rfl
  | cons a l ih =>
    obtain ⟨hfirst, hrest⟩ := List.pairwise_cons.mp h
    by_cases ha : p a
    · rw [List.takeWhile_cons_of_pos ha, List.filter_cons_of_pos ha, ih hrest]
    · have hnone : l.filter p = [] :=
        List.filter_eq_nil_iff.mpr fun b hb hpb => ha (hfirst b hb hpb)
      rw [List.takeWhile_cons_of_neg ha, List.filter_cons_of_neg ha, hnone]

/-- **On ordered tokens that are not negative the walk has the terms of all entries in range.**

**Proof sketch.** Among ordered tokens that are not negative, once one is out of range it is too large, and so are
those after it. So taking the entries before the first one out of range is taking those in range. -/
theorem terms_eq_filterMap (hordered : (entries tokens weights).Pairwise fun e f => e.1 ≤ f.1)
    (hnonneg : ∀ e ∈ entries tokens weights, 0 ≤ e.1.toInt) :
    terms tokens weights dense enough 0 = (entries tokens weights).filterMap (factors? dense) := by
  have hlost : (entries tokens weights).Pairwise fun e f =>
      (factors? dense f).isSome → (factors? dense e).isSome := by
    refine hordered.imp_of_mem fun {e f} he _ hle hf => ?_
    have := hnonneg e he
    have := Int16.le_iff_toInt_le.mp hle
    rw [isSome_factors?_iff] at hf ⊢
    omega
  have hall : (fun e => if (factors? dense e).isSome then factors? dense e else none) =
      factors? dense := by
    funext e
    cases factors? dense e <;> rfl
  rw [terms_eq_filterMap_takeWhile, List.drop_zero, takeWhile_eq_filter hlost, List.filterMap_filter, hall]

/-- **On ordered tokens with a negative one the walk has no terms**: it stops at the first token.

**Proof sketch.** The first token is at most the negative one, so it is out of range and the walk ends there. -/
theorem terms_eq_nil (hordered : (entries tokens weights).Pairwise fun e f => e.1 ≤ f.1)
    {entry : Int16 × α} (hmem : entry ∈ entries tokens weights) (hneg : entry.1.toInt < 0) :
    terms tokens weights dense enough 0 = [] := by
  rw [terms_eq_filterMap_takeWhile, List.drop_zero]
  cases hentries : entries tokens weights with
  | nil => rfl
  | cons first rest =>
    rw [hentries] at hordered hmem
    have hfirst : first.1.toInt < 0 := by
      rcases List.mem_cons.mp hmem with rfl | hrest
      · exact hneg
      · have := Int16.le_iff_toInt_le.mp ((List.pairwise_cons.mp hordered).1 entry hrest)
        omega
    rw [List.takeWhile_cons_of_neg]
    · rfl
    · rw [isSome_factors?_iff]
      omega

end Entries

/-! ## Vectors built from pairs -/

section OfPairs

variable {α : Type} (pairs : List (Int16 × α))

/-- The entries of a vector that is built from pairs are these pairs, sorted by token. -/
lemma entries_ofPairs :
    entries (SparseVector.ofPairs pairs).tokens (SparseVector.ofPairs pairs).weights =
      pairs.mergeSort fun a b => decide (a.1 ≤ b.1) := by
  simp [entries, SparseVector.ofPairs, List.zip_map']

/-- They are all of the pairs, each as often as it was given. -/
lemma entries_ofPairs_perm :
    (entries (SparseVector.ofPairs pairs).tokens (SparseVector.ofPairs pairs).weights).Perm pairs := by
  rw [entries_ofPairs]
  exact List.mergeSort_perm _ _

/-- Comparing two pairs by token is transitive. -/
lemma tokenLE_trans (a b c : Int16 × α) (hab : decide (a.1 ≤ b.1) = true) (hbc : decide (b.1 ≤ c.1) = true) :
    decide (a.1 ≤ c.1) = true := by
  rw [decide_eq_true_iff] at hab hbc ⊢
  exact Int16.le_trans hab hbc

/-- Any two pairs can be compared. -/
lemma tokenLE_total (a b : Int16 × α) : (decide (a.1 ≤ b.1) || decide (b.1 ≤ a.1)) = true := by
  rw [Bool.or_eq_true, decide_eq_true_iff, decide_eq_true_iff]
  exact Int16.le_total a.1 b.1

/-- The entries of a vector that is built from pairs are ordered by their tokens. -/
lemma pairwise_entries_ofPairs :
    (entries (SparseVector.ofPairs pairs).tokens (SparseVector.ofPairs pairs).weights).Pairwise
      fun e f => e.1 ≤ f.1 := by
  rw [entries_ofPairs]
  exact (List.pairwise_mergeSort tokenLE_trans tokenLE_total pairs).imp of_decide_eq_true

variable {pairs}

/-- **A negative token makes the product zero**: sorting puts it first, and the walk stops there. -/
theorem ofPairs_dot_of_negative {β : Type} [Element α β] {p : Int16 × α} (hp : p ∈ pairs)
    (hneg : p.1.toInt < 0) (dense : Array α) :
    (SparseVector.ofPairs pairs).dot dense = .ok (Element.zero α) := by
  have hmem := (entries_ofPairs_perm pairs).mem_iff.mpr hp
  rw [SparseVector.dot, dot_eq (SparseVector.ofPairs pairs).size_eq.le,
    terms_eq_nil _ (pairwise_entries_ofPairs pairs) hmem hneg]
  rfl

/-- **Without a negative token the walk has the terms of all pairs in range**, in some order. -/
theorem terms_ofPairs_perm (hnonneg : ∀ p ∈ pairs, 0 ≤ p.1.toInt) (dense : Array α) :
    (terms (SparseVector.ofPairs pairs).tokens (SparseVector.ofPairs pairs).weights dense
      (SparseVector.ofPairs pairs).size_eq.le 0).Perm (pairs.filterMap (factors? dense)) := by
  have hperm := entries_ofPairs_perm pairs
  rw [terms_eq_filterMap _ (pairwise_entries_ofPairs pairs) fun e he => hnonneg e (hperm.mem_iff.mp he)]
  exact hperm.filterMap (factors? dense)

end OfPairs

/-- The product of bytes with a vector built from pairs without a negative token. -/
lemma ofPairs_dot_of_nonneg {pairs : List (Int16 × Int8)} (hnonneg : ∀ p ∈ pairs, 0 ≤ p.1.toInt)
    (dense : Array Int8) :
    (SparseVector.ofPairs pairs).dot dense = .ok (Int32.ofInt (byteSum (pairs.filterMap (factors? dense)))) := by
  rw [← byteSum_perm (terms_ofPairs_perm hnonneg dense)]
  exact dotInt8_eq _

/-- **The product of bytes with a vector built from pairs.** If no token is negative, it is the exact sum
over all pairs whose token is in range, wrapped, in whatever order they came and whatever tokens too large
there are besides. A single negative token makes it zero. -/
theorem ofPairs_dot_int8 (pairs : List (Int16 × Int8)) (dense : Array Int8) :
    (SparseVector.ofPairs pairs).dot dense =
      .ok (if ∃ p ∈ pairs, p.1.toInt < 0 then 0
        else Int32.ofInt (byteSum (pairs.filterMap (factors? dense)))) := by
  split_ifs with hneg
  · obtain ⟨p, hp, hlt⟩ := hneg
    exact ofPairs_dot_of_negative hp hlt dense
  · exact ofPairs_dot_of_nonneg (fun p hp => Int.not_lt.mp fun hlt => hneg ⟨p, hp, hlt⟩) dense

/-- **A negative token loses the entries in range**: the pair with token zero should bring five. -/
theorem ofPairs_dot_int8_loses_entry :
    let pairs : List (Int16 × Int8) := [(-1, 1), (0, 1)]
    let dense : Array Int8 := #[5]
    (SparseVector.ofPairs pairs).dot dense = .ok (0 : Int32) ∧
      Int32.ofInt (byteSum (pairs.filterMap (factors? dense))) = 5 :=
  ⟨ofPairs_dot_of_negative List.mem_cons_self (by decide) _, by decide⟩

end SparseDot.Kernel
