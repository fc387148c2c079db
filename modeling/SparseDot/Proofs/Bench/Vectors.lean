import SparseDot.Bench.Inputs
import SparseDot.Proofs.Bench.Retries
import SparseDot.Proofs.Kernel.Bytes
import SparseDot.Proofs.Kernel.Codes
import SparseDot.Proofs.Kernel.Skipping

set_option autoImplicit false

/-!
# Drawn vectors suit the kernels

The lengths of the vectors are options, and anything may be asked for. The dense vector has at least one slot and
not more than tokens can address, so that every number that is drawn for a token is one. The tokens are in range
then, and a kernel reaches all of them: it neither stops early nor reads what is not there. All that is asked of
the source of random numbers is that a number below a bound is below it.

## Main definitions

* `SparseDot.Bench.Sampler.StaysBelow` — what is asked of the source of random numbers.
* `SparseDot.Bench.Inputs.Suitable` — vectors that suit the kernels.

## Main results

* `SparseDot.Bench.Generator.sampler_staysBelow` — the generator meets it.
* `SparseDot.Bench.Inputs.exists_make` — drawn vectors are suitable.
* `SparseDot.Bench.Inputs.Suitable.length_reached` — all positions of suitable vectors are reached.
* `SparseDot.Bench.Inputs.make_suits_kernels` — what this means for the products.
-/

namespace SparseDot.Bench

open Kernel

/-! ## Drawing -/

/-- **Numbers below a positive bound are below it.** -/
def Sampler.StaysBelow {γ : Type} (sampler : Sampler γ) : Prop :=
  ∀ bound state, 0 < bound → (sampler.below bound state).1 < bound

/-- **The numbers of the generator are below their bounds.** -/
theorem Generator.sampler_staysBelow : sampler.StaysBelow := fun _ state hbound =>
  retry_tryBelow_lt hbound stateCount state

section DrawMany

variable {α γ : Type} {draw : γ → α × γ}

/-- As many values are drawn as are asked for, behind those that are there. -/
private lemma size_drawMany (n : ℕ) (drawn : Array α) (state : γ) :
    (drawMany draw n drawn state).1.size = drawn.size + n := by
  induction n generalizing drawn state with
  | zero => rfl
  | succ n ih => rw [drawMany, ih, Array.size_push, Nat.add_right_comm, Nat.add_assoc]

/-- As many values are drawn as are asked for. -/
private lemma size_drawMany_empty (n : ℕ) (state : γ) : (drawMany draw n #[] state).1.size = n := by
  rw [size_drawMany, Array.size_empty, Nat.zero_add]

/-- What holds of everything that is drawn holds of all values. -/
private lemma forall_mem_drawMany {p : α → Prop} (hdraw : ∀ state, p (draw state).1) (n : ℕ) {drawn : Array α}
    (hdrawn : ∀ a ∈ drawn, p a) (state : γ) : ∀ a ∈ (drawMany draw n drawn state).1, p a := by
  induction n generalizing drawn state with
  | zero => exact hdrawn
  | succ n ih =>
    refine ih (fun a ha => ?_) _
    rcases Array.mem_push.mp ha with ha | rfl
    · exact hdrawn a ha
    · exact hdraw state

end DrawMany

/-! ## Tokens -/

/-- Small numbers become tokens. -/
private lemma mapM_toToken {numbers : List ℕ} (h : ∀ n ∈ numbers, n < tokenCount) :
    numbers.mapM toToken = .ok (numbers.map Int16.ofNat) := by
  induction numbers with
  | nil => rfl
  | cons n numbers ih =>
    obtain ⟨hn, hnumbers⟩ := List.forall_mem_cons.mp h
    rw [List.mapM_cons, toToken, if_pos hn, ih hnumbers]
    rfl

/-- The length of the dense vector is what is asked for, brought between one and the number of tokens. -/
private lemma denseLengthFor_eq (asked : ℕ) : denseLengthFor asked = min (max asked 1) 32768 := by
  have hcount : tokenCount = 32768 := rfl
  rw [denseLengthFor, hcount]
  omega

/-- **The sorted tokens of small numbers**, of which each is one of the numbers.

**Proof sketch.** Sorting puts the tokens in order and takes each of them as it is. -/
theorem sorted_tokens (numbers : List ℕ) :
    Ordered ((numbers.map Int16.ofNat).mergeSort fun a b => decide (a ≤ b)).toArray ∧
      ∀ t ∈ ((numbers.map Int16.ofNat).mergeSort fun a b => decide (a ≤ b)).toArray,
        ∃ n ∈ numbers, Int16.ofNat n = t := by
  constructor
  · have htrans (a b c : Int16) (hab : decide (a ≤ b) = true) (hbc : decide (b ≤ c) = true) :
        decide (a ≤ c) = true :=
      decide_eq_true (Int16.le_trans (of_decide_eq_true hab) (of_decide_eq_true hbc))
    have htotal (a b : Int16) : (decide (a ≤ b) || decide (b ≤ a)) = true := by simpa using Int16.le_total a b
    have hsorted := List.pairwise_mergeSort htrans htotal (numbers.map Int16.ofNat)
    intro i j hij hj
    exact of_decide_eq_true (List.pairwise_iff_getElem.mp hsorted i j (hij.trans hj) hj hij)
  · intro t ht
    rw [List.mem_toArray, List.mem_mergeSort, List.mem_map] at ht
    exact ht

/-! ## Suitable vectors -/

/-- **Vectors that suit the kernels**: there are as many weights as tokens, the tokens are ordered and address
slots of the dense vector, and no code is negative. -/
structure Inputs.Suitable (inputs : Inputs) (denseLength sparseLength : ℕ) : Prop where
  /-- The dense vector has its length. -/
  size_dense : inputs.dense.size = denseLength
  /-- There is a code for every dense value. -/
  size_denseCodes : inputs.denseCodes.size = denseLength
  /-- There are as many tokens as were asked for. -/
  size_tokens : inputs.tokens.size = sparseLength
  /-- There is a weight for every token. -/
  size_weights : inputs.weights.size = sparseLength
  /-- There is a code for every weight. -/
  size_weightCodes : inputs.weightCodes.size = sparseLength
  /-- The tokens are ordered. -/
  ordered : Ordered inputs.tokens
  /-- Every token addresses a slot of the dense vector. -/
  token_bounds : ∀ t ∈ inputs.tokens, 0 ≤ t.toInt ∧ t.toInt < denseLength
  /-- No code of a weight is negative. -/
  weightCode_bounds : ∀ code ∈ inputs.weightCodes, 0 ≤ code.toInt ∧ code.toInt ≤ 127
  /-- No code of a dense value is negative. -/
  denseCode_bounds : ∀ code ∈ inputs.denseCodes, 0 ≤ code.toInt ∧ code.toInt ≤ 127

/-- Codes are between zero and the largest code. -/
private lemma quantizeAll_bounds {values : Array Binary32} {ceiling : Binary32} {code : Int8}
    (h : code ∈ quantizeAll values ceiling) : 0 ≤ code.toInt ∧ code.toInt ≤ 127 := by
  obtain ⟨value, -, rfl⟩ := Array.mem_map.mp h
  exact ⟨toInt_quantize_nonneg value ceiling, Int.lt_add_one_iff.mp (quantize value ceiling).toInt_lt⟩

namespace Inputs

/-- **The vectors that are made of drawn values.** -/
def ofDrawn (dense : Array Binary32) (numbers : List ℕ) (weights : Array Binary32) : Inputs where
  tokens := ((numbers.map Int16.ofNat).mergeSort fun a b => decide (a ≤ b)).toArray
  weights := weights
  dense := dense
  weightCodes := quantizeAll weights weightCeiling
  denseCodes := quantizeAll dense denseCeiling

/-- They are suitable if the numbers are those of slots that tokens can address. -/
private lemma suitable_ofDrawn {dense weights : Array Binary32} {numbers : List ℕ} (hdense : dense.size ≤ tokenCount)
    (hnumbers : ∀ n ∈ numbers, n < dense.size) (hweights : weights.size = numbers.length) :
    (ofDrawn dense numbers weights).Suitable dense.size numbers.length where
  size_dense := rfl
  size_denseCodes := size_quantizeAll _ _
  size_tokens := by
    rw [ofDrawn, List.size_toArray, List.length_mergeSort, List.length_map]
  size_weights := hweights
  size_weightCodes := (size_quantizeAll _ _).trans hweights
  ordered := (sorted_tokens numbers).1
  token_bounds t ht := by
    obtain ⟨n, hn, rfl⟩ := (sorted_tokens numbers).2 t ht
    have hlt := hnumbers n hn
    rw [Int16.toInt_ofNat_of_lt (hlt.trans_le hdense)]
    omega
  weightCode_bounds _ := quantizeAll_bounds
  denseCode_bounds _ := quantizeAll_bounds

/-- **Drawn vectors are suitable**, whatever lengths are asked for.

**Proof sketch.** The dense vector has a slot, and no more slots than tokens can address. So every number that is drawn
for a token is below the number of slots, and becomes the token of a slot. -/
theorem exists_make {γ : Type} {sampler : Sampler γ} (hsampler : sampler.StaysBelow) (state : γ)
    (options : Options) : ∃ inputs, make sampler state options = .ok inputs ∧
      inputs.Suitable (denseLengthFor options.denseLength) options.sparseLength := by
  have hlength : 0 < denseLengthFor options.denseLength ∧ denseLengthFor options.denseLength ≤ tokenCount := by
    rw [denseLengthFor_eq, show tokenCount = 32768 from rfl]
    omega
  -- what is drawn, in the order in which it is
  let forDense := drawMany (sampler.single (Binary.zero false) denseCeiling)
    (denseLengthFor options.denseLength) #[] state
  let forTokens := drawMany (sampler.below (denseLengthFor options.denseLength)) options.sparseLength #[] forDense.2
  let forWeights := drawMany (sampler.single (Binary.zero false) weightCeiling) options.sparseLength #[] forTokens.2
  have hdense : forDense.1.size = denseLengthFor options.denseLength := size_drawMany_empty _ _
  have hcount : forTokens.1.toList.length = options.sparseLength := size_drawMany_empty _ _
  have hweights : forWeights.1.size = options.sparseLength := size_drawMany_empty _ _
  have hbelow : ∀ n ∈ forTokens.1.toList, n < denseLengthFor options.denseLength := by
    have hall := forall_mem_drawMany (p := (· < denseLengthFor options.denseLength))
      (fun state => hsampler _ state hlength.1) options.sparseLength (Array.forall_mem_empty _) forDense.2
    exact fun n hn => hall n (Array.mem_toList_iff.mp hn)
  refine ⟨ofDrawn forDense.1 forTokens.1.toList forWeights.1, ?_, ?_⟩
  · have htokens := mapM_toToken fun n hn => (hbelow n hn).trans_le hlength.2
    simp only [make, forTokens, forDense, htokens]
    rfl
  · have hsuitable := suitable_ofDrawn (hdense.trans_le hlength.2) (by rwa [hdense]) (hweights.trans hcount.symm)
    rwa [hdense, hcount] at hsuitable

/-- The vectors of a seed are suitable. -/
lemma exists_ofOptions (options : Options) : ∃ inputs, ofOptions options = .ok inputs ∧
    inputs.Suitable (denseLengthFor options.denseLength) options.sparseLength :=
  exists_make Generator.sampler_staysBelow (Generator.ofSeed options.seed) options

/-! ## Products of suitable vectors -/

namespace Suitable

variable {inputs : Inputs} {denseLength sparseLength : ℕ} (h : inputs.Suitable denseLength sparseLength)
include h

/-- **All positions of suitable vectors are reached.**

**Proof sketch.** The token at every position is in range, so that no position ends the walk. -/
theorem length_reached : (reached inputs.tokens denseLength 0).length = sparseLength := by
  refine le_antisymm ((length_reached_le _ _).trans_eq h.size_tokens) ?_
  refine le_length_reached_iff.mpr fun i hi => ?_
  have hlt : i < inputs.tokens.size := hi.trans_eq h.size_tokens.symm
  exact ⟨hlt, h.token_bounds _ (Array.getElem_mem hlt)⟩

/-- There are enough weights for the tokens. -/
lemma enough : inputs.tokens.size ≤ inputs.weights.size := (h.size_tokens.trans h.size_weights.symm).le

/-- There are enough codes of weights for the tokens. -/
private lemma enough_codes : inputs.tokens.size ≤ inputs.weightCodes.size :=
  (h.size_tokens.trans h.size_weightCodes.symm).le

/-- No factor of a product of codes is negative. -/
lemma codes_nonneg : ∀ t ∈ terms inputs.tokens inputs.weightCodes inputs.denseCodes h.enough_codes 0,
    0 ≤ t.1.toInt ∧ 0 ≤ t.2.toInt := by
  intro t ht
  obtain ⟨p, -, rfl⟩ := List.mem_map.mp ht
  exact ⟨(h.weightCode_bounds _ (Array.getElem_mem _)).1, (h.denseCode_bounds _ (Array.getElem_mem _)).1⟩

/-- **The product in single precision of suitable vectors**, on a processor of any level. -/
theorem dotAt_eq (level : LaneLevel) : dotAt inputs.tokens inputs.weights inputs.dense level = .ok (match level with
    | .avx2 => groupedSum (terms inputs.tokens inputs.weights inputs.dense h.enough 0)
    | .scalar => (terms inputs.tokens inputs.weights inputs.dense h.enough 0).foldl
        (fun acc t => Element.mulAdd acc t.1 t.2) (Binary.zero false)) := by
  cases level with
  | avx2 => exact dotVectorised_eq h.enough
  | scalar => exact dot_eq h.enough

/-- **Every kernel has a product for suitable vectors.** -/
theorem exists_runOnce (level : LaneLevel) (kernel : Kind) : ∃ value, runOnce level kernel inputs = .ok value := by
  cases kernel with
  | scalar =>
    rw [runOnce, dotSingle, dot_eq h.enough]
    exact ⟨_, rfl⟩
  | int8 =>
    rw [runOnce, dotInt8_eq h.enough_codes]
    exact ⟨_, rfl⟩
  | simd =>
    rw [runOnce, h.dotAt_eq]
    exact ⟨_, rfl⟩

/-- **The product of the codes of suitable vectors is exact** if they are not too long.

**Proof sketch.** No product of two codes is negative, so that a sum of so many of them fits 32 bits. It is then an
integer that double precision has. -/
theorem runOnce_int8 (hlength : sparseLength ≤ 133144) :
    let sum := byteSum (terms inputs.tokens inputs.weightCodes inputs.denseCodes h.enough_codes 0)
    0 ≤ sum ∧ ∃ value, (∀ level, runOnce level .int8 inputs = .ok value) ∧ value.isFinite ∧ value.toRat = sum := by
  intro sum
  have hcount : (terms inputs.tokens inputs.weightCodes inputs.denseCodes h.enough_codes 0).length ≤ 133144 := by
    rw [length_terms, h.size_denseCodes, h.length_reached]
    exact hlength
  have hexact : (Int32.ofInt sum).toInt = sum := toInt_ofInt_byteSum_of_nonneg h.codes_nonneg hcount
  have hnear : (Binary.ofInt sum : Binary64).Near sum 0 := by
    refine Binary.near_ofInt (Format.representable_double (abs_le.mpr ?_))
    have hlow := (Int32.ofInt sum).le_toInt
    have hhigh := (Int32.ofInt sum).toInt_lt
    omega
  refine ⟨byteSum_nonneg h.codes_nonneg, Binary.ofInt sum, fun level => ?_, hnear.isFinite, hnear.toRat_eq⟩
  rw [runOnce, dotInt8_eq h.enough_codes]
  exact congrArg (fun n => Except.ok (Binary.ofInt n)) hexact

end Suitable

/-- **Drawn vectors suit the kernels**, whatever lengths are asked for and whatever the source of random numbers
and its state are. They have the lengths that are asked for, where that of the dense vector is brought between one
and the number of tokens; the tokens are ordered and in range, and the codes are between `0` and `127`. Every kernel
has a product for them on every processor, and reaches the positions of all tokens. With up to 133144 of them the
product of the codes is their exact sum, which is not negative.

**Proof sketch.** The vectors are suitable, so that all positions are reached, and the products of the kernels are
those of the terms at these positions. -/
theorem make_suits_kernels {γ : Type} (sampler : Sampler γ) (hsampler : sampler.StaysBelow) (state : γ)
    (options : Options) :
    ∃ inputs, make sampler state options = .ok inputs ∧
      inputs.Suitable (min (max options.denseLength 1) 32768) options.sparseLength ∧
      (reached inputs.tokens inputs.dense.size 0).map (·.index) = List.range options.sparseLength ∧
      (∀ level kernel, ∃ value, runOnce level kernel inputs = .ok value) ∧
      ∃ (enough : inputs.tokens.size ≤ inputs.weights.size)
        (enough_codes : inputs.tokens.size ≤ inputs.weightCodes.size),
        let ts := terms inputs.tokens inputs.weights inputs.dense enough 0
        let codes := terms inputs.tokens inputs.weightCodes inputs.denseCodes enough_codes 0
        ts.length = options.sparseLength ∧ codes.length = options.sparseLength ∧
        dotSingle inputs.tokens inputs.weights inputs.dense =
          .ok (ts.foldl (fun sum t => sum + t.1 * t.2) (Binary.zero false)) ∧
        dotGrouped inputs.tokens inputs.weights inputs.dense = .ok (groupedSum ts) ∧
        dotVectorised inputs.tokens inputs.weights inputs.dense = .ok (groupedSum ts) ∧
        dotInt8 inputs.tokens inputs.weightCodes inputs.denseCodes =
          .ok (codes.foldl (fun sum t => sum + t.1.toInt32 * t.2.toInt32) 0) ∧
        (options.sparseLength ≤ 133144 → 0 ≤ byteSum codes ∧ ∃ value,
          (∀ level, runOnce level .int8 inputs = .ok value) ∧ value.isFinite ∧ value.toRat = byteSum codes) := by
  obtain ⟨inputs, hmake, h⟩ := exists_make hsampler state options
  rw [denseLengthFor_eq] at h
  refine ⟨inputs, hmake, h, ?_, h.exists_runOnce, h.enough, h.enough_codes, ?_, ?_,
    dot_eq h.enough, dotGrouped_eq h.enough, dotVectorised_eq h.enough, dot_eq h.enough_codes, h.runOnce_int8⟩
  · rw [map_index_reached, h.size_dense, h.length_reached, List.range_eq_range']
  · rw [length_terms, h.size_dense, h.length_reached]
  · rw [length_terms, h.size_denseCodes, h.length_reached]

/-- More is asked for than tokens can address, and nothing at all. -/
theorem make_suits_kernels_seed :
    Generator.sampler.StaysBelow ∧
    (∃ inputs, ofOptions { sparseLength := 133144, denseLength := 32769 } = .ok inputs ∧
      inputs.dense.size = 32768 ∧ inputs.tokens.size = 133144 ∧ Ordered inputs.tokens ∧
      ∃ value, runOnce .avx2 .int8 inputs = .ok value ∧ value.isFinite ∧ 0 ≤ value.toRat) ∧
    ∃ inputs, ofOptions { sparseLength := 0, denseLength := 0 } = .ok inputs ∧
      inputs.dense.size = 1 ∧ inputs.tokens.size = 0 := by
  refine ⟨Generator.sampler_staysBelow, ?_, ?_⟩
  · obtain ⟨inputs, hmake, hsuitable, -, -, _, _, -, -, -, -, -, -, hcodes⟩ := make_suits_kernels Generator.sampler
      Generator.sampler_staysBelow (Generator.ofSeed 0x5eed) { sparseLength := 133144, denseLength := 32769 }
    obtain ⟨hnonneg, value, hvalue, hfinite, hsum⟩ := hcodes (by decide)
    refine ⟨inputs, hmake, hsuitable.size_dense, hsuitable.size_tokens, hsuitable.ordered, value, hvalue .avx2,
      hfinite, ?_⟩
    rw [hsum]
    exact_mod_cast hnonneg
  · obtain ⟨inputs, hmake, hsuitable, -⟩ := make_suits_kernels Generator.sampler Generator.sampler_staysBelow
      (Generator.ofSeed 0x5eed) { sparseLength := 0, denseLength := 0 }
    exact ⟨inputs, hmake, hsuitable.size_dense, hsuitable.size_tokens⟩

end Inputs

end SparseDot.Bench
