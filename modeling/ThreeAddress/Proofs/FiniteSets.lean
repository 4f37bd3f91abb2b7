import Mathlib
import ThreeAddress.Ascending
import ThreeAddress.BitSet

/-!
The two kinds of finite sets of numbers, as sets.

An ascending list has the elements that were inserted, each once. A packed set over a domain
has one bit for each number below the domain and no other bit set, so it is determined by its
elements, and the operations on words are those on elements.
-/

namespace ThreeAddress

namespace Ascending

lemma mem_insert (a b : Nat) (set : List Nat) : b ∈ insert a set ↔ b = a ∨ b ∈ set := by
  induction set with
  | nil => simp [insert]
  | cons c rest ih =>
    simp only [insert]
    cases h : compare a c with
    | lt => simp
    | eq =>
      obtain rfl := Nat.compare_eq_eq.mp h
      simp
    | gt =>
      simp only [List.mem_cons, ih]
      tauto

lemma mem_insertAll (items : List Nat) (b : Nat) (set : List Nat) :
    b ∈ insertAll items set ↔ b ∈ items ∨ b ∈ set := by
  induction items generalizing set with
  | nil => simp [insertAll]
  | cons a rest ih =>
    rw [insertAll, List.foldl_cons, ← insertAll, ih, mem_insert, List.mem_cons]
    tauto

lemma mem_ofList (items : List Nat) (b : Nat) : b ∈ ofList items ↔ b ∈ items := by
  simp [ofList, mem_insertAll]

lemma insert_sorted (a : Nat) {set : List Nat} (h : set.Pairwise (· < ·)) :
    (insert a set).Pairwise (· < ·) := by
  induction set with
  | nil => simp [insert]
  | cons c rest ih =>
    obtain ⟨hc, hrest⟩ := List.pairwise_cons.mp h
    simp only [insert]
    cases hac : compare a c with
    | lt =>
      have hlt := Nat.compare_eq_lt.mp hac
      refine List.pairwise_cons.mpr ⟨fun d hd => ?_, h⟩
      rcases List.mem_cons.mp hd with rfl | hd
      · exact hlt
      · exact hlt.trans (hc d hd)
    | eq => exact h
    | gt =>
      refine List.pairwise_cons.mpr ⟨fun d hd => ?_, ih hrest⟩
      rcases (mem_insert a d rest).mp hd with rfl | hd
      · exact Nat.compare_eq_gt.mp hac
      · exact hc d hd

lemma insertAll_sorted (items : List Nat) {set : List Nat} (h : set.Pairwise (· < ·)) :
    (insertAll items set).Pairwise (· < ·) := by
  induction items generalizing set with
  | nil => exact h
  | cons a rest ih => exact ih (insert_sorted a h)

lemma ofList_sorted (items : List Nat) : (ofList items).Pairwise (· < ·) :=
  insertAll_sorted items .nil

end Ascending

namespace BitSet

/-- The stored bit of a number, inside the domain or not. -/
def bit (s : BitSet) (i : Nat) : Bool := (s.words.getD (i / 64) 0).toBitVec.getLsbD (i % 64)

/-- The sets over the numbers below `n`. -/
structure Over (n : Nat) (s : BitSet) : Prop where
  domain : s.domain = n
  length : s.words.length = wordCount n
  padding : ∀ i, n ≤ i → s.bit i = false

/-! ### Words -/

lemma toBitVec_mask (i : Nat) : (mask i).toBitVec = BitVec.twoPow 64 (i % 64) := by
  have h : i % 64 < 64 := Nat.mod_lt _ (by omega)
  apply BitVec.eq_of_toNat_eq
  simp [mask, BitVec.toNat_twoPow, Nat.shiftLeft_eq]

lemma and_mask_ne_zero (w : UInt64) (i : Nat) :
    ((w &&& mask i) != 0) = w.toBitVec.getLsbD (i % 64) := by
  have h : i % 64 < 64 := Nat.mod_lt _ (by omega)
  have hne : BitVec.twoPow 64 (i % 64) ≠ 0#64 := by
    intro h0
    have := congrArg (BitVec.getLsbD · (i % 64)) h0
    simp [h] at this
  rw [Bool.eq_iff_iff, bne_iff_ne, Ne, ← UInt64.toBitVec_inj, UInt64.toBitVec_and,
    toBitVec_mask, BitVec.and_twoPow]
  cases hb : w.toBitVec.getLsbD (i % 64) <;> simp [hne]

lemma getLsbD_mask (i j : Nat) :
    (mask i).toBitVec.getLsbD (j % 64) = decide (i % 64 = j % 64) := by
  rw [toBitVec_mask, BitVec.getLsbD_twoPow]
  simp [Nat.mod_lt]

/-- All bits below the one of `n`. -/
lemma getLsbD_mask_sub_one (n j : Nat) :
    (mask n - 1).toBitVec.getLsbD (j % 64) = decide (j % 64 < n % 64) := by
  have hn : n % 64 < 64 := Nat.mod_lt _ (by omega)
  have hj : j % 64 < 64 := Nat.mod_lt _ (by omega)
  have hpow : 2 ^ (n % 64) < 2 ^ 64 := Nat.pow_lt_pow_right (by omega) hn
  have hone : 1 ≤ 2 ^ (n % 64) := Nat.one_le_two_pow
  have hval : (mask n - 1).toBitVec.toNat = 2 ^ (n % 64) - 1 := by
    rw [UInt64.toBitVec_sub, toBitVec_mask, BitVec.toNat_sub, BitVec.toNat_twoPow,
      Nat.mod_eq_of_lt hpow]
    have : (1 : UInt64).toBitVec.toNat = 1 := rfl
    rw [this]
    omega
  rw [BitVec.getLsbD, hval, Nat.testBit_two_pow_sub_one]

lemma getLsbD_zero (j : Nat) : (0 : UInt64).toBitVec.getLsbD j = false := by
  change (0#64).getLsbD j = false
  simp

lemma contains_eq (s : BitSet) (i : Nat) : s.contains i = (decide (i < s.domain) && s.bit i) := by
  rw [contains, and_mask_ne_zero, bit]

lemma Over.contains_eq_bit {n : Nat} {s : BitSet} (h : s.Over n) (i : Nat) :
    s.contains i = s.bit i := by
  rw [contains_eq, h.domain]
  by_cases hi : i < n
  · simp [hi]
  · simp [h.padding i (by omega)]

lemma Over.not_contains {n i : Nat} {s : BitSet} (h : s.Over n) (hi : n ≤ i) :
    s.contains i = false := by
  rw [h.contains_eq_bit, h.padding i hi]

/-- Sets over one domain with the same elements are equal. -/
lemma Over.ext {n : Nat} {s t : BitSet} (hs : s.Over n) (ht : t.Over n)
    (h : ∀ i, s.contains i = t.contains i) : s = t := by
  have hbit : ∀ i, s.bit i = t.bit i := fun i => by
    rw [← hs.contains_eq_bit, ← ht.contains_eq_bit, h]
  have hwords : s.words = t.words := by
    apply List.ext_getElem (by rw [hs.length, ht.length])
    intro k hk hk'
    rw [← UInt64.toBitVec_inj]
    apply BitVec.eq_of_getLsbD_eq
    intro j hj
    have := hbit (64 * k + j)
    rwa [bit, bit, show (64 * k + j) / 64 = k by omega, show (64 * k + j) % 64 = j by omega,
      List.getD_eq_getElem _ _ hk, List.getD_eq_getElem _ _ hk'] at this
  have hdomain : s.domain = t.domain := hs.domain.trans ht.domain.symm
  cases s
  cases t
  simp_all

/-! ### The operations -/

lemma empty_over (n : Nat) : (empty n).Over n := by
  refine ⟨rfl, by simp [empty], fun i _ => ?_⟩
  have : (List.replicate (wordCount n) (0 : UInt64)).getD (i / 64) 0 = 0 := by
    rw [List.getD_eq_getElem?_getD, List.getElem?_replicate]
    split <;> rfl
  rw [bit, empty, this, getLsbD_zero]

@[simp] lemma contains_empty (n i : Nat) : (empty n).contains i = false := by
  rw [(empty_over n).contains_eq_bit, bit, empty, List.getD_eq_getElem?_getD,
    List.getElem?_replicate]
  split <;> exact getLsbD_zero _

section Combine

variable {n : Nat} {s t : BitSet} {op : UInt64 → UInt64 → UInt64} {f : Bool → Bool → Bool}

/-- An operation on words that acts on each bit alike acts so on the elements. -/
lemma bit_combine (hs : s.Over n) (ht : t.Over n) (hf : f false false = false)
    (hop : ∀ a b j, j < 64 →
      (op a b).toBitVec.getLsbD j = f (a.toBitVec.getLsbD j) (b.toBitVec.getLsbD j)) (i : Nat) :
    (combine op s t).bit i = f (s.bit i) (t.bit i) := by
  have hlen : s.words.length = t.words.length := by rw [hs.length, ht.length]
  simp only [bit, combine, List.getD_eq_getElem?_getD, List.getElem?_zipWith]
  by_cases hi : i / 64 < s.words.length
  · have hi' : i / 64 < t.words.length := hlen ▸ hi
    simp only [List.getElem?_eq_getElem hi, List.getElem?_eq_getElem hi', Option.getD_some]
    exact hop _ _ _ (Nat.mod_lt _ (by omega))
  · have hi' : ¬ i / 64 < t.words.length := hlen ▸ hi
    simp only [List.getElem?_eq_none (Nat.le_of_not_lt hi),
      List.getElem?_eq_none (Nat.le_of_not_lt hi'), Option.getD_none, getLsbD_zero, hf]

lemma combine_over (hs : s.Over n) (ht : t.Over n) (hf : f false false = false)
    (hop : ∀ a b j, j < 64 →
      (op a b).toBitVec.getLsbD j = f (a.toBitVec.getLsbD j) (b.toBitVec.getLsbD j)) :
    (combine op s t).Over n where
  domain := hs.domain
  length := by simp [combine, hs.length, ht.length]
  padding i hi := by rw [bit_combine hs ht hf hop, hs.padding i hi, ht.padding i hi, hf]

lemma contains_combine (hs : s.Over n) (ht : t.Over n) (hf : f false false = false)
    (hop : ∀ a b j, j < 64 →
      (op a b).toBitVec.getLsbD j = f (a.toBitVec.getLsbD j) (b.toBitVec.getLsbD j)) (i : Nat) :
    (combine op s t).contains i = f (s.contains i) (t.contains i) := by
  rw [(combine_over hs ht hf hop).contains_eq_bit, bit_combine hs ht hf hop,
    hs.contains_eq_bit, ht.contains_eq_bit]

end Combine

section

variable {n : Nat} {s t : BitSet}

lemma getLsbD_or (a b : UInt64) (j : Nat) (_ : j < 64) :
    (a ||| b).toBitVec.getLsbD j = (a.toBitVec.getLsbD j || b.toBitVec.getLsbD j) := by
  simp

lemma getLsbD_and (a b : UInt64) (j : Nat) (_ : j < 64) :
    (a &&& b).toBitVec.getLsbD j = (a.toBitVec.getLsbD j && b.toBitVec.getLsbD j) := by
  simp

lemma getLsbD_andNot (a b : UInt64) (j : Nat) (hj : j < 64) :
    (a &&& ~~~ b).toBitVec.getLsbD j = (a.toBitVec.getLsbD j && !b.toBitVec.getLsbD j) := by
  simp [hj]

lemma Over.union (hs : s.Over n) (ht : t.Over n) : (s.union t).Over n :=
  combine_over hs ht rfl getLsbD_or

lemma Over.inter (hs : s.Over n) (ht : t.Over n) : (s.inter t).Over n :=
  combine_over hs ht rfl getLsbD_and

lemma Over.diff (hs : s.Over n) (ht : t.Over n) : (s.diff t).Over n :=
  combine_over (f := fun a b => a && !b) hs ht rfl getLsbD_andNot

lemma contains_union (hs : s.Over n) (ht : t.Over n) (i : Nat) :
    (s.union t).contains i = (s.contains i || t.contains i) :=
  contains_combine hs ht rfl getLsbD_or i

lemma contains_inter (hs : s.Over n) (ht : t.Over n) (i : Nat) :
    (s.inter t).contains i = (s.contains i && t.contains i) :=
  contains_combine hs ht rfl getLsbD_and i

lemma contains_diff (hs : s.Over n) (ht : t.Over n) (i : Nat) :
    (s.diff t).contains i = (s.contains i && !t.contains i) :=
  contains_combine (f := fun a b => a && !b) hs ht rfl getLsbD_andNot i

lemma bit_modify (k : Nat) (f : UInt64 → UInt64) (i : Nat) (hk : k < s.words.length) :
    ({ s with words := s.words.modify k f } : BitSet).bit i =
      if k = i / 64 then (f (s.words.getD k 0)).toBitVec.getLsbD (i % 64) else s.bit i := by
  simp only [bit, List.getD_eq_getElem?_getD, List.getElem?_modify]
  split
  · rename_i hki
    subst hki
    simp [List.getElem?_eq_getElem hk]
  · cases s.words[i / 64]? <;> simp

lemma word_lt (hs : s.Over n) {i : Nat} (hi : i < n) : i / 64 < s.words.length := by
  rw [hs.length, wordCount]
  omega

lemma bit_insert (hs : s.Over n) {i : Nat} (hi : i < n) (j : Nat) :
    (s.insert i).bit j = (decide (j = i) || s.bit j) := by
  rw [insert, if_pos (hs.domain ▸ hi), bit_modify _ _ _ (word_lt hs hi)]
  split
  · rename_i hw
    rw [getLsbD_or _ _ _ (Nat.mod_lt _ (by omega)), getLsbD_mask, bit, hw, Bool.or_comm]
    congr 1
    exact decide_eq_decide.mpr (by omega)
  · have : j ≠ i := by rintro rfl; contradiction
    simp [this]

lemma bit_erase (hs : s.Over n) {i : Nat} (hi : i < n) (j : Nat) :
    (s.erase i).bit j = (decide (j ≠ i) && s.bit j) := by
  rw [erase, if_pos (hs.domain ▸ hi), bit_modify _ _ _ (word_lt hs hi)]
  split
  · rename_i hw
    rw [getLsbD_andNot _ _ _ (Nat.mod_lt _ (by omega)), getLsbD_mask, bit, hw, Bool.and_comm]
    congr 1
    rw [← decide_not]
    exact decide_eq_decide.mpr (by omega)
  · have : j ≠ i := by rintro rfl; contradiction
    simp [this]

lemma Over.insert (hs : s.Over n) (i : Nat) : (s.insert i).Over n := by
  by_cases hi : i < n
  · refine ⟨?_, ?_, fun j hj => ?_⟩
    · rw [BitSet.insert, if_pos (hs.domain ▸ hi)]; exact hs.domain
    · rw [BitSet.insert, if_pos (hs.domain ▸ hi), List.length_modify, hs.length]
    · have : j ≠ i := by omega
      simp [bit_insert hs hi, hs.padding j hj, this]
  · rwa [BitSet.insert, if_neg (hs.domain ▸ hi)]

lemma Over.erase (hs : s.Over n) (i : Nat) : (s.erase i).Over n := by
  by_cases hi : i < n
  · refine ⟨?_, ?_, fun j hj => ?_⟩
    · rw [BitSet.erase, if_pos (hs.domain ▸ hi)]; exact hs.domain
    · rw [BitSet.erase, if_pos (hs.domain ▸ hi), List.length_modify, hs.length]
    · simp [bit_erase hs hi, hs.padding j hj]
  · rwa [BitSet.erase, if_neg (hs.domain ▸ hi)]

lemma Over.insertAll (hs : s.Over n) (elements : List Nat) : (s.insertAll elements).Over n := by
  induction elements generalizing s with
  | nil => exact hs
  | cons i rest ih => exact ih (hs.insert i)

lemma Over.eraseAll (hs : s.Over n) (elements : List Nat) : (s.eraseAll elements).Over n := by
  induction elements generalizing s with
  | nil => exact hs
  | cons i rest ih => exact ih (hs.erase i)

/-- An element outside the domain is not inserted. -/
lemma contains_insert (hs : s.Over n) (i j : Nat) :
    (s.insert i).contains j ↔ s.contains j ∨ j = i ∧ i < n := by
  rw [(hs.insert i).contains_eq_bit, hs.contains_eq_bit]
  by_cases hi : i < n
  · rw [bit_insert hs hi]
    simp [hi, or_comm]
  · rw [BitSet.insert, if_neg (hs.domain ▸ hi)]
    simp [hi]

lemma contains_insertAll (hs : s.Over n) (elements : List Nat) (j : Nat) :
    (s.insertAll elements).contains j ↔ s.contains j ∨ j ∈ elements ∧ j < n := by
  induction elements generalizing s with
  | nil => simp [BitSet.insertAll]
  | cons i rest ih =>
    have := ih (hs.insert i)
    rw [BitSet.insertAll, List.foldl_cons, ← BitSet.insertAll, this, contains_insert hs]
    simp only [List.mem_cons]
    constructor
    · rintro ((h | ⟨rfl, h⟩) | ⟨h, h'⟩)
      · exact .inl h
      · exact .inr ⟨.inl rfl, h⟩
      · exact .inr ⟨.inr h, h'⟩
    · rintro (h | ⟨rfl | h, h'⟩)
      · exact .inl (.inl h)
      · exact .inl (.inr ⟨rfl, h'⟩)
      · exact .inr ⟨h, h'⟩

lemma contains_erase (hs : s.Over n) (i j : Nat) :
    (s.erase i).contains j ↔ s.contains j ∧ j ≠ i := by
  rw [(hs.erase i).contains_eq_bit, hs.contains_eq_bit]
  by_cases hi : i < n
  · rw [bit_erase hs hi]
    simp [and_comm]
  · rw [BitSet.erase, if_neg (hs.domain ▸ hi)]
    refine ⟨fun hj => ⟨hj, ?_⟩, And.left⟩
    rintro rfl
    rw [hs.padding j (Nat.le_of_not_lt hi)] at hj
    cases hj

lemma contains_eraseAll (hs : s.Over n) (elements : List Nat) (j : Nat) :
    (s.eraseAll elements).contains j ↔ s.contains j ∧ j ∉ elements := by
  induction elements generalizing s with
  | nil => simp [BitSet.eraseAll]
  | cons i rest ih =>
    rw [BitSet.eraseAll, List.foldl_cons, ← BitSet.eraseAll, ih (hs.erase i), contains_erase hs,
      List.mem_cons, not_or, and_assoc]

/-! ### The full set -/

lemma bit_full (n i : Nat) : (full n).bit i = decide (i < n) := by
  have hall : ∀ k, ((List.replicate (wordCount n) (0 : UInt64)).map
      fun _ => ~~~ (0 : UInt64))[k]? = if k < wordCount n then some (~~~ 0) else none := by
    intro k
    rw [List.getElem?_map, List.getElem?_replicate]
    split <;> rfl
  have hones : ∀ j, j < 64 → (~~~ (0 : UInt64)).toBitVec.getLsbD j = true := by
    intro j hj
    rw [UInt64.toBitVec_not, BitVec.getLsbD_not, getLsbD_zero]
    simp [hj]
  have hmod : i % 64 < 64 := Nat.mod_lt _ (by omega)
  have hcount : wordCount n = (n + 63) / 64 := rfl
  by_cases h0 : n % 64 = 0
  · rw [full, fill, if_pos (show (empty n).domain % 64 = 0 from h0)]
    simp only [empty, bit, List.getD_eq_getElem?_getD, hall]
    split
    · simp only [Option.getD_some, hones _ hmod]
      exact (decide_eq_true (by omega)).symm
    · simp only [Option.getD_none, getLsbD_zero]
      exact (decide_eq_false (by omega)).symm
  · rw [full, fill, if_neg (show ¬ (empty n).domain % 64 = 0 from h0)]
    simp only [empty, bit, List.getD_eq_getElem?_getD, List.getElem?_modify, hall, List.length_map,
      List.length_replicate]
    by_cases hk : i / 64 < wordCount n
    · by_cases hlast : wordCount n - 1 = i / 64
      · simp only [hk, hlast, if_true, Option.map_eq_map, Option.map_some, Option.getD_some,
          getLsbD_mask_sub_one]
        exact decide_eq_decide.mpr (by omega)
      · simp only [hk, hlast, if_true, if_false, Option.map_eq_map, Option.map_some,
          Option.getD_some, hones _ hmod]
        exact (decide_eq_true (by omega)).symm
    · simp only [hk, if_false, Option.map_eq_map, Option.map_none, Option.getD_none,
        getLsbD_zero]
      exact (decide_eq_false (by omega)).symm

lemma full_over (n : Nat) : (full n).Over n where
  domain := by
    simp only [full, fill]
    split <;> rfl
  length := by
    simp only [full, fill]
    split <;> simp [empty]
  padding i hi := by simp [bit_full, hi]

@[simp] lemma contains_full (n i : Nat) : (full n).contains i = decide (i < n) := by
  rw [(full_over n).contains_eq_bit, bit_full]

end

/-! ### Counting -/

/-- The elements below `n`. -/
def elements (n : Nat) (s : BitSet) : Finset Nat := (Finset.range n).filter fun i => s.contains i

lemma card_elements_le (n : Nat) (s : BitSet) : (s.elements n).card ≤ n := by
  simpa [elements] using Finset.card_filter_le (Finset.range n) fun i => s.contains i

lemma Over.mem_elements {n : Nat} {s : BitSet} (hs : s.Over n) (i : Nat) :
    i ∈ s.elements n ↔ s.contains i := by
  rw [elements, Finset.mem_filter, Finset.mem_range, and_iff_right_iff_imp]
  intro hi
  by_contra hin
  rw [hs.not_contains (by omega)] at hi
  cases hi

lemma Over.ext_elements {n : Nat} {s t : BitSet} (hs : s.Over n) (ht : t.Over n)
    (h : s.elements n = t.elements n) : s = t := by
  refine hs.ext ht fun i => ?_
  rw [Bool.eq_iff_iff, ← hs.mem_elements, ← ht.mem_elements, h]

/-- A proper subset has fewer elements. -/
lemma card_elements_lt {n : Nat} {s t : BitSet} (hs : s.Over n) (ht : t.Over n) (hne : s ≠ t)
    (hsub : ∀ i, s.contains i → t.contains i) : (s.elements n).card < (t.elements n).card := by
  apply Finset.card_lt_card
  have hle : s.elements n ⊆ t.elements n := fun i hi =>
    (ht.mem_elements i).mpr (hsub i ((hs.mem_elements i).mp hi))
  exact hle.ssubset_of_ne fun h => hne (hs.ext_elements ht h)

end BitSet

end ThreeAddress
