import ThreeAddress.Proofs.FiniteSets

/-!
Packed sets are finite sets of numbers.

A packed set over a domain denotes the set of its elements. Each operation denotes the operation
on sets that it is named for, and each query gives the answer of the denoted set: the bits that
no element uses stay clear, so that it is enough to look at the words.
-/

namespace ThreeAddress.BitSet

variable {n i : Nat} {s t u : BitSet} {A B : Finset Nat} {elements : List Nat} {changed : Bool}

/-- The packed sets over the numbers below `n` that come of the operations, each with the set of
numbers that it should denote. -/
inductive Made (n : Nat) : BitSet → Finset Nat → Prop
  | empty : Made n (empty n) ∅
  | full : Made n (full n) (Finset.range n)
  | ofList {elements : List Nat} {s : BitSet} : ofList? n elements = .ok s →
    Made n s elements.toFinset
  | insert {s t : BitSet} {A : Finset Nat} {i : Nat} {changed : Bool} : Made n s A →
    s.insert? i = .ok (t, changed) → Made n t (A ∪ {i})
  | erase {s t : BitSet} {A : Finset Nat} {i : Nat} {changed : Bool} : Made n s A →
    s.erase? i = .ok (t, changed) → Made n t (A.erase i)
  | clear {s : BitSet} {A : Finset Nat} : Made n s A → Made n s.clear ∅
  | fill {s : BitSet} {A : Finset Nat} : Made n s A → Made n s.fill (Finset.range n)
  | insertAll {s t : BitSet} {A : Finset Nat} {elements : List Nat} : Made n s A →
    s.insertAll? elements = (t, .ok ()) → Made n t (A ∪ elements.toFinset)
  | union {s t u : BitSet} {A B : Finset Nat} {changed : Bool} : Made n s A → Made n t B →
    combine? union s t = .ok (u, changed) → Made n u (A ∪ B)
  | inter {s t u : BitSet} {A B : Finset Nat} {changed : Bool} : Made n s A → Made n t B →
    combine? inter s t = .ok (u, changed) → Made n u (A ∩ B)
  | diff {s t u : BitSet} {A B : Finset Nat} {changed : Bool} : Made n s A → Made n t B →
    combine? diff s t = .ok (u, changed) → Made n u (A \ B)

/-- The set over the numbers below `n` has the elements of `A`. -/
structure Denotes (n : Nat) (s : BitSet) (A : Finset Nat) : Prop where
  within : s.Over n
  mem : ∀ i, s.contains i = true ↔ i ∈ A

namespace Denotes

lemma lt (h : s.Denotes n A) (hi : i ∈ A) : i < n := by
  by_contra hn
  have hfalse := h.within.not_contains (not_lt.1 hn)
  rw [(h.mem i).2 hi] at hfalse
  cases hfalse

lemma contains_eq (h : s.Denotes n A) (i : Nat) : s.contains i = decide (i ∈ A) := by
  rw [Bool.eq_iff_iff, h.mem, decide_eq_true_iff]

/-- Equal sets are equal word for word. -/
lemma eq_iff (hs : s.Denotes n A) (ht : t.Denotes n B) : s = t ↔ A = B := by
  refine ⟨?_, ?_⟩
  · rintro rfl
    ext i
    rw [← hs.mem, ht.mem]
  · rintro rfl
    refine hs.within.ext ht.within fun i => ?_
    rw [hs.contains_eq, ht.contains_eq]

end Denotes

/-! ### The operations -/

lemma denotes_empty (n : Nat) : (empty n).Denotes n ∅ :=
  ⟨empty_over n, by simp⟩

lemma denotes_full (n : Nat) : (full n).Denotes n (Finset.range n) :=
  ⟨full_over n, by simp⟩

lemma clear_eq (h : s.Over n) : s.clear = empty n := by
  rw [clear, empty, List.map_const', h.length, h.domain]

/-- What was in the words does not matter. -/
lemma fill_congr (hdomain : s.domain = t.domain) (hlength : s.words.length = t.words.length) :
    s.fill = t.fill := by
  simp only [fill, List.map_const', hdomain, hlength]

lemma fill_eq (h : s.Over n) : s.fill = full n :=
  fill_congr (h.domain.trans (empty_over n).domain.symm)
    (h.length.trans (empty_over n).length.symm)

section

variable (hs : s.Denotes n A)

include hs

lemma Denotes.insert (hi : i < n) : (s.insert i).Denotes n (A ∪ {i}) := by
  refine ⟨hs.within.insert i, fun j => ?_⟩
  rw [contains_insert hs.within, hs.mem, and_iff_left hi, Finset.mem_union, Finset.mem_singleton]

lemma Denotes.erase (i : Nat) : (s.erase i).Denotes n (A.erase i) := by
  refine ⟨hs.within.erase i, fun j => ?_⟩
  rw [contains_erase hs.within, hs.mem, Finset.mem_erase, and_comm]

lemma Denotes.insertAll (helements : ∀ i ∈ elements, i < n) :
    (s.insertAll elements).Denotes n (A ∪ elements.toFinset) := by
  refine ⟨hs.within.insertAll elements, fun j => ?_⟩
  rw [contains_insertAll hs.within, hs.mem, and_iff_left_of_imp (helements j), Finset.mem_union,
    List.mem_toFinset]

variable (ht : t.Denotes n B)

include ht

lemma Denotes.union : (s.union t).Denotes n (A ∪ B) := by
  refine ⟨hs.within.union ht.within, fun j => ?_⟩
  rw [contains_union hs.within ht.within, Bool.or_eq_true, hs.mem, ht.mem, Finset.mem_union]

lemma Denotes.inter : (s.inter t).Denotes n (A ∩ B) := by
  refine ⟨hs.within.inter ht.within, fun j => ?_⟩
  rw [contains_inter hs.within ht.within, Bool.and_eq_true, hs.mem, ht.mem, Finset.mem_inter]

lemma Denotes.diff : (s.diff t).Denotes n (A \ B) := by
  refine ⟨hs.within.diff ht.within, fun j => ?_⟩
  rw [contains_diff hs.within ht.within, Bool.and_eq_true, hs.mem, Bool.not_eq_true',
    ← Bool.not_eq_true, ht.mem, Finset.mem_sdiff]

end

/-! ### The checked operations -/

lemma checkElement_eq (h : s.Over n) (i : Nat) :
    s.checkElement i = if i < n then .ok () else .error (.bitOutsideDomain i n) := by
  rw [checkElement, h.domain]
  rfl

lemma Over.contains?_eq (h : s.Over n) (hi : i < n) : s.contains? i = .ok (s.contains i) := by
  rw [contains?, checkElement_eq h, if_pos hi]
  rfl

lemma insert?_eq (h : s.Over n) (i : Nat) : s.insert? i =
    if i < n then .ok (s.insert i, !s.contains i) else .error (.bitOutsideDomain i n) := by
  rw [insert?, checkElement_eq h]
  split <;> rfl

lemma erase?_eq (h : s.Over n) (i : Nat) : s.erase? i =
    if i < n then .ok (s.erase i, s.contains i) else .error (.bitOutsideDomain i n) := by
  rw [erase?, checkElement_eq h]
  split <;> rfl

lemma combine?_eq {op : BitSet → BitSet → BitSet} (hs : s.Over n) (ht : t.Over n) :
    combine? op s t = .ok (op s t, op s t != s) := by
  rw [combine?, checkDomain, if_pos (hs.domain.trans ht.domain.symm)]
  rfl

lemma insertAll?_eq (h : s.Over n) (helements : ∀ i ∈ elements, i < n) :
    s.insertAll? elements = (s.insertAll elements, .ok ()) := by
  induction elements generalizing s with
  | nil => rfl
  | cons i rest ih =>
    rw [insertAll?, checkElement_eq h, if_pos (helements i List.mem_cons_self)]
    exact ih (h.insert i) fun j hj => helements j (List.mem_cons_of_mem _ hj)

/-- The elements are tested one after the other. -/
lemma insertAll?_lt (h : s.Over n) (hok : s.insertAll? elements = (t, .ok ())) :
    ∀ i ∈ elements, i < n := by
  induction elements generalizing s with
  | nil => simp
  | cons i rest ih =>
    rw [insertAll?, checkElement_eq h] at hok
    by_cases hi : i < n
    · rw [if_pos hi] at hok
      exact List.forall_mem_cons.2 ⟨hi, ih (h.insert i) hok⟩
    · rw [if_neg hi] at hok
      cases (Prod.mk.inj hok).2

lemma ofList?_ok : ofList? n elements = .ok s ↔ (empty n).insertAll? elements = (s, .ok ()) := by
  rw [ofList?]
  cases h : (empty n).insertAll? elements with
  | mk t outcome => cases outcome <;> simp [Except.map]

/-- What the operations make denotes what it should. -/
lemma Made.denotes (h : Made n s A) : s.Denotes n A := by
  induction h with
  | empty => exact denotes_empty n
  | full => exact denotes_full n
  | ofList hs =>
    rw [ofList?_ok] at hs
    have hlt := insertAll?_lt (empty_over n) hs
    rw [insertAll?_eq (empty_over n) hlt] at hs
    obtain rfl := (Prod.mk.inj hs).1
    simpa using (denotes_empty n).insertAll hlt
  | @insert s t A i changed _ ht ih =>
    rw [insert?_eq ih.within] at ht
    split at ht
    · rename_i hi
      cases ht
      exact ih.insert hi
    · cases ht
  | erase _ ht ih =>
    rw [erase?_eq ih.within] at ht
    split at ht
    · cases ht
      exact ih.erase _
    · cases ht
  | clear _ ih => exact clear_eq ih.within ▸ denotes_empty n
  | fill _ ih => exact fill_eq ih.within ▸ denotes_full n
  | insertAll _ ht ih =>
    have hlt := insertAll?_lt ih.within ht
    rw [insertAll?_eq ih.within hlt] at ht
    exact (Prod.mk.inj ht).1 ▸ ih.insertAll hlt
  | union _ _ hu ihs iht =>
    rw [combine?_eq ihs.within iht.within] at hu
    cases hu
    exact ihs.union iht
  | inter _ _ hu ihs iht =>
    rw [combine?_eq ihs.within iht.within] at hu
    cases hu
    exact ihs.inter iht
  | diff _ _ hu ihs iht =>
    rw [combine?_eq ihs.within iht.within] at hu
    cases hu
    exact ihs.diff iht

/-! ### The queries -/

lemma mem_wordBits {w : UInt64} {b : Nat} :
    b ∈ wordBits w ↔ b < 64 ∧ w.toBitVec.getLsbD b = true := by
  rw [wordBits, List.mem_filter, List.mem_range, and_mask_ne_zero]
  refine and_congr_right fun hb => ?_
  rw [Nat.mod_eq_of_lt hb]

lemma wordBits_ascending (w : UInt64) : (wordBits w).Pairwise (· < ·) :=
  List.pairwise_lt_range.filter _

/-- Taking one off a word changes its lowest bit and the zeros below. -/
lemma getLsbD_and_sub_one {w : UInt64} {b : Nat} : (w &&& (w - 1)).toBitVec.getLsbD b =
    (w.toBitVec.getLsbD b && decide (∃ a < b, w.toBitVec.getLsbD a = true)) := by
  rw [UInt64.toBitVec_and, UInt64.toBitVec_sub, show UInt64.toBitVec 1 = 1#64 from rfl,
    ← BitVec.not_neg, BitVec.getLsbD_and, BitVec.getLsbD_not, BitVec.getLsbD_neg]
  by_cases hb : b < 64
  · cases w.toBitVec.getLsbD b <;> simp [hb]
  · simp [BitVec.getLsbD_of_ge _ _ (not_lt.1 hb)]

lemma wordBits_zero : wordBits 0 = [] := by
  simp [wordBits]

/-- The lowest bit of a word, and then those of the word without it. -/
lemma wordBits_cons {w : UInt64} (hw : w ≠ 0) :
    wordBits w = w.toBitVec.ctz.toNat :: wordBits (w &&& (w - 1)) := by
  have hne : w.toBitVec ≠ 0#64 := fun h => hw (UInt64.toBitVec_inj.1 h)
  have hlowest := BitVec.getLsbD_true_ctz_of_ne_zero hne
  have hbelow : ∀ {a}, w.toBitVec.getLsbD a = true → w.toBitVec.ctz.toNat ≤ a := by
    intro a ha
    by_contra hlt
    rw [BitVec.getLsbD_false_of_lt_ctz (not_le.1 hlt)] at ha
    cases ha
  have hmem : ∀ {b}, b ∈ wordBits (w &&& (w - 1)) ↔
      (b < 64 ∧ w.toBitVec.getLsbD b = true) ∧ w.toBitVec.ctz.toNat < b := by
    intro b
    rw [mem_wordBits, getLsbD_and_sub_one, Bool.and_eq_true, decide_eq_true_iff, ← and_assoc]
    refine and_congr_right fun hb => ⟨?_, fun hlt => ⟨_, hlt, hlowest⟩⟩
    rintro ⟨a, hab, ha⟩
    exact (hbelow ha).trans_lt hab
  refine (wordBits_ascending w).eq_of_mem_iff ?_ fun b => ?_
  · exact List.pairwise_cons.2 ⟨fun b hb => (hmem.1 hb).2, wordBits_ascending _⟩
  · rw [List.mem_cons, hmem, mem_wordBits]
    constructor
    · rintro ⟨hb, hbit⟩
      rcases (hbelow hbit).eq_or_lt with heq | hlt
      · exact .inl heq.symm
      · exact .inr ⟨⟨hb, hbit⟩, hlt⟩
    · rintro (rfl | ⟨hb, -⟩)
      · exact ⟨BitVec.lt_of_getLsbD hlowest, hlowest⟩
      · exact hb

/-- The positions of all bits of words that are numbered from `k` on. -/
def wordsBits (k : Nat) (words : List UInt64) : List Nat :=
  (words.zipIdx k).flatMap fun e => (wordBits e.1).map (64 * e.2 + ·)

lemma wordsBits_cons (k : Nat) (w : UInt64) (words : List UInt64) :
    wordsBits k (w :: words) = (wordBits w).map (64 * k + ·) ++ wordsBits (k + 1) words := by
  rw [wordsBits, List.zipIdx_cons, List.flatMap_cons]
  rfl

lemma length_wordsBits_le (k : Nat) (words : List UInt64) :
    (wordsBits k words).length ≤ 64 * words.length := by
  induction words generalizing k with
  | nil => exact le_rfl
  | cons w words ih =>
    have hword : (wordBits w).length ≤ 64 :=
      (List.length_filter_le _ _).trans_eq List.length_range
    have hrest := ih (k + 1)
    rw [wordsBits_cons, List.length_append, List.length_map, List.length_cons]
    omega

namespace Cursor

/-- The walk from a place on gives these numbers and ends. -/
inductive Yields : Cursor → List Nat → Prop
  | stop {c : Cursor} : next? c.index c.current c.rest = none → Yields c []
  | step {c c' : Cursor} {i : Nat} {rest : List Nat} :
    next? c.index c.current c.rest = some (i, c') → Yields c' rest → Yields c (i :: rest)

/-- One step of the walk. -/
lemma next?_cases (index : Nat) (current : UInt64) (rest : List UInt64) :
    (next? index current rest = none ∧ wordsBits index (current :: rest) = []) ∨
    ∃ i c, next? index current rest = some (i, c) ∧
      wordsBits index (current :: rest) = i :: wordsBits c.index (c.current :: c.rest) := by
  by_cases hzero : current = 0
  · subst hzero
    have hskip : wordsBits index (0 :: rest) = wordsBits (index + 1) rest := by
      rw [wordsBits_cons, wordBits_zero]
      rfl
    rw [hskip, next?.eq_def, if_pos rfl]
    cases rest with
    | nil => exact .inl ⟨rfl, rfl⟩
    | cons w rest => exact next?_cases (index + 1) w rest
  · refine .inr ⟨_, _, by rw [next?.eq_def, if_neg hzero], ?_⟩
    rw [wordsBits_cons, wordBits_cons hzero, wordsBits_cons]
    rfl

/-- The whole walk. -/
lemma yields (c : Cursor) : c.Yields (wordsBits c.index (c.current :: c.rest)) := by
  induction hl : wordsBits c.index (c.current :: c.rest) generalizing c with
  | nil =>
    obtain ⟨hnext, -⟩ | ⟨i, c', -, hcons⟩ := next?_cases c.index c.current c.rest
    · exact .stop hnext
    · rw [hl] at hcons
      cases hcons
  | cons i l ih =>
    obtain ⟨-, hnil⟩ | ⟨i', c', hnext, hcons⟩ := next?_cases c.index c.current c.rest
    · rw [hl] at hnil
      cases hnil
    · rw [hl] at hcons
      obtain ⟨rfl, rfl⟩ := List.cons.inj hcons
      exact .step hnext (ih c' rfl)

lemma Yields.collect_eq {c : Cursor} {l : List Nat} (h : c.Yields l) {limit : Nat}
    (hlimit : l.length ≤ limit) : c.collect limit = l := by
  induction h generalizing limit with
  | stop hnext =>
    cases limit with
    | zero => rfl
    | succ limit => rw [collect, hnext]
  | step hnext _ ih =>
    cases limit with
    | zero => cases hlimit
    | succ limit =>
      rw [collect, hnext]
      exact congrArg _ (ih (Nat.le_of_succ_le_succ hlimit))

end Cursor

lemma start_wordsBits (s : BitSet) :
    wordsBits s.start.index (s.start.current :: s.start.rest) = wordsBits 0 s.words := by
  unfold start
  cases s.words with
  | nil => rw [List.headD_nil, wordsBits_cons, wordBits_zero]; rfl
  | cons w words => rfl

lemma toList_eq (s : BitSet) : s.toList = wordsBits 0 s.words := by
  rw [← start_wordsBits]
  refine s.start.yields.collect_eq ?_
  rw [start_wordsBits]
  exact length_wordsBits_le 0 s.words

/-- The walk through a set gives its list of elements. -/
lemma start_yields (s : BitSet) : s.start.Yields s.toList := by
  rw [toList_eq, ← start_wordsBits]
  exact s.start.yields

lemma mem_toList {i : Nat} : i ∈ s.toList ↔ s.bit i = true := by
  rw [toList_eq, wordsBits, List.mem_flatMap]
  constructor
  · rintro ⟨⟨w, k⟩, hw, hi⟩
    obtain ⟨b, hb, rfl⟩ := List.mem_map.1 hi
    obtain ⟨hlt, hbit⟩ := mem_wordBits.1 hb
    rw [List.mem_zipIdx_iff_getElem?] at hw
    rwa [bit, show (64 * k + b) / 64 = k by omega, show (64 * k + b) % 64 = b by omega,
      List.getD_eq_getElem?_getD, hw]
  · intro hi
    rw [bit, List.getD_eq_getElem?_getD] at hi
    cases hw : s.words[i / 64]? with
    | none => simp [hw] at hi
    | some w =>
      refine ⟨(w, i / 64), List.mem_zipIdx_iff_getElem?.2 hw, List.mem_map.2 ⟨i % 64, ?_, ?_⟩⟩
      · rw [hw, Option.getD_some] at hi
        exact mem_wordBits.2 ⟨Nat.mod_lt _ (by decide), hi⟩
      · exact Nat.div_add_mod i 64

/-- All elements of a word are below those of the next. -/
lemma toList_ascending (s : BitSet) : s.toList.Pairwise (· < ·) := by
  rw [toList_eq, wordsBits, List.pairwise_flatMap]
  refine ⟨fun e _ => ?_, ?_⟩
  · refine List.pairwise_map.2 ((wordBits_ascending e.1).imp fun hlt => ?_)
    omega
  · have hidx : s.words.zipIdx.Pairwise fun e e' => e.2 < e'.2 := by
      rw [← List.pairwise_map, List.zipIdx_map_snd]
      exact List.pairwise_lt_range'
    refine hidx.imp fun {e e'} hlt x hx y hy => ?_
    obtain ⟨b, hb, rfl⟩ := List.mem_map.1 hx
    obtain ⟨c, hc, rfl⟩ := List.mem_map.1 hy
    have hb := (mem_wordBits.1 hb).1
    omega

lemma count_eq (s : BitSet) : s.count = s.toList.length := by
  have hsum (words : List UInt64) (k m : Nat) :
      words.foldl (fun n w => n + (wordBits w).length) m = m + (wordsBits k words).length := by
    induction words generalizing k m with
    | nil => rfl
    | cons w words ih =>
      rw [List.foldl_cons, ih (k + 1), wordsBits_cons, List.length_append, List.length_map,
        Nat.add_assoc]
  rw [count, toList_eq, hsum s.words 0 0, Nat.zero_add]

section

variable (hs : s.Denotes n A)

include hs

lemma Denotes.mem_toList : i ∈ s.toList ↔ i ∈ A := by
  rw [BitSet.mem_toList, ← hs.within.contains_eq_bit, hs.mem]

lemma Denotes.count_eq : s.count = A.card := by
  have hA : s.toList.toFinset = A := by
    ext i
    rw [List.mem_toFinset, hs.mem_toList]
  rw [BitSet.count_eq, ← hA, List.toFinset_card_of_nodup]
  exact (toList_ascending s).imp fun hlt => hlt.ne

lemma Denotes.isEmpty_eq : s.isEmpty = decide (A = ∅) := by
  rw [Bool.eq_iff_iff, decide_eq_true_iff, ← hs.eq_iff (denotes_empty n), isEmpty, List.all_eq_true]
  constructor
  · intro hall
    have hdomain := hs.within.domain
    have hlength := hs.within.length
    obtain ⟨domain, words⟩ := s
    obtain rfl : domain = n := hdomain
    rw [empty, BitSet.mk.injEq, List.eq_replicate_iff]
    exact ⟨rfl, hlength, fun w hw => by simpa using hall w hw⟩
  · rintro rfl w hw
    rw [List.eq_of_mem_replicate hw]
    rfl

lemma Denotes.isSubset?_eq (ht : t.Denotes n B) : s.isSubset? t = .ok (decide (A ⊆ B)) := by
  rw [isSubset?, checkDomain, if_pos (hs.within.domain.trans ht.within.domain.symm), isSubset,
    (hs.diff ht).isEmpty_eq, decide_eq_decide.2 Finset.sdiff_eq_empty_iff_subset]
  rfl

lemma Denotes.beq_eq (ht : t.Denotes n B) : (s == t) = decide (A = B) := by
  rw [Bool.eq_iff_iff, beq_iff_eq, decide_eq_true_iff, hs.eq_iff ht]

/-- An operation on two sets tells whether the first one has changed. -/
lemma Denotes.combine?_eq {op : BitSet → BitSet → BitSet} (ht : t.Denotes n B) {C : Finset Nat}
    (hop : (op s t).Denotes n C) : combine? op s t = .ok (op s t, decide (C ≠ A)) := by
  rw [BitSet.combine?_eq hs.within ht.within, bne, hop.beq_eq hs, ← decide_not]

end

/-! ### Refinement -/

/-- The words hold the bits of `A` and no others, and what is asked about them is answered as
for `A`. -/
structure Answers (n : Nat) (s : BitSet) (A : Finset Nat) : Prop where
  words : s.words.length = n ⌈/⌉ 64
  padding : ∀ i, n ≤ i → s.bit i = false
  within : A ⊆ Finset.range n
  contains : ∀ i < n, s.contains? i = .ok (decide (i ∈ A))
  count : s.count = A.card
  isEmpty : s.isEmpty = decide (A = ∅)
  yields : s.start.Yields s.toList
  mem_toList : ∀ i, i ∈ s.toList ↔ i ∈ A
  ascending : s.toList.Pairwise (· < ·)

/-- The same for two sets over one domain. -/
structure Compares (s t : BitSet) (A B : Finset Nat) : Prop where
  isSubset : s.isSubset? t = .ok (decide (A ⊆ B))
  beq : (s == t) = decide (A = B)

lemma Denotes.answers (h : s.Denotes n A) : s.Answers n A where
  words := by
    rw [h.within.length, wordCount, Nat.ceilDiv_eq_add_pred_div]
    rfl
  padding := h.within.padding
  within _ hi := Finset.mem_range.2 (h.lt hi)
  contains i hi := by rw [h.within.contains?_eq hi, h.contains_eq]
  count := h.count_eq
  isEmpty := h.isEmpty_eq
  yields := s.start_yields
  mem_toList _ := h.mem_toList
  ascending := toList_ascending s

/-- **Packed sets are finite sets.** A packed set answers as the set of numbers does that its
history gives, and goes on to do so with each further operation. An operation fails only on an
element outside the domain, and it tells whether it has changed the set. -/
theorem made_refines (hs : Made n s A) :
    s.Answers n A ∧
    (∀ i < n, ∃ t, s.insert? i = .ok (t, decide (A ∪ {i} ≠ A)) ∧ Made n t (A ∪ {i})) ∧
    (∀ i < n, ∃ t, s.erase? i = .ok (t, decide (i ∈ A)) ∧ Made n t (A.erase i)) ∧
    (∀ elements : List Nat, (∀ i ∈ elements, i < n) →
      (∃ t, ofList? n elements = .ok t ∧ Made n t elements.toFinset) ∧
      ∃ t, s.insertAll? elements = (t, .ok ()) ∧ Made n t (A ∪ elements.toFinset)) ∧
    ∀ {t B}, Made n t B → s.Compares t A B ∧
      (∃ u, combine? union s t = .ok (u, decide (A ∪ B ≠ A)) ∧ Made n u (A ∪ B)) ∧
      (∃ u, combine? inter s t = .ok (u, decide (A ∩ B ≠ A)) ∧ Made n u (A ∩ B)) ∧
      ∃ u, combine? diff s t = .ok (u, decide (A \ B ≠ A)) ∧ Made n u (A \ B) := by
  have h := hs.denotes
  refine ⟨h.answers, fun i hi => ?_, fun i hi => ?_, fun elements hlt => ⟨?_, ?_⟩,
    fun {t B} ht => ?_⟩
  · have heq : s.insert? i = .ok (s.insert i, decide (A ∪ {i} ≠ A)) := by
      rw [insert?_eq h.within, if_pos hi, h.contains_eq, ← decide_not]
      simp
    exact ⟨_, heq, hs.insert heq⟩
  · have heq : s.erase? i = .ok (s.erase i, decide (i ∈ A)) := by
      rw [erase?_eq h.within, if_pos hi, h.contains_eq]
    exact ⟨_, heq, hs.erase heq⟩
  · have heq := ofList?_ok.2 (insertAll?_eq (empty_over n) hlt)
    exact ⟨_, heq, .ofList heq⟩
  · have heq := insertAll?_eq h.within hlt
    exact ⟨_, heq, hs.insertAll heq⟩
  · have h' := ht.denotes
    refine ⟨⟨h.isSubset?_eq h', h.beq_eq h'⟩, ?_, ?_, ?_⟩
    · exact ⟨_, h.combine?_eq h' (h.union h'), hs.union ht (h.combine?_eq h' (h.union h'))⟩
    · exact ⟨_, h.combine?_eq h' (h.inter h'), hs.inter ht (h.combine?_eq h' (h.inter h'))⟩
    · exact ⟨_, h.combine?_eq h' (h.diff h'), hs.diff ht (h.combine?_eq h' (h.diff h'))⟩

/-- Seventy numbers need two words, and the last one is not used up. -/
theorem made_refines_seventy : ∃ s u, ofList? 70 [69, 3, 64, 3] = .ok s ∧
    Made 70 s {3, 64, 69} ∧ s.Answers 70 {3, 64, 69} ∧ s.count = 3 ∧
    combine? union s (full 70) = .ok (u, true) ∧ u.Answers 70 (Finset.range 70) := by
  obtain ⟨s, hs⟩ : ∃ s, ofList? 70 [69, 3, 64, 3] = .ok s := ⟨_, rfl⟩
  have hmade : Made 70 s {3, 64, 69} := by
    have h := Made.ofList hs
    rwa [show [69, 3, 64, 3].toFinset = {3, 64, 69} by decide] at h
  obtain ⟨hanswers, -, -, -, hpairs⟩ := made_refines hmade
  obtain ⟨-, ⟨u, hu, hmade'⟩, -⟩ := hpairs .full
  rw [show ({3, 64, 69} : Finset Nat) ∪ Finset.range 70 = Finset.range 70 by decide] at hu hmade'
  refine ⟨s, u, hs, hmade, hanswers, hanswers.count.trans (by decide), ?_, (made_refines hmade').1⟩
  rw [hu, decide_eq_true (by decide)]

end ThreeAddress.BitSet
