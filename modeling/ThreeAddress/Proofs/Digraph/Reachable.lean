import ThreeAddress.Digraph.Traversal
import ThreeAddress.Proofs.Digraph.Paths
import ThreeAddress.Proofs.FiniteSets

/-!
The search for what a node leads to finds all of it.

A node is put on the list of pending nodes when it is first seen, and never again. So the fuel
covers the nodes not yet expanded, and when the list is empty the set is closed under
successors.
-/

namespace ThreeAddress

namespace Traversal

variable {n a b : Nat} {succ : Nat → List Nat} {xs : List Nat} {s t : BitSet × List Nat}

/-- The pending nodes are distinct and have been seen. -/
structure Frontier (n : Nat) (s : BitSet × List Nat) : Prop where
  within : s.1.Over n
  nodup : s.2.Nodup
  seen : ∀ b ∈ s.2, s.1.contains b = true

/-- What comes of discovering the nodes `xs`. -/
structure Discovers (n : Nat) (s : BitSet × List Nat) (xs : List Nat) (t : BitSet × List Nat) :
    Prop where
  frontier : Frontier n t
  seen : ∀ b, t.1.contains b = true ↔ s.1.contains b = true ∨ b ∈ xs
  pending : ∀ b, b ∈ t.2 ↔ b ∈ s.2 ∨ b ∈ xs ∧ s.1.contains b = false
  card : (t.1.elements n).card + s.2.length = (s.1.elements n).card + t.2.length

lemma card_elements_insert {s : BitSet} (hs : s.Over n) (ha : a < n)
    (hnew : s.contains a = false) :
    ((s.insert a).elements n).card = (s.elements n).card + 1 := by
  have helements : (s.insert a).elements n = insert a (s.elements n) := by
    ext b
    rw [(hs.insert a).mem_elements, Finset.mem_insert, hs.mem_elements, BitSet.contains_insert hs]
    grind
  rw [helements, Finset.card_insert_of_notMem]
  rw [hs.mem_elements, hnew]
  exact Bool.false_ne_true

lemma Frontier.discover (h : Frontier n s) (ha : a < n) :
    Discovers n s [a] (discover s a) := by
  unfold Traversal.discover
  cases hnew : s.1.contains a with
  | true =>
    simp only [if_true]
    refine ⟨h, fun b => ?_, fun b => ?_, rfl⟩
    · rw [List.mem_singleton]
      exact ⟨.inl, fun hb => hb.elim id fun hb => hb ▸ hnew⟩
    · rw [List.mem_singleton]
      refine ⟨.inl, fun hb => hb.elim id ?_⟩
      rintro ⟨rfl, hfalse⟩
      rw [hnew] at hfalse
      cases hfalse
  | false =>
    simp only [Bool.false_eq_true, if_false]
    have hseen (b : Nat) : (s.1.insert a).contains b = true ↔ s.1.contains b = true ∨ b = a := by
      rw [BitSet.contains_insert h.within]
      grind
    have hfresh : a ∉ s.2 := fun hmem => by
      rw [h.seen a hmem] at hnew
      cases hnew
    refine ⟨⟨h.within.insert a, List.nodup_cons.2 ⟨hfresh, h.nodup⟩, fun b hb => ?_⟩, fun b => ?_,
      fun b => ?_, ?_⟩
    · obtain rfl | hb := List.mem_cons.1 hb
      · exact (hseen b).2 (.inr rfl)
      · exact (hseen b).2 (.inl (h.seen b hb))
    · rw [List.mem_singleton]
      exact hseen b
    · rw [List.mem_cons, List.mem_singleton, or_comm]
      refine or_congr Iff.rfl ⟨?_, And.left⟩
      rintro rfl
      exact ⟨rfl, hnew⟩
    · rw [card_elements_insert h.within ha hnew, List.length_cons]
      omega

lemma Discovers.cons (h : Discovers n s [a] t) {u : BitSet × List Nat}
    (hxs : Discovers n t xs u) : Discovers n s (a :: xs) u := by
  refine ⟨hxs.frontier, fun b => ?_, fun b => ?_, ?_⟩
  · rw [hxs.seen, h.seen, List.mem_singleton, List.mem_cons, or_assoc]
  · have hfalse : t.1.contains b = false ↔ ¬(s.1.contains b = true ∨ b = a) := by
      rw [← Bool.not_eq_true, h.seen, List.mem_singleton]
    rw [hxs.pending, h.pending, hfalse, List.mem_singleton, List.mem_cons, ← Bool.not_eq_true]
    tauto
  · have h1 := h.card
    have h2 := hxs.card
    omega

lemma Frontier.foldl_discover (h : Frontier n s) (hxs : ∀ b ∈ xs, b < n) :
    Discovers n s xs (xs.foldl Traversal.discover s) := by
  induction xs generalizing s with
  | nil => exact ⟨h, by simp, by simp, rfl⟩
  | cons a xs ih =>
    have ha := h.discover (hxs a List.mem_cons_self)
    exact ha.cons (ih ha.frontier fun b hb => hxs b (List.mem_cons_of_mem _ hb))

/-! ### The search -/

/-- The set seen lies between the start and what it leads to, and only pending nodes have
successors that are not seen. -/
structure Spreading (succ : Nat → List Nat) (n start : Nat) (s : BitSet × List Nat) : Prop where
  frontier : Frontier n s
  begun : s.1.contains start = true
  reached : ∀ b, s.1.contains b = true → Relation.ReflTransGen (fun a b => b ∈ succ a) start b
  closed : ∀ a, s.1.contains a = true → a ∉ s.2 → ∀ b ∈ succ a, s.1.contains b = true

section

variable (hsucc : ∀ a, ∀ b ∈ succ a, b < n)

include hsucc

lemma Spreading.expand {start : Nat} {seen : BitSet} {pending : List Nat}
    (h : Spreading succ n start (seen, a :: pending)) :
    Spreading succ n start ((succ a).foldl discover (seen, pending)) ∧
      (((succ a).foldl discover (seen, pending)).1.elements n).card + pending.length =
        (seen.elements n).card + ((succ a).foldl discover (seen, pending)).2.length := by
  have hrest : Frontier n (seen, pending) :=
    ⟨h.frontier.within, h.frontier.nodup.of_cons,
      fun b hb => h.frontier.seen b (List.mem_cons_of_mem _ hb)⟩
  have hnew := hrest.foldl_discover (hsucc a)
  have ha : seen.contains a = true := h.frontier.seen a List.mem_cons_self
  refine ⟨⟨hnew.frontier, (hnew.seen _).2 (.inl h.begun), fun b hb => ?_, fun c hc hcp b hb => ?_⟩,
    hnew.card⟩
  · obtain hb | hb := (hnew.seen b).1 hb
    · exact h.reached b hb
    · exact (h.reached a ha).tail hb
  · rw [hnew.seen]
    rw [hnew.pending, not_or] at hcp
    by_cases hca : c = a
    · exact .inr (hca ▸ hb)
    · -- what is seen now and not pending was seen before
      have hseen : seen.contains c = true := by
        by_contra hfalse
        obtain hc | hc := (hnew.seen c).1 hc
        · exact hfalse hc
        · exact hcp.2 ⟨hc, by simpa using hfalse⟩
      refine .inl (h.closed c hseen (fun hmem => ?_) b hb)
      exact (List.mem_cons.1 hmem).elim hca hcp.1

/-- When no node is pending, all that the start leads to has been seen. -/
lemma spread_spec {start : Nat} {fuel : Nat} {seen : BitSet} {pending : List Nat}
    (h : Spreading succ n start (seen, pending))
    (hfuel : n + pending.length ≤ fuel + (seen.elements n).card) :
    Spreading succ n start (spread succ fuel seen pending, []) := by
  induction fuel generalizing seen pending with
  | zero =>
    have hle := seen.card_elements_le n
    obtain rfl : pending = [] := List.length_eq_zero_iff.1 (by omega)
    exact h
  | succ fuel ih =>
    cases pending with
    | nil => exact h
    | cons a pending =>
      obtain ⟨hnext, hcard⟩ := h.expand hsucc
      refine ih hnext ?_
      rw [List.length_cons] at hfuel
      omega

omit hsucc in
lemma spreading_start {start : Nat} (hstart : start < n) :
    Spreading succ n start ((BitSet.empty n).insert start, [start]) ∧
      (((BitSet.empty n).insert start).elements n).card = 1 := by
  have hover := BitSet.empty_over n
  have hseen (b : Nat) : ((BitSet.empty n).insert start).contains b = true ↔ b = start := by
    rw [BitSet.contains_insert hover]
    simp [hstart, eq_comm]
  refine ⟨⟨⟨hover.insert start, List.nodup_singleton _, fun b hb => ?_⟩, (hseen start).2 rfl,
    fun b hb => ?_, fun a ha hnot => ?_⟩, ?_⟩
  · exact (hseen b).2 (List.mem_singleton.1 hb)
  · rw [(hseen b).1 hb]
  · exact absurd (List.mem_singleton.2 ((hseen a).1 ha)) hnot
  · rw [card_elements_insert hover hstart (BitSet.contains_empty n start)]
    simp [BitSet.elements]

lemma spread_start {start : Nat} (hstart : start < n) :
    Spreading succ n start (spread succ n ((BitSet.empty n).insert start) [start], []) := by
  obtain ⟨h, hcard⟩ := spreading_start hstart
  exact spread_spec hsucc h (by simp [hcard])

lemma reachable_over (start : Nat) : (reachable n succ start).Over n := by
  unfold reachable
  split
  · rename_i hstart
    exact (spread_start hsucc hstart).frontier.within
  · exact BitSet.empty_over n

lemma contains_reachable (start b : Nat) : (reachable n succ start).contains b = true ↔
    start < n ∧ Relation.ReflTransGen (fun a b => b ∈ succ a) start b := by
  unfold reachable
  split
  · rename_i hstart
    have hfound := spread_start hsucc hstart
    refine ⟨fun hb => ⟨hstart, hfound.reached b hb⟩, ?_⟩
    rintro ⟨-, hleads⟩
    induction hleads with
    | refl => exact hfound.begun
    | tail _ hab ih => exact hfound.closed _ ih List.not_mem_nil _ hab
  · rename_i hstart
    simp [hstart]

end

end Traversal

namespace Digraph

variable {α β : Type} {g : Digraph α β} {a b : Nat}

lemma exists_path_iff : (∃ ns, g.Path a b ns) ↔ Relation.ReflTransGen g.Joined a b := by
  constructor
  · rintro ⟨ns, h⟩
    induction h with
    | single _ => exact .refl
    | cons hac _ ih => exact .head hac ih
  · intro h
    induction h using Relation.ReflTransGen.head_induction_on with
    | refl => exact ⟨[b], .single b⟩
    | head hac _ ih =>
      obtain ⟨ns, hns⟩ := ih
      exact ⟨_, .cons hac hns⟩

/-- The search from a node finds the nodes to which a path leads. -/
theorem contains_reachable (hg : g.Built) (a b : Nat) :
    (g.reachable a).contains b = true ↔ a < g.nodeCount ∧ ∃ ns, g.Path a b ns := by
  have hsucc (x y : Nat) (h : y ∈ g.succ x) : y < g.nodeCount := (hg.lt (mem_succ.1 h)).2
  rw [reachable, Traversal.contains_reachable hsucc, exists_path_iff]
  simp only [mem_succ]

lemma reachable_over (hg : g.Built) (a : Nat) : (g.reachable a).Over g.nodeCount :=
  Traversal.reachable_over (fun _ _ h => (hg.lt (mem_succ.1 h)).2) a

end Digraph

end ThreeAddress
