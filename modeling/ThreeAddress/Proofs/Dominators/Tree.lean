import ThreeAddress.Proofs.Digraph.Paths
import ThreeAddress.Proofs.Dominators.Immediate

/-!
The dominator forest of a graph is right: it answers for the paths from the roots.

The virtual root stands on no path of the graph. A walk from it goes to a root in one step and
follows a path from there, so that its dominators are those of the roots together, with the
virtual root on top.
-/

namespace ThreeAddress

namespace Dominators

lemma mem_rootsWithin {size r : Nat} {roots : List Nat} :
    r ∈ rootsWithin size roots ↔ r ∈ roots ∧ r < size := by
  simp [rootsWithin]

end Dominators

namespace DomForest

variable {t : DomForest}

/-- The whole way up from a node, which ends where there is no immediate dominator. -/
inductive Climbs (t : DomForest) : Nat → List Nat → Prop
  | stop {n : Nat} : t.immediate? n = none → Climbs t n [n]
  | step {n d : Nat} {ns : List Nat} : t.immediate? n = some d → Climbs t d ns →
    Climbs t n (n :: ns)

section

variable {rank : Nat → Nat} (hrank : ∀ {n d}, t.immediate? n = some d → rank d < rank n)
include hrank

lemma climbs_climb {fuel n : Nat} (hfuel : rank n < fuel) : t.Climbs n (t.climb fuel n) := by
  induction fuel generalizing n with
  | zero => exact absurd hfuel (Nat.not_lt_zero _)
  | succ fuel ih =>
    rw [climb]
    split
    · rename_i d hd
      have hlt := hrank hd
      exact .step hd (ih (by omega))
    · rename_i hd
      exact .stop hd

lemma Climbs.rank_le {n m : Nat} {ns : List Nat} (h : t.Climbs n ns) (hm : m ∈ ns) :
    rank m ≤ rank n := by
  induction h with
  | stop _ => rw [List.mem_singleton.1 hm]
  | step hd _ ih =>
    obtain rfl | hm := List.mem_cons.1 hm
    · exact le_rfl
    · exact (ih hm).trans (hrank hd).le

lemma Climbs.nodup {n : Nat} {ns : List Nat} (h : t.Climbs n ns) : ns.Nodup := by
  induction h with
  | stop _ => exact List.nodup_singleton _
  | step hd h ih =>
    refine List.nodup_cons.2 ⟨fun hn => ?_, ih⟩
    exact absurd (h.rank_le hrank hn) (not_le.2 (hrank hd))

end

end DomForest

namespace Digraph

open Dominators

variable {α β : Type} {g : Digraph α β} {roots : List Nat} {a b d z : Nat} {ns : List Nat}

/-- A root of the graph leads to `b`. -/
def Reached (g : Digraph α β) (roots : List Nat) (b : Nat) : Prop :=
  ∃ r ∈ roots, r < g.nodeCount ∧ ∃ ns, g.Path r b ns

/-- `b` is reached, and each path from a root to `b` passes through `a`. -/
def Dominates (g : Digraph α β) (roots : List Nat) (a b : Nat) : Prop :=
  g.Reached roots b ∧ ∀ r ∈ roots, r < g.nodeCount → ∀ ns, g.Path r b ns → a ∈ ns

lemma Dominates.refl (h : g.Reached roots b) : g.Dominates roots b b :=
  ⟨h, fun _ _ _ _ hns => hns.right_mem⟩

/-! ### The virtual root -/

def rootedSucc (g : Digraph α β) (roots : List Nat) (v : Nat) : List Nat :=
  if v = g.nodeCount then rootsWithin g.nodeCount roots else g.succ v

def rootedPred (g : Digraph α β) (roots : List Nat) (v : Nat) : List Nat :=
  if (rootsWithin g.nodeCount roots).contains v then g.pred v ++ [g.nodeCount] else g.pred v

lemma mem_rootedSucc_root : b ∈ g.rootedSucc roots g.nodeCount ↔ b ∈ roots ∧ b < g.nodeCount := by
  rw [rootedSucc, if_pos rfl, mem_rootsWithin]

lemma mem_rootedSucc (ha : a ≠ g.nodeCount) : b ∈ g.rootedSucc roots a ↔ g.Joined a b := by
  rw [rootedSucc, if_neg ha, mem_succ]

lemma rootedSucc_lt (hg : g.Built) (roots : List Nat) (a b : Nat)
    (h : b ∈ g.rootedSucc roots a) : b < g.nodeCount := by
  by_cases ha : a = g.nodeCount
  · subst ha
    exact (mem_rootedSucc_root.1 h).2
  · exact (hg.lt ((mem_rootedSucc ha).1 h)).2

lemma mem_rootedPred (hg : g.Built) : a ∈ g.rootedPred roots b ↔ b ∈ g.rootedSucc roots a := by
  have hroot : g.nodeCount ∉ g.pred b := fun h => absurd (hg.lt (mem_pred.1 h)).1 (lt_irrefl _)
  by_cases ha : a = g.nodeCount
  · subst ha
    rw [mem_rootedSucc_root, ← mem_rootsWithin, rootedPred]
    split <;> simp_all
  · rw [mem_rootedSucc ha, ← mem_pred, rootedPred]
    split <;> simp [ha]

/-- The tree of the depth-first search from the virtual root. -/
def rootedTree (hg : g.Built) (roots : List Nat) :
    DepthFirst (fun a b => b ∈ g.rootedSucc roots a) :=
  depthFirst (fun a b h => (rootedSucc_lt hg roots a b h).trans (Nat.lt_succ_self _))
    (Nat.lt_succ_self g.nodeCount)

/-- The dominator that the search finds, which may be the virtual root. -/
def found (g : Digraph α β) (roots : List Nat) (b : Nat) : Nat :=
  (search (g.nodeCount + 1) (number (g.nodeCount + 1) (g.rootedSucc roots) g.nodeCount)
    (g.rootedPred roots) g.nodeCount).idomOf b

lemma getD_map_range {n : Nat} (f : Nat → Option Nat) (hb : b < n) :
    ((List.range n).map f).toArray.getD b none = f b := by
  simp [hb]

lemma idom?_dominators (hb : b < g.nodeCount) : (g.dominators roots).idom? b =
    if (number (g.nodeCount + 1) (g.rootedSucc roots) g.nodeCount).reached b then
      some (if g.found roots b = g.nodeCount then b else g.found roots b)
    else none :=
  getD_map_range _ hb

section

variable (hg : g.Built)
include hg

lemma rootedTree_matches : Matches (rootedTree hg roots)
    (number (g.nodeCount + 1) (g.rootedSucc roots) g.nodeCount) (g.nodeCount + 1) :=
  ⟨rfl, rfl, number_valid (fun a b h => (rootedSucc_lt hg roots a b h).trans (Nat.lt_succ_self _))
    (Nat.lt_succ_self g.nodeCount)⟩

lemma Path.avoiding (h : g.Path a b ns) (hz : z ∉ ns) (ha : a < g.nodeCount) :
    Avoiding (fun a b => b ∈ g.rootedSucc roots a) z b a := by
  induction h with
  | single a => exact .refl fun heq => hz (by simp [heq])
  | @cons a b c ns hac _ ih =>
    simp only [List.mem_cons, not_or] at hz
    exact .head (Ne.symm hz.1) ((mem_rootedSucc ha.ne).2 hac) (ih hz.2 (hg.lt hac).2)

lemma path_of_avoiding (h : Avoiding (fun a b => b ∈ g.rootedSucc roots a) z b a)
    (ha : a < g.nodeCount) : ∃ ns, g.Path a b ns ∧ z ∉ ns := by
  induction h with
  | refl hb => exact ⟨[b], .single b, by simpa using Ne.symm hb⟩
  | @head a c hz hac _ ih =>
    obtain ⟨ns, hns, hzns⟩ := ih (rootedSucc_lt hg roots a c hac)
    exact ⟨a :: ns, .cons ((mem_rootedSucc ha.ne).1 hac) hns, by simp [Ne.symm hz, hzns]⟩

/-- A walk from the virtual root enters the graph at a root. -/
lemma avoiding_root_iff (hb : b ≠ g.nodeCount) :
    Avoiding (fun a b => b ∈ g.rootedSucc roots a) z b g.nodeCount ↔
      z ≠ g.nodeCount ∧ ∃ r ∈ roots, r < g.nodeCount ∧ ∃ ns, g.Path r b ns ∧ z ∉ ns := by
  constructor
  · intro h
    cases h with
    | refl _ => exact absurd rfl hb
    | head hz hedge h =>
      obtain ⟨hr, hlt⟩ := mem_rootedSucc_root.1 hedge
      exact ⟨hz.symm, _, hr, hlt, path_of_avoiding hg h hlt⟩
  · rintro ⟨hz, r, hr, hlt, ns, hns, hzns⟩
    exact .head hz.symm (mem_rootedSucc_root.2 ⟨hr, hlt⟩) (hns.avoiding hg hzns hlt)

lemma num_pos_iff (hb : b ≠ g.nodeCount) :
    0 < (rootedTree hg roots).num b ↔ g.Reached roots b := by
  constructor
  · intro h
    have hwalk : Avoiding (fun a b => b ∈ g.rootedSucc roots a) (g.nodeCount + 1) b g.nodeCount :=
      (DepthFirst.root_anc h).avoiding fun x _ hx =>
        ((rootedTree_matches hg).bound hx.left_pos).1.ne
    obtain ⟨-, r, hr, hlt, ns, hns, -⟩ := (avoiding_root_iff hg hb).1 hwalk
    exact ⟨r, hr, hlt, ns, hns⟩
  · rintro ⟨r, hr, hlt, ns, hns⟩
    have hpos : 0 < (rootedTree hg roots).num r :=
      (rootedTree hg roots).closed (rootedTree hg roots).root_pos (mem_rootedSucc_root.2 ⟨hr, hlt⟩)
    clear hr
    induction hns with
    | single _ => exact hpos
    | cons hac _ ih =>
      exact ih hb (hg.lt hac).2
        ((rootedTree hg roots).closed hpos ((mem_rootedSucc hlt.ne).2 hac))

lemma Reached.lt (h : g.Reached roots b) : b < g.nodeCount := by
  obtain ⟨r, -, hlt, ns, hns⟩ := h
  exact hns.lt hg hlt b hns.right_mem

lemma Dominates.lt (h : g.Dominates roots a b) : a < g.nodeCount := by
  obtain ⟨⟨r, hr, hlt, ns, hns⟩, hall⟩ := h
  exact hns.lt hg hlt a (hall r hr hlt ns hns)

/-- To dominate along paths is to dominate in the tree. -/
lemma dominates_iff : g.Dominates roots a b ↔
    a ≠ g.nodeCount ∧ b ≠ g.nodeCount ∧ (rootedTree hg roots).Dom a b := by
  constructor
  · intro h
    have hb := (h.1.lt hg).ne
    refine ⟨(h.lt hg).ne, hb, (num_pos_iff hg hb).2 h.1, fun hwalk => ?_⟩
    obtain ⟨-, r, hr, hlt, ns, hns, ha⟩ := (avoiding_root_iff hg hb).1 hwalk
    exact ha (h.2 r hr hlt ns hns)
  · rintro ⟨ha, hb, hpos, hdom⟩
    refine ⟨(num_pos_iff hg hb).1 hpos, fun r hr hlt ns hns => ?_⟩
    by_contra hmem
    exact hdom ((avoiding_root_iff hg hb).2 ⟨ha, r, hr, hlt, ns, hns, hmem⟩)

/-! ### The recorded dominators -/

lemma idom?_of_not_reached (h : ¬g.Reached roots b) : (g.dominators roots).idom? b = none := by
  by_cases hb : b < g.nodeCount
  · have hnum : ¬0 < (rootedTree hg roots).num b := fun hpos => h ((num_pos_iff hg hb.ne).1 hpos)
    rw [idom?_dominators hb, if_neg fun hr => hnum (Numbering.reached_iff.1 hr)]
  · simp [dominators, DomForest.ofRoots, DomForest.idom?, hb]

lemma idom?_of_reached (h : g.Reached roots b) :
    ∃ d, (rootedTree hg roots).IsIdom d b ∧
      (g.dominators roots).idom? b = some (if d = g.nodeCount then b else d) := by
  have hb := h.lt hg
  have hnum := (num_pos_iff hg hb.ne).2 h
  refine ⟨g.found roots b, ?_, ?_⟩
  · exact search_isIdom (rootedTree_matches hg) (fun _ _ => mem_rootedPred hg) hb.ne hnum
  · rw [idom?_dominators hb, if_pos (Numbering.reached_iff.2 hnum)]

/-- The virtual root is recorded as the node itself. -/
lemma immediate?_cases (h : g.Reached roots b) :
    ((rootedTree hg roots).IsIdom g.nodeCount b ∧ (g.dominators roots).idom? b = some b ∧
      (g.dominators roots).immediate? b = none) ∨
    ∃ d, d ≠ g.nodeCount ∧ (rootedTree hg roots).IsIdom d b ∧
      (g.dominators roots).idom? b = some d ∧ (g.dominators roots).immediate? b = some d := by
  obtain ⟨d, hd, hidom⟩ := idom?_of_reached hg h
  by_cases hroot : d = g.nodeCount
  · subst hroot
    rw [if_pos rfl] at hidom
    exact .inl ⟨hd, hidom, by simp [DomForest.immediate?, hidom]⟩
  · rw [if_neg hroot] at hidom
    exact .inr ⟨d, hroot, hd, hidom, by simp [DomForest.immediate?, hidom, hd.ne]⟩

/-- The numbers of the tree show that the way up ends. -/
lemma num_lt_of_immediate? (h : (g.dominators roots).immediate? b = some d) :
    (rootedTree hg roots).num d - 1 < (rootedTree hg roots).num b - 1 := by
  by_cases hr : g.Reached roots b
  · obtain ⟨-, -, hnone⟩ | ⟨d', -, hd, -, hsome⟩ := immediate?_cases hg hr
    · rw [hnone] at h
      cases h
    · obtain rfl := Option.some.inj (hsome.symm.trans h)
      have hlt := hd.dom.anc.num_lt hd.ne
      have hpos := hd.dom.anc.left_pos
      omega
  · rw [DomForest.immediate?, idom?_of_not_reached hg hr] at h
    cases h

lemma climbs_chain (n : Nat) : (g.dominators roots).Climbs n ((g.dominators roots).chain n) := by
  refine DomForest.climbs_climb (num_lt_of_immediate? hg) ?_
  have hcount : (g.dominators roots).nodeCount = g.nodeCount := by
    simp [dominators, DomForest.ofRoots, DomForest.nodeCount]
  rcases Nat.eq_zero_or_pos ((rootedTree hg roots).num n) with hz | hpos
  · omega
  · have hle := ((rootedTree_matches hg).bound hpos).2
    omega

/-- Only the virtual root stands above a root. -/
lemma eq_of_dominates (h : (rootedTree hg roots).IsIdom g.nodeCount b)
    (ha : g.Dominates roots a b) : a = b := by
  by_contra hne
  obtain ⟨hroot, -, hdom⟩ := (dominates_iff hg).1 ha
  have hup := (h.below hdom hne).anc
  exact hroot (hup.eq (DepthFirst.root_anc hup.left_pos).num_le)

lemma mem_climbs_iff (hb : g.Reached roots b) (h : (g.dominators roots).Climbs b ns) :
    a ∈ ns ↔ g.Dominates roots a b := by
  induction h with
  | @stop b hnone =>
    obtain ⟨hd, -, -⟩ | ⟨d, -, -, -, hsome⟩ := immediate?_cases hg hb
    · rw [List.mem_singleton]
      refine ⟨?_, eq_of_dominates hg hd⟩
      rintro rfl
      exact .refl hb
    · rw [hnone] at hsome
      cases hsome
  | @step b d ns hsome _ ih =>
    obtain ⟨-, -, hnone⟩ | ⟨d', hroot, hd, -, hsome'⟩ := immediate?_cases hg hb
    · rw [hnone] at hsome
      cases hsome
    · obtain rfl := Option.some.inj (hsome'.symm.trans hsome)
      have hdb : g.Dominates roots d' b := (dominates_iff hg).2 ⟨hroot, (hb.lt hg).ne, hd.dom⟩
      have hdr : g.Reached roots d' := (num_pos_iff hg hroot).1 hd.dom.anc.left_pos
      rw [List.mem_cons, ih hdr]
      constructor
      · rintro (rfl | had)
        · exact .refl hb
        · obtain ⟨ha, -, hdom⟩ := (dominates_iff hg).1 had
          exact (dominates_iff hg).2 ⟨ha, (hb.lt hg).ne, hdom.trans hd.dom⟩
      · intro hab
        by_cases hne : a = b
        · exact .inl hne
        · obtain ⟨ha, -, hdom⟩ := (dominates_iff hg).1 hab
          exact .inr ((dominates_iff hg).2 ⟨ha, hroot, hd.below hdom hne⟩)

lemma isReachable_dominators : (g.dominators roots).isReachable b = true ↔ g.Reached roots b := by
  rw [DomForest.isReachable]
  by_cases hb : g.Reached roots b
  · obtain ⟨d, -, hd⟩ := idom?_of_reached hg hb
    simp [hd, hb]
  · simp [idom?_of_not_reached hg hb, hb]

lemma dominates_dominators :
    (g.dominators roots).dominates a b = true ↔ g.Dominates roots a b := by
  rw [DomForest.dominates, Bool.and_eq_true, isReachable_dominators hg, List.contains_iff_mem]
  exact ⟨fun ⟨hb, hmem⟩ => (mem_climbs_iff hg hb (climbs_chain hg b)).1 hmem,
    fun hab => ⟨hab.1, (mem_climbs_iff hg hab.1 (climbs_chain hg b)).2 hab⟩⟩

end

/-- **The dominator forest is exact.** It tells which nodes are reached and what dominates them,
for any roots. The dominator recorded for a node is the closest one, and the way up along these
dominators ends and meets no node twice. -/
theorem dominators_paths (hg : g.Built) (roots : List Nat) :
    (∀ b, (g.dominators roots).isReachable b = true ↔ g.Reached roots b) ∧
      (∀ a b, (g.dominators roots).dominates a b = true ↔ g.Dominates roots a b) ∧
      (∀ b, g.Reached roots b → ∃ d, (g.dominators roots).idomOf b = .ok d ∧
        (d = b ↔ ∀ a, g.Dominates roots a b → a = b) ∧
        (d ≠ b → g.Dominates roots d b ∧
          ∀ a, g.Dominates roots a b → a ≠ b → g.Dominates roots a d)) ∧
      ∀ n, (g.dominators roots).Climbs n ((g.dominators roots).chain n) ∧
        ((g.dominators roots).chain n).Nodup := by
  refine ⟨fun b => isReachable_dominators hg, fun a b => dominates_dominators hg, fun b hb => ?_,
    fun n => ?_⟩
  · obtain ⟨hd, hidom, -⟩ | ⟨d, hroot, hd, hidom, -⟩ := immediate?_cases hg hb
    · refine ⟨b, by rw [DomForest.idomOf, hidom]; rfl, ?_, fun hne => absurd rfl hne⟩
      exact ⟨fun _ _ => eq_of_dominates hg hd, fun _ => rfl⟩
    · have hdb : g.Dominates roots d b := (dominates_iff hg).2 ⟨hroot, (hb.lt hg).ne, hd.dom⟩
      refine ⟨d, by rw [DomForest.idomOf, hidom]; rfl, ?_, fun _ => ⟨hdb, fun a ha hne => ?_⟩⟩
      · exact ⟨fun heq => absurd heq hd.ne, fun hall => hall d hdb⟩
      · obtain ⟨hroot', -, hdom⟩ := (dominates_iff hg).1 ha
        exact (dominates_iff hg).2 ⟨hroot', hroot, hd.below hdom hne⟩
  · exact ⟨climbs_chain hg n, (climbs_chain hg n).nodup (num_lt_of_immediate? hg)⟩

/-- A loop with two entries, a parallel edge, a node that leads to itself, and a node that
nothing leads to. -/
def twoEntryLoop : Digraph Unit Unit :=
  (addEdges ⟨#[(), (), (), (), (), ()], #[]⟩
    [(0, 1), (0, 2), (0, 2), (1, 2), (2, 1), (2, 3), (3, 3), (3, 4), (5, 4)] ()).1

lemma twoEntryLoop_built : twoEntryLoop.Built :=
  .addEdges ((((((Built.empty.addNode ()).addNode ()).addNode ()).addNode ()).addNode ()).addNode ())
    _ ()

theorem dominators_paths_twoEntryLoop : twoEntryLoop.Built ∧
    twoEntryLoop.Dominates [0, 9, 0] 2 4 ∧ ¬twoEntryLoop.Dominates [0] 1 2 ∧
    ¬twoEntryLoop.Dominates [0, 5] 2 4 ∧ ¬twoEntryLoop.Reached [0] 5 := by
  refine ⟨twoEntryLoop_built, ?_, ?_, ?_, ?_⟩
  · exact ((dominators_paths twoEntryLoop_built _).2.1 2 4).1 (by decide +kernel)
  · exact fun h => absurd (((dominators_paths twoEntryLoop_built _).2.1 1 2).2 h)
      (by decide +kernel)
  · exact fun h => absurd (((dominators_paths twoEntryLoop_built _).2.1 2 4).2 h)
      (by decide +kernel)
  · exact fun h => absurd (((dominators_paths twoEntryLoop_built _).1 5).2 h) (by decide +kernel)

end Digraph

end ThreeAddress
