import ThreeAddress.Proofs.ControlFlow.Intervals
import ThreeAddress.Proofs.ControlFlow.Walks
import ThreeAddress.Proofs.Lowering.Loops

/-!
The control-flow graph is reducible. An edge that does not go to a larger block is a jump to the
head of its loop, which dominates it: a path from an entry cannot get into a loop but through the
head. The other edges go up, so they close no cycle, and the least block of a cycle dominates all
its blocks.
-/

namespace ThreeAddress

namespace Digraph

variable {α β : Type} {g : Digraph α β} {roots : List Nat} {a b c : Nat}

lemma Path.concat {ns : List Nat} (h : g.Path a b ns) (hbc : g.Joined b c) :
    g.Path a c (ns ++ [c]) := by
  induction h with
  | single => exact .cons hbc (.single c)
  | cons hac _ ih => exact .cons hac (ih hbc)

/-- What dominates the end of an edge and is not the end itself dominates its start. -/
lemma Dominates.back (h : g.Dominates roots a c) (hne : a ≠ c) (hbc : g.Joined b c)
    (hb : g.Reached roots b) : g.Dominates roots a b := by
  refine ⟨hb, fun r hr hlt ns hpath => ?_⟩
  have hmem := h.2 r hr hlt _ (hpath.concat hbc)
  obtain hmem | hmem := List.mem_append.1 hmem
  · exact hmem
  · exact absurd (List.mem_singleton.1 hmem) hne

end Digraph

namespace FlowGraph

open Listing ControlFlow

/-- The edges that do not go up are jumps to blocks that dominate them, so that without them no
walk comes back, and each cycle has a block that dominates all its blocks. -/
structure Reducible (g : FlowGraph) : Prop where
  retreating : ∀ e ∈ g.edges, e.target ≤ e.source →
    e.kind = .jump ∧ g.dominators.dominates e.target e.source = true
  ordered : ∀ a b es, g.Walk a b es → es ≠ [] → (∀ e ∈ es, ¬e.target ≤ e.source) → a < b
  header : ∀ a es, g.Walk a a es → es ≠ [] →
    ∃ e ∈ es, ∀ e' ∈ es, g.dominators.dominates e.source e'.source = true

/-- The edges of a cycle lead from each of its blocks to each. -/
lemma Walk.around {g : FlowGraph} {a : BlockId} {es : List Edge} {d e : Edge}
    (h : g.Walk a a es) (hd : d ∈ es) (he : e ∈ es) :
    ∃ es', g.Walk d.source e.source es' ∧ es' ⊆ es := by
  obtain ⟨pre, post, hdes⟩ := List.append_of_mem hd
  obtain ⟨pre', post', hees⟩ := List.append_of_mem he
  obtain ⟨hmem, -, hout⟩ := (hdes ▸ h).split
  obtain ⟨-, hin, -⟩ := (hees ▸ h).split
  refine ⟨(d :: post) ++ pre', (Walk.cons hmem hout).append hin, List.append_subset.2 ⟨?_, ?_⟩⟩
  · rw [hdes]
    exact List.subset_append_right _ _
  · rw [hees]
    exact List.subset_append_left _ _

/-- Edges that go up lead up by one block at least each. -/
lemma Walk.ascends {g : FlowGraph} {a b : BlockId} {es : List Edge} (h : g.Walk a b es)
    (hup : ∀ e ∈ es, ¬e.target ≤ e.source) : a + es.length ≤ b := by
  induction h with
  | nil => exact le_rfl
  | @cons e b es _ _ ih =>
    have hlt : e.source < e.target := Nat.lt_of_not_le (hup e List.mem_cons_self)
    have hrest := ih fun e' he' => hup e' (List.mem_cons_of_mem _ he')
    calc e.source + (es.length + 1) = e.source + 1 + es.length := by rw [Nat.add_right_comm]; rfl
      _ ≤ e.target + es.length := Nat.add_le_add_right hlt _
      _ ≤ b := hrest

variable {l : Listing} {settings : AnalysisSettings} {a b : Nat}

section

variable (h : l.Coherent) (hs : l.Sectioned)

include h hs

/-- Only jumps go back. -/
lemma kind_of_retreating {e : Edge} (he : e ∈ (drawn l settings).edges)
    (hle : e.target ≤ e.source) : e.kind = .jump := by
  obtain ⟨hlt, he⟩ := (mem_edges h).1 he
  obtain ⟨last, hlast⟩ := h.exists_last hlt
  rw [Listing.exits, hlast, Option.elim_some] at he
  have hnext : e.target ≠ e.source + 1 := (Nat.lt_succ_of_le hle).ne
  cases hact : last.action with
  | jump label =>
    rw [hact] at he
    obtain ⟨c, -, heq⟩ := List.mem_map.1 he
    exact (congrArg Prod.snd heq).symm
  | jumpFalse cond label =>
    obtain ⟨c, hc, hbc, -⟩ := hs.jumpFalse_next h hlast hact
    simp only [hact, hc, Option.toList_some, List.map_cons, List.map_nil, List.mem_cons,
      Prod.mk.injEq, List.not_mem_nil, or_false] at he
    obtain ⟨heq, -⟩ | ⟨heq, -⟩ := he
    · exact absurd heq hnext
    · exact absurd (heq ▸ hle) hbc.not_ge
  | ret value =>
    rw [hact] at he
    cases he
  | _ =>
    simp only [hact] at he
    split at he
    · exact absurd (congrArg Prod.fst (List.mem_singleton.1 he)) hnext
    · cases he

/-- A path that ends in a loop and starts outside goes through the head of the loop. The path is
followed from its start: the first step into the loop is a step from the head. -/
lemma head_mem_path (hh : l.Headed) (hab : l.Flows a b) (hle : b ≤ a) {c : Nat} {ns : List Nat}
    (hpath : (drawn l settings).graph.Path c a ns) (hout : ¬(b < c ∧ c ≤ a)) : b ∈ ns := by
  induction hpath with
  | single c =>
    obtain rfl : b = c := by omega
    exact List.mem_cons_self
  | @cons c a d ns hcd hpath ih =>
    have hcd := (joined_iff h hs settings).1 hcd
    by_cases hin : b < d ∧ d ≤ a
    · obtain ⟨hbc, hca⟩ := hh hab hle hcd hin.1 hin.2
      obtain rfl := Nat.le_antisymm hbc (Nat.le_of_not_lt fun hlt => hout ⟨hlt, hca⟩)
      exact List.mem_cons_self
    · exact List.mem_cons_of_mem _ (ih hab hle hin)

/-- The head of a loop dominates the block that the loop is closed by. -/
lemma retreating_dominates (hh : l.Headed) (hab : l.Flows a b) (hle : b ≤ a) :
    (drawn l settings).graph.Dominates (drawn l settings).entries b a := by
  refine ⟨reached h hs settings (h.flows_source_lt hab), fun r hr _ ns hpath => ?_⟩
  have hentry := (mem_entries hs).1 hr
  have hra := path_section h hs hpath r hpath.left_mem
  refine head_mem_path h hs hh hab hle hpath fun hin => ?_
  -- an entry is the first block of its section, which the loop lies in
  exact hin.1.not_ge ((hs.flows hab hentry).1 ((hra hentry).1 le_rfl))

/-- A block dominates the blocks that lead back to it through larger ones. -/
lemma dominates_of_walk (hh : l.Headed) {c m : BlockId} {es : List Edge}
    (hw : (drawn l settings).Walk c m es) (hm : m < l.blockCount)
    (hmin : ∀ e ∈ es, m ≤ e.source) :
    (drawn l settings).graph.Dominates (drawn l settings).entries m c := by
  induction hw with
  | nil m => exact .refl (reached h hs settings hm)
  | @cons e m es he hw ih =>
    have hf := flows_of_mem_edges h hs he
    have hrest := ih hm fun e' he' => hmin e' (List.mem_cons_of_mem _ he')
    by_cases heq : m = e.target
    · subst heq
      exact retreating_dominates h hs hh hf (hmin e List.mem_cons_self)
    · exact hrest.back heq ((joined_iff h hs settings).2 hf)
        (reached h hs settings (h.flows_source_lt hf))

theorem drawn_reducible (hh : l.Headed) : (drawn l settings).Reducible where
  retreating e he hle := by
    refine ⟨kind_of_retreating h hs he hle, ?_⟩
    rw [dominators, Digraph.dominates_dominators (built h hs settings)]
    exact retreating_dominates h hs hh (flows_of_mem_edges h hs he) hle
  ordered a b es hw hne hup :=
    (Nat.lt_add_of_pos_right (List.length_pos_iff.2 hne)).trans_le (hw.ascends hup)
  header a es hw hne := by
    obtain ⟨e, he, hmin⟩ := es.toFinset.exists_min_image Edge.source
      (List.toFinset_nonempty_iff es |>.2 hne)
    simp only [List.mem_toFinset] at he hmin
    refine ⟨e, he, fun e' he' => ?_⟩
    rw [dominators, Digraph.dominates_dominators (built h hs settings)]
    obtain ⟨es', hw', hsub⟩ := hw.around he' he
    obtain ⟨pre, post, rfl⟩ := List.append_of_mem he
    have hlt := ((mem_edges h).1 hw.split.1).1
    exact dominates_of_walk h hs hh hw' hlt fun d hd => hmin d (hsub hd)

end

end FlowGraph

namespace Listing

variable {l : Listing}

open FlowGraph ControlFlow in
/-- **Reducibility**: every listing that has instructions has a control-flow graph, and this graph
is reducible. -/
theorem Reachable.reducible (h : l.Reachable) (hne : l.stream ≠ []) (settings : AnalysisSettings) :
    ∃ g, FlowGraph.ofListing l settings = .ok g ∧ g.listing = l ∧ g.Reducible :=
  ⟨drawn l settings, ofListing_eq h.coherent h.sectioned hne settings, rfl,
    drawn_reducible h.coherent h.sectioned h.headed⟩

/-- The loop of the second function: block 5 jumps back to block 4, which dominates it. -/
theorem Reachable.reducible_parity : ∃ l g, Listing.ofProgram parityProgram = .ok l ∧
    FlowGraph.ofListing (ValueNumbering.run .standard l).1 .standard = .ok g ∧ g.Reducible ∧
    ∃ e ∈ g.edges, e.source = 5 ∧ e.target = 4 ∧ g.dominators.dominates 4 5 = true := by
  have hok : ((Listing.ofProgram parityProgram).toOption.map fun l =>
      ((ValueNumbering.run .standard l).1.stream.isEmpty,
        (FlowGraph.ofListing (ValueNumbering.run .standard l).1 .standard).toOption.map
          (·.edges.contains ⟨5, 4, .jump⟩))) = some (false, some true) := by
    decide +kernel
  obtain ⟨l, hl, hok⟩ := toOption_map_eq_some.1 hok
  simp only [Prod.mk.injEq] at hok
  obtain ⟨hne, hedge⟩ := hok
  have hne : (ValueNumbering.run .standard l).1.stream ≠ [] := by simpa using hne
  obtain ⟨g, hg, -, hreducible⟩ :=
    Reachable.reducible (.numbered .standard (.lowered hl)) hne .standard
  rw [hg, Except.toOption, Option.map_some, Option.some.injEq, List.contains_iff_mem] at hedge
  exact ⟨l, g, hl, hg, hreducible, _, hedge, rfl, rfl,
    (hreducible.retreating _ hedge (by decide)).2⟩

end Listing

end ThreeAddress
