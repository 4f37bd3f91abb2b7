import Mathlib
import ThreeAddress.Digraph.Basic

/-!
Paths of a graph. A graph that is built up by adding nodes and edges has no edge to a missing
node, so that a path which starts at a node of the graph stays inside.
-/

namespace ThreeAddress.Digraph

variable {α β : Type} {g : Digraph α β} {a b : Nat}

/-- The graphs that come about by adding nodes and edges. -/
inductive Built : Digraph α β → Prop
  | empty : Built empty
  | addNode {g : Digraph α β} (data : α) : Built g → Built (g.addNode data)
  | addEdge {g g' : Digraph α β} {source target : Nat} {data : β} : Built g →
    g.addEdge source target data = .ok g' → Built g'

/-- Some edge leads from `a` to `b`. -/
def Joined (g : Digraph α β) (a b : Nat) : Prop := ∃ e ∈ g.edges, e.source = a ∧ e.target = b

lemma mem_succ : b ∈ g.succ a ↔ g.Joined a b := by
  simp [succ, outgoing, Joined, and_assoc]

lemma mem_pred : a ∈ g.pred b ↔ g.Joined a b := by
  simp [pred, incoming, Joined, and_assoc, and_comm]

lemma addEdge_ok {g' : Digraph α β} {data : β} (h : g.addEdge a b data = .ok g') :
    a < g.nodeCount ∧ b < g.nodeCount ∧ g' = { g with edges := g.edges.push ⟨a, b, data⟩ } := by
  unfold addEdge at h
  split at h
  · cases h
  · split at h
    · cases h
    · rename_i ha hb
      cases h
      exact ⟨not_le.1 ha, not_le.1 hb, rfl⟩

lemma Built.lt (h : g.Built) (hab : g.Joined a b) : a < g.nodeCount ∧ b < g.nodeCount := by
  induction h generalizing a b with
  | empty =>
    obtain ⟨e, he, -⟩ := hab
    simp [Digraph.empty] at he
  | @addNode g data _ ih =>
    obtain ⟨ha, hb⟩ := ih hab
    have hsize : (Digraph.addNode g data).nodeCount = g.nodeCount + 1 := Array.size_push data
    omega
  | addEdge _ hadd ih =>
    obtain ⟨hs, ht, rfl⟩ := addEdge_ok hadd
    obtain ⟨e, he, rfl, rfl⟩ := hab
    obtain he | rfl := Array.mem_push.1 he
    · exact ih ⟨e, he, rfl, rfl⟩
    · exact ⟨hs, ht⟩

lemma Built.addEdges (h : g.Built) (es : List (Nat × Nat)) (data : β) :
    (g.addEdges es data).1.Built := by
  fun_induction g.addEdges es data with
  | case1 => exact h
  | case2 _ _ _ _ _ _ hadd ih => exact ih (h.addEdge hadd)
  | case3 => exact h

/-- A path from `a` to `b`, given by its nodes. -/
inductive Path (g : Digraph α β) : Nat → Nat → List Nat → Prop
  | single (a : Nat) : Path g a a [a]
  | cons {a b c : Nat} {ns : List Nat} : g.Joined a c → Path g c b ns → Path g a b (a :: ns)

lemma Path.lt (hg : g.Built) {ns : List Nat} (h : g.Path a b ns) (ha : a < g.nodeCount) :
    ∀ n ∈ ns, n < g.nodeCount := by
  induction h with
  | single _ => simpa using ha
  | cons hac _ ih => simpa [ha] using ih (hg.lt hac).2

lemma Path.right_mem {ns : List Nat} (h : g.Path a b ns) : b ∈ ns := by
  induction h with
  | single _ => simp
  | cons _ _ ih => simp [ih]

end ThreeAddress.Digraph
