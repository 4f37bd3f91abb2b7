import ThreeAddress.Proofs.ControlFlow.Execution

/-!
The instructions along a walk. A walk from block to block passes all instructions of the blocks
that it leaves, and comes to the top of the block where it ends.
-/

namespace ThreeAddress

/-- Instructions are found by their numbers. -/
lemma Listing.Coherent.filterMap_ids {l : Listing} (h : l.Coherent) {xs : List Instr}
    (hxs : ∀ x ∈ xs, ∃ i, l.instr? i = some x) : (xs.map (·.id)).filterMap l.instr? = xs := by
  have hid : ∀ x ∈ xs, (l.instr? ∘ Instr.id) x = some x := fun x hx => by
    obtain ⟨i, hi⟩ := hxs x hx
    rw [Function.comp_apply, h.ids hi, hi]
  rw [List.filterMap_map, List.filterMap_congr hid, List.filterMap_some]

/-- A block lists the instructions with its stamp. -/
lemma Listing.Coherent.filterMap_ofInstrs {l : Listing} (h : l.Coherent) (b : BlockId) :
    (Block.ofInstrs l (l.stamped b)).instrs.filterMap l.instr? = l.stamped b :=
  h.filterMap_ids fun _ hx => (h.mem_stamped.1 hx).1

namespace FlowGraph

open Listing ControlFlow

variable {g : FlowGraph} {a b : BlockId} {es es' : List Edge} {e : Edge}

/-- The instructions of a block, in order. -/
def code (g : FlowGraph) (b : BlockId) : List Instr :=
  g.blocks[b]?.elim [] fun block => block.instrs.filterMap g.listing.instr?

/-- The instructions that a walk has passed when it comes to the top of its last block. -/
def passed (g : FlowGraph) (es : List Edge) : List Instr := es.flatMap fun e => g.code e.source

@[simp] lemma passed_nil (g : FlowGraph) : g.passed [] = [] := rfl

@[simp] lemma passed_cons (g : FlowGraph) (e : Edge) (es : List Edge) :
    g.passed (e :: es) = g.code e.source ++ g.passed es := rfl

lemma passed_concat (g : FlowGraph) (es : List Edge) (e : Edge) :
    g.passed (es ++ [e]) = g.passed es ++ g.code e.source := by
  simp [passed]

lemma Walk.split (h : g.Walk a b (es ++ e :: es')) :
    e ∈ g.edges ∧ g.Walk a e.source es ∧ g.Walk e.target b es' := by
  induction es generalizing a with
  | nil =>
    cases h with
    | cons he hw => exact ⟨he, .nil _, hw⟩
  | cons d es ih =>
    cases h with
    | cons hd hw =>
      obtain ⟨he, hw₁, hw₂⟩ := ih hw
      exact ⟨he, .cons hd hw₁, hw₂⟩

lemma Walk.eq_of_nil (h : g.Walk a b []) : a = b := by
  cases h
  rfl

/-- The last edge of a walk. -/
lemma Walk.last (h : g.Walk a b (es ++ [e])) :
    e ∈ g.edges ∧ g.Walk a e.source es ∧ e.target = b := by
  obtain ⟨he, hw, hend⟩ := h.split
  exact ⟨he, hw, hend.eq_of_nil⟩

lemma Walk.concat (h : g.Walk a e.source es) (he : e ∈ g.edges) :
    g.Walk a e.target (es ++ [e]) :=
  h.append (.cons he (.nil _))

variable {l : Listing} {settings : AnalysisSettings}

section

variable (h : l.Coherent)

include h

lemma code_drawn (b : BlockId) : (drawn l settings).code b = l.stamped b := by
  show l.blocks.toArray[b]?.elim [] (fun block => block.instrs.filterMap l.instr?) = _
  rw [List.getElem?_toArray]
  by_cases hb : b < l.blockCount
  · rw [h.getElem?_blocks hb, Option.elim_some, h.filterMap_ofInstrs]
  · have hnone : l.blocks[b]? = none :=
      List.getElem?_eq_none (by rw [h.length_blocks]; exact Nat.le_of_not_lt hb)
    have hnil : l.stamped b = [] := by
      by_contra hne
      exact hb (h.bears_iff_lt.1 (h.bears_iff.2 hne))
    rw [hnone, hnil]
    rfl

variable (hs : l.Sectioned)

include hs

lemma flows_of_mem_edges (he : e ∈ (drawn l settings).edges) : l.Flows e.source e.target := by
  obtain ⟨hlt, he⟩ := (mem_edges h).1 he
  exact (hs.exits_flows h hlt).1 ⟨e.kind, he⟩

/-- Control flows along some edge. -/
lemma exists_edge (settings : AnalysisSettings) (hf : l.Flows a b) :
    ∃ e ∈ (drawn l settings).edges, e.source = a ∧ e.target = b := by
  have hlt := h.flows_source_lt hf
  obtain ⟨kind, hexit⟩ := (hs.exits_flows h hlt).2 hf
  exact ⟨⟨a, b, kind⟩, (mem_edges h).2 ⟨hlt, hexit⟩, rfl, rfl⟩

end

end FlowGraph

end ThreeAddress
