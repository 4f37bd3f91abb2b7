import ThreeAddress.ControlFlow.Graph
import ThreeAddress.Proofs.ControlFlow.Blocks
import ThreeAddress.Proofs.Digraph.Paths

/-!
The edges of the control-flow graph. A listing with sections has a graph as soon as it has
instructions: every branch finds its block, and a conditional jump always has a next block. The
edges are those along which control flows.
-/

namespace ThreeAddress

open ControlFlow

namespace Listing

variable {l : Listing} {b c : Nat} {last : Instr}

/-- Where control goes after a block, and why. -/
def exits (l : Listing) (b : BlockId) : List (BlockId × EdgeKind) :=
  (l.stamped b).getLast?.elim [] fun last =>
    match last.action with
    | .jump label => (l.labelBlock? label).toList.map (·, .jump)
    | .jumpFalse _ label => (b + 1, .onTrue) :: (l.labelBlock? label).toList.map (·, .onFalse)
    | .ret _ => []
    | _ => if b + 1 < l.blockCount then [(b + 1, .fallthrough)] else []

lemma Coherent.exists_last (h : l.Coherent) (hb : b < l.blockCount) :
    ∃ last, (l.stamped b).getLast? = some last := by
  cases hlast : (l.stamped b).getLast? with
  | none => exact absurd (List.getLast?_eq_none_iff.1 hlast) (h.stamped_ne_nil hb)
  | some last => exact ⟨last, rfl⟩

lemma Coherent.last_stamped (h : l.Coherent) (hlast : (l.stamped b).getLast? = some last) :
    (∃ i, l.instr? i = some last) ∧ last.block = b :=
  h.mem_stamped.1 (List.mem_of_getLast? hlast)

lemma Coherent.labelBlock?_lt (h : l.Coherent) {label : LabelId}
    (hc : l.labelBlock? label = some c) : c < l.blockCount :=
  h.bears_iff_lt.1 (labelBlock?_bears hc)

/-- A path that ends in a block ends with its last instruction. -/
lemma Coherent.endsPath_eq (h : l.Coherent) (hlast : (l.stamped b).getLast? = some last)
    (hpath : last.action.operator.endsPath = false) {i : InstrId} {x : Instr}
    (hx : l.instr? i = some x) (hxb : x.block = b) : x.action.operator.endsPath = false := by
  by_contra hends
  have hends : x.action.operator.endsPath = true := by simpa using hends
  have hblock : x.action.operator.endsBlock = true := by
    cases hact : x.action <;> simp_all [Action.operator, Operator.endsBlock, Operator.endsPath]
  have hmem : x ∈ l.stamped b := h.mem_stamped.2 ⟨⟨i, hx⟩, hxb⟩
  obtain rfl : x = last := Option.some.inj ((h.getLast?_stamped hmem hblock).symm.trans hlast)
  rw [hpath] at hends
  cases hends

lemma Coherent.flows_lt (h : l.Coherent) (hf : l.Flows b c) : c < l.blockCount := by
  cases hf with
  | fall hnext _ => exact h.bears_iff_lt.1 hnext
  | branch _ _ hc => exact h.labelBlock?_lt hc

lemma Coherent.flows_source_lt (h : l.Coherent) (hf : l.Flows b c) : b < l.blockCount := by
  cases hf with
  | fall hnext _ => exact Nat.lt_of_succ_lt (h.bears_iff_lt.1 hnext)
  | branch hx _ _ => exact h.bears_iff_lt.1 ⟨_, _, hx, rfl⟩

/-- Where control flows is up to the last instruction. -/
lemma Coherent.flows_iff (h : l.Coherent) (hlast : (l.stamped b).getLast? = some last) :
    l.Flows b c ↔ (c = b + 1 ∧ b + 1 < l.blockCount ∧ last.action.operator.endsPath = false) ∨
      ∃ label, last.action.branchTarget = some label ∧ l.labelBlock? label = some c := by
  obtain ⟨⟨i, hi⟩, hblock⟩ := h.last_stamped hlast
  constructor
  · rintro (⟨hnext, hpath⟩ | ⟨hx, ht, hc⟩)
    · exact .inl ⟨rfl, h.bears_iff_lt.1 hnext, hpath hi hblock⟩
    · rename_i j x label
      have hends : x.action.operator.endsBlock = true := by
        cases hact : x.action <;>
          simp_all [Action.branchTarget, Action.operator, Operator.endsBlock]
      have hmem := h.mem_stamped.2 ⟨⟨j, hx⟩, rfl⟩
      obtain rfl : x = last := Option.some.inj ((h.getLast?_stamped hmem hends).symm.trans hlast)
      exact .inr ⟨label, ht, hc⟩
  · rintro (⟨rfl, hnext, hpath⟩ | ⟨label, ht, hc⟩)
    · exact .fall (h.bears_iff_lt.2 hnext) fun hx hxb => h.endsPath_eq hlast hpath hx hxb
    · exact hblock ▸ .branch hi ht hc

section

variable (h : l.Coherent) (hs : l.Sectioned)

include h hs

/-- The next block exists after a conditional jump. -/
lemma Sectioned.jumpFalse_next {cond : Operand} {label : LabelId}
    (hlast : (l.stamped b).getLast? = some last) (hact : last.action = .jumpFalse cond label) :
    ∃ c, l.labelBlock? label = some c ∧ b < c ∧ b + 1 < l.blockCount := by
  obtain ⟨⟨i, hi⟩, hblock⟩ := h.last_stamped hlast
  have ht : last.action.branchTarget = some label := by rw [hact]; rfl
  obtain ⟨-, c, hc, -⟩ := hs.branch hi ht
  have hlt : b < c := hblock ▸ hs.later hi hact hc
  exact ⟨c, hc, hlt, (Nat.succ_le_of_lt hlt).trans_lt (h.labelBlock?_lt hc)⟩

lemma Sectioned.jump_target {label : LabelId} (hlast : (l.stamped b).getLast? = some last)
    (hact : last.action = .jump label) : ∃ c, l.labelBlock? label = some c := by
  obtain ⟨⟨i, hi⟩, -⟩ := h.last_stamped hlast
  have ht : last.action.branchTarget = some label := by rw [hact]; rfl
  obtain ⟨-, c, hc, -⟩ := hs.branch hi ht
  exact ⟨c, hc⟩

lemma Sectioned.exitsOf_ok (hlast : (l.stamped b).getLast? = some last) :
    exitsOf l l.blockCount b last = .ok (l.exits b) := by
  unfold exitsOf exits
  rw [hlast, Option.elim_some]
  cases hact : last.action with
  | jump label =>
    obtain ⟨c, hc⟩ := hs.jump_target h hlast hact
    simp [branchBlock, hc, Pure.pure, Except.pure, Bind.bind, Except.bind]
  | jumpFalse cond label =>
    obtain ⟨c, hc, -, hnext⟩ := hs.jumpFalse_next h hlast hact
    simp [branchBlock, hc, hnext, Pure.pure, Except.pure, Bind.bind, Except.bind]
  | _ => rfl

/-- Control goes along the exits. -/
lemma Sectioned.exits_flows (hb : b < l.blockCount) :
    (∃ kind, (c, kind) ∈ l.exits b) ↔ l.Flows b c := by
  obtain ⟨last, hlast⟩ := h.exists_last hb
  rw [h.flows_iff hlast, exits, hlast, Option.elim_some]
  cases hact : last.action with
  | jump label => simp [Action.operator, Operator.endsPath, Action.branchTarget, eq_comm]
  | jumpFalse cond label =>
    obtain ⟨-, -, -, hnext⟩ := hs.jumpFalse_next h hlast hact
    simp [Action.operator, Operator.endsPath, Action.branchTarget, hnext, eq_comm, exists_or]
  | ret value => simp [Action.operator, Operator.endsPath, Action.branchTarget]
  | _ =>
    by_cases hnext : b + 1 < l.blockCount <;>
      simp [Action.operator, Operator.endsPath, Action.branchTarget, hnext]

lemma Sectioned.exits_lt (hb : b < l.blockCount) {e : BlockId × EdgeKind} (he : e ∈ l.exits b) :
    e.1 < l.blockCount :=
  h.flows_lt ((hs.exits_flows h hb).1 ⟨e.2, he⟩)

end

end Listing

namespace Digraph

variable {α β : Type}

/-- A graph whose edges join its nodes can be built. -/
lemma built_of_lt {nodes : Array α} {edges : Array (Edge β)}
    (h : ∀ e ∈ edges, e.source < nodes.size ∧ e.target < nodes.size) :
    (⟨nodes, edges⟩ : Digraph α β).Built := by
  obtain ⟨edges⟩ := edges
  induction edges using List.reverseRecOn with
  | nil =>
    obtain ⟨nodes⟩ := nodes
    clear h
    induction nodes using List.reverseRecOn with
    | nil => exact .empty
    | append_singleton nodes a ih => simpa [addNode] using ih.addNode a
  | append_singleton edges e ih =>
    obtain ⟨hs, ht⟩ := h e (by simp)
    have hrest := ih fun e' he' => h e' (by simpa using .inl (by simpa using he'))
    have hadd : (⟨nodes, edges.toArray⟩ : Digraph α β).addEdge e.source e.target e.data =
        .ok ⟨nodes, (edges ++ [e]).toArray⟩ := by
      simp [addEdge, nodeCount, hs.not_ge, ht.not_ge, Pure.pure, Except.pure]
    exact hrest.addEdge hadd

end Digraph

namespace FlowGraph

open Listing

variable {l : Listing} {b c : Nat}

/-- The edges that leave a block, as the graph stores them. -/
def edgesFrom (l : Listing) (b : BlockId) : List (Digraph.Edge EdgeKind) :=
  (l.exits b).map fun e => ⟨b, e.1, e.2⟩

/-- The graph that a listing with sections has. -/
def drawn (l : Listing) (settings : AnalysisSettings) : FlowGraph where
  listing := l
  blocks := l.blocks.toArray
  graph :=
    ⟨Array.replicate l.blockCount (), ((List.range l.blockCount).flatMap (edgesFrom l)).toArray⟩
  entries := entriesOf l
  settings := settings

lemma foldlM_addEdge {exits : List (BlockId × EdgeKind)} {g : Digraph Unit EdgeKind}
    (hb : b < g.nodeCount) (ht : ∀ e ∈ exits, e.1 < g.nodeCount) :
    exits.foldlM (fun g (target, kind) => (g.addEdge b target kind).mapError fun m =>
        Diagnostic.graph (.missingNode m)) g =
      .ok { g with edges := g.edges ++ (exits.map fun e => ⟨b, e.1, e.2⟩).toArray } := by
  induction exits generalizing g with
  | nil => simp [Pure.pure, Except.pure]
  | cons e rest ih =>
    obtain ⟨target, kind⟩ := e
    have hlt : target < g.nodeCount := ht _ List.mem_cons_self
    have hadd : g.addEdge b target kind =
        .ok { g with edges := g.edges.push ⟨b, target, kind⟩ } := by
      simp [Digraph.addEdge, hb.not_ge, hlt.not_ge, Pure.pure, Except.pure]
    have hrest := ih (g := { g with edges := g.edges.push ⟨b, target, kind⟩ }) hb
      fun e he => ht e (List.mem_cons_of_mem _ he)
    simp only [List.foldlM_cons, hadd, Except.mapError, Bind.bind, Except.bind] at hrest ⊢
    rw [hrest]
    simp

section

variable (h : l.Coherent) (hs : l.Sectioned)

include h hs

lemma addExits_ok {g : Digraph Unit EdgeKind} (hg : g.nodeCount = l.blockCount)
    (hb : b < l.blockCount) :
    addExits l l.blockCount g (Block.ofInstrs l (l.stamped b)) =
      .ok { g with edges := g.edges ++ (edgesFrom l b).toArray } := by
  obtain ⟨last, hlast⟩ := h.exists_last hb
  unfold addExits
  rw [h.last_ofInstrs, hlast]
  simp only [h.ofInstrs_id hb, hs.exitsOf_ok h hlast]
  refine foldlM_addEdge (hg ▸ hb) fun e he => ?_
  rw [hg]
  exact hs.exits_lt h hb he

lemma foldlM_addExits {n : Nat} (hn : n ≤ l.blockCount) :
    ((List.range n).map fun b => Block.ofInstrs l (l.stamped b)).foldlM (addExits l l.blockCount)
        ⟨Array.replicate l.blockCount (), #[]⟩ =
      .ok ⟨Array.replicate l.blockCount (), ((List.range n).flatMap (edgesFrom l)).toArray⟩ := by
  induction n with
  | zero => rfl
  | succ n ih =>
    rw [List.range_succ, List.map_append, List.foldlM_append, ih (Nat.le_of_succ_le hn)]
    simp only [List.map_cons, List.map_nil, List.foldlM_cons, List.foldlM_nil, Bind.bind,
      Except.bind]
    rw [addExits_ok h hs (by simp [Digraph.nodeCount]) hn]
    simp [Pure.pure, Except.pure]

/-- A listing with instructions has its graph. -/
theorem ofListing_eq (hne : l.stream ≠ []) (settings : AnalysisSettings) :
    ofListing l settings = .ok (drawn l settings) := by
  have hpos : l.blockCount ≠ 0 := by
    rw [h.blockCount_eq hne, Nat.add_comm]
    exact Nat.succ_ne_zero _
  have hblocks : l.blocks.isEmpty = false := by
    rw [← Bool.not_eq_true, List.isEmpty_iff, ← List.length_eq_zero_iff, h.length_blocks]
    exact hpos
  unfold ofListing
  simp only [hblocks, Bool.false_eq_true, if_false, h.length_blocks]
  conv_lhs => rw [h.blocks_eq]
  rw [foldlM_addExits h hs le_rfl, ← h.blocks_eq]
  rfl

end

/-- Without instructions there is no graph. -/
lemma ofListing_of_nil (hnil : l.stream = []) (settings : AnalysisSettings) :
    ofListing l settings = .error .emptyUnit := by
  have hblocks : l.blocks = [] := by simp [Listing.blocks, instrs, hnil]
  unfold ofListing
  simp [hblocks, Bind.bind, Except.bind, throw, throwThe, MonadExceptOf.throw]

lemma ofListing_error (h : l.Coherent) (hs : l.Sectioned) (settings : AnalysisSettings)
    (e : Diagnostic) :
    ofListing l settings = .error e ↔ e = .emptyUnit ∧ l.stream = [] := by
  by_cases hnil : l.stream = []
  · rw [ofListing_of_nil hnil]
    simp [hnil, eq_comm]
  · rw [ofListing_eq h hs hnil]
    simp [hnil]

lemma ofListing_ok (h : l.Coherent) (hs : l.Sectioned) {settings : AnalysisSettings}
    {g : FlowGraph} (hg : ofListing l settings = .ok g) : g = drawn l settings ∧ l.stream ≠ [] := by
  by_cases hnil : l.stream = []
  · rw [ofListing_of_nil hnil] at hg
    cases hg
  · rw [ofListing_eq h hs hnil] at hg
    exact ⟨(Except.ok.inj hg).symm, hnil⟩

/-! ### Reading the graph -/

lemma filter_flatMap_range {n : Nat} {f : Nat → List (Digraph.Edge EdgeKind)}
    (hf : ∀ k, ∀ e ∈ f k, e.source = k) :
    ((List.range n).flatMap f).filter (·.source == b) = if b < n then f b else [] := by
  induction n with
  | zero => rfl
  | succ n ih =>
    rw [List.range_succ, List.flatMap_append, List.flatMap_singleton, List.filter_append, ih]
    obtain hlt | rfl | hgt := Nat.lt_trichotomy b n
    · have hnone : (f n).filter (·.source == b) = [] := by
        refine List.filter_eq_nil_iff.2 fun e he => ?_
        simpa [hf n e he] using hlt.ne'
      rw [hnone, List.append_nil, if_pos hlt, if_pos (hlt.trans (Nat.lt_succ_self n))]
    · have hall : (f b).filter (·.source == b) = f b :=
        List.filter_eq_self.2 fun e he => by simp [hf b e he]
      rw [hall, if_neg (lt_irrefl b), if_pos (Nat.lt_succ_self b), List.nil_append]
    · have hnone : (f n).filter (·.source == b) = [] := by
        refine List.filter_eq_nil_iff.2 fun e he => ?_
        simpa [hf n e he] using hgt.ne
      rw [hnone, if_neg hgt.not_gt, if_neg (by omega), List.append_nil]

lemma graph_outgoing (settings : AnalysisSettings) (b : BlockId) :
    (drawn l settings).graph.outgoing b = if b < l.blockCount then edgesFrom l b else [] := by
  refine filter_flatMap_range fun k e he => ?_
  obtain ⟨exit, -, rfl⟩ := List.mem_map.1 he
  rfl

lemma outgoing_eq (settings : AnalysisSettings) (hb : b < l.blockCount) :
    (drawn l settings).outgoing b = (l.exits b).map fun e => ⟨b, e.1, e.2⟩ := by
  rw [outgoing, graph_outgoing, if_pos hb, edgesFrom, List.map_map]
  rfl

lemma blockCount_drawn (h : l.Coherent) (settings : AnalysisSettings) :
    (drawn l settings).blockCount = l.blockCount := by
  simp [drawn, blockCount, h.length_blocks]

lemma nodeCount_drawn (l : Listing) (settings : AnalysisSettings) :
    (drawn l settings).graph.nodeCount = l.blockCount := by
  simp [drawn, Digraph.nodeCount]

/-- The edges are the ways that control takes. -/
lemma joined_iff (h : l.Coherent) (hs : l.Sectioned) (settings : AnalysisSettings) :
    (drawn l settings).graph.Joined b c ↔ l.Flows b c := by
  rw [← Digraph.mem_succ, Digraph.succ, graph_outgoing]
  by_cases hb : b < l.blockCount
  · rw [if_pos hb, ← hs.exits_flows h hb]
    simp [edgesFrom]
  · rw [if_neg hb]
    simpa using fun hf => hb (h.flows_source_lt hf)

lemma built (h : l.Coherent) (hs : l.Sectioned) (settings : AnalysisSettings) :
    (drawn l settings).graph.Built := by
  refine Digraph.built_of_lt fun e he => ?_
  have hjoined : (drawn l settings).graph.Joined e.source e.target := ⟨e, he, rfl, rfl⟩
  have hf := (joined_iff h hs settings).1 hjoined
  simpa using ⟨h.flows_source_lt hf, h.flows_lt hf⟩

/-- The edges that leave a block which ends with an action. -/
def Leaves (g : FlowGraph) (b : BlockId) : Action → Prop
  | .jump label => ∃ c, g.listing.labelBlock? label = some c ∧ g.outgoing b = [⟨b, c, .jump⟩]
  | .jumpFalse _ label => ∃ c, g.listing.labelBlock? label = some c ∧ b < c ∧
    b + 1 < g.blockCount ∧ g.outgoing b = [⟨b, b + 1, .onTrue⟩, ⟨b, c, .onFalse⟩]
  | .ret _ => g.outgoing b = []
  | _ => g.outgoing b = if b + 1 < g.blockCount then [⟨b, b + 1, .fallthrough⟩] else []

lemma leaves (h : l.Coherent) (hs : l.Sectioned) (settings : AnalysisSettings) {last : Instr}
    (hlast : (l.stamped b).getLast? = some last) : (drawn l settings).Leaves b last.action := by
  have hb : b < l.blockCount :=
    h.bears_iff_lt.1 (h.bears_iff.2 (List.ne_nil_of_mem (List.mem_of_getLast? hlast)))
  have hout := outgoing_eq settings hb
  rw [Listing.exits, hlast, Option.elim_some] at hout
  unfold Leaves
  rw [hout, blockCount_drawn h]
  cases hact : last.action with
  | jump label =>
    obtain ⟨c, hc⟩ := hs.jump_target h hlast hact
    exact ⟨c, hc, by simp [hc]⟩
  | jumpFalse cond label =>
    obtain ⟨c, hc, hlt, hnext⟩ := hs.jumpFalse_next h hlast hact
    exact ⟨c, hc, hlt, hnext, by simp [hc]⟩
  | ret value => rfl
  | _ =>
    by_cases hnext : b + 1 < l.blockCount <;> simp [hnext]

end FlowGraph

/-! ### Listings and their blocks -/

open Machine in
/-- Instructions and their stamps, blocks and labels fit together. -/
structure Listing.Partitioned (l : Listing) : Prop where
  ids : ∀ i x, l.instr? i = some x → x.id = i
  stream : l.stream.Perm (List.range l.arena.size)
  first : ∀ x, instrAt? l 0 = some x → x.block = 0
  stamps : ∀ pc x y, instrAt? l pc = some x → instrAt? l (pc + 1) = some y →
    (y.block = x.block ∨ y.block = x.block + 1) ∧
      (y.block = x.block + 1 ↔ (∃ label, y.action = .label label) ∨
        (∃ label, x.action = .jump label) ∨ (∃ cond label, x.action = .jumpFalse cond label) ∨
        ∃ value, x.action = .ret value)
  blockCount : l.stream ≠ [] → l.blockCount = 1 + (List.range l.length).countP l.isBoundary
  blocks : l.blocks.length = l.blockCount ∧
    ∀ (k : Nat) (block : Block), l.blocks[k]? = some block → block.id = k ∧ block.instrs ≠ []
  flatten : l.blocks.flatMap (·.instrs) = l.stream
  sites : ∀ label i, (∃ x, l.instr? i = some x ∧ x.action = .label label) ↔
    ∃ info, l.labels.get? label = some info ∧ info.site = some i
  targets : ∀ i x label, l.instr? i = some x → x.action.branchTarget = some label →
    ∃ info site, l.labels.get? label = some info ∧ info.site = some site

namespace Listing

variable {l : Listing}

/-- A block ends before a label and after a branch or a return. -/
lemma cuts_iff {x y : Instr} : x.cuts y = true ↔ (∃ label, y.action = .label label) ∨
    (∃ label, x.action = .jump label) ∨ (∃ cond label, x.action = .jumpFalse cond label) ∨
    ∃ value, x.action = .ret value := by
  rw [Instr.cuts, Bool.or_eq_true, or_comm]
  refine or_congr ?_ ?_
  · cases y.action <;> simp [Action.definedLabel]
  · cases x.action <;> simp [Action.operator, Operator.endsBlock]

lemma Coherent.blocks_partitioned (h : l.Coherent) (hs : l.Sectioned) : l.Partitioned where
  ids _ _ hx := h.ids hx
  stream := h.stream
  first x hx := by
    rw [← h.getElem?_instrs, ← List.head?_eq_getElem?] at hx
    exact h.first x hx
  stamps pc x y hx hy := by
    obtain ⟨i, hi, hx⟩ := Option.bind_eq_some_iff.1 hx
    obtain ⟨j, hj, hy⟩ := Option.bind_eq_some_iff.1 hy
    have hfollows := h.follows hi hj hx hy
    rw [Instr.Follows] at hfollows
    rw [← cuts_iff, hfollows]
    cases x.cuts y <;> simp
  blockCount hne := h.blockCount_eq hne
  blocks := by
    refine ⟨h.length_blocks, fun k block hk => ?_⟩
    obtain ⟨hlt, rfl⟩ := h.eq_of_getElem?_blocks hk
    exact ⟨h.ofInstrs_id hlt, by simpa [Block.ofInstrs] using h.stamped_ne_nil hlt⟩
  flatten := h.flatMap_blocks
  sites label i :=
    ⟨fun ⟨_, hx, hact⟩ => hs.label hx hact, fun ⟨_, hinfo, hsite⟩ => h.sites hinfo hsite⟩
  targets i x label hx ht := by
    obtain ⟨-, b, hb, -⟩ := hs.branch hx ht
    obtain ⟨info, site, -, hinfo, hsite, -⟩ := labelBlock?_eq_some.1 hb
    exact ⟨info, site, hinfo, hsite⟩

open FlowGraph in
/-- **The blocks partition the stream.** They are well formed, and a listing has a control-flow
graph as soon as it has an instruction. The last instruction of a block tells the edges that leave
it. -/
theorem Reachable.partitioned (h : l.Reachable) : l.Partitioned ∧
    ∀ settings, (∀ e, ofListing l settings = .error e ↔ e = .emptyUnit ∧ l.stream = []) ∧
      ∀ g, ofListing l settings = .ok g → g.blockCount = l.blockCount ∧ g.listing = l ∧
        ∀ block ∈ l.blocks, ∀ i x, block.last? = some i → l.instr? i = some x →
          g.Leaves block.id x.action := by
  have hc := h.coherent
  have hs := h.sectioned
  refine ⟨hc.blocks_partitioned hs, fun settings =>
    ⟨ofListing_error hc hs settings, fun g hg => ?_⟩⟩
  obtain ⟨rfl, -⟩ := ofListing_ok hc hs hg
  refine ⟨blockCount_drawn hc settings, rfl, fun block hblock i x hi hx => ?_⟩
  obtain ⟨k, hk, rfl⟩ := List.mem_map.1 (hc.blocks_eq ▸ hblock)
  have hlast := hc.last_ofInstrs k
  rw [hi, Option.bind_some, hx] at hlast
  rw [hc.ofInstrs_id (List.mem_range.1 hk)]
  exact leaves hc hs settings hlast.symm

/-- A loop with a call in its body, after value numbering. -/
theorem Reachable.partitioned_fill : ∃ l, Listing.ofProgram fillProgram = .ok l ∧
    (ValueNumbering.run .standard l).1.Partitioned ∧
    ∃ g, FlowGraph.ofListing (ValueNumbering.run .standard l).1 .standard = .ok g := by
  have hok : ((Listing.ofProgram fillProgram).toOption.map fun l =>
      (ValueNumbering.run .standard l).1.stream.isEmpty) = some false := by decide +kernel
  obtain ⟨l, hl, hok⟩ := toOption_map_eq_some.1 hok
  obtain ⟨hpart, hgraph⟩ := Reachable.partitioned (.numbered .standard (.lowered hl))
  refine ⟨l, hl, hpart, ?_⟩
  cases hg : FlowGraph.ofListing (ValueNumbering.run .standard l).1 .standard with
  | error e =>
    obtain ⟨-, hnil⟩ := ((hgraph .standard).1 e).1 hg
    simp [hnil] at hok
  | ok g => exact ⟨g, rfl⟩

end Listing

end ThreeAddress
