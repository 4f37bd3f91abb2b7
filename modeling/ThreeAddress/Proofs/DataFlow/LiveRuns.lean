import ThreeAddress.Proofs.DataFlow.Analyses
import ThreeAddress.Proofs.DataFlow.Lockstep

/-!
Liveness is sound for runs: a run depends on no variable but the live ones.

The summary of a block tells what its instructions need one after the other, so the equations of
liveness say that the sets found are closed under the flow of control. Two runs that start at a
block with the same live variables go in lockstep from there.
-/

namespace ThreeAddress

open Machine DataFlow ControlFlow

/-! ### Blocks and what they need -/

namespace Listing

variable {l : Listing} {wanted : VarId → Prop} {v : VarId}

/-- The walk through a block collects what its instructions need. -/
lemma foldl_summary {n : Nat} (hv : v < n) (wanted : VarId → Prop) (instrs : List Instr)
    {s : Block.Summary} (hd : s.defs.Over n) (he : s.exposed.Over n) :
    ((instrs.foldl (Block.Summary.step l) s).exposed.contains v = true ∨
        wanted v ∧ (instrs.foldl (Block.Summary.step l) s).defs.contains v = false) ↔
      s.exposed.contains v = true ∨ s.defs.contains v = false ∧ l.Needs wanted instrs v := by
  induction instrs generalizing s with
  | nil => exact or_congr Iff.rfl and_comm
  | cons x rest ih =>
    obtain ⟨hd', he'⟩ := summary_step_over (l := l) hd he x
    have hexposed : (s.step l x).exposed.contains v = true ↔ s.exposed.contains v = true ∨
        s.defs.contains v = false ∧ v ∈ l.uses x.action := by
      simp [Block.Summary.step, BitSet.contains_insertAll he, hv, and_comm]
    have hdefs : (s.step l x).defs.contains v = false ↔
        s.defs.contains v = false ∧ x.action.targetVar ≠ some v := by
      unfold Block.Summary.step
      cases x.action.targetVar with
      | none => simp
      | some w =>
        rw [← Bool.not_eq_true, Option.elim_some, BitSet.contains_insert hd]
        grind
    rw [List.foldl_cons, ih hd' he', hexposed, hdefs, Needs, or_assoc, and_assoc, ← and_or_left]

lemma Coherent.needs_lt (h : l.Coherent) (hwanted : wanted v → v < l.vars.size)
    {instrs : List Instr} (hinstrs : ∀ x ∈ instrs, ∃ i, l.instr? i = some x)
    (hv : l.Needs wanted instrs v) : v < l.vars.size := by
  induction instrs with
  | nil => exact hwanted hv
  | cons x rest ih =>
    obtain hv | ⟨-, hv⟩ := hv
    · obtain ⟨i, hi⟩ := hinstrs x List.mem_cons_self
      exact h.mentions_lt hi (.inl hv)
    · exact ih (fun y hy => hinstrs y (List.mem_cons_of_mem _ hy)) hv

/-- The transfer of a block adds what its instructions need. -/
lemma Coherent.contains_transfer (h : l.Coherent) {b : Nat} (hb : b < l.blockCount) {out : BitSet}
    (hout : out.Over l.vars.size) : ((liveVariables l.vars.size l.blocks.toArray).transfer b
      out).contains v = true ↔ l.Needs (fun v => out.contains v = true) (l.stamped b) v := by
  have hmem : Block.ofInstrs l (l.stamped b) ∈ l.blocks :=
    List.mem_of_getElem? (h.getElem?_blocks hb)
  have htransfer : (liveVariables l.vars.size l.blocks.toArray).transfer b out =
      (out.inter (Block.ofInstrs l (l.stamped b)).notKilled).union
        (Block.ofInstrs l (l.stamped b)).exposed := by
    simp only [liveVariables, List.getElem?_toArray, h.getElem?_blocks hb]
  obtain ⟨hd, he⟩ := block_over hmem
  have hinter := hout.inter (notKilled_over hd)
  rw [htransfer]
  by_cases hv : v < l.vars.size
  · have hsummary := foldl_summary (l := l) hv (fun v => out.contains v = true) (l.stamped b)
      (s := Block.Summary.start l) (BitSet.empty_over _) (BitSet.empty_over _)
    simp only [Block.Summary.start, BitSet.contains_empty, Bool.false_eq_true, false_or,
      true_and] at hsummary
    rw [BitSet.contains_union hinter he, BitSet.contains_inter hout (notKilled_over hd),
      contains_notKilled hd, ← hsummary]
    simp [Block.ofInstrs, Block.Summary.start, hv, or_comm]
  · refine iff_of_false ?_ fun hneeds => hv (h.needs_lt (fun hv' => ?_) (fun x hx => ?_) hneeds)
    · rw [(hinter.union he).not_contains (Nat.le_of_not_lt hv)]
      exact Bool.false_ne_true
    · by_contra hge
      rw [hout.not_contains (Nat.le_of_not_lt hge)] at hv'
      cases hv'
    · exact (h.mem_stamped.1 hx).1

/-- The position where a block starts. -/
def top (l : Listing) (b : BlockId) : Nat := l.instrs.findIdx (·.block == b)

lemma Coherent.instrAt?_top (h : l.Coherent) {b : Nat} (hb : b < l.blockCount) :
    ∃ y, instrAt? l (l.top b) = some y ∧ y.block = b ∧
      l.remaining b (l.top b) = l.stamped b := by
  obtain ⟨x, hx⟩ := List.exists_mem_of_ne_nil _ (h.stamped_ne_nil hb)
  obtain ⟨hx, hblock⟩ := List.mem_filter.1 hx
  have hlt : l.top b < l.instrs.length := List.findIdx_lt_length_of_exists ⟨x, hx, hblock⟩
  have hy : instrAt? l (l.top b) = some l.instrs[l.top b] := by
    rw [← h.getElem?_instrs, List.getElem?_eq_getElem hlt]
  have hyb : l.instrs[l.top b].block = b := by
    have hfound : (l.instrs[l.top b].block == b) = true := List.findIdx_getElem (w := hlt)
    exact beq_iff_eq.1 hfound
  refine ⟨_, hy, hyb, ?_⟩
  have hstart := h.remaining_stamped hy fun z hz hpos heq => by
    rw [← h.getElem?_instrs] at hz
    obtain ⟨hlt', rfl⟩ := List.getElem?_eq_some_iff.1 hz
    have hnot : (l.instrs[l.top b - 1].block == b) = false :=
      List.not_of_lt_findIdx (Nat.sub_lt hpos Nat.one_pos)
    exact beq_eq_false_iff_ne.1 hnot (heq.trans hyb)
  rwa [hyb] at hstart

end Listing

/-! ### The sets that liveness finds -/

namespace FlowGraph

open Listing

variable {l : Listing} {settings : AnalysisSettings} {a b : Nat}

section

variable (h : l.Coherent) (hs : l.Sectioned)

include h hs

lemma mem_succ_iff : b ∈ (drawn l settings).succ a ↔ l.Flows a b := by
  rw [succ, Ascending.mem_ofList, Digraph.mem_succ, joined_iff h hs]

lemma mem_pred_iff : a ∈ (drawn l settings).pred b ↔ l.Flows a b := by
  rw [pred, Ascending.mem_ofList, Digraph.mem_pred, joined_iff h hs]

lemma mem_view_succ : b ∈ (drawn l settings).view.succ.getD a [] ↔ l.Flows a b := by
  by_cases ha : a < l.blockCount
  · have hsucc : (drawn l settings).view.succ.getD a [] = (drawn l settings).succ a := by
      simp [view, blockCount_drawn h, ha]
    rw [hsucc, mem_succ_iff h hs]
  · have hnil : (drawn l settings).view.succ.getD a [] = [] := by
      simp [view, blockCount_drawn h, ha]
    rw [hnil]
    exact iff_of_false List.not_mem_nil fun hf => ha (h.flows_source_lt hf)

lemma mem_view_pred : a ∈ (drawn l settings).view.pred.getD b [] ↔ l.Flows a b := by
  by_cases hb : b < l.blockCount
  · have hpred : (drawn l settings).view.pred.getD b [] = (drawn l settings).pred b := by
      simp [view, blockCount_drawn h, hb]
    rw [hpred, mem_pred_iff h hs]
  · have hnil : (drawn l settings).view.pred.getD b [] = [] := by
      simp [view, blockCount_drawn h, hb]
    rw [hnil]
    exact iff_of_false List.not_mem_nil fun hf => hb (h.flows_lt hf)

lemma view_sound (settings : AnalysisSettings) : (drawn l settings).view.Sound where
  succ_size := by simp [view]
  pred_size := by simp [view]
  succ_lt a b hab := by
    have hlt := h.flows_lt ((mem_view_succ h hs).1 hab)
    simpa [view, blockCount_drawn h] using hlt
  mem_pred a b := by rw [mem_view_pred h hs, mem_view_succ h hs]

/-- What is live at the start of a block is live at the end of those before it. -/
lemma greatest_closed {s : States BitSet}
    (hg : (liveVariables l.vars.size l.blocks.toArray).Greatest (drawn l settings).view
      {s | s.Over l.vars.size} s) :
    l.Closed fun b v =>
      ((liveVariables l.vars.size l.blocks.toArray).metAt s b).contains v = true := by
  intro a b v hf hneeds
  have hlawful : (liveVariables l.vars.size l.blocks.toArray).Lawful {s | s.Over l.vars.size} :=
    liveVariables_lawful fun b hb => by simpa using hb
  have hsize (c : Nat) (hc : c < l.blockCount) : c < (drawn l settings).view.size := by
    simpa [view, blockCount_drawn h] using hc
  have hb := h.flows_lt hf
  have hinto : b ∈ (drawn l settings).view.into .backward a := (mem_view_succ h hs).2 hf
  have hflown : ((liveVariables l.vars.size l.blocks.toArray).flownAt s b).contains v = true := by
    rw [(hg.solves b (hsize b hb)).2]
    exact (h.contains_transfer hb (hg.met_mem b)).2 hneeds
  have hbelow := Problem.meetOver_below hlawful hg.flown_mem hinto
  rw [Problem.Below, show (liveVariables l.vars.size l.blocks.toArray).meet = BitSet.union from rfl,
    union_eq_left (Problem.meetOver_mem hlawful hg.flown_mem _) (hg.flown_mem b)] at hbelow
  rw [(hg.solves a (hsize a (h.flows_source_lt hf))).1, Problem.dueMet, if_neg]
  · exact hbelow v hflown
  · rintro (⟨hforward, -⟩ | hnil)
    · cases hforward
    · exact List.ne_nil_of_mem hinto hnil

end

end FlowGraph

/-! ### Runs from a block -/

namespace Machine

variable {W : Type}

/-- A run that starts at the top of a block. -/
def startAt (l : Listing) (b : BlockId) (d : Data W) : Config W := ⟨l.top b, d, [], true⟩

/-- Nothing that can be observed tells two configurations apart: they stand at the same position,
have made the same observations, and have the same arrays and the same world. -/
structure Config.Alike (c c' : Config W) : Prop where
  running : c'.running = c.running
  pc : c'.pc = c.pc
  log : c'.log.map (·.below 0) = c.log.map (·.below 0)
  arrays : c'.data.arrays = c.data.arrays
  world : c'.data.world = c.data.world

/-- At the top of a block only what the whole block needs counts. -/
lemma startAt_lockstep {l : Listing} (h : l.Coherent) {wanted : BlockId → VarId → Prop} {b : Nat}
    (hb : b < l.blockCount) {d d' : Data W}
    (hd : d.Alike (l.Needs (wanted b) (l.stamped b)) d') :
    Lockstep l wanted (startAt l b d) (startAt l b d') := by
  obtain ⟨y, hy, rfl, hstart⟩ := h.instrAt?_top hb
  refine ⟨rfl, rfl, rfl, hd.mono ?_⟩
  rintro v ⟨-, x, hx, hv⟩
  obtain rfl := Option.some.inj (hy.symm.trans hx)
  exact hstart ▸ hv

end Machine

namespace Listing

variable {l : Listing}

/-- **Dead variables do not matter**: runs that start at the top of a block with the same live
variables, whatever the others hold, are alike after any number of steps. -/
theorem Reachable.runs_alike (h : l.Reachable) {settings : AnalysisSettings} {g : FlowGraph}
    (hg : FlowGraph.ofListing l settings = .ok g) (strategy : Strategy) {b : BlockId}
    (hb : b < g.blockCount) :
    ∃ live liveIn, g.livenessBy strategy = .ok live ∧ live.liveIn[b]? = some liveIn ∧
      ∀ {W : Type} (env : Environment W) (d d' : Data W),
        d.Alike (fun v => liveIn.contains v = true) d' →
        ∀ n, (run l env n (startAt l b d)).Alike (run l env n (startAt l b d')) := by
  have hc := h.coherent
  have hs := h.sectioned
  obtain ⟨rfl, -⟩ := FlowGraph.ofListing_ok hc hs hg
  rw [FlowGraph.blockCount_drawn hc] at hb
  have hblocks : ∀ block ∈ l.blocks.toArray, block ∈ l.blocks := fun block hmem => by
    simpa using hmem
  obtain ⟨s, hgreatest, hcompute⟩ :=
    Liveness.compute_greatest hblocks (FlowGraph.view_sound hc hs settings)
  have hsize : b < (FlowGraph.drawn l settings).view.size := by
    simpa [FlowGraph.view, FlowGraph.blockCount_drawn hc] using hb
  have hlt : b < s.flown.size := hgreatest.flown_size.symm ▸ hsize
  refine ⟨⟨s.flown, s.met⟩, s.flown[b], hcompute strategy, Array.getElem?_eq_getElem hlt, ?_⟩
  intro W env d d' hd n
  have hin (v : VarId) (hv : l.Needs (fun v => ((liveVariables l.vars.size
      l.blocks.toArray).metAt s b).contains v = true) (l.stamped b) v) :
      s.flown[b].contains v = true := by
    have hflown := (hc.contains_transfer hb (hgreatest.met_mem b)).2 hv
    rw [← (hgreatest.solves b hsize).2] at hflown
    simpa [Problem.flownAt, hlt] using hflown
  have hclosed := FlowGraph.greatest_closed hc hs hgreatest
  have hrun := (startAt_lockstep hc hb (hd.mono hin)).run hclosed hc hs env n
  exact ⟨hrun.running, hrun.pc, hrun.log, hrun.data.arrays, hrun.data.world⟩

/-- In the body of the loop the parameter and the counter are live, variables 0 and 1; the
temporaries may hold anything. -/
theorem Reachable.runs_alike_fill : ∃ l g live, Listing.ofProgram fillProgram = .ok l ∧
    FlowGraph.ofListing (ValueNumbering.run .standard l).1 .standard = .ok g ∧
    g.livenessBy .fullPass = .ok live ∧
    live.liveIn[2]? = some ((BitSet.empty 5).insertAll [0, 1]) ∧
    ∀ (env : Environment Int32) (d : Data Int32) (n : Nat),
      (run (ValueNumbering.run .standard l).1 env n
          (startAt (ValueNumbering.run .standard l).1 2 d)).Alike
        (run (ValueNumbering.run .standard l).1 env n
          (startAt (ValueNumbering.run .standard l).1 2
            { d with vars := fun v => if v < 2 then d.vars v else .int 7 })) := by
  have hok : ((Listing.ofProgram fillProgram).toOption.bind fun l =>
      (FlowGraph.ofListing (ValueNumbering.run .standard l).1 .standard).toOption.bind fun g =>
        (g.livenessBy .fullPass).toOption.map fun live =>
          (g.blockCount, live.liveIn[2]?)) =
      some (4, some ((BitSet.empty 5).insertAll [0, 1])) := by decide +kernel
  obtain ⟨l, hl, hok⟩ := toOption_bind_eq_some.1 hok
  obtain ⟨g, hg, hok⟩ := toOption_bind_eq_some.1 hok
  obtain ⟨live, hlive, hok⟩ := toOption_map_eq_some.1 hok
  simp only [Prod.mk.injEq] at hok
  obtain ⟨hcount, hset⟩ := hok
  refine ⟨l, g, live, hl, hg, hlive, hset, fun env d n => ?_⟩
  obtain ⟨live', liveIn, hlive', hset', hruns⟩ :=
    Reachable.runs_alike (.numbered .standard (.lowered hl)) hg .fullPass
      (show 2 < g.blockCount by rw [hcount]; decide)
  obtain rfl := Except.ok.inj (hlive'.symm.trans hlive)
  obtain rfl := Option.some.inj (hset'.symm.trans hset)
  have halike : d.Alike (fun v => ((BitSet.empty 5).insertAll [0, 1]).contains v = true)
      { d with vars := fun v => if v < 2 then d.vars v else .int 7 } := by
    refine ⟨fun v hv => ?_, rfl, rfl, rfl, rfl⟩
    rw [BitSet.contains_insertAll (BitSet.empty_over 5)] at hv
    obtain rfl | rfl : v = 0 ∨ v = 1 := by simpa using (hv.resolve_left (by simp)).1
    · rfl
    · rfl
  exact hruns env d _ halike n

end Listing

end ThreeAddress
