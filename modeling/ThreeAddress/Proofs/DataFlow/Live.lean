import ThreeAddress.Proofs.ControlFlow.Execution

/-!
Live variables, said without equations: a block exposes what it reads before it assigns it, and
a variable is live where control can come to a block that exposes it through blocks which do not
assign it. The sets that liveness finds hold these variables and no others.
-/

namespace ThreeAddress

open Machine DataFlow ControlFlow

namespace Listing

variable {l : Listing} {b c : BlockId} {v : VarId} {wanted : VarId → Prop}

/-! ### Exposed variables -/

/-- Some instruction of the block reads the variable, and none before it assigns it. -/
def Exposes (l : Listing) (b : BlockId) (v : VarId) : Prop :=
  ∃ pc x, instrAt? l pc = some x ∧ x.block = b ∧ v ∈ l.uses x.action ∧
    ∀ q y, q < pc → instrAt? l q = some y → y.block = b → y.action.targetVar ≠ some v

/-- Some instruction of the block assigns the variable. -/
def Assigns (l : Listing) (b : BlockId) (v : VarId) : Prop :=
  ∃ pc x, instrAt? l pc = some x ∧ x.block = b ∧ x.action.targetVar = some v

lemma needs_iff {xs : List Instr} : l.Needs wanted xs v ↔
    l.Needs (fun _ => False) xs v ∨ wanted v ∧ ∀ x ∈ xs, x.action.targetVar ≠ some v := by
  induction xs with
  | nil => simp [Needs]
  | cons x rest ih =>
    rw [Needs, Needs, ih, List.forall_mem_cons]
    tauto

/-- The walk back finds the first instruction that reads or assigns the variable. -/
lemma needs_split {xs : List Instr} : l.Needs (fun _ => False) xs v ↔
    ∃ front x back, xs = front ++ x :: back ∧ v ∈ l.uses x.action ∧
      ∀ y ∈ front, y.action.targetVar ≠ some v := by
  induction xs with
  | nil => simp [Needs]
  | cons z rest ih =>
    rw [Needs, ih]
    constructor
    · rintro (hz | ⟨hz, front, x, back, rfl, hx, hfront⟩)
      · exact ⟨[], z, rest, rfl, hz, by simp⟩
      · exact ⟨z :: front, x, back, rfl, hx, List.forall_mem_cons.2 ⟨hz, hfront⟩⟩
    · rintro ⟨front, x, back, heq, hx, hfront⟩
      cases front with
      | nil =>
        obtain ⟨rfl, -⟩ := List.cons.inj heq
        exact .inl hx
      | cons y front =>
        obtain ⟨rfl, rfl⟩ := List.cons.inj heq
        obtain ⟨hy, hfront⟩ := List.forall_mem_cons.1 hfront
        exact .inr ⟨hy, front, x, back, rfl, hx, hfront⟩

lemma Coherent.nodup_instrs (h : l.Coherent) : l.instrs.Nodup := by
  have hnodup := h.nodup
  rw [← map_id_instrs h] at hnodup
  exact hnodup.of_map

lemma Coherent.assigns_iff (h : l.Coherent) :
    l.Assigns b v ↔ ∃ x ∈ l.stamped b, x.action.targetVar = some v := by
  constructor
  · rintro ⟨pc, x, hx, hb, hv⟩
    exact ⟨x, h.mem_stamped_iff_at.2 ⟨⟨pc, hx⟩, hb⟩, hv⟩
  · rintro ⟨x, hx, hv⟩
    obtain ⟨⟨pc, hx⟩, hb⟩ := h.mem_stamped_iff_at.1 hx
    exact ⟨pc, x, hx, hb, hv⟩

/-- What a block exposes, position by position and in the list of its instructions. -/
lemma Coherent.exposes_iff (h : l.Coherent) :
    l.Exposes b v ↔ l.Needs (fun _ => False) (l.stamped b) v := by
  rw [needs_split]
  constructor
  · rintro ⟨pc, x, hx, rfl, hv, hbefore⟩
    refine ⟨(l.instrs.take pc).filter (·.block == x.block), x, l.remaining x.block (pc + 1), ?_,
      hv, fun y hy => ?_⟩
    · rw [← h.remaining_cons hx, ← l.stamped_split]
    · obtain ⟨hy, hblock⟩ := List.mem_filter.1 hy
      obtain ⟨q, hlt, hq⟩ := h.mem_take_iff.1 hy
      exact hbefore q y hlt hq (by simpa using hblock)
  · rintro ⟨front, x, back, heq, hv, hfront⟩
    have hmem : x ∈ l.stamped b := heq ▸ by simp
    obtain ⟨⟨pc, hx⟩, rfl⟩ := h.mem_stamped_iff_at.1 hmem
    -- an instruction stands once, so the list splits at it in one way only
    have hnodup : (l.stamped x.block).Nodup := (h.nodup_instrs).filter _
    have hsplit := l.stamped_split x.block pc
    rw [h.remaining_cons hx] at hsplit
    have hnot {front back : List Instr} (heq : l.stamped x.block = front ++ x :: back) :
        x ∉ front ∧ x ∉ back := by
      rw [heq, List.nodup_middle, List.nodup_cons, List.mem_append, not_or] at hnodup
      exact hnodup.1
    obtain ⟨rfl, -, -⟩ := (List.append_cons_inj_of_notMem (hnot hsplit).1 (hnot hsplit).2).1
      (hsplit.symm.trans heq)
    refine ⟨pc, x, hx, rfl, hv, fun q y hlt hy hblock => hfront y ?_⟩
    exact List.mem_filter.2 ⟨h.mem_take_iff.2 ⟨q, hlt, hy⟩, by simpa using hblock⟩

lemma Coherent.contains_exposed (h : l.Coherent) (b : BlockId) :
    (Block.ofInstrs l (l.stamped b)).exposed.contains v = true ↔ l.Exposes b v := by
  rw [h.exposes_iff]
  have hover : (Block.ofInstrs l (l.stamped b)).exposed.Over l.vars.size := (ofInstrs_over l _).2
  by_cases hv : v < l.vars.size
  · have hsummary := foldl_summary (l := l) hv (fun _ => False) (l.stamped b)
      (s := Block.Summary.start l) (BitSet.empty_over _) (BitSet.empty_over _)
    simpa [Block.ofInstrs, Block.Summary.start] using hsummary
  · refine iff_of_false ?_ fun hneeds => hv ?_
    · rw [hover.not_contains (Nat.le_of_not_lt hv)]
      exact Bool.false_ne_true
    · exact h.needs_lt False.elim (fun x hx => (h.mem_stamped.1 hx).1) hneeds

lemma foldl_summary_defs {n : Nat} (hv : v < n) (instrs : List Instr) {s : Block.Summary}
    (hd : s.defs.Over n) (he : s.exposed.Over n) :
    (instrs.foldl (Block.Summary.step l) s).defs.contains v = true ↔
      s.defs.contains v = true ∨ ∃ x ∈ instrs, x.action.targetVar = some v := by
  induction instrs generalizing s with
  | nil => simp
  | cons x rest ih =>
    obtain ⟨hd', he'⟩ := summary_step_over (l := l) hd he x
    have hstep : (s.step l x).defs.contains v = true ↔
        s.defs.contains v = true ∨ x.action.targetVar = some v := by
      unfold Block.Summary.step
      cases x.action.targetVar with
      | none => simp
      | some w =>
        rw [Option.elim_some, BitSet.contains_insert hd]
        grind
    rw [List.foldl_cons, ih hd' he', hstep, or_assoc, List.exists_mem_cons_iff]

lemma Coherent.contains_defs (h : l.Coherent) (b : BlockId) :
    (Block.ofInstrs l (l.stamped b)).defs.contains v = true ↔ l.Assigns b v := by
  rw [h.assigns_iff]
  have hover : (Block.ofInstrs l (l.stamped b)).defs.Over l.vars.size := (ofInstrs_over l _).1
  by_cases hv : v < l.vars.size
  · have hsummary := foldl_summary_defs (l := l) hv (l.stamped b)
      (s := Block.Summary.start l) (BitSet.empty_over _) (BitSet.empty_over _)
    simpa [Block.ofInstrs, Block.Summary.start] using hsummary
  · refine iff_of_false ?_ ?_
    · rw [hover.not_contains (Nat.le_of_not_lt hv)]
      exact Bool.false_ne_true
    · rintro ⟨x, hx, htarget⟩
      obtain ⟨⟨i, hi⟩, -⟩ := h.mem_stamped.1 hx
      exact hv ((h.inScope hi).targetVar_lt htarget)

/-! ### Live variables -/

/-- The variable is read on some way from the start of the block before it is assigned. -/
inductive Live (l : Listing) (v : VarId) : BlockId → Prop
  | here {b : BlockId} : l.Exposes b v → Live l v b
  | later {b c : BlockId} : ¬l.Assigns b v → l.Flows b c → Live l v c → Live l v b

/-- The variable is live where control can go after the block. -/
def LiveAfter (l : Listing) (v : VarId) (b : BlockId) : Prop := ∃ c, l.Flows b c ∧ l.Live v c

lemma live_iff : l.Live v b ↔ l.Exposes b v ∨ l.LiveAfter v b ∧ ¬l.Assigns b v := by
  constructor
  · rintro (hexposes | ⟨hassigns, hflows, hlive⟩)
    · exact .inl hexposes
    · exact .inr ⟨⟨_, hflows, hlive⟩, hassigns⟩
  · rintro (hexposes | ⟨⟨c, hflows, hlive⟩, hassigns⟩)
    · exact .here hexposes
    · exact .later hassigns hflows hlive

/-- A block needs at its start what is live there. -/
lemma Coherent.needs_liveAfter (h : l.Coherent) :
    l.Needs (l.LiveAfter · b) (l.stamped b) v ↔ l.Live v b := by
  rw [needs_iff, live_iff, h.exposes_iff, h.assigns_iff]
  simp

/-- What is closed under the flow of control holds all that is live. -/
lemma Closed.needs_of_live {wanted : BlockId → VarId → Prop} (hw : l.Closed wanted)
    (h : l.Coherent) (hlive : l.Live v b) : l.Needs (wanted b) (l.stamped b) v := by
  rw [needs_iff, ← h.exposes_iff]
  induction hlive with
  | here hexposes => exact .inl hexposes
  | @later b c hassigns hflows _ ih =>
    rw [h.assigns_iff] at hassigns
    refine .inr ⟨hw b c v hflows ?_, by simpa using hassigns⟩
    rw [needs_iff, ← h.exposes_iff]
    exact ih

end Listing

/-! ### The sets that liveness finds -/

namespace FlowGraph

open Listing

variable {l : Listing} {settings : AnalysisSettings} {b : Nat} {v : VarId}

/-- The variables below `n` with a property, as a set. -/
noncomputable def setOf (n : Nat) (p : VarId → Prop) : BitSet :=
  open Classical in (BitSet.empty n).insertAll ((List.range n).filter fun v => p v)

lemma setOf_over (n : Nat) (p : VarId → Prop) : (setOf n p).Over n :=
  (BitSet.empty_over n).insertAll _

lemma contains_setOf {n : Nat} {p : VarId → Prop} (hp : ∀ v, p v → v < n) :
    (setOf n p).contains v = true ↔ p v := by
  rw [setOf, BitSet.contains_insertAll (BitSet.empty_over n)]
  simp only [BitSet.contains_empty, Bool.false_eq_true, false_or, List.mem_filter, List.mem_range,
    decide_eq_true_eq]
  exact ⟨fun hv => hv.1.2, fun hv => ⟨⟨hp v hv, hv⟩, hp v hv⟩⟩

section

variable (h : l.Coherent) (hs : l.Sectioned)

include h

lemma live_lt (hlive : l.Live v b) : v < l.vars.size := by
  induction hlive with
  | here hexposes =>
    obtain ⟨pc, x, hx, -, hv, -⟩ := hexposes
    obtain ⟨i, -, hi⟩ := Option.bind_eq_some_iff.1 hx
    exact h.mentions_lt hi (.inl hv)
  | later _ _ _ ih => exact ih

lemma liveAfter_lt (hlive : l.LiveAfter v b) : v < l.vars.size := by
  obtain ⟨c, -, hlive⟩ := hlive
  exact live_lt h hlive

include hs

/-- A variable is met at the end of a block when it flows out of a successor. -/
lemma contains_dueMet {flown : Nat → BitSet} (hflown : ∀ b, (flown b).Over l.vars.size) :
    ((liveVariables l.vars.size l.blocks.toArray).dueMet (drawn l settings).view flown
        b).contains v = true ↔ ∃ c, l.Flows b c ∧ (flown c).contains v = true := by
  have hmeet (blocks : List Nat) :
      ((liveVariables l.vars.size l.blocks.toArray).meetOver flown blocks).Over l.vars.size ∧
      (((liveVariables l.vars.size l.blocks.toArray).meetOver flown blocks).contains v = true ↔
        ∃ c ∈ blocks, (flown c).contains v = true) := by
    induction blocks using List.reverseRecOn with
    | nil => exact ⟨BitSet.empty_over _, by simp [Problem.meetOver, liveVariables]⟩
    | append_singleton blocks c ih =>
      rw [Problem.meetOver_append]
      refine ⟨ih.1.union (hflown c), ?_⟩
      show (BitSet.union _ _).contains v = true ↔ _
      rw [BitSet.contains_union ih.1 (hflown c), Bool.or_eq_true, ih.2]
      simp [or_and_right, exists_or]
  have hinto (c : Nat) : c ∈ (drawn l settings).view.into .backward b ↔ l.Flows b c :=
    mem_view_succ h hs
  simp only [← hinto]
  unfold Problem.dueMet
  split
  · rename_i hboundary
    obtain ⟨hforward, -⟩ | hnil := hboundary
    · cases hforward
    · change (drawn l settings).view.into .backward b = [] at hnil
      simp [hnil, liveVariables]
  · exact (hmeet _).2

/-- The live variables solve the equations. -/
lemma live_solves : (liveVariables l.vars.size l.blocks.toArray).Solves (drawn l settings).view
    (fun b => setOf l.vars.size (l.LiveAfter · b)) (fun b => setOf l.vars.size (l.Live · b)) := by
  have hlt (b : Nat) (v : VarId) (hv : l.LiveAfter v b) : v < l.vars.size := liveAfter_lt h hv
  intro b hb
  have hb : b < l.blockCount := by simpa [view, blockCount_drawn h] using hb
  have hlawful : (liveVariables l.vars.size l.blocks.toArray).Lawful {s | s.Over l.vars.size} :=
    liveVariables_lawful fun b hb => by simpa using hb
  have hover (b : Nat) : (setOf l.vars.size (l.Live · b)).Over l.vars.size := setOf_over _ _
  refine ⟨(setOf_over _ _).ext (Problem.dueMet_mem hlawful hover _ b) fun v => ?_,
    (setOf_over _ _).ext (hlawful.transfer_mem b _ (setOf_over _ _)) fun v => ?_⟩
  · rw [Bool.eq_iff_iff, contains_setOf (hlt b), contains_dueMet h hs hover]
    simp only [contains_setOf fun v hv => live_lt h hv]
    rfl
  · rw [Bool.eq_iff_iff, contains_setOf fun v hv => live_lt h hv,
      h.contains_transfer hb (setOf_over _ _)]
    simp only [contains_setOf (hlt b)]
    exact h.needs_liveAfter.symm

/-- The greatest solution holds the live variables: it is closed under the flow of control, and
the live variables are a solution below it. -/
lemma greatest_live {s : States BitSet}
    (hg : (liveVariables l.vars.size l.blocks.toArray).Greatest (drawn l settings).view
      {s | s.Over l.vars.size} s) (hb : b < l.blockCount) :
    (((liveVariables l.vars.size l.blocks.toArray).flownAt s b).contains v = true ↔ l.Live v b) ∧
      (((liveVariables l.vars.size l.blocks.toArray).metAt s b).contains v = true ↔
        l.LiveAfter v b) := by
  have hsize {c : Nat} (hc : c < l.blockCount) : c < (drawn l settings).view.size := by
    simpa [view, blockCount_drawn h] using hc
  have hclosed := greatest_closed h hs hg
  have hflown {c : Nat} (hc : c < l.blockCount) (hlive : l.Live v c) :
      ((liveVariables l.vars.size l.blocks.toArray).flownAt s c).contains v = true := by
    rw [(hg.solves c (hsize hc)).2]
    exact (h.contains_transfer hc (hg.met_mem c)).2 (hclosed.needs_of_live h hlive)
  obtain ⟨hmet, hflow⟩ := hg.above _ _ (fun b => setOf_over _ _) (fun b => setOf_over _ _)
    (live_solves h hs) b (hsize hb)
  rw [Problem.Below] at hmet hflow
  constructor
  · refine ⟨fun hv => ?_, hflown hb⟩
    have hset := (union_eq_left (setOf_over _ _) (hg.flown_mem b)).1 hflow v hv
    exact (contains_setOf fun v hv => live_lt h hv).1 hset
  · constructor
    · intro hv
      have hset := (union_eq_left (setOf_over _ _) (hg.met_mem b)).1 hmet v hv
      exact (contains_setOf (p := (l.LiveAfter · b)) fun v hv => liveAfter_lt h hv).1 hset
    · rintro ⟨c, hf, hlive⟩
      exact hclosed b c v hf (hclosed.needs_of_live h hlive)

/-- Liveness finds the same sets by every strategy: those of the live variables. -/
theorem liveness_eq (settings : AnalysisSettings) : ∃ live : Liveness,
    (drawn l settings).liveness = .ok live ∧
    (∀ strategy, (drawn l settings).livenessBy strategy = .ok live) ∧
    ∀ b < l.blockCount, ∃ liveIn liveOut, live.liveIn[b]? = some liveIn ∧
      live.liveOut[b]? = some liveOut ∧
      ∀ v, (liveIn.contains v = true ↔ l.Live v b) ∧
        (liveOut.contains v = true ↔ l.LiveAfter v b) := by
  have hblocks : ∀ block ∈ l.blocks.toArray, block ∈ l.blocks := fun block hmem => by
    simpa using hmem
  obtain ⟨s, hgreatest, hcompute⟩ :=
    Liveness.compute_greatest hblocks (view_sound h hs settings)
  have hby (strategy : Strategy) :
      (drawn l settings).livenessBy strategy = .ok ⟨s.flown, s.met⟩ := hcompute strategy
  refine ⟨⟨s.flown, s.met⟩, ?_, hby, fun b hb => ?_⟩
  · unfold liveness
    split
    · exact Liveness.verify_eq hcompute
    · exact hby _
  · have hsize : b < (drawn l settings).view.size := by
      simpa [view, blockCount_drawn h] using hb
    have hin : b < s.flown.size := hgreatest.flown_size.symm ▸ hsize
    have hout : b < s.met.size := hgreatest.met_size.symm ▸ hsize
    refine ⟨_, _, Array.getElem?_eq_getElem hin, Array.getElem?_eq_getElem hout, fun v => ?_⟩
    obtain ⟨hlive, hafter⟩ := greatest_live h hs hgreatest hb (v := v)
    simpa [Problem.flownAt, Problem.metAt, hin, hout] using And.intro hlive hafter

end

end FlowGraph

end ThreeAddress
