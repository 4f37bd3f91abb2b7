import ThreeAddress.Proofs.ControlFlow.Intervals
import ThreeAddress.Proofs.DataFlow.LiveRuns

/-!
Runs and the control-flow graph. A run enters a block at its first instruction and leaves it at
its last one, along an edge whose kind is the way that the last instruction takes. So the edges
that a run crosses form a walk in the graph, and a run that is not trapped stops in the blocks
without a successor and in no others.
-/

namespace ThreeAddress

open Machine ControlFlow

/-! ### Ends and tops of blocks -/

namespace Listing

variable {l : Listing} {pc q : Nat} {x y : Instr} {b : BlockId}

/-- An instruction stands at one position only. -/
lemma Coherent.instrAt?_inj (h : l.Coherent) (hx : instrAt? l pc = some x)
    (hy : instrAt? l q = some x) : pc = q := by
  obtain ⟨i, hi, hx⟩ := Option.bind_eq_some_iff.1 hx
  obtain ⟨j, hj, hy⟩ := Option.bind_eq_some_iff.1 hy
  obtain rfl : i = j := (h.ids hx).symm.trans (h.ids hy)
  exact (List.getElem?_inj (List.getElem?_eq_some_iff.1 hi).1 h.nodup).1 (hi.trans hj.symm)

lemma Coherent.mem_stamped_iff_at (h : l.Coherent) :
    x ∈ l.stamped b ↔ (∃ pc, instrAt? l pc = some x) ∧ x.block = b := by
  rw [stamped, List.mem_filter, beq_iff_eq, List.mem_iff_getElem?]
  simp only [h.getElem?_instrs]

lemma Coherent.block_lt_at (h : l.Coherent) (hx : instrAt? l pc = some x) :
    x.block < l.blockCount := by
  obtain ⟨i, -, hi⟩ := Option.bind_eq_some_iff.1 hx
  exact h.bears_iff_lt.1 ⟨i, x, hi, rfl⟩

lemma Coherent.isLast_iff (h : l.Coherent) (hx : instrAt? l pc = some x) :
    isLast l pc x = true ↔ (l.stamped x.block).getLast? = some x := by
  have hiff : isLast l pc x = true ↔ ∀ y, instrAt? l (pc + 1) = some y → y.block ≠ x.block := by
    cases hy : instrAt? l (pc + 1) <;> simp [isLast, hy]
  rw [hiff]
  refine ⟨fun hnext => h.getLast?_of_remaining_nil hx (h.remaining_nil hx hnext),
    fun hlast y hy hsame => ?_⟩
  -- the last instruction would stand a second time, behind `y`
  have hcons := h.remaining_cons hy
  rw [hsame] at hcons
  have hne : l.remaining x.block (pc + 1) ≠ [] := by simp [hcons]
  rw [l.stamped_split x.block (pc + 1), List.getLast?_append_of_ne_nil _ hne] at hlast
  obtain ⟨k, hk⟩ := List.mem_iff_getElem?.1 (List.mem_filter.1 (List.mem_of_getLast? hlast)).1
  rw [List.getElem?_drop, h.getElem?_instrs] at hk
  have := h.instrAt?_inj hx hk
  omega

/-- A block starts at the position that another block precedes. -/
lemma Coherent.eq_top (h : l.Coherent) (hy : instrAt? l pc = some y)
    (hbefore : ∀ z, instrAt? l (pc - 1) = some z → 0 < pc → z.block ≠ y.block) :
    pc = l.top y.block := by
  obtain ⟨z, hz, hzb, hrem⟩ := h.instrAt?_top (h.block_lt_at hy)
  have hstart := h.remaining_stamped hy hbefore
  have hcons := h.remaining_cons hy
  have hcons' := h.remaining_cons hz
  rw [hzb, hrem] at hcons'
  rw [hstart, hcons'] at hcons
  obtain rfl := (List.cons.inj hcons).1
  exact h.instrAt?_inj hy hz

lemma Coherent.eq_top_succ (h : l.Coherent) (hx : instrAt? l pc = some x)
    (hy : instrAt? l (pc + 1) = some y) (hlast : isLast l pc x = true) :
    y.block = x.block + 1 ∧ pc + 1 = l.top y.block := by
  have hne : y.block ≠ x.block := by simpa [isLast, hy] using hlast
  have hfollows := h.follows_at hx hy
  rw [Instr.Follows] at hfollows
  refine ⟨by split at hfollows <;> simp_all, h.eq_top hy fun z hz _ => ?_⟩
  obtain rfl := Option.some.inj (hx.symm.trans hz)
  exact Ne.symm hne

/-- A label stands at the top of its block. -/
lemma Coherent.position_eq_top (h : l.Coherent) {label : LabelId}
    (hb : l.labelBlock? label = some b) : position l label = l.top b := by
  obtain ⟨y, hy, hact, rfl⟩ := h.instrAt?_position hb
  exact h.eq_top hy fun z => h.block_ne_of_label hy hact

/-- What ends a block is its last instruction. -/
lemma Coherent.isLast_of_endsBlock (h : l.Coherent) (hx : instrAt? l pc = some x)
    (hends : x.action.operator.endsBlock = true) : isLast l pc x = true :=
  (h.isLast_iff hx).2 (h.getLast?_stamped (h.mem_stamped_iff_at.2 ⟨⟨pc, hx⟩, rfl⟩) hends)

lemma Coherent.exists_next (h : l.Coherent) (hx : instrAt? l pc = some x)
    (hnext : x.block + 1 < l.blockCount) : ∃ y, instrAt? l (pc + 1) = some y := by
  obtain ⟨y, hy, hyb, -⟩ := h.instrAt?_top hnext
  have hlt : pc < l.top (x.block + 1) := by
    by_contra hge
    have hle := h.block_le hy hx (Nat.le_of_not_lt hge)
    exact Nat.not_succ_le_self _ (hyb ▸ hle)
  rw [← h.getElem?_instrs] at hy
  have hlen := (List.getElem?_eq_some_iff.1 hy).1
  exact ⟨l.instrs[pc + 1], by rw [← h.getElem?_instrs, List.getElem?_eq_getElem (by omega)]⟩

end Listing

/-! ### Edges and exits -/

namespace FlowGraph

open Listing

variable {l : Listing} {settings : AnalysisSettings}

/-- A walk from block to block, given by the edges it takes. -/
inductive Walk (g : FlowGraph) : BlockId → BlockId → List Edge → Prop
  | nil (b : BlockId) : Walk g b b []
  | cons {e : Edge} {b : BlockId} {es : List Edge} : e ∈ g.edges → Walk g e.target b es →
    Walk g e.source b (e :: es)

lemma ids_drawn (h : l.Coherent) (settings : AnalysisSettings) :
    (drawn l settings).blocks.toList.map (·.id) = List.range l.blockCount := by
  show l.blocks.map (·.id) = _
  rw [h.blocks_eq, List.map_map]
  conv_rhs => rw [← List.map_id (List.range l.blockCount)]
  exact List.map_congr_left fun b hb => h.ofInstrs_id (List.mem_range.1 hb)

lemma edges_drawn (h : l.Coherent) (settings : AnalysisSettings) :
    (drawn l settings).edges = (List.range l.blockCount).flatMap (drawn l settings).outgoing := by
  rw [edges, ← ids_drawn h settings, List.flatMap_map]

lemma mem_edges (h : l.Coherent) {e : Edge} : e ∈ (drawn l settings).edges ↔
    e.source < l.blockCount ∧ (e.target, e.kind) ∈ l.exits e.source := by
  rw [edges_drawn h, List.mem_flatMap]
  constructor
  · rintro ⟨b, hb, he⟩
    rw [outgoing_eq settings (List.mem_range.1 hb)] at he
    obtain ⟨exit, hexit, rfl⟩ := List.mem_map.1 he
    exact ⟨List.mem_range.1 hb, hexit⟩
  · rintro ⟨hlt, he⟩
    refine ⟨e.source, List.mem_range.2 hlt, ?_⟩
    rw [outgoing_eq settings hlt]
    exact List.mem_map.2 ⟨_, he, rfl⟩

lemma mem_exits (h : l.Coherent) (hs : l.Sectioned) {b : BlockId} :
    b ∈ (drawn l settings).exits ↔ b < l.blockCount ∧ l.exits b = [] := by
  rw [exits, List.mem_filter, ids_drawn h, List.mem_range]
  refine and_congr_right fun hb => ?_
  rw [List.isEmpty_iff, List.eq_nil_iff_forall_not_mem, List.eq_nil_iff_forall_not_mem, Prod.forall]
  refine forall_congr' fun c => ?_
  rw [succ, Ascending.mem_ofList, Digraph.mem_succ, joined_iff h hs, ← hs.exits_flows h hb,
    not_exists]

end FlowGraph

/-! ### Steps along the edges -/

namespace Machine

open Listing FlowGraph

variable {W : Type} {l : Listing} {env : Environment W} {c : Config W} {x y : Instr}

/-- The instruction that a run performs next; none when it has come to its end. -/
def Config.current? (l : Listing) (c : Config W) : Option Instr :=
  if c.running then instrAt? l c.pc else none

/-- The way that control takes after an action: a conditional jump tests its condition. -/
def Data.way (l : Listing) (d : Data W) : Action → EdgeKind
  | .jump _ => .jump
  | .jumpFalse cond _ => if (d.read l cond).isZero then .onFalse else .onTrue
  | _ => .fallthrough

/-- The edge that a step crosses. There is none when control falls through inside a block, nor
when the run comes to its end. -/
def crossing (l : Listing) (env : Environment W) (c : Config W) : List Edge :=
  match c.current? l, (step l env c).current? l with
  | some x, some y =>
    if (perform l env c.data x.action).transfer = .fall ∧ y.block = x.block then []
    else [⟨x.block, y.block, c.data.way l x.action⟩]
  | _, _ => []

/-- The edges crossed in the first steps of a run. -/
def trail (l : Listing) (env : Environment W) : Nat → Config W → List Edge
  | 0, _ => []
  | n + 1, c => crossing l env c ++ trail l env n (step l env c)

/-- The action at a position sends control along an edge: unconditionally, when the condition is
zero, or when it is not. -/
def Prescribes (l : Listing) (pc : Nat) (a : Action) (e : Edge) : Prop :=
  match e.kind with
  | .jump => ∃ label, a = .jump label ∧ position l label = l.top e.target
  | .onFalse => ∃ cond label, a = .jumpFalse cond label ∧ position l label = l.top e.target
  | .onTrue => (∃ cond label, a = .jumpFalse cond label) ∧ pc + 1 = l.top e.target
  | .fallthrough => a.operator.endsBlock = false ∧ pc + 1 = l.top e.target

lemma Config.current?_eq_some :
    c.current? l = some x ↔ c.running = true ∧ instrAt? l c.pc = some x := by
  cases hc : c.running <;> simp [Config.current?, hc]

lemma current?_step (hx : c.current? l = some x) : (step l env c).current? l =
    if (perform l env c.data x.action).transfer.continues then
      instrAt? l (nextPc l c.pc (perform l env c.data x.action).transfer) else none := by
  obtain ⟨hrun, hi⟩ := Config.current?_eq_some.1 hx
  rw [step_eq env hrun hi, Config.current?]

lemma current?_step_of_none (hx : c.current? l = none) : (step l env c).current? l = none := by
  cases hc : c.running with
  | false => rwa [step_of_stopped hc]
  | true =>
    rw [Config.current?, if_pos hc] at hx
    rw [step_of_none hc hx]
    rfl

lemma current?_run_of_none (hx : c.current? l = none) (n : Nat) :
    (run l env n c).current? l = none := by
  induction n generalizing c with
  | zero => exact hx
  | succ n ih => exact ih (current?_step_of_none hx)

/-- How an action, the way that control takes and the transfer belong together. -/
inductive Departs : Action → EdgeKind → Transfer → Prop
  | jump (label : LabelId) : Departs (.jump label) .jump (.goto label)
  | onFalse (cond : Operand) (label : LabelId) :
    Departs (.jumpFalse cond label) .onFalse (.goto label)
  | onTrue (cond : Operand) (label : LabelId) : Departs (.jumpFalse cond label) .onTrue .fall
  | through {a : Action} : a.operator.endsBlock = false → Departs a .fallthrough .fall
  | returned (value : Option Operand) : Departs (.ret value) .fallthrough .returned
  | trapped {a : Action} : Departs a .fallthrough .trapped

lemma perform_departs (l : Listing) (env : Environment W) (d : Data W) (a : Action) :
    Departs a (d.way l a) (perform l env d a).transfer := by
  cases a with
  | compute op lhs rhs w =>
    simp only [perform, Data.way]
    split
    · exact .through rfl
    · exact .trapped
  | copy value target => cases target <;> exact .through rfl
  | jump label => exact .jump label
  | jumpFalse cond label =>
    simp only [perform, Data.way]
    split
    · exact .onFalse cond label
    · exact .onTrue cond label
  | ret value => exact .returned value
  | _ => exact .through rfl

lemma Departs.branches {a : Action} {kind : EdgeKind} {label : LabelId}
    (h : Departs a kind (.goto label)) :
    a.branchTarget = some label ∧ a.operator.endsBlock = true := by
  cases h <;> exact ⟨rfl, rfl⟩

lemma Departs.eq_ret {a : Action} {kind : EdgeKind} (h : Departs a kind .returned) :
    ∃ value, a = .ret value := by
  cases h with
  | returned value => exact ⟨value, rfl⟩

section

variable (h : l.Coherent) {pc : Nat} {kind : EdgeKind}

include h

/-- Control that falls through the end of a block takes an edge. -/
lemma exits_of_fall (hx : instrAt? l pc = some x) (hy : instrAt? l (pc + 1) = some y)
    (hlast : isLast l pc x = true) (hd : Departs x.action kind .fall) :
    pc + 1 = l.top y.block ∧ (y.block, kind) ∈ l.exits x.block := by
  obtain ⟨hnext, htop⟩ := h.eq_top_succ hx hy hlast
  have hlt : x.block + 1 < l.blockCount := hnext ▸ h.block_lt_at hy
  refine ⟨htop, ?_⟩
  rw [hnext, Listing.exits, (h.isLast_iff hx).1 hlast, Option.elim_some]
  generalize x.action = a at hd
  cases hd with
  | onTrue cond label => exact List.mem_cons_self
  | through hends => cases a <;> simp_all [Action.operator, Operator.endsBlock]

variable (hs : l.Sectioned)

include hs

/-- A jump is the end of its block and takes an edge. -/
lemma exits_of_goto {label : LabelId} (hx : instrAt? l pc = some x)
    (hd : Departs x.action kind (.goto label)) : ∃ y, instrAt? l (position l label) = some y ∧
      isLast l pc x = true ∧ position l label = l.top y.block ∧
        (y.block, kind) ∈ l.exits x.block := by
  obtain ⟨i, -, hi⟩ := Option.bind_eq_some_iff.1 hx
  obtain ⟨hbranch, hends⟩ := hd.branches
  obtain ⟨-, b, hb, -⟩ := hs.branch hi hbranch
  obtain ⟨y, hy, -, rfl⟩ := h.instrAt?_position hb
  have hlast := h.isLast_of_endsBlock hx hends
  refine ⟨y, hy, hlast, h.position_eq_top hb, ?_⟩
  rw [Listing.exits, (h.isLast_iff hx).1 hlast, Option.elim_some]
  generalize x.action = a at hd
  cases hd <;> simp [hb]

/-- A block that ends with an instruction which control falls through is left, or is the last. -/
lemma exits_of_end (hx : instrAt? l pc = some x) (hy : instrAt? l (pc + 1) = none)
    (hd : Departs x.action kind .fall) : l.exits x.block = [] := by
  have hlast : isLast l pc x = true := by simp [isLast, hy]
  have hstamp := (h.isLast_iff hx).1 hlast
  have hno : ¬x.block + 1 < l.blockCount := fun hlt => by
    obtain ⟨y, hy'⟩ := h.exists_next hx hlt
    rw [hy] at hy'
    cases hy'
  rw [Listing.exits, hstamp, Option.elim_some]
  generalize hact : x.action = a at hd
  cases hd with
  | onTrue cond label =>
    obtain ⟨-, -, -, hlt⟩ := hs.jumpFalse_next h hstamp hact
    exact absurd hlt hno
  | through hends => cases a <;> simp_all [Action.operator, Operator.endsBlock]

/-- A step goes on inside the block, or from the end of the block along an edge to the top of the
next one. -/
lemma step_moves (hx : c.current? l = some x) (hy : (step l env c).current? l = some y) :
    ((perform l env c.data x.action).transfer = .fall ∧ (step l env c).pc = c.pc + 1 ∧
        y.block = x.block) ∨
      ¬((perform l env c.data x.action).transfer = .fall ∧ y.block = x.block) ∧
        isLast l c.pc x = true ∧ (step l env c).pc = l.top y.block ∧
        (y.block, c.data.way l x.action) ∈ l.exits x.block := by
  obtain ⟨hrun, hi⟩ := Config.current?_eq_some.1 hx
  have hpc : (step l env c).pc = nextPc l c.pc (perform l env c.data x.action).transfer := by
    rw [step_eq env hrun hi]
  have hd := perform_departs l env c.data x.action
  rw [current?_step hx] at hy
  cases ht : (perform l env c.data x.action).transfer with
  | returned => simp [ht, Transfer.continues] at hy
  | trapped => simp [ht, Transfer.continues] at hy
  | fall =>
    rw [ht] at hy hpc hd
    change instrAt? l (c.pc + 1) = some y at hy
    by_cases hsame : y.block = x.block
    · exact .inl ⟨rfl, hpc, hsame⟩
    · have hlast : isLast l c.pc x = true := by simpa [isLast, hy] using hsame
      obtain ⟨htop, hexit⟩ := exits_of_fall h hi hy hlast hd
      exact .inr ⟨fun hstay => hsame hstay.2, hlast, hpc.trans htop, hexit⟩
  | goto label =>
    rw [ht] at hy hpc hd
    change instrAt? l (position l label) = some y at hy
    obtain ⟨y', hy', hlast, htop, hexit⟩ := exits_of_goto h hs hi hd
    obtain rfl := Option.some.inj (hy.symm.trans hy')
    exact .inr ⟨by simp, hlast, hpc.trans htop, hexit⟩

/-- Unless it is trapped, a run comes to its end where a block without exits ends. -/
lemma step_stops_iff (hx : c.current? l = some x)
    (htrap : (perform l env c.data x.action).transfer ≠ .trapped) :
    (step l env c).current? l = none ↔ isLast l c.pc x = true ∧ l.exits x.block = [] := by
  obtain ⟨hrun, hi⟩ := Config.current?_eq_some.1 hx
  have hd := perform_departs l env c.data x.action
  rw [current?_step hx]
  cases ht : (perform l env c.data x.action).transfer with
  | trapped => exact absurd ht htrap
  | returned =>
    rw [ht] at hd
    refine iff_of_true rfl ?_
    obtain ⟨value, hact⟩ := hd.eq_ret
    have hlast := h.isLast_of_endsBlock hi (by rw [hact]; rfl)
    exact ⟨hlast, by rw [Listing.exits, (h.isLast_iff hi).1 hlast, Option.elim_some, hact]⟩
  | fall =>
    rw [ht] at hd
    show instrAt? l (c.pc + 1) = none ↔ _
    refine ⟨fun hnone => ⟨by simp [isLast, hnone], exits_of_end h hs hi hnone hd⟩, ?_⟩
    rintro ⟨hlast, hnil⟩
    cases hy : instrAt? l (c.pc + 1) with
    | none => rfl
    | some y =>
      obtain ⟨-, hexit⟩ := exits_of_fall h hi hy hlast hd
      rw [hnil] at hexit
      cases hexit
  | goto label =>
    rw [ht] at hd
    obtain ⟨y, hy, -, -, hexit⟩ := exits_of_goto h hs hi hd
    refine iff_of_false ?_ fun hnil => ?_
    · show instrAt? l (position l label) ≠ none
      simp [hy]
    · rw [hnil.2] at hexit
      cases hexit

/-- The last instruction of a block prescribes the edges that leave it. -/
lemma exits_prescribed (hx : instrAt? l pc = some x) (hlast : isLast l pc x = true) {e : Edge}
    (he : (e.target, e.kind) ∈ l.exits x.block) : Prescribes l pc x.action e := by
  have hstamp := (h.isLast_iff hx).1 hlast
  have hnext (hlt : x.block + 1 < l.blockCount) : pc + 1 = l.top (x.block + 1) := by
    obtain ⟨y, hy⟩ := h.exists_next hx hlt
    obtain ⟨hblock, htop⟩ := h.eq_top_succ hx hy hlast
    rw [htop, hblock]
  obtain ⟨source, target, kind⟩ := e
  rw [Listing.exits, hstamp, Option.elim_some] at he
  cases hact : x.action with
  | jump label =>
    rw [hact] at he
    obtain ⟨b, hb, heq⟩ := List.mem_map.1 he
    cases heq
    exact ⟨label, rfl, h.position_eq_top (by simpa using hb)⟩
  | jumpFalse cond label =>
    rw [hact] at he
    obtain heq | he := List.mem_cons.1 he
    · cases heq
      obtain ⟨-, -, -, hlt⟩ := hs.jumpFalse_next h hstamp hact
      exact ⟨⟨cond, label, rfl⟩, hnext hlt⟩
    · obtain ⟨b, hb, heq⟩ := List.mem_map.1 he
      cases heq
      exact ⟨cond, label, rfl, h.position_eq_top (by simpa using hb)⟩
  | ret value => simp [hact] at he
  | _ =>
    rw [hact] at he
    obtain ⟨hlt, heq⟩ := List.mem_ite_nil_right.1 he
    cases List.mem_singleton.1 heq
    exact ⟨rfl, hnext hlt⟩

end

/-- Control goes where the action prescribes, in every state in which it takes that way. -/
lemma Prescribes.step {e : Edge} (he : Prescribes l c.pc x.action e) (hx : c.current? l = some x)
    (hway : c.data.way l x.action = e.kind)
    (htrap : (perform l env c.data x.action).transfer ≠ .trapped) :
    (step l env c).running = true ∧ (step l env c).pc = l.top e.target := by
  obtain ⟨hrun, hi⟩ := Config.current?_eq_some.1 hx
  have hd := perform_departs l env c.data x.action
  rw [step_eq env hrun hi]
  show (perform l env c.data x.action).transfer.continues = true ∧
    nextPc l c.pc (perform l env c.data x.action).transfer = _
  rw [Prescribes, ← hway] at he
  generalize c.data.way l x.action = kind at he hd
  generalize (perform l env c.data x.action).transfer = transfer at hd htrap
  generalize x.action = a at he hd
  cases hd with
  | jump label =>
    obtain ⟨_, heq, htop⟩ := he
    cases heq
    exact ⟨rfl, htop⟩
  | onFalse cond label =>
    obtain ⟨_, _, heq, htop⟩ := he
    cases heq
    exact ⟨rfl, htop⟩
  | onTrue cond label => exact ⟨rfl, he.2⟩
  | through hends => exact ⟨rfl, he.2⟩
  | returned value => cases he.1
  | trapped => exact absurd rfl htrap

/-! ### Runs along the edges -/

lemma trail_of_none (hx : c.current? l = none) (n : Nat) : trail l env n c = [] := by
  induction n generalizing c with
  | zero => rfl
  | succ n ih => simp [trail, crossing, hx, ih (current?_step_of_none hx)]

end Machine

namespace FlowGraph

open Listing

variable {W : Type} {l : Listing} {settings : AnalysisSettings} {env : Environment W}
  {c : Config W} {x y : Instr}

lemma Walk.append {g : FlowGraph} {a b d : BlockId} {es es' : List Edge} (h : g.Walk a b es)
    (h' : g.Walk b d es') : g.Walk a d (es ++ es') := by
  induction h with
  | nil => exact h'
  | cons he _ ih => exact .cons he (ih h')

/-- What the graph says about a run that starts in block `b`. It enters a block only at the top
and leaves it only at the end, along an edge whose kind is the way that control takes; the edges
crossed form a walk; and unless it is trapped, it stops in a block without a successor. -/
structure Guides (g : FlowGraph) (l : Listing) (env : Environment W) (b : BlockId) (c : Config W) :
    Prop where
  start : c.pc = l.top b ∧ ∃ x, c.current? l = some x ∧ x.block = b
  moves : ∀ n x y, (run l env n c).current? l = some x →
    (run l env (n + 1) c).current? l = some y →
    (run l env (n + 1) c).pc = (run l env n c).pc + 1 ∧ y.block = x.block ∨
      isLast l (run l env n c).pc x = true ∧ (run l env (n + 1) c).pc = l.top y.block ∧
        ⟨x.block, y.block, (run l env n c).data.way l x.action⟩ ∈ g.edges
  walk : ∀ n, ∃ e, g.Walk b e (trail l env n c) ∧
    ∀ y, (run l env n c).current? l = some y → y.block = e
  stops : ∀ n x, (run l env n c).current? l = some x →
    (perform l env (run l env n c).data x.action).transfer ≠ .trapped →
    ((run l env (n + 1) c).current? l = none ↔
      isLast l (run l env n c).pc x = true ∧ x.block ∈ g.exits)
  ends : ∀ n x, (run l env n c).current? l = some x → x.block ∈ g.exits →
    ∃ m ≥ n, ∃ y, (run l env m c).current? l = some y ∧ y.block = x.block ∧
      (run l env (m + 1) c).current? l = none

section

variable (h : l.Coherent) (hs : l.Sectioned)

include h hs

lemma crossing_walk (hx : c.current? l = some x) (hy : (step l env c).current? l = some y) :
    (drawn l settings).Walk x.block y.block (crossing l env c) := by
  rw [crossing, hx, hy]
  obtain ⟨hfall, -, hsame⟩ | ⟨hcross, -, -, hexit⟩ := step_moves h hs hx hy
  · simp only [hfall, hsame, and_self, if_true]
    exact .nil x.block
  · simp only [hcross, if_false]
    have hlt := h.block_lt_at (Config.current?_eq_some.1 hx).2
    have he : ⟨x.block, y.block, c.data.way l x.action⟩ ∈ (drawn l settings).edges :=
      (mem_edges h).2 ⟨hlt, hexit⟩
    exact .cons he (.nil y.block)

/-- The edges that a run crosses lead to the block that it is in. -/
lemma trail_walk (n : Nat) (hx : c.current? l = some x) :
    ∃ e, (drawn l settings).Walk x.block e (trail l env n c) ∧
      ∀ y, (run l env n c).current? l = some y → y.block = e := by
  induction n generalizing c x with
  | zero =>
    refine ⟨x.block, .nil x.block, fun y hy => ?_⟩
    rw [Option.some.inj (hx.symm.trans hy)]
  | succ n ih =>
    cases hy : (step l env c).current? l with
    | none =>
      refine ⟨x.block, ?_, fun y hy' => ?_⟩
      · rw [trail, crossing, hx, hy, trail_of_none hy]
        exact .nil x.block
      · rw [run_succ, current?_run_of_none hy] at hy'
        cases hy'
    | some y =>
      obtain ⟨e, hwalk, hblock⟩ := ih hy
      exact ⟨e, (crossing_walk h hs hx hy).append hwalk, hblock⟩

/-- A run that is in a block without exits ends there. The induction is on what is left of the
stream. -/
lemma ends_of_exits_nil (env : Environment W) (hnil : l.exits x.block = [])
    (hx : c.current? l = some x) :
    ∃ m y, (run l env m c).current? l = some y ∧ y.block = x.block ∧
      (run l env (m + 1) c).current? l = none := by
  generalize hn : l.instrs.length - c.pc = n
  induction n generalizing c x with
  | zero =>
    obtain ⟨-, hi⟩ := Config.current?_eq_some.1 hx
    rw [← h.getElem?_instrs] at hi
    have := (List.getElem?_eq_some_iff.1 hi).1
    omega
  | succ n ih =>
    cases hy : (step l env c).current? l with
    | none => exact ⟨0, x, hx, rfl, hy⟩
    | some y =>
      obtain ⟨-, hpc, hsame⟩ | ⟨-, -, -, hexit⟩ := step_moves h hs hx hy
      · obtain ⟨m, z, hz, hblock, hend⟩ := ih (hsame ▸ hnil) hy (by omega)
        exact ⟨m + 1, z, hz, hblock.trans hsame, hend⟩
      · rw [hnil] at hexit
        cases hexit

lemma drawn_guides {b : BlockId} (hb : b < l.blockCount) (hpc : c.pc = l.top b)
    (hrun : c.running = true) : (drawn l settings).Guides l env b c := by
  obtain ⟨x, hi, rfl, -⟩ := h.instrAt?_top hb
  have hx : c.current? l = some x := Config.current?_eq_some.2 ⟨hrun, hpc ▸ hi⟩
  have hsucc (n : Nat) : run l env (n + 1) c = step l env (run l env n c) := by
    rw [run_add, run_one]
  have hlt {n : Nat} {x : Instr} (hx : (run l env n c).current? l = some x) :
      x.block < l.blockCount :=
    h.block_lt_at (Config.current?_eq_some.1 hx).2
  refine ⟨⟨hpc, x, hx, rfl⟩, fun n x y hx hy => ?_, fun n => trail_walk h hs n hx,
    fun n x hx htrap => ?_, fun n x hx hexit => ?_⟩
  · rw [hsucc] at hy ⊢
    obtain ⟨-, hpc, hsame⟩ | ⟨-, hlast, htop, hexit⟩ := step_moves h hs hx hy
    · exact .inl ⟨hpc, hsame⟩
    · exact .inr ⟨hlast, htop, (mem_edges h).2 ⟨hlt hx, hexit⟩⟩
  · rw [hsucc, step_stops_iff h hs hx htrap, mem_exits h hs]
    exact and_congr_right fun _ => (and_iff_right (hlt hx)).symm
  · obtain ⟨m, y, hy, hblock, hend⟩ :=
      ends_of_exits_nil h hs env ((mem_exits h hs).1 hexit).2 hx
    refine ⟨n + m, Nat.le_add_right n m, y, ?_, hblock, ?_⟩
    · rwa [run_add]
    · rwa [Nat.add_assoc, run_add]

end

end FlowGraph

namespace Listing

open FlowGraph

variable {l : Listing}

/-- A run can start with the first block and with each function that is defined. -/
def Starts (l : Listing) : Machine.Entry → Prop
  | .first => True
  | .function name => ∃ f, l.functions.get? name = some f ∧ f.defined = true

lemma Coherent.entryPosition_eq (h : l.Coherent) (hs : l.Sectioned) (hne : l.stream ≠ [])
    {entry : Machine.Entry} (he : l.Starts entry) :
    ∃ b < l.blockCount, l.Entry b ∧ entryPosition l entry = l.top b := by
  cases entry with
  | first =>
    have hpos : 0 < l.blockCount := by
      rw [h.blockCount_eq hne]
      omega
    refine ⟨0, hpos, .inl rfl, ?_⟩
    obtain ⟨i, rest, hstream⟩ := List.exists_cons_of_ne_nil hne
    obtain ⟨x, hx⟩ := h.exists_instr (i := i) (by simp [hstream])
    have hat : instrAt? l 0 = some x := by simp [instrAt?, hstream, hx]
    have hblock : x.block = 0 := by
      refine h.first x ?_
      rw [List.head?_eq_getElem?, h.getElem?_instrs, hat]
      rfl
    exact hblock ▸ h.eq_top hat fun z _ hpos => absurd hpos (lt_irrefl 0)
  | function name =>
    obtain ⟨f, hf, hdef⟩ := he
    obtain ⟨b, hb⟩ := (hs.defined hf).1 hdef
    refine ⟨b, h.labelBlock?_lt hb, .inr ⟨name, f, hf, hb⟩, ?_⟩
    rw [entryPosition, hf, Option.elim_some, h.position_eq_top hb]

/-- **The control-flow graph is an exact abstraction of the runs**: every run that starts at an
entry is guided by it, and every edge is what the last instruction of its source prescribes. -/
theorem Reachable.guided (h : l.Reachable) {settings : AnalysisSettings} {g : FlowGraph}
    (hg : FlowGraph.ofListing l settings = .ok g) :
      (∀ {W : Type} (env : Environment W) (d : Data W) (entry : Machine.Entry), l.Starts entry →
        ∃ b ∈ g.entries, g.Guides l env b (start l entry d)) ∧
      ∀ e ∈ g.edges, ∃ pc x, instrAt? l pc = some x ∧ x.block = e.source ∧
        isLast l pc x = true ∧ Prescribes l pc x.action e ∧
        ∀ {W : Type} (env : Environment W) (c : Config W), c.pc = pc → c.running = true →
          c.data.way l x.action = e.kind →
          (perform l env c.data x.action).transfer ≠ .trapped →
          (step l env c).running = true ∧ (step l env c).pc = l.top e.target := by
  have hc := h.coherent
  have hs := h.sectioned
  obtain ⟨rfl, hne⟩ := ofListing_ok hc hs hg
  refine ⟨fun env d entry he => ?_, fun e he => ?_⟩
  · obtain ⟨b, hb, hentry, hpos⟩ := hc.entryPosition_eq hs hne he
    exact ⟨b, (mem_entries hs).2 hentry, drawn_guides hc hs hb hpos rfl⟩
  · obtain ⟨hlt, hexit⟩ := (mem_edges hc).1 he
    obtain ⟨x, hlast⟩ := hc.exists_last hlt
    obtain ⟨⟨pc, hx⟩, hblock⟩ := hc.mem_stamped_iff_at.1 (List.mem_of_getLast? hlast)
    rw [← hblock] at hlast hexit
    have hend := (hc.isLast_iff hx).2 hlast
    have hpre := exits_prescribed hc hs hx hend hexit
    refine ⟨pc, x, hx, hblock, hend, hpre, fun env c hpc hrun hway htrap => ?_⟩
    subst hpc
    exact hpre.step (Config.current?_eq_some.2 ⟨hrun, hx⟩) hway htrap

/-- The loop of the second function: runs of it keep to the graph, whatever the calls do. -/
theorem Reachable.guided_parity : ∃ l g, Listing.ofProgram parityProgram = .ok l ∧
    FlowGraph.ofListing (ValueNumbering.run .standard l).1 .standard = .ok g ∧
    g.entries = [0, 3] ∧ g.exits = [1, 2, 6] ∧
    (∀ (env : Environment Int32) (d : Data Int32), ∃ b ∈ g.entries,
      g.Guides (ValueNumbering.run .standard l).1 env b
        (start (ValueNumbering.run .standard l).1 (.function "odd") d)) ∧
    ∃ pc x, instrAt? (ValueNumbering.run .standard l).1 pc = some x ∧ x.block = 4 ∧
      Prescribes (ValueNumbering.run .standard l).1 pc x.action ⟨4, 6, .onFalse⟩ := by
  have hok : ((Listing.ofProgram parityProgram).toOption.bind fun l =>
      (FlowGraph.ofListing (ValueNumbering.run .standard l).1 .standard).toOption.map fun g =>
        (g.entries, g.exits, g.edges.contains ⟨4, 6, .onFalse⟩,
          ((ValueNumbering.run .standard l).1.functions.get? "odd").map (·.defined))) =
      some ([0, 3], [1, 2, 6], true, some true) := by decide +kernel
  obtain ⟨l, hl, hok⟩ := toOption_bind_eq_some.1 hok
  obtain ⟨g, hg, hok⟩ := toOption_map_eq_some.1 hok
  simp only [Prod.mk.injEq, List.contains_iff_mem, Option.map_eq_some_iff] at hok
  obtain ⟨hentries, hexits, hedge, f, hf, hdef⟩ := hok
  obtain ⟨hruns, hedges⟩ := Reachable.guided (.numbered .standard (.lowered hl)) hg
  obtain ⟨pc, x, hx, hblock, -, hpre, -⟩ := hedges _ hedge
  exact ⟨l, g, hl, hg, hentries, hexits, fun env d => hruns env d _ ⟨f, hf, hdef⟩,
    pc, x, hx, hblock, hpre⟩

end Listing

end ThreeAddress
