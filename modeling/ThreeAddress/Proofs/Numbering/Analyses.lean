import ThreeAddress.Proofs.DataFlow.Live
import ThreeAddress.Proofs.Numbering.Origins

/-!
Value numbering leaves what the analyses say about blocks unchanged. Reads go and come, but a
computation that becomes a copy has an earlier one in its block that reads the same variables,
and what it reads instead has been assigned in the block. So each block exposes the same
variables, assigns the same ones and some new temporaries, and ends in the same way.
-/

namespace ThreeAddress

open Machine ControlFlow DataFlow

namespace Listing

variable {l : Listing} {v : VarId}

lemma operandUses_ofOperand {o : Operand} {a : Atom} (h : Atom.ofOperand l o = some a) :
    l.operandUses o = a.var?.toList := by
  cases o with
  | int n => cases h; rfl
  | float x => cases h; rfl
  | var v => cases h; rfl
  | instr i =>
    obtain ⟨v, hv, rfl⟩ := Option.map_eq_some_iff.1 h
    simp [operandUses, hv, Atom.var?]
  | _ => cases h

/-- A computation reads the variables of its formula. -/
lemma mem_uses_iff_reads {a : Action} {f : Formula} (h : Formula.ofAction l a = some f) :
    v ∈ l.uses a ↔ f.reads v = true := by
  obtain ⟨op, lhs, rhs, w, left, right, rfl, hleft, hright, rfl⟩ :=
    ValueNumbering.ofAction_eq_some h
  simp [uses, Action.args, Action.arg1, Action.arg2, Action.target, targetUses,
    operandUses_ofOperand hleft, operandUses_ofOperand hright, Formula.reads]

end Listing

/-- A formula that yields a literal reads nothing. -/
lemma Formula.reads_of_fold? {f : Formula} {value : Atom} (h : f.fold? = some value) (v : VarId) :
    f.reads v = false := by
  unfold fold? at h
  split at h
  · rename_i hl _ hr
    simp [reads, hl, hr, Atom.var?]
  · rename_i hl _ hr
    simp [reads, hl, hr, Atom.var?]
  · cases h

namespace Listing

/-- What two listings have in common as far as their blocks go. The second one may have more
temporaries. -/
structure SameBlocks (l l' : Listing) : Prop where
  size : l.vars.size ≤ l'.vars.size
  old : ∀ v < l.vars.size, l'.vars.get? v = l.vars.get? v
  added : ∀ {v x}, l.vars.size ≤ v → l'.vars.get? v = some x →
    x.isTemporary = true ∧ x.marks = .ofPass
  count : l'.blockCount = l.blockCount
  functions : l'.functions = l.functions
  labels : ∀ label, l'.labelBlock? label = l.labelBlock? label
  first : ∀ b, (l'.stamped b).head?.map (·.id) = (l.stamped b).head?.map (·.id)
  last : ∀ b, (l'.stamped b).getLast?.map (·.id) = (l.stamped b).getLast?.map (·.id)
  exits : ∀ b, l'.exits b = l.exits b
  flows : ∀ a b, l'.Flows a b ↔ l.Flows a b
  exposes : ∀ b v, l'.Exposes b v ↔ l.Exposes b v
  assigns : ∀ b, ∀ v < l.vars.size, l'.Assigns b v ↔ l.Assigns b v
  assigned : ∀ {b v}, l.Assigns b v → l'.Assigns b v

namespace SameBlocks

variable {l l' l'' : Listing}

lemma refl (l : Listing) : l.SameBlocks l where
  size := le_rfl
  old _ _ := rfl
  added hv hx := by
    have hlt : _ < l.vars.size := (Array.getElem?_eq_some_iff.1 hx).1
    exact absurd hlt hv.not_gt
  count := rfl
  functions := rfl
  labels _ := rfl
  first _ := rfl
  last _ := rfl
  exits _ := rfl
  flows _ _ := Iff.rfl
  exposes _ _ := Iff.rfl
  assigns _ _ _ := Iff.rfl
  assigned h := h

lemma trans (h : l.SameBlocks l') (h' : l'.SameBlocks l'') : l.SameBlocks l'' where
  size := h.size.trans h'.size
  old v hv := (h'.old v (hv.trans_le h.size)).trans (h.old v hv)
  added {v x} hv hx := by
    by_cases hlt : v < l'.vars.size
    · exact h.added hv ((h'.old v hlt).symm.trans hx)
    · exact h'.added (Nat.le_of_not_lt hlt) hx
  count := h'.count.trans h.count
  functions := h'.functions.trans h.functions
  labels label := (h'.labels label).trans (h.labels label)
  first b := (h'.first b).trans (h.first b)
  last b := (h'.last b).trans (h.last b)
  exits b := (h'.exits b).trans (h.exits b)
  flows a b := (h'.flows a b).trans (h.flows a b)
  exposes b v := (h'.exposes b v).trans (h.exposes b v)
  assigns b v hv := (h'.assigns b v (hv.trans_le h.size)).trans (h.assigns b v hv)
  assigned ha := h'.assigned (h.assigned ha)

/-- What is live stays live, and nothing else is. -/
lemma live_iff (h : l.SameBlocks l') (hl : l.Coherent) {v : VarId} {b : BlockId} :
    l'.Live v b ↔ l.Live v b := by
  constructor
  · intro hlive
    induction hlive with
    | here hexposes => exact .here ((h.exposes _ v).1 hexposes)
    | later hassigns hflows _ ih =>
      exact .later (fun ha => hassigns (h.assigned ha)) ((h.flows _ _).1 hflows) ih
  · intro hlive
    have hv : v < l.vars.size := FlowGraph.live_lt hl hlive
    induction hlive with
    | here hexposes => exact .here ((h.exposes _ v).2 hexposes)
    | later hassigns hflows _ ih =>
      exact .later (fun ha => hassigns ((h.assigns _ v hv).1 ha)) ((h.flows _ _).2 hflows) ih

lemma liveAfter_iff (h : l.SameBlocks l') (hl : l.Coherent) {v : VarId} {b : BlockId} :
    l'.LiveAfter v b ↔ l.LiveAfter v b := by
  unfold LiveAfter
  simp only [h.flows, h.live_iff hl]

end SameBlocks

/-- The first instruction of a block is at its top. -/
lemma Coherent.head?_stamped {l : Listing} (h : l.Coherent) {pc : Nat} {x : Instr}
    (hx : instrAt? l pc = some x)
    (hbefore : ∀ z, instrAt? l (pc - 1) = some z → 0 < pc → z.block ≠ x.block) :
    (l.stamped x.block).head? = some x := by
  rw [← h.remaining_stamped hx hbefore, h.remaining_cons hx]
  rfl

lemma Coherent.top_le {l : Listing} (h : l.Coherent) {pc : Nat} {x : Instr}
    (hx : instrAt? l pc = some x) : l.top x.block ≤ pc := by
  by_contra hlt
  rw [← h.getElem?_instrs] at hx
  obtain ⟨hpc, rfl⟩ := List.getElem?_eq_some_iff.1 hx
  have hnot := List.not_of_lt_findIdx (Nat.lt_of_not_le hlt)
  simp at hnot

lemma Coherent.stamped_nil {l : Listing} (h : l.Coherent) {b : BlockId} (hb : ¬b < l.blockCount) :
    l.stamped b = [] :=
  not_not.1 fun hne => hb (h.bears_iff_lt.1 (h.bears_iff.2 hne))

end Listing

namespace ValueNumbering

open Listing

section

variable {l : Listing} {block : Block} {pre post : List InstrId}
  (h : l.HasBlock block pre post) (t : Toggles) (events : Log)

include h

lemma lt_of_moved_lt {pc q : Nat} (hpc : pc ≤ l.stream.length)
    (hlt : moved t block l events pre pc < moved t block l events pre q) : pc < q := by
  by_contra hle
  obtain rfl | hgt := (Nat.le_of_not_lt hle).eq_or_lt
  · exact lt_irrefl _ hlt
  · exact (moved_lt h t events hgt hpc).not_gt hlt

omit h in
lemma at_lt {pc : Nat} {x : Instr} (hx : instrAt? l pc = some x) : pc < l.stream.length := by
  obtain ⟨i, hi, -⟩ := Option.bind_eq_some_iff.1 hx
  exact (List.getElem?_eq_some_iff.1 hi).1

/-- An instruction is found again at its new position. -/
lemma reshaped_at {pc : Nat} {x : Instr} (hx : instrAt? l pc = some x) :
    ∃ x', instrAt? (scanBlock t (l, events) block).1 (moved t block l events pre pc) = some x' ∧
      x.Reshaped x' := by
  obtain ⟨i, hi, hx⟩ := Option.bind_eq_some_iff.1 hx
  obtain ⟨x', hx', hr⟩ := scanBlock_reshaped h t events hx
  exact ⟨x', by rw [instrAt?_moved h, hi, Option.bind_some, hx'], hr⟩

/-! ### What the scan leaves unchanged -/

lemma scanBlock_count : (scanBlock t (l, events) block).1.blockCount = l.blockCount := by
  have hiff (b : Nat) : b < (scanBlock t (l, events) block).1.blockCount ↔ b < l.blockCount := by
    rw [← (scanBlock_coherent h t events).bears_iff_lt, ← h.coherent.bears_iff_lt]
    exact (scanBlock_retouched h t events).bears b
  exact Nat.le_antisymm (Nat.le_of_not_lt fun hlt => lt_irrefl _ ((hiff _).1 hlt))
    (Nat.le_of_not_lt fun hlt => lt_irrefl _ ((hiff _).2 hlt))

/-- The last instruction of a block stays the last one. -/
lemma scanBlock_last {b : BlockId} {x : Instr} (hlast : (l.stamped b).getLast? = some x) :
    ∃ x', ((scanBlock t (l, events) block).1.stamped b).getLast? = some x' ∧ x.Reshaped x' := by
  obtain ⟨⟨pc, hx⟩, rfl⟩ := h.coherent.mem_stamped_iff_at.1 (List.mem_of_getLast? hlast)
  obtain ⟨i, hi, hinstr⟩ := Option.bind_eq_some_iff.1 hx
  obtain ⟨x', hx', hr⟩ := reshaped_at h t events hx
  refine ⟨x', ?_, hr⟩
  have hend := isLast_moved h t events hi hinstr hr
  rw [(h.coherent.isLast_iff hx).2 hlast,
    (scanBlock_coherent h t events).isLast_iff hx', hr.block] at hend
  exact hend

lemma scanBlock_first {b : BlockId} (hb : b < l.blockCount) :
    ((scanBlock t (l, events) block).1.stamped b).head?.map (·.id) =
      (l.stamped b).head?.map (·.id) := by
  obtain ⟨x, hx, rfl, hstart⟩ := h.coherent.instrAt?_top hb
  obtain ⟨x', hx', hr⟩ := reshaped_at h t events hx
  rw [← hstart, h.coherent.remaining_cons hx, ← hr.block,
    (scanBlock_coherent h t events).head?_stamped hx' fun z hz hpos hblock => ?_]
  · simp [hr.id]
  · -- nothing of the block stands before its top
    have hbefore {pc : Nat} {y : Instr} (hy : instrAt? l pc = some y) (hyb : y.block = x.block)
        (hlt : moved t block l events pre pc < moved t block l events pre (l.top x.block)) :
        False := by
      have htop := h.coherent.top_le hy
      rw [hyb] at htop
      exact htop.not_gt (lt_of_moved_lt h t events (at_lt hy).le hlt)
    obtain ⟨pc, y, hy, hpc, hry⟩ | ⟨c, hc, -, hzb, hlow, -⟩ := scanBlock_at_cases h t events hz
    · exact hbefore hy (hry.block.symm.trans (hblock.trans hr.block)) (by omega)
    · obtain ⟨y, hy, hyb, -⟩ := pending_source h t events hc
      exact hbefore hy (hyb.trans (hzb.symm.trans (hblock.trans hr.block))) (by omega)

lemma scanBlock_exits (b : BlockId) :
    (scanBlock t (l, events) block).1.exits b = l.exits b := by
  have hretouched := scanBlock_retouched h t events
  have hlabel (label : LabelId) :
      (scanBlock t (l, events) block).1.labelBlock? label = l.labelBlock? label :=
    Option.ext fun c => hretouched.labelBlock?_iff h.coherent
  by_cases hb : b < l.blockCount
  · obtain ⟨x, hlast⟩ := h.coherent.exists_last hb
    obtain ⟨x', hlast', hr⟩ := scanBlock_last h t events hlast
    rw [Listing.exits, Listing.exits, hlast, hlast', Option.elim_some, Option.elim_some]
    obtain hact | ⟨op, lhs, rhs, w, o, hact, hact'⟩ := hr.action
    · simp only [hact, hlabel, scanBlock_count h]
    · simp only [hact, hact', scanBlock_count h]
  · have hb' : ¬b < (scanBlock t (l, events) block).1.blockCount := by rwa [scanBlock_count h]
    rw [Listing.exits, Listing.exits, h.coherent.stamped_nil hb,
      (scanBlock_coherent h t events).stamped_nil hb']
    rfl

lemma scanBlock_uses {i : InstrId} {x : Instr} (hx : l.instr? i = some x) :
    (scanBlock t (l, events) block).1.uses x.action = l.uses x.action :=
  uses_congr (h.coherent.inScope hx) fun ho => (scanBlock_reshaped h t events).resolve_eq ho

/-- A variable that an instruction reads first is still read first when the instruction stays. -/
lemma exposes_of_kept {pc : Nat} {x : Instr} {v : VarId} (hx : instrAt? l pc = some x)
    (hkept : instrAt? (scanBlock t (l, events) block).1 (moved t block l events pre pc) = some x)
    (hv : v ∈ l.uses x.action) (hbefore : ∀ q y, q < pc → instrAt? l q = some y →
      y.block = x.block → y.action.targetVar ≠ some v) :
    (scanBlock t (l, events) block).1.Exposes x.block v := by
  obtain ⟨i, hi, hinstr⟩ := Option.bind_eq_some_iff.1 hx
  refine ⟨_, x, hkept, rfl, by rwa [scanBlock_uses h t events hinstr], ?_⟩
  intro q y hlt hy hyb htarget
  obtain ⟨pc', z, hz, rfl, hr⟩ | ⟨c, hc, hact, -⟩ := scanBlock_at_cases h t events hy
  · exact hbefore pc' z (lt_of_moved_lt h t events (at_lt hz).le hlt) hz
      (hr.block.symm.trans hyb) (hr.targetVar.symm.trans htarget)
  · obtain rfl : c.temp = v := by simpa [hact, Place.var?] using htarget
    have hnew := ((finished_sound h t events).pending c hc).1.temp
    exact hnew.not_gt (h.coherent.mentions_lt hinstr (.inl hv))

/-- What a copy in the place of a computation reads has been assigned before, in the block. -/
lemma supplied_assigned {j : Nat} {f : Formula} {o : Operand} {v : VarId}
    (hj : j < block.instrs.length) (hsupplies : Supplies l (scanBlock t (l, events) block).1
      block.instrs (finished t block l events).pending j f o)
    (hv : v ∈ (scanBlock t (l, events) block).1.operandUses o) :
    ∃ q y, q < moved t block l events pre (pre.length + j) ∧
      instrAt? (scanBlock t (l, events) block).1 q = some y ∧ y.block = block.id ∧
      y.action.targetVar = some v := by
  have hlen : pre.length + j < l.stream.length := by
    rw [h.stream]
    simp only [List.length_append]
    omega
  cases hsupplies with
  | @literal value hlit =>
    have hnone := var?_of_fold? hlit
    cases value with
    | var w => cases hnone
    | _ => simp [Atom.operand, operandUses, resolve] at hv
  | @holder w k horigin =>
    obtain rfl : v = w := by simpa [operandUses, resolve] using hv
    obtain ⟨x, -, hb, hkept, -, htarget⟩ := horigin.exists_at h
    exact ⟨_, x, moved_lt h t events (Nat.add_lt_add_left horigin.lt _) hlen.le, hkept, hb, htarget⟩
  | @copied c horigin hc =>
    obtain rfl : v = c.temp := by simpa [operandUses, resolve] using hv
    obtain ⟨n, hn⟩ := List.mem_iff_getElem?.1 hc
    obtain ⟨q, hq, -, hhigh⟩ := scanBlock_copy_at h t events hn
    obtain ⟨ty, hcopy⟩ := scanBlock_copy h t events hn
    refine ⟨q, _, ?_, by rw [instrAt?, hq, Option.bind_some, hcopy], rfl, rfl⟩
    refine hhigh.trans_le ?_
    obtain heq | hlt := (Nat.add_le_add_left (Nat.succ_le_of_lt horigin.lt) pre.length).eq_or_lt
    · exact (congrArg _ heq).le
    · exact (moved_lt h t events hlt hlen.le).le

/-- Each block exposes the same variables as before. -/
lemma scanBlock_exposes (b : BlockId) (v : VarId) :
    (scanBlock t (l, events) block).1.Exposes b v ↔ l.Exposes b v := by
  constructor
  · rintro ⟨q, y, hy, rfl, hv, hbefore⟩
    obtain ⟨pc, x, hx, rfl, hr⟩ | ⟨c, hc, hact, hyb, hlow, -⟩ := scanBlock_at_cases h t events hy
    · obtain hkept | ⟨j, f, w, o, rfl, hj, hb, -, -, hcopy, hsupplies⟩ := scanBlock_at h t events hx
      · obtain rfl := Option.some.inj (hy.symm.trans hkept)
        obtain ⟨i, hi, hinstr⟩ := Option.bind_eq_some_iff.1 hx
        refine ⟨pc, y, hx, rfl, by rwa [scanBlock_uses h t events hinstr] at hv, ?_⟩
        intro pc' z hlt hz hzb htarget
        obtain ⟨z', hz', hr'⟩ := reshaped_at h t events hz
        exact hbefore _ z' (moved_lt h t events hlt (at_lt hx).le) hz' (hr'.block.trans hzb)
          (hr'.targetVar.trans htarget)
      · obtain rfl := Option.some.inj (hy.symm.trans hcopy)
        have hv : v ∈ (scanBlock t (l, events) block).1.operandUses o := by
          simpa [uses, Action.args, Action.arg1, Action.arg2, Action.target, Place.operand,
            targetUses] using hv
        obtain ⟨q, z, hlt, hz, hzb, htarget⟩ := supplied_assigned h t events hj hsupplies hv
        exact absurd htarget (hbefore q z hlt hz (hzb.trans hb.symm))
    · obtain rfl : v = c.source := by
        simpa [hact, uses, Action.args, Action.arg1, Action.arg2, Action.target, Place.operand,
          targetUses, operandUses, resolve] using hv
      obtain ⟨x, hx, hb, htarget⟩ := pending_source h t events hc
      obtain ⟨x', hx', hr⟩ := reshaped_at h t events hx
      exact absurd (hr.targetVar.trans htarget)
        (hbefore _ x' hlow hx' (hr.block.trans (hb.trans hyb.symm)))
  · rintro ⟨pc, x, hx, rfl, hv, hbefore⟩
    obtain hkept | ⟨j, f, w, o, rfl, hj, hb, hf, -, -, hsupplies⟩ := scanBlock_at h t events hx
    · exact exposes_of_kept h t events hx hkept hv hbefore
    · -- the computation that is kept reads the same variables, and earlier
      have hreads := (mem_uses_iff_reads hf).1 hv
      have horigin : ∃ k u, Origin l (scanBlock t (l, events) block).1 block.instrs j f k u := by
        cases hsupplies with
        | literal hlit =>
          rw [Formula.reads_of_fold? hlit] at hreads
          cases hreads
        | holder horigin => exact ⟨_, _, horigin⟩
        | copied horigin _ => exact ⟨_, _, horigin⟩
      obtain ⟨k, u, horigin⟩ := horigin
      obtain ⟨z, hz, hzb, hkept, hfz, -⟩ := horigin.exists_at h
      have hblock : z.block = x.block := hzb.trans hb.symm
      rw [← hblock] at hbefore ⊢
      refine exposes_of_kept h t events hz hkept ((mem_uses_iff_reads hfz).2 hreads) ?_
      exact fun q y hlt => hbefore q y (hlt.trans (Nat.add_lt_add_left horigin.lt _))

lemma scanBlock_assigned {b : BlockId} {v : VarId} (ha : l.Assigns b v) :
    (scanBlock t (l, events) block).1.Assigns b v := by
  obtain ⟨pc, x, hx, hb, htarget⟩ := ha
  obtain ⟨x', hx', hr⟩ := reshaped_at h t events hx
  exact ⟨_, x', hx', hr.block.trans hb, hr.targetVar.trans htarget⟩

/-- The new assignments are those of the copies. -/
lemma scanBlock_assigns {b : BlockId} {v : VarId} (hv : v < l.vars.size) :
    (scanBlock t (l, events) block).1.Assigns b v ↔ l.Assigns b v := by
  refine ⟨fun ⟨q, y, hy, hb, htarget⟩ => ?_, scanBlock_assigned h t events⟩
  obtain ⟨pc, x, hx, -, hr⟩ | ⟨c, hc, hact, -⟩ := scanBlock_at_cases h t events hy
  · exact ⟨pc, x, hx, hr.block.symm.trans hb, hr.targetVar.symm.trans htarget⟩
  · obtain rfl : c.temp = v := by simpa [hact, Place.var?] using htarget
    exact absurd hv ((finished_sound h t events).pending c hc).1.temp.not_gt

lemma scanBlock_sameBlocks : l.SameBlocks (scanBlock t (l, events) block).1 := by
  have hretouched := scanBlock_retouched h t events
  refine ⟨scanBlock_vars_le h t events, fun v hv => scanBlock_vars_old h t events hv, ?_,
    scanBlock_count h t events, hretouched.functions,
    fun label => Option.ext fun c => hretouched.labelBlock?_iff h.coherent, fun b => ?_,
    fun b => ?_, scanBlock_exits h t events, fun a b => hretouched.flows_iff h.coherent,
    scanBlock_exposes h t events, fun b v hv => scanBlock_assigns h t events hv,
    scanBlock_assigned h t events⟩
  · intro v x hv hx
    have hlt : v < (scanBlock t (l, events) block).1.vars.size :=
      (Array.getElem?_eq_some_iff.1 hx).1
    obtain ⟨c, hc, rfl⟩ := scanBlock_vars_new h t events hv hlt
    obtain ⟨y, hy, htemp, hmarks, -⟩ := scanBlock_temp h t events hc
    obtain rfl := Option.some.inj (hx.symm.trans hy)
    exact ⟨htemp, hmarks⟩
  · by_cases hb : b < l.blockCount
    · exact scanBlock_first h t events hb
    · rw [h.coherent.stamped_nil hb,
        (scanBlock_coherent h t events).stamped_nil (by rwa [scanBlock_count h])]
  · by_cases hb : b < l.blockCount
    · obtain ⟨x, hlast⟩ := h.coherent.exists_last hb
      obtain ⟨x', hlast', hr⟩ := scanBlock_last h t events hlast
      simp [hlast, hlast', hr.id]
    · rw [h.coherent.stamped_nil hb,
        (scanBlock_coherent h t events).stamped_nil (by rwa [scanBlock_count h])]

end

lemma Remaining.sameBlocks {blocks : List Block} {l : Listing} (h : Remaining blocks l)
    (t : Toggles) (events : Log) (changed : Bool) :
    l.SameBlocks (blocks.foldl (scanNext t) (l, events, changed)).1 := by
  refine h.invariant (P := l.SameBlocks) (fun hb events' hsame => ?_) events changed (.refl l)
  exact hsame.trans (scanBlock_sameBlocks hb t events')

end ValueNumbering

/-! ### Graphs -/

/-- Two blocks with the same ends that expose the same variables. What only the second one assigns
is a temporary that a pass has added. -/
structure Block.Alike (l l' : Listing) (block block' : Block) : Prop where
  id : block'.id = block.id
  first : block'.first? = block.first?
  last : block'.last? = block.last?
  exposed : ∀ v, block'.exposed.contains v = block.exposed.contains v
  defs : ∀ v, block.defs.contains v = true → block'.defs.contains v = true
  added : ∀ v, block'.defs.contains v = true → block.defs.contains v = false →
    l.vars.size ≤ v ∧ ∃ x, l'.vars.get? v = some x ∧ x.isTemporary = true ∧ x.marks = .ofPass

namespace FlowGraph

open Listing

/-- Two graphs tell the same about their blocks. New temporaries are live in no block's sets. -/
structure SameAnalyses (g g' : FlowGraph) : Prop where
  blockCount : g'.blockCount = g.blockCount
  blocks : ∀ (b : BlockId) (block : Block), g.blocks[b]? = some block →
    ∃ block', g'.blocks[b]? = some block' ∧ block.Alike g.listing g'.listing block'
  graph : g'.graph = g.graph
  edges : g'.edges = g.edges
  entries : g'.entries = g.entries
  exits : g'.exits = g.exits
  dominators : g'.dominators = g.dominators
  dominatorsFromEntry : g'.dominatorsFromEntry = g.dominatorsFromEntry
  liveness : ∃ live live' : Liveness, g.liveness = .ok live ∧ g'.liveness = .ok live' ∧
    (∀ strategy, g.livenessBy strategy = .ok live ∧ g'.livenessBy strategy = .ok live') ∧
    ∀ b < g.blockCount, ∃ before before' after after' : BitSet, live.liveIn[b]? = some before ∧
      live'.liveIn[b]? = some before' ∧ live.liveOut[b]? = some after ∧
      live'.liveOut[b]? = some after' ∧
      ∀ v, before'.contains v = before.contains v ∧ after'.contains v = after.contains v ∧
        (g.listing.vars.size ≤ v → before'.contains v = false ∧ after'.contains v = false)

section

variable {l l' : Listing} (h : l.SameBlocks l') (hl : l.Coherent) (hl' : l'.Coherent)

include h hl hl'

lemma block_alike {b : BlockId} (hb : b < l.blockCount) :
    (Block.ofInstrs l (l.stamped b)).Alike l l' (Block.ofInstrs l' (l'.stamped b)) := by
  have hb' : b < l'.blockCount := h.count ▸ hb
  refine ⟨?_, ?_, ?_, fun v => ?_, fun v hv => ?_, fun v hv hnot => ?_⟩
  · rw [hl.ofInstrs_id hb, hl'.ofInstrs_id hb']
  · simpa [Block.first?, Block.ofInstrs] using h.first b
  · simpa [Block.last?, Block.ofInstrs] using h.last b
  · rw [Bool.eq_iff_iff, hl.contains_exposed, hl'.contains_exposed]
    exact h.exposes b v
  · rw [hl.contains_defs] at hv
    rw [hl'.contains_defs]
    exact h.assigned hv
  · rw [hl'.contains_defs] at hv
    rw [← Bool.not_eq_true, hl.contains_defs] at hnot
    have hge : l.vars.size ≤ v := Nat.le_of_not_lt fun hlt => hnot ((h.assigns b v hlt).1 hv)
    obtain ⟨pc, x, hx, -, htarget⟩ := hv
    obtain ⟨i, -, hx⟩ := Option.bind_eq_some_iff.1 hx
    have hv : v < l'.vars.size := (hl'.inScope hx).targetVar_lt htarget
    have hget : l'.vars.get? v = some l'.vars.vars[v] := Array.getElem?_eq_getElem hv
    exact ⟨hge, _, hget, h.added hge hget⟩

lemma drawn_sameAnalyses (hs : l.Sectioned) (hs' : l'.Sectioned) (settings : AnalysisSettings) :
    (drawn l settings).SameAnalyses (drawn l' settings) := by
  have hcount : (drawn l' settings).blockCount = (drawn l settings).blockCount := by
    rw [blockCount_drawn hl', blockCount_drawn hl, h.count]
  have hgraph : (drawn l' settings).graph = (drawn l settings).graph := by
    have hfrom : edgesFrom l' = edgesFrom l := by
      funext b
      rw [edgesFrom, edgesFrom, h.exits]
    simp only [drawn, h.count, hfrom]
  have hentries : (drawn l' settings).entries = (drawn l settings).entries := by
    simp only [drawn, entriesOf, h.functions, h.labels]
  refine ⟨hcount, fun b block hb => ?_, hgraph, ?_, hentries, ?_, ?_, ?_, ?_⟩
  · have hb : l.blocks[b]? = some block := by simpa [drawn] using hb
    obtain ⟨hlt, rfl⟩ := hl.eq_of_getElem?_blocks hb
    refine ⟨_, ?_, block_alike h hl hl' hlt⟩
    simpa [drawn] using hl'.getElem?_blocks (h.count ▸ hlt)
  · rw [edges_drawn hl, edges_drawn hl', h.count]
    unfold outgoing
    rw [hgraph]
  · rw [exits, exits, ids_drawn hl, ids_drawn hl', h.count]
    simp only [succ, hgraph]
  · rw [dominators, dominators, hgraph, hentries]
  · unfold dominatorsFromEntry succ pred entry
    rw [hcount, hgraph]
  · obtain ⟨live, hlive, hby, hsets⟩ := liveness_eq hl hs settings
    obtain ⟨live', hlive', hby', hsets'⟩ := liveness_eq hl' hs' settings
    refine ⟨live, live', hlive, hlive', fun strategy => ⟨hby strategy, hby' strategy⟩,
      fun b hb => ?_⟩
    rw [blockCount_drawn hl] at hb
    obtain ⟨before, after, hbefore, hafter, hmem⟩ := hsets b hb
    obtain ⟨before', after', hbefore', hafter', hmem'⟩ := hsets' b (h.count ▸ hb)
    refine ⟨before, before', after, after', hbefore, hbefore', hafter, hafter', fun v =>
      ⟨?_, ?_, fun hv => ?_⟩⟩
    · rw [Bool.eq_iff_iff, (hmem v).1, (hmem' v).1, h.live_iff hl]
    · rw [Bool.eq_iff_iff, (hmem v).2, (hmem' v).2, h.liveAfter_iff hl]
    · rw [← Bool.not_eq_true, ← Bool.not_eq_true, (hmem' v).1, (hmem' v).2, h.live_iff hl,
        h.liveAfter_iff hl]
      exact ⟨fun hlive => hv.not_gt (live_lt hl hlive),
        fun hlive => hv.not_gt (liveAfter_lt hl hlive)⟩

end

end FlowGraph

namespace Listing

open ValueNumbering FlowGraph

/-- **The analyses are stable.** One more run of value numbering changes nothing that they say
about blocks. -/
theorem Reachable.sameAnalyses {l : Listing} (h : l.Reachable) (hne : l.stream ≠ [])
    (t : Toggles) (settings : AnalysisSettings) : ∃ g g', ofListing l settings = .ok g ∧
      ofListing (ValueNumbering.run t l).1 settings = .ok g' ∧ g.listing = l ∧
      g'.listing = (ValueNumbering.run t l).1 ∧ g.SameAnalyses g' := by
  have hl := h.coherent
  have hs := h.sectioned
  have hl' := (Reachable.numbered t h).coherent
  have hs' := (Reachable.numbered t h).sectioned
  have hsame : l.SameBlocks (ValueNumbering.run t l).1 := (Remaining.start hl).sameBlocks t [] false
  have hne' : (ValueNumbering.run t l).1.stream ≠ [] := by
    intro hnil
    have hcount := hsame.count
    rw [hl.blockCount_eq hne] at hcount
    simp [blockCount, instrs, hnil] at hcount
    omega
  exact ⟨_, _, ofListing_eq hl hs hne settings, ofListing_eq hl' hs' hne' settings, rfl, rfl,
    drawn_sameAnalyses hsame hl hl' hs hs' settings⟩

/-- The run adds a temporary, assigned in the block and live in neither of its sets. -/
theorem Reachable.sameAnalyses_twoQuotients : ∃ l g g',
    Listing.ofProgram twoQuotients = .ok l ∧ ofListing l .standard = .ok g ∧
    ofListing (ValueNumbering.run .standard l).1 .standard = .ok g' ∧ g.SameAnalyses g' ∧
    g.listing.vars.size = 4 ∧ g'.listing.vars.size = 5 := by
  have hok : ((Listing.ofProgram twoQuotients).toOption.map fun l =>
      (l.stream.isEmpty, l.vars.size, (ValueNumbering.run .standard l).1.vars.size)) =
      some (false, 4, 5) := by decide +kernel
  obtain ⟨l, hl, hok⟩ := toOption_map_eq_some.1 hok
  simp only [Prod.mk.injEq] at hok
  obtain ⟨hne, hsize, hsize'⟩ := hok
  obtain ⟨g, g', hg, hg', rfl, hlisting, hsame⟩ :=
    Reachable.sameAnalyses (.lowered hl) (by simpa using hne) .standard .standard
  exact ⟨_, g, g', hl, hg, hg', hsame, hsize, hlisting ▸ hsize'⟩

end Listing

end ThreeAddress
