import ThreeAddress.Proofs.ControlFlow.Edges

/-!
Two runs of one listing that start with different variables. As long as the variables agree
that are read before they are assigned, the runs go through the same positions and nothing that
is seen tells them apart.

What each block leaves to its successors is given by any predicate that is closed under the flow
of control. The variables needed at a position follow from it by walking back from the end of
the block.
-/

namespace ThreeAddress

open Machine

namespace Listing

variable {l : Listing}

/-- The variables that instructions read before they assign them, and those `wanted` afterwards
that they do not assign. -/
def Needs (l : Listing) (wanted : VarId → Prop) : List Instr → VarId → Prop
  | [], v => wanted v
  | x :: rest, v => v ∈ l.uses x.action ∨ x.action.targetVar ≠ some v ∧ l.Needs wanted rest v

/-- The instructions of a block from a position on. -/
def remaining (l : Listing) (b : BlockId) (pc : Nat) : List Instr :=
  (l.instrs.drop pc).filter (·.block == b)

/-! ### Positions in a block -/

lemma stamped_split (l : Listing) (b : BlockId) (pc : Nat) :
    l.stamped b = (l.instrs.take pc).filter (·.block == b) ++ l.remaining b pc := by
  rw [stamped, remaining, ← List.filter_append, List.take_append_drop]

section

variable (h : l.Coherent) {pc q : Nat} {x y z : Instr} {b : BlockId}

include h

lemma Coherent.block_le (hz : instrAt? l q = some z) (hy : instrAt? l pc = some y)
    (hle : q ≤ pc) : z.block ≤ y.block := by
  rw [← h.getElem?_instrs] at hz hy
  obtain ⟨hq, rfl⟩ := List.getElem?_eq_some_iff.1 hz
  obtain ⟨hpc, rfl⟩ := List.getElem?_eq_some_iff.1 hy
  obtain rfl | hlt := hle.eq_or_lt
  · exact le_rfl
  · exact List.pairwise_iff_getElem.1 h.sorted q pc hq hpc hlt

/-- The instructions before a position stand at the positions before it. -/
lemma Coherent.mem_take_iff : z ∈ l.instrs.take pc ↔ ∃ q < pc, instrAt? l q = some z := by
  simp [List.mem_iff_getElem?, List.getElem?_take, h.getElem?_instrs]

lemma Coherent.remaining_cons (hx : instrAt? l pc = some x) :
    l.remaining x.block pc = x :: l.remaining x.block (pc + 1) := by
  rw [← h.getElem?_instrs] at hx
  obtain ⟨hlt, rfl⟩ := List.getElem?_eq_some_iff.1 hx
  rw [remaining, List.drop_eq_getElem_cons hlt, List.filter_cons_of_pos (by simp), remaining]

/-- Nothing remains of a block when the next instruction belongs to another. -/
lemma Coherent.remaining_nil (hx : instrAt? l pc = some x)
    (hnext : ∀ y, instrAt? l (pc + 1) = some y → y.block ≠ x.block) :
    l.remaining x.block (pc + 1) = [] := by
  refine List.filter_eq_nil_iff.2 fun z hz => ?_
  obtain ⟨k, hk⟩ := List.mem_iff_getElem?.1 hz
  rw [List.getElem?_drop, h.getElem?_instrs] at hk
  have hlt : pc + 1 < l.instrs.length := by
    rw [← h.getElem?_instrs] at hk
    have := (List.getElem?_eq_some_iff.1 hk).1
    omega
  obtain ⟨y, hy⟩ : ∃ y, instrAt? l (pc + 1) = some y :=
    ⟨l.instrs[pc + 1], by rw [← h.getElem?_instrs, List.getElem?_eq_getElem hlt]⟩
  have hxy := h.block_le hx hy (Nat.le_succ pc)
  have hyz := h.block_le hy hk (Nat.le_add_right _ _)
  simp only [beq_iff_eq]
  exact fun heq => hnext y hy (Nat.le_antisymm (hyz.trans heq.le) hxy)

/-- All of a block remains where it starts. -/
lemma Coherent.remaining_stamped (hy : instrAt? l pc = some y)
    (hbefore : ∀ z, instrAt? l (pc - 1) = some z → 0 < pc → z.block ≠ y.block) :
    l.remaining y.block pc = l.stamped y.block := by
  have hnone : (l.instrs.take pc).filter (·.block == y.block) = [] := by
    refine List.filter_eq_nil_iff.2 fun z hz => ?_
    obtain ⟨q, hlt, hq⟩ := h.mem_take_iff.1 hz
    obtain ⟨w, hw⟩ : ∃ w, instrAt? l (pc - 1) = some w := by
      rw [← h.getElem?_instrs] at hy
      have := (List.getElem?_eq_some_iff.1 hy).1
      exact ⟨l.instrs[pc - 1], by rw [← h.getElem?_instrs, List.getElem?_eq_getElem (by omega)]⟩
    have hzw := h.block_le hq hw (by omega)
    have hwy := h.block_le hw hy (by omega)
    simp only [beq_iff_eq]
    exact fun heq => hbefore w hw (by omega) (Nat.le_antisymm hwy (heq.ge.trans hzw))
  rw [l.stamped_split y.block pc, hnone, List.nil_append]

lemma Coherent.follows_at (hx : instrAt? l pc = some x) (hy : instrAt? l (pc + 1) = some y) :
    x.Follows y := by
  obtain ⟨i, hi, hx⟩ := Option.bind_eq_some_iff.1 hx
  obtain ⟨j, hj, hy⟩ := Option.bind_eq_some_iff.1 hy
  exact h.follows hi hj hx hy

/-- A label starts its block. -/
lemma Coherent.block_ne_of_label {label : LabelId} (hy : instrAt? l pc = some y)
    (hlabel : y.action = .label label) (hz : instrAt? l (pc - 1) = some z) (hpos : 0 < pc) :
    z.block ≠ y.block := by
  obtain ⟨k, rfl⟩ := Nat.exists_eq_succ_of_ne_zero hpos.ne'
  rw [Nat.succ_sub_one] at hz
  have hfollows := h.follows_at hz hy
  rw [Instr.Follows, Instr.cuts, hlabel] at hfollows
  simp only [Action.definedLabel, Option.isSome_some, Bool.or_true, if_true] at hfollows
  rw [hfollows]
  exact (Nat.succ_ne_self _).symm

lemma Coherent.getLast?_of_remaining_nil (hx : instrAt? l pc = some x)
    (hnil : l.remaining x.block (pc + 1) = []) : (l.stamped x.block).getLast? = some x := by
  rw [l.stamped_split x.block pc, h.remaining_cons hx, hnil]
  simp

/-- A label is placed where control goes for it. -/
lemma Coherent.instrAt?_position {label : LabelId} (hb : l.labelBlock? label = some b) :
    ∃ y, instrAt? l (position l label) = some y ∧ y.action = .label label ∧ y.block = b := by
  obtain ⟨info, site, y, hinfo, hsite, hy, hblock⟩ := labelBlock?_eq_some.1 hb
  obtain ⟨y', hy', hact⟩ := h.sites hinfo hsite
  obtain rfl : y = y' := Option.some.inj (hy.symm.trans hy')
  have hmem : site ∈ l.stream := h.mem_stream.2 (Lower.instr?_lt hy)
  have hpos : position l label = l.stream.idxOf site := by simp [position, hinfo, hsite]
  refine ⟨y, ?_, hact, hblock⟩
  rw [instrAt?, hpos, List.getElem?_eq_getElem (List.idxOf_lt_length_iff.2 hmem),
    List.getElem_idxOf, Option.bind_some, hy]

end

/-! ### Variables needed along the flow -/

/-- Closed under the flow of control: what a successor needs at its start is wanted at the end
of a block. -/
def Closed (l : Listing) (wanted : BlockId → VarId → Prop) : Prop :=
  ∀ a b v, l.Flows a b → l.Needs (wanted b) (l.stamped b) v → wanted a v

/-- All that is needed at a position is needed by the rest of a block. -/
def Covers (l : Listing) (wanted : BlockId → VarId → Prop) (b : BlockId) (rest : List Instr)
    (pc : Nat) : Prop :=
  ∀ y, instrAt? l pc = some y →
    ∀ v, l.Needs (wanted y.block) (l.remaining y.block pc) v → l.Needs (wanted b) rest v

section

variable {wanted : BlockId → VarId → Prop} (hw : l.Closed wanted) (h : l.Coherent)
  (hs : l.Sectioned) {pc : Nat} {x y : Instr}

include hw h

lemma Closed.covers_fall (hx : instrAt? l pc = some x)
    (hpath : x.action.operator.endsPath = false) :
    l.Covers wanted x.block (l.remaining x.block (pc + 1)) (pc + 1) := by
  intro y hy
  by_cases hsame : y.block = x.block
  · rw [hsame]
    exact fun v hv => hv
  · have hnil := h.remaining_nil hx fun z hz => by
      obtain rfl := Option.some.inj (hy.symm.trans hz)
      exact hsame
    have hstart := h.remaining_stamped hy fun z hz _ => by
      obtain rfl := Option.some.inj (hx.symm.trans hz)
      exact Ne.symm hsame
    have hf : l.Flows x.block y.block := by
      refine (h.flows_iff (h.getLast?_of_remaining_nil hx hnil)).2 (.inl ?_)
      have hfollows := h.follows_at hx hy
      rw [Instr.Follows] at hfollows
      split at hfollows
      · refine ⟨hfollows, hfollows ▸ ?_, hpath⟩
        obtain ⟨i, -, hi⟩ := Option.bind_eq_some_iff.1 hy
        exact h.bears_iff_lt.1 ⟨i, y, hi, rfl⟩
      · exact absurd hfollows hsame
    rw [hnil, hstart]
    exact fun v hv => hw _ _ v hf hv

include hs

lemma Closed.covers_goto {label : LabelId} (hx : instrAt? l pc = some x)
    (ht : x.action.branchTarget = some label) :
    l.Covers wanted x.block (l.remaining x.block (pc + 1)) (position l label) := by
  intro y hy
  obtain ⟨i, -, hi⟩ := Option.bind_eq_some_iff.1 hx
  obtain ⟨-, c, hc, -⟩ := hs.branch hi ht
  obtain ⟨y', hy', hact, rfl⟩ := h.instrAt?_position hc
  obtain rfl := Option.some.inj (hy'.symm.trans hy)
  have hnil := h.remaining_nil hx fun z hz => by
    have hfollows := h.follows_at hx hz
    have hends : x.action.operator.endsBlock = true := by
      cases hact : x.action <;> simp_all [Action.branchTarget, Action.operator, Operator.endsBlock]
    rw [Instr.Follows, Instr.cuts, hends, Bool.true_or, if_pos rfl] at hfollows
    rw [hfollows]
    exact Nat.succ_ne_self _
  have hstart := h.remaining_stamped hy fun z => h.block_ne_of_label hy hact
  rw [hnil, hstart]
  exact fun v hv => hw _ _ v (.branch hi ht hc) hv

end

end Listing

namespace Machine

variable {W : Type} {l : Listing} {live : VarId → Prop} {d d' : Data W}

/-! ### Actions -/

/-- The same data, except for variables that are not `live`. -/
structure Data.Alike (live : VarId → Prop) (d d' : Data W) : Prop where
  vars : ∀ v, live v → d'.vars v = d.vars v
  arrays : d'.arrays = d.arrays
  world : d'.world = d.world
  pushed : d'.pushed = d.pushed
  incoming : d'.incoming = d.incoming

namespace Data.Alike

lemma mono (h : d.Alike live d') {live' : VarId → Prop} (hv : ∀ v, live' v → live v) :
    d.Alike live' d' :=
  { h with vars := fun v hlive => h.vars v (hv v hlive) }

lemma set (h : d.Alike live d') (w : VarId) (x : Value) :
    (d.set w x).Alike (fun v => v = w ∨ live v) (d'.set w x) := by
  refine ⟨fun v hv => ?_, h.arrays, h.world, h.pushed, h.incoming⟩
  by_cases heq : v = w
  · subst heq
    simp [Data.set]
  · simp [Data.set, heq, h.vars v (hv.resolve_left heq)]

end Data.Alike

lemma read_alike (h : d.Alike live d') {o : Operand} (ho : ∀ v ∈ l.operandUses o, live v) :
    d'.read l o = d.read l o := by
  induction o with
  | var v => exact h.vars v (ho v (by simp [Listing.operandUses, Listing.resolve]))
  | elem a index ih => rw [Data.read, Data.read, ih ho, h.arrays]
  | instr i =>
    rw [Data.read, Data.read]
    cases hv : l.resolve (.instr i) with
    | none => rfl
    | some v => exact h.vars v (ho v (by simp [Listing.operandUses, hv]))
  | _ => rfl

/-- The outcome of an action on data that agree on what it reads. After a trap the target is not
assigned. -/
structure Outcome.Alike (live : VarId → Prop) (a : Action) (o o' : Outcome W) : Prop where
  data : o.data.Alike live o'.data
  target : o.transfer ≠ .trapped → ∀ v, a.targetVar = some v → o'.data.vars v = o.data.vars v
  seen : o'.seen = o.seen
  transfer : o'.transfer = o.transfer

lemma Outcome.alike_of_set {a : Action} {w : VarId} (ha : a.targetVar = some w)
    (h : d.Alike live d') (x : Value) (seen : List Observation) :
    Outcome.Alike live a ⟨d.set w x, seen, .fall⟩ ⟨d'.set w x, seen, .fall⟩ where
  data := (h.set w x).mono fun _ => .inr
  target _ v hv := (h.set w x).vars v (.inl (Option.some.inj (hv.symm.trans ha)))
  seen := rfl
  transfer := rfl

lemma perform_alike (env : Environment W) (h : d.Alike live d') {a : Action}
    (huses : ∀ v ∈ l.uses a, live v) :
    (perform l env d a).Alike live a (perform l env d' a) := by
  have hread {o : Operand} (ho : o ∈ a.args) : d'.read l o = d.read l o := by
    refine read_alike h fun v hv => huses v ?_
    exact List.mem_append_left _ (List.mem_flatMap.2 ⟨o, ho, hv⟩)
  cases a with
  | compute op lhs rhs w =>
    simp only [perform, hread (o := lhs) (by simp [Action.args, Action.arg1]),
      hread (o := rhs) (by simp [Action.args, Action.arg2])]
    cases Value.binary op (d.read l lhs) (d.read l rhs) with
    | none => exact ⟨h, fun htrap => absurd rfl htrap, rfl, rfl⟩
    | some x => exact Outcome.alike_of_set rfl h x []
  | apply op o w =>
    simp only [perform, hread (o := o) (by simp [Action.args, Action.arg1])]
    exact Outcome.alike_of_set rfl h _ []
  | copy value target =>
    have hvalue := hread (o := value) (by simp [Action.args, Action.arg1])
    cases target with
    | var w =>
      simp only [perform, hvalue]
      exact Outcome.alike_of_set rfl h _ []
    | elem b index =>
      have hindex : d'.read l index = d.read l index := by
        refine read_alike h fun v hv => huses v ?_
        exact List.mem_append_right _ hv
      simp only [perform, hvalue, hindex]
      exact ⟨⟨h.vars, by simp [Data.store, h.arrays], h.world, h.pushed, h.incoming⟩,
        fun _ v hv => by simp [Place.var?] at hv, rfl, rfl⟩
  | label t => exact ⟨h, fun _ v hv => by simp [Action.targetVar, Action.target] at hv, rfl, rfl⟩
  | jump t => exact ⟨h, fun _ v hv => by simp [Action.targetVar, Action.target] at hv, rfl, rfl⟩
  | jumpFalse cond t =>
    simp only [perform, hread (o := cond) (by simp [Action.args, Action.arg1])]
    split <;> exact ⟨h, fun _ v hv => by simp [Action.targetVar, Action.target] at hv, rfl, rfl⟩
  | push value =>
    simp only [perform, hread (o := value) (by simp [Action.args, Action.arg1]), h.pushed]
    exact ⟨⟨h.vars, h.arrays, h.world, rfl, h.incoming⟩,
      fun _ v hv => by simp [Action.targetVar, Action.target] at hv, rfl, rfl⟩
  | call callee target =>
    simp only [perform, h.world, h.pushed, h.arrays]
    have hafter (w : W) (arrays : ArrayStore) : Data.Alike live
        { d with world := w, arrays := arrays, pushed := [] }
        { d' with world := w, arrays := arrays, pushed := [] } :=
      ⟨h.vars, rfl, rfl, rfl, h.incoming⟩
    cases target with
    | none => exact ⟨hafter _ _, fun _ v hv => by simp at hv, rfl, rfl⟩
    | some w => exact Outcome.alike_of_set rfl (hafter _ _) _ _
  | param w =>
    have hset := Outcome.alike_of_set (a := .param w) rfl h (d.incoming.headD .void) []
    simp only [perform, Data.bindParam, h.incoming]
    exact ⟨⟨hset.data.vars, h.arrays, h.world, h.pushed, rfl⟩, hset.target, rfl, rfl⟩
  | ret value =>
    have hvalue : value.map (d'.read l) = value.map (d.read l) := by
      cases value with
      | none => rfl
      | some o => simp [hread (o := o) (by simp [Action.args, Action.arg1])]
    simp only [perform, hvalue]
    exact ⟨h, fun _ v hv => by simp [Action.targetVar, Action.target] at hv, rfl, rfl⟩

lemma perform_goto {env : Environment W} {a : Action} {label : LabelId}
    (h : (perform l env d a).transfer = .goto label) : a.branchTarget = some label := by
  cases a with
  | compute op lhs rhs w =>
    simp only [perform] at h
    split at h <;> cases h
  | copy value target => cases target <;> cases h
  | jump t =>
    cases h
    rfl
  | jumpFalse cond t =>
    simp only [perform] at h
    split at h <;> cases h
    rfl
  | _ => cases h

lemma perform_fall {env : Environment W} {a : Action}
    (h : (perform l env d a).transfer = .fall) : a.operator.endsPath = false := by
  cases a with
  | jump t => cases h
  | ret value => cases h
  | _ => rfl

/-! ### Runs -/

/-- Two runs at the same position, which have been alike so far and will be. -/
structure Lockstep (l : Listing) (wanted : BlockId → VarId → Prop) (c c' : Config W) : Prop where
  log : c'.log.map (·.below 0) = c.log.map (·.below 0)
  running : c'.running = c.running
  pc : c'.pc = c.pc
  data : c.data.Alike (fun v => c.running = true ∧ ∃ x, instrAt? l c.pc = some x ∧
    l.Needs (wanted x.block) (l.remaining x.block c.pc) v) c'.data

section

variable {wanted : BlockId → VarId → Prop} (hw : l.Closed wanted) (h : l.Coherent)
  (hs : l.Sectioned)

include hw h hs

/-- The variables needed next are among those that the rest of the block needs. -/
lemma covers_next {env : Environment W} {pc : Nat} {x : Instr} (hx : instrAt? l pc = some x)
    (hgo : (perform l env d x.action).transfer.continues = true) :
    l.Covers wanted x.block (l.remaining x.block (pc + 1))
      (nextPc l pc (perform l env d x.action).transfer) := by
  cases htransfer : (perform l env d x.action).transfer with
  | fall => exact hw.covers_fall h hx (perform_fall htransfer)
  | goto label => exact hw.covers_goto h hs hx (perform_goto htransfer)
  | returned => simp [htransfer, Transfer.continues] at hgo
  | trapped => simp [htransfer, Transfer.continues] at hgo

lemma Lockstep.step (env : Environment W) {c c' : Config W} (hc : Lockstep l wanted c c') :
    Lockstep l wanted (step l env c) (step l env c') := by
  cases hrun : c.running with
  | false =>
    rw [step_of_stopped hrun, step_of_stopped (hc.running.trans hrun)]
    exact hc
  | true =>
    have hrun' := hc.running.trans hrun
    cases hi : instrAt? l c.pc with
    | none =>
      have hi' : instrAt? l c'.pc = none := by rw [hc.pc, hi]
      rw [step_of_none hrun hi, step_of_none hrun' hi']
      exact ⟨by simp [hc.log], rfl, hc.pc, hc.data.mono (by simp)⟩
    | some x =>
      have hi' : instrAt? l c'.pc = some x := by rw [hc.pc, hi]
      rw [step_eq env hrun hi, step_eq env hrun' hi']
      have hcons := h.remaining_cons hi
      have hneeds (v : VarId) (hv : v ∈ l.uses x.action ∨ x.action.targetVar ≠ some v ∧
          l.Needs (wanted x.block) (l.remaining x.block (c.pc + 1)) v) :
          c.running = true ∧ ∃ x, instrAt? l c.pc = some x ∧
            l.Needs (wanted x.block) (l.remaining x.block c.pc) v :=
        ⟨hrun, x, hi, by rw [hcons]; exact hv⟩
      have ho := perform_alike env hc.data fun v hv => hneeds v (.inl hv)
      have hleaving : (leaving l c'.pc x (perform l env c'.data x.action)).map (·.below 0) =
          (leaving l c.pc x (perform l env c.data x.action)).map (·.below 0) := by
        unfold leaving
        rw [ho.transfer, hc.pc]
        split <;> simp [Observation.below]
      refine ⟨?_, by rw [ho.transfer], by rw [ho.transfer, hc.pc], ?_⟩
      · simp only [List.map_append, hc.log, ho.seen, hleaving]
      · refine { ho.data with vars := ?_ }
        rintro v ⟨hgo, y, hy, hv⟩
        have hrest := covers_next hw h hs hi hgo y hy v hv
        by_cases htarget : x.action.targetVar = some v
        · refine ho.target (fun htrap => ?_) v htarget
          simp [htrap, Transfer.continues] at hgo
        · exact ho.data.vars v (hneeds v (.inr ⟨htarget, hrest⟩))

/-- Runs in lockstep stay so. -/
theorem Lockstep.run (env : Environment W) {c c' : Config W} (hc : Lockstep l wanted c c')
    (n : Nat) : Lockstep l wanted (run l env n c) (run l env n c') := by
  induction n generalizing c c' with
  | zero => exact hc
  | succ n ih =>
    rw [run_succ, run_succ]
    exact ih (hc.step hw h hs env)

end

end Machine

end ThreeAddress
