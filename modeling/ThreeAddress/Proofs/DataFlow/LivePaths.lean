import ThreeAddress.Proofs.ControlFlow.Walks
import ThreeAddress.Proofs.DataFlow.Live
import ThreeAddress.Proofs.Numbering.Typing

/-!
Liveness over paths. A variable is live at the top of a block exactly when some walk from there
comes to an instruction that reads it and has passed none that assigns it. What an instruction
reads is told from its columns: a variable that is an argument, or the index of an element that is
an argument or the target. In a typed listing no operand refers to a variable in another way.
-/

namespace ThreeAddress

open DataFlow ControlFlow

/-- The action reads the variable: as an argument, as the index of an element that is an
argument, or as the index of the element that it writes to. -/
def Action.Reads (a : Action) (v : VarId) : Prop :=
  .var v ∈ a.args ∨ (∃ b, .elem b (.var v) ∈ a.args) ∨ ∃ b, a.target = some (.elem b (.var v))

namespace Listing

variable {l : Listing} {v : VarId} {o : Operand} {a : Action} {ty : Ty}

/-! ### What is read -/

lemma mem_operandUses_index (h : o.IsIndex l) : v ∈ l.operandUses o ↔ o = .var v := by
  cases o with
  | int n => simp [operandUses, resolve]
  | var w => simp [operandUses, resolve, eq_comm]
  | _ => exact h.elim

/-- An instruction that is an operand has no value, so it assigns no variable. -/
lemma WellTyped.resolve_instr (hl : l.WellTyped) {i : InstrId}
    (h : l.typeOf? (.instr i) = some .none) : l.resolve (.instr i) = none := by
  cases hx : l.instr? i with
  | none => simp [resolve, hx]
  | some x =>
    obtain hty : x.ty = .none := by simpa [typeOf?, hx] using h
    cases hv : x.action.targetVar with
    | none => simp [resolve, hx, hv]
    | some w =>
      have hvalue := hl.vars (hty ▸ (hl.instrs hx).target hv)
      cases hvalue

lemma WellTyped.mem_operandUses (hl : l.WellTyped) (h : o.HasTy l ty) :
    v ∈ l.operandUses o ↔ o = .var v ∨ ∃ b, o = .elem b (.var v) := by
  cases h with
  | int n => simp [operandUses, resolve]
  | float x => simp [operandUses, resolve]
  | @var w _ _ => simp [operandUses, resolve, eq_comm]
  | @elem b index _ _ hindex =>
    rw [operandUses, mem_operandUses_index hindex]
    simp
  | @instr i hi =>
    rw [operandUses, hl.resolve_instr hi]
    · simp
    · simp

/-- The arguments of a typed action are labels or have types. -/
lemma hasTy_of_mem_args (h : a.HasTy l ty) (ho : o ∈ a.args) :
    (∃ label, o = .label label) ∨ ∃ ty', o.HasTy l ty' := by
  cases h <;>
    simp only [Action.args, Action.arg1, Action.arg2, Option.toList_some, Option.toList_none,
      List.append_nil, List.nil_append, List.cons_append, List.mem_cons, List.not_mem_nil,
      or_false] at ho
  case compute hl hr _ =>
    obtain rfl | rfl := ho
    · exact .inr ⟨_, hl⟩
    · exact .inr ⟨_, hr⟩
  case apply hv _ => exact ho ▸ .inr ⟨_, hv⟩
  case copy hv _ => exact ho ▸ .inr ⟨_, hv⟩
  case jumpFalse hc =>
    obtain rfl | rfl := ho
    · exact .inr ⟨_, hc⟩
    · exact .inl ⟨_, rfl⟩
  case push hv => exact ho ▸ .inr ⟨_, hv⟩
  case retValue hv => exact ho ▸ .inr ⟨_, hv⟩
  all_goals exact .inl ⟨_, ho⟩

/-- The element that a typed action writes to has an index. -/
lemma isIndex_of_target (h : a.HasTy l ty) {b : ArrayId} {index : Operand}
    (ht : a.target = some (.elem b index)) : index.IsIndex l := by
  cases h with
  | @copy _ place _ _ _ hp =>
    rw [Action.target, Option.some.injEq] at ht
    rw [ht] at hp
    cases hp with
    | elem _ hindex => exact hindex
  | _ => simp [Action.target] at ht

/-- What a typed action uses is what stands in its columns. -/
lemma WellTyped.mem_uses_iff (hl : l.WellTyped) (h : a.HasTy l ty) :
    v ∈ l.uses a ↔ a.Reads v := by
  have hargs : (∃ o ∈ a.args, v ∈ l.operandUses o) ↔
      .var v ∈ a.args ∨ ∃ b, .elem b (.var v) ∈ a.args := by
    have hiff {o : Operand} (ho : o ∈ a.args) :
        v ∈ l.operandUses o ↔ o = .var v ∨ ∃ b, o = .elem b (.var v) := by
      obtain ⟨label, rfl⟩ | ⟨ty', hty⟩ := hasTy_of_mem_args h ho
      · simp [operandUses, resolve]
      · exact hl.mem_operandUses hty
    constructor
    · rintro ⟨o, ho, hv⟩
      obtain rfl | ⟨b, rfl⟩ := (hiff ho).1 hv
      · exact .inl ho
      · exact .inr ⟨b, ho⟩
    · rintro (ho | ⟨b, ho⟩)
      · exact ⟨_, ho, (hiff ho).2 (.inl rfl)⟩
      · exact ⟨_, ho, (hiff ho).2 (.inr ⟨b, rfl⟩)⟩
  have htarget : v ∈ l.targetUses a.target ↔ ∃ b, a.target = some (.elem b (.var v)) := by
    cases ht : a.target with
    | none => simp [targetUses]
    | some o =>
      cases o with
      | elem b index =>
        rw [targetUses, mem_operandUses_index (isIndex_of_target h ht)]
        simp
      | _ => simp [targetUses]
  rw [uses, List.mem_append, List.mem_flatMap, hargs, htarget, Action.Reads, or_assoc]

lemma needs_append {wanted : VarId → Prop} (xs ys : List Instr) :
    l.Needs wanted (xs ++ ys) v ↔ l.Needs (l.Needs wanted ys) xs v := by
  induction xs with
  | nil => rfl
  | cons x rest ih => rw [List.cons_append, Needs, Needs, ih]

end Listing

/-! ### Walks -/

namespace FlowGraph

open Listing

/-- Some walk from the top of the block comes to an instruction that reads the variable and has
passed none that assigns it. -/
def ReadAhead (g : FlowGraph) (b : BlockId) (v : VarId) : Prop :=
  ∃ c es front x back, g.Walk b c es ∧ g.passed es ++ g.code c = front ++ x :: back ∧
    x.action.Reads v ∧ ∀ y ∈ front, y.action.targetVar ≠ some v

variable {l : Listing} {settings : AnalysisSettings} {b : BlockId} {v : VarId}

section

variable (h : l.Coherent) (hs : l.Sectioned)

include h

lemma exists_instr_of_walk {c : BlockId} {es : List Edge} {x : Instr}
    (hx : x ∈ (drawn l settings).passed es ++ (drawn l settings).code c) :
    ∃ i, l.instr? i = some x := by
  have hcode {b : BlockId} (hx : x ∈ (drawn l settings).code b) : ∃ i, l.instr? i = some x := by
    rw [code_drawn h] at hx
    exact (h.mem_stamped.1 hx).1
  obtain hx | hx := List.mem_append.1 hx
  · obtain ⟨e, -, hx⟩ := List.mem_flatMap.1 hx
    exact hcode hx
  · exact hcode hx

/-- What a walk reads first is what the list of its instructions needs. -/
lemma readAhead_iff (hl : l.WellTyped) : (drawn l settings).ReadAhead b v ↔
    ∃ c es, (drawn l settings).Walk b c es ∧ l.Needs (fun _ => False)
      ((drawn l settings).passed es ++ (drawn l settings).code c) v := by
  have hreads {c : BlockId} {es : List Edge} {x : Instr} {front back : List Instr}
      (heq : (drawn l settings).passed es ++ (drawn l settings).code c = front ++ x :: back) :
      v ∈ l.uses x.action ↔ x.action.Reads v := by
    have hx : x ∈ (drawn l settings).passed es ++ (drawn l settings).code c := by
      rw [heq]
      exact List.mem_append_cons_self
    obtain ⟨i, hi⟩ := exists_instr_of_walk h hx
    exact hl.mem_uses_iff (hl.instrs hi)
  constructor
  · rintro ⟨c, es, front, x, back, hw, heq, hx, hfront⟩
    exact ⟨c, es, hw, needs_split.2 ⟨front, x, back, heq, (hreads heq).2 hx, hfront⟩⟩
  · rintro ⟨c, es, hw, hneeds⟩
    obtain ⟨front, x, back, heq, hx, hfront⟩ := needs_split.1 hneeds
    exact ⟨c, es, front, x, back, hw, heq, (hreads heq).1 hx, hfront⟩

include hs

/-- A walk that reads the variable first makes it live. The induction is on the walk: its first
block reads the variable, or does not assign it and leaves it to the rest of the walk. -/
lemma live_of_walk {c : BlockId} {es : List Edge} (hw : (drawn l settings).Walk b c es)
    (hneeds : l.Needs (fun _ => False)
      ((drawn l settings).passed es ++ (drawn l settings).code c) v) : l.Live v b := by
  induction hw with
  | nil b =>
    rw [passed_nil, List.nil_append, code_drawn h] at hneeds
    exact .here (h.exposes_iff.2 hneeds)
  | @cons e c es he hw ih =>
    rw [passed_cons, List.append_assoc, needs_append, needs_iff, code_drawn h] at hneeds
    obtain hhere | ⟨hrest, hassigns⟩ := hneeds
    · exact .here (h.exposes_iff.2 hhere)
    · refine .later ?_ (flows_of_mem_edges h hs he) (ih hrest)
      rw [h.assigns_iff]
      exact fun ⟨x, hx, hv⟩ => hassigns x hx hv

/-- A live variable is read first on some walk. -/
lemma exists_walk_of_live (settings : AnalysisSettings) (hlive : l.Live v b) :
    ∃ c es, (drawn l settings).Walk b c es ∧ l.Needs (fun _ => False)
      ((drawn l settings).passed es ++ (drawn l settings).code c) v := by
  induction hlive with
  | @here b hexposes =>
    refine ⟨b, [], .nil b, ?_⟩
    rw [passed_nil, List.nil_append, code_drawn h]
    exact h.exposes_iff.1 hexposes
  | @later b d hassigns hflows _ ih =>
    obtain ⟨c, es, hw, hneeds⟩ := ih
    obtain ⟨e, he, rfl, rfl⟩ := exists_edge h hs settings hflows
    refine ⟨c, e :: es, .cons he hw, ?_⟩
    rw [passed_cons, List.append_assoc, needs_append, needs_iff, code_drawn h]
    refine .inr ⟨hneeds, fun x hx hv => hassigns ?_⟩
    exact h.assigns_iff.2 ⟨x, hx, hv⟩

lemma live_iff_readAhead (hl : l.WellTyped) : l.Live v b ↔ (drawn l settings).ReadAhead b v := by
  rw [readAhead_iff h hl]
  exact ⟨exists_walk_of_live h hs settings, fun ⟨_, _, hw, hneeds⟩ => live_of_walk h hs hw hneeds⟩

end

end FlowGraph

namespace Listing

variable {l : Listing}

open FlowGraph in
/-- **Liveness is exact**: by every strategy, the variables before a block are those that some walk
from the block reads first, and the variables after it are those before its successors. -/
theorem Reachable.liveness_exact (h : l.Reachable) (hne : l.stream ≠ [])
    (settings : AnalysisSettings) :
    ∃ g live, FlowGraph.ofListing l settings = .ok g ∧ g.listing = l ∧ g.liveness = .ok live ∧
      (∀ strategy, g.livenessBy strategy = .ok live) ∧
      ∀ b < g.blockCount, ∃ liveIn liveOut, live.liveIn[b]? = some liveIn ∧
        live.liveOut[b]? = some liveOut ∧ ∀ v,
          (liveIn.contains v = true ↔ g.ReadAhead b v) ∧
          (liveOut.contains v = true ↔
            ∃ c ∈ g.succ b, ∃ next, live.liveIn[c]? = some next ∧ next.contains v = true) := by
  have hc := h.coherent
  have hs := h.sectioned
  obtain ⟨live, hlive, hby, hsets⟩ := liveness_eq hc hs settings
  refine ⟨drawn l settings, live, ofListing_eq hc hs hne settings, rfl, hlive, hby, fun b hb => ?_⟩
  rw [blockCount_drawn hc] at hb
  obtain ⟨liveIn, liveOut, hin, hout, hiff⟩ := hsets b hb
  refine ⟨liveIn, liveOut, hin, hout, fun v => ⟨?_, ?_⟩⟩
  · rw [(hiff v).1, live_iff_readAhead hc hs h.wellTyped]
  · rw [(hiff v).2, LiveAfter]
    refine exists_congr fun c => ?_
    rw [mem_succ_iff hc hs]
    refine and_congr_right fun hf => ?_
    obtain ⟨next, after, hnext, -, hiff'⟩ := hsets c (hc.flows_lt hf)
    rw [← (hiff' v).1]
    simp [hnext]

/-- In the body of the loop the parameter, variable 0, is read before it is assigned; the
temporary that holds the test, variable 2, is not. -/
theorem Reachable.liveness_exact_fill : ∃ l g, Listing.ofProgram fillProgram = .ok l ∧
    FlowGraph.ofListing (ValueNumbering.run .standard l).1 .standard = .ok g ∧
    g.ReadAhead 2 0 ∧ ¬g.ReadAhead 2 2 := by
  have hok : ((Listing.ofProgram fillProgram).toOption.map fun l =>
      ((ValueNumbering.run .standard l).1.stream.isEmpty,
        (FlowGraph.ofListing (ValueNumbering.run .standard l).1 .standard).toOption.bind fun g =>
          (g.livenessBy .fullPass).toOption.map fun live =>
            (g.blockCount, live.liveIn[2]?.map fun s => (s.contains 0, s.contains 2)))) =
      some (false, some (4, some (true, false))) := by decide +kernel
  obtain ⟨l, hl, hok⟩ := toOption_map_eq_some.1 hok
  simp only [Prod.mk.injEq] at hok
  obtain ⟨hne, hsets⟩ := hok
  have hne : (ValueNumbering.run .standard l).1.stream ≠ [] := by simpa using hne
  obtain ⟨g, live, hg, -, -, hby, hexact⟩ :=
    Reachable.liveness_exact (.numbered .standard (.lowered hl)) hne .standard
  simp only [hg, hby, Except.toOption, Option.bind_some, Option.map_some, Option.some.injEq,
    Prod.mk.injEq] at hsets
  obtain ⟨hcount, hset⟩ := hsets
  obtain ⟨liveIn, liveOut, hin, -, hiff⟩ := hexact 2 (by rw [hcount]; decide)
  rw [hin, Option.map_some, Option.some.injEq, Prod.mk.injEq] at hset
  refine ⟨l, g, hl, hg, ((hiff 0).1).1 hset.1, fun hread => ?_⟩
  rw [((hiff 2).1).2 hread] at hset
  cases hset.2

end Listing

end ThreeAddress
