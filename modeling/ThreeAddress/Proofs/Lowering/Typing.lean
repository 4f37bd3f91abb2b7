import ThreeAddress.Proofs.Lowering.Acceptance
import ThreeAddress.Proofs.Lowering.Segments

/-!
What lowering issues, with types.

The typing rules come first: for operands, then for actions. Then lowering is told once more as a
sequence of elementary steps, and in more detail. Every instruction that is issued is typed; it
reads variables that have names and temporaries that the current block has assigned; and it
assigns a variable that has a name, or a temporary that was made for it right before.
-/

namespace ThreeAddress

lemma BinaryOp.isValue_resultTy (op : BinaryOp) {ty : Ty} (h : ty.isValue) :
    (op.resultTy ty).isValue := by
  unfold resultTy
  split
  · exact h
  · rfl

lemma UnaryOp.isValue_resultTy (op : UnaryOp) {ty : Ty} (h : ty.isValue) :
    (op.resultTy ty).isValue := by
  cases op
  · exact h
  · rfl

/-! ### Typing rules -/

/-- An index is an integer literal or an integer variable. -/
def Operand.IsIndex (l : Listing) : Operand → Prop
  | .int _ => True
  | .var v => l.typeOf? (.var v) = some .int
  | _ => False

/-- The operand has the type. An instruction is an operand only where it yields no value. -/
inductive Operand.HasTy (l : Listing) : Operand → Ty → Prop
  | int (value : Int32) : HasTy l (.int value) .int
  | float (value : Binary32) : HasTy l (.float value) .float
  | var {v : VarId} {ty : Ty} : l.typeOf? (.var v) = some ty → HasTy l (.var v) ty
  | elem {a : ArrayId} {index : Operand} {ty : Ty} : l.typeOf? (.array a) = some ty →
    index.IsIndex l → HasTy l (.elem a index) ty
  | instr {i : InstrId} : l.typeOf? (.instr i) = some .none → HasTy l (.instr i) .none

/-- The operands of the action have types that go together, and what it assigns has the type
`ty`; it is `none` if there is nothing that it assigns. -/
inductive Action.HasTy (l : Listing) : Action → Ty → Prop
  | compute {op : BinaryOp} {lhs rhs : Operand} {w : VarId} {ty : Ty} : ty.isValue →
    lhs.HasTy l ty → rhs.HasTy l ty → l.typeOf? (.var w) = some (op.resultTy ty) →
    HasTy l (.compute op lhs rhs w) (op.resultTy ty)
  | apply {op : UnaryOp} {operand : Operand} {w : VarId} {ty : Ty} : ty.isValue →
    operand.HasTy l ty → l.typeOf? (.var w) = some (op.resultTy ty) →
    HasTy l (.apply op operand w) (op.resultTy ty)
  | copy {value : Operand} {place : Place} {ty : Ty} : ty.isValue → value.HasTy l ty →
    place.operand.HasTy l ty → HasTy l (.copy value place) ty
  | label (label : LabelId) : HasTy l (.label label) .none
  | jump (label : LabelId) : HasTy l (.jump label) .none
  | jumpFalse {cond : Operand} {label : LabelId} {ty : Ty} : ty.isValue → cond.HasTy l ty →
    HasTy l (.jumpFalse cond label) .none
  | push {value : Operand} {ty : Ty} : value.HasTy l ty → HasTy l (.push value) .none
  | call {name : String} {f : Signature} {callee : LabelId} :
    l.functions.get? name = some f → f.label = callee → f.returns.isValue = false →
    HasTy l (.call callee none) .none
  | callInto {name : String} {f : Signature} {callee : LabelId} {w : VarId} :
    l.functions.get? name = some f → f.label = callee → f.returns.isValue →
    l.typeOf? (.var w) = some f.returns → HasTy l (.call callee (some w)) f.returns
  | param {w : VarId} {ty : Ty} : ty.isValue → l.typeOf? (.var w) = some ty →
    HasTy l (.param w) ty
  | ret : HasTy l (.ret none) .none
  | retValue {value : Operand} {ty : Ty} : value.HasTy l ty → HasTy l (.ret (some value)) .none

/-- What is declared in one listing is declared with the same types in the other. -/
structure Listing.KeepsTypes (l l' : Listing) : Prop where
  types : ∀ {o ty}, l.typeOf? o = some ty → l'.typeOf? o = some ty
  functions : ∀ {name f}, l.functions.get? name = some f →
    ∃ f', l'.functions.get? name = some f' ∧ f'.label = f.label ∧ f'.returns = f.returns

section

variable {l l' l'' : Listing} {o : Operand} {a : Action} {ty : Ty}

lemma Listing.KeepsTypes.refl (l : Listing) : l.KeepsTypes l := ⟨id, fun hf => ⟨_, hf, rfl, rfl⟩⟩

lemma Listing.KeepsTypes.trans (h : l.KeepsTypes l') (h' : l'.KeepsTypes l'') :
    l.KeepsTypes l'' := by
  refine ⟨fun ho => h'.types (h.types ho), fun hf => ?_⟩
  obtain ⟨f', hf', hlabel, hreturns⟩ := h.functions hf
  obtain ⟨f'', hf'', hlabel', hreturns'⟩ := h'.functions hf'
  exact ⟨f'', hf'', hlabel'.trans hlabel, hreturns'.trans hreturns⟩

lemma Lowering.Carries.keepsTypes (h : Lowering.Carries l l') : l.KeepsTypes l' :=
  ⟨h.types, fun hf => ⟨_, h.functions.symm ▸ hf, rfl, rfl⟩⟩

lemma Operand.HasTy.typeOf? (h : o.HasTy l ty) : l.typeOf? o = some ty := by
  cases h with
  | int => rfl
  | float => rfl
  | var hv => exact hv
  | elem ha => exact ha
  | instr hi => exact hi

lemma Operand.IsIndex.inScope (h : o.IsIndex l) : o.InScope l := by
  cases o with
  | int => trivial
  | var v => exact Lower.typeOf?_var h
  | _ => exact h.elim

lemma Operand.HasTy.inScope (h : o.HasTy l ty) : o.InScope l := by
  cases h with
  | int => trivial
  | float => trivial
  | var hv => exact Lower.typeOf?_var hv
  | elem _ hindex => exact hindex.inScope
  | instr hi =>
    obtain ⟨x, hx, -⟩ := Option.map_eq_some_iff.1 hi
    exact Lower.instr?_lt hx

lemma Action.HasTy.inScope (h : a.HasTy l ty) : a.InScope l := by
  cases h with
  | compute _ hl hr hw => exact ⟨hl.inScope, hr.inScope, Lower.typeOf?_var hw⟩
  | apply _ ho hw => exact ⟨ho.inScope, Lower.typeOf?_var hw⟩
  | copy _ hv hp => exact ⟨hv.inScope, hp.inScope⟩
  | jumpFalse _ hc => exact hc.inScope
  | push hv => exact hv.inScope
  | callInto _ _ _ hw => exact fun v hv => Option.some.inj hv ▸ Lower.typeOf?_var hw
  | param _ hw => exact Lower.typeOf?_var hw
  | retValue hv => exact fun o ho => Option.some.inj ho ▸ hv.inScope
  | _ => simp [Action.InScope]

/-- The type of a typed action is the one that its instruction gets. -/
lemma Action.HasTy.actionTy (h : a.HasTy l ty) : l.actionTy a = .ok ty := by
  cases h with
  | compute _ hl hr hw =>
    simp [Listing.actionTy, Lower.typeOf_eq hl.typeOf?, Lower.typeOf_eq hr.typeOf?, Bind.bind,
      Except.bind, Pure.pure, Except.pure]
  | apply _ ho hw =>
    simp [Listing.actionTy, Lower.typeOf_eq ho.typeOf?, Bind.bind, Except.bind, Pure.pure,
      Except.pure]
  | copy _ hv hp => exact Lower.typeOf_eq hv.typeOf?
  | callInto _ _ _ hw => exact Lower.typeOf_eq hw
  | param _ hw => exact Lower.typeOf_eq hw
  | _ => rfl

lemma Operand.HasTy.mono (h : o.HasTy l ty) (hk : l.KeepsTypes l') : o.HasTy l' ty := by
  cases h with
  | int n => exact .int n
  | float x => exact .float x
  | var hv => exact .var (hk.types hv)
  | @elem a index _ ha hindex =>
    refine .elem (hk.types ha) ?_
    cases index with
    | int n => trivial
    | var v => exact hk.types hindex
    | _ => exact hindex.elim
  | instr hi => exact .instr (hk.types hi)

lemma Action.HasTy.mono (h : a.HasTy l ty) (hk : l.KeepsTypes l') : a.HasTy l' ty := by
  cases h with
  | compute hv hl hr hw => exact .compute hv (hl.mono hk) (hr.mono hk) (hk.types hw)
  | apply hv ho hw => exact .apply hv (ho.mono hk) (hk.types hw)
  | copy hv ho hp => exact .copy hv (ho.mono hk) (hp.mono hk)
  | label label => exact .label label
  | jump label => exact .jump label
  | jumpFalse hv hc => exact .jumpFalse hv (hc.mono hk)
  | push ho => exact .push (ho.mono hk)
  | call hf hlabel hv =>
    obtain ⟨f', hf', hlabel', hreturns⟩ := hk.functions hf
    exact .call hf' (hlabel'.trans hlabel) (hreturns ▸ hv)
  | callInto hf hlabel hv hw =>
    obtain ⟨f', hf', hlabel', hreturns⟩ := hk.functions hf
    rw [← hreturns] at hv hw ⊢
    exact .callInto hf' (hlabel'.trans hlabel) hv (hk.types hw)
  | param hv hw => exact .param hv (hk.types hw)
  | ret => exact .ret
  | retValue ho => exact .retValue (ho.mono hk)

end

/-- What the actions read. -/
lemma Listing.uses_eq (l : Listing) (a : Action) : l.uses a =
    match a with
    | .compute _ lhs rhs _ => l.operandUses lhs ++ l.operandUses rhs
    | .apply _ o _ => l.operandUses o
    | .copy o place => l.operandUses o ++ l.targetUses (some place.operand)
    | .jumpFalse cond _ => l.operandUses cond
    | .push o => l.operandUses o
    | .ret value => value.toList.flatMap l.operandUses
    | .label _ | .jump _ | .call _ _ | .param _ => [] := by
  cases a with
  | call callee target => cases target <;> rfl
  | ret value => cases value <;> simp [uses, Action.args, Action.arg1, Action.arg2, Action.target,
      targetUses]
  | _ => simp [uses, Action.args, Action.arg1, Action.arg2, Action.target, targetUses, operandUses,
      resolve]

namespace Lowering

/-! ### Steps -/

/-- The variable may be read here: it has a name, or the current block has assigned it. -/
def Holds (s : Lowering) (v : VarId) : Prop :=
  v ∈ s.listing.named ∨
    ∃ i x, s.listing.instr? i = some x ∧ x.action.targetVar = some v ∧ x.block = s.block

/-- What lowering does in one step. A temporary is made together with the instruction that
assigns it. -/
inductive Issue : Lowering → Lowering → Prop
  | emit {s s' : Lowering} {a : Action} {id : InstrId} {ty : Ty} : s.emit a = .ok (s', id) →
    a.HasTy s.listing ty → a.definedLabel = none → (∀ v ∈ s.listing.uses a, s.Holds v) →
    (∀ v ∈ a.targetVar, v ∈ s.listing.named) → Issue s s'
  | compute {s t s' : Lowering} {a : Action} {id : InstrId} {ty : Ty} {v : VarId} : ty.isValue →
    s.freshTemporary ty = (t, v) → t.emit a = .ok (s', id) → a.HasTy t.listing ty →
    (∀ w ∈ s.listing.uses a, s.Holds w) → a.targetVar = some v → Issue s s'
  | startAt {s s' : Lowering} {label : LabelId} : s.startAt label = .ok s' → Issue s s'
  | freshLabel (s : Lowering) : Issue s s.freshLabel.1
  | freshVariable (s : Lowering) (name : String) {ty : Ty} (scope : Scope) (marks : Marks) :
    ty.isValue → Issue s (s.freshVariable name ty scope marks).1
  | freshArray (s : Lowering) {decl : ArrayDecl} : decl.element.isValue →
    Issue s (s.freshArray decl).1
  | scopes (s : Lowering) {scopes : Scopes} :
    (∀ {name v}, (name, Symbol.var v) ∈ bindings scopes → v ∈ s.listing.named) →
    Issue s { s with scopes }
  | context (s : Lowering) (function : Option FunctionContext) : Issue s { s with function }
  | declareFunction {s s' : Lowering} {p : Source.Prototype} {define : Bool} {f : Signature} :
    s.declareFunction p define = .ok (s', f) → Issue s s'

def Issues : Lowering → Lowering → Prop := Relation.ReflTransGen Issue

section

variable {s t s' : Lowering} {v : VarId} {o : Operand} {ty : Ty}

lemma Issue.issues (h : Issue s s') : Issues s s' := .single h

lemma Issues.refl (s : Lowering) : Issues s s := Relation.ReflTransGen.refl

lemma Issues.trans (h : Issues s t) (h' : Issues t s') : Issues s s' :=
  Relation.ReflTransGen.trans h h'

/-- An action that assigns a variable places no label. -/
lemma definedLabel_of_targetVar {a : Action} (h : a.targetVar = some v) :
    a.definedLabel = none := by
  cases a with
  | label => cases h
  | _ => rfl

lemma Issue.extends (h : Issue s s') : Extends s s' := by
  cases h with
  | emit he ht hlabel =>
    exact (Step.emit (k := 0) he ht.inScope hlabel).reaches.extends
  | compute _ hv he ht _ htarget =>
    have hlabel := definedLabel_of_targetVar htarget
    exact ((Lower.freshTemporary_computes hv).1.reaches (k := 0)).extends.trans
      (Step.emit (k := 0) he ht.inScope hlabel).reaches.extends
  | startAt hs => exact (Step.startAt hs (Nat.zero_le _)).reaches.extends
  | freshLabel => exact (Step.freshLabel (k := 0) s).reaches.extends
  | freshVariable name scope marks =>
    exact (Step.freshVariable (k := 0) s name _ scope marks).reaches.extends
  | freshArray => exact (Step.freshArray (k := 0) s _).reaches.extends
  | scopes => exact (Step.scopes (k := 0) s _).reaches.extends
  | context function => exact (ItemStep.context s function).extends
  | declareFunction hd => exact (ItemStep.declareFunction hd).extends

lemma Issues.extends (h : Issues s s') : Extends s s' := by
  induction h with
  | refl => exact .refl s
  | tail _ hstep ih => exact ih.trans hstep.extends

lemma ItemStep.keepsTypes (h : ItemStep s s') : s.listing.KeepsTypes s'.listing := by
  cases h with
  | step hs => exact hs.reaches.carries.keepsTypes
  | context => exact .refl _
  | @declareFunction _ p _ _ hd =>
    obtain ⟨functions, labels, hdeclare, rfl⟩ := declareFunction_eq hd
    obtain ⟨hget, hreturns, -, hcases⟩ := Functions.declare_spec hdeclare
    refine ⟨fun {o ty} ho => by cases o <;> exact ho, fun {name g} hg => ?_⟩
    simp only [hget]
    split
    · rename_i hname
      subst hname
      obtain ⟨-, old, hold, hsame, hlabel, -⟩ | ⟨-, hnone, -⟩ := hcases
      · obtain rfl := Option.some.inj (hold.symm.trans hg)
        exact ⟨_, rfl, hlabel, hreturns.trans hsame.symm⟩
      · rw [hnone] at hg
        cases hg
    · exact ⟨g, hg, rfl, rfl⟩

lemma Extends.keepsTypes (h : Extends s s') : s.listing.KeepsTypes s'.listing := by
  induction h with
  | refl => exact .refl _
  | tail _ hstep ih => exact ih.trans hstep.keepsTypes

/-! ### What holds all along -/

/-- Names are bound to variables that have names, and the types of variables and arrays have
values. -/
structure Regular (s : Lowering) : Prop where
  plain : s.listing.vars.Plain
  bound : ∀ {name v}, (name, Symbol.var v) ∈ bindings s.scopes → v ∈ s.listing.named
  vars : ∀ {v ty}, s.listing.typeOf? (.var v) = some ty → ty.isValue
  arrays : ∀ {a ty}, s.listing.typeOf? (.array a) = some ty → ty.isValue

lemma regular_start : Regular .start := by
  refine ⟨⟨rfl, ?_⟩, ?_, ?_, ?_⟩ <;>
    simp [start, Listing.empty, Scopes.empty, bindings, Variables.empty, Variables.get?,
      Listing.typeOf?, Arrays.empty, Arrays.get?]

/-- New variables have types with values, and the rest is as before. -/
lemma Regular.grow (h : s.Regular) (hx : Extends s s') (hscopes : s'.scopes = s.scopes)
    (hvars : ∀ {v ty}, s.listing.vars.size ≤ v → s'.listing.typeOf? (.var v) = some ty →
      ty.isValue)
    (harrays : s'.listing.arrays = s.listing.arrays) : s'.Regular where
  plain := hx.plain h.plain
  bound hb := hx.kept.named.subset (h.bound (hscopes ▸ hb))
  vars {v ty} hv := by
    by_cases hlt : v < s.listing.vars.size
    · refine h.vars (v := v) ?_
      simpa only [Listing.typeOf?, hx.kept.vars v hlt] using hv
    · exact hvars (Nat.le_of_not_lt hlt) hv
  arrays {a ty} ha := h.arrays (a := a) (by simpa only [Listing.typeOf?, harrays] using ha)

lemma typeOf?_none {l : Listing} (hv : l.vars.size ≤ v) : l.typeOf? (.var v) = none := by
  by_contra hne
  obtain ⟨ty, hty⟩ := Option.ne_none_iff_exists'.1 hne
  exact hv.not_gt (Lower.typeOf?_var hty)

lemma Emitted.regular {a : Action} (he : Emitted s a s') (h : s.Regular) (hx : Extends s s') :
    s'.Regular := by
  refine h.grow hx he.scopes (fun {v ty} hv hty => ?_) he.arrays
  rw [typeOf?_none (by rwa [he.vars])] at hty
  cases hty

lemma Issue.regular (h : Issue s s') (hs : s.Regular) : s'.Regular := by
  have hx := h.extends
  cases h with
  | emit he => exact (emit_emitted he).1.regular hs hx
  | @compute t _ a id ty v hvalue hv he =>
    obtain ⟨rfl, rfl⟩ := Prod.mk.inj hv
    have hemit := (emit_emitted he).1
    refine hs.grow hx hemit.scopes (fun {w ty'} hw hty => ?_) hemit.arrays
    have hlt := Lower.typeOf?_var hty
    rw [hemit.vars] at hlt
    change w < (s.listing.vars.temporary ty .none).1.size at hlt
    rw [Variables.size_temporary] at hlt
    obtain rfl : w = s.listing.vars.size := by omega
    rw [Listing.typeOf?, hemit.vars] at hty
    obtain rfl : ty = ty' := Option.some.inj ((Lower.freshTemporary_typeOf? s ty).symm.trans hty)
    exact hvalue
  | startAt hst => exact (startAt_emitted hst).1.regular hs hx
  | freshLabel =>
    refine hs.grow hx rfl (fun {v ty} hv hty => ?_) rfl
    exact absurd (Lower.typeOf?_var hty) hv.not_gt
  | @freshVariable name ty scope marks hvalue =>
    refine hs.grow hx rfl (fun {v ty'} hv hty => ?_) rfl
    have hlt := Lower.typeOf?_var hty
    change v < (s.listing.vars.declare name ty scope marks).1.size at hlt
    rw [Variables.size_declare] at hlt
    obtain rfl : v = s.listing.vars.size := by omega
    obtain rfl : ty = ty' := Option.some.inj
      ((Lower.freshVariable_typeOf? (s := s) rfl).symm.trans hty)
    exact hvalue
  | @freshArray decl hvalue =>
    refine ⟨hs.plain, hs.bound, hs.vars, fun {a ty} ha => ?_⟩
    by_cases hlt : a < s.listing.arrays.arrays.size
    · refine hs.arrays (a := a) ?_
      simpa [Lowering.freshArray, Listing.typeOf?, Arrays.declare, Arrays.get?,
        Array.getElem?_push, hlt.ne] using ha
    · simp only [Lowering.freshArray, Listing.typeOf?, Arrays.declare, Arrays.get?,
        Array.getElem?_push, Option.map_eq_some_iff] at ha
      obtain ⟨decl', hdecl, rfl⟩ := ha
      split at hdecl
      · obtain rfl := Option.some.inj hdecl
        exact hvalue
      · rw [Array.getElem?_eq_none (Nat.le_of_not_lt hlt)] at hdecl
        cases hdecl
  | scopes hbound => exact ⟨hs.plain, hbound, hs.vars, hs.arrays⟩
  | context => exact ⟨hs.plain, hs.bound, hs.vars, hs.arrays⟩
  | declareFunction hd =>
    obtain ⟨functions, labels, -, rfl⟩ := declareFunction_eq hd
    exact ⟨hs.plain, hs.bound, hs.vars, hs.arrays⟩

lemma Issues.regular (h : Issues s s') (hs : s.Regular) : s'.Regular := by
  induction h with
  | refl => exact hs
  | tail _ hstep ih => exact hstep.regular ih

/-- A name in scope stands for a variable that has a name. -/
lemma Regular.lookup (h : s.Regular) {name : String}
    (hl : s.scopes.lookup s.listing.vars name = some (.var v)) : v ∈ s.listing.named := by
  obtain ⟨symbol, hsymbol, heq⟩ := Option.map_eq_some_iff.1 hl
  cases symbol with
  | array a => cases heq
  | var w =>
    obtain rfl : w = v := by simpa only [h.plain.current, Symbol.var.injEq] using heq
    rw [binding_eq] at hsymbol
    obtain ⟨before, after, heq, -⟩ := List.lookup_eq_some_iff.1 hsymbol
    have hmem : (name, Symbol.var w) ∈ bindings s.scopes := by simp [heq]
    exact h.bound hmem

/-! ### What one step adds -/

/-- A step adds the instruction, and perhaps a temporary that it assigns. -/
structure Added (s : Lowering) (x : Instr) (s' : Lowering) : Prop where
  arena : s'.listing.arena = s.listing.arena.push x
  typed : x.action.HasTy s'.listing x.ty
  reads : ∀ v ∈ s'.listing.uses x.action, s.Holds v ∧ x.block = s.block
  target : ∀ v ∈ x.action.targetVar, v ∈ s.listing.named ∨ s.listing.vars.size ≤ v
  fresh : ∀ v, s.listing.vars.size ≤ v → v < s'.listing.vars.size → x.action.targetVar = some v

/-- The step adds no instruction, and only variables that have names. -/
structure Declares (s s' : Lowering) : Prop where
  arena : s'.listing.arena = s.listing.arena
  named : ∀ v, s.listing.vars.size ≤ v → v < s'.listing.vars.size → v ∈ s'.listing.named

lemma Declares.of_vars (harena : s'.listing.arena = s.listing.arena)
    (hvars : s'.listing.vars = s.listing.vars) : Declares s s' :=
  ⟨harena, fun _ hv hlt => absurd (hvars ▸ hlt) hv.not_gt⟩

/-- The instruction of an action that has the type `ty`. -/
lemma emit_push {a : Action} {id : InstrId} (he : s.emit a = .ok (s', id))
    (ha : a.HasTy s.listing ty) :
    s'.listing.arena = s.listing.arena.push ⟨s.listing.arena.size, a, ty, s.block⟩ := by
  obtain ⟨rfl, ty', hty, hl, -⟩ := emit_eq he
  obtain rfl : ty = ty' := Except.ok.inj (ha.actionTy.symm.trans hty)
  rw [hl]

lemma Issue.cases (h : Issue s s') : (∃ x, Added s x s') ∨ Declares s s' := by
  have hkeeps := h.extends.keepsTypes
  cases h with
  | emit he ha _ huses htarget =>
    refine .inl ⟨_, emit_push he ha, ha.mono hkeeps, fun v hv => ⟨huses v ?_, rfl⟩,
      fun v hv => .inl (htarget v hv), fun v hv hlt => ?_⟩
    · rwa [Listing.uses_congr ha.inScope (emit_kept he).resolve_eq] at hv
    · rw [(emit_emitted he).1.vars] at hlt
      exact absurd hlt hv.not_gt
  | @compute t _ a id ty w _ hw he ha huses htarget =>
    have hafter : t.listing.KeepsTypes s'.listing :=
      (Step.emit (k := 0) he ha.inScope
        (definedLabel_of_targetVar htarget)).reaches.carries.keepsTypes
    have hpush := emit_push he ha
    have hvars := (emit_emitted he).1.vars
    have hkept := emit_kept he
    obtain ⟨rfl, rfl⟩ := Prod.mk.inj hw
    refine .inl ⟨_, hpush, ha.mono hafter, fun v hv => ⟨huses v ?_, rfl⟩, fun v hv => .inr ?_,
      fun v hv hlt => ?_⟩
    · -- a new variable changes nothing for the operands
      rw [Listing.uses_congr ha.inScope hkept.resolve_eq] at hv
      rwa [Listing.uses_congr ha.inScope fun {o} _ => by cases o <;> rfl]
    · obtain rfl := Option.some.inj (htarget.symm.trans hv)
      exact le_rfl
    · rw [hvars] at hlt
      change v < (s.listing.vars.temporary ty .none).1.size at hlt
      rw [Variables.size_temporary] at hlt
      obtain rfl : v = s.listing.vars.size := by omega
      exact htarget
  | @startAt _ label hs =>
    have hvars := (startAt_emitted hs).1.vars
    obtain ⟨t, he, -, rfl⟩ := startAt_eq hs
    have hpush := emit_push he (.label label)
    rw [leaveBlock_listing] at hpush
    refine .inl ⟨_, hpush, .label label, by simp [Listing.uses_eq],
      by simp [Action.targetVar, Action.target], fun v hv hlt => ?_⟩
    rw [hvars] at hlt
    exact absurd hlt hv.not_gt
  | @freshVariable name ty scope marks hvalue =>
    refine .inr ⟨rfl, fun v hv hlt => ?_⟩
    have hsize := Variables.size_declare s.listing.vars name ty scope marks
    change v < (s.listing.vars.declare name ty scope marks).1.size at hlt
    obtain rfl : v = s.listing.vars.size := by omega
    have hnamed : (s.freshVariable name ty scope marks).1.listing.named =
        s.listing.named ++ [s.listing.vars.size] := named_freshVariable rfl
    simp [hnamed]
  | declareFunction hd =>
    obtain ⟨functions, labels, -, rfl⟩ := declareFunction_eq hd
    exact .inr (.of_vars rfl rfl)
  | _ => exact .inr (.of_vars rfl rfl)

end

end Lowering

end ThreeAddress
