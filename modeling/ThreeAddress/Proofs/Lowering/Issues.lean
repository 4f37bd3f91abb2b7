import ThreeAddress.Proofs.Lowering.Typing

/-!
Lowering issues typed instructions only.

The result of an expression has the type that lowering says, and all that it reads may be read in
the current block. An initializer is the one place where a result is written to a variable before
the types are compared; where they differ the program is refused, so that nothing is left of it.

The steps come in phrases. Most of these are single steps, but the arguments of a function are
pushed one after the other, with the call right behind them.
-/

namespace ThreeAddress

/-- The action pushes an argument or calls a function. -/
def Action.inCall : Action → Bool
  | push _ | call _ _ => true
  | _ => false

/-- The instruction calls a function and keeps no value of it. -/
def Listing.CallsVoid (l : Listing) (i : InstrId) : Prop :=
  ∃ x callee, l.instr? i = some x ∧ x.action = .call callee none

namespace Lowering

section

variable {s t s' : Lowering} {v : VarId} {o : Operand} {ty : Ty}

/-! ### Values -/

/-- The operand has the type, and what it reads may be read here. Only a call without a value is
denoted by its instruction. -/
structure Yields (s : Lowering) (o : Operand) (ty : Ty) : Prop where
  typed : o.HasTy s.listing ty
  held : ∀ v ∈ s.listing.operandUses o, s.Holds v
  call : ∀ {i}, o = .instr i → s.listing.CallsVoid i

lemma Holds.later (h : s.Holds v) (hk : Kept s s') (hb : s'.block = s.block) : s'.Holds v := by
  obtain hv | ⟨i, x, hx, htarget, hblock⟩ := h
  · exact .inl (hk.named.subset hv)
  · exact .inr ⟨i, x, by rw [hk.instr i (Lower.instr?_lt hx), hx], htarget, hblock.trans hb.symm⟩

lemma Kept.callsVoid (h : Kept s s') {i : InstrId} (hi : s.listing.CallsVoid i) :
    s'.listing.CallsVoid i := by
  obtain ⟨x, callee, hx, hact⟩ := hi
  exact ⟨x, callee, (h.instr i (Lower.instr?_lt hx)).trans hx, hact⟩

lemma Yields.mono (h : s.Yields o ty) (hi : Issues s s') (hb : s'.block = s.block) :
    s'.Yields o ty := by
  have hkept := hi.extends.kept
  refine ⟨h.typed.mono hi.extends.keepsTypes, fun v hv => ?_, fun ho => hkept.callsVoid (h.call ho)⟩
  rw [Listing.operandUses_congr h.typed.inScope hkept.resolve_eq] at hv
  exact (h.held v hv).later hkept hb

/-- A place holds values. -/
lemma Regular.isValue (h : s.Regular) {place : Place} (hp : place.operand.HasTy s.listing ty) :
    ty.isValue := by
  cases place with
  | var v => exact h.vars hp.typeOf?
  | elem a index => exact h.arrays (a := a) hp.typeOf?

/-! ### Phrases -/

/-- A step that appends the action to the current block and stays there. -/
structure Performs (s : Lowering) (a : Action) (s' : Lowering) : Prop where
  issue : Issue s s'
  arena : ∃ i ty, s'.listing.arena = s.listing.arena.push ⟨i, a, ty, s.block⟩
  block : s'.block = s.block

/-- What lowering does without a break: a step that neither pushes nor calls, or a call with the
pushes of its arguments, which have the types of the parameters. -/
inductive Phrase : Lowering → Lowering → Prop
  | declare {s s' : Lowering} : Issue s s' → s'.listing.arena = s.listing.arena → Phrase s s'
  | plain {s s' : Lowering} {x : Instr} : Issue s s' →
    s'.listing.arena = s.listing.arena.push x → x.action.inCall = false → Phrase s s'
  | call {s t s' : Lowering} {name : String} {f : Signature} {args : List Operand}
    {target : Option VarId} : s.listing.functions.get? name = some f →
    List.Forall₂ s.Yields args f.params → Lower.Pushes args s t →
    Performs t (.call f.label target) s' → Phrase s s'

def Phrases : Lowering → Lowering → Prop := Relation.ReflTransGen Phrase

lemma emit_block {a : Action} {id : InstrId} (he : s.emit a = .ok (s', id))
    (hends : a.operator.endsBlock = false) : s'.block = s.block := by
  obtain ⟨-, -, -, -, -, -, -, -, hblock⟩ := emit_eq he
  rw [hblock, hends]
  rfl

lemma pushes_issues {args : List Operand} {s s' : Lowering} (h : Lower.Pushes args s s')
    (hargs : ∀ o ∈ args, ∃ ty, s.Yields o ty) : Issues s s' ∧ s'.block = s.block := by
  induction h with
  | nil => exact ⟨.refl _, rfl⟩
  | @cons o rest s t s' id he _ ih =>
    obtain ⟨ty, hy⟩ := hargs o (by simp)
    have hissue : Issues s t := (Issue.emit he (.push hy.typed) rfl
      (by simpa [Listing.uses_eq] using hy.held)
      (by simp [Action.targetVar, Action.target])).issues
    have hblock : t.block = s.block := emit_block he rfl
    obtain ⟨hrest, hblock'⟩ := ih fun o' ho' => by
      obtain ⟨ty', hy'⟩ := hargs o' (by simp [ho'])
      exact ⟨ty', hy'.mono hissue hblock⟩
    exact ⟨hissue.trans hrest, hblock'.trans hblock⟩

lemma exists_yields {args : List Operand} {params : List Ty}
    (h : List.Forall₂ s.Yields args params) : ∀ o ∈ args, ∃ ty, s.Yields o ty := by
  induction h with
  | nil => simp
  | cons hy _ ih => exact List.forall_mem_cons.2 ⟨⟨_, hy⟩, ih⟩

lemma Phrase.issues (h : Phrase s s') : Issues s s' := by
  cases h with
  | declare hissue => exact hissue.issues
  | plain hissue => exact hissue.issues
  | call _ hargs hpush hcall =>
    exact (pushes_issues hpush (exists_yields hargs)).1.trans hcall.issue.issues

namespace Phrases

lemma refl (s : Lowering) : Phrases s s := Relation.ReflTransGen.refl

lemma trans (h : Phrases s t) (h' : Phrases t s') : Phrases s s' :=
  Relation.ReflTransGen.trans h h'

lemma issues (h : Phrases s s') : Issues s s' := by
  induction h with
  | refl => exact .refl s
  | tail _ hstep ih => exact ih.trans hstep.issues

lemma regular (h : Phrases s s') (hs : s.Regular) : s'.Regular := h.issues.regular hs

lemma declare (h : Issue s s') (harena : s'.listing.arena = s.listing.arena) : Phrases s s' :=
  .single (.declare h harena)

lemma declareFunction {p : Source.Prototype} {define : Bool} {f : Signature}
    (h : s.declareFunction p define = .ok (s', f)) : Phrases s s' := by
  refine .declare (.declareFunction h) ?_
  obtain ⟨functions, labels, -, rfl⟩ := declareFunction_eq h
  rfl

lemma emit {a : Action} {id : InstrId} (he : s.emit a = .ok (s', id)) (ha : a.HasTy s.listing ty)
    (hcall : a.inCall = false) (hlabel : a.definedLabel = none)
    (huses : ∀ v ∈ s.listing.uses a, s.Holds v) (htarget : ∀ v ∈ a.targetVar, v ∈ s.listing.named) :
    Phrases s s' :=
  .single (.plain (.emit he ha hlabel huses htarget) (emit_push he ha) hcall)

lemma startAt {label : LabelId} (h : s.startAt label = .ok s') : Phrases s s' := by
  obtain ⟨t, he, -, heq⟩ := startAt_eq h
  have hpush := emit_push he (.label label)
  rw [leaveBlock_listing] at hpush
  exact .single (.plain (.startAt h) (by rw [heq]; exact hpush) rfl)

end Phrases

/-- The phrases of an expression stay in one block. -/
structure Evaluates (s s' : Lowering) : Prop where
  phrases : Phrases s s'
  block : s'.block = s.block

lemma Evaluates.refl (s : Lowering) : Evaluates s s := ⟨.refl s, rfl⟩

lemma Evaluates.trans (h : Evaluates s t) (h' : Evaluates t s') : Evaluates s s' :=
  ⟨h.phrases.trans h'.phrases, h'.block.trans h.block⟩

lemma Evaluates.issues (h : Evaluates s s') : Issues s s' := h.phrases.issues

lemma Performs.evaluates {a : Action} (h : Performs s a s') (ha : a.inCall = false) :
    Evaluates s s' := by
  obtain ⟨i, ty, harena⟩ := h.arena
  exact ⟨.single (.plain h.issue harena ha), h.block⟩

lemma Yields.later (h : s.Yields o ty) (he : Evaluates s s') : s'.Yields o ty :=
  h.mono he.issues he.block

end

end Lowering

namespace Lower

open Source Lowering

variable {s t s' : Lowering} {a : Action} {id : InstrId} {v : VarId} {ty : Ty}

/-! ### Expressions -/

/-- An instruction that assigns nothing, or a variable that has a name. -/
lemma emit_performs (he : s.emit a = .ok (s', id)) (ht : a.HasTy s.listing ty)
    (hends : a.operator.endsBlock = false) (hlabel : a.definedLabel = none)
    (huses : ∀ v ∈ s.listing.uses a, s.Holds v)
    (htarget : ∀ v ∈ a.targetVar, v ∈ s.listing.named) : Performs s a s' :=
  ⟨.emit he ht hlabel huses htarget, ⟨_, _, emit_push he ht⟩, emit_block he hends⟩

lemma freshTemporary_spec (h : s.freshTemporary ty = (t, v)) :
    t.block = s.block ∧ t.listing.typeOf? (.var v) = some ty := by
  obtain ⟨rfl, rfl⟩ := Prod.mk.inj h
  exact ⟨rfl, freshTemporary_typeOf? s ty⟩

lemma freshTemporary_arena (h : s.freshTemporary ty = (t, v)) :
    t.listing.arena = s.listing.arena := by
  obtain ⟨rfl, -⟩ := Prod.mk.inj h
  rfl

/-- An instruction with a temporary of its own. -/
lemma compute_performs (hvalue : ty.isValue) (hv : s.freshTemporary ty = (t, v))
    (he : t.emit a = .ok (s', id))
    (ht : ∀ {l}, s.listing.KeepsTypes l → l.typeOf? (.var v) = some ty → a.HasTy l ty)
    (huses : ∀ w ∈ s.listing.uses a, s.Holds w) (htarget : a.targetVar = some v)
    (hends : a.operator.endsBlock = false) : Performs s a s' ∧ s'.Yields (.var v) ty := by
  have hkeeps := ((freshTemporary_computes hv).1.reaches (k := 0)).carries.keepsTypes
  obtain ⟨hold, hty⟩ := freshTemporary_spec hv
  have hissue := Issue.compute hvalue hv he (ht hkeeps hty) huses htarget
  have hblock : s'.block = s.block := (emit_block he hends).trans hold
  have harena := emit_push he (ht hkeeps hty)
  rw [hold, freshTemporary_arena hv] at harena
  refine ⟨⟨hissue, ⟨_, _, harena⟩, hblock⟩, .var ?_, fun w hw => ?_, by simp⟩
  · simpa only [Listing.typeOf?, (emit_emitted he).1.vars] using hty
  · obtain rfl : w = v := by simpa [Listing.operandUses, Listing.resolve] using hw
    obtain ⟨rfl, ty', -, hl, -⟩ := emit_eq he
    refine .inr ⟨t.listing.arena.size, ⟨t.listing.arena.size, a, ty', t.block⟩, ?_, htarget,
      hold.trans hblock.symm⟩
    simp [hl, Listing.instr?]

lemma named_yields (hnamed : v ∈ s.listing.named) (hty : s.listing.typeOf? (.var v) = some ty) :
    s.Yields (.var v) ty := by
  refine ⟨.var hty, fun w hw => .inl ?_, by simp⟩
  obtain rfl : w = v := by simpa [Listing.operandUses, Listing.resolve] using hw
  exact hnamed

/-- An instruction puts a result where it is wanted. -/
lemma result_performs {dest : Option VarId} (hvalue : ty.isValue)
    (hdest : ∀ w ∈ dest, w ∈ s.listing.named ∧ s.listing.typeOf? (.var w) = some ty)
    (hd : destination dest ty s = .ok (v, t)) (he : t.emit a = .ok (s', id))
    (ht : ∀ {l}, s.listing.KeepsTypes l → l.typeOf? (.var v) = some ty → a.HasTy l ty)
    (huses : ∀ w ∈ s.listing.uses a, s.Holds w) (htarget : a.targetVar = some v)
    (hends : a.operator.endsBlock = false) : Performs s a s' ∧ s'.Yields (.var v) ty := by
  obtain ⟨rfl, rfl⟩ | ⟨-, hv⟩ := destination_ok hd
  · obtain ⟨hnamed, hty⟩ := hdest v rfl
    have hperforms := emit_performs he (ht (.refl _) hty) hends (definedLabel_of_targetVar htarget)
      huses (fun w hw => Option.some.inj (htarget.symm.trans hw) ▸ hnamed)
    exact ⟨hperforms, (named_yields hnamed hty).mono hperforms.issue.issues hperforms.block⟩
  · exact compute_performs hvalue hv he ht huses htarget hends

lemma wanted_later {dest : Option VarId} (h : Issues s s')
    (hdest : ∀ w ∈ dest, w ∈ s.listing.named ∧ s.listing.typeOf? (.var w) = some ty) :
    ∀ w ∈ dest, w ∈ s'.listing.named ∧ s'.listing.typeOf? (.var w) = some ty := fun w hw =>
  ⟨h.extends.kept.named.subset (hdest w hw).1, h.extends.keepsTypes.types (hdest w hw).2⟩

/-- A copy to a variable that has a name, or to an element. -/
lemma copy_evaluates {o : Operand} {place : Place} (hs : s.Regular) (ho : s.Yields o ty)
    (hp : s.Yields place.operand ty) (hnamed : ∀ v ∈ place.var?, v ∈ s.listing.named)
    (he : s.emit (.copy o place) = .ok (s', id)) : Evaluates s s' := by
  refine (emit_performs he (.copy (hs.isValue hp.typed) ho.typed hp.typed) rfl rfl
    (fun w hw => ?_) (by simpa using hnamed)).evaluates rfl
  rw [Listing.uses_eq] at hw
  obtain hw | hw := List.mem_append.1 hw
  · exact ho.held w hw
  · cases place with
    | var v => simp [Place.operand, Listing.targetUses] at hw
    | elem b index => exact hp.held w hw

/-- What may stand as an index, and be read here. -/
def Indexes (s : Lowering) (o : Operand) : Prop :=
  o.IsIndex s.listing ∧ ∀ v ∈ s.listing.operandUses o, s.Holds v

lemma index_evaluates {name : String} {value : Lowered} {o : Operand}
    (hy : s.Yields value.operand value.ty) (h : index name value s = .ok (o, s')) :
    Evaluates s s' ∧ Indexes s' o := by
  obtain ⟨hint, h⟩ := index_ok h
  obtain ⟨htyped, hheld⟩ := hy
  rw [hint] at htyped
  split at h
  · rename_i hscalar
    obtain ⟨rfl, rfl⟩ := h
    refine ⟨.refl _, ?_, hheld⟩
    generalize value.operand = o at htyped hscalar
    cases htyped with
    | int => trivial
    | var hv => exact hv
    | elem => cases hscalar
  · obtain ⟨t, v, id, hv, he, rfl⟩ := h
    obtain ⟨hperforms, hyields⟩ := compute_performs rfl hv he
      (fun hk hty => .copy rfl (htyped.mono hk) (.var hty))
      (by simpa [Listing.uses_eq, Place.operand, Listing.targetUses] using hheld) rfl rfl
    exact ⟨hperforms.evaluates rfl, hyields.typed.typeOf?, hyields.held⟩

/-- An element of an array. -/
lemma Indexes.yields {o : Operand} {b : ArrayId} (h : Indexes s o)
    (hb : s.listing.typeOf? (.array b) = some ty) : s.Yields (.elem b o) ty :=
  ⟨.elem hb h.1, h.2, by simp⟩

lemma call_evaluates {name : String} {f : Signature} {args : List Operand} {dest : Option VarId}
    {r : Lowered} (hf : s.listing.functions.get? name = some f)
    (hargs : List.Forall₂ s.Yields args f.params)
    (hdest : ∀ w ∈ dest, w ∈ s.listing.named ∧ s.listing.typeOf? (.var w) = some r.ty)
    (h : call f args dest s = .ok (r, s')) : Evaluates s s' ∧ s'.Yields r.operand r.ty := by
  obtain ⟨t, hpush, h⟩ := call_ok h
  obtain ⟨hst, hblock⟩ := pushes_issues hpush (exists_yields hargs)
  have hkeeps := hst.extends.keepsTypes
  have hevaluates {target : Option VarId} (hcall : Performs t (.call f.label target) s') :
      Evaluates s s' := ⟨.single (.call hf hargs hpush hcall), hcall.block.trans hblock⟩
  split at h
  · rename_i hvalue
    obtain ⟨v, t', id, hd, he, rfl⟩ := h
    obtain ⟨hcall, hyields⟩ := result_performs hvalue
      (wanted_later hst hdest) hd he
      (fun {l} hk hty => by
        obtain ⟨g, hg, hlabel, hreturns⟩ := (hkeeps.trans hk).functions hf
        rw [← hreturns] at hvalue hty ⊢
        exact .callInto hg hlabel hvalue hty)
      (by simp [Listing.uses_eq]) (by simp) rfl
    exact ⟨hevaluates hcall, hyields⟩
  · rename_i hvalue
    obtain ⟨id, he, rfl⟩ := h
    obtain ⟨g, hg, hlabel, hreturns⟩ := hkeeps.functions hf
    have hnone : g.returns.isValue = false := by simpa [hreturns] using hvalue
    have hcall := emit_performs he (.call hg hlabel hnone) rfl rfl
      (by simp [Listing.uses_eq]) (by simp)
    obtain ⟨rfl, ty, hty, hl, -⟩ := emit_eq he
    obtain rfl : .none = ty := Except.ok.inj hty
    refine ⟨hevaluates hcall, .instr ?_, ?_, fun {i} hi => ?_⟩
    · simp [Listing.typeOf?, Listing.instr?, hl]
    · simp [Listing.operandUses, Listing.resolve, Listing.instr?, hl]
    · obtain rfl := Operand.instr.inj hi
      exact ⟨⟨t.listing.arena.size, .call f.label none, .none, t.block⟩, f.label,
        by simp [Listing.instr?, hl], rfl⟩

mutual

/-- Lowering an expression issues typed instructions, and its result has its type. A result that
is wanted in a variable of another type is left to the caller to refuse. -/
theorem expr_evaluates (e : Expr) {dest : Option VarId} {s s' : Lowering} {r : Lowered}
    (hs : s.Regular)
    (hdest : ∀ w ∈ dest, w ∈ s.listing.named ∧ s.listing.typeOf? (.var w) = some r.ty)
    (h : expr dest e s = .ok (r, s')) : Evaluates s s' ∧ s'.Yields r.operand r.ty := by
  match e with
  | .int value =>
    obtain ⟨rfl, rfl⟩ := pure_ok.1 h
    exact ⟨.refl _, .int value, by simp [Listing.operandUses, Listing.resolve], by simp⟩
  | .float value =>
    obtain ⟨rfl, rfl⟩ := pure_ok.1 h
    exact ⟨.refl _, .float value, by simp [Listing.operandUses, Listing.resolve], by simp⟩
  | .var name =>
    obtain ⟨v, ty, hl, hty, rfl, rfl⟩ := scalar_ok h
    exact ⟨.refl _, named_yields (hs.lookup hl) hty⟩
  | .elem name inner =>
    obtain ⟨a, value, t, o, ty, -, he, hi, hty, rfl⟩ := expr_elem_ok h
    obtain ⟨h₁, hvalue⟩ := expr_evaluates inner hs (by simp) he
    obtain ⟨h₂, hindex⟩ := index_evaluates hvalue hi
    exact ⟨h₁.trans h₂, hindex.yields hty⟩
  | .paren inner => exact expr_evaluates inner hs hdest (expr_paren ▸ h)
  | .assign lhs rhs =>
    obtain ⟨value, t, target, t', he, hp, h⟩ := expr_assign_ok h
    obtain ⟨h₁, hvalue⟩ := expr_evaluates rhs hs (by simp) he
    obtain ⟨h₂, hplace, hnamed⟩ := place_evaluates lhs (h₁.issues.regular hs) hp
    obtain ⟨hty, id, hemit, rfl⟩ := assign_ok h
    have hvalue' := hvalue.later h₂
    have h₃ := copy_evaluates ((h₁.trans h₂).issues.regular hs) (hty ▸ hvalue') hplace hnamed hemit
    exact ⟨h₁.trans (h₂.trans h₃), hplace.later h₃⟩
  | .binary op lhs rhs =>
    obtain ⟨left, t, right, t', hl, hr, h⟩ := expr_binary_ok h
    obtain ⟨h₁, hleft⟩ := expr_evaluates lhs hs (by simp) hl
    obtain ⟨h₂, hright⟩ := expr_evaluates rhs (h₁.issues.regular hs) (by simp) hr
    obtain ⟨hty, hvalue, v, t₁, id, hd, he, rfl⟩ := binary_ok h
    have h₁₂ := h₁.trans h₂
    have hleft' := hleft.later h₂
    rw [← hty] at hright
    obtain ⟨h₃, hresult⟩ := result_performs (op.isValue_resultTy hvalue)
      (wanted_later h₁₂.issues hdest) hd he
      (fun hk hv => .compute hvalue (hleft'.typed.mono hk) (hright.typed.mono hk) hv)
      (fun w hw => by
        rw [Listing.uses_eq] at hw
        obtain hw | hw := List.mem_append.1 hw
        · exact hleft'.held w hw
        · exact hright.held w hw) rfl rfl
    exact ⟨h₁₂.trans (h₃.evaluates rfl), hresult⟩
  | .unary op operand =>
    obtain ⟨value, t, hv, h⟩ := expr_unary_ok h
    obtain ⟨h₁, hoperand⟩ := expr_evaluates operand hs (by simp) hv
    obtain ⟨hvalue, v, t₁, id, hd, he, rfl⟩ := unary_ok h
    obtain ⟨h₂, hresult⟩ := result_performs (op.isValue_resultTy hvalue)
      (wanted_later h₁.issues hdest) hd he
      (fun hk hv => .apply hvalue (hoperand.typed.mono hk) hv)
      (by simpa [Listing.uses_eq] using hoperand.held) rfl rfl
    exact ⟨h₁.trans (h₂.evaluates rfl), hresult⟩
  | .call function args =>
    obtain ⟨f, values, t, hget, hlen, ha, h⟩ := expr_call_ok h
    obtain ⟨h₁, hvalues⟩ := arguments_evaluates args hs hlen ha
    have hget' := ((arguments_computes args ha).1.reaches (k := 0)).functions ▸ hget
    obtain ⟨h₂, hresult⟩ := call_evaluates hget' hvalues (wanted_later h₁.issues hdest) h
    exact ⟨h₁.trans h₂, hresult⟩

theorem place_evaluates (e : Expr) {s s' : Lowering} {target : Target} (hs : s.Regular)
    (h : place e s = .ok (target, s')) :
    Evaluates s s' ∧ s'.Yields target.place.operand target.ty ∧
      ∀ v ∈ target.place.var?, v ∈ s'.listing.named := by
  match e with
  | .paren inner => exact place_evaluates inner hs (place_paren ▸ h)
  | .var name =>
    obtain ⟨v, ty, hl, hty, rfl, rfl⟩ := place_var_ok h
    have hnamed := hs.lookup hl
    exact ⟨.refl _, named_yields hnamed hty, fun w hw => Option.some.inj hw ▸ hnamed⟩
  | .elem name inner =>
    obtain ⟨a, value, t, o, ty, -, he, hi, hty, rfl⟩ := place_elem_ok h
    obtain ⟨h₁, hvalue⟩ := expr_evaluates inner hs (by simp) he
    obtain ⟨h₂, hindex⟩ := index_evaluates hvalue hi
    exact ⟨h₁.trans h₂, hindex.yields hty, by simp [Place.var?]⟩
  | .int _ | .float _ | .binary _ _ _ | .assign _ _ | .unary _ _ | .call _ _ =>
    exact (refuse_ok.1 h).elim

theorem arguments_evaluates (args : List Expr) {function : String} {position : Nat}
    {params : List Ty} {s s' : Lowering} {values : List Operand} (hs : s.Regular)
    (hlen : params.length = args.length)
    (h : arguments function position params args s = .ok (values, s')) :
    Evaluates s s' ∧ List.Forall₂ s'.Yields values params := by
  match args, params with
  | [], [] =>
    obtain ⟨rfl, rfl⟩ := pure_ok.1 h
    exact ⟨.refl _, .nil⟩
  | arg :: rest, param :: params =>
    obtain ⟨value, t, values, he, hty, hr, rfl⟩ := arguments_cons_ok h
    obtain rfl : param = value.ty := hty
    obtain ⟨h₁, hvalue⟩ := expr_evaluates arg hs (by simp) he
    obtain ⟨h₂, hvalues⟩ := arguments_evaluates rest (h₁.issues.regular hs)
      (Nat.succ.inj hlen) hr
    exact ⟨h₁.trans h₂, .cons (hvalue.later h₂) hvalues⟩

end

/-! ### Statements -/

lemma freshLabel_evaluates {label : LabelId} (h : s.freshLabel = (s', label)) :
    Evaluates s s' := by
  obtain ⟨rfl, rfl⟩ := Prod.mk.inj h
  exact ⟨.declare (.freshLabel s) rfl, rfl⟩

lemma Branches.phrases {test : Expr} {label : LabelId} (h : Branches test label s s')
    (hs : s.Regular) : Phrases s s' := by
  obtain ⟨o, t, t', id, hc, hl, hj⟩ := h
  obtain ⟨ty, he, hvalue⟩ := condition_ok hc
  obtain ⟨h₁, hcond⟩ := expr_evaluates test hs (by simp) he
  have h₂ := freshLabel_evaluates hl
  have hcond' := hcond.later h₂
  refine (h₁.trans h₂).phrases.trans
    (.emit hj (.jumpFalse hvalue hcond'.typed) rfl rfl ?_ ?_)
  · simpa [Listing.uses_eq] using hcond'.held
  · simp [Action.targetVar, Action.target]

lemma jump_phrases {label : LabelId} (he : s.emit (.jump label) = .ok (s', id)) : Phrases s s' := by
  refine .emit he (.jump label) rfl rfl ?_ ?_ <;>
    simp [Listing.uses_eq, Action.targetVar, Action.target]

lemma jumpToJoin_phrases {join : Option LabelId} (h : jumpToJoin s = .ok (join, s')) :
    Phrases s s' := by
  have h := jumpToJoin_ok h
  split at h
  · exact h.2 ▸ .refl _
  · obtain ⟨t, label, id, hl, he, -⟩ := h
    exact (freshLabel_evaluates hl).phrases.trans (jump_phrases he)

lemma jumpUnlessEnded_phrases {label : LabelId} {u : Unit}
    (h : jumpUnlessEnded label s = .ok (u, s')) : Phrases s s' := by
  have h := jumpUnlessEnded_ok h
  split at h
  · exact h ▸ .refl _
  · obtain ⟨id, he⟩ := h
    exact jump_phrases he

lemma joinAt_phrases {join : Option LabelId} {u : Unit} (h : join.forM startAt s = .ok (u, s')) :
    Phrases s s' := by
  cases join with
  | none =>
    obtain ⟨-, rfl⟩ := pure_ok.1 h
    exact .refl _
  | some label => exact .startAt (startAt_ok.1 h)

/-- A new variable has a name and a type. -/
lemma freshVariable_phrases {name : String} {scope : Scope} {marks : Marks} (hvalue : ty.isValue)
    (h : s.freshVariable name ty scope marks = (t, v)) :
    Phrases s t ∧ v ∈ t.listing.named ∧ t.listing.typeOf? (.var v) = some ty := by
  have hnamed := named_freshVariable h
  have hty := freshVariable_typeOf? h
  obtain ⟨rfl, rfl⟩ := Prod.mk.inj h
  exact ⟨.declare (.freshVariable s name scope marks hvalue) rfl, by simp [hnamed], hty⟩

/-- A name is bound to a variable that has a name, or to an array. -/
lemma bind_phrases {name : String} {symbol : Symbol} {scopes : Scopes} (hs : s.Regular)
    (hnamed : ∀ {v}, symbol = .var v → v ∈ s.listing.named)
    (hb : s.scopes.bind name symbol = .ok scopes) : Phrases s { s with scopes } := by
  refine .declare (.scopes s fun {n v} hv => ?_) rfl
  rw [(bind_spec hb).1, List.mem_cons, Prod.mk.injEq] at hv
  obtain ⟨-, hsymbol⟩ | hv := hv
  · exact hnamed hsymbol.symm
  · exact hs.bound hv

lemma initVariable_phrases {name : String} {init : Expr} {u : Unit} (hs : s.Regular)
    (hnamed : v ∈ s.listing.named) (hty : s.listing.typeOf? (.var v) = some ty)
    (h : initVariable name ty v init s = .ok (u, s')) : Phrases s s' := by
  obtain ⟨value, t, he, hvalue, hrest⟩ := initVariable_ok h
  rw [← hvalue] at hty
  have hdest : ∀ w ∈ some v, w ∈ s.listing.named ∧ s.listing.typeOf? (.var w) = some value.ty := by
    rintro w hw
    obtain rfl := Option.some.inj hw
    exact ⟨hnamed, hty⟩
  obtain ⟨h₁, hyields⟩ := expr_evaluates init hs hdest he
  split at hrest
  · exact hrest ▸ h₁.phrases
  · obtain ⟨id, hcopy⟩ := hrest
    have hplace : t.Yields (Place.var v).operand value.ty := (named_yields hnamed hty).later h₁
    refine (h₁.trans (copy_evaluates (h₁.issues.regular hs) hyields hplace ?_ hcopy)).phrases
    exact fun w hw => Option.some.inj hw ▸ h₁.issues.extends.kept.named.subset hnamed

lemma declare_phrases {dty : DeclTy} {name : String} {init : Option Expr} {u : Unit}
    (hs : s.Regular) (h : declare dty name init s = .ok (u, s')) : Phrases s s' := by
  obtain ⟨hvalue, -, t, v, t', scopes, hv, hinit, hb, rfl⟩ := declare_ok h
  obtain ⟨h₁, hnamed, hty⟩ := freshVariable_phrases hvalue hv
  have h₂ : Phrases t t' := by
    cases init with
    | none => exact hinit ▸ .refl t
    | some e => exact initVariable_phrases (h₁.regular hs) hnamed hty hinit
  have hnamed' := h₂.issues.extends.kept.named.subset hnamed
  refine h₁.trans (h₂.trans (bind_phrases ((h₁.trans h₂).regular hs) (fun {w} hw => ?_) hb))
  obtain rfl := Symbol.var.inj hw
  exact hnamed'

lemma declareArray_phrases {dty : DeclTy} {name : String} {length : Nat} {u : Unit}
    (hs : s.Regular) (h : declareArray dty name length s = .ok (u, s')) : Phrases s s' := by
  obtain ⟨hvalue, -, t, a, scopes, ha, hb, rfl⟩ := declareArray_ok h
  obtain ⟨rfl, rfl⟩ := Prod.mk.inj ha
  have h₁ : Phrases s (s.freshArray ⟨name, dty.ty, length, s.scopes.current⟩).1 :=
    .declare (.freshArray s hvalue) rfl
  exact h₁.trans (bind_phrases (h₁.regular hs) (by simp) hb)

lemma ret_phrases {value : Option Operand} (hv : ∀ o ∈ value, ∃ ty, s.Yields o ty)
    (he : s.emit (.ret value) = .ok (s', id)) : Phrases s s' := by
  cases value with
  | none =>
    refine .emit he .ret rfl rfl ?_ ?_ <;>
      simp [Listing.uses_eq, Action.targetVar, Action.target]
  | some o =>
    obtain ⟨ty, ho⟩ := hv o rfl
    refine .emit he (.retValue ho.typed) rfl rfl ?_ ?_
    · simpa [Listing.uses_eq] using ho.held
    · simp [Action.targetVar, Action.target]

/-- The scope of a compound statement. -/
lemma pushScope_phrases (hs : s.Regular) : Phrases s { s with scopes := s.scopes.push } :=
  .declare (.scopes s fun hv => hs.bound (by rwa [bindings_push] at hv)) rfl

lemma popScope_phrases (hs : s.Regular) : Phrases s { s with scopes := s.scopes.pop } := by
  refine .declare (.scopes s fun {name v} hv => ?_) rfl
  obtain ⟨frame, hframe, hname⟩ := List.mem_flatMap.1 hv
  have hmem : (name, Symbol.var v) ∈ bindings s.scopes :=
    List.mem_flatMap.2 ⟨frame, List.mem_of_mem_tail hframe, hname⟩
  exact hs.bound hmem

mutual

theorem stmt_phrases (body : Stmt) {s s' : Lowering} {u : Unit} (hs : s.Regular)
    (h : stmt body s = .ok (u, s')) : Phrases s s' := by
  cases hr : s.unreachable with
  | true => exact stmt_unreachable h hr ▸ .refl _
  | false =>
  match body with
  | .expr e =>
    obtain ⟨r, he⟩ := stmt_expr_ok hr h
    exact (expr_evaluates e hs (by simp) he).1.phrases
  | .compound body =>
    obtain ⟨t, hb, rfl⟩ := stmt_compound_ok hr h
    have h₁ := pushScope_phrases hs
    have h₂ := h₁.trans (stmts_phrases body (h₁.regular hs) hb)
    exact h₂.trans (popScope_phrases (h₂.regular hs))
  | .ifThen test body =>
    obtain ⟨label, t, t', htest, hb, hst⟩ := stmt_ifThen_ok hr h
    have h₁ := htest.phrases hs
    have h₂ := h₁.trans (stmt_phrases body (h₁.regular hs) hb)
    exact h₂.trans (.startAt hst)
  | .ifElse test onTrue onFalse =>
    obtain ⟨label, t, t₁, join, t₂, t₃, t₄, htest, ht, hjoin, hst, hf, hend⟩ :=
      stmt_ifElse_ok hr h
    have h₁ := htest.phrases hs
    have h₂ := h₁.trans (stmt_phrases onTrue (h₁.regular hs) ht)
    have h₃ := h₂.trans ((jumpToJoin_phrases hjoin).trans (.startAt hst))
    have h₄ := h₃.trans (stmt_phrases onFalse (h₃.regular hs) hf)
    exact h₄.trans (joinAt_phrases hend)
  | .while test body =>
    obtain ⟨head, t₁, t₂, label, t₃, t₄, t₅, hh, hst, htest, hb, hback, hend⟩ :=
      stmt_while_ok hr h
    have h₁ := (freshLabel_evaluates hh).phrases.trans (.startAt hst)
    have h₂ := h₁.trans (htest.phrases (h₁.regular hs))
    have h₃ := h₂.trans (stmt_phrases body (h₂.regular hs) hb)
    exact h₃.trans ((jumpUnlessEnded_phrases hback).trans (.startAt hend))
  | .decl ty name init => exact declare_phrases hs (stmt_decl_ok hr h)
  | .array ty name length => exact declareArray_phrases hs (stmt_array_ok hr h)
  | .ret none =>
    obtain ⟨-, id, he⟩ := ret_ok (stmt_ret_ok hr h)
    exact ret_phrases (by simp) he
  | .ret (some value) =>
    obtain ⟨r, t, he, h⟩ := stmt_retValue_ok hr h
    obtain ⟨h₁, hvalue⟩ := expr_evaluates value hs (by simp) he
    obtain ⟨-, id, hret⟩ := ret_ok h
    exact h₁.phrases.trans (ret_phrases (by simpa using ⟨_, hvalue⟩) hret)

theorem stmts_phrases (body : List Stmt) {s s' : Lowering} {u : Unit} (hs : s.Regular)
    (h : stmts body s = .ok (u, s')) : Phrases s s' := by
  match body with
  | [] =>
    obtain ⟨-, rfl⟩ := pure_ok.1 h
    exact .refl _
  | first :: rest =>
    obtain ⟨t, hf, hr⟩ := stmts_cons_ok h
    have h₁ := stmt_phrases first hs hf
    exact h₁.trans (stmts_phrases rest (h₁.regular hs) hr)

end

/-! ### Programs -/

lemma params_phrases {ps : List Param} {s s' : Lowering} (h : Params ps s s') (hs : s.Regular) :
    Phrases s s' := by
  induction h with
  | nil => exact .refl _
  | @cons p rest s t s' hp _ ih =>
    obtain ⟨hvalue, t₁, v, scopes, id, hv, hb, he⟩ := param_ok hp
    obtain ⟨h₁, hnamed, hty⟩ := freshVariable_phrases hvalue hv
    have h₂ := h₁.trans (bind_phrases (h₁.regular hs) (fun hw => Symbol.var.inj hw ▸ hnamed) hb)
    have h₃ : Phrases { t₁ with scopes } t := by
      refine .emit he (.param hvalue hty) rfl rfl ?_ ?_
      · simp [Listing.uses_eq]
      · exact fun w hw => Option.some.inj hw ▸ hnamed
    exact h₂.trans (h₃.trans (ih ((h₂.trans h₃).regular hs)))

lemma functionEnd_phrases {t t' : Lowering} (h : FunctionEnd t t') : Phrases t t' := by
  unfold FunctionEnd at h
  split at h
  · exact h ▸ .refl _
  · obtain ⟨id, he⟩ := h
    exact ret_phrases (by simp) he

lemma item_phrases {i : Item} {u : Unit} (hs : s.Regular) (h : item i s = .ok (u, s')) :
    Phrases s s' := by
  cases i with
  | prototype p =>
    obtain ⟨f, hd⟩ := item_prototype_ok h
    exact .declareFunction hd
  | function p body =>
    obtain ⟨f, t₁, t₂, t₃, t₄, t₅, hd, hst, hp, hb, he, rfl⟩ := function_ok h
    have h₂ := (Phrases.declareFunction hd).trans (.startAt hst)
    have h₂' := h₂.trans (pushScope_phrases (h₂.regular hs))
    have h₃ := h₂'.trans (params_phrases hp (h₂'.regular hs))
    have h₃' := h₃.trans (.declare (.context t₃ (some ⟨p.name, p.returns.ty⟩)) rfl)
    have h₄ := h₃'.trans (stmt_phrases body (h₃'.regular hs) hb)
    have h₅ := h₄.trans ((functionEnd_phrases he).trans (.declare (.context t₅ none) rfl))
    exact h₅.trans (popScope_phrases (h₅.regular hs))

lemma items_phrases {is : List Item} {u : Unit} {s s' : Lowering} (hs : s.Regular)
    (h : is.forM item s = .ok (u, s')) : Phrases s s' := by
  induction is generalizing s with
  | nil =>
    obtain ⟨-, rfl⟩ := pure_ok.1 h
    exact .refl _
  | cons i rest ih =>
    obtain ⟨t, hi, hrest⟩ := forM_cons_ok.1 h
    have h₁ := item_phrases hs hi
    exact h₁.trans (ih (h₁.regular hs) hrest)

/-- Lowering a program goes in phrases. -/
theorem program_phrases {p : Program} {u : Unit} (h : program p .start = .ok (u, s')) :
    Phrases .start s' := by
  cases p with
  | stmt body => exact stmt_phrases body regular_start h
  | items is => exact items_phrases regular_start h

/-- Lowering a program issues typed instructions only. -/
theorem program_issues {p : Program} {u : Unit} (h : program p .start = .ok (u, s')) :
    Issues .start s' :=
  (program_phrases h).issues

end Lower

end ThreeAddress
