import ThreeAddress.Proofs.Coherent
import ThreeAddress.Proofs.Lowering.Success

/-!
Lowering as a sequence of elementary steps.

All that lowering ever does to its state is one of a few elementary changes: those of
`Compute` for expressions, those of `Step` for statements and those of `ItemStep` for items.
Every instruction that is emitted names only what exists. What each change keeps, lowering
keeps.
-/

namespace ThreeAddress

namespace Lowering

/-- A change while an expression is lowered. -/
inductive Compute : Lowering → Lowering → Prop
  | emit {s s' : Lowering} {action : Action} {id : InstrId} :
    s.emit action = .ok (s', id) → action.InScope s.listing → action.definedLabel = none →
      action.operator.endsPath = false → Compute s s'
  | freshTemporary (s : Lowering) (ty : Ty) : Compute s (s.freshTemporary ty).1

/-- A change while a statement is lowered. No label before `k` is placed. -/
inductive Step (k : Nat) : Lowering → Lowering → Prop
  | emit {s s' : Lowering} {action : Action} {id : InstrId} :
    s.emit action = .ok (s', id) → action.InScope s.listing → action.definedLabel = none →
      Step k s s'
  | startAt {s s' : Lowering} {label : LabelId} : s.startAt label = .ok s' → k ≤ label →
    Step k s s'
  | freshLabel (s : Lowering) : Step k s s.freshLabel.1
  | freshTemporary (s : Lowering) (ty : Ty) : Step k s (s.freshTemporary ty).1
  | freshVariable (s : Lowering) (name : String) (ty : Ty) (scope : Scope) (marks : Marks) :
    Step k s (s.freshVariable name ty scope marks).1
  | freshArray (s : Lowering) (decl : ArrayDecl) : Step k s (s.freshArray decl).1
  | scopes (s : Lowering) (scopes : Scopes) : Step k s { s with scopes }

/-- A change while an item is lowered. -/
inductive ItemStep : Lowering → Lowering → Prop
  | step {s s' : Lowering} : Step 0 s s' → ItemStep s s'
  | context (s : Lowering) (function : Option FunctionContext) : ItemStep s { s with function }
  | declareFunction {s s' : Lowering} {p : Source.Prototype} {define : Bool} {f : Signature} :
    s.declareFunction p define = .ok (s', f) → ItemStep s s'

/-- The state `s'` comes of `s` while an expression is lowered. -/
def Computes : Lowering → Lowering → Prop := Relation.ReflTransGen Compute

/-- The state `s'` comes of `s` while statements are lowered that place no label before
`k`. -/
def Reaches (k : Nat) : Lowering → Lowering → Prop := Relation.ReflTransGen (Step k)

/-- The state `s'` comes of `s` while items are lowered. -/
def Extends : Lowering → Lowering → Prop := Relation.ReflTransGen ItemStep

section

variable {k k' : Nat} {s t s' : Lowering}

lemma Compute.computes (h : Compute s s') : Computes s s' := .single h

lemma Computes.refl (s : Lowering) : Computes s s := Relation.ReflTransGen.refl

lemma Computes.trans (h : Computes s t) (h' : Computes t s') : Computes s s' :=
  Relation.ReflTransGen.trans h h'

lemma Step.reaches (h : Step k s s') : Reaches k s s' := .single h

lemma Reaches.refl (s : Lowering) : Reaches k s s := Relation.ReflTransGen.refl

lemma Reaches.trans (h : Reaches k s t) (h' : Reaches k t s') : Reaches k s s' :=
  Relation.ReflTransGen.trans h h'

lemma Compute.step (h : Compute s s') : Step k s s' := by
  cases h with
  | emit he hscope hlabel _ => exact .emit he hscope hlabel
  | freshTemporary ty => exact .freshTemporary s ty

lemma Computes.reaches (h : Computes s s') : Reaches k s s' :=
  Relation.ReflTransGen.mono (fun _ _ => Compute.step) _ _ h

lemma Step.mono (hk : k ≤ k') (h : Step k' s s') : Step k s s' := by
  cases h with
  | emit he hscope hlabel => exact .emit he hscope hlabel
  | startAt hs hl => exact .startAt hs (hk.trans hl)
  | freshLabel => exact .freshLabel s
  | freshTemporary ty => exact .freshTemporary s ty
  | freshVariable name ty scope marks => exact .freshVariable s name ty scope marks
  | freshArray decl => exact .freshArray s decl
  | scopes scopes => exact .scopes s scopes

lemma ItemStep.extends (h : ItemStep s s') : Extends s s' := .single h

lemma Extends.refl (s : Lowering) : Extends s s := Relation.ReflTransGen.refl

lemma Extends.trans (h : Extends s t) (h' : Extends t s') : Extends s s' :=
  Relation.ReflTransGen.trans h h'

lemma Reaches.extends (h : Reaches k s s') : Extends s s' :=
  Relation.ReflTransGen.mono (fun _ _ hs => ItemStep.step (hs.mono (Nat.zero_le k))) _ _ h

end

/-! ### What the elementary operations do -/

lemma emit_eq {s s' : Lowering} {action : Action} {id : InstrId}
    (h : s.emit action = .ok (s', id)) : id = s.listing.arena.size ∧
      ∃ ty, s.listing.actionTy action = .ok ty ∧
      s'.listing = { s.listing with
        arena := s.listing.arena.push ⟨id, action, ty, s.block⟩
        stream := s.listing.stream ++ [id] } ∧
      s'.scopes = s.scopes ∧ s'.function = s.function ∧
      s'.unreachable = action.operator.endsPath ∧
      s'.blockStarted = !action.operator.endsBlock ∧
      s'.block = if action.operator.endsBlock then s.block + 1 else s.block := by
  unfold Lowering.emit Listing.emit at h
  cases hty : s.listing.actionTy action with
  | error e => simp [hty, Bind.bind, Except.bind] at h
  | ok ty =>
    simp only [hty, Bind.bind, Except.bind, Pure.pure, Except.pure, Except.ok.injEq,
      Prod.mk.injEq] at h
    obtain ⟨rfl, rfl⟩ := h
    refine ⟨rfl, ty, rfl, ?_⟩
    cases action.operator.endsBlock <;> simp [leaveBlock]

lemma leaveBlock_listing (s : Lowering) : s.leaveBlock.listing = s.listing := by
  unfold leaveBlock
  split <;> rfl

lemma startAt_eq {s s' : Lowering} {label : LabelId} (h : s.startAt label = .ok s') :
    ∃ t, s.leaveBlock.emit (.label label) = .ok (t, s.listing.arena.size) ∧
      label < t.listing.labels.size ∧
      s' = { t with listing := { t.listing with
        labels := { t.listing.labels with
          labels := t.listing.labels.labels.modify label
            fun info => { info with site := some s.listing.arena.size } } } } := by
  unfold startAt at h
  cases he : s.leaveBlock.emit (.label label) with
  | error e => simp [he, Bind.bind, Except.bind] at h
  | ok r =>
    obtain ⟨t, id⟩ := r
    obtain ⟨rfl, -⟩ := emit_eq he
    rw [leaveBlock_listing] at he
    by_cases hlt : label < t.listing.labels.size
    · simp only [he, Bind.bind, Except.bind, Labels.place, if_pos hlt, Pure.pure, Except.pure,
        Except.ok.injEq] at h
      exact ⟨t, by rw [leaveBlock_listing], hlt, h.symm⟩
    · simp [he, Bind.bind, Except.bind, Labels.place, if_neg hlt, throw, throwThe,
        MonadExceptOf.throw] at h

lemma declareFunction_eq {s s' : Lowering} {p : Source.Prototype} {define : Bool}
    {f : Signature} (h : s.declareFunction p define = .ok (s', f)) :
    ∃ functions labels, s.listing.functions.declare s.listing.labels p.name p.returns.ty
        (p.params.map (·.ty.ty)) define = .ok (functions, labels, f) ∧
      s' = { s with listing := { s.listing with functions, labels } } := by
  unfold declareFunction at h
  cases hd : s.listing.functions.declare s.listing.labels p.name p.returns.ty
      (p.params.map (·.ty.ty)) define with
  | error e => simp [hd, Bind.bind, Except.bind] at h
  | ok r =>
    obtain ⟨functions, labels, g⟩ := r
    simp only [hd, Bind.bind, Except.bind, Pure.pure, Except.pure, Except.ok.injEq,
      Prod.mk.injEq] at h
    obtain ⟨rfl, rfl⟩ := h
    exact ⟨functions, labels, rfl, rfl⟩

/-! ### Growth -/

/-- The tables that operands and jumps refer to only grow. -/
structure Grows (s s' : Lowering) : Prop where
  vars : s.listing.vars.size ≤ s'.listing.vars.size
  arena : s.listing.arena.size ≤ s'.listing.arena.size
  labels : s.listing.labels.size ≤ s'.listing.labels.size

lemma Grows.refl (s : Lowering) : Grows s s := ⟨le_rfl, le_rfl, le_rfl⟩

lemma Grows.trans {s t s' : Lowering} (h : Grows s t) (h' : Grows t s') : Grows s s' :=
  ⟨h.vars.trans h'.vars, h.arena.trans h'.arena, h.labels.trans h'.labels⟩

lemma Step.grows {k : Nat} {s s' : Lowering} (h : Step k s s') : Grows s s' := by
  cases h with
  | emit he _ _ =>
    obtain ⟨-, ty, -, hl, -⟩ := emit_eq he
    exact ⟨by simp [hl], by simp [hl], by simp [hl]⟩
  | startAt hs _ =>
    obtain ⟨t, he, -, rfl⟩ := startAt_eq hs
    obtain ⟨-, ty, -, hl, -⟩ := emit_eq he
    exact ⟨by simp [hl, leaveBlock_listing], by simp [hl, leaveBlock_listing],
      by simp [hl, leaveBlock_listing, Labels.size]⟩
  | freshLabel =>
    exact ⟨le_rfl, le_rfl, by simp [Lowering.freshLabel, Labels.synthetic, Labels.push, Labels.size]⟩
  | freshTemporary =>
    exact ⟨by simp [Lowering.freshTemporary, Variables.temporary, Variables.push, Variables.size],
      le_rfl, le_rfl⟩
  | freshVariable =>
    exact ⟨by simp [Lowering.freshVariable, Variables.declare, Variables.push, Variables.size],
      le_rfl, le_rfl⟩
  | _ => exact ⟨le_rfl, le_rfl, le_rfl⟩

lemma Reaches.grows {k : Nat} {s s' : Lowering} (h : Reaches k s s') : Grows s s' := by
  induction h with
  | refl => exact .refl s
  | tail _ hstep ih => exact ih.trans hstep.grows

lemma Computes.grows {s s' : Lowering} (h : Computes s s') : Grows s s' :=
  (h.reaches (k := 0)).grows

lemma Grows.inScope {s s' : Lowering} (h : Grows s s') {o : Operand}
    (ho : o.InScope s.listing) : o.InScope s'.listing :=
  ho.mono h.vars h.arena

lemma Computes.inScope {s s' : Lowering} (h : Computes s s') {o : Operand}
    (ho : o.InScope s.listing) : o.InScope s'.listing :=
  h.grows.inScope ho

end Lowering

namespace Lower

open Source Lowering

variable {s s' : Lowering}

lemma typeOf?_var {l : Listing} {v : VarId} {ty : Ty} (h : l.typeOf? (.var v) = some ty) :
    v < l.vars.size := by
  by_contra hv
  have hget : l.vars.get? v = none := Array.getElem?_eq_none (by simpa [Variables.size] using hv)
  simp [Listing.typeOf?, hget] at h

lemma freshTemporary_computes {ty : Ty} {v : VarId} (h : s.freshTemporary ty = (s', v)) :
    Computes s s' ∧ v < s'.listing.vars.size := by
  have hs : s' = (s.freshTemporary ty).1 := by rw [h]
  have hv : v = (s.freshTemporary ty).2 := by rw [h]
  subst hs hv
  refine ⟨(Compute.freshTemporary s ty).computes, ?_⟩
  simp [Lowering.freshTemporary, Variables.temporary, Variables.push, Variables.size]

lemma destination_computes {dest : Option VarId} {ty : Ty} {v : VarId}
    (hdest : ∀ d ∈ dest, d < s.listing.vars.size)
    (h : destination dest ty s = .ok (v, s')) : Computes s s' ∧ v < s'.listing.vars.size := by
  obtain ⟨rfl, rfl⟩ | ⟨-, h⟩ := destination_ok h
  · exact ⟨.refl _, hdest v rfl⟩
  · exact freshTemporary_computes h

lemma emit_computes {action : Action} {id : InstrId} (h : s.emit action = .ok (s', id))
    (hscope : action.InScope s.listing) (hlabel : action.definedLabel = none)
    (hpath : action.operator.endsPath = false) :
    Computes s s' ∧ id < s'.listing.arena.size := by
  refine ⟨(Compute.emit h hscope hlabel hpath).computes, ?_⟩
  obtain ⟨rfl, ty, -, hl, -⟩ := emit_eq h
  simp [hl]

lemma index_computes {name : String} {value : Lowered} {o : Operand}
    (hv : value.operand.InScope s.listing) (h : index name value s = .ok (o, s')) :
    Computes s s' ∧ o.InScope s'.listing := by
  obtain ⟨-, h⟩ := index_ok h
  split at h
  · obtain ⟨rfl, rfl⟩ := h
    exact ⟨.refl _, hv⟩
  · obtain ⟨t, v, id, ht, he, rfl⟩ := h
    obtain ⟨hst, hvt⟩ := freshTemporary_computes ht
    have hts := (emit_computes he ⟨hst.inScope hv, hvt⟩ rfl rfl).1
    exact ⟨hst.trans hts, hts.inScope (o := .var v) hvt⟩

lemma pushes_computes {args : List Operand} {s s' : Lowering} (h : Pushes args s s')
    (hargs : ∀ o ∈ args, o.InScope s.listing) : Computes s s' := by
  induction h with
  | nil => exact .refl _
  | @cons o rest s t s' id he _ ih =>
    have hst := (emit_computes he (hargs o (by simp)) rfl rfl).1
    exact hst.trans (ih fun o' ho' => hst.inScope (hargs o' (by simp [ho'])))

lemma call_computes {f : Signature} {args : List Operand} {dest : Option VarId} {r : Lowered}
    (hdest : ∀ d ∈ dest, d < s.listing.vars.size) (hargs : ∀ o ∈ args, o.InScope s.listing)
    (h : call f args dest s = .ok (r, s')) : Computes s s' ∧ r.operand.InScope s'.listing := by
  obtain ⟨t, hpush, h⟩ := call_ok h
  have hst := pushes_computes hpush hargs
  split at h
  · obtain ⟨v, t', id, hd, he, rfl⟩ := h
    obtain ⟨htt', hv⟩ := destination_computes
      (fun d hd => Nat.lt_of_lt_of_le (hdest d hd) hst.grows.vars) hd
    have hts := (emit_computes he (by simpa [Action.InScope] using hv) rfl rfl).1
    exact ⟨hst.trans (htt'.trans hts), hts.inScope (o := .var v) hv⟩
  · obtain ⟨id, he, rfl⟩ := h
    obtain ⟨hts, hid⟩ := emit_computes he (by simp [Action.InScope]) rfl rfl
    exact ⟨hst.trans hts, hid⟩

mutual

lemma expr_computes (e : Expr) {dest : Option VarId} {s s' : Lowering} {r : Lowered}
    (hdest : ∀ d ∈ dest, d < s.listing.vars.size) (h : expr dest e s = .ok (r, s')) :
    Computes s s' ∧ r.operand.InScope s'.listing := by
  match e with
  | .int value | .float value =>
    obtain ⟨rfl, rfl⟩ := pure_ok.1 h
    exact ⟨.refl _, trivial⟩
  | .var name =>
    obtain ⟨v, ty, -, hty, rfl, rfl⟩ := scalar_ok h
    exact ⟨.refl _, typeOf?_var hty⟩
  | .elem name inner =>
    obtain ⟨a, v, t, o, ty, -, he, hi, -, rfl⟩ := expr_elem_ok h
    obtain ⟨hst, hv⟩ := expr_computes inner (by simp) he
    obtain ⟨hts, ho⟩ := index_computes hv hi
    exact ⟨hst.trans hts, ho⟩
  | .paren inner => exact expr_computes inner hdest (expr_paren ▸ h)
  | .assign lhs rhs =>
    obtain ⟨v, t, target, t', he, hp, h⟩ := expr_assign_ok h
    obtain ⟨hst, hv⟩ := expr_computes rhs (by simp) he
    obtain ⟨htt', ht⟩ := place_computes lhs hp
    obtain ⟨-, id, hemit, rfl⟩ := assign_ok h
    have hts := (emit_computes hemit ⟨htt'.inScope hv, ht⟩ rfl rfl).1
    exact ⟨hst.trans (htt'.trans hts), hts.inScope ht⟩
  | .binary op lhs rhs =>
    obtain ⟨left, t, right, t', hl, hr, h⟩ := expr_binary_ok h
    obtain ⟨hst, hleft⟩ := expr_computes lhs (by simp) hl
    obtain ⟨htt', hright⟩ := expr_computes rhs (by simp) hr
    obtain ⟨-, -, v, t₁, id, hd, he, rfl⟩ := binary_ok h
    obtain ⟨ht₁, hv⟩ := destination_computes
      (fun d hd => ((hdest d hd).trans_le hst.grows.vars).trans_le htt'.grows.vars) hd
    have hts := (emit_computes he
      ⟨(htt'.trans ht₁).inScope hleft, ht₁.inScope hright, hv⟩ rfl rfl).1
    exact ⟨hst.trans (htt'.trans (ht₁.trans hts)), hts.inScope (o := .var v) hv⟩
  | .unary op operand =>
    obtain ⟨value, t, hv, h⟩ := expr_unary_ok h
    obtain ⟨hst, hvalue⟩ := expr_computes operand (by simp) hv
    obtain ⟨-, v, t₁, id, hd, he, rfl⟩ := unary_ok h
    obtain ⟨ht₁, hv⟩ := destination_computes (fun d hd => (hdest d hd).trans_le hst.grows.vars) hd
    have hts := (emit_computes he ⟨ht₁.inScope hvalue, hv⟩ rfl rfl).1
    exact ⟨hst.trans (ht₁.trans hts), hts.inScope (o := .var v) hv⟩
  | .call function args =>
    obtain ⟨f, values, t, -, -, ha, h⟩ := expr_call_ok h
    obtain ⟨hst, hvalues⟩ := arguments_computes args ha
    obtain ⟨hts, hr⟩ := call_computes (fun d hd => (hdest d hd).trans_le hst.grows.vars) hvalues h
    exact ⟨hst.trans hts, hr⟩

lemma place_computes (e : Expr) {s s' : Lowering} {target : Target}
    (h : place e s = .ok (target, s')) :
    Computes s s' ∧ target.place.operand.InScope s'.listing := by
  match e with
  | .paren inner => exact place_computes inner (place_paren ▸ h)
  | .var name =>
    obtain ⟨v, ty, -, hty, rfl, rfl⟩ := place_var_ok h
    exact ⟨.refl _, typeOf?_var hty⟩
  | .elem name inner =>
    obtain ⟨a, v, t, o, ty, -, he, hi, -, rfl⟩ := place_elem_ok h
    obtain ⟨hst, hv⟩ := expr_computes inner (by simp) he
    obtain ⟨hts, ho⟩ := index_computes hv hi
    exact ⟨hst.trans hts, ho⟩
  | .int _ | .float _ | .binary _ _ _ | .assign _ _ | .unary _ _ | .call _ _ =>
    exact (refuse_ok.1 h).elim

lemma arguments_computes (args : List Expr) {function : String} {position : Nat}
    {params : List Ty} {s s' : Lowering} {values : List Operand}
    (h : arguments function position params args s = .ok (values, s')) :
    Computes s s' ∧ ∀ o ∈ values, o.InScope s'.listing := by
  match args with
  | [] =>
    obtain ⟨rfl, rfl⟩ := pure_ok.1 h
    exact ⟨.refl _, by simp⟩
  | arg :: rest =>
    obtain ⟨v, t, vs, he, -, hr, rfl⟩ := arguments_cons_ok h
    obtain ⟨hst, hv⟩ := expr_computes arg (by simp) he
    obtain ⟨hts, hvs⟩ := arguments_computes rest hr
    refine ⟨hst.trans hts, fun o ho => ?_⟩
    obtain rfl | ho := List.mem_cons.1 ho
    · exact hts.inScope hv
    · exact hvs o ho

end

lemma condition_computes {test : Expr} {o : Operand} (h : condition test s = .ok (o, s')) :
    Computes s s' ∧ o.InScope s'.listing := by
  obtain ⟨ty, h, -⟩ := condition_ok h
  exact expr_computes test (by simp) h

lemma initVariable_computes {name : String} {ty : Ty} {v : VarId} {init : Expr} {u : Unit}
    (hv : v < s.listing.vars.size) (h : initVariable name ty v init s = .ok (u, s')) :
    Computes s s' := by
  obtain ⟨value, t, he, -, h⟩ := initVariable_ok h
  obtain ⟨hst, hvalue⟩ := expr_computes init (by simpa using hv) he
  split at h
  · exact h ▸ hst
  · obtain ⟨id, he⟩ := h
    exact hst.trans (emit_computes he ⟨hvalue, hv.trans_le hst.grows.vars⟩ rfl rfl).1

/-! ### Statements -/

section

variable {k : Nat}

lemma freshVariable_reaches {name : String} {ty : Ty} {scope : Scope} {marks : Marks}
    {v : VarId} (h : s.freshVariable name ty scope marks = (s', v)) :
    Reaches k s s' ∧ v < s'.listing.vars.size := by
  have hs : s' = (s.freshVariable name ty scope marks).1 := by rw [h]
  have hv : v = (s.freshVariable name ty scope marks).2 := by rw [h]
  subst hs hv
  refine ⟨(Step.freshVariable s name ty scope marks).reaches, ?_⟩
  simp [Lowering.freshVariable, Variables.declare, Variables.push, Variables.size]

lemma emit_reaches {action : Action} {id : InstrId} (h : s.emit action = .ok (s', id))
    (hscope : action.InScope s.listing) (hlabel : action.definedLabel = none) : Reaches k s s' :=
  (Step.emit h hscope hlabel).reaches

lemma declare_reaches {ty : DeclTy} {name : String} {init : Option Expr} {u : Unit}
    (h : declare ty name init s = .ok (u, s')) : Reaches k s s' := by
  obtain ⟨-, -, t, v, t', scopes, hv, hinit, -, rfl⟩ := declare_ok h
  obtain ⟨hst, hvt⟩ := freshVariable_reaches hv
  have htt' : Computes t t' := by
    cases init with
    | none => exact hinit ▸ .refl t
    | some e => exact initVariable_computes hvt hinit
  exact hst.trans (htt'.reaches.trans (Step.scopes t' scopes).reaches)

lemma declareArray_reaches {ty : DeclTy} {name : String} {length : Nat} {u : Unit}
    (h : declareArray ty name length s = .ok (u, s')) : Reaches k s s' := by
  obtain ⟨-, -, t, a, scopes, ha, -, rfl⟩ := declareArray_ok h
  have ht : t = (s.freshArray ⟨name, ty.ty, length, s.scopes.current⟩).1 := by rw [ha]
  subst ht
  exact (Step.freshArray s _).reaches.trans (Step.scopes _ scopes).reaches

lemma ret_reaches {value : Option Lowered} {u : Unit}
    (hv : ∀ r ∈ value, r.operand.InScope s.listing) (h : ret value s = .ok (u, s')) :
    Reaches k s s' := by
  obtain ⟨-, id, he⟩ := ret_ok h
  refine emit_reaches he (fun o ho => ?_) rfl
  obtain ⟨r, hr, rfl⟩ := Option.mem_map.1 ho
  exact hv r hr

lemma freshLabel_reaches {label : LabelId} (h : s.freshLabel = (s', label)) :
    Reaches k s s' ∧ label = s.listing.labels.size := by
  have hs : s' = s.freshLabel.1 := by rw [h]
  have hl : label = s.freshLabel.2 := by rw [h]
  subst hs hl
  exact ⟨(Step.freshLabel s).reaches, rfl⟩

lemma jumpToJoin_reaches {join : Option LabelId} (h : jumpToJoin s = .ok (join, s')) :
    Reaches k s s' ∧ ∀ label ∈ join, label = s.listing.labels.size := by
  have h := jumpToJoin_ok h
  split at h
  · obtain ⟨rfl, rfl⟩ := h
    exact ⟨.refl _, by simp⟩
  · obtain ⟨t, label, id, ht, he, rfl⟩ := h
    obtain ⟨hst, hl⟩ := freshLabel_reaches ht
    exact ⟨hst.trans (emit_reaches he trivial rfl), by simpa using hl⟩

lemma jumpUnlessEnded_reaches {label : LabelId} {u : Unit}
    (h : jumpUnlessEnded label s = .ok (u, s')) : Reaches k s s' := by
  have h := jumpUnlessEnded_ok h
  split at h
  · exact h ▸ .refl _
  · obtain ⟨id, he⟩ := h
    exact emit_reaches he trivial rfl

lemma joinAt_reaches {join : Option LabelId} {u : Unit} (hk : ∀ label ∈ join, k ≤ label)
    (h : join.forM startAt s = .ok (u, s')) : Reaches k s s' := by
  cases join with
  | none =>
    obtain ⟨-, rfl⟩ := pure_ok.1 h
    exact .refl _
  | some label => exact (Step.startAt (startAt_ok.1 h) (hk label rfl)).reaches

lemma Branches.reaches {test : Expr} {label : LabelId} (h : Branches test label s s') :
    Reaches k s s' ∧ s.listing.labels.size ≤ label := by
  obtain ⟨o, t, t', id, hc, hl, hj⟩ := h
  obtain ⟨h₁, ho⟩ := condition_computes hc
  obtain ⟨h₂, hlabel⟩ := freshLabel_reaches (k := k) hl
  exact ⟨h₁.reaches.trans (h₂.trans (emit_reaches hj (h₂.grows.inScope ho) rfl)),
    hlabel ▸ h₁.grows.labels⟩

mutual

lemma stmt_reaches (body : Stmt) {s s' : Lowering} {u : Unit}
    (hk : k ≤ s.listing.labels.size) (h : stmt body s = .ok (u, s')) : Reaches k s s' := by
  cases hr : s.unreachable with
  | true => exact stmt_unreachable h hr ▸ .refl _
  | false =>
  match body with
  | .expr e =>
    obtain ⟨r, he⟩ := stmt_expr_ok hr h
    exact (expr_computes e (by simp) he).1.reaches
  | .compound body =>
    obtain ⟨t, hb, rfl⟩ := stmt_compound_ok hr h
    have hb' := stmts_reaches body (s := { s with scopes := s.scopes.push }) hk hb
    exact (Step.scopes s _).reaches.trans (hb'.trans (Step.scopes t _).reaches)
  | .ifThen test body =>
    obtain ⟨label, t, t', htest, hb, hs⟩ := stmt_ifThen_ok hr h
    obtain ⟨h₁, hlabel⟩ := htest.reaches (k := k)
    have h₂ := h₁.trans (stmt_reaches body (hk.trans h₁.grows.labels) hb)
    exact h₂.trans (Step.startAt hs (hk.trans hlabel)).reaches
  | .ifElse test onTrue onFalse =>
    obtain ⟨label, t, t₁, join, t₂, t₃, t₄, htest, ht, hjoin, hs, hf, hend⟩ :=
      stmt_ifElse_ok hr h
    obtain ⟨h₁, hlabel⟩ := htest.reaches (k := k)
    have h₂ := h₁.trans (stmt_reaches onTrue (hk.trans h₁.grows.labels) ht)
    obtain ⟨h₃, hjoin⟩ := jumpToJoin_reaches (k := k) hjoin
    have h₄ := (h₂.trans h₃).trans (Step.startAt hs (hk.trans hlabel)).reaches
    have h₅ := h₄.trans (stmt_reaches onFalse (hk.trans h₄.grows.labels) hf)
    refine h₅.trans (joinAt_reaches (fun label' hl' => ?_) hend)
    exact hjoin label' hl' ▸ hk.trans h₂.grows.labels
  | .while test body =>
    obtain ⟨head, t₁, t₂, label, t₃, t₄, t₅, hh, hs, htest, hb, hback, hend⟩ :=
      stmt_while_ok hr h
    obtain ⟨h₁, hhead⟩ := freshLabel_reaches (k := k) hh
    have h₂ := h₁.trans (Step.startAt hs (hhead ▸ hk)).reaches
    obtain ⟨h₃, hlabel⟩ := htest.reaches (k := k)
    have h₄ := (h₂.trans h₃).trans
      (stmt_reaches body (hk.trans (h₂.trans h₃).grows.labels) hb)
    have h₅ := h₄.trans (jumpUnlessEnded_reaches hback)
    exact h₅.trans (Step.startAt hend ((hk.trans h₂.grows.labels).trans hlabel)).reaches
  | .decl ty name init => exact declare_reaches (stmt_decl_ok hr h)
  | .array ty name length => exact declareArray_reaches (stmt_array_ok hr h)
  | .ret none => exact ret_reaches (by simp) (stmt_ret_ok hr h)
  | .ret (some value) =>
    obtain ⟨r, t, he, h⟩ := stmt_retValue_ok hr h
    obtain ⟨hst, hv⟩ := expr_computes value (by simp) he
    exact hst.reaches.trans (ret_reaches (by simpa using hv) h)

lemma stmts_reaches (body : List Stmt) {s s' : Lowering} {u : Unit}
    (hk : k ≤ s.listing.labels.size) (h : stmts body s = .ok (u, s')) : Reaches k s s' := by
  match body with
  | [] =>
    obtain ⟨-, rfl⟩ := pure_ok.1 h
    exact .refl _
  | first :: rest =>
    obtain ⟨t, hf, hr⟩ := stmts_cons_ok h
    have h₁ := stmt_reaches first hk hf
    exact h₁.trans (stmts_reaches rest (hk.trans h₁.grows.labels) hr)

end

lemma params_reaches {ps : List Param} {s s' : Lowering} (h : Params ps s s') :
    Reaches k s s' := by
  induction h with
  | nil => exact .refl _
  | cons hp _ ih =>
    obtain ⟨-, t, v, scopes, id, hv, -, he⟩ := param_ok hp
    obtain ⟨hst, hvt⟩ := freshVariable_reaches (k := k) hv
    have hscopes := (Step.scopes (k := k) t scopes).reaches
    exact hst.trans (hscopes.trans ((emit_reaches he hvt rfl).trans ih))

lemma functionEnd_reaches {t t' : Lowering} (h : FunctionEnd t t') : Reaches k t t' := by
  unfold FunctionEnd at h
  split at h
  · exact h ▸ .refl _
  · obtain ⟨id, he⟩ := h
    exact emit_reaches he (by simp [Action.InScope]) rfl

end

/-! ### Programs -/

lemma item_extends {i : Item} {u : Unit} (h : item i s = .ok (u, s')) : Extends s s' := by
  cases i with
  | prototype p =>
    obtain ⟨f, hd⟩ := item_prototype_ok h
    exact (ItemStep.declareFunction hd).extends
  | function p body =>
    obtain ⟨f, t₁, t₂, t₃, t₄, t₅, hd, hs, hp, hb, he, rfl⟩ := function_ok h
    have h₂ := (ItemStep.declareFunction hd).extends.trans
      (Step.startAt hs (Nat.zero_le _)).reaches.extends
    have h₃ := ((Step.scopes t₂ _).reaches.trans (params_reaches (k := 0) hp)).extends
    have h₄ := (ItemStep.context t₃ _).extends.trans
      (stmt_reaches body (Nat.zero_le _) hb).extends
    have h₆ := (functionEnd_reaches (k := 0) he).extends.trans
      ((ItemStep.context t₅ none).extends.trans
        (Step.scopes (k := 0) _ t₅.scopes.pop).reaches.extends)
    exact h₂.trans (h₃.trans (h₄.trans h₆))

lemma items_extends {is : List Item} {u : Unit} {s s' : Lowering}
    (h : is.forM item s = .ok (u, s')) : Extends s s' := by
  induction is generalizing s with
  | nil =>
    obtain ⟨-, rfl⟩ := pure_ok.1 h
    exact .refl _
  | cons i rest ih =>
    obtain ⟨t, hi, hrest⟩ := forM_cons_ok.1 h
    exact (item_extends hi).trans (ih hrest)

/-- Lowering a program is a sequence of elementary steps. -/
theorem program_extends {p : Program} {u : Unit} (h : program p s = .ok (u, s')) :
    Extends s s' := by
  cases p with
  | stmt body => exact (stmt_reaches body (Nat.zero_le _) h).extends
  | items is => exact items_extends h

end Lower

/-- A listing is what lowering has made of the empty one. -/
lemma Listing.ofProgram_ok {p : Source.Program} {l : Listing}
    (h : Listing.ofProgram p = .ok l) :
    ∃ s, Lower.program p .start = .ok ((), s) ∧ s.listing = l := by
  unfold ofProgram at h
  cases hp : (Lower.program p).run .start with
  | error e => simp [hp, Bind.bind, Except.bind] at h
  | ok r =>
    obtain ⟨u, s⟩ := r
    simp only [hp, Bind.bind, Except.bind, Pure.pure, Except.pure, Except.ok.injEq] at h
    exact ⟨s, hp, h⟩

end ThreeAddress
