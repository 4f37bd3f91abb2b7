import ThreeAddress.Proofs.Calls

/-!
What instructions read.

Almost all operands that are read have a value, as lowering asks for it where it uses them. Two
places only compare types, an argument with its parameter and a result with its function, and
both types can be `none`: a prototype may declare a parameter of type `void`, and a `void`
function may return the result of another one. These are the only ways to read the result of a
call that has none, and both can be seen in the text of the program.
-/

namespace ThreeAddress

open Source Machine

/-! ### Operands that are read -/

/-- The operand and the indices in it. -/
def Operand.parts : Operand → List Operand
  | .elem a index => .elem a index :: index.parts
  | o => [o]

/-- The operands that are read to find a place. -/
def Place.reads : Place → List Operand
  | .var _ => []
  | .elem _ index => index.parts

/-- The operands whose values an action reads. -/
def Action.reads : Action → List Operand
  | .compute _ lhs rhs _ => lhs.parts ++ rhs.parts
  | .apply _ operand _ => operand.parts
  | .copy value place => value.parts ++ place.reads
  | .jumpFalse cond _ => cond.parts
  | .push value => value.parts
  | .ret value => value.toList.flatMap Operand.parts
  | .label _ | .jump _ | .call _ _ | .param _ => []

def Listing.HasValue (l : Listing) (o : Operand) : Prop :=
  ∃ ty, l.typeOf? o = some ty ∧ ty.isValue

section

variable {l : Listing} {o o' : Operand} {a : Action} {ty : Ty}

lemma Operand.IsIndex.parts_hasValue (h : o.IsIndex l) (ho : o' ∈ o.parts) : l.HasValue o' := by
  cases o with
  | int n =>
    obtain rfl := List.mem_singleton.1 ho
    exact ⟨.int, rfl, rfl⟩
  | var v =>
    obtain rfl := List.mem_singleton.1 ho
    exact ⟨.int, h, rfl⟩
  | _ => exact h.elim

/-- Only an instruction can be an operand without a value. -/
lemma Operand.HasTy.parts_hasValue (hl : l.WellTyped) (h : o.HasTy l ty) (ho : o' ∈ o.parts) :
    l.HasValue o' ∨ ∃ i, o = .instr i ∧ o' = o ∧ ty = .none := by
  cases h with
  | int n =>
    obtain rfl := List.mem_singleton.1 ho
    exact .inl ⟨.int, rfl, rfl⟩
  | float x =>
    obtain rfl := List.mem_singleton.1 ho
    exact .inl ⟨.float, rfl, rfl⟩
  | var hv =>
    obtain rfl := List.mem_singleton.1 ho
    exact .inl ⟨ty, hv, hl.vars hv⟩
  | elem ha hindex =>
    rcases List.mem_cons.1 ho with rfl | ho
    · exact .inl ⟨ty, ha, hl.arrays ha⟩
    · exact .inl (hindex.parts_hasValue ho)
  | @instr i hi => exact .inr ⟨i, rfl, List.mem_singleton.1 ho, rfl⟩

lemma Operand.HasTy.hasValue (hl : l.WellTyped) (h : o.HasTy l ty) (hty : ty.isValue)
    (ho : o' ∈ o.parts) : l.HasValue o' := by
  obtain hvalue | ⟨i, -, -, rfl⟩ := h.parts_hasValue hl ho
  · exact hvalue
  · cases hty

/-- An operand without a value is read by a push or a return only. -/
lemma Action.HasTy.reads_hasValue (hl : l.WellTyped) (h : a.HasTy l ty) (ho : o ∈ a.reads) :
    l.HasValue o ∨ l.typeOf? o = some .none ∧ ∃ i, o = .instr i ∧
      (a = .push o ∨ a = .ret (some o)) := by
  cases h with
  | compute hty hlhs hrhs =>
    rcases List.mem_append.1 ho with ho | ho
    · exact .inl (hlhs.hasValue hl hty ho)
    · exact .inl (hrhs.hasValue hl hty ho)
  | apply hty ho' => exact .inl (ho'.hasValue hl hty ho)
  | @copy value place _ hty hvalue hplace =>
    rcases List.mem_append.1 ho with ho | ho
    · exact .inl (hvalue.hasValue hl hty ho)
    · cases place with
      | var v => cases ho
      | elem b index => exact .inl (hplace.hasValue hl hty (List.mem_cons_of_mem _ ho))
  | jumpFalse hty hcond => exact .inl (hcond.hasValue hl hty ho)
  | push hvalue =>
    obtain hhas | ⟨i, rfl, rfl, rfl⟩ := hvalue.parts_hasValue hl ho
    · exact .inl hhas
    · exact .inr ⟨hvalue.typeOf?, i, rfl, .inl rfl⟩
  | retValue hvalue =>
    simp only [Action.reads, Option.toList_some, List.flatMap_cons, List.flatMap_nil,
      List.append_nil] at ho
    obtain hhas | ⟨i, rfl, rfl, rfl⟩ := hvalue.parts_hasValue hl ho
    · exact .inl hhas
    · exact .inr ⟨hvalue.typeOf?, i, rfl, .inr rfl⟩
  | _ => cases ho

end

/-! ### The text of the program -/

namespace Source

mutual

/-- Some statement inside returns an expression. -/
def Stmt.returnsExpr : Stmt → Bool
  | .ret (some _) => true
  | .compound body => returnExpr body
  | .ifThen _ body => body.returnsExpr
  | .ifElse _ onTrue onFalse => onTrue.returnsExpr || onFalse.returnsExpr
  | .while _ body => body.returnsExpr
  | .expr _ | .decl _ _ _ | .array _ _ _ | .ret none => false

def returnExpr : List Stmt → Bool
  | [] => false
  | first :: rest => first.returnsExpr || returnExpr rest

end

/-- A prototype with a `void` parameter. -/
def Item.TakesVoid : Item → Prop
  | .prototype p => ∃ q ∈ p.params, q.ty = .void
  | .function _ _ => False

/-- A `void` function that returns an expression. -/
def Item.ReturnsVoid : Item → Prop
  | .prototype _ => False
  | .function p body => p.returns = .void ∧ body.returnsExpr

def Program.parts : Program → List Item
  | .stmt _ => []
  | .items is => is

lemma DeclTy.isValue_iff {ty : DeclTy} : ty.ty.isValue ↔ ty ≠ .void := by
  cases ty <;> simp [DeclTy.ty, Ty.isValue]

end Source

/-! ### Pushes -/

namespace Lowering

variable {s t s' : Lowering} {P : Prop}

/-- A push of the result of an instruction comes from a call without a value. -/
def PushesResults (s : Lowering) : Prop :=
  ∀ k x i, s.listing.instr? k = some x → x.action = .push (.instr i) → s.listing.CallsVoid i

lemma Phrase.pushesResults (h : Phrase s s') (hs : s.PushesResults) : s'.PushesResults := by
  have hkept := h.issues.extends.kept
  intro k x i hx hact
  by_cases hlt : k < s.listing.arena.size
  -- an old push; a new one is part of a call
  · exact hkept.callsVoid (hs k x i ((hkept.instr k hlt).symm.trans hx) hact)
  cases h with
  | declare _ harena => exact absurd (harena ▸ Lower.instr?_lt hx) hlt
  | plain _ harena hplain =>
    rw [Listing.instr?, harena, Array.getElem?_push] at hx
    split at hx
    · obtain rfl := Option.some.inj hx
      rw [hact] at hplain
      cases hplain
    · exact absurd (Array.getElem?_eq_some_iff.1 hx).1 hlt
  | @call t _ name f args target hf hargs hpush hcall =>
    obtain ⟨hsize, -, -, hpushes⟩ := pushes_instr hpush
    obtain ⟨j, ty, harena⟩ := hcall.arena
    obtain ⟨m, rfl⟩ := Nat.exists_eq_add_of_le (Nat.le_of_not_lt hlt)
    rw [Listing.instr?, harena, Array.getElem?_push, hsize] at hx
    split at hx
    · obtain rfl := Option.some.inj hx
      cases hact
    · have hlt := (Array.getElem?_eq_some_iff.1 hx).1
      rw [hsize] at hlt
      obtain ⟨y, hy, hact', -⟩ := hpushes
        (List.getElem?_eq_getElem (Nat.lt_of_add_lt_add_left hlt))
      obtain rfl := Option.some.inj (hy.symm.trans hx)
      have harg := Action.push.inj (hact'.symm.trans hact)
      obtain ⟨ty, hyields⟩ := exists_yields hargs _ (List.getElem_mem _)
      exact hkept.callsVoid (hyields.call harg)

lemma Phrases.pushesResults (h : Phrases s s') (hs : s.PushesResults) : s'.PushesResults := by
  induction h with
  | refl => exact hs
  | tail _ hstep ih => exact hstep.pushesResults ih

/-! ### Returns -/

/-- A return of the result of an instruction comes from a call without a value, and only where `P`
holds a return has no value. -/
def Returned (P : Prop) (l : Listing) : Prop :=
  ∀ k x o, l.instr? k = some x → x.action = .ret (some o) →
    (∀ i, o = .instr i → l.CallsVoid i) ∧ (l.HasValue o ∨ P)

/-- No return of an expression is added. -/
structure Silent (s s' : Lowering) : Prop where
  phrases : Phrases s s'
  function : s'.function = s.function
  returns : ∀ {k x o}, s'.listing.instr? k = some x → x.action = .ret (some o) →
    s.listing.instr? k = some x

lemma Phrases.hasValue (h : Phrases s s') {o : Operand} (ho : s.listing.HasValue o) :
    s'.listing.HasValue o := by
  obtain ⟨ty, hty, hvalue⟩ := ho
  exact ⟨ty, h.issues.extends.keepsTypes.types hty, hvalue⟩

/-- What is known of a return stays known. -/
lemma Phrases.returned_old (h : Phrases s s') (hs : Returned P s.listing) {k : InstrId} {x : Instr}
    {o : Operand} (hx : s.listing.instr? k = some x) (hact : x.action = .ret (some o)) :
    (∀ i, o = .instr i → s'.listing.CallsVoid i) ∧ (s'.listing.HasValue o ∨ P) := by
  obtain ⟨hcall, hvalue⟩ := hs k x o hx hact
  exact ⟨fun i hi => h.issues.extends.kept.callsVoid (hcall i hi), hvalue.imp_left h.hasValue⟩

lemma Emitted.instr_cases {a : Action} (h : Emitted s a s') (hkept : Kept s s') {k : InstrId}
    {x : Instr} (hx : s'.listing.instr? k = some x) :
    s.listing.instr? k = some x ∨ x.action = a := by
  obtain hlt | heq := Nat.lt_succ_iff_lt_or_eq.1 (h.size ▸ Lower.instr?_lt hx)
  · exact .inl ((hkept.instr k hlt).symm.trans hx)
  · subst heq
    obtain ⟨y, hy, hact⟩ := h.instr
    obtain rfl := Option.some.inj (hy.symm.trans hx)
    exact .inr hact

/-- An instruction that does not return an expression adds no such return. -/
lemma Emitted.returns {a : Action} (h : Emitted s a s') (hkept : Kept s s')
    (ha : ∀ o, a ≠ .ret (some o)) {k : InstrId} {x : Instr} {o : Operand}
    (hx : s'.listing.instr? k = some x) (hact : x.action = .ret (some o)) :
    s.listing.instr? k = some x :=
  (h.instr_cases hkept hx).resolve_right fun hnew => ha o (hnew.symm.trans hact)

namespace Silent

lemma returned (h : Silent s s') (hs : Returned P s.listing) : Returned P s'.listing :=
  fun _ _ _ hx hact => h.phrases.returned_old hs (h.returns hx hact) hact

lemma trans (h : Silent s t) (h' : Silent t s') : Silent s s' :=
  ⟨h.phrases.trans h'.phrases, h'.function.trans h.function, fun hx hact =>
    h.returns (h'.returns hx hact) hact⟩

lemma of_arena (h : Phrases s s') (hfunction : s'.function = s.function)
    (harena : s'.listing.arena = s.listing.arena) : Silent s s' :=
  ⟨h, hfunction, fun hx _ => by rwa [Listing.instr?, harena] at hx⟩

lemma refl (s : Lowering) : Silent s s := .of_arena (.refl s) rfl rfl

lemma of_emitted {a : Action} (h : Phrases s s') (hfunction : s'.function = s.function)
    (he : Emitted s a s') (ha : ∀ o, a ≠ .ret (some o)) : Silent s s' :=
  ⟨h, hfunction, he.returns h.issues.extends.kept ha⟩

lemma emit {a : Action} {id : InstrId} (h : Phrases s s') (he : s.emit a = .ok (s', id))
    (ha : ∀ o, a ≠ .ret (some o)) : Silent s s' := by
  obtain ⟨-, -, -, -, -, hfunction, -⟩ := emit_eq he
  exact .of_emitted h hfunction (emit_emitted he).1 ha

lemma startAt {label : LabelId} (h : s.startAt label = .ok s') : Silent s s' :=
  .of_emitted (.startAt h) (Step.startAt (k := 0) h (Nat.zero_le _)).function
    (startAt_emitted h).1 (by simp)

/-- Expressions return nothing. -/
lemma of_computes (h : Phrases s s') (hc : Computes s s') : Silent s s' := by
  refine ⟨h, (hc.reaches (k := 0)).function, fun {k x o} hx hact => ?_⟩
  clear h
  induction hc with
  | refl => exact hx
  | @tail t t' _ hstep ih =>
    cases hstep with
    | freshTemporary ty => exact ih hx
    | emit he _ _ hends =>
      refine ih ((emit_emitted he).1.returns (emit_kept he) (fun o => ?_) hx hact)
      rintro rfl
      cases hends

end Silent

/-- The state before and after statements that may return an expression if `b` is true. This is
harmless in a function that has a value, and where `P` holds. -/
structure Guarded (P : Prop) (b : Bool) (s : Lowering) : Prop where
  regular : s.Regular
  returned : Returned P s.listing
  fits : b = true → P ∨ ∃ f ∈ s.function, f.returns.isValue

lemma Silent.guarded {b : Bool} (h : Silent s s') (hs : Guarded P b s) : Guarded P b s' :=
  ⟨h.phrases.regular hs.regular, h.returned hs.returned, h.function ▸ hs.fits⟩

end Lowering

namespace Lower

open Lowering

variable {s t s' : Lowering} {P : Prop} {b : Bool} {id : InstrId}

lemma ret_guarded {r : Lowered} {u : Unit} (hb : b = true) (hs : Guarded P b s)
    (hr : s.Yields r.operand r.ty) (h : ret (some r) s = .ok (u, s')) : Guarded P b s' := by
  obtain ⟨hty, id, he⟩ := ret_ok h
  have hphrases : Phrases s s' := ret_phrases (by simpa using ⟨_, hr⟩) he
  obtain ⟨-, -, -, -, -, hfunction, -⟩ := emit_eq he
  refine ⟨hphrases.regular hs.regular, fun k x o hx hact => ?_, hfunction ▸ hs.fits⟩
  obtain hold | hnew := (emit_emitted he).1.instr_cases (emit_kept he) hx
  · exact hphrases.returned_old hs.returned hold hact
  · obtain rfl : r.operand = o := by
      simpa using Action.ret.inj (hnew.symm.trans hact)
    refine ⟨fun i hi => (emit_kept he).callsVoid (hr.call hi), ?_⟩
    obtain hP | ⟨f, hf, hvalue⟩ := hs.fits hb
    · exact .inr hP
    · have hrty : f.returns = r.ty := hty f hf
      exact .inl (hphrases.hasValue ⟨r.ty, hr.typed.typeOf?, hrty ▸ hvalue⟩)

lemma freshLabel_silent {label : LabelId} (h : s.freshLabel = (s', label)) : Silent s s' := by
  have hphrases := (freshLabel_evaluates h).phrases
  obtain ⟨rfl, -⟩ := Prod.mk.inj h
  exact .of_arena hphrases rfl rfl

lemma Branches.silent {test : Expr} {label : LabelId} (h : Branches test label s s')
    (hs : s.Regular) : Silent s s' := by
  have hphrases := h.phrases hs
  obtain ⟨o, t, t', id, hc, hl, hj⟩ := h
  have hcond : Silent s t := by
    obtain ⟨ty, he, -⟩ := condition_ok hc
    exact .of_computes (expr_evaluates test hs (by simp) he).1.phrases (condition_computes hc).1
  have hlabel := hcond.trans (freshLabel_silent hl)
  obtain ⟨-, -, -, -, -, hfunction, -⟩ := emit_eq hj
  refine ⟨hphrases, hfunction.trans hlabel.function, fun hx hact => ?_⟩
  exact hlabel.returns ((emit_emitted hj).1.returns (emit_kept hj) (by simp) hx hact) hact

lemma jump_silent {label : LabelId} (he : s.emit (.jump label) = .ok (s', id)) : Silent s s' :=
  .emit (jump_phrases he) he (by simp)

lemma jumpToJoin_silent {join : Option LabelId} (h : jumpToJoin s = .ok (join, s')) :
    Silent s s' := by
  have h := jumpToJoin_ok h
  split at h
  · exact h.2 ▸ .refl _
  · obtain ⟨t, label, id, hl, he, -⟩ := h
    exact (freshLabel_silent hl).trans (jump_silent he)

lemma jumpUnlessEnded_silent {label : LabelId} {u : Unit}
    (h : jumpUnlessEnded label s = .ok (u, s')) : Silent s s' := by
  have h := jumpUnlessEnded_ok h
  split at h
  · exact h ▸ .refl _
  · obtain ⟨id, he⟩ := h
    exact jump_silent he

lemma joinAt_silent {join : Option LabelId} {u : Unit} (h : join.forM startAt s = .ok (u, s')) :
    Silent s s' := by
  cases join with
  | none =>
    obtain ⟨-, rfl⟩ := pure_ok.1 h
    exact .refl _
  | some label => exact .startAt (startAt_ok.1 h)

lemma declare_silent {dty : DeclTy} {name : String} {init : Option Expr} {u : Unit}
    (hs : s.Regular) (h : declare dty name init s = .ok (u, s')) : Silent s s' := by
  refine ⟨declare_phrases hs h, (declare_reaches (k := 0) h).function, fun {k x o} hx hact => ?_⟩
  obtain ⟨hvalue, -, t, v, t', scopes, hv, hinit, -, rfl⟩ := declare_ok h
  obtain ⟨h₁, hnamed, hty⟩ := freshVariable_phrases hvalue hv
  have hlt := (freshVariable_reaches (k := 0) hv).2
  have harena : t.listing.arena = s.listing.arena := by
    obtain ⟨rfl, -⟩ := Prod.mk.inj hv
    rfl
  have h₂ : Silent t t' := by
    cases init with
    | none => exact hinit ▸ .refl t
    | some e =>
      exact .of_computes (initVariable_phrases (h₁.regular hs) hnamed hty hinit)
        (initVariable_computes hlt hinit)
  have hx' := h₂.returns hx hact
  rwa [Listing.instr?, harena] at hx'

mutual

theorem stmt_guarded (body : Stmt) {s s' : Lowering} {u : Unit}
    (hb : body.returnsExpr = true → b = true) (hs : Guarded P b s)
    (h : stmt body s = .ok (u, s')) : Guarded P b s' := by
  cases hr : s.unreachable with
  | true => exact stmt_unreachable h hr ▸ hs
  | false =>
  match body with
  | .expr e =>
    obtain ⟨r, he⟩ := stmt_expr_ok hr h
    exact (Silent.of_computes (expr_evaluates e hs.regular (by simp) he).1.phrases
      (expr_computes e (by simp) he).1).guarded hs
  | .compound body =>
    obtain ⟨t, hbody, rfl⟩ := stmt_compound_ok hr h
    have h₁ := (Silent.of_arena (pushScope_phrases hs.regular) rfl rfl).guarded hs
    have h₂ := stmts_guarded body (by simpa [Stmt.returnsExpr] using hb) h₁ hbody
    exact (Silent.of_arena (popScope_phrases h₂.regular) rfl rfl).guarded h₂
  | .ifThen test body =>
    obtain ⟨label, t, t', htest, hbody, hst⟩ := stmt_ifThen_ok hr h
    have h₁ := (htest.silent hs.regular).guarded hs
    have h₂ := stmt_guarded body (by simpa [Stmt.returnsExpr] using hb) h₁ hbody
    exact (Silent.startAt hst).guarded h₂
  | .ifElse test onTrue onFalse =>
    obtain ⟨label, t, t₁, join, t₂, t₃, t₄, htest, ht, hjoin, hst, hf, hend⟩ :=
      stmt_ifElse_ok hr h
    simp only [Stmt.returnsExpr, Bool.or_eq_true] at hb
    have h₁ := (htest.silent hs.regular).guarded hs
    have h₂ := stmt_guarded onTrue (fun hret => hb (.inl hret)) h₁ ht
    have h₃ := ((jumpToJoin_silent hjoin).trans (.startAt hst)).guarded h₂
    have h₄ := stmt_guarded onFalse (fun hret => hb (.inr hret)) h₃ hf
    exact (joinAt_silent hend).guarded h₄
  | .while test body =>
    obtain ⟨head, t₁, t₂, label, t₃, t₄, t₅, hh, hst, htest, hbody, hback, hend⟩ :=
      stmt_while_ok hr h
    have h₁ := ((freshLabel_silent hh).trans (.startAt hst)).guarded hs
    have h₂ := (htest.silent h₁.regular).guarded h₁
    have h₃ := stmt_guarded body (by simpa [Stmt.returnsExpr] using hb) h₂ hbody
    exact ((jumpUnlessEnded_silent hback).trans (.startAt hend)).guarded h₃
  | .decl ty name init => exact (declare_silent hs.regular (stmt_decl_ok hr h)).guarded hs
  | .array ty name length =>
    have h := stmt_array_ok hr h
    refine (Silent.of_arena (declareArray_phrases hs.regular h)
      (declareArray_reaches (k := 0) h).function ?_).guarded hs
    obtain ⟨-, -, t, a, scopes, ha, -, rfl⟩ := declareArray_ok h
    obtain ⟨rfl, -⟩ := Prod.mk.inj ha
    rfl
  | .ret none =>
    obtain ⟨-, id, he⟩ := ret_ok (stmt_ret_ok hr h)
    exact (Silent.emit (ret_phrases (by simp) he) he (by simp)).guarded hs
  | .ret (some value) =>
    obtain ⟨r, t, he, h⟩ := stmt_retValue_ok hr h
    obtain ⟨h₁, hvalue⟩ := expr_evaluates value hs.regular (by simp) he
    have hst := Silent.of_computes h₁.phrases (expr_computes value (by simp) he).1
    exact ret_guarded (hb rfl) (hst.guarded hs) hvalue h

theorem stmts_guarded (body : List Stmt) {s s' : Lowering} {u : Unit}
    (hb : returnExpr body = true → b = true) (hs : Guarded P b s)
    (h : stmts body s = .ok (u, s')) : Guarded P b s' := by
  match body with
  | [] =>
    obtain ⟨-, rfl⟩ := pure_ok.1 h
    exact hs
  | first :: rest =>
    obtain ⟨t, hf, hr⟩ := stmts_cons_ok h
    have h₁ := stmt_guarded first (fun hfirst => hb (by simp [returnExpr, hfirst])) hs hf
    exact stmts_guarded rest (fun hrest => hb (by simp [returnExpr, hrest])) h₁ hr

end

/-! ### Programs -/

lemma params_returns {ps : List Param} {s s' : Lowering} (h : Params ps s s') {k : InstrId}
    {x : Instr} {o : Operand} (hx : s'.listing.instr? k = some x)
    (hact : x.action = .ret (some o)) : s.listing.instr? k = some x := by
  induction h with
  | nil => exact hx
  | @cons p rest s t s' hp _ ih =>
    obtain ⟨-, t₁, v, scopes, id, hv, -, he⟩ := param_ok hp
    have hx' := (emit_emitted he).1.returns (emit_kept he) (by simp) (ih hx) hact
    obtain ⟨rfl, -⟩ := Prod.mk.inj hv
    exact hx'

lemma functionEnd_returns {t t' : Lowering} (h : FunctionEnd t t') {k : InstrId} {x : Instr}
    {o : Operand} (hx : t'.listing.instr? k = some x) (hact : x.action = .ret (some o)) :
    t.listing.instr? k = some x := by
  unfold FunctionEnd at h
  split at h
  · exact h ▸ hx
  · obtain ⟨id, he⟩ := h
    exact (emit_emitted he).1.returns (emit_kept he) (by simp) hx hact

lemma item_returned {i : Item} {u : Unit} (hi : i.ReturnsVoid → P) (hs : s.Regular)
    (hr : Returned P s.listing) (h : item i s = .ok (u, s')) : Returned P s'.listing := by
  cases i with
  | prototype p =>
    obtain ⟨f, hd⟩ := item_prototype_ok h
    have hphrases := Phrases.declareFunction hd
    obtain ⟨functions, labels, -, rfl⟩ := declareFunction_eq hd
    exact fun _ _ _ hx hact => hphrases.returned_old hr hx hact
  | function p body =>
    obtain ⟨f, t₁, t₂, t₃, t₄, t₅, hd, hst, hp, hb, he, rfl⟩ := function_ok h
    have h₂ := (Phrases.declareFunction hd).trans (.startAt hst)
    have h₂' := h₂.trans (pushScope_phrases (h₂.regular hs))
    have h₃ := h₂'.trans (params_phrases hp (h₂'.regular hs))
    have hreturned : Returned P t₃.listing := fun k x o hx hact => by
      have hx₂ := (Silent.startAt hst).returns (params_returns hp hx hact) hact
      obtain ⟨functions, labels, -, rfl⟩ := declareFunction_eq hd
      exact h₃.returned_old hr hx₂ hact
    have hguarded : Guarded P body.returnsExpr
        { t₃ with function := some ⟨p.name, p.returns.ty⟩ } := by
      have hcontext := h₃.trans (.declare (.context t₃ (some ⟨p.name, p.returns.ty⟩)) rfl)
      refine ⟨hcontext.regular hs, hreturned, fun hexpr => ?_⟩
      by_cases hvoid : p.returns = .void
      · exact .inl (hi ⟨hvoid, hexpr⟩)
      · exact .inr ⟨_, rfl, DeclTy.isValue_iff.2 hvoid⟩
    have hbody := (stmt_guarded body id hguarded hb).returned
    exact fun _ _ _ hx hact => (functionEnd_phrases he).returned_old hbody
      (functionEnd_returns he hx hact) hact

lemma items_returned {is : List Item} {u : Unit} {s s' : Lowering}
    (hi : ∀ i ∈ is, i.ReturnsVoid → P) (hs : s.Regular) (hr : Returned P s.listing)
    (h : is.forM item s = .ok (u, s')) : Returned P s'.listing := by
  induction is generalizing s with
  | nil =>
    obtain ⟨-, rfl⟩ := pure_ok.1 h
    exact hr
  | cons i rest ih =>
    obtain ⟨t, hitem, hrest⟩ := forM_cons_ok.1 h
    exact ih (fun j hj => hi j (by simp [hj])) ((item_phrases hs hitem).regular hs)
      (item_returned (hi i (by simp)) hs hr hitem) hrest

/-- Parameters have values, unless `P` holds. -/
def TakesValues (P : Prop) (t : Functions) : Prop :=
  ∀ name f, t.get? name = some f → (∀ ty ∈ f.params, ty.isValue) ∨ P

/-- A declaration is refused if it has other parameters than the one before. -/
lemma declare_params_eq {functions functions' : Functions} {labels labels' : Labels}
    {name : String} {f : Signature} {returns : Ty} {params : List Ty} {define : Bool}
    (h : functions.declare labels name returns params define = .ok (functions', labels', f)) :
    f.params = params := by
  obtain ⟨old, -, ⟨-, hparams, -⟩, rfl, -⟩ | ⟨-, rfl, -⟩ := Functions.declare_cases h
  · exact hparams
  · rfl

lemma declareFunction_takesValues {p : Prototype} {define : Bool} {f : Signature}
    (hs : TakesValues P s.listing.functions) (hp : (∀ q ∈ p.params, q.ty.ty.isValue) ∨ P)
    (hd : s.declareFunction p define = .ok (s', f)) : TakesValues P s'.listing.functions := by
  obtain ⟨functions, labels, hdeclare, rfl⟩ := declareFunction_eq hd
  intro name g hg
  rw [(Functions.declare_spec hdeclare).1] at hg
  split at hg
  · obtain rfl := Option.some.inj hg
    rw [declare_params_eq hdeclare]
    exact hp.imp_left fun hvalue => by simpa using hvalue
  · exact hs name g hg

lemma params_isValue {ps : List Param} {s s' : Lowering} (h : Params ps s s') :
    ∀ q ∈ ps, q.ty.ty.isValue := by
  induction h with
  | nil => simp
  | cons hp _ ih => exact List.forall_mem_cons.2 ⟨(param_ok hp).1, ih⟩

lemma item_takesValues {i : Item} {u : Unit} (hi : i.TakesVoid → P)
    (hs : TakesValues P s.listing.functions) (h : item i s = .ok (u, s')) :
    TakesValues P s'.listing.functions := by
  cases i with
  | prototype p =>
    obtain ⟨f, hd⟩ := item_prototype_ok h
    refine declareFunction_takesValues hs ?_ hd
    by_cases hvoid : ∃ q ∈ p.params, q.ty = .void
    · exact .inr (hi hvoid)
    · exact .inl fun q hq => DeclTy.isValue_iff.2 fun hty => hvoid ⟨q, hq, hty⟩
  | function p body =>
    -- the parameters of a function with a body are declared, and so they have values
    obtain ⟨f, t₁, t₂, t₃, t₄, t₅, hd, hst, hp, hb, he, rfl⟩ := function_ok h
    have h₁ := declareFunction_takesValues hs (.inl (params_isValue hp)) hd
    have hfunctions : t₅.listing.functions = t₁.listing.functions := by
      rw [(functionEnd_reaches (k := 0) he).functions,
        (stmt_reaches body (Nat.zero_le _) hb).functions]
      exact (params_reaches (k := 0) hp).functions.trans (startAt_emitted hst).1.functions
    exact fun name g hg => h₁ name g (hfunctions ▸ hg)

lemma items_takesValues {is : List Item} {u : Unit} {s s' : Lowering}
    (hi : ∀ i ∈ is, i.TakesVoid → P) (hs : TakesValues P s.listing.functions)
    (h : is.forM item s = .ok (u, s')) : TakesValues P s'.listing.functions := by
  induction is generalizing s with
  | nil =>
    obtain ⟨-, rfl⟩ := pure_ok.1 h
    exact hs
  | cons i rest ih =>
    obtain ⟨t, hitem, hrest⟩ := forM_cons_ok.1 h
    exact ih (fun j hj => hi j (by simp [hj])) (item_takesValues (hi i (by simp)) hs hitem) hrest

lemma program_takesValues {p : Program} {u : Unit} (h : program p .start = .ok (u, s')) :
    TakesValues (∃ i ∈ p.parts, i.TakesVoid) s'.listing.functions := by
  have hstart (P : Prop) : TakesValues P Lowering.start.listing.functions :=
    fun _ _ hg => by cases hg
  cases p with
  | stmt body =>
    have hfunctions := (stmt_reaches body (Nat.zero_le _) h).functions
    exact fun name f hg => hstart _ name f (hfunctions ▸ hg)
  | items is => exact items_takesValues (fun i hi hvoid => ⟨i, hi, hvoid⟩) (hstart _) h

lemma program_returned {p : Program} {u : Unit} (h : program p .start = .ok (u, s'))
    (hl : s'.listing.WellTyped) :
    Returned (∃ i ∈ p.parts, i.ReturnsVoid) s'.listing := by
  have hstart (P : Prop) : Returned P Lowering.start.listing := fun k x o hx => by
    simp [Lowering.start, Listing.empty, Listing.instr?] at hx
  cases p with
  | stmt body =>
    have hguarded : Guarded True true .start := ⟨regular_start, hstart True, fun _ => .inl trivial⟩
    intro k x o hx hact
    obtain ⟨hcall, -⟩ := (stmt_guarded body (fun _ => rfl) hguarded h).returned k x o hx hact
    refine ⟨hcall, .inl ?_⟩
    -- nothing can be called here, so the operand has a value
    have htyped := hl.instrs hx
    obtain hvalue | ⟨-, i, rfl, -⟩ := htyped.reads_hasValue (o := o) hl (by
      cases o <;> simp [hact, Action.reads, Operand.parts])
    · exact hvalue
    · obtain ⟨y, callee, hy, hact'⟩ := hcall i rfl
      have htyped' := hl.instrs hy
      rw [hact'] at htyped'
      generalize y.ty = ty at htyped'
      cases htyped' with
      | call hf =>
        rw [(stmt_reaches body (Nat.zero_le _) h).functions] at hf
        cases hf
  | items is => exact items_returned (fun i hi hvoid => ⟨i, hi, hvoid⟩) regular_start (hstart _) h

end Lower

/-! ### Listings -/

namespace Listing

variable {p : Program} {l : Listing}

/-- What can be read that has no value: the result of a call that has none, where a prototype of
the program has a `void` parameter or a `void` function of the program returns an expression. -/
lemma ofProgram_reads_cases (h : ofProgram p = .ok l) {pc : Nat} {x : Instr} {o : Operand}
    (hx : instrAt? l pc = some x) (ho : o ∈ x.action.reads) :
    l.HasValue o ∨ ∃ i, o = .instr i ∧ l.CallsVoid i ∧
      (x.action = .push o ∧ (∃ item ∈ p.parts, item.TakesVoid) ∨
        x.action = .ret (some o) ∧ ∃ item ∈ p.parts, item.ReturnsVoid) := by
  have hl := ofProgram_wellTyped h
  have hsequenced := ofProgram_sequenced h
  obtain ⟨s, hp, rfl⟩ := ofProgram_ok h
  obtain ⟨k, -, hk⟩ := Option.bind_eq_some_iff.1 hx
  obtain hvalue | ⟨hnone, i, rfl, hact | hact⟩ := (hl.instrs hk).reads_hasValue hl ho
  · exact .inl hvalue
  · have hpushes : s.PushesResults := (Lower.program_phrases hp).pushesResults fun _ _ _ hy => by
      simp [Lowering.start, empty, instr?] at hy
    refine .inr ⟨i, rfl, hpushes k x i hk hact, .inl ⟨hact, ?_⟩⟩
    -- the parameter has the type of the operand
    obtain ⟨callee, params, first, hcalls, hle, hlt⟩ := hsequenced.pushes hx hact
    obtain ⟨m, rfl⟩ := Nat.exists_eq_add_of_le hle
    have hm : m < params.length := Nat.lt_of_add_lt_add_left hlt
    obtain ⟨call, target, -, -, hpushed⟩ := hcalls.sequence
    obtain ⟨y, value, hy, hact', -, hty⟩ := hpushed (List.getElem?_eq_getElem hm)
    obtain rfl := Option.some.inj (hy.symm.trans hx)
    obtain rfl := Action.push.inj (hact'.symm.trans hact)
    obtain ⟨name, f, hf, -, rfl⟩ := hcalls.declared
    obtain hvalues | hvoid := Lower.program_takesValues hp name f hf
    · have hvalue := hvalues _ (List.getElem_mem hm)
      rw [Option.some.inj (hty.symm.trans hnone)] at hvalue
      cases hvalue
    · exact hvoid
  · obtain ⟨hcall, hvalue | hvoid⟩ := Lower.program_returned hp hl k x _ hk hact
    · exact .inl hvalue
    · exact .inr ⟨i, rfl, hcall i rfl, .inr ⟨hact, hvoid⟩⟩

/-- **What is read has a value**, if no prototype has a `void` parameter and no `void` function
returns an expression. In any program only pushes and returns read something else: the result of a
call that has none, which takes such a prototype or such a function. -/
theorem ofProgram_reads (h : ofProgram p = .ok l) :
    ((∀ item ∈ p.parts, ¬item.TakesVoid ∧ ¬item.ReturnsVoid) →
      ∀ pc x o, instrAt? l pc = some x → o ∈ x.action.reads → l.HasValue o) ∧
    ∀ pc x o, instrAt? l pc = some x → o ∈ x.action.reads → ¬l.HasValue o →
      ∃ i, o = .instr i ∧ l.CallsVoid i ∧
        (x.action = .push o ∧ (∃ item ∈ p.parts, item.TakesVoid) ∨
          x.action = .ret (some o) ∧ ∃ item ∈ p.parts, item.ReturnsVoid) := by
  refine ⟨fun hitems pc x o hx ho => ?_, fun pc x o hx ho hnot =>
    (ofProgram_reads_cases h hx ho).resolve_left hnot⟩
  obtain hvalue | ⟨i, -, -, ⟨-, item, hitem, htakes⟩ | ⟨-, item, hitem, hreturns⟩⟩ :=
    ofProgram_reads_cases h hx ho
  · exact hvalue
  · exact absurd htakes (hitems item hitem).1
  · exact absurd hreturns (hitems item hitem).2

/-- In `fillProgram` the operands of a store, an index among them, and of a call have values. -/
theorem ofProgram_reads_fill : ∃ l, ofProgram fillProgram = .ok l ∧
    ∀ pc x o, instrAt? l pc = some x → o ∈ x.action.reads → l.HasValue o := by
  have hok : (ofProgram fillProgram).toOption.map (·.stream.isEmpty) = some false := by
    decide +kernel
  obtain ⟨l, hl, -⟩ := toOption_map_eq_some.1 hok
  refine ⟨l, hl, (ofProgram_reads hl).1 fun item hitem => ?_⟩
  obtain rfl := List.mem_singleton.1 hitem
  exact ⟨id, by simp [Item.ReturnsVoid]⟩

/-- `void v() {} void w(void q); void main() { w(v()); return v(); }` -/
def voidResults : Program :=
  .items [
    .function ⟨"v", .void, []⟩ (.compound []),
    .prototype ⟨"w", .void, [⟨.void, "q"⟩]⟩,
    .function ⟨"main", .void, []⟩ (.compound [
      .expr (.call "w" [.call "v" []]), .ret (some (.call "v" []))])]

/-- Both the push and the return read a result that is not there. -/
theorem ofProgram_reads_voidResults : ∃ l, ofProgram voidResults = .ok l ∧
    (∃ x, instrAt? l 4 = some x ∧ x.action = .push (.instr 3) ∧ ¬l.HasValue (.instr 3)) ∧
    ∃ x, instrAt? l 7 = some x ∧ x.action = .ret (some (.instr 6)) ∧ ¬l.HasValue (.instr 6) := by
  have hok : ((ofProgram voidResults).toOption.map fun l =>
      decide ((instrAt? l 4).map (·.action) = some (.push (.instr 3)) ∧
        (instrAt? l 7).map (·.action) = some (.ret (some (.instr 6))) ∧
        l.typeOf? (.instr 3) = some .none ∧ l.typeOf? (.instr 6) = some .none)) =
      some true := by decide +kernel
  obtain ⟨l, hl, hok⟩ := toOption_map_eq_some.1 hok
  obtain ⟨hpush, hret, hthird, hsixth⟩ := of_decide_eq_true hok
  obtain ⟨x, hx, hact⟩ := Option.map_eq_some_iff.1 hpush
  obtain ⟨y, hy, hact'⟩ := Option.map_eq_some_iff.1 hret
  have hnone {o : Operand} (ho : l.typeOf? o = some .none) : ¬l.HasValue o := by
    rintro ⟨ty, hty, hvalue⟩
    rw [← Option.some.inj (ho.symm.trans hty)] at hvalue
    cases hvalue
  exact ⟨l, hl, ⟨x, hx, hact, hnone hthird⟩, y, hy, hact', hnone hsixth⟩

end Listing

end ThreeAddress
