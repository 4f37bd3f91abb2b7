import Mathlib
import ThreeAddress.Lowering.Program

/-!
What a step of lowering has done when it succeeds.

Each function of the lowering has a lemma `*_ok` that takes a successful run apart into
the runs it is made of, down to the elementary operations on the state; those that follow the
syntax have one for each of its forms. Proofs about lowering use these lemmas and never open the
monad.
-/

namespace ThreeAddress

/-! ### Results -/

section

variable {ε α β : Type} {x : Except ε α} {b : β}

lemma toOption_map_eq_some {f : α → β} :
    x.toOption.map f = some b ↔ ∃ a, x = .ok a ∧ f a = b := by
  cases x <;> simp [Except.toOption]

lemma toOption_bind_eq_some {f : α → Option β} :
    x.toOption.bind f = some b ↔ ∃ a, x = .ok a ∧ f a = some b := by
  cases x <;> simp [Except.toOption]

end

namespace Lower

open Source

variable {α β : Type} {s s' s'' : Lowering} {a : α} {b : β}

/-! ### Successful steps -/

lemma bind_ok {m : Lower α} {f : α → Lower β} :
    (m >>= f) s = .ok (b, s'') ↔ ∃ a s', m s = .ok (a, s') ∧ f a s' = .ok (b, s'') := by
  change (StateT.bind m f) s = _ ↔ _
  unfold StateT.bind
  cases h : m s with
  | error e => simp [Bind.bind, Except.bind]
  | ok r =>
    obtain ⟨a, s'⟩ := r
    simp [Bind.bind, Except.bind]

lemma pure_ok {c : α} : (pure a : Lower α) s = .ok (c, s') ↔ a = c ∧ s = s' := by
  change Except.ok (a, s) = _ ↔ _
  simp

lemma get_ok {r : Lowering} : (get : Lower Lowering) s = .ok (r, s') ↔ s = r ∧ s = s' := by
  change Except.ok (s, s) = _ ↔ _
  simp

lemma modify_ok {f : Lowering → Lowering} {u : Unit} :
    (modify f : Lower Unit) s = .ok (u, s') ↔ f s = s' := by
  change Except.ok ((), f s) = _ ↔ _
  simp

lemma refuse_ok {d : Diagnostic} : (refuse d : Lower α) s = .ok (a, s') ↔ False := by
  change (Except.error (.refused d) : Except Failure (α × Lowering)) = _ ↔ _
  simp

lemma mapError_swap_ok {ε : Type} {f : ε → Failure} {r : Except ε (Lowering × α)} :
    (r.mapError f >>= fun p => pure (p.2, p.1)) = .ok (a, s') ↔ r = .ok (s', a) := by
  cases r with
  | error e => simp [Bind.bind, Except.bind, Except.mapError]
  | ok p =>
    simp [Bind.bind, Except.bind, Pure.pure, Except.pure, Except.mapError, Prod.ext_iff, and_comm]

lemma attempt_ok {step : Lowering → Except Fault (Lowering × α)} :
    attempt step s = .ok (a, s') ↔ step s = .ok (s', a) :=
  mapError_swap_ok

lemma checked_ok {step : Lowering → Except Diagnostic (Lowering × α)} :
    checked step s = .ok (a, s') ↔ step s = .ok (s', a) :=
  mapError_swap_ok

lemma always_ok {step : Lowering → Lowering × α} :
    always step s = .ok (a, s') ↔ step s = (s', a) := by
  change Except.ok ((step s).2, (step s).1) = _ ↔ _
  rw [Prod.ext_iff]
  simp [and_comm]

lemma emit_ok {action : Action} {id : InstrId} :
    emit action s = .ok (id, s') ↔ s.emit action = .ok (s', id) :=
  attempt_ok

lemma startAt_ok {label : LabelId} {u : Unit} :
    startAt label s = .ok (u, s') ↔ s.startAt label = .ok s' := by
  unfold startAt
  rw [attempt_ok]
  cases s.startAt label <;> simp [Bind.bind, Except.bind, Pure.pure, Except.pure]

lemma freshLabel_ok {label : LabelId} :
    freshLabel s = .ok (label, s') ↔ s.freshLabel = (s', label) :=
  always_ok

lemma freshTemporary_ok {ty : Ty} {v : VarId} :
    freshTemporary ty s = .ok (v, s') ↔ s.freshTemporary ty = (s', v) :=
  always_ok

lemma bindName_ok {name : String} {symbol : Symbol} {u : Unit} :
    bind name symbol s = .ok (u, s') ↔
      ∃ scopes, s.scopes.bind name symbol = .ok scopes ∧ { s with scopes } = s' := by
  unfold bind Lowering.bind
  rw [checked_ok]
  cases s.scopes.bind name symbol <;> simp [Bind.bind, Except.bind, Pure.pure, Except.pure]

lemma resolve_ok {name : String} {symbol : Symbol} :
    resolve name s = .ok (symbol, s') ↔
      s.scopes.lookup s.listing.vars name = some symbol ∧ s = s' := by
  unfold resolve Lowering.resolve
  rw [checked_ok]
  cases s.scopes.lookup s.listing.vars name <;>
    simp [Bind.bind, Except.bind, Pure.pure, Except.pure, throw, throwThe, MonadExceptOf.throw,
      and_comm]

lemma typeOf_ok {operand : Operand} {ty : Ty} :
    typeOf operand s = .ok (ty, s') ↔ s.listing.typeOf? operand = some ty ∧ s = s' := by
  unfold typeOf Listing.typeOf
  rw [attempt_ok]
  cases s.listing.typeOf? operand <;>
    simp [Bind.bind, Except.bind, Pure.pure, Except.pure, throw, throwThe, MonadExceptOf.throw,
      and_comm]

lemma expect_ok {context : TypeContext} {expected found : Ty} {u : Unit} :
    expect context expected found s = .ok (u, s') ↔ expected = found ∧ s = s' := by
  unfold expect
  split <;> simp_all [pure_ok, refuse_ok]

lemma expectValue_ok {context : TypeContext} {found : Ty} {u : Unit} :
    expectValue context found s = .ok (u, s') ↔ found.isValue = true ∧ s = s' := by
  unfold expectValue
  split <;> simp_all [pure_ok, refuse_ok]

lemma valueTy_ok {ty : DeclTy} {name : String} {r : Ty} :
    valueTy ty name s = .ok (r, s') ↔ ty.ty.isValue = true ∧ ty.ty = r ∧ s = s' := by
  simp only [valueTy, bind_ok, expectValue_ok, pure_ok]
  grind

lemma whenReached_ok {step : Lower Unit} {u : Unit} :
    whenReached step s = .ok (u, s') ↔
      if s.unreachable then s = s' else step s = .ok (u, s') := by
  simp only [whenReached, bind_ok, get_ok]
  cases h : s.unreachable <;> simp [h, pure_ok]

lemma reached_ok {step : Lower Unit} {u : Unit} (hr : s.unreachable = false)
    (h : whenReached step s = .ok (u, s')) : step s = .ok (u, s') := by
  rwa [whenReached_ok, hr, if_neg Bool.false_ne_true] at h

lemma forM_cons_ok {f : α → Lower Unit} {x : α} {xs : List α} {u : Unit} :
    (x :: xs).forM f s = .ok (u, s') ↔
      ∃ t, f x s = .ok ((), t) ∧ xs.forM f t = .ok ((), s') := by
  rw [List.forM_eq_forM, List.forM_cons, bind_ok]
  constructor
  · rintro ⟨u', t, hx, hrest⟩
    exact ⟨t, hx, hrest⟩
  · rintro ⟨t, hx, hrest⟩
    exact ⟨(), t, hx, hrest⟩

/-! ### Successful expressions -/

lemma scalar_ok {name : String} {r : Lowered} (h : scalar name s = .ok (r, s')) :
    ∃ v ty, s.scopes.lookup s.listing.vars name = some (.var v) ∧
      s.listing.typeOf? (.var v) = some ty ∧ r = ⟨.var v, ty⟩ ∧ s' = s := by
  simp only [scalar, bind_ok, resolve_ok] at h
  obtain ⟨symbol, t, ⟨hlookup, rfl⟩, h⟩ := h
  cases symbol with
  | var v =>
    simp only [bind_ok, typeOf_ok, pure_ok] at h
    obtain ⟨ty, t, ⟨hty, rfl⟩, rfl, rfl⟩ := h
    exact ⟨v, ty, hlookup, hty, rfl, rfl⟩
  | array a => simp [bind_ok, refuse_ok] at h

lemma arrayNamed_ok {name : String} {a : ArrayId} (h : arrayNamed name s = .ok (a, s')) :
    s.scopes.lookup s.listing.vars name = some (.array a) ∧ s' = s := by
  simp only [arrayNamed, bind_ok, resolve_ok] at h
  obtain ⟨symbol, t, ⟨hlookup, rfl⟩, h⟩ := h
  cases symbol with
  | var v => simp [bind_ok, refuse_ok] at h
  | array b =>
    obtain ⟨rfl, rfl⟩ := pure_ok.1 h
    exact ⟨hlookup, rfl⟩

lemma index_ok {name : String} {value : Lowered} {o : Operand}
    (h : index name value s = .ok (o, s')) : value.ty = .int ∧
      if value.operand.isScalar then o = value.operand ∧ s' = s
      else ∃ t v id, s.freshTemporary .int = (t, v) ∧
        t.emit (.copy value.operand (.var v)) = .ok (s', id) ∧ o = .var v := by
  simp only [index, bind_ok, expect_ok] at h
  obtain ⟨-, t, ⟨hty, rfl⟩, h⟩ := h
  refine ⟨hty.symm, ?_⟩
  split at h
  · obtain ⟨rfl, rfl⟩ := pure_ok.1 h
    simp_all
  · simp only [bind_ok, freshTemporary_ok, emit_ok, pure_ok] at h
    obtain ⟨v, t, ht, id, t', he, rfl, rfl⟩ := h
    simp_all

lemma destination_ok {dest : Option VarId} {ty : Ty} {v : VarId}
    (h : destination dest ty s = .ok (v, s')) :
    (dest = some v ∧ s' = s) ∨ (dest = none ∧ s.freshTemporary ty = (s', v)) := by
  cases dest with
  | some w => simp_all [destination, pure_ok]
  | none => exact .inr ⟨rfl, freshTemporary_ok.1 h⟩

lemma binary_ok {op : BinaryOp} {lhs rhs : Lowered} {dest : Option VarId} {r : Lowered}
    (h : binary op lhs rhs dest s = .ok (r, s')) :
    lhs.ty = rhs.ty ∧ lhs.ty.isValue ∧ ∃ v t id,
      destination dest (op.resultTy lhs.ty) s = .ok (v, t) ∧
      t.emit (.compute op lhs.operand rhs.operand v) = .ok (s', id) ∧
      r = ⟨.var v, op.resultTy lhs.ty⟩ := by
  unfold binary at h
  split at h
  · simp [bind_ok, refuse_ok] at h
  · rename_i hne
    simp only [bind_ok, emit_ok, pure_ok] at h
    obtain ⟨v, t, hd, id, t', he, rfl, rfl⟩ := h
    simp only [not_or, not_not, Bool.not_eq_true', Bool.not_eq_false] at hne
    exact ⟨hne.1, hne.2, v, t, id, hd, he, rfl⟩

lemma unary_ok {op : UnaryOp} {value : Lowered} {dest : Option VarId} {r : Lowered}
    (h : unary op value dest s = .ok (r, s')) :
    value.ty.isValue ∧ ∃ v t id, destination dest (op.resultTy value.ty) s = .ok (v, t) ∧
      t.emit (.apply op value.operand v) = .ok (s', id) ∧ r = ⟨.var v, op.resultTy value.ty⟩ := by
  simp only [unary, bind_ok, expectValue_ok, emit_ok, pure_ok] at h
  obtain ⟨-, t, ⟨hv, rfl⟩, v, t, hd, id, t', he, rfl, rfl⟩ := h
  exact ⟨hv, v, t, id, hd, he, rfl⟩

lemma assign_ok {place : Expr} {target : Target} {value r : Lowered}
    (h : assign place target value s = .ok (r, s')) :
    target.ty = value.ty ∧ ∃ id, s.emit (.copy value.operand target.place) = .ok (s', id) ∧
      r = ⟨target.place.operand, target.ty⟩ := by
  simp only [assign, bind_ok, expect_ok, emit_ok, pure_ok] at h
  obtain ⟨-, t, ⟨hty, rfl⟩, id, t, he, rfl, rfl⟩ := h
  exact ⟨hty, id, he, rfl⟩

lemma callee_ok {function : String} {count : Nat} {f : Signature}
    (h : callee function count s = .ok (f, s')) :
    s.listing.functions.get? function = some f ∧ f.params.length = count ∧ s' = s := by
  simp only [callee, bind_ok, get_ok] at h
  obtain ⟨r, t, ⟨rfl, rfl⟩, h⟩ := h
  cases hf : s.listing.functions.get? function with
  | none => simp [hf, refuse_ok] at h
  | some g =>
    simp only [hf] at h
    split at h
    · obtain ⟨rfl, rfl⟩ := pure_ok.1 h
      simp_all
    · simp [refuse_ok] at h

/-- The pushes of a list of arguments. -/
inductive Pushes : List Operand → Lowering → Lowering → Prop
  | nil (s : Lowering) : Pushes [] s s
  | cons {o : Operand} {rest : List Operand} {s t s' : Lowering} {id : InstrId} :
    s.emit (.push o) = .ok (t, id) → Pushes rest t s' → Pushes (o :: rest) s s'

lemma pushes_of_forM {args : List Operand} {u : Unit} {s s' : Lowering}
    (h : (args.forM fun value => do let _ ← emit (.push value)) s = .ok (u, s')) :
    Pushes args s s' := by
  induction args generalizing s with
  | nil =>
    obtain ⟨-, rfl⟩ := pure_ok.1 h
    exact .nil s
  | cons o rest ih =>
    obtain ⟨t, he, hrest⟩ := forM_cons_ok.1 h
    simp only [bind_ok, emit_ok, pure_ok] at he
    obtain ⟨id, t', he, -, rfl⟩ := he
    exact .cons he (ih hrest)

lemma call_ok {f : Signature} {args : List Operand} {dest : Option VarId} {r : Lowered}
    (h : call f args dest s = .ok (r, s')) : ∃ t, Pushes args s t ∧
      if f.returns.isValue then ∃ v t' id, destination dest f.returns t = .ok (v, t') ∧
        t'.emit (.call f.label (some v)) = .ok (s', id) ∧ r = ⟨.var v, f.returns⟩
      else ∃ id, t.emit (.call f.label none) = .ok (s', id) ∧ r = ⟨.instr id, .none⟩ := by
  unfold call at h
  obtain ⟨u, t, hpush, h⟩ := bind_ok.1 h
  refine ⟨t, pushes_of_forM hpush, ?_⟩
  split at h
  · simp only [bind_ok, emit_ok, pure_ok] at h
    obtain ⟨v, t', hd, id, t'', he, rfl, rfl⟩ := h
    simp_all
  · simp only [bind_ok, emit_ok, pure_ok] at h
    obtain ⟨id, t', he, rfl, rfl⟩ := h
    simp_all

/-! ### Expressions by their form -/

section

variable {dest : Option VarId} {r : Lowered} {target : Target} {name : String}

lemma element_ok {inner : Expr} {f : ArrayId → Operand → Ty → β}
    (h : (do
      let a ← arrayNamed name
      let o ← index name (← expr none inner)
      return f a o (← typeOf (.array a))) s = .ok (b, s')) :
    ∃ a value t o ty, s.scopes.lookup s.listing.vars name = some (.array a) ∧
      expr none inner s = .ok (value, t) ∧ index name value t = .ok (o, s') ∧
      s'.listing.typeOf? (.array a) = some ty ∧ b = f a o ty := by
  obtain ⟨a, t, ha, h⟩ := bind_ok.1 h
  obtain ⟨value, t₁, he, h⟩ := bind_ok.1 h
  obtain ⟨o, t₂, hi, h⟩ := bind_ok.1 h
  simp only [bind_ok, typeOf_ok, pure_ok] at h
  obtain ⟨ty, t₃, ⟨hty, rfl⟩, rfl, rfl⟩ := h
  obtain ⟨hl, rfl⟩ := arrayNamed_ok ha
  exact ⟨a, value, t₁, o, ty, hl, he, hi, hty, rfl⟩

lemma expr_elem_ok {inner : Expr} (h : expr dest (.elem name inner) s = .ok (r, s')) :
    ∃ a value t o ty, s.scopes.lookup s.listing.vars name = some (.array a) ∧
      expr none inner s = .ok (value, t) ∧ index name value t = .ok (o, s') ∧
      s'.listing.typeOf? (.array a) = some ty ∧ r = ⟨.elem a o, ty⟩ :=
  element_ok h

lemma expr_paren {inner : Expr} : expr dest (.paren inner) = expr dest inner := rfl

lemma expr_assign_ok {lhs rhs : Expr} (h : expr dest (.assign lhs rhs) s = .ok (r, s')) :
    ∃ value t target t', expr none rhs s = .ok (value, t) ∧ place lhs t = .ok (target, t') ∧
      assign lhs.stripParens target value t' = .ok (r, s') := by
  obtain ⟨value, t, he, h⟩ := bind_ok.1 h
  obtain ⟨target, t', hp, h⟩ := bind_ok.1 h
  exact ⟨value, t, target, t', he, hp, h⟩

lemma expr_binary_ok {op : BinaryOp} {lhs rhs : Expr}
    (h : expr dest (.binary op lhs rhs) s = .ok (r, s')) :
    ∃ left t right t', expr none lhs s = .ok (left, t) ∧ expr none rhs t = .ok (right, t') ∧
      binary op left right dest t' = .ok (r, s') := by
  obtain ⟨left, t, hl, h⟩ := bind_ok.1 h
  obtain ⟨right, t', hr, h⟩ := bind_ok.1 h
  exact ⟨left, t, right, t', hl, hr, h⟩

lemma expr_unary_ok {op : UnaryOp} {operand : Expr}
    (h : expr dest (.unary op operand) s = .ok (r, s')) :
    ∃ value t, expr none operand s = .ok (value, t) ∧ unary op value dest t = .ok (r, s') :=
  bind_ok.1 h

lemma expr_call_ok {args : List Expr} (h : expr dest (.call name args) s = .ok (r, s')) :
    ∃ f values t, s.listing.functions.get? name = some f ∧ f.params.length = args.length ∧
      arguments name 1 f.params args s = .ok (values, t) ∧ call f values dest t = .ok (r, s') := by
  obtain ⟨f, t, hf, h⟩ := bind_ok.1 h
  obtain ⟨values, t', ha, hc⟩ := bind_ok.1 h
  obtain ⟨hget, hlen, rfl⟩ := callee_ok hf
  exact ⟨f, values, t', hget, hlen, ha, hc⟩

lemma place_paren {inner : Expr} : place (.paren inner) = place inner := rfl

lemma place_var_ok (h : place (.var name) s = .ok (target, s')) :
    ∃ v ty, s.scopes.lookup s.listing.vars name = some (.var v) ∧
      s.listing.typeOf? (.var v) = some ty ∧ target = ⟨.var v, ty⟩ ∧ s' = s := by
  obtain ⟨symbol, t, hs, h⟩ := bind_ok.1 h
  obtain ⟨hlookup, rfl⟩ := resolve_ok.1 hs
  cases symbol with
  | var v =>
    simp only [bind_ok, typeOf_ok, pure_ok] at h
    obtain ⟨ty, t, ⟨hty, rfl⟩, rfl, rfl⟩ := h
    exact ⟨v, ty, hlookup, hty, rfl, rfl⟩
  | array a => exact (refuse_ok.1 h).elim

lemma place_elem_ok {inner : Expr} (h : place (.elem name inner) s = .ok (target, s')) :
    ∃ a value t o ty, s.scopes.lookup s.listing.vars name = some (.array a) ∧
      expr none inner s = .ok (value, t) ∧ index name value t = .ok (o, s') ∧
      s'.listing.typeOf? (.array a) = some ty ∧ target = ⟨.elem a o, ty⟩ :=
  element_ok h

lemma arguments_cons_ok {position : Nat} {params : List Ty} {arg : Expr} {rest : List Expr}
    {values : List Operand}
    (h : arguments name position params (arg :: rest) s = .ok (values, s')) :
    ∃ value t others, expr none arg s = .ok (value, t) ∧ params.headD .none = value.ty ∧
      arguments name (position + 1) params.tail rest t = .ok (others, s') ∧
      values = value.operand :: others := by
  obtain ⟨value, t, he, h⟩ := bind_ok.1 h
  simp only [bind_ok, expect_ok, pure_ok] at h
  obtain ⟨-, t', ⟨hty, rfl⟩, others, t'', hr, rfl, rfl⟩ := h
  exact ⟨value, t, others, he, hty, hr, rfl⟩

end

/-! ### Successful statements -/

lemma condition_ok {test : Expr} {o : Operand} (h : condition test s = .ok (o, s')) :
    ∃ ty, expr none test s = .ok (⟨o, ty⟩, s') ∧ ty.isValue := by
  simp only [condition, bind_ok, expectValue_ok, pure_ok] at h
  obtain ⟨v, t, he, -, t', ⟨hv, rfl⟩, rfl, rfl⟩ := h
  exact ⟨v.ty, he, hv⟩

lemma requireFree_ok {name : String} {scope : Scope} (h : requireFree name s = .ok (scope, s')) :
    s.scopes.isBoundLocally name = false ∧ scope = s.scopes.current ∧ s' = s := by
  simp only [requireFree, bind_ok, get_ok] at h
  obtain ⟨r, t, ⟨rfl, rfl⟩, h⟩ := h
  split at h
  · simp only [bind_ok, refuse_ok, false_and, exists_false] at h
  · obtain ⟨rfl, rfl⟩ := pure_ok.1 h
    simp_all

lemma initVariable_ok {name : String} {ty : Ty} {v : VarId} {init : Expr} {u : Unit}
    (h : initVariable name ty v init s = .ok (u, s')) :
    ∃ value t, expr (some v) init s = .ok (value, t) ∧ value.ty = ty ∧
      if value.operand = .var v then s' = t
      else ∃ id, t.emit (.copy value.operand (.var v)) = .ok (s', id) := by
  simp only [initVariable, bind_ok, expect_ok] at h
  obtain ⟨value, t, he, -, t', ⟨rfl, rfl⟩, h⟩ := h
  refine ⟨value, t, he, rfl, ?_⟩
  split at h
  · simp only [bind_ok, emit_ok, pure_ok] at h
    obtain ⟨id, t', hc, -, rfl⟩ := h
    simp_all
  · obtain ⟨-, rfl⟩ := pure_ok.1 h
    simp_all

lemma declare_ok {ty : DeclTy} {name : String} {init : Option Expr} {u : Unit}
    (h : declare ty name init s = .ok (u, s')) :
    ty.ty.isValue ∧ s.scopes.isBoundLocally name = false ∧ ∃ t v t' scopes,
      s.freshVariable name ty.ty s.scopes.current .none = (t, v) ∧
      (init.elim (t' = t) fun e => initVariable name ty.ty v e t = .ok ((), t')) ∧
      t'.scopes.bind name (.var v) = .ok scopes ∧ s' = { t' with scopes } := by
  simp only [declare, bind_ok, valueTy_ok] at h
  obtain ⟨-, t, ⟨hv, rfl, rfl⟩, scope, t, hfree, v, t', hv', h⟩ := h
  obtain ⟨hfree', rfl, rfl⟩ := requireFree_ok hfree
  refine ⟨hv, hfree', t', v, ?_⟩
  cases init with
  | none =>
    obtain ⟨scopes, hb, rfl⟩ := bindName_ok.1 h
    exact ⟨t', scopes, always_ok.1 hv', rfl, hb, rfl⟩
  | some e =>
    simp only [bind_ok, bindName_ok] at h
    obtain ⟨u, t, hi, scopes, hb, rfl⟩ := h
    exact ⟨t, scopes, always_ok.1 hv', hi, hb, rfl⟩

lemma declareArray_ok {ty : DeclTy} {name : String} {length : Nat} {u : Unit}
    (h : declareArray ty name length s = .ok (u, s')) :
    ty.ty.isValue ∧ s.scopes.isBoundLocally name = false ∧ ∃ t a scopes,
      s.freshArray ⟨name, ty.ty, length, s.scopes.current⟩ = (t, a) ∧
      t.scopes.bind name (.array a) = .ok scopes ∧ s' = { t with scopes } := by
  simp only [declareArray, bind_ok, valueTy_ok, bindName_ok] at h
  obtain ⟨-, t, ⟨hv, rfl, rfl⟩, scope, t, hfree, a, t', ha, scopes, hb, rfl⟩ := h
  obtain ⟨hfree', rfl, rfl⟩ := requireFree_ok hfree
  exact ⟨hv, hfree', t', a, scopes, always_ok.1 ha, hb, rfl⟩

lemma ret_ok {value : Option Lowered} {u : Unit} (h : ret value s = .ok (u, s')) :
    (∀ f ∈ s.function, f.returns = value.elim .none Lowered.ty) ∧
      ∃ id, s.emit (.ret (value.map Lowered.operand)) = .ok (s', id) := by
  simp only [ret, bind_ok, get_ok] at h
  obtain ⟨r, t, ⟨rfl, rfl⟩, h⟩ := h
  cases hf : s.function with
  | none =>
    simp only [hf, bind_ok, pure_ok, emit_ok] at h
    obtain ⟨id, t, he, -, rfl⟩ := h
    exact ⟨by simp, id, he⟩
  | some f =>
    simp only [hf, bind_ok, expect_ok, pure_ok, emit_ok] at h
    obtain ⟨-, t, ⟨hty, rfl⟩, id, t, he, -, rfl⟩ := h
    exact ⟨by simpa using hty, id, he⟩

lemma jumpToJoin_ok {join : Option LabelId} (h : jumpToJoin s = .ok (join, s')) :
    if s.unreachable then join = none ∧ s' = s
    else ∃ t label id, s.freshLabel = (t, label) ∧ t.emit (.jump label) = .ok (s', id) ∧
      join = some label := by
  simp only [jumpToJoin, bind_ok, get_ok] at h
  obtain ⟨r, t, ⟨rfl, rfl⟩, h⟩ := h
  split at h
  · obtain ⟨rfl, rfl⟩ := pure_ok.1 h
    simp_all
  · simp only [bind_ok, freshLabel_ok, emit_ok, pure_ok] at h
    obtain ⟨label, t, hl, id, t', he, rfl, rfl⟩ := h
    simp_all

lemma jumpUnlessEnded_ok {label : LabelId} {u : Unit}
    (h : jumpUnlessEnded label s = .ok (u, s')) :
    if s.unreachable then s' = s else ∃ id, s.emit (.jump label) = .ok (s', id) := by
  simp only [jumpUnlessEnded, bind_ok, get_ok] at h
  obtain ⟨r, t, ⟨rfl, rfl⟩, h⟩ := h
  split at h
  · simp only [bind_ok, emit_ok, pure_ok] at h
    obtain ⟨id, t, he, -, rfl⟩ := h
    simp_all
  · obtain ⟨-, rfl⟩ := pure_ok.1 h
    simp_all

/-! ### Statements by their form -/

/-- A test, and the branch to a new label that is taken when the test fails. -/
def Branches (test : Expr) (label : LabelId) (s s' : Lowering) : Prop :=
  ∃ o t t' id, condition test s = .ok (o, t) ∧ t.freshLabel = (t', label) ∧
    t'.emit (.jumpFalse o label) = .ok (s', id)

/-- Statements that no path reaches are dropped. -/
lemma stmt_unreachable {body : Stmt} {u : Unit} (h : stmt body s = .ok (u, s'))
    (hr : s.unreachable = true) : s' = s := by
  have hdropped {step : Lower Unit} (h : whenReached step s = .ok (u, s')) : s' = s := by
    rw [whenReached_ok, if_pos hr] at h
    exact h.symm
  cases body with
  | ret value => cases value <;> exact hdropped h
  | _ => exact hdropped h

lemma stmts_cons_ok {first : Stmt} {rest : List Stmt} {u : Unit}
    (h : stmts (first :: rest) s = .ok (u, s')) :
    ∃ t, stmt first s = .ok ((), t) ∧ stmts rest t = .ok ((), s') := by
  obtain ⟨u', t, hf, hr⟩ := bind_ok.1 h
  exact ⟨t, hf, hr⟩

section

variable {test : Expr} {body : Stmt} {ty : DeclTy} {name : String} {u : Unit}
  (hr : s.unreachable = false)

include hr

lemma stmt_expr_ok {e : Expr} (h : stmt (.expr e) s = .ok (u, s')) :
    ∃ r, expr none e s = .ok (r, s') := by
  obtain ⟨r, t, he, h⟩ := bind_ok.1 (reached_ok hr h)
  obtain ⟨-, rfl⟩ := pure_ok.1 h
  exact ⟨r, he⟩

lemma stmt_compound_ok {body : List Stmt} (h : stmt (.compound body) s = .ok (u, s')) :
    ∃ t, stmts body { s with scopes := s.scopes.push } = .ok ((), t) ∧
      s' = { t with scopes := t.scopes.pop } := by
  have h := reached_ok hr h
  simp only [bind_ok, pushScope, popScope, modify_ok] at h
  obtain ⟨-, t, rfl, u', t', hb, rfl⟩ := h
  exact ⟨t', hb, rfl⟩

lemma stmt_ifThen_ok (h : stmt (.ifThen test body) s = .ok (u, s')) :
    ∃ label t t', Branches test label s t ∧ stmt body t = .ok ((), t') ∧
      t'.startAt label = .ok s' := by
  have h := reached_ok hr h
  simp only [bind_ok, freshLabel_ok, emit_ok, startAt_ok] at h
  obtain ⟨o, t₁, hc, label, t₂, hl, id, t₃, hj, u', t₄, hb, hs⟩ := h
  exact ⟨label, t₃, t₄, ⟨o, t₁, t₂, id, hc, hl, hj⟩, hb, hs⟩

lemma stmt_ifElse_ok {onTrue onFalse : Stmt}
    (h : stmt (.ifElse test onTrue onFalse) s = .ok (u, s')) :
    ∃ label t t₁ join t₂ t₃ t₄, Branches test label s t ∧ stmt onTrue t = .ok ((), t₁) ∧
      jumpToJoin t₁ = .ok (join, t₂) ∧ t₂.startAt label = .ok t₃ ∧
      stmt onFalse t₃ = .ok ((), t₄) ∧ join.forM startAt t₄ = .ok ((), s') := by
  have h := reached_ok hr h
  simp only [bind_ok, freshLabel_ok, emit_ok, startAt_ok] at h
  obtain ⟨o, t₁, hc, label, t₂, hl, id, t₃, hj, u', t₄, ht, join, t₅, hjoin, u'', t₆, hs, u₃,
    t₇, hf, hend⟩ := h
  exact ⟨label, t₃, t₄, join, t₅, t₆, t₇, ⟨o, t₁, t₂, id, hc, hl, hj⟩, ht, hjoin, hs, hf, hend⟩

lemma stmt_while_ok (h : stmt (.while test body) s = .ok (u, s')) :
    ∃ head t₁ t₂ label t₃ t₄ t₅, s.freshLabel = (t₁, head) ∧ t₁.startAt head = .ok t₂ ∧
      Branches test label t₂ t₃ ∧ stmt body t₃ = .ok ((), t₄) ∧
      jumpUnlessEnded head t₄ = .ok ((), t₅) ∧ t₅.startAt label = .ok s' := by
  have h := reached_ok hr h
  simp only [bind_ok, freshLabel_ok, emit_ok, startAt_ok] at h
  obtain ⟨head, t₁, hh, u₁, t₂, hs, o, t₃, hc, label, t₄, hl, id, t₅, hj, u₂, t₆, hb, u₃, t₇,
    hback, hend⟩ := h
  exact ⟨head, t₁, t₂, label, t₅, t₆, t₇, hh, hs, ⟨o, t₃, t₄, id, hc, hl, hj⟩, hb, hback, hend⟩

lemma stmt_decl_ok {init : Option Expr} (h : stmt (.decl ty name init) s = .ok (u, s')) :
    declare ty name init s = .ok (u, s') :=
  reached_ok hr h

lemma stmt_array_ok {length : Nat} (h : stmt (.array ty name length) s = .ok (u, s')) :
    declareArray ty name length s = .ok (u, s') :=
  reached_ok hr h

lemma stmt_ret_ok (h : stmt (.ret none) s = .ok (u, s')) : ret none s = .ok (u, s') :=
  reached_ok hr h

lemma stmt_retValue_ok {e : Expr} (h : stmt (.ret (some e)) s = .ok (u, s')) :
    ∃ r t, expr none e s = .ok (r, t) ∧ ret (some r) t = .ok (u, s') :=
  bind_ok.1 (reached_ok hr h)

end

/-! ### Functions -/

lemma param_ok {p : Param} {u : Unit} (h : param p s = .ok (u, s')) :
    p.ty.ty.isValue ∧ ∃ t v scopes id,
      s.freshVariable p.name p.ty.ty s.scopes.current .ofParameter = (t, v) ∧
      t.scopes.bind p.name (.var v) = .ok scopes ∧
      { t with scopes }.emit (.param v) = .ok (s', id) := by
  simp only [param, bind_ok, valueTy_ok, bindName_ok, emit_ok, pure_ok] at h
  obtain ⟨-, t, ⟨hv, rfl, rfl⟩, v, t', hv', -, t'', ⟨scopes, hb, rfl⟩, id, t''', he, -, rfl⟩ := h
  exact ⟨hv, t', v, scopes, id, always_ok.1 hv', hb, he⟩

lemma declareFunction_ok {p : Prototype} {define : Bool} {f : Signature} :
    declareFunction p define s = .ok (f, s') ↔ s.declareFunction p define = .ok (s', f) :=
  checked_ok

/-- The parameters of a function, declared from the left. -/
inductive Params : List Param → Lowering → Lowering → Prop
  | nil (s : Lowering) : Params [] s s
  | cons {p : Param} {rest : List Param} {s t s' : Lowering} :
    param p s = .ok ((), t) → Params rest t s' → Params (p :: rest) s s'

lemma params_of_forM {ps : List Param} {u : Unit} {s s' : Lowering}
    (h : ps.forM param s = .ok (u, s')) : Params ps s s' := by
  induction ps generalizing s with
  | nil =>
    obtain ⟨-, rfl⟩ := pure_ok.1 h
    exact .nil s
  | cons p rest ih =>
    obtain ⟨t, hp, hrest⟩ := forM_cons_ok.1 h
    exact .cons hp (ih hrest)

/-- The state after the body of a function and after the return that is added if control
can reach the end. -/
def FunctionEnd (t t' : Lowering) : Prop :=
  if t.unreachable then t' = t else ∃ id, t.emit (.ret none) = .ok (t', id)

lemma function_ok {p : Prototype} {body : Stmt} {u : Unit}
    (h : function p body s = .ok (u, s')) :
    ∃ f t₁ t₂ t₃ t₄ t₅, s.declareFunction p true = .ok (t₁, f) ∧ t₁.startAt f.label = .ok t₂ ∧
      Params p.params { t₂ with scopes := t₂.scopes.push } t₃ ∧
      stmt body { t₃ with function := some ⟨p.name, p.returns.ty⟩ } = .ok ((), t₄) ∧
      FunctionEnd t₄ t₅ ∧ s' = { t₅ with function := none, scopes := t₅.scopes.pop } := by
  simp only [function, bind_ok, declareFunction_ok, startAt_ok, pushScope, popScope, modify_ok,
    get_ok] at h
  obtain ⟨f, t₁, hd, -, t₂, hs, -, t, rfl, u, t₃, hp, -, t, rfl, u', t₄, hb, r, t, ⟨rfl, rfl⟩,
    h⟩ := h
  have hp' := params_of_forM hp
  unfold FunctionEnd
  split at h
  · simp only [bind_ok, emit_ok, modify_ok] at h
    obtain ⟨id, t₅, he, -, t, rfl, rfl⟩ := h
    refine ⟨f, t₁, t₂, t₃, t₄, t₅, hd, hs, hp', hb, ?_, rfl⟩
    simp_all
  · simp only [bind_ok, modify_ok] at h
    obtain ⟨-, t, rfl, rfl⟩ := h
    refine ⟨f, t₁, t₂, t₃, t₄, t₄, hd, hs, hp', hb, ?_, rfl⟩
    simp_all

lemma item_prototype_ok {p : Prototype} {u : Unit} (h : item (.prototype p) s = .ok (u, s')) :
    ∃ f, s.declareFunction p false = .ok (s', f) := by
  simp only [item, bind_ok, declareFunction_ok, pure_ok] at h
  obtain ⟨f, t, hd, -, rfl⟩ := h
  exact ⟨f, hd⟩

end Lower

end ThreeAddress
