import ThreeAddress.Proofs.Lowering.Context

/-!
No two declarations of a program share name and scope.

Lowering opens and closes scopes in pairs, and it binds each name that it declares in the
innermost one. A scope that is open holds all that was declared in it, so a second declaration is
refused; one that was closed is never opened again, because the scopes of one depth are counted.
The odd case is a declaration outside all scopes. It opens a scope and is bound there, but it is
recorded as made outside. This happens at most once: the scope stays open from then on.
-/

namespace ThreeAddress

/-- A name that is declared in a scope, and what it stands for. -/
@[ext]
structure Declaration where
  name : String
  scope : Scope
  symbol : Symbol

/-- The declarations that the tables of a listing record. -/
def Listing.declarations (l : Listing) : Set Declaration :=
  {d | match d.symbol with
    | .var v => ∃ x, l.vars.get? v = some x ∧ x.name? = some d.name ∧ x.scope? = some d.scope
    | .array a => ∃ x, l.arrays.get? a = some x ∧ x.name = d.name ∧ x.scope = d.scope}

/-- How scopes and declarations change together. -/
inductive Naming : Scopes → Set Declaration → Scopes → Set Declaration → Prop
  | refl {s : Scopes} {D : Set Declaration} : Naming s D s D
  | declare {s s' : Scopes} {D : Set Declaration} {name : String} {symbol : Symbol} :
    s.bind name symbol = .ok s' → Naming s D s' (insert ⟨name, s.current, symbol⟩ D)
  | nested {s s' : Scopes} {D D' : Set Declaration} :
    Naming s.push D s' D' → Naming s D s'.pop D'
  | trans {s t s' : Scopes} {D E D' : Set Declaration} :
    Naming s D t E → Naming t E s' D' → Naming s D s' D'

namespace Scopes

open Lowering

/-! ### Scopes that were opened -/

lemma countAt_getD (k : Nat) (opened : List Nat) (j : Nat) :
    (countAt k opened).getD j 0 = opened.getD j 0 + if j = k then 1 else 0 := by
  induction k, opened using countAt.induct generalizing j with
  | case1 => cases j <;> simp [countAt]
  | case2 n rest => cases j <;> simp [countAt]
  | case3 k ih =>
    cases j with
    | zero => simp [countAt]
    | succ j => simpa [countAt] using ih j
  | case4 k n rest ih =>
    cases j with
    | zero => simp [countAt]
    | succ j => simpa [countAt] using ih j

/-- The scope is one of those counted. -/
def Opened (opened : List Nat) (scope : Scope) : Prop :=
  ∃ k, scope.depth = k + 1 ∧ scope.index < opened.getD k 0

/-- The frames of open scopes, whose depths count them. -/
def Stacked (opened : List Nat) : List Frame → Prop
  | [] => True
  | f :: outer =>
    f.scope.depth = outer.length + 1 ∧ f.scope.index < opened.getD outer.length 0 ∧
      Stacked opened outer

lemma Opened.countAt {opened : List Nat} {scope : Scope} (h : Opened opened scope) (k : Nat) :
    Opened (countAt k opened) scope := by
  obtain ⟨j, hdepth, hindex⟩ := h
  refine ⟨j, hdepth, hindex.trans_le ?_⟩
  rw [countAt_getD]
  exact Nat.le_add_right _ _

lemma Stacked.countAt {opened : List Nat} {frames : List Frame} (h : Stacked opened frames)
    (k : Nat) : Stacked (countAt k opened) frames := by
  induction frames with
  | nil => trivial
  | cons f outer ih =>
    obtain ⟨hdepth, hindex, houter⟩ := h
    refine ⟨hdepth, hindex.trans_le ?_, ih houter⟩
    rw [countAt_getD]
    exact Nat.le_add_right _ _

lemma Stacked.mem {opened : List Nat} {frames : List Frame} (h : Stacked opened frames)
    {f : Frame} (hf : f ∈ frames) : 0 < f.scope.depth ∧ f.scope.depth ≤ frames.length := by
  induction frames with
  | nil => cases hf
  | cons g outer ih =>
    obtain ⟨hdepth, -, houter⟩ := h
    rcases List.mem_cons.1 hf with rfl | hf
    · simp [hdepth]
    · have := ih houter hf
      simp only [List.length_cons]
      omega

/-- A frame that is opened is counted. -/
lemma index_lt_push (s : Scopes) : s.next.index < s.push.opened.getD s.depth 0 := by
  change s.opened.getD s.depth 0 < (countAt s.depth s.opened).getD s.depth 0
  rw [countAt_getD, if_pos rfl]
  exact Nat.lt_succ_self _

/-- The next scope is not one of those that were opened. -/
lemma not_opened_next (s : Scopes) : ¬ Opened s.opened s.next := by
  rintro ⟨k, hdepth, hindex⟩
  obtain rfl : s.depth = k := Nat.succ.inj hdepth
  exact lt_irrefl _ hindex

/-! ### Declarations and scopes -/

/-- What the open scopes hold of the declarations. -/
structure Holds (s : Scopes) (D : Set Declaration) : Prop where
  stacked : Stacked s.opened s.frames
  scope : ∀ d ∈ D, d.scope = .outermost ∨ Opened s.opened d.scope
  bound : ∀ d ∈ D, ∀ f ∈ s.frames, d.scope = f.scope → f.names.lookup d.name = some d.symbol
  outermost : ∀ d ∈ D, d.scope = .outermost →
    s.frames ≠ [] ∧ ∀ e ∈ D, e.scope = .outermost → e = d
  unique : ∀ d ∈ D, ∀ e ∈ D, d.name = e.name → d.scope = e.scope → d = e

variable {s s' : Scopes} {D D' : Set Declaration}

lemma holds_empty : Holds .empty ∅ := by
  refine ⟨trivial, ?_, ?_, ?_, ?_⟩ <;> simp

lemma Holds.frame_ne_outermost (h : Holds s D) {f : Frame} (hf : f ∈ s.frames) :
    f.scope ≠ .outermost := by
  intro heq
  have := (h.stacked.mem hf).1
  simp [heq, Scope.outermost] at this

lemma Holds.scope_ne_next (h : Holds s D) {d : Declaration} (hd : d ∈ D) : d.scope ≠ s.next := by
  intro heq
  rcases h.scope d hd with hout | hopened
  · have hdepth : s.next.depth = 0 := by rw [← heq, hout]; rfl
    simp [next] at hdepth
  · exact s.not_opened_next (heq ▸ hopened)

lemma Holds.push (h : Holds s D) : Holds s.push D where
  stacked := ⟨rfl, s.index_lt_push, h.stacked.countAt _⟩
  scope d hd := (h.scope d hd).imp_right fun hopened => hopened.countAt _
  bound d hd f hf heq := by
    rcases List.mem_cons.1 hf with rfl | hf
    · exact absurd heq (h.scope_ne_next hd)
    · exact h.bound d hd f hf heq
  outermost d hd hout := ⟨List.cons_ne_nil _ _, (h.outermost d hd hout).2⟩
  unique := h.unique

lemma Holds.pop (h : Holds s D)
    (hout : ∀ d ∈ D, d.scope = .outermost → s.frames.tail ≠ []) : Holds s.pop D where
  stacked := by
    have hstacked := h.stacked
    unfold Scopes.pop
    cases hframes : s.frames with
    | nil => trivial
    | cons f outer =>
      rw [hframes] at hstacked
      exact hstacked.2.2
  scope := h.scope
  bound d hd f hf := h.bound d hd f (List.mem_of_mem_tail hf)
  outermost d hd hd' := ⟨hout d hd hd', (h.outermost d hd hd').2⟩
  unique := h.unique

/-- A declaration in the innermost frame. -/
lemma Holds.bind_frame {f : Frame} {outer : List Frame} {name : String} {symbol : Symbol}
    (h : Holds s D) (hframes : s.frames = f :: outer) (hfree : f.names.lookup name = none) :
    Holds { s with frames := { f with names := (name, symbol) :: f.names } :: outer }
      (insert ⟨name, f.scope, symbol⟩ D) := by
  have hstacked := h.stacked
  have hmem : f ∈ s.frames := hframes ▸ List.mem_cons_self
  rw [hframes] at hstacked
  -- the name is not declared in this scope yet
  have hnew : ∀ d ∈ D, d.scope = f.scope → d.name ≠ name := by
    rintro d hd hscope rfl
    rw [h.bound d hd f hmem hscope] at hfree
    cases hfree
  have hout := h.frame_ne_outermost hmem
  refine ⟨hstacked, ?_, ?_, ?_, ?_⟩
  · rintro d (rfl | hd)
    · exact .inr ⟨_, hstacked.1, hstacked.2.1⟩
    · exact h.scope d hd
  · rintro d (rfl | hd) g hg hscope
    · rcases List.mem_cons.1 hg with rfl | hg
      · simp
      · have hle := (hstacked.2.2.mem hg).2
        have hdepth := hstacked.1
        rw [show f.scope = g.scope from hscope] at hdepth
        omega
    · rcases List.mem_cons.1 hg with rfl | hg
      · rw [List.lookup_cons, beq_false_of_ne (hnew d hd hscope)]
        exact h.bound d hd f hmem hscope
      · exact h.bound d hd g (hframes ▸ List.mem_cons_of_mem _ hg) hscope
  · rintro d (rfl | hd) hd'
    · exact absurd hd' hout
    · refine ⟨List.cons_ne_nil _ _, ?_⟩
      rintro e (rfl | he) he'
      · exact absurd he' hout
      · exact (h.outermost d hd hd').2 e he he'
  · rintro d (rfl | hd) e (rfl | he) hname hscope
    · rfl
    · exact absurd hname.symm (hnew e he hscope.symm)
    · exact absurd hname (hnew d hd hscope)
    · exact h.unique d hd e he hname hscope

/-- The declaration that opens a frame. -/
lemma Holds.bind_outermost {name : String} {symbol : Symbol} (h : Holds s D)
    (hframes : s.frames = []) :
    Holds { s.push with frames := [⟨s.next, [(name, symbol)]⟩] }
      (insert ⟨name, .outermost, symbol⟩ D) := by
  have hnone : ∀ d ∈ D, d.scope ≠ .outermost := fun d hd hd' => (h.outermost d hd hd').1 hframes
  have hpush := h.push
  refine ⟨?_, ?_, ?_, ?_, ?_⟩
  · have hstacked := hpush.stacked
    simp only [Scopes.push, hframes] at hstacked ⊢
    exact hstacked
  · rintro d (rfl | hd)
    · exact .inl rfl
    · exact hpush.scope d hd
  · rintro d (rfl | hd) f hf hscope
    · obtain rfl := List.mem_singleton.1 hf
      simp [Scope.outermost, next] at hscope
    · obtain rfl := List.mem_singleton.1 hf
      exact absurd hscope (h.scope_ne_next hd)
  · rintro d (rfl | hd) hd'
    · refine ⟨List.cons_ne_nil _ _, ?_⟩
      rintro e (rfl | he) he'
      · rfl
      · exact absurd he' (hnone e he)
    · exact absurd hd' (hnone d hd)
  · rintro d (rfl | hd) e (rfl | he) hname hscope
    · rfl
    · exact absurd hscope.symm (hnone e he)
    · exact absurd hscope (hnone d hd)
    · exact h.unique d hd e he hname hscope

lemma Holds.declare {name : String} {symbol : Symbol} (h : Holds s D)
    (hb : s.bind name symbol = .ok s') : Holds s' (insert ⟨name, s.current, symbol⟩ D) := by
  rcases bind_cases hb with ⟨hframes, rfl⟩ | ⟨f, outer, hframes, hfree, rfl⟩
  · have hcurrent : s.current = .outermost := by rw [current, hframes]; rfl
    rw [hcurrent]
    exact h.bind_outermost hframes
  · have hcurrent : s.current = f.scope := by rw [current, hframes]; rfl
    rw [hcurrent]
    exact h.bind_frame hframes hfree

end Scopes

open Lowering Scopes

variable {s s' : Scopes} {D D' : Set Declaration}

/-- Scopes are closed that were opened. -/
lemma Naming.sameOuter (h : Naming s D s' D') : SameOuter s s' := by
  induction h with
  | refl => exact .refl _
  | declare hb => exact (bind_spec hb).2
  | nested _ ih =>
    intro hne
    obtain ⟨-, htail⟩ := ih (List.cons_ne_nil _ _)
    have hframes : Scopes.frames (pop _) = _ := htail
    rw [hframes]
    exact ⟨hne, rfl⟩
  | trans _ _ ih ih' => exact ih.trans ih'

/-- In an open scope nothing is recorded as declared outside. -/
lemma Naming.holds (h : Naming s D s' D') (hs : Holds s D) : Holds s' D' ∧
    (s.frames ≠ [] → ∀ d ∈ D', d.scope = .outermost → d ∈ D) := by
  induction h with
  | refl => exact ⟨hs, fun _ _ hd _ => hd⟩
  | @declare s s' D name symbol hb =>
    refine ⟨hs.declare hb, ?_⟩
    rintro hne d (rfl | hd) hout
    · obtain ⟨f, outer, hframes⟩ := List.exists_cons_of_ne_nil hne
      have hcurrent : s.current = f.scope := by rw [current, hframes]; rfl
      exact absurd (hcurrent.symm.trans hout)
        (hs.frame_ne_outermost (hframes ▸ List.mem_cons_self))
    · exact hd
  | @nested s s' D D' hinner ih =>
    obtain ⟨hs', hold⟩ := ih hs.push
    obtain ⟨-, htail⟩ := hinner.sameOuter (List.cons_ne_nil _ _)
    have hold' := hold (List.cons_ne_nil _ _)
    refine ⟨hs'.pop fun d hd hout => ?_, fun _ => hold'⟩
    rw [show s'.frames.tail = s.frames from htail]
    exact (hs.outermost d (hold' d hd hout) hout).1
  | trans hfirst _ ih ih' =>
    obtain ⟨ht, hold⟩ := ih hs
    obtain ⟨hs', hold'⟩ := ih' ht
    exact ⟨hs', fun hne d hd hout =>
      hold hne d (hold' (hfirst.sameOuter hne).1 d hd hout) hout⟩

/-! ### The declarations of a listing -/

namespace Listing

variable {l : Listing}

lemma declarations_congr {l l' : Listing} (hvars : l'.vars = l.vars)
    (harrays : l'.arrays = l.arrays) : l'.declarations = l.declarations := by
  unfold declarations
  rw [hvars, harrays]

/-- A temporary is not declared. -/
lemma declarations_temporary (ty : Ty) (marks : Marks) :
    { l with vars := (l.vars.temporary ty marks).1 }.declarations = l.declarations := by
  ext ⟨name, scope, symbol⟩
  cases symbol with
  | array a => rfl
  | var v =>
    change (∃ x, (l.vars.temporary ty marks).1.get? v = some x ∧ _) ↔ _
    rw [Variables.get?_temporary]
    by_cases hv : v = l.vars.size
    · subst hv
      simp [declarations, Variables.get?_size, Variable.name?]
    · rw [if_neg hv]
      rfl

lemma declarations_declare (name : String) (ty : Ty) (scope : Scope) (marks : Marks) :
    { l with vars := (l.vars.declare name ty scope marks).1 }.declarations =
      insert ⟨name, scope, .var l.vars.size⟩ l.declarations := by
  ext ⟨name', scope', symbol⟩
  cases symbol with
  | array a => simp [declarations]
  | var v =>
    rw [Set.mem_insert_iff]
    change (∃ x, (l.vars.declare name ty scope marks).1.get? v = some x ∧ _) ↔ _
    rw [Variables.get?_declare]
    by_cases hv : v = l.vars.size
    · subst hv
      simp [declarations, Variables.get?_size, Variable.name?, Variable.scope?, eq_comm]
    · simp [declarations, hv]

lemma declarations_declareArray (decl : ArrayDecl) :
    { l with arrays := (l.arrays.declare decl).1 }.declarations =
      insert ⟨decl.name, decl.scope, .array l.arrays.size⟩ l.declarations := by
  ext ⟨name', scope', symbol⟩
  cases symbol with
  | var v => simp [declarations]
  | array a =>
    rw [Set.mem_insert_iff]
    change (∃ x, (l.arrays.arrays.push decl)[a]? = some x ∧ _) ↔ _
    rw [Array.getElem?_push]
    by_cases ha : a = l.arrays.arrays.size
    · subst ha
      simp [declarations, Arrays.get?, Arrays.size, eq_comm]
    · simp [declarations, Arrays.get?, Arrays.size, ha]

end Listing

/-! ### Lowering -/

/-- What a step of lowering does to scopes and declarations. -/
def Lowering.Names (s s' : Lowering) : Prop :=
  Naming s.scopes s.listing.declarations s'.scopes s'.listing.declarations

namespace Lower

open Source Lowering

variable {s t s' : Lowering}

lemma names_of_eq (hscopes : s'.scopes = s.scopes) (hvars : s'.listing.vars = s.listing.vars)
    (harrays : s'.listing.arrays = s.listing.arrays) : Names s s' := by
  unfold Names
  rw [hscopes, Listing.declarations_congr hvars harrays]
  exact .refl

lemma emitted_names {action : Action} (h : Emitted s action s') : Names s s' :=
  names_of_eq h.scopes h.vars h.arrays

lemma freshLabel_names {label : LabelId} (h : s.freshLabel = (s', label)) : Names s s' := by
  obtain ⟨hscopes, hvars, harrays, -⟩ := freshLabel_eq h
  exact names_of_eq hscopes hvars harrays

/-- An expression declares nothing. -/
lemma computes_declarations (h : Computes s s') :
    s'.listing.declarations = s.listing.declarations := by
  induction h with
  | refl => rfl
  | tail _ hstep ih =>
    rw [← ih]
    cases hstep with
    | emit he =>
      have hemit := (emit_emitted he).1
      exact Listing.declarations_congr hemit.vars hemit.arrays
    | freshTemporary ty => exact Listing.declarations_temporary ty .none

lemma computes_names (h : Computes s s') : Names s s' := by
  unfold Names
  rw [h.unmoved.scopes, computes_declarations h]
  exact .refl

lemma freshVariable_declarations {name : String} {ty : Ty} {scope : Scope} {marks : Marks}
    {v : VarId} (h : s.freshVariable name ty scope marks = (s', v)) : s'.scopes = s.scopes ∧
      s'.listing.declarations = insert ⟨name, scope, .var v⟩ s.listing.declarations := by
  obtain ⟨rfl, rfl⟩ := Prod.mk.inj h
  exact ⟨rfl, Listing.declarations_declare name ty scope marks⟩

lemma freshArray_declarations {decl : ArrayDecl} {a : ArrayId}
    (h : s.freshArray decl = (s', a)) : s'.scopes = s.scopes ∧
      s'.listing.declarations =
        insert ⟨decl.name, decl.scope, .array a⟩ s.listing.declarations := by
  obtain ⟨rfl, rfl⟩ := Prod.mk.inj h
  exact ⟨rfl, Listing.declarations_declareArray decl⟩

/-- Between the record of a declaration and the binding of its name there is its initializer. -/
lemma bind_names {t t' : Lowering} {name : String} {symbol : Symbol} {scopes : Scopes}
    (ht : t.scopes = s.scopes ∧ t.listing.declarations =
      insert ⟨name, s.scopes.current, symbol⟩ s.listing.declarations)
    (htt' : Computes t t') (hb : t'.scopes.bind name symbol = .ok scopes) :
    Names s { t' with scopes } := by
  rw [htt'.unmoved.scopes, ht.1] at hb
  have hnaming : Naming s.scopes s.listing.declarations scopes _ := .declare hb
  rwa [← ht.2, ← computes_declarations htt'] at hnaming

lemma declare_names {ty : DeclTy} {name : String} {init : Option Expr} {u : Unit}
    (h : declare ty name init s = .ok (u, s')) : Names s s' := by
  obtain ⟨-, -, t, v, t', scopes, hv, hinit, hb, rfl⟩ := declare_ok h
  refine bind_names (freshVariable_declarations hv) ?_ hb
  cases init with
  | none => exact hinit ▸ .refl t
  | some e => exact initVariable_computes (freshVariable_reaches (k := 0) hv).2 hinit

lemma declareArray_names {ty : DeclTy} {name : String} {length : Nat} {u : Unit}
    (h : declareArray ty name length s = .ok (u, s')) : Names s s' := by
  obtain ⟨-, -, t, a, scopes, ha, hb, rfl⟩ := declareArray_ok h
  exact bind_names (freshArray_declarations ha) (.refl t) hb

lemma jumpToJoin_names {join : Option LabelId} (h : jumpToJoin s = .ok (join, s')) :
    Names s s' := by
  have h := jumpToJoin_ok h
  split at h
  · exact h.2 ▸ .refl
  · obtain ⟨t, label, id, ht, he, -⟩ := h
    exact (freshLabel_names ht).trans (emitted_names (emit_emitted he).1)

lemma jumpUnlessEnded_names {label : LabelId} {u : Unit}
    (h : jumpUnlessEnded label s = .ok (u, s')) : Names s s' := by
  have h := jumpUnlessEnded_ok h
  split at h
  · exact h ▸ .refl
  · obtain ⟨id, he⟩ := h
    exact emitted_names (emit_emitted he).1

lemma joinAt_names {join : Option LabelId} {u : Unit}
    (h : join.forM startAt s = .ok (u, s')) : Names s s' := by
  cases join with
  | none =>
    obtain ⟨-, rfl⟩ := pure_ok.1 h
    exact .refl
  | some label => exact emitted_names (startAt_emitted (startAt_ok.1 h)).1

lemma Branches.names {test : Expr} {label : LabelId} (h : Branches test label s s') :
    Names s s' := by
  obtain ⟨o, t, t', id, hc, hl, hj⟩ := h
  exact (computes_names (condition_computes hc).1).trans
    ((freshLabel_names hl).trans (emitted_names (emit_emitted hj).1))

mutual

lemma stmt_names (body : Stmt) {s s' : Lowering} {u : Unit} (h : stmt body s = .ok (u, s')) :
    Names s s' := by
  cases hr : s.unreachable with
  | true => exact stmt_unreachable h hr ▸ .refl
  | false =>
  match body with
  | .expr e =>
    obtain ⟨r, he⟩ := stmt_expr_ok hr h
    exact computes_names (expr_computes e (by simp) he).1
  | .compound body =>
    obtain ⟨t, hb, rfl⟩ := stmt_compound_ok hr h
    exact .nested (stmts_names body hb)
  | .ifThen test body =>
    obtain ⟨label, t, t', htest, hb, hs⟩ := stmt_ifThen_ok hr h
    exact htest.names.trans ((stmt_names body hb).trans (emitted_names (startAt_emitted hs).1))
  | .ifElse test onTrue onFalse =>
    obtain ⟨label, t, t₁, join, t₂, t₃, t₄, htest, ht, hjoin, hs, hf, hend⟩ :=
      stmt_ifElse_ok hr h
    have h₁ : Names s t₃ := htest.names.trans ((stmt_names onTrue ht).trans
      ((jumpToJoin_names hjoin).trans (emitted_names (startAt_emitted hs).1)))
    exact h₁.trans ((stmt_names onFalse hf).trans (joinAt_names hend))
  | .while test body =>
    obtain ⟨head, t₁, t₂, label, t₃, t₄, t₅, hh, hs, htest, hb, hback, hend⟩ :=
      stmt_while_ok hr h
    have h₁ : Names s t₃ := (freshLabel_names hh).trans
      ((emitted_names (startAt_emitted hs).1).trans htest.names)
    have h₂ : Names t₄ s' :=
      (jumpUnlessEnded_names hback).trans (emitted_names (startAt_emitted hend).1)
    exact h₁.trans ((stmt_names body hb).trans h₂)
  | .decl ty name init => exact declare_names (stmt_decl_ok hr h)
  | .array ty name length => exact declareArray_names (stmt_array_ok hr h)
  | .ret none =>
    obtain ⟨-, id, he⟩ := ret_ok (stmt_ret_ok hr h)
    exact emitted_names (emit_emitted he).1
  | .ret (some value) =>
    obtain ⟨r, t, he, h⟩ := stmt_retValue_ok hr h
    obtain ⟨-, id, hret⟩ := ret_ok h
    exact (computes_names (expr_computes value (by simp) he).1).trans
      (emitted_names (emit_emitted hret).1)

lemma stmts_names (body : List Stmt) {s s' : Lowering} {u : Unit}
    (h : stmts body s = .ok (u, s')) : Names s s' := by
  match body with
  | [] =>
    obtain ⟨-, rfl⟩ := pure_ok.1 h
    exact .refl
  | first :: rest =>
    obtain ⟨t, hf, hr⟩ := stmts_cons_ok h
    exact (stmt_names first hf).trans (stmts_names rest hr)

end

lemma params_names {ps : List Param} {s s' : Lowering} (h : Params ps s s') : Names s s' := by
  induction h with
  | nil => exact .refl
  | cons hp _ ih =>
    obtain ⟨-, t, v, scopes, id, hv, hb, he⟩ := param_ok hp
    exact (bind_names (freshVariable_declarations hv) (.refl t) hb).trans
      ((emitted_names (emit_emitted he).1).trans ih)

lemma functionEnd_names (h : FunctionEnd s s') : Names s s' := by
  unfold FunctionEnd at h
  split at h
  · exact h ▸ .refl
  · obtain ⟨id, he⟩ := h
    exact emitted_names (emit_emitted he).1

lemma declareFunction_names {p : Prototype} {define : Bool} {f : Signature}
    (h : s.declareFunction p define = .ok (s', f)) : Names s s' := by
  obtain ⟨functions, labels, -, rfl⟩ := declareFunction_eq h
  exact .refl

lemma item_names {i : Item} {u : Unit} (h : item i s = .ok (u, s')) : Names s s' := by
  cases i with
  | prototype p =>
    obtain ⟨f, hd⟩ := item_prototype_ok h
    exact declareFunction_names hd
  | function p body =>
    obtain ⟨f, t₁, t₂, t₃, t₄, t₅, hd, hs, hp, hb, he, rfl⟩ := function_ok h
    have h₂ := (declareFunction_names hd).trans (emitted_names (startAt_emitted hs).1)
    have hbody : Naming t₂.scopes.push t₂.listing.declarations t₅.scopes t₅.listing.declarations :=
      (params_names hp).trans ((stmt_names body hb).trans (functionEnd_names he))
    exact h₂.trans (.nested hbody)

lemma items_names {is : List Item} {u : Unit} {s s' : Lowering}
    (h : is.forM item s = .ok (u, s')) : Names s s' := by
  induction is generalizing s with
  | nil =>
    obtain ⟨-, rfl⟩ := pure_ok.1 h
    exact .refl
  | cons i rest ih =>
    obtain ⟨t, hi, hrest⟩ := forM_cons_ok.1 h
    exact (item_names hi).trans (ih hrest)

lemma program_names {p : Program} {u : Unit} (h : program p s = .ok (u, s')) : Names s s' := by
  cases p with
  | stmt body => exact stmt_names body h
  | items is => exact items_names h

end Lower

/-- No two declarations of a program share name and scope. -/
theorem Listing.declarations_unique {p : Source.Program} {l : Listing}
    (h : Listing.ofProgram p = .ok l) {d e : Declaration} (hd : d ∈ l.declarations)
    (he : e ∈ l.declarations) (hname : d.name = e.name) (hscope : d.scope = e.scope) : d = e := by
  obtain ⟨s, hs, rfl⟩ := Listing.ofProgram_ok h
  have hnone : Lowering.start.listing.declarations = ∅ := by
    ext ⟨name, scope, symbol⟩
    cases symbol <;> simp [declarations, Lowering.start, Listing.empty, Variables.empty,
      Variables.get?, Arrays.empty, Arrays.get?]
  have hstart : Holds Lowering.start.scopes Lowering.start.listing.declarations :=
    hnone ▸ holds_empty
  exact ((Lower.program_names hs).holds hstart).1.unique d hd e he hname hscope

end ThreeAddress
