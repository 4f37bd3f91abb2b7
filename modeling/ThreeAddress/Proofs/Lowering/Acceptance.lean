import ThreeAddress.Proofs.Lowering.Decisions

/-!
Lowering accepts exactly the valid programs.

Where a statement can be reached, lowering decides whether it is valid and what is declared after
it; where the text says that it cannot be, the statement is dropped. A function is left with the
declarations that it was entered with, and the function itself.
-/

namespace ThreeAddress

open Source

namespace Source

/-! ### The checks of a declaration in their order -/

variable {d : Declared}

lemma Expr.valueTy?_eq (e : Expr) : e.valueTy? d =
    (e.ty? d).bind fun t => (if t.isValue then some () else none).bind fun _ => some t := by
  unfold Expr.valueTy?
  cases e.ty? d with
  | none => rfl
  | some t => cases t <;> rfl

/-- An initializer has the type of what it initializes. -/
def checkInit (d : Declared) (ty : Ty) (init : Option Expr) : Option Unit :=
  init.elim (some ()) fun e => (e.ty? d).bind fun t => if ty = t then some () else none

lemma Declared.declare_eq (binding : Ty → Binding) (ty : DeclTy) (name : String) :
    d.declare binding ty name =
      (if ty.ty.isValue then some () else none).bind fun _ =>
        (if d.isFree name then some () else none).bind fun _ =>
          some (d.bind name (binding ty.ty)) := by
  unfold Declared.declare
  cases ty.ty.isValue <;> cases d.isFree name <;> rfl

lemma Stmt.after?_decl (ty : DeclTy) (name : String) (init : Option Expr) :
    (Stmt.decl ty name init).after? d =
      (if ty.ty.isValue then some () else none).bind fun _ =>
        (if d.isFree name then some () else none).bind fun _ =>
          (checkInit d ty.ty init).bind fun _ => some (d.bind name (.scalar ty.ty)) := by
  unfold checkInit
  cases init with
  | none => exact d.declare_eq _ ty name
  | some e =>
    rw [Stmt.after?, d.declare_eq]
    cases ty.ty.isValue <;> cases d.isFree name <;> simp
    cases e.ty? d with
    | none => rfl
    | some t => by_cases h : t = ty.ty <;> simp [h, eq_comm]

end Source

namespace Lower

open Lowering

variable {d : Declared} {s s' : Lowering}

/-! ### Declarations -/

lemma valueTy_decides (ty : DeclTy) (name : String) :
    Decides (valueTy ty name) s (if ty.ty.isValue then some () else none)
      fun r _ s' => s' = s ∧ r = ty.ty :=
  (expectValue_decides _ _).before fun _ _ _ _ hs => ⟨_, _, rfl, hs, rfl⟩

lemma condition_decides (h : Accords d s) (test : Expr) :
    Decides (condition test) s (test.valueTy? d) fun _ _ _ => True := by
  rw [test.valueTy?_eq]
  refine (expr_decides test h wanted_none).bind fun value ty t _ htyped => ?_
  obtain rfl := htyped.result
  exact (expectValue_decides _ _).bind fun _ _ _ _ _ => .pure trivial

lemma freshVariable_typeOf? {name : String} {ty : Ty} {scope : Scope} {marks : Marks} {v : VarId}
    (h : s.freshVariable name ty scope marks = (s', v)) :
    s'.listing.typeOf? (.var v) = some ty := by
  obtain ⟨rfl, rfl⟩ := Prod.mk.inj h
  have hget := s.listing.vars.get?_declare name ty scope marks s.listing.vars.size
  rw [if_pos rfl] at hget
  exact Option.map_eq_some_iff.2 ⟨_, hget, rfl⟩

lemma Accords.freshVariable (h : Accords d s) {name : String} {ty : Ty} {scope : Scope}
    {marks : Marks} {v : VarId} (hv : s.freshVariable name ty scope marks = (s', v)) :
    Accords d s' := by
  have hreach := (freshVariable_reaches (k := 0) hv).1
  have hnamed := named_freshVariable hv
  obtain ⟨c, hf⟩ := h.fits
  obtain ⟨rfl, rfl⟩ := Prod.mk.inj hv
  refine h.reaches hreach rfl ⟨{ c with vars := c.vars + 1 }, ?_, ?_, hf.arrays, ?_⟩
  · exact hf.binds.mono rfl rfl (Nat.le_succ _) ⟨[_], hnamed.symm⟩
  · rw [hnamed, List.length_append, hf.vars]
    rfl
  · exact hf.plain.declare _ _ _ _

lemma initVariable_decides (h : Accords d s) (name : String) {ty ty' : Ty} {v : VarId}
    (hv : s.listing.typeOf? (.var v) = some ty') (init : Expr) :
    Decides (initVariable name ty v init) s
      ((init.ty? d).bind fun t => if ty = t then some () else none) fun _ _ _ => True := by
  have hdest : Wanted (some v) s.listing := by
    intro w hw
    obtain rfl := Option.some.inj hw
    exact ⟨ty', hv⟩
  refine (expr_decides init h hdest).bind fun value t t₁ _ htyped => ?_
  obtain rfl := htyped.result
  refine (expect_decides _ _ _).before fun _ _ t₂ _ ht => ?_
  subst ht
  split
  · obtain ⟨ty, hty, -⟩ := htyped.operand
    obtain ⟨id, s', he⟩ := copy_succeeds hty (.var v)
    exact ⟨(), s', bind_ok.2 ⟨id, s', he, rfl⟩, trivial⟩
  · exact ⟨(), _, rfl, trivial⟩

lemma bindFree_decides (ha : Agrees s.listing s.scopes.frames d.scopes) {name : String}
    (hfree : d.isFree name = true) {symbol : Symbol} {b : Binding}
    (ht : Types s.listing symbol b) :
    Decides (bind name symbol) s (some (d.bind name b)) fun _ d' s' => Rescoped d d' s' := by
  have hbind := bindName_decides ha name ht
  rwa [if_pos hfree] at hbind

/-- A declaration is decided by what it does to the scopes; the rest holds of every run. -/
lemma Decides.rescoped {m : Lower Unit} {verdict : Option Declared} (h : Accords d s)
    (hm : Decides m s verdict fun _ d' s' => Rescoped d d' s')
    (hrun : ∀ u s', m s = .ok (u, s') → Reaches 0 s s' ∧ ∃ c, Fits c s') :
    Decides m s verdict fun _ d' s' => Accords d' s' := by
  refine hm.mono fun u d' s' hok hscopes => ?_
  obtain ⟨hreach, hfits⟩ := hrun u s' hok
  exact h.rescoped hreach.carries hreach.function hscopes hfits

lemma declare_decides (h : Accords d s) (hr : s.unreachable = false) (ty : DeclTy) (name : String)
    (init : Option Expr) : Decides (declare ty name init) s ((Stmt.decl ty name init).after? d)
      fun _ d' s' => Accords d' s' := by
  obtain ⟨c, hf⟩ := h.fits
  refine .rescoped h ?_ fun _ _ hok => ⟨declare_reaches hok, _, (declare_after hok hf hr).fits⟩
  rw [Stmt.after?_decl]
  refine (valueTy_decides ty name).bind fun _ _ t _ hpost => ?_
  obtain ⟨rfl, rfl⟩ := hpost
  refine (requireFree_decides h name).bind fun scope _ t' _ hpost => ?_
  obtain ⟨rfl, rfl, hfree⟩ := hpost
  obtain ⟨t, v, hv⟩ : ∃ t v, t'.freshVariable name ty.ty t'.scopes.current .none = (t, v) :=
    ⟨_, _, rfl⟩
  refine .after (always_ok.2 hv) ?_
  have hty := freshVariable_typeOf? hv
  have ht := h.freshVariable hv
  have hbind {t₁ : Lowering} (hc : Computes t t₁) :
      Decides (bind name (.var v)) t₁ (some (d.bind name (.scalar ty.ty)))
        fun _ d' s' => Rescoped d d' s' :=
    bindFree_decides (ht.computes hc).scopes hfree ((hc.reaches (k := 0)).typeOf? hty)
  cases init with
  | none => exact hbind (.refl t)
  | some e =>
    exact (initVariable_decides ht name hty e).bind fun _ _ t₁ hok _ =>
      hbind (initVariable_computes (typeOf?_var hty) hok)

lemma freshArray_typeOf? {decl : ArrayDecl} {a : ArrayId} (h : s.freshArray decl = (s', a)) :
    s'.listing.typeOf? (.array a) = some decl.element := by
  obtain ⟨rfl, rfl⟩ := Prod.mk.inj h
  simp [Listing.typeOf?, Arrays.get?, Arrays.size]

lemma declareArray_decides (h : Accords d s) (hr : s.unreachable = false) (ty : DeclTy)
    (name : String) (length : Nat) :
    Decides (declareArray ty name length) s (d.declare .array ty name)
      fun _ d' s' => Accords d' s' := by
  obtain ⟨c, hf⟩ := h.fits
  refine .rescoped h ?_ fun _ _ hok =>
    ⟨declareArray_reaches hok, _, (declareArray_after hok hf hr).fits⟩
  rw [d.declare_eq]
  refine (valueTy_decides ty name).bind fun _ _ t _ hpost => ?_
  obtain ⟨rfl, rfl⟩ := hpost
  refine (requireFree_decides h name).bind fun scope _ t' _ hpost => ?_
  obtain ⟨rfl, rfl, hfree⟩ := hpost
  have hfresh : Reaches 0 t' (t'.freshArray ⟨name, ty.ty, length, t'.scopes.current⟩).1 :=
    (Step.freshArray t' _).reaches
  refine .after (always_ok.2 rfl) ?_
  exact bindFree_decides (h.scopes.mono hfresh.typeOf?) hfree (freshArray_typeOf? rfl)

/-! ### Jumps -/

lemma Accords.startAt_succeeds (h : Accords d s) (label : LabelId)
    (hl : label < s.listing.labels.size) :
    ∃ s', Lower.startAt label s = .ok ((), s') ∧ Accords d s' ∧ s'.unreachable = false ∧
      s.listing.labels.size ≤ s'.listing.labels.size := by
  obtain ⟨s', hs⟩ := Lower.startAt_succeeds hl
  have hs' := startAt_ok.1 hs
  exact ⟨s', hs, h.startAt hs', (startAt_emitted hs').1.unreachable,
    (Step.startAt hs' (Nat.zero_le _)).grows.labels⟩

lemma Accords.emit_succeeds (h : Accords d s) (action : Action)
    (hty : ∃ ty, s.listing.actionTy action = .ok ty) (hscope : action.InScope s.listing)
    (hlabel : action.definedLabel = none) :
    ∃ id s', emit action s = .ok (id, s') ∧ Accords d s' ∧
      s'.unreachable = action.operator.endsPath ∧ s'.listing.labels = s.listing.labels := by
  obtain ⟨id, s', he⟩ := Lower.emit_succeeds action hty
  have he' := emit_ok.1 he
  obtain ⟨hemit, hlabels, -⟩ := emit_emitted he'
  exact ⟨id, s', he, h.emitted he' hscope hlabel, hemit.unreachable, hlabels⟩

lemma ret_decides (h : Accords d s) {value : Option Lowered}
    (hv : ∀ r ∈ value, r.operand.InScope s.listing) :
    Decides (ret value) s (if d.admits (value.elim .none Lowered.ty) then some d else none)
      fun _ d' s' => Accords d' s' := by
  have hscope : (Action.ret (value.map Lowered.operand)).InScope s.listing := by
    intro o ho
    obtain ⟨r, hr, rfl⟩ := Option.mem_map.1 ho
    exact hv r hr
  obtain ⟨id, s', he, h', -⟩ := h.emit_succeeds _ ⟨.none, rfl⟩ hscope rfl
  have hreturn : Decides (do let _ ← emit (.ret (value.map Lowered.operand)); pure ()) s (some d)
      fun _ d' s' => Accords d' s' := .after he (.pure h')
  refine .after (get_ok.2 ⟨rfl, rfl⟩) ?_
  unfold Declared.admits
  rw [← h.returns]
  cases s.function with
  | none => exact hreturn
  | some f =>
    simp only [Option.map_some, Option.all_some, beq_iff_eq]
    unfold expect
    split
    · exact .after (pure_ok.2 ⟨rfl, rfl⟩) hreturn
    · exact ⟨_, rfl⟩

lemma jumpUnlessEnded_succeeds (h : Accords d s) (label : LabelId) :
    ∃ s', jumpUnlessEnded label s = .ok ((), s') ∧ Accords d s' ∧
      s'.listing.labels = s.listing.labels := by
  unfold jumpUnlessEnded
  rw [bind_of_ok (get_ok.2 ⟨rfl, rfl⟩)]
  cases hr : s.unreachable with
  | true => exact ⟨s, rfl, h, rfl⟩
  | false =>
    obtain ⟨id, s', he, h', -, hlabels⟩ :=
      h.emit_succeeds (.jump label) ⟨.none, rfl⟩ trivial rfl
    exact ⟨s', bind_ok.2 ⟨id, s', he, rfl⟩, h', hlabels⟩

lemma freshLabel_size (s : Lowering) :
    s.freshLabel.1.listing.labels.size = s.listing.labels.size + 1 := by
  simp [Lowering.freshLabel, Labels.synthetic, Labels.push, Labels.size]

lemma jumpToJoin_succeeds (h : Accords d s) :
    ∃ join s', jumpToJoin s = .ok (join, s') ∧ Accords d s' ∧
      s.listing.labels.size ≤ s'.listing.labels.size ∧
      ∀ label ∈ join, label < s'.listing.labels.size := by
  unfold jumpToJoin
  rw [bind_of_ok (get_ok.2 ⟨rfl, rfl⟩)]
  cases hr : s.unreachable with
  | true => exact ⟨none, s, rfl, h, le_rfl, by simp⟩
  | false =>
    obtain ⟨id, s', he, h', -, hlabels⟩ :=
      h.freshLabel.emit_succeeds (.jump s.listing.labels.size) ⟨.none, rfl⟩ trivial rfl
    refine ⟨some s.listing.labels.size, s', ?_, h', ?_, ?_⟩
    · exact bind_ok.2 ⟨_, _, freshLabel_ok.2 rfl, bind_ok.2 ⟨id, s', he, rfl⟩⟩
    · rw [hlabels, freshLabel_size]
      exact Nat.le_succ _
    · intro label hl
      obtain rfl := Option.some.inj hl
      rw [hlabels, freshLabel_size]
      exact Nat.lt_succ_self _

lemma joinAt_succeeds (h : Accords d s) {join : Option LabelId}
    (hjoin : ∀ label ∈ join, label < s.listing.labels.size) :
    ∃ s', join.forM startAt s = .ok ((), s') ∧ Accords d s' := by
  cases join with
  | none => exact ⟨s, rfl, h⟩
  | some label =>
    obtain ⟨s', hs, h', -⟩ := h.startAt_succeeds label (hjoin label rfl)
    exact ⟨s', hs, h'⟩

/-- A condition is decided first; both paths go on with the same declarations. -/
lemma branch_decides {γ δ : Type} {f : LabelId → Lower γ} {verdict : Option δ}
    {R : γ → δ → Lowering → Prop} (h : Accords d s) (test : Expr)
    (hf : ∀ label t, Accords d t → t.unreachable = false → label < t.listing.labels.size →
      Decides (f label) t verdict R) :
    Decides (do
        let cond ← condition test
        let label ← freshLabel
        let _ ← emit (.jumpFalse cond label)
        f label) s ((test.valueTy? d).bind fun _ => verdict) R := by
  refine (condition_decides h test).bind fun o _ t hok _ => ?_
  obtain ⟨hst, ho⟩ := condition_computes hok
  obtain ⟨id, t', he, h', hr', hlabels⟩ := (h.computes hst).freshLabel.emit_succeeds
    (.jumpFalse o t.listing.labels.size) ⟨.none, rfl⟩
    ((Step.freshLabel (k := 0) t).grows.inScope ho) rfl
  refine .after (freshLabel_ok.2 rfl) (.after he (hf _ t' h' hr' ?_))
  rw [hlabels, freshLabel_size]
  exact Nat.lt_succ_self _

/-! ### Statements -/

lemma whenReached_skipped {step : Lower Unit} (h : s.unreachable = true) :
    whenReached step s = .ok ((), s) := by
  unfold whenReached
  rw [bind_of_ok (get_ok.2 ⟨rfl, rfl⟩), h]
  rfl

lemma stmt_skipped (body : Stmt) (h : s.unreachable = true) : stmt body s = .ok ((), s) := by
  cases body with
  | ret value => cases value <;> exact whenReached_skipped h
  | _ => exact whenReached_skipped h

lemma stmts_skipped (body : List Stmt) (h : s.unreachable = true) :
    stmts body s = .ok ((), s) := by
  induction body with
  | nil => rfl
  | cons first rest ih => exact bind_ok.2 ⟨(), s, stmt_skipped first h, ih⟩

lemma Decides.whenReached {verdict : Option Declared} {Q : Unit → Declared → Lowering → Prop}
    {step : Lower Unit} (hr : s.unreachable = false) (h : Decides step s verdict Q) :
    Decides (whenReached step) s verdict Q := by
  unfold Decides at h ⊢
  rwa [whenReached_eq hr]

lemma stmt_labels {body : Stmt} {u : Unit} (h : stmt body s = .ok (u, s')) :
    s.listing.labels.size ≤ s'.listing.labels.size :=
  (stmt_reaches (k := 0) body (Nat.zero_le _) h).grows.labels

lemma Accords.push (h : Accords d s) : Accords d.enter { s with scopes := s.scopes.push } := by
  obtain ⟨c, hf⟩ := h.fits
  exact ⟨h.scopes.push _, h.functions, h.labels, h.returns, c,
    ⟨hf.binds.mono rfl (bindings_push _) le_rfl List.prefix_rfl, hf.vars, hf.arrays, hf.plain⟩⟩

mutual

/-- Lowering a statement that control reaches decides what is declared after it. -/
theorem stmt_decides (body : Stmt) {d : Declared} {s : Lowering} (h : Accords d s)
    (hr : s.unreachable = false) :
    Decides (stmt body) s (body.after? d) fun _ d' s' => Accords d' s' := by
  match body with
  | .expr e =>
    refine .whenReached hr ?_
    rw [Stmt.after?, Option.map_eq_bind]
    refine (expr_decides e h wanted_none).bind fun _ _ t hok _ => .pure ?_
    exact h.computes (expr_computes e (by simp) hok).1
  | .compound body =>
    obtain ⟨c, hf⟩ := h.fits
    suffices hbody : Decides (stmt (.compound body)) s ((Stmt.compound body).after? d)
        fun _ d' s' => d' = d ∧ s'.scopes.frames = s.scopes.frames by
      refine hbody.mono fun _ d' s' hok hpost => ?_
      obtain ⟨rfl, hframes⟩ := hpost
      exact h.reaches (stmt_reaches (k := 0) _ (Nat.zero_le _) hok) hframes
        ⟨_, (stmt_after _ hok hf hr).fits⟩
    refine .whenReached hr (.after (a := ()) (modify_ok.2 rfl) ?_)
    rw [Stmt.after?, Option.map_eq_bind]
    refine (stmts_decides body h.push hr).bind fun _ d' t hok _ => ?_
    -- Only the frame that was opened has changed, and it is dropped.
    obtain ⟨c', hf'⟩ := h.push.fits
    have houter := (stmts_after body hok hf' hr).outer (by simp [Scopes.push])
    exact .ok (a := ()) (modify_ok.2 rfl) ⟨rfl, houter.2⟩
  | .ifThen test body =>
    refine .whenReached hr ?_
    refine branch_decides h test fun label t ht hrt hlabel => ?_
    refine (stmt_decides body ht hrt).before fun _ d' t' hok ht' => ?_
    obtain ⟨s', hs, h', -⟩ := ht'.startAt_succeeds label (hlabel.trans_le (stmt_labels hok))
    exact ⟨(), s', hs, h'⟩
  | .ifElse test onTrue onFalse =>
    refine .whenReached hr ?_
    refine branch_decides h test fun label t ht hrt hlabel => ?_
    refine (stmt_decides onTrue ht hrt).bind fun _ d₁ t₁ hok h₁ => ?_
    obtain ⟨join, t₂, hjoin, h₂, hle, hlt⟩ := jumpToJoin_succeeds h₁
    obtain ⟨t₃, hs, h₃, hr₃, hle'⟩ :=
      h₂.startAt_succeeds label ((hlabel.trans_le (stmt_labels hok)).trans_le hle)
    refine .after hjoin (.after hs ?_)
    refine (stmt_decides onFalse h₃ hr₃).before fun _ d' t₄ hok' h₄ => ?_
    obtain ⟨s', hend, h'⟩ := joinAt_succeeds h₄ fun label hl =>
      (hlt label hl).trans_le (hle'.trans (stmt_labels hok'))
    exact ⟨(), s', hend, h'⟩
  | .while test body =>
    refine .whenReached hr (.after (freshLabel_ok.2 rfl) ?_)
    have hhead : s.listing.labels.size < s.freshLabel.1.listing.labels.size := by
      rw [freshLabel_size]
      exact Nat.lt_succ_self _
    obtain ⟨t₁, hs, h₁, -⟩ := h.freshLabel.startAt_succeeds _ hhead
    refine .after hs (branch_decides h₁ test fun label t ht hrt hlabel => ?_)
    refine (stmt_decides body ht hrt).before fun _ d' t₂ hok h₂ => ?_
    obtain ⟨t₃, hback, h₃, hlabels⟩ := jumpUnlessEnded_succeeds h₂ s.listing.labels.size
    obtain ⟨s', hend, h', -⟩ :=
      h₃.startAt_succeeds label (by rw [hlabels]; exact hlabel.trans_le (stmt_labels hok))
    exact ⟨(), s', bind_ok.2 ⟨(), t₃, hback, hend⟩, h'⟩
  | .decl ty name init => exact .whenReached hr (declare_decides h hr ty name init)
  | .array ty name length =>
    rw [Stmt.after?]
    exact .whenReached hr (declareArray_decides h hr ty name length)
  | .ret none =>
    rw [Stmt.after?]
    exact .whenReached hr (ret_decides h (by simp))
  | .ret (some value) =>
    refine .whenReached hr ?_
    rw [Stmt.after?]
    refine (expr_decides value h wanted_none).bind fun r ty t hok htyped => ?_
    obtain ⟨hst, hscope⟩ := expr_computes value (by simp) hok
    obtain rfl := htyped.result
    exact ret_decides (h.computes hst) (by simpa using hscope)

theorem stmts_decides (body : List Stmt) {d : Declared} {s : Lowering} (h : Accords d s)
    (hr : s.unreachable = false) :
    Decides (stmts body) s (afterAll? d body) fun _ d' s' => Accords d' s' := by
  match body with
  | [] => exact .pure h
  | first :: rest =>
    rw [stmts, afterAll?]
    refine (stmt_decides first h hr).bind fun _ d' t hok ht => ?_
    obtain ⟨c, hf⟩ := h.fits
    have hends := (stmt_after first hok hf hr).unreachable
    -- The flag of the state is what the text says of the statement.
    cases hfirst : first.ends with
    | true => exact .ok (stmts_skipped rest (hends.trans hfirst)) ht
    | false => exact stmts_decides rest ht (hends.trans hfirst)

end

/-! ### Functions and programs -/

lemma param_decides (h : Accords d s) (p : Param) :
    Decides (param p) s (d.declare .scalar p.ty p.name) fun _ d' s' => Accords d' s' := by
  obtain ⟨c, hf⟩ := h.fits
  refine .rescoped h ?_ fun _ s' hok =>
    ⟨params_reaches (.cons hok (.nil s')), _, (param_after hok hf).fits⟩
  rw [d.declare_eq]
  refine (valueTy_decides p.ty p.name).bind fun _ _ t _ hpost => ?_
  obtain ⟨rfl, rfl⟩ := hpost
  obtain ⟨t', v, hv⟩ : ∃ t' v,
      t.freshVariable p.name p.ty.ty t.scopes.current .ofParameter = (t', v) := ⟨_, _, rfl⟩
  refine .after (always_ok.2 hv) ?_
  have hty : Types t'.listing (.var v) (.scalar p.ty.ty) := freshVariable_typeOf? hv
  refine (bindName_decides (h.freshVariable hv).scopes p.name hty).before
    fun _ d' t₁ hok hpost => ?_
  obtain ⟨scopes, -, rfl⟩ := bindName_ok.1 hok
  obtain ⟨id, s', he⟩ := emit_succeeds (s := { t' with scopes }) (.param v)
    ⟨p.ty.ty, typeOf_eq hty⟩
  have hreach := emit_reaches (k := 0) (emit_ok.1 he) (typeOf?_var hty) rfl
  refine ⟨(), s', bind_ok.2 ⟨id, s', he, rfl⟩, ?_, hpost.functions, hpost.returns⟩
  rw [(emit_emitted (emit_ok.1 he)).1.scopes]
  exact hpost.scopes.mono hreach.typeOf?

lemma params_decide (ps : List Param) {d : Declared} {s : Lowering} (h : Accords d s) :
    Decides (ps.forM param) s (d.declareParams ps) fun _ d' s' => Accords d' s' := by
  induction ps generalizing d s with
  | nil => exact .pure h
  | cons p rest ih =>
    rw [Declared.declareParams, List.forM_eq_forM, List.forM_cons]
    exact (param_decides h p).bind fun _ d' t _ ht => ih ht

lemma Accords.addFunction (h : Accords d s) {name : String} {functions : Functions}
    {labels : Labels} {f : Signature}
    (hget : ∀ other, functions.get? other =
      if other = name then some f else s.listing.functions.get? other)
    (hsize : s.listing.labels.size ≤ labels.size) (hlabel : f.label < labels.size) :
    Accords (d.addFunction name f.interface)
      { s with listing := { s.listing with functions, labels } } := by
  obtain ⟨c, hf⟩ := h.fits
  refine ⟨h.scopes.mono fun {o ty} ho => ?_, fun other => ?_, fun {other g} hg => ?_, h.returns, c,
    hf.of_eq rfl rfl rfl⟩
  · cases o <;> exact ho
  · change (functions.get? other).map _ = if other = name then _ else _
    rw [hget]
    split
    · rfl
    · exact h.functions other
  · rw [show _ = _ from hget other] at hg
    split at hg
    · obtain rfl := Option.some.inj hg
      exact hlabel
    · exact (h.labels hg).trans_le hsize

lemma declareFunction_succeeds (h : Accords d s) {p : Prototype} {define : Bool}
    {functions : Functions} {labels : Labels} {f : Signature}
    (hd : s.listing.functions.declare s.listing.labels p.name p.returns.ty
      (p.params.map (·.ty.ty)) define = .ok (functions, labels, f))
    (hget : ∀ other, functions.get? other =
      if other = p.name then some f else s.listing.functions.get? other)
    (hsize : s.listing.labels.size ≤ labels.size) (hlabel : f.label < labels.size) :
    Decides (declareFunction p define) s (some (d.addFunction p.name f.interface))
      fun f d' s' => Accords d' s' ∧ d'.returns = d.returns ∧
        f.label < s'.listing.labels.size := by
  refine .ok (a := f) (checked_ok.2 ?_) ⟨h.addFunction hget hsize hlabel, rfl, hlabel⟩
  unfold Lowering.declareFunction
  rw [hd]
  rfl

lemma declareFunction_decides (h : Accords d s) (p : Prototype) (define : Bool) :
    Decides (declareFunction p define) s (d.declareFunction p define)
      fun f d' s' => Accords d' s' ∧ d'.returns = d.returns ∧
        f.label < s'.listing.labels.size := by
  unfold Declared.declareFunction
  rw [← h.functions p.name]
  cases hold : s.listing.functions.get? p.name with
  | none =>
    have hlt : s.listing.labels.size < (s.listing.labels.push (.function p.name)).size := by
      simp [Labels.push, Labels.size]
    exact declareFunction_succeeds h (Functions.declare_new hold _ _ _ _)
      (Functions.get?_append hold · _) hlt.le hlt
  | some old =>
    have hagain := Functions.declare_again hold s.listing.labels p.returns.ty (p.params.map (·.ty.ty)) define
    change Decides _ s (if old.returns = p.returns.ty ∧ old.params = p.params.map (·.ty.ty) ∧
      ¬(define ∧ old.defined) then
        some (d.addFunction p.name
          ⟨p.returns.ty, p.params.map (·.ty.ty), old.defined || define⟩) else none) _
    split
    · rename_i hsame
      rw [if_pos hsame] at hagain
      rw [← hsame.1, ← hsame.2.1]
      have hlabel : old.label < s.listing.labels.size := h.labels hold
      refine declareFunction_succeeds h hagain (fun other => ?_) le_rfl hlabel
      rw [Functions.get?_update, hold]
      rfl
    · rename_i hdiffers
      rw [if_neg hdiffers] at hagain
      refine ⟨.duplicateDeclaration p.name .outermost, checked_error ?_⟩
      unfold Lowering.declareFunction
      rw [hagain]
      rfl

/-- A function can always be left. -/
lemma functionEnd_succeeds (t : Lowering) : ∃ t', FunctionEnd t t' ∧ (do
    if !(← get).unreachable then
      let _ ← emit (.ret none)
    modify fun s => { s with function := none }
    popScope : Lower Unit) t = .ok ((), { t' with function := none, scopes := t'.scopes.pop }) := by
  unfold FunctionEnd
  rw [bind_of_ok (get_ok.2 ⟨rfl, rfl⟩)]
  cases hr : t.unreachable with
  | true => exact ⟨t, rfl, rfl⟩
  | false =>
    obtain ⟨id, t', he⟩ := emit_succeeds (s := t) (.ret none) ⟨.none, rfl⟩
    exact ⟨t', ⟨id, emit_ok.1 he⟩, (bind_of_ok he).trans rfl⟩

/-- What is left of a function is the function itself. -/
lemma function_decides (h : Accords d s) (hd : d.returns = none) (p : Prototype) (body : Stmt) :
    Decides (function p body) s ((Item.function p body).after? d)
      fun _ d' s' => Accords d' s' ∧ d'.returns = none := by
  obtain ⟨c, hf⟩ := h.fits
  -- That names follow the text is known of the whole run only.
  suffices hbody : Decides (function p body) s ((Item.function p body).after? d)
      fun _ d' s' => (∃ c, Fits c s') → Accords d' s' ∧ d'.returns = none from
    hbody.mono fun _ d' s' hok hpost => hpost ⟨_, item_fits (i := .function p body) hok hf⟩
  refine (declareFunction_decides h p true).bind fun f d₁ t₁ _ hpost => ?_
  obtain ⟨h₁, hreturns, hlabel⟩ := hpost
  obtain ⟨t₂, hs, h₂, hr₂, -⟩ := h₁.startAt_succeeds f.label hlabel
  refine .after hs (.after (a := ()) (modify_ok.2 rfl) ?_)
  refine (params_decide p.params h₂.push).bind fun _ inner t₃ hok₃ h₃ => ?_
  have hps := params_of_forM hok₃
  obtain ⟨c₂, hf₂⟩ := h₂.push.fits
  have hafter₃ := params_after hps hf₂ hr₂
  have h₃' : Accords { inner with returns := some p.returns.ty }
      { t₃ with function := some ⟨p.name, p.returns.ty⟩ } :=
    ⟨h₃.scopes, h₃.functions, h₃.labels, rfl, _, hafter₃.fits.of_eq rfl rfl rfl⟩
  refine .after (a := ()) (modify_ok.2 rfl) ?_
  rw [Option.map_eq_bind]
  refine (stmt_decides body h₃' hafter₃.unreachable).bind fun _ d₄ t₄ hok₄ h₄ => ?_
  have hafter₄ := stmt_after body hok₄ (hafter₃.fits.of_eq rfl rfl rfl) hafter₃.unreachable
  obtain ⟨t₅, hend, hleave⟩ := functionEnd_succeeds t₄
  obtain ⟨-, htail⟩ := (hafter₃.outer.trans (hafter₄.outer.trans
    (functionEnd_after hend hafter₄.fits).2)) (by simp [Scopes.push])
  have hcarries : Carries t₂.listing t₅.listing :=
    (params_reaches (k := 0) hps).carries.trans <|
      (stmt_reaches (k := 0) body (Nat.zero_le _) hok₄).carries.trans
        (functionEnd_reaches (k := 0) hend).carries
  have hreturns₂ : t₂.function = none := by
    rw [← Option.map_eq_none_iff (f := (·.returns)), h₂.returns, hreturns, hd]
  have hscopes : Agrees t₅.listing t₅.scopes.frames.tail d₁.scopes := by
    rw [htail]
    exact h₂.scopes.mono hcarries.types
  exact .ok hleave fun hfits =>
    ⟨h₂.rescoped hcarries hreturns₂.symm ⟨hscopes, rfl, rfl⟩ hfits, hreturns.trans hd⟩

lemma item_decides (h : Accords d s) (hd : d.returns = none) (i : Item) :
    Decides (item i) s (i.after? d) fun _ d' s' => Accords d' s' ∧ d'.returns = none := by
  cases i with
  | prototype p =>
    refine (declareFunction_decides h p false).before fun _ d' t _ hpost => ?_
    exact ⟨(), t, rfl, hpost.1, hpost.2.1.trans hd⟩
  | function p body => exact function_decides h hd p body

lemma items_decide (is : List Item) {d : Declared} {s : Lowering} (h : Accords d s)
    (hd : d.returns = none) :
    Decides (is.forM item) s (Item.afterAll? d is) fun _ _ _ => True := by
  induction is generalizing d s with
  | nil => exact .pure trivial
  | cons i rest ih =>
    rw [Item.afterAll?, List.forM_eq_forM, List.forM_cons]
    exact (item_decides h hd i).bind fun _ d' t _ hpost => ih hpost.1 hpost.2

lemma accords_start : Accords .start .start :=
  ⟨.inr ⟨[], rfl, .nil⟩, fun _ => rfl, (fun h => nomatch h), rfl, _, fits_start⟩

lemma program_decides (p : Program) :
    Decides (program p) .start p.after? fun _ _ _ => True := by
  cases p with
  | stmt body => exact (stmt_decides body accords_start rfl).mono fun _ _ _ _ _ => trivial
  | items is => exact items_decide is accords_start rfl

end Lower

/-- **Acceptance is validity.** A program is accepted exactly if it is valid, and refused with a
diagnostic otherwise. -/
theorem Listing.ofProgram_accepts (p : Program) :
    ((∃ l, Listing.ofProgram p = .ok l) ↔ p.Valid) ∧
      ((∃ d, Listing.ofProgram p = .error (.refused d)) ↔ ¬p.Valid) := by
  have hdecides := Lower.program_decides p
  unfold Program.Valid Lower.Decides at *
  cases hafter : p.after? with
  | none =>
    rw [hafter] at hdecides
    obtain ⟨d, hd⟩ := hdecides
    have hrefused : Listing.ofProgram p = .error (.refused d) := by
      unfold Listing.ofProgram StateT.run
      rw [hd]
      rfl
    simp [hrefused]
  | some d =>
    rw [hafter] at hdecides
    obtain ⟨u, s, hs, -⟩ := hdecides
    have haccepted : Listing.ofProgram p = .ok s.listing := by
      unfold Listing.ofProgram StateT.run
      rw [hs]
      rfl
    simp [haccepted]

example : (Program.stmt (.compound [.ret none, .expr (.var "x")])).Valid := by decide

example : ¬(Program.stmt (.compound [.expr (.var "x"), .ret none])).Valid := by decide

end ThreeAddress
