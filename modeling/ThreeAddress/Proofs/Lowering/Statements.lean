import ThreeAddress.Proofs.Lowering.Expressions

/-!
The code of a statement follows its execution. A label has its place once the statement is
lowered that made it, and keeps it; so a jump that was emitted before its label was placed
goes where the label is in the end. Each turn of a loop passes the label at its head, so a
loop that is cut off after `n` turns belongs to a run of `n` steps or more.
-/

namespace ThreeAddress.Lower

open Machine Structured Lowering Source

variable {W : Type}

/-! ### Places of labels -/

/-- The label is placed at a position. -/
def Placed (s : Lowering) (label : LabelId) (site : InstrId) : Prop :=
  ∃ info, s.listing.labels.get? label = some info ∧ info.site = some site

def Unplaced (s : Lowering) (label : LabelId) : Prop := ∀ site, ¬Placed s label site

/-- The labels that are placed stay where they are. -/
def Settled (l : Listing) (s : Lowering) : Prop :=
  ∀ ⦃label site⦄, Placed s label site → position l label = site

section

variable {l : Listing} {s t s' : Lowering} {label : LabelId}

lemma placed_congr (h : s'.listing.labels.get? label = s.listing.labels.get? label)
    (site : InstrId) : Placed s' label site ↔ Placed s label site := by
  unfold Placed
  rw [h]

lemma Placed.lt {site : InstrId} (h : Placed s label site) : label < s.listing.labels.size := by
  obtain ⟨info, hinfo, -⟩ := h
  exact (Array.getElem?_eq_some_iff.1 hinfo).1

/-- What is lowered next leaves a label at its place. -/
lemma Placed.reaches {site : InstrId} (hp : Placed s label site)
    (hs : Reaches s.listing.labels.size s s') : Placed s' label site :=
  (placed_congr (hs.label_eq hp.lt le_rfl) site).2 hp

lemma Settled.back (h : Settled l s') (hs : Reaches s.listing.labels.size s s') :
    Settled l s :=
  fun _ _ hp => h (hp.reaches hs)

lemma Settled.back_startAt (h : Settled l s') (hs : s.startAt label = .ok s')
    (hu : Unplaced s label) : Settled l s := by
  intro other site hp
  have hne : other ≠ label := by
    rintro rfl
    exact hu site hp
  exact h ((placed_congr ((startAt_emitted hs).2.2 other hne) site).2 hp)

lemma startAt_placed (hs : s.startAt label = .ok s') :
    Placed s' label s.listing.arena.size :=
  (startAt_emitted hs).2.1

lemma unplaced_freshLabel (h : s.freshLabel = (s', label)) :
    Unplaced s' label ∧ label < s'.listing.labels.size := by
  have hs : s' = s.freshLabel.1 := by rw [h]
  have hl : label = s.listing.labels.size := (freshLabel_reaches (k := 0) h).2
  subst hs hl
  refine ⟨?_, by simp [Lowering.freshLabel, Labels.synthetic, Labels.push, Labels.size]⟩
  rintro site ⟨info, hinfo, hsite⟩
  simp only [Lowering.freshLabel, Labels.synthetic, Labels.push, Labels.get?, Labels.size,
    Array.getElem?_push, if_true, Option.some.injEq] at hinfo
  subst hinfo
  simp at hsite

lemma Unplaced.reaches {k : Nat} (h : Unplaced s label) (hs : Reaches k s s') (hlt : label < k)
    (hk : k ≤ s.listing.labels.size) : Unplaced s' label :=
  fun site hp => h site ((placed_congr (hs.label_eq hlt hk) site).1 hp)

lemma Unplaced.emit {action : Action} {id : InstrId} (h : Unplaced s label)
    (he : s.emit action = .ok (s', id)) : Unplaced s' label :=
  fun site hp => h site ((placed_congr (by rw [(emit_emitted he).2.1]) site).1 hp)

lemma Unplaced.startAt {other : LabelId} (h : Unplaced s label) (hs : s.startAt other = .ok s')
    (hne : label ≠ other) : Unplaced s' label :=
  fun site hp => h site ((placed_congr ((startAt_emitted hs).2.2 label hne) site).1 hp)

end

/-! ### Jumps -/

/-- The run has come to the end of the code of a statement, and the code has an end. -/
structure Done (l : Listing) (s' : Lowering) (m' : Store W) (c' : Config W) : Prop where
  reached : s'.unreachable = false
  pc : c'.pc = s'.listing.arena.size
  related : Related l none m' c'

section

variable {l : Listing} {env : Environment W} {returns : String → Ty} {turns : Nat}
  {ctx : Context} {s t s' : Lowering} {label : LabelId} {m : Store W} {c c' : Config W}

/-- A step that only moves control keeps run and execution related. -/
lemma Related.moved {hole : Option Nat} (hr : Related l hole m c) (hrun : c'.running = true)
    (hdata : c'.data = c.data) (htrace : c'.trace = c.trace) : Related l hole m c' :=
  ⟨hrun, by rw [hdata]; exact hr.vars, by rw [hdata]; exact hr.arrays,
    by rw [hdata]; exact hr.world, by rw [hdata]; exact hr.pushed, htrace.trans hr.trace⟩

/-- Control passes a label. -/
lemma label_leads (env : Environment W) (hs : s.startAt label = .ok s') (hw : Within l s')
    (hpc : c.pc = s.listing.arena.size) (hr : Related l none m c) :
    ∃ c', Leads l env 1 c c' ∧ Done l s' m c' := by
  have he := (startAt_emitted hs).1
  obtain ⟨c', hlead, hpc', hrun, hdata, htrace⟩ := he.fall hw env hpc hr.running rfl
  exact ⟨c', hlead, he.unreachable, hpc',
    hr.moved hrun hdata (htrace.trans (List.append_nil _))⟩

lemma jump_leads (env : Environment W) {id : InstrId} (he : s.emit (.jump label) = .ok (s', id))
    (hw : Within l s') (hpc : c.pc = s.listing.arena.size) (hr : Related l none m c) :
    ∃ c', Leads l env 0 c c' ∧ c'.pc = position l label ∧ Related l none m c' := by
  obtain ⟨c', hlead, hpc', hrun, hdata, htrace⟩ :=
    (emit_emitted he).1.goto hw env hpc hr.running rfl
  exact ⟨c', hlead.mono (Nat.zero_le _), hpc',
    hr.moved hrun hdata (htrace.trans (List.append_nil _))⟩

lemma unplaced_emit {t' : Lowering} {action : Action} {id : InstrId}
    (hlabel : t.freshLabel = (t', label)) (he : t'.emit action = .ok (s', id)) :
    Unplaced s' label ∧ label < s'.listing.labels.size := by
  obtain ⟨hu, hlt⟩ := unplaced_freshLabel hlabel
  exact ⟨hu.emit he, by rw [(emit_emitted he).2.1]; exact hlt⟩

lemma startAt_kept (hs : s.startAt label = .ok s') : Kept s s' :=
  (Step.startAt (k := 0) hs (Nat.zero_le _)).kept

lemma Branches.unplaced {test : Expr} (h : Branches test label s s') :
    Unplaced s' label ∧ label < s'.listing.labels.size := by
  obtain ⟨o, t, t', id, -, hlabel, hj⟩ := h
  exact unplaced_emit hlabel hj

/-- The code of a condition and its jump. -/
lemma branch_follows {test : Expr} (h : Branches test label s s') (hw : Within l s')
    (hf : Fits ctx s) (hcall : Callable l returns s.listing.functions)
    (hpc : c.pc = s.listing.arena.size) (hr : Related l none m c) :
    Follows l env turns c
      (fun holds m' c' => Related l none m' c' ∧
        c'.pc = if holds then s'.listing.arena.size else position l label)
      (result (holds env returns ctx test) m) := by
  obtain ⟨o, t, t', id, hcond, hlabel, hj⟩ := h
  obtain ⟨ty, hcond, -⟩ := condition_ok hcond
  have hready : Ready l returns ctx none s := ⟨hf.binds, hf.plain, hcall, by simp⟩
  have hwt := (hw.back (emit_kept hj)).back (freshLabel_reaches (k := 0) hlabel).1.kept
  unfold holds
  refine (expr_follows test hcond hwt hready (reserved_none l none s) hpc hr).bind ?_
  intro D m' c' hev
  rw [result_get_bind, ← hev.denotes.read hev.related (by simp)]
  have hpc' : c'.pc = t'.listing.arena.size := by
    rw [hev.pc, show t' = t.freshLabel.1 by rw [hlabel]]
    rfl
  cases hz : (c'.data.read l o).isZero with
  | true =>
    have hperform : perform l env c'.data (.jumpFalse o label) =
        ⟨c'.data, [.branch false], .goto label⟩ := if_pos hz
    obtain ⟨c₂, hlead, hpc₂, hrun, hdata, htrace⟩ :=
      (emit_emitted hj).1.goto hw env hpc' hev.related.running (by rw [hperform])
    rw [hperform] at hdata htrace
    exact ⟨c₂, hlead.mono (Nat.zero_le _),
      hev.related.moved hrun hdata (htrace.trans (List.append_nil _)), hpc₂⟩
  | false =>
    have hperform : perform l env c'.data (.jumpFalse o label) =
        ⟨c'.data, [.branch true], .fall⟩ := if_neg (by simp [hz])
    obtain ⟨c₂, hlead, hpc₂, hrun, hdata, htrace⟩ :=
      (emit_emitted hj).1.fall hw env hpc' hev.related.running (by rw [hperform])
    rw [hperform] at hdata htrace
    exact ⟨c₂, hlead.mono (Nat.zero_le _),
      hev.related.moved hrun hdata (htrace.trans (List.append_nil _)), hpc₂⟩

/-- A loop between the positions `head` and `exit` whose body starts at `first`. -/
lemma loop_follows {test : Exec W Bool} {body : Exec W Unit} {fuel n : Nat}
    (head first exit : Nat)
    (htest : ∀ {m : Store W} {c : Config W}, c.pc = head → Related l none m c →
      ∃ c', Leads l env 1 c c' ∧
        Follows l env fuel c'
          (fun holds m' c' => Related l none m' c' ∧ c'.pc = if holds then first else exit)
          (result test m))
    (hbody : ∀ {m : Store W} {c : Config W}, c.pc = first → Related l none m c →
      Follows l env fuel c (fun _ m' c' => Related l none m' c' ∧ c'.pc = head) (result body m))
    (hn : n ≤ fuel) (hpc : c.pc = head) (hr : Related l none m c) :
    Follows l env n c (fun _ m' c' => Related l none m' c' ∧ c'.pc = exit)
      (result (loop test body n) m) := by
  induction n generalizing m c with
  | zero => exact ⟨c, .refl l env c, hr.running, hr.trace⟩
  | succ n ih =>
    obtain ⟨c', hlead, hfollows⟩ := htest hpc hr
    -- the turn takes a step, so `n` more turns have `n` more steps
    suffices Follows l env n c' (fun _ m' c' => Related l none m' c' ∧ c'.pc = exit)
        (result (loop test body (n + 1)) m) from this.lead hlead (by omega)
    rw [loop]
    refine (hfollows.anti (by omega)).bind ?_
    rintro holds m₁ c₁ ⟨hr₁, hpc₁⟩
    cases holds with
    | false => exact .pure ⟨hr₁, hpc₁⟩
    | true =>
      refine ((hbody hpc₁ hr₁).anti (by omega)).bind ?_
      rintro - m₂ c₂ ⟨hr₂, hpc₂⟩
      exact ih (by omega) hpc₂ hr₂

/-- The branches of a conditional meet. -/
lemma join_leads {join : Option LabelId} {u : Unit} (env : Environment W)
    (h : join.forM startAt s = .ok (u, s')) (hw : Within l s') (hdone : Done l s m c) :
    ∃ c', Leads l env 0 c c' ∧ Done l s' m c' := by
  cases join with
  | none =>
    obtain ⟨-, rfl⟩ := pure_ok.1 h
    exact ⟨c, .refl l env c, hdone⟩
  | some label =>
    obtain ⟨c', hlead, hdone'⟩ := label_leads env (startAt_ok.1 h) hw hdone.pc hdone.related
    exact ⟨c', hlead.mono (Nat.zero_le _), hdone'⟩

lemma jumpToJoin_leads {join : Option LabelId} {t' : Lowering} {u : Unit} (env : Environment W)
    (h : jumpToJoin s = .ok (join, t)) (hend : join.forM startAt t' = .ok (u, s'))
    (hwt : Within l t) (hw : Within l s') (hl : Settled l s') (hdone : Done l s m c) :
    ∃ c', Leads l env 0 c c' ∧ Done l s' m c' := by
  have h := jumpToJoin_ok h
  rw [if_neg (by simp [hdone.reached])] at h
  obtain ⟨t₁, label, id, hlabel, he, rfl⟩ := h
  have hs := startAt_ok.1 hend
  have hpc : c.pc = t₁.listing.arena.size := by
    rw [hdone.pc, show t₁ = s.freshLabel.1 by rw [hlabel]]
    rfl
  obtain ⟨c₁, hlead, hpc₁, hr₁⟩ := jump_leads env he hwt hpc hdone.related
  obtain ⟨c₂, hlead', hdone'⟩ := label_leads env hs hw (hpc₁.trans (hl (startAt_placed hs))) hr₁
  exact ⟨c₂, (hlead.trans hlead').mono (Nat.zero_le _), hdone'⟩

lemma jumpUnlessEnded_leads {u : Unit} (env : Environment W)
    (h : jumpUnlessEnded label s = .ok (u, s')) (hw : Within l s') (hdone : Done l s m c) :
    ∃ c', Leads l env 0 c c' ∧ Related l none m c' ∧ c'.pc = position l label := by
  have h := jumpUnlessEnded_ok h
  rw [if_neg (by simp [hdone.reached])] at h
  obtain ⟨id, he⟩ := h
  obtain ⟨c', hlead, hpc, hr⟩ := jump_leads env he hw hdone.pc hdone.related
  exact ⟨c', hlead, hr, hpc⟩

/-- The join of a conditional is placed after both branches. -/
lemma jumpToJoin_unplaced {join : Option LabelId} (h : jumpToJoin s = .ok (join, s')) :
    ∀ label ∈ join, Unplaced s' label ∧ label = s.listing.labels.size ∧
      label < s'.listing.labels.size := by
  have hlabel := (jumpToJoin_reaches (k := 0) h).2
  have h := jumpToJoin_ok h
  intro label hmem
  split at h
  · simp [h.1] at hmem
  · obtain ⟨t, other, id, hfresh, he, rfl⟩ := h
    obtain rfl : other = label := by simpa using hmem
    obtain ⟨hu, hlt⟩ := unplaced_emit hfresh he
    exact ⟨hu, hlabel other rfl, hlt⟩

lemma Settled.back_join {join : Option LabelId} {u : Unit} (h : Settled l s')
    (hend : join.forM startAt s = .ok (u, s')) (hu : ∀ label ∈ join, Unplaced s label) :
    Settled l s := by
  cases join with
  | none =>
    obtain ⟨-, rfl⟩ := pure_ok.1 hend
    exact h
  | some label => exact h.back_startAt (startAt_ok.1 hend) (hu label rfl)

/-- The code of a declaration. -/
lemma declare_follows {fuel : Nat} {ty : DeclTy} {name : String} {init : Option Expr} {u : Unit}
    (h : declare ty name init s = .ok (u, s')) (hw : Within l s') (hf : Fits ctx s)
    (hcall : Callable l returns s.listing.functions) (hreached : s.unreachable = false)
    (hpc : c.pc = s.listing.arena.size) (hr : Related l none m c) :
    Follows l env turns c (fun _ m' c' => Done l s' m' c')
      (result (exec env returns fuel ctx (.decl ty name init)) m) := by
  have hafter := declare_after h hf hreached
  obtain ⟨-, -, t, v, t', scopes, hv, hinit, -, rfl⟩ := declare_ok h
  have ht : t = (s.freshVariable name ty.ty s.scopes.current .none).1 := by rw [hv]
  have hpct : c.pc = t.listing.arena.size := by rw [hpc, ht]; rfl
  cases init with
  | none =>
    obtain rfl : t' = t := hinit
    exact .pure ⟨hafter.unreachable, hpct, hr⟩
  | some e =>
    obtain ⟨value, t₁, he, -, h⟩ := initVariable_ok hinit
    have hvt := (freshVariable_reaches (k := 0) hv).2
    have hkept : Kept t₁ t' := by
      split at h
      · exact h ▸ .refl _
      · obtain ⟨id, hcopy⟩ := h
        exact emit_kept hcopy
    have hwt' : Within l t' := hw.back (Step.scopes (k := 0) t' scopes).kept
    have hwt₁ := hwt'.back hkept
    have hst : Kept s t := (freshVariable_reaches (k := 0) hv).1.kept
    have hnamed : l.named[ctx.vars]? = some v := by
      refine (hwt₁.back (expr_computes e (by simpa using hvt) he).1.kept).named_eq ?_
      rw [named_freshVariable hv, ← hf.vars]
      simp
    have hready : Ready l returns ctx (some ctx.vars) t := by
      refine ⟨hf.binds.mono rfl (by rw [ht]; rfl) le_rfl hst.named, ?_, ?_, by simp⟩
      · rw [ht]
        exact hf.plain.declare _ _ _ _
      · rw [ht]
        exact hcall
    have hreserved : Reserved l (some ctx.vars) (some v) t := by
      rintro w hw
      obtain rfl : v = w := by simpa using hw
      exact ⟨hvt, ctx.vars, rfl, hnamed⟩
    have hr' : Related l (some ctx.vars) m c :=
      ⟨hr.running, fun hx _ => hr.vars hx (by simp), hr.arrays, hr.world, hr.pushed, hr.trace⟩
    rw [exec]
    refine (expr_follows e he hwt₁ hready hreserved hpct hr').bind fun D m₁ c₁ hev => ?_
    have hread := hev.denotes.read hev.related (by simp)
    have hfill {c₂ : Config W} (hrun : c₂.running = true)
        (hdata : c₂.data = c₁.data.set v (c₁.data.read l value.operand))
        (htrace : c₂.trace = c₁.trace) : Related l none (m₁.set ctx.vars (D.read m₁)) c₂ := by
      rw [hread] at hdata
      exact hev.related.set hnamed (fun y hy => .inr (Option.some.inj hy).symm) hrun hdata htrace
    unfold Structured.assign
    rw [result_get_bind, result_update]
    split at h
    · rename_i hvalue
      subst h
      refine ⟨c₁, .refl l env c₁, hafter.unreachable, hev.pc,
        hfill hev.related.running ?_ rfl⟩
      rw [hvalue, Data.set, Data.read, Function.update_eq_self]
    · obtain ⟨id, hcopy⟩ := h
      obtain ⟨c₂, hlead, hpc₂, hrun, hdata, htrace⟩ :=
        (emit_emitted hcopy).1.fall hwt' env hev.pc hev.related.running rfl
      exact ⟨c₂, hlead.mono (Nat.zero_le _), hafter.unreachable, hpc₂,
        hfill hrun hdata (htrace.trans (List.append_nil _))⟩

/-- A return. -/
lemma ret_follows {α : Type} {post : α → Store W → Config W → Prop} {o : Option Operand}
    {id : InstrId} (he : s.emit (.ret o) = .ok (s', id)) (hw : Within l s')
    (hpc : c.pc = s.listing.arena.size) (hr : Related l none m c) {v : Option Value}
    (hv : v = o.map (c.data.read l)) :
    Follows l env turns c post (result (halt (.ret v) .returned : Exec W α) m) := by
  obtain ⟨c', hlead, -, hrun, -, htrace⟩ := (emit_emitted he).1.step hw env hpc hr.running
  refine ⟨c', hlead.mono (Nat.zero_le _), hrun, ?_⟩
  rw [htrace, hr.trace, hv]
  rfl

end

/-! ### Statements -/

/-- Wherever control reaches the code of the statement between two states of the lowering, it
follows the execution of the statement. -/
def Executes (l : Listing) (env : Environment W) (returns : String → Ty) (fuel : Nat)
    (ctx : Context) (body : Stmt) (s s' : Lowering) : Prop :=
  ∀ ⦃m : Store W⦄ ⦃c : Config W⦄, Within l s' → Settled l s' → Fits ctx s →
    Callable l returns s.listing.functions → s.unreachable = false →
    c.pc = s.listing.arena.size → Related l none m c →
    Follows l env fuel c (fun _ m' c' => Done l s' m' c')
      (result (exec env returns fuel ctx body) m)

section

variable {l : Listing} {env : Environment W} {returns : String → Ty} {fuel : Nat} {ctx : Context}
  {test : Expr} {s s' : Lowering} {u : Unit}

lemma ifThen_follows {body : Stmt} (h : stmt (.ifThen test body) s = .ok (u, s'))
    (hbody : ∀ {t t' : Lowering}, stmt body t = .ok ((), t') →
      Executes l env returns fuel ctx body t t') :
    Executes l env returns fuel ctx (.ifThen test body) s s' := by
  intro m c hw hl hf hcall hreached hpc hr
  obtain ⟨label, t, t', htest, hb, hs⟩ := stmt_ifThen_ok hreached h
  have h₁ := htest.after hf hreached
  have hto := stmt_reaches body le_rfl hb
  obtain ⟨hunplaced, hlt⟩ := htest.unplaced
  have hl' := hl.back_startAt hs (hunplaced.reaches hto hlt le_rfl)
  have hw' := hw.back (startAt_kept hs)
  have hat : position l label = t'.listing.arena.size := hl (startAt_placed hs)
  have hfun := (htest.reaches (k := 0)).1.functions
  rw [exec]
  refine (branch_follows htest (hw'.back hto.kept) hf hcall hpc hr).bind ?_
  rintro holds m₁ c₁ ⟨hr₁, hpc₁⟩
  cases holds with
  | false =>
    obtain ⟨c₂, hlead, hdone⟩ := label_leads env hs hw (hpc₁.trans hat) hr₁
    exact ⟨c₂, hlead.mono (Nat.zero_le _), hdone⟩
  | true =>
    refine (hbody hb hw' hl' h₁.fits (hfun ▸ hcall) h₁.unreachable hpc₁ hr₁).further ?_
    intro _ m₂ c₂ hdone
    obtain ⟨c₃, hlead, hdone⟩ := label_leads env hs hw hdone.pc hdone.related
    exact ⟨c₃, hlead.mono (Nat.zero_le _), hdone⟩

lemma ifElse_follows {onTrue onFalse : Stmt}
    (h : stmt (.ifElse test onTrue onFalse) s = .ok (u, s'))
    (htrue : ∀ {t t' : Lowering}, stmt onTrue t = .ok ((), t') →
      Executes l env returns fuel ctx onTrue t t')
    (hfalse : ∀ {t t' : Lowering}, stmt onFalse t = .ok ((), t') →
      Executes l env returns fuel (onTrue.context ctx) onFalse t t') :
    Executes l env returns fuel ctx (.ifElse test onTrue onFalse) s s' := by
  intro m c hw hl hf hcall hreached hpc hr
  obtain ⟨label, t, t₁, join, t₂, t₃, t₄, htest, ht, hjoin, hs, he, hend⟩ :=
    stmt_ifElse_ok hreached h
  have h₁ := htest.after hf hreached
  have h₂ := stmt_after onTrue ht h₁.fits h₁.unreachable
  have h₃ := (jumpToJoin_after hjoin h₂.fits).1
  have h₄ := emitted_after (startAt_emitted hs).1 h₃.fits
  have hto₁ := stmt_reaches onTrue le_rfl ht
  have hto₂ := (jumpToJoin_reaches (k := t₁.listing.labels.size) hjoin).1
  have hto₃ : Reaches 0 t₂ t₃ := (Step.startAt hs (Nat.zero_le _)).reaches
  have hto₄ := stmt_reaches onFalse le_rfl he
  -- both labels have no place until the code before them is complete
  obtain ⟨hother, hlt⟩ := htest.unplaced
  have hother₂ := (hother.reaches hto₁ hlt le_rfl).reaches hto₂
    (Nat.lt_of_lt_of_le hlt hto₁.grows.labels) le_rfl
  have hjoin₄ : ∀ label' ∈ join, Unplaced t₄ label' := by
    intro label' hmem
    obtain ⟨hu, hsize, hlt'⟩ := jumpToJoin_unplaced hjoin label' hmem
    have hne : label' ≠ label :=
      hsize ▸ (Nat.lt_of_lt_of_le hlt hto₁.grows.labels).ne'
    exact (hu.startAt hs hne).reaches hto₄ (Nat.lt_of_lt_of_le hlt' hto₃.grows.labels) le_rfl
  have hl₄ := hl.back_join hend hjoin₄
  have hl₃ := hl₄.back hto₄
  have hl₁ := (hl₃.back_startAt hs hother₂).back hto₂
  have hw₄ := hw.back (joinAt_reaches (k := 0) (fun _ _ => Nat.zero_le _) hend).kept
  have hw₂ := (hw₄.back hto₄.kept).back hto₃.kept
  have hw₁ := hw₂.back hto₂.kept
  have hat : position l label = t₂.listing.arena.size := hl₃ (startAt_placed hs)
  have hfun := (htest.reaches (k := 0)).1.functions
  rw [exec]
  refine (branch_follows htest (hw₁.back hto₁.kept) hf hcall hpc hr).bind ?_
  rintro holds m₁ c₁ ⟨hr₁, hpc₁⟩
  cases holds with
  | true =>
    refine (htrue ht hw₁ hl₁ h₁.fits (hfun ▸ hcall) h₁.unreachable hpc₁ hr₁).further ?_
    exact fun _ _ _ hdone => jumpToJoin_leads env hjoin hend hw₂ hw hl hdone
  | false =>
    obtain ⟨c₂, hlead, hdone⟩ := label_leads env hs (hw₄.back hto₄.kept) (hpc₁.trans hat) hr₁
    have hfun₃ : t₃.listing.functions = s.listing.functions := by
      rw [hto₃.functions, hto₂.functions, hto₁.functions, hfun]
    have helse := hfalse he hw₄ hl₄ h₄.fits (hfun₃ ▸ hcall) h₄.unreachable
      hdone.pc hdone.related
    refine Follows.further (helse.lead hlead (by omega)) ?_
    exact fun _ _ _ hdone => join_leads env hend hw hdone

/-- Each turn passes the label at the head of the loop, and the body leads back to it. -/
lemma while_follows {body : Stmt} (h : stmt (.while test body) s = .ok (u, s'))
    (hbody : ∀ {t t' : Lowering}, stmt body t = .ok ((), t') →
      Executes l env returns fuel ctx body t t') :
    Executes l env returns fuel ctx (.while test body) s s' := by
  intro m c hw hl hf hcall hreached hpc hr
  obtain ⟨head, t₁, t₂, label, t₃, t₄, t₅, hh, hs, htest, hb, hback, hend⟩ :=
    stmt_while_ok hreached h
  have h₁ := freshLabel_after hh hf
  have h₂ := emitted_after (startAt_emitted hs).1 h₁.fits
  have h₃ := htest.after h₂.fits h₂.unreachable
  have hto₃ := (htest.reaches (k := t₂.listing.labels.size)).1
  have hto₄ := stmt_reaches body le_rfl hb
  have hto₅ := jumpUnlessEnded_reaches (k := t₄.listing.labels.size) hback
  obtain ⟨hexit, hlt⟩ := htest.unplaced
  have hexit₅ := (hexit.reaches hto₄ hlt le_rfl).reaches hto₅
    (Nat.lt_of_lt_of_le hlt hto₄.grows.labels) le_rfl
  have hl₄ := (hl.back_startAt hend hexit₅).back hto₅
  have hl₂ := (hl₄.back hto₄).back hto₃
  have hw₅ := hw.back (startAt_kept hend)
  have hw₄ := hw₅.back hto₅.kept
  have hw₃ := hw₄.back hto₄.kept
  have hw₂ := hw₃.back hto₃.kept
  have hathead : position l head = t₁.listing.arena.size := hl₂ (startAt_placed hs)
  have hatexit : position l label = t₅.listing.arena.size := hl (startAt_placed hend)
  have hfun₂ : t₂.listing.functions = s.listing.functions := by
    rw [(startAt_emitted hs).1.functions, (freshLabel_reaches (k := 0) hh).1.functions]
  have hfun₃ := hto₃.functions.trans hfun₂
  have hpc₁ : c.pc = t₁.listing.arena.size := by
    rw [hpc, show t₁ = s.freshLabel.1 by rw [hh]]
    rfl
  rw [exec]
  refine Follows.further (loop_follows t₁.listing.arena.size t₃.listing.arena.size
    t₅.listing.arena.size ?_ ?_ le_rfl hpc₁ hr) ?_
  · intro m₁ c₁ hpc₁ hr₁
    obtain ⟨c₂, hlead, hdone⟩ := label_leads env hs hw₂ hpc₁ hr₁
    refine ⟨c₂, hlead, ?_⟩
    rw [← hatexit]
    exact branch_follows htest hw₃ h₂.fits (hfun₂ ▸ hcall) hdone.pc hdone.related
  · intro m₁ c₁ hpc₁ hr₁
    refine (hbody hb hw₄ hl₄ h₃.fits (hfun₃ ▸ hcall) h₃.unreachable hpc₁ hr₁).further ?_
    rw [← hathead]
    exact fun _ _ _ hdone => jumpUnlessEnded_leads env hback hw₅ hdone
  · rintro - m₁ c₁ ⟨hr₁, hpc₁⟩
    obtain ⟨c₂, hlead, hdone⟩ := label_leads env hend hw hpc₁ hr₁
    exact ⟨c₂, hlead.mono (Nat.zero_le _), hdone⟩

end

section

variable {l : Listing} {env : Environment W} {returns : String → Ty} {fuel : Nat}

mutual

/-- The code of a statement that control reaches follows its execution. -/
theorem stmt_follows (body : Stmt) {ctx : Context} {s s' : Lowering} {u : Unit}
    (h : stmt body s = .ok (u, s')) : Executes l env returns fuel ctx body s s' := by
  intro m c hw hl hf hcall hreached hpc hr
  have hready : Ready l returns ctx none s := ⟨hf.binds, hf.plain, hcall, by simp⟩
  match body with
  | .expr e =>
    obtain ⟨r, he⟩ := stmt_expr_ok hreached h
    have hu := (expr_computes e (by simp) he).1.unmoved
    rw [exec]
    refine (expr_follows e he hw hready (reserved_none l none s) hpc hr).bind ?_
    exact fun D m' c' hev => .pure ⟨hu.reached hreached, hev.pc, hev.related⟩
  | .compound body =>
    obtain ⟨t, hb, rfl⟩ := stmt_compound_ok hreached h
    have hf' : Fits ctx { s with scopes := s.scopes.push } :=
      ⟨hf.binds.mono rfl (bindings_push _) le_rfl List.prefix_rfl, hf.vars, hf.arrays, hf.plain⟩
    have hwt := hw.back (Step.scopes (k := 0) t t.scopes.pop).kept
    rw [exec]
    refine (stmts_follow body hb hwt hl hf' hcall hreached hpc hr).mono ?_
    exact fun _ m' c' hdone => ⟨hdone.reached, hdone.pc, hdone.related⟩
  | .ifThen test body =>
    exact ifThen_follows h (stmt_follows body) hw hl hf hcall hreached hpc hr
  | .ifElse test onTrue onFalse =>
    exact ifElse_follows h (stmt_follows onTrue) (stmt_follows onFalse) hw hl hf hcall hreached hpc
      hr
  | .while test body =>
    exact while_follows h (stmt_follows body) hw hl hf hcall hreached hpc hr
  | .decl ty name init =>
    exact declare_follows (stmt_decl_ok hreached h) hw hf hcall hreached hpc hr
  | .array ty name length =>
    have h := stmt_array_ok hreached h
    have hafter := declareArray_after h hf hreached
    obtain ⟨-, -, t, a, scopes, ha, -, rfl⟩ := declareArray_ok h
    have ht : t = (s.freshArray ⟨name, ty.ty, length, s.scopes.current⟩).1 := by rw [ha]
    exact .pure ⟨hafter.unreachable, by rw [hpc, ht]; rfl, hr⟩
  | .ret none =>
    obtain ⟨-, id, he⟩ := ret_ok (stmt_ret_ok hreached h)
    exact ret_follows he hw hpc hr rfl
  | .ret (some value) =>
    obtain ⟨r, t, he, h⟩ := stmt_retValue_ok hreached h
    obtain ⟨-, id, hret⟩ := ret_ok h
    rw [exec]
    refine (expr_follows value he (hw.back (emit_kept hret)) hready (reserved_none l none s) hpc
      hr).bind ?_
    intro D m' c' hev
    rw [result_get_bind]
    refine ret_follows hret hw hev.pc hev.related ?_
    rw [← hev.denotes.read hev.related (by simp)]
    rfl

theorem stmts_follow (body : List Stmt) {ctx : Context} {s s' : Lowering} {u : Unit}
    {m : Store W} {c : Config W} (h : stmts body s = .ok (u, s')) (hw : Within l s')
    (hl : Settled l s') (hf : Fits ctx s) (hcall : Callable l returns s.listing.functions)
    (hreached : s.unreachable = false) (hpc : c.pc = s.listing.arena.size)
    (hr : Related l none m c) :
    Follows l env fuel c (fun _ m' c' => Done l s' m' c')
      (result (execAll env returns fuel ctx body) m) := by
  match body with
  | [] =>
    obtain ⟨-, rfl⟩ := pure_ok.1 h
    exact .pure ⟨hreached, hpc, hr⟩
  | first :: rest =>
    obtain ⟨t, hfirst, hrest⟩ := stmts_cons_ok h
    have hts := stmts_reaches rest le_rfl hrest
    have hst := stmt_reaches first (Nat.zero_le _) hfirst
    rw [execAll]
    refine (stmt_follows first hfirst (hw.back hts.kept) (hl.back hts) hf hcall hreached hpc
      hr).bind ?_
    intro _ m' c' hdone
    have hafter := stmt_after first hfirst hf hreached
    exact stmts_follow rest hrest hw hl hafter.fits (hst.functions ▸ hcall) hdone.reached hdone.pc
      hdone.related

end

end

end ThreeAddress.Lower
