import ThreeAddress.Proofs.ControlFlow.Sections

/-!
Loops of lowered code.

A jump backward closes a loop, which reaches from the label at its head to the jump. Every other
branch goes to a label that is placed after it, so loops lie one in the other or apart, and a
branch to an instruction of a loop that is not its head comes from inside the loop. The jump that
closes a loop is the only step of lowering for which this takes an argument: labels that were made
before the loop are not placed in it, and what stands in the loop goes to labels that are placed
in it or after it.
-/

namespace ThreeAddress

namespace Lower

open Lowering Source

/-- The instruction at `i` branches to a label that is placed at `site`. -/
def Goes (s : Lowering) (i site : Nat) : Prop :=
  ∃ x label, s.listing.instr? i = some x ∧ x.action.branchTarget = some label ∧
    Placed s label site

/-- A loop is entered from outside through its head only. -/
structure Nested (s : Lowering) : Prop where
  known : ∀ {i : Nat} {x label}, s.listing.instr? i = some x →
    x.action.branchTarget = some label → label < s.listing.labels.size
  inside : ∀ {i site j site' : Nat}, Goes s i site → site ≤ i → Goes s j site' → site < site' →
    site' ≤ i → site ≤ j ∧ j ≤ i

/-- What is lowered from `s` to `s'` adds no branch but those to labels placed after them. -/
structure Forward (s s' : Lowering) : Prop where
  kept : Kept s s'
  known : ∀ {i : Nat} {x label}, s.listing.arena.size ≤ i → s'.listing.instr? i = some x →
    x.action.branchTarget = some label → label < s'.listing.labels.size
  goes : ∀ {j site : Nat}, Goes s' j site →
    Goes s j site ∨ (s.listing.arena.size ≤ site ∧ j < site)

variable {base : Listing} {P : Set LabelId} {s t s' : Lowering} {label : LabelId}

lemma Goes.lt {i site : Nat} (h : Goes s i site) : i < s.listing.arena.size := by
  obtain ⟨x, label, hx, -⟩ := h
  exact instr?_lt hx

lemma Nested.forward (h : Nested s) (hf : Forward s s') : Nested s' where
  known {i x label} hx ht := by
    by_cases hi : i < s.listing.arena.size
    · rw [hf.kept.instr i hi] at hx
      exact (h.known hx ht).trans_le hf.kept.grows.labels
    · exact hf.known (Nat.le_of_not_lt hi) hx ht
  inside {i site j site'} hi hback hj hlt hle := by
    obtain hi | ⟨-, hforward⟩ := hf.goes hi
    · obtain hj | ⟨hnew, -⟩ := hf.goes hj
      · exact h.inside hi hback hj hlt hle
      · exact absurd (hi.lt.trans_le hnew) hle.not_gt
    · exact absurd hforward hback.not_gt

/-! ### Steps that close no loop -/

lemma emit_forward {action : Action} {id : InstrId} (he : s.emit action = .ok (s', id))
    (hb : ∀ label, action.branchTarget = some label →
      Unplaced s label ∧ label < s.listing.labels.size) : Forward s s' := by
  obtain ⟨hemit, hlabels, -⟩ := emit_emitted he
  have hkept := emit_kept he
  refine ⟨hkept, fun {i x label} hi hx ht => ?_, ?_⟩
  · obtain ⟨hlt, -⟩ | ⟨-, rfl⟩ := emitted_cases hemit hkept hx
    · exact absurd hlt hi.not_gt
    · rw [hlabels]
      exact (hb label ht).2
  · rintro j site ⟨x, label, hx, ht, hp⟩
    have hp : Placed s label site := (placed_congr (by rw [hlabels]) site).1 hp
    obtain ⟨-, hx⟩ | ⟨-, rfl⟩ := emitted_cases hemit hkept hx
    · exact .inl ⟨x, label, hx, ht, hp⟩
    · exact absurd hp ((hb label ht).1 site)

lemma startAt_forward (hs : s.startAt label = .ok s') (hu : Unplaced s label) :
    Forward s s' := by
  obtain ⟨hemit, hnew, hother⟩ := startAt_emitted hs
  have hkept := startAt_kept hs
  refine ⟨hkept, fun {i x label'} hi hx ht => ?_, ?_⟩
  · obtain ⟨hlt, -⟩ | ⟨-, hact⟩ := emitted_cases hemit hkept hx
    · exact absurd hlt hi.not_gt
    · rw [hact] at ht
      cases ht
  · rintro j site ⟨x, label', hx, ht, hp⟩
    obtain ⟨hlt, hx⟩ | ⟨-, hact⟩ := emitted_cases hemit hkept hx
    · by_cases heq : label' = label
      · subst heq
        obtain rfl := hp.unique hnew
        exact .inr ⟨le_rfl, hlt⟩
      · exact .inl ⟨x, label', hx, ht, (placed_congr (hother label' heq) site).1 hp⟩
    · rw [hact] at ht
      cases ht

/-- Where no label can be placed, the labels that are placed stay the same. -/
lemma placed_iff {k : Nat} (h : Reaches k s s') (hk : s'.listing.labels.size ≤ k)
    (label : LabelId) (site : InstrId) : Placed s' label site ↔ Placed s label site := by
  induction h with
  | refl => rfl
  | @tail t t' hr hstep ih =>
    rw [← ih (hstep.grows.labels.trans hk)]
    cases hstep with
    | emit he _ _ => exact placed_congr (by rw [(emit_emitted he).2.1]) site
    | startAt hs hle =>
      have hlt := (startAt_placed hs).lt
      exact absurd (hlt.trans_le (hk.trans hle)) (lt_irrefl _)
    | freshLabel =>
      exact ⟨fun ⟨info, hinfo, hsite⟩ => ⟨info, get?_push hinfo hsite, hsite⟩,
        fun ⟨info, hinfo, hsite⟩ => ⟨info, get?_push_of_some hinfo, hsite⟩⟩
    | _ => rfl

/-- Code that places no label and goes to its own labels has no branches. -/
lemma Reaches.forward (h : Reaches s'.listing.labels.size s s')
    (hl : Laid { Listing.empty with arena := s.listing.arena } ∅ s') (hs : s.Sound) :
    Forward s s' := by
  have hplaced := placed_iff h le_rfl
  have hnone {i : Nat} {x : Instr} {label : LabelId} (hi : s.listing.arena.size ≤ i)
      (hx : s'.listing.instr? i = some x) (ht : x.action.branchTarget = some label) : False := by
    obtain ⟨-, hpending | ⟨site, hsite, hp⟩⟩ := (hl.code hi hx).target ht
    · exact hpending
    · exact (((hplaced label site).1 hp).site_lt hs).not_ge hsite
  refine ⟨h.kept, fun hi hx ht => (hnone hi hx ht).elim, ?_⟩
  rintro j site ⟨x, label, hx, ht, hp⟩
  by_cases hj : j < s.listing.arena.size
  · rw [h.kept.instr j hj] at hx
    exact .inl ⟨x, label, hx, ht, (hplaced label site).1 hp⟩
  · exact (hnone (Nat.le_of_not_lt hj) hx ht).elim

/-! ### The jump that closes a loop -/

/-- The jump at the end of a loop goes to the label at its head. The loop was lowered between `s`
and `t'`, and `s'` is where its statement ends. -/
lemma Nested.loop {t' : Lowering} {head : LabelId} {id : InstrId} (h : Nested t)
    (hs : s.Sound) (hknown : Nested s) (hst : Kept s t)
    (hj : t.emit (.jump head) = .ok (t', id)) (hhead : Placed t head s.listing.arena.size)
    (hr : Reaches s.listing.labels.size s s')
    (hl : Laid { Listing.empty with arena := s.listing.arena } ∅ s') (hkept : Kept t' s')
    (hplaced : ∀ {label site}, Placed t' label site → Placed s' label site) : Nested t' := by
  obtain ⟨hemit, hlabels, -⟩ := emit_emitted hj
  have hkeptj := emit_kept hj
  have hplacedj (label : LabelId) (site : InstrId) : Placed t' label site ↔ Placed t label site :=
    placed_congr (by rw [hlabels]) site
  have hcases {i site : Nat} (hi : Goes t' i site) :
      Goes t i site ∨ (i = t.listing.arena.size ∧ site = s.listing.arena.size) := by
    obtain ⟨x, label, hx, ht, hp⟩ := hi
    rw [hplacedj] at hp
    obtain ⟨-, hx⟩ | ⟨rfl, hact⟩ := emitted_cases hemit hkeptj hx
    · exact .inl ⟨x, label, hx, ht, hp⟩
    · rw [hact] at ht
      obtain rfl : head = label := Option.some.inj ht
      exact .inr ⟨rfl, hp.unique hhead⟩
  -- what was lowered before the loop does not go into it
  have hbefore {j site : Nat} (hj : Goes t' j site) (hlt : j < s.listing.arena.size) :
      site < s.listing.arena.size := by
    obtain ⟨x, label, hx, ht, hp⟩ := hj
    rw [(hst.trans hkeptj).instr j hlt] at hx
    have hp := (placed_congr (hr.label_eq (hknown.known hx ht) le_rfl) site).1 (hplaced hp)
    exact hp.site_lt hs
  -- and what stands in the loop does not go before it
  have hwithin {i site : Nat} (hi : Goes t' i site) (hle : s.listing.arena.size ≤ i) :
      s.listing.arena.size ≤ site := by
    obtain ⟨x, label, hx, ht, hp⟩ := hi
    have hx' : s'.listing.instr? i = some x := by rw [hkept.instr i (instr?_lt hx), hx]
    obtain ⟨-, hpending | ⟨site', hsite, hp'⟩⟩ := (hl.code hle hx').target ht
    · exact hpending.elim
    · exact (hplaced hp).unique hp' ▸ hsite
  refine ⟨fun {i x label} hx ht => ?_, fun {i site j site'} hi hback hj hlt hle => ?_⟩
  · rw [hlabels]
    obtain ⟨-, hx⟩ | ⟨-, hact⟩ := emitted_cases hemit hkeptj hx
    · exact h.known hx ht
    · rw [hact] at ht
      obtain rfl : head = label := Option.some.inj ht
      exact hhead.lt
  · have hjlt := hj.lt
    rw [hemit.size] at hjlt
    obtain hi' | ⟨rfl, rfl⟩ := hcases hi
    · obtain hj' | ⟨rfl, rfl⟩ := hcases hj
      · exact h.inside hi' hback hj' hlt hle
      · exact absurd (hwithin hi hle) hlt.not_ge
    · refine ⟨?_, Nat.lt_succ_iff.1 hjlt⟩
      by_contra hout
      exact absurd (hbefore hj (Nat.lt_of_not_le hout)) hlt.le.not_gt

/-! ### Statements -/

/-- The loops lowered so far are entered through their heads, and what is lowered next can be
laid behind them. -/
structure Looped (s : Lowering) : Prop where
  sound : s.Sound
  laid : Laid { Listing.empty with arena := s.listing.arena } ∅ s
  nested : Nested s

/-- Code can always be laid behind the code that there is. -/
lemma Laid.restart (h : Laid base P s) :
    Laid { Listing.empty with arena := s.listing.arena } ∅ s where
  fewer := ⟨Nat.zero_le _, Nat.zero_le _, le_rfl⟩
  plain := h.plain
  bound e he := by
    have hb := h.bound e he
    cases hsym : e.2 with
    | var v =>
      rw [hsym] at hb
      exact ⟨Nat.zero_le _, hb.2⟩
    | array a =>
      rw [hsym] at hb
      exact ⟨Nat.zero_le _, hb.2⟩
  code hi hx := absurd (instr?_lt hx) hi.not_gt
  reached hi hx := absurd (instr?_lt hx) hi.not_gt
  flag _ hsize hx := h.flag (by rw [hsize]; exact h.fewer.arena) hsize hx

lemma Laid.restart_emitted {action : Action} (h : Laid base P s) (he : Emitted s action s') :
    Laid { Listing.empty with arena := s'.listing.arena } ∅ s' where
  fewer := ⟨Nat.zero_le _, Nat.zero_le _, le_rfl⟩
  plain := he.vars ▸ h.plain
  bound e hb := by
    rw [he.scopes] at hb
    exact (h.restart.bound e hb).mono (emitted_fewer he)
  code hi hx := absurd (instr?_lt hx) hi.not_gt
  reached hi hx := absurd (instr?_lt hx) hi.not_gt
  flag {i x} _ hsize hx := by
    obtain rfl : i = s.listing.arena.size := Nat.succ.inj (hsize.trans he.size)
    obtain ⟨y, hy, hact⟩ := he.instr
    rw [he.unreachable, Option.some.inj (hx.symm.trans hy), hact]

namespace Looped

lemma straight (h : Looped s) (hr : ∀ k, Reaches k s s')
    (hl : Laid { Listing.empty with arena := s.listing.arena } ∅ s') : Looped s' :=
  ⟨(hr 0).extends.sound h.sound, hl.restart,
    h.nested.forward (Reaches.forward (hr _) hl h.sound)⟩

lemma startAt (h : Looped s) (hs : s.startAt label = .ok s') (hu : Unplaced s label) :
    Looped s' :=
  ⟨(Step.startAt (k := 0) hs (Nat.zero_le _)).reaches.extends.sound h.sound,
    h.laid.restart_emitted (startAt_emitted hs).1, h.nested.forward (startAt_forward hs hu)⟩

lemma freshLabel (h : Looped s) (hl : s.freshLabel = (s', label)) : Looped s' :=
  h.straight (fun _ => (freshLabel_reaches hl).1) (h.laid.freshLabel hl).1

/-- A branch to a label that was just made. -/
lemma branch {action : Action} {id : InstrId} (h : Looped s) (hl : s.freshLabel = (t, label))
    (he : t.emit action = .ok (s', id)) (hscope : action.InScope t.listing)
    (hlabel : action.definedLabel = none) (htarget : action.branchTarget = some label) :
    Looped s' := by
  have ht := h.freshLabel hl
  refine ⟨(emit_reaches (k := 0) he hscope hlabel).extends.sound ht.sound,
    ht.laid.restart_emitted (emit_emitted he).1, ht.nested.forward (emit_forward he ?_)⟩
  intro other hother
  obtain rfl : label = other := Option.some.inj (htarget.symm.trans hother)
  exact unplaced_freshLabel hl

lemma condition {test : Expr} {o : Operand} (h : Looped s) (hr : s.unreachable = false)
    (hc : condition test s = .ok (o, s')) : Looped s' :=
  h.straight (fun _ => (condition_computes hc).1.reaches) (condition_laid h.laid hr hc).1

end Looped

/-- A condition and the conditional jump after it. -/
lemma Looped.branches {test : Expr} (h : Looped s) (hr : s.unreachable = false)
    (hb : Branches test label s s') : Looped s' := by
  obtain ⟨o, t, t', id, hc, hl, hj⟩ := hb
  have ho := (condition_computes hc).2
  exact (h.condition hr hc).branch hl hj ((freshLabel_reaches (k := 0) hl).1.grows.inScope ho)
    rfl rfl

lemma jumpToJoin_looped {join : Option LabelId} (h : Looped s)
    (hj : jumpToJoin s = .ok (join, s')) :
    Looped s' ∧ ∀ label ∈ join, Unplaced s' label ∧ label < s'.listing.labels.size := by
  have hj := jumpToJoin_ok hj
  split at hj
  · obtain ⟨rfl, rfl⟩ := hj
    exact ⟨h, by simp⟩
  · obtain ⟨t, label, id, hl, he, rfl⟩ := hj
    exact ⟨h.branch hl he trivial rfl rfl, by simpa using unplaced_emit hl he⟩

section

variable {test : Expr} {u : Unit}

lemma ifElse_looped {onTrue onFalse : Stmt} (hs : stmt (.ifElse test onTrue onFalse) s = .ok (u, s'))
    (hr : s.unreachable = false)
    (htrue : ∀ {t t' : Lowering}, stmt onTrue t = .ok ((), t') → Looped t → Looped t')
    (hfalse : ∀ {t t' : Lowering}, stmt onFalse t = .ok ((), t') → Looped t → Looped t')
    (h : Looped s) : Looped s' := by
  obtain ⟨label, t, t₁, join, t₂, t₃, t₄, htest, ht, hjoin, hs, hf, hend⟩ :=
    stmt_ifElse_ok hr hs
  obtain ⟨hu, hlt⟩ := htest.unplaced
  have hto₁ := stmt_reaches onTrue le_rfl ht
  have hlt₁ := hlt.trans_le hto₁.grows.labels
  obtain ⟨hto₂, hlabels⟩ := jumpToJoin_reaches (k := t₁.listing.labels.size) hjoin
  obtain ⟨h₂, hawait⟩ := jumpToJoin_looped (htrue ht (h.branches hr htest)) hjoin
  have hu₂ := (hu.reaches hto₁ hlt le_rfl).reaches hto₂ hlt₁ le_rfl
  have h₄ := hfalse hf (h₂.startAt hs hu₂)
  cases join with
  | none =>
    obtain ⟨-, rfl⟩ := pure_ok.1 hend
    exact h₄
  | some join =>
    -- the join is newer than the label of the other branch
    have hne : join ≠ label := by
      rw [hlabels join rfl]
      exact hlt₁.ne'
    obtain ⟨huj, hltj⟩ := hawait join rfl
    exact h₄.startAt (startAt_ok.1 hend) ((huj.startAt hs hne).reaches
      (stmt_reaches onFalse le_rfl hf) (hltj.trans_le (startAt_kept hs).grows.labels) le_rfl)

lemma while_looped {body : Stmt} (hs : stmt (.while test body) s = .ok (u, s'))
    (hr : s.unreachable = false)
    (hbody : ∀ {t t' : Lowering}, stmt body t = .ok ((), t') → Looped t → Looped t')
    (h : Looped s) : Looped s' := by
  have hreach := stmt_reaches (.while test body) le_rfl hs
  have hlaid := stmt_laid (.while test body) hs h.laid
  obtain ⟨head, t₁, t₂, label, t₃, t₄, t₅, hh, hs, htest, hb, hback, hend⟩ :=
    stmt_while_ok hr hs
  have h₂ := (h.freshLabel hh).startAt hs (unplaced_freshLabel hh).1
  have h₄ := hbody hb (h₂.branches (startAt_emitted hs).1.unreachable htest)
  obtain ⟨hu, hlt⟩ := htest.unplaced
  have hu₄ := hu.reaches (stmt_reaches body le_rfl hb) hlt le_rfl
  have hback' := jumpUnlessEnded_ok hback
  split at hback'
  · exact h₄.startAt (hback' ▸ hend) hu₄
  · obtain ⟨id', hjump⟩ := hback'
    have hu₅ := hu₄.emit hjump
    have hto₃ := (htest.reaches (k := t₂.listing.labels.size)).1
    have hto₄ := hto₃.trans (stmt_reaches body hto₃.grows.labels hb)
    -- the label at the head keeps its place through the body
    have hhead : Placed t₄ head s.listing.arena.size := by
      have hp := startAt_placed hs
      rw [show t₁ = s.freshLabel.1 by rw [hh]] at hp
      exact hp.reaches hto₄
    have hplaced {other : LabelId} {site : InstrId} (hp : Placed t₅ other site) :
        Placed s' other site := by
      refine (placed_congr ((startAt_emitted hend).2.2 other ?_) site).2 hp
      rintro rfl
      exact hu₅ site hp
    have hst : Kept s t₄ :=
      ((freshLabel_reaches (k := 0) hh).1.kept.trans (startAt_kept hs)).trans hto₄.kept
    have h₅ : Looped t₅ :=
      ⟨(jumpUnlessEnded_reaches (k := 0) hback).extends.sound h₄.sound,
        h₄.laid.restart_emitted (emit_emitted hjump).1,
        h₄.nested.loop h.sound h.nested hst hjump hhead hreach hlaid (startAt_kept hend) hplaced⟩
    exact h₅.startAt hend hu₅

end

mutual

/-- A statement leaves the loops entered through their heads. -/
theorem stmt_looped (body : Stmt) {s s' : Lowering} {u : Unit}
    (hs : stmt body s = .ok (u, s')) (h : Looped s) : Looped s' := by
  cases hr : s.unreachable with
  | true => exact stmt_unreachable hs hr ▸ h
  | false =>
  have hlaid := stmt_laid body hs h.laid
  match body with
  | .expr e =>
    obtain ⟨r, he⟩ := stmt_expr_ok hr hs
    exact h.straight (fun _ => (expr_computes e (by simp) he).1.reaches) hlaid
  | .compound body =>
    obtain ⟨t, hb, rfl⟩ := stmt_compound_ok hr hs
    have hpush : Laid { Listing.empty with arena := s.listing.arena } ∅
        { s with scopes := s.scopes.push } :=
      h.laid.scopes fun e he => h.laid.bound e (by rwa [bindings_push] at he)
    have h₁ : Looped { s with scopes := s.scopes.push } :=
      h.straight (fun _ => (Step.scopes s _).reaches) hpush
    have h₂ := stmts_looped body hb h₁
    exact h₂.straight (fun _ => (Step.scopes t _).reaches) h₂.laid.popScope
  | .ifThen test body =>
    obtain ⟨label, t, t', htest, hb, hs⟩ := stmt_ifThen_ok hr hs
    obtain ⟨hu, hlt⟩ := htest.unplaced
    exact (stmt_looped body hb (h.branches hr htest)).startAt hs
      (hu.reaches (stmt_reaches body le_rfl hb) hlt le_rfl)
  | .ifElse test onTrue onFalse =>
    exact ifElse_looped hs hr (stmt_looped onTrue) (stmt_looped onFalse) h
  | .while test body =>
    exact while_looped hs hr (stmt_looped body) h
  | .decl ty name init =>
    exact h.straight (fun _ => declare_reaches (stmt_decl_ok hr hs)) hlaid
  | .array ty name length =>
    exact h.straight (fun _ => declareArray_reaches (stmt_array_ok hr hs)) hlaid
  | .ret none => exact h.straight (fun _ => ret_reaches (by simp) (stmt_ret_ok hr hs)) hlaid
  | .ret (some value) =>
    obtain ⟨r, t, he, hs⟩ := stmt_retValue_ok hr hs
    obtain ⟨hst, hv⟩ := expr_computes value (by simp) he
    exact h.straight (fun _ => hst.reaches.trans (ret_reaches (by simpa using hv) hs)) hlaid

theorem stmts_looped (body : List Stmt) {s s' : Lowering} {u : Unit}
    (hs : stmts body s = .ok (u, s')) (h : Looped s) : Looped s' := by
  match body with
  | [] =>
    obtain ⟨-, rfl⟩ := pure_ok.1 hs
    exact h
  | first :: rest =>
    obtain ⟨t, hf, hrest⟩ := stmts_cons_ok hs
    exact stmts_looped rest hrest (stmt_looped first hf h)

end

/-! ### Programs -/

lemma looped_start : Looped .start where
  sound := sound_start
  laid := laid_nil rfl fits_start.plain fun hsize => by simp [Lowering.start, Listing.empty] at hsize
  nested := by
    have hnone {i : Nat} {x : Instr} (hx : Lowering.start.listing.instr? i = some x) : False := by
      simp [Lowering.start, Listing.empty, Listing.instr?] at hx
    refine ⟨fun hx => (hnone hx).elim, ?_⟩
    rintro _ _ _ _ ⟨_, _, hx, _⟩
    exact (hnone hx).elim

lemma Nested.declareFunction {p : Prototype} {define : Bool} {f : Signature} (h : Nested s)
    (hd : s.declareFunction p define = .ok (s', f)) : Nested s' := by
  have hkept : Kept s s' := (ItemStep.declareFunction hd).kept
  have hplaced := declareFunction_placed hd
  have harena : s'.listing.arena = s.listing.arena := by
    obtain ⟨functions, labels, -, rfl⟩ := declareFunction_eq hd
    rfl
  refine h.forward ⟨hkept, fun hi hx => absurd (harena ▸ instr?_lt hx) hi.not_gt, ?_⟩
  rintro j site ⟨x, label, hx, ht, hp⟩
  refine .inl ⟨x, label, ?_, ht, (hplaced label site).1 hp⟩
  rw [← hx, Listing.instr?, Listing.instr?, harena]

lemma item_nested {done : List Item} {i : Item} {u : Unit} (h : Divided done s) (hn : Nested s)
    (hi : item i s = .ok (u, s')) : Nested s' := by
  cases i with
  | prototype p =>
    obtain ⟨f, hd⟩ := item_prototype_ok hi
    exact hn.declareFunction hd
  | function p body =>
    obtain ⟨f, t₁, t₂, t₃, t₄, t₅, hd, hs, hp, hb, he, rfl⟩ := function_ok hi
    obtain ⟨-, -, hunplaced⟩ := declareFunction_define hd h.tabled
    have hsame : t₁.listing.vars = s.listing.vars ∧ t₁.scopes = s.scopes := by
      obtain ⟨functions, labels, -, rfl⟩ := declareFunction_eq hd
      exact ⟨rfl, rfl⟩
    have hemit := (startAt_emitted hs).1
    have hbound : bindings t₂.scopes = [] := by rw [hemit.scopes, hsame.2, h.unbound]
    have hplain : t₂.listing.vars.Plain := by
      obtain ⟨ctx, -, hfits⟩ := h.fits
      rw [hemit.vars, hsame.1]
      exact hfits.plain
    have h₂ : Looped t₂ :=
      ⟨(Step.startAt (k := 0) hs (Nat.zero_le _)).reaches.extends.sound
          ((ItemStep.declareFunction hd).extends.sound h.sound),
        (label_laid hs hbound hplain).restart,
        (hn.declareFunction hd).forward (startAt_forward hs hunplaced)⟩
    have hpush : Laid { Listing.empty with arena := t₂.listing.arena } ∅
        { t₂ with scopes := t₂.scopes.push } :=
      h₂.laid.scopes fun e he => h₂.laid.bound e (by rwa [bindings_push] at he)
    obtain ⟨h₃, -⟩ := params_laid hp hpush hemit.unreachable fun j hj hlt => absurd hlt hj.not_gt
    have h₃ : Looped t₃ :=
      h₂.straight (fun _ => (Step.scopes t₂ _).reaches.trans (params_reaches hp)) h₃
    have h₄ := stmt_looped body hb
      ⟨(ItemStep.context t₃ _).extends.sound h₃.sound, h₃.laid.of_tables rfl (.refl _) h₃.laid.plain
        h₃.laid.bound (fun _ _ => Iff.rfl) (fun hget => hget) rfl, ⟨h₃.nested.1, h₃.nested.2⟩⟩
    have h₅ := h₄.straight (fun _ => functionEnd_reaches he) (functionEnd_laid he h₄.laid).1
    exact ⟨h₅.nested.1, h₅.nested.2⟩

lemma items_nested {done is : List Item} {u : Unit} (h : Divided done s) (hn : Nested s)
    (hi : is.forM item s = .ok (u, s')) : Nested s' := by
  induction is generalizing done s with
  | nil =>
    obtain ⟨-, rfl⟩ := pure_ok.1 hi
    exact hn
  | cons i rest ih =>
    obtain ⟨t, hfirst, hrest⟩ := forM_cons_ok.1 hi
    exact ih (item_divided h hfirst) (item_nested h hn hfirst) hrest

/-- The loops of a program are entered through their heads. -/
theorem program_nested {p : Program} {u : Unit} (h : program p .start = .ok (u, s')) :
    Nested s' := by
  cases p with
  | stmt body => exact (stmt_looped body h looped_start).nested
  | items is => exact items_nested divided_start looped_start.nested h

end Lower

namespace Listing

/-- A loop of blocks is entered from outside through its first block only. -/
def Headed (l : Listing) : Prop :=
  ∀ ⦃a b c d⦄, l.Flows a b → b ≤ a → l.Flows c d → b < d → d ≤ a → b ≤ c ∧ c ≤ a

end Listing

namespace Lower

open Listing

/-- Labels start blocks, so loops of instructions are loops of blocks. -/
lemma Nested.headed {s : Lowering} (h : Nested s) (hs : s.Sound) : s.listing.Headed := by
  intro a b c d hab hback hcd hlt hle
  cases hab with
  | fall => exact absurd hback (Nat.not_succ_le_self a)
  | branch hx ht hb =>
    rename_i i x label
    obtain ⟨site, y, hp, hy, hact, rfl⟩ := labelBlock_placed hs hb
    have hsite : site ≤ i := by
      by_contra hout
      exact (block_lt_label hs (Nat.lt_of_not_le hout) hx hy hact).not_ge hback
    cases hcd with
    | fall => exact ⟨Nat.lt_succ_iff.1 hlt, Nat.le_of_succ_le hle⟩
    | branch hz hz' hd =>
      rename_i j z label'
      obtain ⟨site', w, hp', hw, hact', rfl⟩ := labelBlock_placed hs hd
      have hgt : site < site' := by
        by_contra hout
        exact (block_mono hs (Nat.le_of_not_lt hout) hw hy).not_gt hlt
      have hsite' : site' ≤ i := by
        by_contra hout
        exact (block_lt_label hs (Nat.lt_of_not_le hout) hx hw hact').not_ge hle
      obtain ⟨hj, hj'⟩ := h.inside ⟨x, label, hx, ht, hp⟩ hsite ⟨z, label', hz, hz', hp'⟩ hgt hsite'
      exact ⟨block_mono hs hj hy hz, block_mono hs hj' hz hx⟩

end Lower

namespace Listing

lemma ofProgram_headed {p : Source.Program} {l : Listing} (h : Listing.ofProgram p = .ok l) :
    l.Headed := by
  obtain ⟨s, hp, rfl⟩ := ofProgram_ok h
  exact (Lower.program_nested hp).headed ((Lower.program_extends hp).sound Lowering.sound_start)

/-- A change within one block leaves the loops as they are. -/
lemma Retouched.headed {b : BlockId} {l l' : Listing} (h : Retouched b l l') (hl : l.Coherent)
    (hh : l.Headed) : l'.Headed := by
  intro a b c d hab hle hcd
  rw [h.flows_iff hl] at hab hcd
  exact hh hab hle hcd

open ValueNumbering in
/-- The loops of every listing that lowering and value numbering make are entered through their
heads. -/
theorem Reachable.headed {l : Listing} (h : l.Reachable) : l.Headed :=
  h.invariant ofProgram_headed fun hb t events =>
    (scanBlock_retouched hb t events).headed hb.coherent

end Listing

end ThreeAddress
