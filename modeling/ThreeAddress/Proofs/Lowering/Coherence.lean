import ThreeAddress.Proofs.Lowering.Steps

/-!
Lowering makes coherent listings. The invariant of lowering adds to coherence that the
stream is in the order of the arena, and what the state remembers of the last instruction:
the current block is the block of that instruction, or the next one if it was ended.
-/

namespace ThreeAddress

namespace Functions

lemma declare_new {t : Functions} {name : String} (h : t.get? name = none) (labels : Labels)
    (returns : Ty) (params : List Ty) (define : Bool) :
    t.declare labels name returns params define =
      .ok (⟨t.entries ++ [(name, ⟨returns, params, labels.size, define⟩)]⟩,
        labels.push (.function name), ⟨returns, params, labels.size, define⟩) := by
  unfold declare
  rw [h]
  rfl

lemma declare_again {t : Functions} {name : String} {old : Signature}
    (h : t.get? name = some old) (labels : Labels) (returns : Ty) (params : List Ty)
    (define : Bool) :
    t.declare labels name returns params define =
      if old.returns = returns ∧ old.params = params ∧ ¬(define ∧ old.defined) then
        .ok (t.update name { old with defined := old.defined || define }, labels,
          { old with defined := old.defined || define })
      else .error (.duplicateDeclaration name .outermost) := by
  unfold declare
  rw [h]
  change (if _ then _ else _) = _
  split_ifs with hne heq heq
  · grind
  · rfl
  · rfl
  · grind

/-- A declaration repeats an old one, or its function is new and gets a label. -/
lemma declare_cases {t t' : Functions} {labels labels' : Labels} {name : String} {returns : Ty}
    {params : List Ty} {define : Bool} {f : Signature}
    (h : t.declare labels name returns params define = .ok (t', labels', f)) :
    (∃ old, t.get? name = some old ∧
      (old.returns = returns ∧ old.params = params ∧ ¬(define ∧ old.defined)) ∧
      f = { old with defined := old.defined || define } ∧ t' = t.update name f ∧
      labels' = labels) ∨
    (t.get? name = none ∧ f = ⟨returns, params, labels.size, define⟩ ∧
      t' = ⟨t.entries ++ [(name, f)]⟩ ∧ labels' = labels.push (.function name)) := by
  cases hold : t.get? name with
  | none =>
    rw [declare_new hold] at h
    cases h
    exact .inr ⟨rfl, rfl, rfl, rfl⟩
  | some old =>
    rw [declare_again hold] at h
    split at h
    · rename_i hsame
      cases h
      exact .inl ⟨old, rfl, hsame, rfl, rfl, rfl⟩
    · cases h

end Functions

namespace Lowering

/-- The current block fits the last instruction. -/
def Stamped (s : Lowering) : Option Instr → Prop
  | none => s.block = 0 ∧ s.blockStarted = false
  | some x =>
    if s.blockStarted then x.block = s.block ∧ x.action.operator.endsBlock = false
    else s.block = x.block + 1 ∧ x.action.operator.endsBlock = true

structure Sound (s : Lowering) : Prop where
  coherent : s.listing.Coherent
  stream : s.listing.stream = List.range s.listing.arena.size
  stamped : s.Stamped s.listing.arena.back?

lemma sound_start : Sound .start := by
  refine ⟨⟨?_, ?_, ?_, ?_, ?_, ?_⟩, ?_, ?_⟩ <;>
    simp [start, Listing.empty, Listing.instr?, Listing.instrs, Labels.empty, Labels.get?, Stamped]

/-- An instruction that follows the last one may be emitted. -/
lemma Sound.emit {s s' : Lowering} {action : Action} {id : InstrId} (h : s.Sound)
    (hscope : action.InScope s.listing) (hlabel : action.definedLabel = none)
    (he : s.emit action = .ok (s', id)) : s'.Sound := by
  obtain ⟨rfl, ty, -, hl, -, -, -, hstarted, hblock⟩ := emit_eq he
  have hfirst : s.listing.arena.size = 0 → s.block = 0 := by
    intro h0
    have := h.stamped
    rw [Array.size_eq_zero_iff.1 h0] at this
    exact this.1
  have hfollows : ∀ y ∈ s.listing.arena.back?,
      y.Follows ⟨s.listing.arena.size, action, ty, s.block⟩ := by
    intro y hy
    have hst := h.stamped
    rw [hy] at hst
    unfold Instr.Follows Instr.cuts
    simp only [Stamped] at hst
    split at hst
    · simp [hst.1, hst.2, hlabel]
    · simp [hst.1, hst.2]
  obtain ⟨hcoh, hstream⟩ := h.coherent.append h.stream
    (x := ⟨s.listing.arena.size, action, ty, s.block⟩) rfl hscope hfirst hfollows
  refine ⟨by rw [hl]; exact hcoh, by rw [hl]; exact hstream, ?_⟩
  rw [hl]
  cases hend : action.operator.endsBlock <;> simp [Stamped, hstarted, hblock, hend]

/-- A label may be placed anywhere. -/
lemma Sound.startAt {s s' : Lowering} {label : LabelId} (h : s.Sound)
    (hs : s.startAt label = .ok s') : s'.Sound := by
  obtain ⟨t, he, hlt, rfl⟩ := startAt_eq hs
  obtain ⟨-, ty, -, hl, -, -, -, hstarted, hblock⟩ := emit_eq he
  rw [leaveBlock_listing] at hl
  set x : Instr := ⟨s.listing.arena.size, .label label, ty, s.leaveBlock.block⟩ with hx
  have hfirst : s.listing.arena.size = 0 → x.block = 0 := by
    intro h0
    have hst := h.stamped
    rw [Array.size_eq_zero_iff.1 h0] at hst
    simp [hx, leaveBlock, hst.1, hst.2]
  have hfollows : ∀ y ∈ s.listing.arena.back?, y.Follows x := by
    intro y hy
    have hst := h.stamped
    rw [hy] at hst
    unfold Instr.Follows Instr.cuts
    simp only [Stamped] at hst
    split at hst
    · simp_all [leaveBlock, Action.definedLabel]
    · simp_all [leaveBlock, Action.definedLabel]
  obtain ⟨hcoh, hstream⟩ := h.coherent.append h.stream (x := x) rfl trivial hfirst hfollows
  rw [← hl] at hcoh
  have hnew : t.listing.instr? s.listing.arena.size = some x := by simp [hl, Listing.instr?]
  refine ⟨hcoh.of_tables rfl rfl le_rfl ?_, by simpa [hl] using hstream, ?_⟩
  · intro label' info site hinfo hsite
    simp only [Labels.get?, Array.getElem?_modify] at hinfo
    split at hinfo
    · rename_i heq
      subst heq
      obtain ⟨old, -, rfl⟩ := Option.map_eq_some_iff.1 hinfo
      obtain rfl : _ = site := Option.some.inj hsite
      exact ⟨x, hnew, rfl⟩
    · exact hcoh.sites hinfo hsite
  · simp [hl, hx, Stamped, hstarted, hblock, Action.operator, Operator.endsBlock]

lemma Sound.of_tables {s s' : Lowering} (h : s.Sound)
    (harena : s'.listing.arena = s.listing.arena) (hstream : s'.listing.stream = s.listing.stream)
    (hvars : s.listing.vars.size ≤ s'.listing.vars.size)
    (hsites : ∀ {label info site}, s'.listing.labels.get? label = some info →
      info.site = some site → s.listing.labels.get? label = some info)
    (hblock : s'.block = s.block) (hstarted : s'.blockStarted = s.blockStarted) : s'.Sound := by
  refine ⟨h.coherent.of_tables harena hstream hvars fun hl hs =>
    h.coherent.sites (hsites hl hs) hs, by rw [hstream, harena, h.stream], ?_⟩
  have hst := h.stamped
  unfold Stamped at hst ⊢
  rwa [harena, hblock, hstarted]

/-- A new label has no site. -/
lemma get?_push {t : Labels} {name : LabelName} {label : LabelId} {info : Label}
    {site : InstrId} (h : (t.push name).get? label = some info) (hsite : info.site = some site) :
    t.get? label = some info := by
  simp only [Labels.push, Labels.get?, Array.getElem?_push] at h ⊢
  split at h
  · obtain rfl : _ = info := Option.some.inj h
    simp at hsite
  · exact h

lemma declare_labels {t t' : Functions} {labels labels' : Labels} {name : String} {returns : Ty}
    {params : List Ty} {define : Bool} {f : Signature}
    (h : t.declare labels name returns params define = .ok (t', labels', f)) :
    labels' = labels ∨ labels' = labels.push (.function name) := by
  obtain ⟨-, -, -, -, -, hlabels⟩ | ⟨-, -, -, hlabels⟩ := Functions.declare_cases h
  · exact .inl hlabels
  · exact .inr hlabels

lemma Step.sound {k : Nat} {s s' : Lowering} (hstep : Step k s s') (h : s.Sound) :
    s'.Sound := by
  cases hstep with
  | emit he hscope hlabel => exact h.emit hscope hlabel he
  | startAt hs _ => exact h.startAt hs
  | freshLabel => exact h.of_tables rfl rfl le_rfl (fun hl hs => get?_push hl hs) rfl rfl
  | freshTemporary ty =>
    exact h.of_tables rfl rfl (Step.freshTemporary (k := k) s ty).grows.vars (fun hl _ => hl) rfl rfl
  | freshVariable name ty scope marks =>
    exact h.of_tables rfl rfl (Step.freshVariable (k := k) s name ty scope marks).grows.vars
      (fun hl _ => hl) rfl rfl
  | _ => exact h.of_tables rfl rfl le_rfl (fun hl _ => hl) rfl rfl

lemma ItemStep.sound {s s' : Lowering} (hstep : ItemStep s s') (h : s.Sound) : s'.Sound := by
  cases hstep with
  | step hs => exact hs.sound h
  | context => exact h.of_tables rfl rfl le_rfl (fun hl _ => hl) rfl rfl
  | declareFunction hd =>
    obtain ⟨functions, labels, hdeclare, rfl⟩ := declareFunction_eq hd
    refine h.of_tables rfl rfl le_rfl (fun hl hs => ?_) rfl rfl
    obtain rfl | rfl := declare_labels hdeclare
    · exact hl
    · exact get?_push hl hs

lemma Extends.sound {s s' : Lowering} (hr : Extends s s') (h : s.Sound) : s'.Sound := by
  induction hr with
  | refl => exact h
  | tail _ hstep ih => exact hstep.sound ih

end Lowering

/-- The listing of a program is coherent. -/
theorem Listing.ofProgram_coherent {p : Source.Program} {l : Listing}
    (h : Listing.ofProgram p = .ok l) : l.Coherent := by
  obtain ⟨s, hp, rfl⟩ := ofProgram_ok h
  exact ((Lower.program_extends hp).sound Lowering.sound_start).coherent

end ThreeAddress
