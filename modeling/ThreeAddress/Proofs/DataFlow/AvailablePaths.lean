import ThreeAddress.Proofs.ControlFlow.Walks
import ThreeAddress.Proofs.DataFlow.Live
import ThreeAddress.Proofs.Numbering.Typing
import ThreeAddress.Proofs.Provided

/-!
Available formulas over paths. A formula is available at the top of a block exactly when every
walk that comes there from block 0, or from a block without predecessors, provides it.

The sets of a block say which formulas it provides and which it spares. What all walks provide
solves the equations, since some walk comes to each block, and by induction on the walk no
solution holds more.
-/

namespace ThreeAddress

open DataFlow ControlFlow

lemma nodup_eraseDups {α : Type} [BEq α] [LawfulBEq α] (xs : List α) : xs.eraseDups.Nodup := by
  induction hn : xs.length using Nat.strong_induction_on generalizing xs with
  | _ n ih =>
    cases xs with
    | nil => simp
    | cons x xs =>
      rw [List.eraseDups_cons, List.nodup_cons, List.mem_eraseDups]
      refine ⟨by simp, ih _ ?_ _ rfl⟩
      rw [← hn, List.length_cons]
      exact Nat.lt_succ_of_le (List.length_filter_le _ _)

/-! ### The numbers of the formulas -/

namespace DataFlow.AvailableProblem

variable {l : Listing} {formulas : List Formula} {f : Formula} {e : FormulaId} {v : VarId}
  {x : Instr}

lemma mem_formulasOf : f ∈ formulasOf l ↔ ∃ x ∈ l.instrs, Formula.ofAction l x.action = some f := by
  rw [formulasOf, List.mem_eraseDups, List.mem_filterMap]

/-- The number of a formula is its place in the list. -/
lemma idxOf?_formulasOf : (formulasOf l).idxOf? f = some e ↔ (formulasOf l)[e]? = some f := by
  rw [List.idxOf?_eq_some_iff, List.getElem?_eq_some_iff]
  refine exists_congr fun he => ⟨fun hf => hf.1, fun hf => ⟨hf, fun i hi heq => ?_⟩⟩
  have := (nodup_eraseDups _).getElem_inj_iff.1 (heq.trans hf.symm)
  omega

lemma mem_readers : e ∈ readers formulas v ↔ ∃ f, formulas[e]? = some f ∧ f.reads v = true := by
  rw [readers, List.mem_map]
  constructor
  · rintro ⟨⟨f, i⟩, hmem, rfl⟩
    obtain ⟨hmem, hreads⟩ := List.mem_filter.1 hmem
    exact ⟨f, List.mk_mem_zipIdx_iff_getElem?.1 hmem, hreads⟩
  · rintro ⟨f, hf, hreads⟩
    exact ⟨(f, e), List.mem_filter.2 ⟨List.mk_mem_zipIdx_iff_getElem?.2 hf, hreads⟩, rfl⟩

/-- An instruction loses the formulas that it does not spare. -/
lemma mem_lost (hf : formulas[e]? = some f) :
    e ∈ x.action.targetVar.elim [] (readers formulas) ↔ ¬x.action.Spares f := by
  unfold Action.Spares
  cases x.action.targetVar with
  | none => simp
  | some v => simp [mem_readers, hf]

lemma computed_iff (hf : (formulasOf l)[e]? = some f) :
    (Formula.ofAction l x.action).bind (formulasOf l).idxOf? = some e ↔
      Formula.ofAction l x.action = some f := by
  rw [Option.bind_eq_some_iff]
  constructor
  · rintro ⟨f', hf', he⟩
    rw [idxOf?_formulasOf, hf] at he
    rw [hf', he]
  · exact fun hx => ⟨f, hx, idxOf?_formulasOf.2 hf⟩

section

variable {s : Effect} (hf : (formulasOf l)[e]? = some f)

include hf

lemma contains_step_gen (hg : s.gen.Over (formulasOf l).length) :
    (s.step l (formulasOf l) x).gen.contains e = true ↔
      (s.gen.contains e = true ∨ Formula.ofAction l x.action = some f) ∧ x.action.Spares f := by
  have he : e < (formulasOf l).length := (List.getElem?_eq_some_iff.1 hf).1
  rw [← computed_iff hf, Effect.step]
  cases (Formula.ofAction l x.action).bind (formulasOf l).idxOf? with
  | none =>
    rw [Option.elim_none, BitSet.contains_eraseAll hg, mem_lost hf, not_not]
    simp
  | some i =>
    rw [Option.elim_some, BitSet.contains_eraseAll (hg.insert i), mem_lost hf, not_not,
      BitSet.contains_insert hg, Option.some.injEq]
    refine and_congr_left fun _ => or_congr_right ⟨fun hi => hi.1.symm, ?_⟩
    rintro rfl
    exact ⟨rfl, he⟩

lemma contains_step_kill (hk : s.kill.Over (formulasOf l).length) :
    (s.step l (formulasOf l) x).kill.contains e = true ↔
      s.kill.contains e = true ∨ ¬x.action.Spares f := by
  rw [Effect.step, BitSet.contains_insertAll hk, mem_lost hf]
  exact or_congr_right (and_iff_left (List.getElem?_eq_some_iff.1 hf).1)

/-- The sets of a stretch of code: what it provides, and what it does not spare. -/
lemma foldl_effect (xs : List Instr) :
    let s := xs.foldl (Effect.step l (formulasOf l))
      ⟨.empty (formulasOf l).length, .empty (formulasOf l).length⟩
    s.gen.Over (formulasOf l).length ∧ s.kill.Over (formulasOf l).length ∧
      (s.gen.contains e = true ↔ l.Provides f xs) ∧
      (s.kill.contains e = true ↔ ∃ x ∈ xs, ¬x.action.Spares f) := by
  induction xs using List.reverseRecOn with
  | nil => exact ⟨BitSet.empty_over _, BitSet.empty_over _, by simp, by simp⟩
  | append_singleton xs x ih =>
    simp only [List.foldl_append, List.foldl_cons, List.foldl_nil]
    obtain ⟨hg, hk, hgen, hkill⟩ := ih
    obtain ⟨hg', hk'⟩ := effect_step_over l (formulasOf l) hg hk x
    refine ⟨hg', hk', ?_, ?_⟩
    · rw [contains_step_gen hf hg, hgen, Listing.provides_concat]
    · rw [contains_step_kill hf hk, hkill]
      simp [or_and_right, exists_or]

end

/-- Availability in the blocks of a listing. -/
abbrev availability (l : Listing) : Problem BitSet := (ofListing l l.blocks.toArray).problem

/-- A block makes available what it provides, and leaves what it spares. -/
lemma contains_transfer (h : l.Coherent) {b : BlockId} (hb : b < l.blockCount)
    (hf : (formulasOf l)[e]? = some f) {s : BitSet} (hs : s.Over (formulasOf l).length) :
    ((availability l).transfer b s).contains e = true ↔
      l.Provides f (l.stamped b) ∨ s.contains e = true ∧ ∀ x ∈ l.stamped b, x.action.Spares f := by
  have hblock := h.getElem?_blocks hb
  obtain ⟨hg, hk, hgen, hkill⟩ := foldl_effect hf (l.stamped b)
  have htransfer : (availability l).transfer b s =
      (s.diff (effectOf l (formulasOf l) (Block.ofInstrs l (l.stamped b))).kill).union
        (effectOf l (formulasOf l) (Block.ofInstrs l (l.stamped b))).gen := by
    simp [availability, problem, ofListing, hblock]
  rw [htransfer, effectOf, h.filterMap_ofInstrs, BitSet.contains_union (hs.diff hk) hg,
    BitSet.contains_diff hs hk, Bool.or_eq_true, hgen, Bool.and_eq_true, Bool.not_eq_true',
    ← Bool.not_eq_true, hkill, or_comm]
  simp

end DataFlow.AvailableProblem

/-! ### Where walks start -/

namespace Listing

variable {l : Listing} {a b e : BlockId}

open ValueNumbering in
/-- The labels of functions are marked as such. -/
lemma Reachable.function_label (h : l.Reachable) : ∀ {name f}, l.functions.get? name = some f →
    ∃ info, l.labels.get? f.label = some info ∧ info.isFunction = true := by
  refine h.invariant (P := fun l => ∀ {name f}, l.functions.get? name = some f →
    ∃ info, l.labels.get? f.label = some info ∧ info.isFunction = true) (fun hp => ?_)
    fun hb t events hl => ?_
  · obtain ⟨s, hlower, rfl⟩ := ofProgram_ok hp
    obtain ⟨done, htabled⟩ := Lower.program_tabled hlower
    intro name f hf
    obtain ⟨info, hinfo, hname⟩ := htabled.label hf
    exact ⟨info, hinfo, by rw [Label.isFunction, hname]⟩
  · have hr := scanBlock_retouched hb t events
    rwa [hr.labels, hr.functions]

/-- Two labels do not stand in one block. -/
lemma Coherent.label_inj (h : l.Coherent) {label label' : LabelId}
    (hb : l.labelBlock? label = some b) (hb' : l.labelBlock? label' = some b) :
    label = label' := by
  obtain ⟨x, hx, hact, -⟩ := h.instrAt?_position hb
  obtain ⟨y, hy, hact', -⟩ := h.instrAt?_position hb'
  rw [h.position_eq_top hb, ← h.position_eq_top hb'] at hx
  obtain rfl := Option.some.inj (hx.symm.trans hy)
  exact Action.label.inj (hact.symm.trans hact')

/-- No block leads to the entry of a function, unless it is block 0. -/
lemma Reachable.entry_unreached (h : l.Reachable) (he : l.Entry e) (hne : e ≠ 0) :
    ¬l.Flows a e := by
  intro hf
  cases hf with
  | fall _ hpath =>
    obtain ⟨i, x, hx, hblock, hends⟩ := h.sectioned.closed he
    rw [hpath hx hblock] at hends
    cases hends
  | branch hx ht hb =>
    obtain rfl | ⟨name, f, hf, hb'⟩ := he
    · exact hne rfl
    · obtain ⟨⟨info, hinfo, hname⟩, -⟩ := h.sectioned.branch hx ht
      obtain ⟨info', hinfo', hname'⟩ := h.function_label hf
      rw [h.coherent.label_inj hb hb', hinfo'] at hinfo
      obtain rfl := Option.some.inj hinfo
      rw [hname] at hname'
      cases hname'

end Listing

namespace FlowGraph

open Listing
open DataFlow.AvailableProblem (formulasOf availability contains_transfer mem_formulasOf)

/-- Block 0, and the blocks without predecessors. -/
def Initial (g : FlowGraph) (b : BlockId) : Prop := b = 0 ∨ g.pred b = []

/-- Every walk from an initial block to the top of the block provides the formula. -/
def Provided (g : FlowGraph) (b : BlockId) (f : Formula) : Prop :=
  ∀ a es, g.Initial a → g.Walk a b es → g.listing.Provides f (g.passed es)

variable {l : Listing} {settings : AnalysisSettings} {b : BlockId} {f : Formula} {e : FormulaId}

lemma initial_iff (h : l.Coherent) (hs : l.Sectioned) :
    (drawn l settings).Initial b ↔ b = 0 ∨ ∀ a, ¬l.Flows a b := by
  rw [Initial, List.eq_nil_iff_forall_not_mem]
  simp only [mem_pred_iff h hs]

section

variable (h : l.Reachable)

include h

/-- Some walk comes to each block. -/
lemma exists_walk (settings : AnalysisSettings) (hb : b < l.blockCount) :
    ∃ a es, (drawn l settings).Initial a ∧ (drawn l settings).Walk a b es := by
  obtain ⟨a, ha, -, hleads⟩ := h.sectioned.exists_entry h.coherent hb
  have hwalk : ∃ es, (drawn l settings).Walk a b es := by
    clear hb
    induction hleads with
    | refl => exact ⟨[], .nil a⟩
    | tail _ hf ih =>
      obtain ⟨es, hw⟩ := ih
      obtain ⟨e, he, rfl, rfl⟩ := exists_edge h.coherent h.sectioned settings hf
      exact ⟨_, hw.concat he⟩
  obtain ⟨es, hw⟩ := hwalk
  refine ⟨a, es, (initial_iff h.coherent h.sectioned).2 ?_, hw⟩
  by_cases hzero : a = 0
  · exact .inl hzero
  · exact .inr fun c => h.entry_unreached ha hzero

/-- What all walks provide is what the equations say: nothing at an initial block, and elsewhere
what each block before provides, or leaves of what all walks to it provide. -/
lemma provided_iff : (drawn l settings).Provided b f ↔ ¬(drawn l settings).Initial b ∧
    ∀ c, l.Flows c b → l.Provides f (l.stamped c) ∨
      (drawn l settings).Provided c f ∧ ∀ x ∈ l.stamped c, x.action.Spares f := by
  have hc := h.coherent
  have hs := h.sectioned
  constructor
  · intro hall
    refine ⟨fun hinit => not_provides_nil (hall b [] hinit (.nil b)), fun c hf => ?_⟩
    obtain ⟨e, he, rfl, rfl⟩ := exists_edge hc hs settings hf
    have hcase {a : BlockId} {es : List Edge} (hinit : (drawn l settings).Initial a)
        (hw : (drawn l settings).Walk a e.source es) := hall a _ hinit (hw.concat he)
    simp only [passed_concat, code_drawn hc, provides_append] at hcase
    by_cases hprovides : l.Provides f (l.stamped e.source)
    · exact .inl hprovides
    · obtain ⟨a, es, hinit, hw⟩ := exists_walk h settings (hc.flows_source_lt hf)
      refine .inr ⟨fun a es hinit hw => ?_, ?_⟩
      · exact ((hcase hinit hw).resolve_left hprovides).1
      · exact ((hcase hinit hw).resolve_left hprovides).2
  · rintro ⟨hnot, hall⟩ a es hinit hw
    cases es using List.reverseRecOn with
    | nil => exact absurd (hw.eq_of_nil ▸ hinit) hnot
    | append_singleton es e =>
      obtain ⟨he, hfront, rfl⟩ := hw.last
      rw [passed_concat, code_drawn hc, provides_append]
      exact (hall e.source (flows_of_mem_edges hc hs he)).imp_right fun hprovided =>
        ⟨hprovided.1 a es hinit hfront, hprovided.2⟩

/-- What all walks provide is computed somewhere, as there is a walk. -/
lemma mem_formulasOf_of_provided (hb : b < l.blockCount) (hf : (drawn l settings).Provided b f) :
    f ∈ formulasOf l := by
  obtain ⟨a, es, hinit, hw⟩ := exists_walk h settings hb
  obtain ⟨x, hx, hof⟩ := (hf a es hinit hw).exists_mem
  obtain ⟨e, -, hx⟩ := List.mem_flatMap.1 hx
  rw [code_drawn h.coherent] at hx
  exact mem_formulasOf.2 ⟨x, (List.mem_filter.1 hx).1, hof⟩

/-! ### The sets that the analysis finds -/

/-- A formula is met at the top of a block when it flows out of all blocks before, and there is
one. -/
lemma contains_dueMet_available {flown : Nat → BitSet}
    (hflown : ∀ b, (flown b).Over (formulasOf l).length) (he : e < (formulasOf l).length) :
    ((availability l).dueMet (drawn l settings).view flown b).contains e = true ↔
      ¬(drawn l settings).Initial b ∧ ∀ c, l.Flows c b → (flown c).contains e = true := by
  have hmeet (blocks : List Nat) :
      ((availability l).meetOver flown blocks).Over (formulasOf l).length ∧
      (((availability l).meetOver flown blocks).contains e = true ↔
        ∀ c ∈ blocks, (flown c).contains e = true) := by
    induction blocks using List.reverseRecOn with
    | nil =>
      refine ⟨BitSet.full_over _, iff_of_true ?_ (by simp)⟩
      show (BitSet.full (formulasOf l).length).contains e = true
      rwa [BitSet.contains_full, decide_eq_true_iff]
    | append_singleton blocks c ih =>
      rw [Problem.meetOver_append]
      refine ⟨ih.1.inter (hflown c), ?_⟩
      show (BitSet.inter _ _).contains e = true ↔ _
      rw [BitSet.contains_inter ih.1 (hflown c), Bool.and_eq_true, ih.2, List.forall_mem_append,
        List.forall_mem_singleton]
  have hinto (c : Nat) : c ∈ (drawn l settings).view.into (availability l).direction b ↔ l.Flows c b :=
    mem_view_pred h.coherent h.sectioned
  have hbound : (drawn l settings).view.AtBoundary (availability l).direction b ↔
      (drawn l settings).Initial b := by
    rw [initial_iff h.coherent h.sectioned, View.AtBoundary, List.eq_nil_iff_forall_not_mem]
    simp only [hinto]
    exact or_congr (and_iff_right rfl) Iff.rfl
  by_cases hinit : (drawn l settings).Initial b
  · rw [Problem.dueMet, if_pos (hbound.2 hinit)]
    show (BitSet.empty _).contains e = true ↔ _
    simp [hinit]
  · rw [Problem.dueMet, if_neg fun hat => hinit (hbound.1 hat), (hmeet _).2]
    simp only [hinto, hinit, not_false_eq_true, true_and]

/-- The numbers of the formulas that all walks to a block provide. -/
noncomputable def providedSet (l : Listing) (settings : AnalysisSettings) (b : BlockId) : BitSet :=
  setOf (formulasOf l).length fun e =>
    ∃ f, (formulasOf l)[e]? = some f ∧ (drawn l settings).Provided b f

omit h in
lemma contains_providedSet (hf : (formulasOf l)[e]? = some f) :
    (providedSet l settings b).contains e = true ↔ (drawn l settings).Provided b f := by
  rw [providedSet, contains_setOf]
  · simp [hf]
  · rintro e ⟨f, hf, -⟩
    exact (List.getElem?_eq_some_iff.1 hf).1

/-- What all walks provide solves the equations. -/
lemma provided_solves : (availability l).Solves (drawn l settings).view (providedSet l settings)
    fun b => (availability l).transfer b (providedSet l settings b) := by
  have hlawful : (availability l).Lawful {s | s.Over (formulasOf l).length} :=
    available_lawful l l.blocks.toArray
  have hover (b : Nat) : (providedSet l settings b).Over (formulasOf l).length := setOf_over _ _
  have hflown (b : Nat) := hlawful.transfer_mem b _ (hover b)
  refine fun b _ => ⟨(hover b).ext (Problem.dueMet_mem hlawful hflown _ b) fun e => ?_, rfl⟩
  by_cases he : e < (formulasOf l).length
  · have hf := List.getElem?_eq_getElem he
    rw [Bool.eq_iff_iff, contains_providedSet hf, contains_dueMet_available h hflown he,
      provided_iff h]
    refine and_congr_right fun _ => forall₂_congr fun c hc => ?_
    rw [contains_transfer h.coherent (h.coherent.flows_source_lt hc) hf (hover c),
      contains_providedSet hf]
  · rw [(hover b).not_contains (Nat.le_of_not_lt he),
      BitSet.Over.not_contains (Problem.dueMet_mem hlawful hflown _ b) (Nat.le_of_not_lt he)]

/-- The greatest solution holds what all walks provide: by induction on the walk it holds no
more, and what they provide is a solution below it. -/
lemma greatest_provided {s : States BitSet} (hg : (availability l).Greatest (drawn l settings).view
      {s | s.Over (formulasOf l).length} s) (hf : (formulasOf l)[e]? = some f)
    (hb : b < l.blockCount) :
    ((availability l).metAt s b).contains e = true ↔ (drawn l settings).Provided b f := by
  have hlawful : (availability l).Lawful {s | s.Over (formulasOf l).length} :=
    available_lawful l l.blocks.toArray
  have hover (b : Nat) : (providedSet l settings b).Over (formulasOf l).length := setOf_over _ _
  have hsize {c : Nat} (hc : c < l.blockCount) : c < (drawn l settings).view.size := by
    simpa [view, blockCount_drawn h.coherent] using hc
  constructor
  · intro hmet a es hinit hw
    induction es using List.reverseRecOn generalizing b with
    | nil =>
      rw [(hg.solves b (hsize hb)).1, contains_dueMet_available h hg.flown_mem
        (List.getElem?_eq_some_iff.1 hf).1] at hmet
      exact absurd (hw.eq_of_nil ▸ hinit) hmet.1
    | append_singleton es edge ih =>
      obtain ⟨hedge, hfront, rfl⟩ := hw.last
      have hflows := flows_of_mem_edges h.coherent h.sectioned hedge
      have hlt := h.coherent.flows_source_lt hflows
      rw [(hg.solves _ (hsize hb)).1, contains_dueMet_available h hg.flown_mem
        (List.getElem?_eq_some_iff.1 hf).1] at hmet
      have hflown := hmet.2 edge.source hflows
      rw [(hg.solves _ (hsize hlt)).2, contains_transfer h.coherent hlt hf (hg.met_mem _)] at hflown
      rw [passed_concat, code_drawn h.coherent, provides_append]
      exact hflown.imp_right fun hbefore => ⟨ih hlt hbefore.1 hfront, hbefore.2⟩
  · intro hall
    obtain ⟨hmet, -⟩ := hg.above _ _ hover (fun b => hlawful.transfer_mem b _ (hover b))
      (provided_solves h) b (hsize hb)
    refine (inter_eq_left (hover b) (hg.met_mem b)).1 hmet e ?_
    exact (contains_providedSet hf).2 hall

end

end FlowGraph

namespace Listing

variable {l : Listing}

open FlowGraph
open DataFlow.AvailableProblem (formulasOf availability mem_formulasOf idxOf?_formulasOf)

/-- **Availability is exact**: by every strategy, the formulas before a block are those that all
walks to the block provide. The formulas that have a number are those that some instruction
computes, and the number tells which formula it is. -/
theorem Reachable.available_exact (h : l.Reachable) (hne : l.stream ≠ [])
    (settings : AnalysisSettings) :
    ∃ g avail, FlowGraph.ofListing l settings = .ok g ∧ g.listing = l ∧ g.available = .ok avail ∧
      (∀ strategy, g.availableBy strategy = .ok avail) ∧
      (∀ b < g.blockCount, ∀ f, avail.isAvailableIn b f = true ↔ g.Provided b f) ∧
      (∀ f, (avail.lookup f).isSome = true ↔
        ∃ i ∈ l.stream, ∃ x, l.instr? i = some x ∧ Formula.ofAction l x.action = some f) ∧
      (∀ f e, avail.lookup f = some e ↔ avail.formula? e = some f) ∧
      ∀ f f' e, avail.lookup f = some e → avail.lookup f' = some e → f = f' := by
  have hc := h.coherent
  obtain ⟨s, hgreatest, hsolve⟩ := Problem.solve_greatest (available_lawful l l.blocks.toArray)
    (view_sound hc h.sectioned settings) (available_bounds l l.blocks.toArray)
  have hby (strategy : Strategy) : (drawn l settings).availableBy strategy =
      .ok ⟨formulasOf l, s.met, s.flown⟩ := by
    obtain ⟨n, hn⟩ := hsolve strategy
    show Available.compute l l.blocks.toArray (drawn l settings).view strategy = _
    rw [Available.compute, hn]
    rfl
  refine ⟨drawn l settings, _, ofListing_eq hc h.sectioned hne settings, rfl, hby _, hby,
    fun b hb f => ?_, fun f => ?_, fun f e => idxOf?_formulasOf, fun f f' e hf hf' => ?_⟩
  · rw [blockCount_drawn hc] at hb
    have hsize : b < (drawn l settings).view.size := by simpa [view, blockCount_drawn hc] using hb
    have hin : s.met[b]? = some ((availability l).metAt s b) := by
      have hlt : b < s.met.size := hgreatest.met_size.symm ▸ hsize
      simp [Problem.metAt, hlt]
    rw [Available.isAvailableIn, Available.lookup, hin]
    cases he : (formulasOf l).idxOf? f with
    | none =>
      refine iff_of_false (by simp) fun hf => ?_
      exact List.idxOf?_eq_none_iff.1 he (mem_formulasOf_of_provided h hb hf)
    | some e =>
      rw [Option.any_some, Option.any_some]
      exact greatest_provided h hgreatest (idxOf?_formulasOf.1 he) hb
  · rw [Available.lookup, List.isSome_idxOf?, mem_formulasOf]
    simp only [instrs, List.mem_filterMap]
    constructor
    · rintro ⟨x, ⟨i, hi, hx⟩, hf⟩
      exact ⟨i, hi, x, hx, hf⟩
    · rintro ⟨i, hi, x, hx, hf⟩
      exact ⟨x, ⟨i, hi, hx⟩, hf⟩
  · exact Option.some.inj ((idxOf?_formulasOf.1 hf).symm.trans (idxOf?_formulasOf.1 hf'))

/-- After the loop of the second function every walk has made the test `n < 1` since the last
assignment of `n`, variable 4; the sum `n + 2` was lost when it was assigned to `n`. -/
theorem Reachable.available_exact_parity : ∃ l g, Listing.ofProgram parityProgram = .ok l ∧
    FlowGraph.ofListing (ValueNumbering.run .standard l).1 .standard = .ok g ∧
    g.Provided 6 ⟨.var 4, .binary .lt, .int 1⟩ ∧ ¬g.Provided 6 ⟨.var 4, .binary .add, .int 2⟩ := by
  have hok : ((Listing.ofProgram parityProgram).toOption.map fun l =>
      ((ValueNumbering.run .standard l).1.stream.isEmpty,
        (FlowGraph.ofListing (ValueNumbering.run .standard l).1 .standard).toOption.bind fun g =>
          (g.availableBy .fullPass).toOption.map fun avail =>
            (g.blockCount, avail.isAvailableIn 6 ⟨.var 4, .binary .lt, .int 1⟩,
              avail.isAvailableIn 6 ⟨.var 4, .binary .add, .int 2⟩))) =
      some (false, some (7, true, false)) := by decide +kernel
  obtain ⟨l, hl, hok⟩ := toOption_map_eq_some.1 hok
  simp only [Prod.mk.injEq] at hok
  obtain ⟨hne, hsets⟩ := hok
  have hne : (ValueNumbering.run .standard l).1.stream ≠ [] := by simpa using hne
  obtain ⟨g, avail, hg, -, -, hby, hexact, -⟩ :=
    Reachable.available_exact (.numbered .standard (.lowered hl)) hne .standard
  simp only [hg, hby, Except.toOption, Option.bind_some, Option.map_some, Option.some.injEq,
    Prod.mk.injEq] at hsets
  obtain ⟨hcount, htest, hsum⟩ := hsets
  have hexact := hexact 6 (by rw [hcount]; decide)
  refine ⟨l, g, hl, hg, (hexact _).1 htest, fun hprovided => ?_⟩
  rw [(hexact _).2 hprovided] at hsum
  cases hsum

end Listing

end ThreeAddress
