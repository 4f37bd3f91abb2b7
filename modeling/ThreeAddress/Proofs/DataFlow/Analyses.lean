import Mathlib
import ThreeAddress.DataFlow.Available
import ThreeAddress.DataFlow.Liveness
import ThreeAddress.Proofs.DataFlow.Strategies

/-!
Live variables and available formulas are lawful problems over the sets of one domain, so both
strategies solve them alike. In each the transfer of a block keeps some elements and makes
others, whatever the state, and is monotone for that reason.
-/

namespace ThreeAddress.DataFlow

open BitSet

/-! ### Problems over packed sets -/

/-- A function that keeps some elements and makes others, the same ones for every set. -/
def KeepsAndMakes (n : Nat) (f : BitSet → BitSet) : Prop :=
  ∃ kept made : Nat → Bool, ∀ s, s.Over n →
    (f s).Over n ∧ ∀ i, (f s).contains i = (s.contains i && kept i || made i)

lemma KeepsAndMakes.id (n : Nat) : KeepsAndMakes n fun s => s :=
  ⟨fun _ => true, fun _ => false, fun _ hs => ⟨hs, by simp⟩⟩

lemma finite_over (n : Nat) : {s : BitSet | s.Over n}.Finite := by
  refine Set.Finite.of_finite_image (f := elements n)
    ((Finset.range n).powerset.finite_toSet.subset ?_) ?_
  · rintro _ ⟨s, -, rfl⟩
    exact Finset.mem_coe.mpr (Finset.mem_powerset.mpr (Finset.filter_subset _ _))
  · exact fun s hs t ht heq => Over.ext_elements hs ht heq

section Sets

variable {p : Problem BitSet} {n : Nat}

lemma union_eq_left {s t : BitSet} (hs : s.Over n) (ht : t.Over n) :
    s.union t = s ↔ ∀ i, t.contains i → s.contains i := by
  constructor
  · intro h i hi
    rw [← h, contains_union hs ht, hi, Bool.or_true]
  · intro h
    refine (hs.union ht).ext hs fun i => ?_
    rw [contains_union hs ht]
    cases hi : t.contains i
    · simp
    · simp [h i hi]

lemma inter_eq_left {s t : BitSet} (hs : s.Over n) (ht : t.Over n) :
    s.inter t = s ↔ ∀ i, s.contains i → t.contains i := by
  constructor
  · intro h i hi
    rw [← h, contains_inter hs ht, Bool.and_eq_true] at hi
    exact hi.2
  · intro h
    refine (hs.inter ht).ext hs fun i => ?_
    rw [contains_inter hs ht]
    cases hi : s.contains i
    · simp
    · simp [h i hi]

/-- Sets that meet in their union, from the empty one. -/
lemma lawful_union (hmeet : p.meet = BitSet.union) (hinit : p.initial = .empty n)
    (hbound : p.boundary.Over n) (htransfer : ∀ b, KeepsAndMakes n (p.transfer b)) :
    p.Lawful {s | s.Over n} where
  boundary_mem := hbound
  initial_mem := hinit ▸ empty_over n
  meet_mem s hs t ht := hmeet ▸ hs.union ht
  transfer_mem b s hs := by
    obtain ⟨_, _, h⟩ := htransfer b
    exact (h s hs).1
  meet_self s hs := by
    rw [hmeet]
    exact (union_eq_left hs hs).mpr fun _ h => h
  meet_comm s hs t ht := by
    rw [hmeet]
    refine (hs.union ht).ext (ht.union hs) fun i => ?_
    rw [contains_union hs ht, contains_union ht hs, Bool.or_comm]
  meet_assoc s hs t ht u hu := by
    rw [hmeet]
    refine ((hs.union ht).union hu).ext (hs.union (ht.union hu)) fun i => ?_
    rw [contains_union (hs.union ht) hu, contains_union hs ht, contains_union hs (ht.union hu),
      contains_union ht hu, Bool.or_assoc]
  initial_meet s hs := by
    rw [hmeet, hinit]
    refine ((empty_over n).union hs).ext hs fun i => ?_
    rw [contains_union (empty_over n) hs]
    simp
  monotone b s hs t ht hst := by
    obtain ⟨kept, made, h⟩ := htransfer b
    rw [Problem.Below, hmeet] at hst ⊢
    rw [union_eq_left hs ht] at hst
    refine (union_eq_left (h s hs).1 (h t ht).1).mpr fun i hi => ?_
    rw [(h t ht).2] at hi
    rw [(h s hs).2]
    cases hti : t.contains i
    · simp_all
    · simp_all [hst i hti]

/-- Sets that meet in their intersection, from the full one. -/
lemma lawful_inter (hmeet : p.meet = BitSet.inter) (hinit : p.initial = .full n)
    (hbound : p.boundary.Over n) (htransfer : ∀ b, KeepsAndMakes n (p.transfer b)) :
    p.Lawful {s | s.Over n} where
  boundary_mem := hbound
  initial_mem := hinit ▸ full_over n
  meet_mem s hs t ht := hmeet ▸ hs.inter ht
  transfer_mem b s hs := by
    obtain ⟨_, _, h⟩ := htransfer b
    exact (h s hs).1
  meet_self s hs := by
    rw [hmeet]
    exact (inter_eq_left hs hs).mpr fun _ h => h
  meet_comm s hs t ht := by
    rw [hmeet]
    refine (hs.inter ht).ext (ht.inter hs) fun i => ?_
    rw [contains_inter hs ht, contains_inter ht hs, Bool.and_comm]
  meet_assoc s hs t ht u hu := by
    rw [hmeet]
    refine ((hs.inter ht).inter hu).ext (hs.inter (ht.inter hu)) fun i => ?_
    rw [contains_inter (hs.inter ht) hu, contains_inter hs ht, contains_inter hs (ht.inter hu),
      contains_inter ht hu, Bool.and_assoc]
  initial_meet s hs := by
    rw [hmeet, hinit]
    refine ((full_over n).inter hs).ext hs fun i => ?_
    rw [contains_inter (full_over n) hs, contains_full]
    by_cases hi : i < n
    · simp [hi]
    · simp [Over.not_contains hs (Nat.le_of_not_lt hi)]
  monotone b s hs t ht hst := by
    obtain ⟨kept, made, h⟩ := htransfer b
    rw [Problem.Below, hmeet] at hst ⊢
    rw [inter_eq_left hs ht] at hst
    refine (inter_eq_left (h s hs).1 (h t ht).1).mpr fun i hi => ?_
    rw [(h s hs).2] at hi
    rw [(h t ht).2]
    cases hsi : s.contains i
    · simp_all
    · simp_all [hst i hsi]

/-- Under unions a set descends by gaining elements. -/
lemma bounds_union (hmeet : p.meet = BitSet.union) (hheight : p.height = n) :
    p.Bounds {s | s.Over n} := by
  refine Problem.bounds_of_measure (fun s => n - (s.elements n).card)
    (fun s _ => by omega) fun s hs t ht hst hne => ?_
  rw [Problem.Below, hmeet, union_eq_left hs ht] at hst
  have hlt := card_elements_lt ht hs hne.symm hst
  have hle := card_elements_le n s
  omega

/-- Under intersections a set descends by losing elements. -/
lemma bounds_inter (hmeet : p.meet = BitSet.inter) (hheight : p.height = n) :
    p.Bounds {s | s.Over n} := by
  refine Problem.bounds_of_measure (fun s => (s.elements n).card)
    (fun s _ => hheight ▸ card_elements_le n s) fun s hs t ht hst hne => ?_
  rw [Problem.Below, hmeet, inter_eq_left hs ht] at hst
  exact card_elements_lt hs ht hne hst

end Sets

/-! ### Live variables -/

lemma summary_step_over {l : Listing} {n : Nat} {s : Block.Summary} (hd : s.defs.Over n)
    (he : s.exposed.Over n) (instr : Instr) :
    (s.step l instr).defs.Over n ∧ (s.step l instr).exposed.Over n := by
  refine ⟨?_, he.insertAll _⟩
  rw [Block.Summary.step]
  cases instr.action.targetVar with
  | none => exact hd
  | some v => exact hd.insert v

lemma ofInstrs_over (l : Listing) (instrs : List Instr) :
    (Block.ofInstrs l instrs).defs.Over l.vars.size ∧
      (Block.ofInstrs l instrs).exposed.Over l.vars.size := by
  have hfold : ∀ (instrs : List Instr) (s : Block.Summary), s.defs.Over l.vars.size →
      s.exposed.Over l.vars.size →
      (instrs.foldl (Block.Summary.step l) s).defs.Over l.vars.size ∧
        (instrs.foldl (Block.Summary.step l) s).exposed.Over l.vars.size := by
    intro instrs
    induction instrs with
    | nil => exact fun s hd he => ⟨hd, he⟩
    | cons instr rest ih =>
      intro s hd he
      obtain ⟨hd', he'⟩ := summary_step_over (l := l) hd he instr
      exact ih _ hd' he'
  exact hfold instrs _ (empty_over _) (empty_over _)

/-- The sets of a block are over the variables of its listing. -/
lemma block_over {l : Listing} {block : Block} (h : block ∈ l.blocks) :
    block.defs.Over l.vars.size ∧ block.exposed.Over l.vars.size := by
  obtain ⟨instrs, -, rfl⟩ := List.mem_map.mp h
  exact ofInstrs_over l instrs

lemma notKilled_over {n : Nat} {block : Block} (h : block.defs.Over n) :
    block.notKilled.Over n := by
  rw [Block.notKilled, h.domain]
  exact (full_over n).diff h

lemma contains_notKilled {n : Nat} {block : Block} (h : block.defs.Over n) (i : Nat) :
    block.notKilled.contains i = (decide (i < n) && !block.defs.contains i) := by
  rw [Block.notKilled, h.domain, contains_diff (full_over n) h, contains_full]

section Live

variable {l : Listing} {blocks : Array Block} (hblocks : ∀ b ∈ blocks, b ∈ l.blocks)

include hblocks

lemma liveVariables_transfer (b : Nat) :
    KeepsAndMakes l.vars.size ((liveVariables l.vars.size blocks).transfer b) := by
  cases hb : blocks[b]? with
  | none => simpa only [liveVariables, hb] using KeepsAndMakes.id _
  | some block =>
    obtain ⟨hd, he⟩ := block_over (hblocks block (Array.mem_of_getElem? hb))
    refine ⟨fun i => block.notKilled.contains i, fun i => block.exposed.contains i,
      fun s hs => ?_⟩
    simp only [liveVariables, hb]
    refine ⟨(hs.inter (notKilled_over hd)).union he, fun i => ?_⟩
    rw [contains_union (hs.inter (notKilled_over hd)) he, contains_inter hs (notKilled_over hd)]

lemma liveVariables_lawful :
    (liveVariables l.vars.size blocks).Lawful {s | s.Over l.vars.size} :=
  lawful_union rfl rfl (empty_over _) (liveVariables_transfer hblocks)

omit hblocks in
lemma liveVariables_bounds (varCount : Nat) :
    (liveVariables varCount blocks).Bounds {s | s.Over varCount} :=
  bounds_union rfl rfl

omit hblocks in
/-- Strategies that agree confirm each other. -/
lemma Liveness.verify_eq {n : Nat} {v : View} {live : Liveness}
    (hcompute : ∀ strategy, compute n blocks v strategy = .ok live) :
    verify n blocks v = .ok live := by
  rw [verify, hcompute, hcompute, Problem.ok_bind, Problem.ok_bind]
  have hnone : (List.range live.liveIn.size).find? (fun b =>
      live.liveIn[b]? != live.liveIn[b]? || live.liveOut[b]? != live.liveOut[b]?) = none := by
    simp
  simp only [hnone]
  rfl

/-- Liveness is the greatest solution of its equations, whichever strategy finds it. -/
lemma Liveness.compute_greatest {v : View} (hv : v.Sound) :
    ∃ s, (liveVariables l.vars.size blocks).Greatest v {s | s.Over l.vars.size} s ∧
      ∀ strategy, compute l.vars.size blocks v strategy = .ok ⟨s.flown, s.met⟩ := by
  obtain ⟨s, hs, hsolve⟩ :=
    Problem.solve_greatest (liveVariables_lawful hblocks) hv (liveVariables_bounds _)
  refine ⟨s, hs, fun strategy => ?_⟩
  obtain ⟨n, hn⟩ := hsolve strategy
  rw [compute, hn]
  rfl

lemma Liveness.verify_ok {v : View} (hv : v.Sound) :
    ∃ live, verify l.vars.size blocks v = .ok live := by
  obtain ⟨s, -, hcompute⟩ := Liveness.compute_greatest hblocks hv
  exact ⟨⟨s.flown, s.met⟩, Liveness.verify_eq hcompute⟩

end Live

/-! ### Available formulas -/

lemma effect_step_over (l : Listing) (formulas : List Formula) {n : Nat}
    {e : AvailableProblem.Effect} (hg : e.gen.Over n) (hk : e.kill.Over n) (instr : Instr) :
    (e.step l formulas instr).gen.Over n ∧ (e.step l formulas instr).kill.Over n := by
  refine ⟨Over.eraseAll ?_ _, hk.insertAll _⟩
  cases (Formula.ofAction l instr.action).bind formulas.idxOf? with
  | none => exact hg
  | some f => exact hg.insert f

lemma effectOf_over (l : Listing) (formulas : List Formula) (block : Block) :
    (AvailableProblem.effectOf l formulas block).gen.Over formulas.length ∧
      (AvailableProblem.effectOf l formulas block).kill.Over formulas.length := by
  have hfold : ∀ (instrs : List Instr) (e : AvailableProblem.Effect),
      e.gen.Over formulas.length → e.kill.Over formulas.length →
      (instrs.foldl (AvailableProblem.Effect.step l formulas) e).gen.Over formulas.length ∧
        (instrs.foldl (AvailableProblem.Effect.step l formulas) e).kill.Over formulas.length := by
    intro instrs
    induction instrs with
    | nil => exact fun e hg hk => ⟨hg, hk⟩
    | cons instr rest ih =>
      intro e hg hk
      obtain ⟨hg', hk'⟩ := effect_step_over l formulas hg hk instr
      exact ih _ hg' hk'
  exact hfold _ _ (empty_over _) (empty_over _)

section Formulas

variable (l : Listing) (blocks : Array Block)

lemma available_transfer (b : Nat) :
    KeepsAndMakes (AvailableProblem.ofListing l blocks).formulas.length
      ((AvailableProblem.ofListing l blocks).problem.transfer b) := by
  set a := AvailableProblem.ofListing l blocks with ha
  have hover : ∀ gen kill, a.gen[b]? = some gen → a.kill[b]? = some kill →
      gen.Over a.formulas.length ∧ kill.Over a.formulas.length := by
    intro gen kill hgen hkill
    simp only [ha, AvailableProblem.ofListing, List.getElem?_toArray, List.getElem?_map,
      Option.map_map, Option.map_eq_some_iff] at hgen hkill
    obtain ⟨block, -, rfl⟩ := hgen
    obtain ⟨block', -, rfl⟩ := hkill
    exact ⟨(effectOf_over l _ block).1, (effectOf_over l _ block').2⟩
  cases hgen : a.gen[b]? with
  | none => simpa only [AvailableProblem.problem, hgen] using KeepsAndMakes.id _
  | some gen =>
    cases hkill : a.kill[b]? with
    | none => simpa only [AvailableProblem.problem, hgen, hkill] using KeepsAndMakes.id _
    | some kill =>
      obtain ⟨hg, hk⟩ := hover gen kill hgen hkill
      refine ⟨fun i => !kill.contains i, fun i => gen.contains i, fun s hs => ?_⟩
      simp only [AvailableProblem.problem, hgen, hkill]
      refine ⟨(hs.diff hk).union hg, fun i => ?_⟩
      rw [contains_union (hs.diff hk) hg, contains_diff hs hk]

lemma available_lawful : (AvailableProblem.ofListing l blocks).problem.Lawful
    {s | s.Over (AvailableProblem.ofListing l blocks).formulas.length} :=
  lawful_inter rfl rfl (empty_over _) (available_transfer l blocks)

lemma available_bounds : (AvailableProblem.ofListing l blocks).problem.Bounds
    {s | s.Over (AvailableProblem.ofListing l blocks).formulas.length} :=
  bounds_inter rfl rfl

end Formulas

/-! ### The two strategies -/

/-- **The strategies agree.** Both return the same states, the greatest solution of the equations,
for every lawful problem over a finite semilattice; the size of the semilattice bounds its height.
Live variables and available formulas are such problems, so the check of liveness never fails. -/
theorem strategies_agree :
    (∀ {L : Type} [DecidableEq L] (p : Problem L) (D : Set L) (v : View),
      D.Finite → p.Lawful D → p.Bounds D → v.Sound →
        ∃ s, p.Greatest v D s ∧ ∀ strategy, ∃ n, p.solve v strategy = .ok (p.solution s n)) ∧
    (∀ {L : Type} (p : Problem L) (D : Set L),
      D.Finite → p.Lawful D → D.ncard ≤ p.height + 1 → p.Bounds D) ∧
    ∀ (l : Listing) (blocks : Array Block), (∀ b ∈ blocks, b ∈ l.blocks) →
      (∀ n, {s : BitSet | s.Over n}.Finite) ∧
      ((liveVariables l.vars.size blocks).Lawful {s | s.Over l.vars.size} ∧
        (liveVariables l.vars.size blocks).Bounds {s | s.Over l.vars.size}) ∧
      ((AvailableProblem.ofListing l blocks).problem.Lawful
          {s | s.Over (AvailableProblem.ofListing l blocks).formulas.length} ∧
        (AvailableProblem.ofListing l blocks).problem.Bounds
          {s | s.Over (AvailableProblem.ofListing l blocks).formulas.length}) ∧
      ∀ v : View, v.Sound → ∃ live, Liveness.verify l.vars.size blocks v = .ok live := by
  refine ⟨fun p D v _ hp hb hv => Problem.solve_greatest hp hv hb,
    fun p D hfinite hp hheight => hp.bounds_of_finite hfinite hheight, fun l blocks hblocks => ?_⟩
  exact ⟨finite_over, ⟨liveVariables_lawful hblocks, liveVariables_bounds _⟩,
    ⟨available_lawful l blocks, available_bounds l blocks⟩,
    fun v hv => Liveness.verify_ok hblocks hv⟩

/-- Whether every path from the entry has gone through block 1. -/
def pastBlockOne : Problem Bool where
  direction := .forward
  boundary := false
  initial := true
  meet := (· && ·)
  transfer b past := past || b == 1
  height := 1

/-- A loop with the entry inside: `0 → 1`, `1 → 0` and `1 → 2`. -/
def entryInLoop : View := .ofSuccessors 0 #[[1], [0, 2], []]

/-- Past block 1 in a loop that contains the entry. -/
theorem strategies_agree_entryInLoop :
    ∃ s, pastBlockOne.Greatest entryInLoop Set.univ s ∧
      ∀ strategy, ∃ n, pastBlockOne.solve entryInLoop strategy = .ok (pastBlockOne.solution s n) := by
  have hlawful : pastBlockOne.Lawful Set.univ := by
    constructor <;> simp [pastBlockOne, Problem.Below]
    grind
  refine strategies_agree.1 _ _ _ (Set.toFinite _) hlawful ?_ ?_
  · exact strategies_agree.2.1 _ _ (Set.toFinite _) hlawful (by simp [pastBlockOne])
  · refine View.ofSuccessors_sound 0 fun a b hb => ?_
    have ha := View.mem_getD hb
    simp only [List.size_toArray, List.length_cons, List.length_nil] at ha
    interval_cases a <;> simp at hb <;> simp <;> omega

end ThreeAddress.DataFlow
