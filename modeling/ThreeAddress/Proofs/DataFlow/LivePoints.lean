import ThreeAddress.Proofs.DataFlow.LivePaths
import ThreeAddress.Proofs.PackedSets

/-!
Liveness at the points inside a block. The walk back from the end of the block puts in what an
instruction reads and then takes out what it assigns. So the first instruction on the way ahead
that reads or assigns a variable decides whether the variable is live, and where there is none the
end of the block does.

The summary of a block goes the other way through it and counts a variable as live when this first
instruction reads it, whatever it assigns. The two differ on the instructions that read their own
target, and on nothing else.
-/

namespace ThreeAddress

open DataFlow ControlFlow

/-- The action reads the variable or assigns it. -/
def Action.Touches (a : Action) (v : VarId) : Prop := a.Reads v ∨ a.targetVar = some v

/-- Among the instructions, `x` is the first that reads the variable or assigns it. -/
def FirstTouch (v : VarId) (xs : List Instr) (x : Instr) : Prop :=
  ∃ front back, xs = front ++ x :: back ∧ x.action.Touches v ∧
    ∀ y ∈ front, ¬y.action.Touches v

/-- The variable is live before the instructions if `out` is what is live after them: the first of
them that reads or assigns it reads it and does not assign it, or there is none and `out` has the
variable. -/
def LiveAhead (xs : List Instr) (out : BitSet) (v : VarId) : Prop :=
  (∃ x, FirstTouch v xs x ∧ x.action.Reads v ∧ x.action.targetVar ≠ some v) ∨
    (¬∃ x, FirstTouch v xs x) ∧ out.contains v = true

section

variable {v : VarId} {x y : Instr} {xs : List Instr}

lemma not_firstTouch_nil : ¬FirstTouch v [] y := by
  rintro ⟨front, back, heq, -⟩
  simp at heq

lemma firstTouch_cons_of_touches (hx : x.action.Touches v) :
    FirstTouch v (x :: xs) y ↔ y = x := by
  constructor
  · rintro ⟨front, back, heq, -, hfront⟩
    cases front with
    | nil => exact (List.cons.inj heq).1.symm
    | cons z front =>
      obtain ⟨rfl, -⟩ := List.cons.inj heq
      exact absurd hx (hfront x List.mem_cons_self)
  · rintro rfl
    exact ⟨[], xs, rfl, hx, by simp⟩

lemma firstTouch_cons_of_not (hx : ¬x.action.Touches v) :
    FirstTouch v (x :: xs) y ↔ FirstTouch v xs y := by
  constructor
  · rintro ⟨front, back, heq, hy, hfront⟩
    cases front with
    | nil =>
      obtain ⟨rfl, -⟩ := List.cons.inj heq
      exact absurd hy hx
    | cons z front =>
      obtain ⟨rfl, rfl⟩ := List.cons.inj heq
      exact ⟨front, back, rfl, hy, (List.forall_mem_cons.1 hfront).2⟩
  · rintro ⟨front, back, rfl, hy, hfront⟩
    exact ⟨x :: front, back, rfl, hy, List.forall_mem_cons.2 ⟨hx, hfront⟩⟩

/-- What holds of the first touch, or without one, told by the first instruction. -/
lemma firstTouch_cons_iff {p : Prop} {q : Instr → Prop} :
    ((∃ y, FirstTouch v (x :: xs) y ∧ q y) ∨ (¬∃ y, FirstTouch v (x :: xs) y) ∧ p) ↔
      x.action.Touches v ∧ q x ∨ ¬x.action.Touches v ∧
        ((∃ y, FirstTouch v xs y ∧ q y) ∨ (¬∃ y, FirstTouch v xs y) ∧ p) := by
  by_cases hx : x.action.Touches v
  · simp [firstTouch_cons_of_touches hx, hx]
  · simp [firstTouch_cons_of_not hx, hx]

lemma FirstTouch.unique (hx : FirstTouch v xs x) (hy : FirstTouch v xs y) : y = x := by
  induction xs with
  | nil => exact (not_firstTouch_nil hx).elim
  | cons z xs ih =>
    by_cases hz : z.action.Touches v
    · rw [firstTouch_cons_of_touches hz] at hx hy
      rw [hx, hy]
    · rw [firstTouch_cons_of_not hz] at hx hy
      exact ih hx hy

end

namespace Listing

variable {l : Listing} {v : VarId} {xs : List Instr}

/-- What instructions need, told by the first of them that reads or assigns the variable. -/
lemma needs_iff_firstTouch {wanted : VarId → Prop}
    (hreads : ∀ x ∈ xs, (v ∈ l.uses x.action ↔ x.action.Reads v)) :
    l.Needs wanted xs v ↔ (∃ x, FirstTouch v xs x ∧ x.action.Reads v) ∨
      (¬∃ x, FirstTouch v xs x) ∧ wanted v := by
  induction xs with
  | nil => simp [Needs, not_firstTouch_nil]
  | cons x xs ih =>
    obtain ⟨hx, hxs⟩ := List.forall_mem_cons.1 hreads
    rw [Needs, hx, ih hxs, firstTouch_cons_iff, Action.Touches]
    by_cases hread : x.action.Reads v <;> simp [hread]

lemma fetch_eq {i : InstrId} {x : Instr} (hx : l.instr? i = some x) : l.fetch i = .ok x := by
  rw [fetch, hx]
  rfl

/-- The instructions of a block exist, and so do the variables that they mention. -/
lemma Coherent.stamped_mentions (h : l.Coherent) {b : BlockId} {x : Instr}
    (hx : x ∈ l.stamped b) :
    l.instr? x.id = some x ∧ ∀ v, l.Mentions x.action v → v < l.vars.size := by
  obtain ⟨⟨i, hi⟩, -⟩ := h.mem_stamped.1 hx
  exact ⟨by rw [h.ids hi, hi], fun v => h.mentions_lt hi⟩

/-- An instruction puts in what it reads and then takes out what it assigns. The set accepts the
variables if they lie in its domain. -/
lemma contains_stepBack {n : Nat} {live : BitSet} (hlive : live.Over n) {i : InstrId} {x : Instr}
    (hx : l.instr? i = some x) (hlt : ∀ v, l.Mentions x.action v → v < n) :
    ∃ before, Liveness.stepBack l i live = .ok before ∧ before.Over n ∧
      ∀ v, before.contains v = true ↔ (live.contains v = true ∨ v ∈ l.uses x.action) ∧
        x.action.targetVar ≠ some v := by
  have hover := hlive.insertAll (l.uses x.action)
  have hread (v : VarId) : (live.insertAll (l.uses x.action)).contains v = true ↔
      live.contains v = true ∨ v ∈ l.uses x.action := by
    rw [BitSet.contains_insertAll hlive, and_iff_left_of_imp fun hv => hlt v (.inl hv)]
  rw [Liveness.stepBack, fetch_eq hx, Problem.ok_bind,
    BitSet.insertAll?_eq hlive fun v hv => hlt v (.inl hv)]
  cases ht : x.action.targetVar with
  | none => exact ⟨_, rfl, hover, fun v => by simp [hread]⟩
  | some w =>
    refine ⟨_, ?_, hover.erase w, fun v => ?_⟩
    · simp only [Problem.ok_bind, BitSet.erase?_eq hover, if_pos (hlt w (.inr ht))]
      rfl
    · rw [BitSet.contains_erase hover, hread, Ne, Ne, Option.some.injEq, eq_comm (a := v)]

/-- The walk back through instructions, told by the first of them that reads or assigns a
variable. -/
lemma contains_walkBack {n : Nat} {live : BitSet} (hlive : live.Over n)
    (hxs : ∀ x ∈ xs, l.instr? x.id = some x ∧ ∀ v, l.Mentions x.action v → v < n)
    (hreads : ∀ x ∈ xs, ∀ v, v ∈ l.uses x.action ↔ x.action.Reads v) :
    ∃ before, (xs.map (·.id)).foldrM (Liveness.stepBack l) live = .ok before ∧ before.Over n ∧
      ∀ v, before.contains v = true ↔ LiveAhead xs live v := by
  induction xs with
  | nil => exact ⟨live, rfl, hlive, by simp [LiveAhead, not_firstTouch_nil]⟩
  | cons x xs ih =>
    obtain ⟨⟨hx, hlt⟩, hxs⟩ := List.forall_mem_cons.1 hxs
    obtain ⟨hread, hreads⟩ := List.forall_mem_cons.1 hreads
    obtain ⟨behind, hbehind, hover, hiff⟩ := ih hxs hreads
    obtain ⟨before, hbefore, hover', hstep⟩ := contains_stepBack hover hx hlt
    refine ⟨before, ?_, hover', fun v => ?_⟩
    · rw [List.map_cons, List.foldrM_cons, hbehind, Problem.ok_bind, hbefore]
    · rw [hstep, hiff, hread, LiveAhead, LiveAhead, firstTouch_cons_iff, Action.Touches]
      by_cases hx : x.action.Reads v <;> simp [hx, and_comm]

end Listing

/-! ### Points of a block -/

namespace FlowGraph

open Listing

variable {l : Listing} {settings : AnalysisSettings} {b : BlockId} {v : VarId} {live : Liveness}
  {pre post : List Instr} {x : Instr} {out : BitSet}

section

variable (h : l.Coherent)

include h

/-- An instruction is found in the block that it is stamped with. -/
lemma locate_eq (heq : l.stamped b = pre ++ x :: post) :
    Liveness.locate l l.blocks.toArray x.id =
      .ok (Block.ofInstrs l (l.stamped b), pre.length) := by
  obtain ⟨⟨i, hi⟩, hb⟩ := h.mem_stamped.1 (show x ∈ l.stamped b by rw [heq]; simp)
  have hlt : b < l.blockCount := h.bears_iff_lt.1 ⟨i, x, hi, hb⟩
  have hnodup : ((l.stamped b).map (·.id)).Nodup := by
    refine List.Nodup.sublist (List.filter_sublist.map _) ?_
    rw [map_id_instrs h]
    exact h.nodup
  have hposition : (Block.ofInstrs l (l.stamped b)).position? x.id = some pre.length := by
    have hnot : x.id ∉ pre.map (·.id) := by
      rw [heq, List.map_append, List.map_cons, List.nodup_middle, List.nodup_cons] at hnodup
      exact fun hmem => hnodup.1 (List.mem_append_left _ hmem)
    rw [Block.position?, Block.ofInstrs, heq, List.map_append, List.map_cons,
      List.idxOf?_eq_some_iff]
    refine ⟨by simp, by simp, fun j hj hid => hnot ?_⟩
    rw [List.getElem_append_left (by simpa using hj)] at hid
    exact List.mem_of_getElem hid
  rw [Liveness.locate, h.ids hi, fetch_eq hi, Problem.ok_bind]
  simp only [List.getElem?_toArray, hb, h.getElem?_blocks hlt, Option.bind_some]
  rw [← h.ids hi, hposition]
  rfl

/-- The set before an instruction is that of the walk back from the end of the block. -/
lemma liveAt_eq (heq : l.stamped b = pre ++ x :: post) (hout : live.liveOut[b]? = some out) :
    live.liveAt l l.blocks.toArray x.id =
      ((x :: post).map (·.id)).foldrM (Liveness.stepBack l) out := by
  have hlt : b < l.blockCount := h.bears_iff_lt.1 (h.bears_iff.2 (by simp [heq]))
  have hrest : (Block.ofInstrs l (l.stamped b)).instrs.drop pre.length =
      (x :: post).map (·.id) := by
    rw [Block.ofInstrs, ← List.map_drop, heq, List.drop_left]
  have hset : Liveness.setAt live.liveOut b = .ok out := by
    rw [Liveness.setAt, hout]
    rfl
  rw [Liveness.liveAt, locate_eq h heq]
  simp only [Problem.ok_bind, h.ofInstrs_id hlt, hset, hrest]

/-- The set after an instruction is the one before the next, or the one after the block. -/
lemma liveAfter_eq (heq : l.stamped b = pre ++ x :: post) (hout : live.liveOut[b]? = some out) :
    live.liveAfter l l.blocks.toArray x.id =
      match post with
      | [] => .ok out
      | y :: _ => live.liveAt l l.blocks.toArray y.id := by
  have hlt : b < l.blockCount := h.bears_iff_lt.1 (h.bears_iff.2 (by simp [heq]))
  have hnext : (Block.ofInstrs l (l.stamped b)).instrs[pre.length + 1]? =
      post.head?.map (·.id) := by
    rw [Block.ofInstrs, heq, List.getElem?_map, List.getElem?_append_right (Nat.le_add_right _ _),
      Nat.add_sub_cancel_left, List.getElem?_cons_succ, List.head?_eq_getElem?]
  rw [Liveness.liveAfter, locate_eq h heq]
  simp only [Bind.bind, Except.bind, hnext]
  cases post with
  | nil =>
    simp only [List.head?_nil, Option.map_none, h.ofInstrs_id hlt, Liveness.setAt, hout]
    rfl
  | cons y post => rfl

variable (hl : l.WellTyped)

include hl

/-- The instructions of a block read what stands in their columns. -/
lemma stamped_reads (b : BlockId) : ∀ x ∈ l.stamped b, ∀ v,
    v ∈ l.uses x.action ↔ x.action.Reads v := by
  intro x hx v
  obtain ⟨⟨i, hi⟩, -⟩ := h.mem_stamped.1 hx
  exact hl.mem_uses_iff (hl.instrs hi)

/-- The query before an instruction has an answer: the variables that are live ahead. -/
lemma contains_liveAt (heq : l.stamped b = pre ++ x :: post) (hout : live.liveOut[b]? = some out)
    (hover : out.Over l.vars.size) : ∃ before, live.liveAt l l.blocks.toArray x.id = .ok before ∧
      before.Over l.vars.size ∧
      ∀ v, before.contains v = true ↔ LiveAhead (x :: post) out v := by
  rw [liveAt_eq h heq hout]
  have hmem (y : Instr) (hy : y ∈ x :: post) : y ∈ l.stamped b :=
    heq ▸ List.mem_append_right pre hy
  exact contains_walkBack hover (fun y hy => h.stamped_mentions (hmem y hy))
    fun y hy => stamped_reads h hl b y (hmem y hy)

variable (hs : l.Sectioned)

omit hl in
include hs in
/-- The sets that liveness finds are sets of variables of the listing. -/
lemma liveness_over {strategy : Strategy}
    (hlive : (drawn l settings).livenessBy strategy = .ok live) {s : BitSet}
    (hmem : live.liveIn[b]? = some s ∨ live.liveOut[b]? = some s) : s.Over l.vars.size := by
  have hblocks : ∀ block ∈ l.blocks.toArray, block ∈ l.blocks := fun _ => List.mem_toArray.1
  obtain ⟨states, hgreatest, hcompute⟩ :=
    Liveness.compute_greatest hblocks (view_sound h hs settings)
  obtain rfl := Except.ok.inj ((hcompute strategy).symm.trans hlive)
  obtain hin | hout := hmem
  · have hflown := hgreatest.flown_mem b
    rwa [Problem.flownAt, Array.getD_eq_getD_getElem?, hin] at hflown
  · have hmet := hgreatest.met_mem b
    rwa [Problem.metAt, Array.getD_eq_getD_getElem?, hout] at hmet

include hs

/-- The summary counts what the first instruction that touches a variable reads, also where it
assigns it. -/
lemma contains_liveIn {liveIn : BitSet} (hlive : (drawn l settings).liveness = .ok live)
    (hin : live.liveIn[b]? = some liveIn) (hout : live.liveOut[b]? = some out)
    (hb : b < l.blockCount) (v : VarId) : liveIn.contains v = true ↔
      (∃ x, FirstTouch v (l.stamped b) x ∧ x.action.Reads v) ∨
        (¬∃ x, FirstTouch v (l.stamped b) x) ∧ out.contains v = true := by
  obtain ⟨live', hlive', -, hsets⟩ := liveness_eq h hs settings
  obtain rfl := Except.ok.inj (hlive'.symm.trans hlive)
  obtain ⟨liveIn', out', hin', hout', hiff⟩ := hsets b hb
  obtain rfl := Option.some.inj (hin'.symm.trans hin)
  obtain rfl := Option.some.inj (hout'.symm.trans hout)
  rw [(hiff v).1, ← h.needs_liveAfter, (hiff v).2,
    needs_iff_firstTouch fun x hx => stamped_reads h hl b x hx v]

/-- The variables that are live before a block and not before its first instruction. -/
lemma liveIn_differs {liveIn before : BitSet} (hlive : (drawn l settings).liveness = .ok live)
    (hin : live.liveIn[b]? = some liveIn) (hout : live.liveOut[b]? = some out)
    (hb : b < l.blockCount)
    (hbefore : ∀ v, before.contains v = true ↔ LiveAhead (l.stamped b) out v) (v : VarId) :
    (before.contains v = true → liveIn.contains v = true) ∧
      (liveIn.contains v = true ∧ before.contains v = false ↔
        ∃ x, FirstTouch v (l.stamped b) x ∧ x.action.Reads v ∧ x.action.targetVar = some v) := by
  have hsummary := contains_liveIn h hl hs hlive hin hout hb v
  refine ⟨fun hv => hsummary.2 ?_, ?_⟩
  · obtain ⟨x, hx, hread, -⟩ | hnone := (hbefore v).1 hv
    · exact .inl ⟨x, hx, hread⟩
    · exact .inr hnone
  rw [← Bool.not_eq_true, hsummary, hbefore, LiveAhead]
  constructor
  · rintro ⟨⟨x, hx, hread⟩ | hnone, hnot⟩
    · refine ⟨x, hx, hread, ?_⟩
      by_contra hassign
      exact hnot (.inl ⟨x, hx, hread, hassign⟩)
    · exact absurd (.inr hnone) hnot
  · rintro ⟨x, hx, hread, hassign⟩
    refine ⟨.inl ⟨x, hx, hread⟩, ?_⟩
    rintro (⟨y, hy, -, hy'⟩ | ⟨hnone, -⟩)
    · exact hy' (hx.unique hy ▸ hassign)
    · exact hnone ⟨x, hx⟩

end

end FlowGraph

namespace Listing

variable {l : Listing}

open FlowGraph in
/-- **Liveness is exact at the points of a block.** No check fails on the way back from the end of
the block. Before an instruction those variables are live that the code from there to the end of
the block asks for; after it those that are live before the next one, or after the block. Before
the first instruction of a block some of the variables may be missing that are live before the
block: those whose first use in the block is by an instruction that reads and assigns them. -/
theorem Reachable.points_exact (h : l.Reachable) (hne : l.stream ≠ [])
    (settings : AnalysisSettings) :
    ∃ g live, FlowGraph.ofListing l settings = .ok g ∧ g.listing = l ∧ g.liveness = .ok live ∧
      (∀ i < l.arena.size, ∃ x pre post before after out, l.instr? i = some x ∧
        g.code x.block = pre ++ x :: post ∧ live.liveOut[x.block]? = some out ∧
        live.liveAt l g.blocks i = .ok before ∧ live.liveAfter l g.blocks i = .ok after ∧
        (∀ v, before.contains v = true ↔ LiveAhead (x :: post) out v) ∧
        match post with
        | [] => after = out
        | y :: _ => live.liveAt l g.blocks y.id = .ok after) ∧
      ∀ b < g.blockCount, ∃ x rest before liveIn, g.code b = x :: rest ∧
        live.liveAt l g.blocks x.id = .ok before ∧ live.liveIn[b]? = some liveIn ∧
        (∀ v, before.contains v = true → liveIn.contains v = true) ∧
        ((∀ y ∈ g.code b, ∀ v, y.action.targetVar = some v → ¬y.action.Reads v) →
          before = liveIn) ∧
        ∀ v, liveIn.contains v = true ∧ before.contains v = false ↔
          ∃ y, FirstTouch v (g.code b) y ∧ y.action.Reads v ∧ y.action.targetVar = some v := by
  have hc := h.coherent
  have hs := h.sectioned
  have hl := h.wellTyped
  obtain ⟨live, hlive, hby, hsets⟩ := liveness_eq hc hs settings
  refine ⟨drawn l settings, live, ofListing_eq hc hs hne settings, rfl, hlive, fun i hi => ?_,
    fun b hb => ?_⟩
  · obtain ⟨x, hx⟩ := Option.isSome_iff_exists.1 (instr?_isSome_iff.2 hi)
    obtain ⟨pre, post, heq⟩ := List.append_of_mem (hc.mem_stamped.2 ⟨⟨i, hx⟩, rfl⟩)
    obtain ⟨-, out, -, hout, -⟩ := hsets x.block (hc.bears_iff_lt.1 ⟨i, x, hx, rfl⟩)
    have hover := liveness_over hc hs (hby .worklist) (.inr hout)
    obtain ⟨before, hbefore, -, hiff⟩ := contains_liveAt hc hl heq hout hover
    have hafter := liveAfter_eq hc heq hout
    rw [hc.ids hx] at hbefore hafter
    cases post with
    | nil =>
      exact ⟨x, pre, [], before, out, out, hx, by rwa [code_drawn hc], hout, hbefore, hafter,
        hiff, rfl⟩
    | cons y post =>
      have heq' : l.stamped x.block = (pre ++ [x]) ++ y :: post := by rw [heq]; simp
      obtain ⟨after, hnext, -⟩ := contains_liveAt hc hl heq' hout hover
      exact ⟨x, pre, y :: post, before, after, out, hx, by rwa [code_drawn hc], hout, hbefore,
        hafter.trans hnext, hiff, hnext⟩
  · rw [blockCount_drawn hc] at hb
    rw [code_drawn hc]
    obtain ⟨x, rest, heq⟩ := List.exists_cons_of_ne_nil (hc.stamped_ne_nil hb)
    obtain ⟨liveIn, out, hin, hout, -⟩ := hsets b hb
    have hfirst : l.stamped b = [] ++ x :: rest := heq
    obtain ⟨before, hbefore, hover, hiff⟩ := contains_liveAt hc hl hfirst hout
      (liveness_over hc hs (hby .worklist) (.inr hout))
    have hdiffers := liveIn_differs hc hl hs hlive hin hout hb (heq ▸ hiff)
    refine ⟨x, rest, before, liveIn, heq, hbefore, hin, fun v => (hdiffers v).1, fun hself => ?_,
      fun v => (hdiffers v).2⟩
    refine hover.ext (liveness_over hc hs (hby .worklist) (.inl hin)) fun v => ?_
    rw [Bool.eq_iff_iff]
    refine ⟨(hdiffers v).1, fun hv => ?_⟩
    by_contra hnot
    obtain ⟨y, ⟨front, back, hsplit, -⟩, hread, hassign⟩ :=
      (hdiffers v).2.1 ⟨hv, by simpa using hnot⟩
    exact hself y (hsplit ▸ by simp) v hassign hread

/-- `int a; int b; a = a; b = a + b;` -/
def selfCopy : Source.Program :=
  .stmt (.compound [
    .decl .int "a" none,
    .decl .int "b" none,
    .expr (.assign (.var "a") (.var "a")),
    .expr (.assign (.var "b") (.binary .add (.var "a") (.var "b")))])

/-- Both variables are live before the block. The first instruction copies the first variable to
itself, so that only the second one is live before it. -/
theorem Reachable.points_exact_selfCopy : ∃ l g live before liveIn,
    Listing.ofProgram selfCopy = .ok l ∧ FlowGraph.ofListing l .standard = .ok g ∧
    g.liveness = .ok live ∧ live.liveAt l g.blocks 0 = .ok before ∧
    live.liveIn[0]? = some liveIn ∧ before.toList = [1] ∧ liveIn.toList = [0, 1] ∧
    ∃ y, FirstTouch 0 (g.code 0) y ∧ y.action.Reads 0 ∧ y.action.targetVar = some 0 := by
  have hok : ((Listing.ofProgram selfCopy).toOption.map fun l =>
      (l.stream.isEmpty, (FlowGraph.ofListing l .standard).toOption.bind fun g =>
        g.liveness.toOption.map fun live =>
          decide (g.blockCount = 1 ∧ (g.code 0).head?.map (·.id) = some 0 ∧
            (live.liveAt l g.blocks 0).toOption.map (·.toList) = some [1] ∧
            (live.liveAt l g.blocks 0).toOption.map (·.contains 0) = some false ∧
            live.liveIn[0]?.map (·.toList) = some [0, 1] ∧
            live.liveIn[0]?.map (·.contains 0) = some true))) = some (false, some true) := by
    decide +kernel
  obtain ⟨l, hl, hok⟩ := toOption_map_eq_some.1 hok
  simp only [Prod.mk.injEq] at hok
  obtain ⟨hne, hsets⟩ := hok
  obtain ⟨g, live, hg, -, hlive, -, hblocks⟩ :=
    Reachable.points_exact (.lowered hl) (by simpa using hne) .standard
  simp only [hg, hlive, Except.toOption, Option.bind_some, Option.map_some,
    Option.some.injEq] at hsets
  obtain ⟨hcount, hfirst, hlist, hat0, hinlist, hin0⟩ := of_decide_eq_true hsets
  obtain ⟨x, rest, before, liveIn, hcode, hat, hset, -, -, hdiffers⟩ :=
    hblocks 0 (by rw [hcount]; decide)
  have hid : x.id = 0 := by simpa [hcode] using hfirst
  rw [hid] at hat
  simp only [hat, hset, Option.map_some, Option.some.injEq] at hlist hat0 hinlist hin0
  exact ⟨l, g, live, before, liveIn, hl, hg, hlive, hat, hset, hlist, hinlist,
    (hdiffers 0).1 ⟨hin0, hat0⟩⟩

end Listing

end ThreeAddress
