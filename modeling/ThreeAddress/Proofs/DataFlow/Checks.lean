import ThreeAddress.Proofs.DataFlow.AvailablePaths
import ThreeAddress.Proofs.DataFlow.LivePoints

/-!
The checks of the packed sets. A packed set refuses elements outside its domain and sets over
another domain, and an instruction that is asked for has to exist. The summaries of the blocks,
the transfers and the meets are written with operations that do not look. Here they are written
once more with those that do: in code that lowering and value numbering make no check fails, and
the results are the same.

The states that a solver goes through are in the domain of its problem, which is closed under
transfers and meets. So it is enough to look at one of each.
-/

namespace ThreeAddress

open DataFlow AvailableProblem

/-! ### The same with checks -/

/-- An instruction reads before it assigns. -/
def Block.Summary.step? (l : Listing) (s : Summary) (i : InstrId) : Except Fault Summary := do
  let instr ← l.fetch i
  let exposed ← (l.uses instr.action).foldlM (fun exposed v => do
    if ← s.defs.contains? v then return exposed else return (← exposed.insert? v).1) s.exposed
  match instr.action.targetVar with
  | some v => return ⟨(← s.defs.insert? v).1, exposed⟩
  | none => return ⟨s.defs, exposed⟩

/-- An instruction computes its formula before it assigns its target. -/
def DataFlow.AvailableProblem.Effect.step? (l : Listing) (formulas : List Formula) (s : Effect)
    (i : InstrId) : Except Fault Effect := do
  let instr ← l.fetch i
  let gen ← match (Formula.ofAction l instr.action).bind formulas.idxOf? with
    | some e => Prod.fst <$> s.gen.insert? e
    | none => pure s.gen
  (instr.action.targetVar.elim [] (readers formulas)).foldlM (fun s e => do
    return ⟨(← s.gen.erase? e).1, (← s.kill.insert? e).1⟩) ⟨gen, s.kill⟩

/-- The combined set by itself. -/
def BitSet.merge? (op : BitSet → BitSet → BitSet) (s t : BitSet) : Except Fault BitSet :=
  Prod.fst <$> combine? op s t

/-- What is live before a block, from what is live after it. -/
def DataFlow.Liveness.transfer? (blocks : Array Block) (b : BlockId) (live : BitSet) :
    Except Fault BitSet :=
  match blocks[b]? with
  | none => throw .outOfRange
  | some block => do
    let kept ← BitSet.merge? .diff (.full block.defs.domain) block.defs
    let live ← BitSet.merge? .inter live kept
    BitSet.merge? .union live block.exposed

/-- What is available after a block, from what is available before it. -/
def DataFlow.AvailableProblem.transfer? (a : AvailableProblem) (b : BlockId) (available : BitSet) :
    Except Fault BitSet :=
  match a.gen[b]?, a.kill[b]? with
  | some gen, some kill => do
    let available ← BitSet.merge? .diff available kill
    BitSet.merge? .union available gen
  | _, _ => throw .outOfRange

/-- On the states of the domain and the first `size` blocks the checks of a meet and a transfer
pass, and the results are those of the problem. -/
structure DataFlow.Problem.Checked {L : Type} (p : Problem L) (D : Set L) (size : Nat)
    (meet? : L → L → Except Fault L) (transfer? : Nat → L → Except Fault L) : Prop where
  meet : ∀ s ∈ D, ∀ t ∈ D, meet? s t = .ok (p.meet s t)
  transfer : ∀ b < size, ∀ s ∈ D, transfer? b s = .ok (p.transfer b s)

/-! ### One instruction -/

lemma merge?_eq {op : BitSet → BitSet → BitSet} {n : Nat} {s t : BitSet} (hs : s.Over n)
    (ht : t.Over n) : BitSet.merge? op s t = .ok (op s t) := by
  rw [BitSet.merge?, BitSet.combine?_eq hs ht]
  rfl

/-- A fold succeeds if its steps do as long as the state has a property, which they keep. -/
lemma foldlM_ok {α σ : Type} {P : σ → Prop} {f : σ → α → Except Fault σ} {g : σ → α → σ}
    {xs : List α} (hstep : ∀ s, P s → ∀ x ∈ xs, f s x = .ok (g s x) ∧ P (g s x)) {s : σ}
    (hs : P s) : xs.foldlM f s = .ok (xs.foldl g s) := by
  induction xs generalizing s with
  | nil => rfl
  | cons x xs ih =>
    obtain ⟨hx, hP⟩ := hstep s hs x List.mem_cons_self
    rw [List.foldlM_cons, hx, Problem.ok_bind, List.foldl_cons]
    exact ih (fun s hs y hy => hstep s hs y (List.mem_cons_of_mem _ hy)) hP

/-- What is lost is taken out of the one set and put into the other. -/
lemma lose?_eq {n : Nat} {lost : List FormulaId} (hlost : ∀ e ∈ lost, e < n) {gen kill : BitSet}
    (hg : gen.Over n) (hk : kill.Over n) :
    lost.foldlM (fun s e => do return ⟨(← s.gen.erase? e).1, (← s.kill.insert? e).1⟩)
      (⟨gen, kill⟩ : Effect) =
      (.ok ⟨gen.eraseAll lost, kill.insertAll lost⟩ : Except Fault Effect) := by
  induction lost generalizing gen kill with
  | nil => rfl
  | cons e lost ih =>
    obtain ⟨he, hlost⟩ := List.forall_mem_cons.1 hlost
    simp only [List.foldlM_cons, BitSet.erase?_eq hg, BitSet.insert?_eq hk, if_pos he]
    exact ih hlost (hg.erase e) (hk.insert e)

lemma lost_lt {formulas : List Formula} {a : Action} {e : FormulaId}
    (he : e ∈ a.targetVar.elim [] (readers formulas)) : e < formulas.length := by
  cases ht : a.targetVar with
  | none => simp [ht] at he
  | some v =>
    rw [ht] at he
    obtain ⟨f, hf, -⟩ := mem_readers.1 he
    exact (List.getElem?_eq_some_iff.1 hf).1

section

variable {l : Listing} {i : InstrId} {x : Instr} {n : Nat} (hx : l.instr? i = some x)

include hx

lemma summary_step?_eq {s : Block.Summary} (hd : s.defs.Over n) (he : s.exposed.Over n)
    (hlt : ∀ v, l.Mentions x.action v → v < n) : s.step? l i = .ok (s.step l x) := by
  have hexposed : (l.uses x.action).foldlM (fun exposed v => do
      if ← s.defs.contains? v then return exposed else return (← exposed.insert? v).1) s.exposed =
      (.ok (s.exposed.insertAll ((l.uses x.action).filter (!s.defs.contains ·))) :
        Except Fault BitSet) := by
    rw [BitSet.insertAll, List.foldl_filter]
    refine foldlM_ok (P := (·.Over n)) (fun e hover v hv => ?_) he
    have hv := hlt v (.inl hv)
    rw [hd.contains?_eq hv, Problem.ok_bind]
    cases s.defs.contains v with
    | true => exact ⟨rfl, hover⟩
    | false =>
      rw [BitSet.insert?_eq hover, if_pos hv]
      exact ⟨rfl, hover.insert v⟩
  rw [Block.Summary.step?, Listing.fetch_eq hx, Problem.ok_bind, hexposed, Problem.ok_bind,
    Block.Summary.step]
  cases ht : x.action.targetVar with
  | none => rfl
  | some w =>
    simp only [BitSet.insert?_eq hd, if_pos (hlt w (.inr ht))]
    rfl

lemma effect_step?_eq {formulas : List Formula} {s : Effect} (hg : s.gen.Over formulas.length)
    (hk : s.kill.Over formulas.length) : s.step? l formulas i = .ok (s.step l formulas x) := by
  rw [Effect.step?, Listing.fetch_eq hx, Problem.ok_bind, Effect.step]
  cases hf : (Formula.ofAction l x.action).bind formulas.idxOf? with
  | none => exact lose?_eq (fun e he => lost_lt he) hg hk
  | some e =>
    have he : e < formulas.length := by
      obtain ⟨f, -, he⟩ := Option.bind_eq_some_iff.1 hf
      exact (List.idxOf?_eq_some_iff.1 he).1
    simp only [BitSet.insert?_eq hg, if_pos he]
    exact lose?_eq (fun e he => lost_lt he) (hg.insert e) hk

end

/-! ### All blocks -/

section

variable (l : Listing)

lemma liveVariables_checked : (liveVariables l.vars.size l.blocks.toArray).Checked
    {s | s.Over l.vars.size} l.blocks.length (BitSet.merge? .union)
    (Liveness.transfer? l.blocks.toArray) where
  meet _ hs _ ht := merge?_eq hs ht
  transfer b hb s hs := by
    obtain ⟨hd, he⟩ := block_over (List.getElem_mem hb)
    have hblock : l.blocks.toArray[b]? = some l.blocks[b] := by simp [hb]
    have hfull : (BitSet.full l.blocks[b].defs.domain).Over l.vars.size :=
      hd.domain ▸ BitSet.full_over _
    have hkept := notKilled_over hd
    simp only [Liveness.transfer?, liveVariables, hblock]
    rw [merge?_eq hfull hd, Problem.ok_bind, ← Block.notKilled, merge?_eq hs hkept,
      Problem.ok_bind, merge?_eq (BitSet.Over.inter hs hkept) he]

lemma available_checked : (ofListing l l.blocks.toArray).problem.Checked
    {s | s.Over (formulasOf l).length} l.blocks.length (BitSet.merge? .inter)
    (ofListing l l.blocks.toArray).transfer? where
  meet _ hs _ ht := merge?_eq hs ht
  transfer b hb s hs := by
    obtain ⟨hg, hk⟩ := effectOf_over l (formulasOf l) l.blocks[b]
    have hgen : (ofListing l l.blocks.toArray).gen[b]? =
        some (effectOf l (formulasOf l) l.blocks[b]).gen := by simp [ofListing, hb]
    have hkill : (ofListing l l.blocks.toArray).kill[b]? =
        some (effectOf l (formulasOf l) l.blocks[b]).kill := by simp [ofListing, hb]
    simp only [transfer?, problem, hgen, hkill]
    rw [merge?_eq hs hk, Problem.ok_bind, merge?_eq (BitSet.Over.diff hs hk) hg]

end

namespace Listing.Coherent

variable {l : Listing} (h : l.Coherent)

include h

lemma summary_checked (b : BlockId) :
    (Block.ofInstrs l (l.stamped b)).instrs.foldlM (Block.Summary.step? l) (.start l) =
      .ok ((l.stamped b).foldl (Block.Summary.step l) (.start l)) := by
  rw [Block.ofInstrs, List.foldlM_map]
  refine foldlM_ok (P := fun s => s.defs.Over l.vars.size ∧ s.exposed.Over l.vars.size)
    (fun s hs x hx => ?_) ⟨BitSet.empty_over _, BitSet.empty_over _⟩
  obtain ⟨hinstr, hlt⟩ := h.stamped_mentions hx
  exact ⟨summary_step?_eq hinstr hs.1 hs.2 hlt, summary_step_over hs.1 hs.2 x⟩

lemma effect_checked (b : BlockId) :
    (Block.ofInstrs l (l.stamped b)).instrs.foldlM (Effect.step? l (formulasOf l))
        ⟨.empty (formulasOf l).length, .empty (formulasOf l).length⟩ =
      .ok (effectOf l (formulasOf l) (Block.ofInstrs l (l.stamped b))) := by
  have hids : (Block.ofInstrs l (l.stamped b)).instrs.filterMap l.instr? = l.stamped b :=
    h.filterMap_ids fun x hx => ⟨_, (h.stamped_mentions hx).1⟩
  rw [effectOf, hids, Block.ofInstrs, List.foldlM_map]
  refine foldlM_ok (P := fun s => s.gen.Over (formulasOf l).length ∧
    s.kill.Over (formulasOf l).length) (fun s hs x hx => ?_)
    ⟨BitSet.empty_over _, BitSet.empty_over _⟩
  obtain ⟨hinstr, -⟩ := h.stamped_mentions hx
  exact ⟨effect_step?_eq hinstr hs.1 hs.2, effect_step_over l _ hs.1 hs.2 x⟩

/-- **All checks pass**: in the code that lowering and value numbering make, which is coherent,
the checked operations find for each block the variables that it assigns and exposes and the
formulas that it makes available and loses, and meets and transfers of both analyses with checks
are those that the solver uses. -/
theorem checks_pass :
    (∀ block ∈ l.blocks,
      block.instrs.foldlM (Block.Summary.step? l) (.start l) = .ok ⟨block.defs, block.exposed⟩ ∧
      block.instrs.foldlM (Effect.step? l (formulasOf l))
          ⟨.empty (formulasOf l).length, .empty (formulasOf l).length⟩ =
        .ok (effectOf l (formulasOf l) block)) ∧
    (liveVariables l.vars.size l.blocks.toArray).Checked {s | s.Over l.vars.size}
      l.blocks.length (BitSet.merge? .union) (Liveness.transfer? l.blocks.toArray) ∧
    (ofListing l l.blocks.toArray).problem.Checked {s | s.Over (formulasOf l).length}
      l.blocks.length (BitSet.merge? .inter) (ofListing l l.blocks.toArray).transfer? := by
  refine ⟨fun block hblock => ?_, liveVariables_checked l, available_checked l⟩
  rw [h.blocks_eq] at hblock
  obtain ⟨b, -, rfl⟩ := List.mem_map.1 hblock
  exact ⟨h.summary_checked b, h.effect_checked b⟩

end Listing.Coherent

end ThreeAddress
