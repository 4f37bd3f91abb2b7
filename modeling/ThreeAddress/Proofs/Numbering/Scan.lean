import ThreeAddress.Proofs.Coherent
import ThreeAddress.Proofs.Numbering.Step

/-!
What holds after the first instructions of a block have been scanned: which instructions
have changed and how, and what the table and the pending copies refer to.
-/

namespace ThreeAddress

/-- An instruction is as before, or a computation has become a copy. -/
structure Instr.Reshaped (x x' : Instr) : Prop where
  id : x'.id = x.id
  block : x'.block = x.block
  action : x'.action = x.action ∨
    ∃ op lhs rhs w o, x.action = .compute op lhs rhs w ∧ x'.action = .copy o (.var w)

namespace Instr.Reshaped

variable {x x' x'' : Instr}

lemma refl (x : Instr) : x.Reshaped x := ⟨rfl, rfl, .inl rfl⟩

lemma targetVar (h : x.Reshaped x') : x'.action.targetVar = x.action.targetVar := by
  obtain he | ⟨op, lhs, rhs, w, o, he, he'⟩ := h.action
  · rw [he]
  · rw [he, he']
    rfl

lemma cuts {y y' : Instr} (hx : x.Reshaped x') (hy : y.Reshaped y') : x'.cuts y' = x.cuts y := by
  have hends : x'.action.operator.endsBlock = x.action.operator.endsBlock := by
    obtain he | ⟨op, lhs, rhs, w, o, he, he'⟩ := hx.action
    · rw [he]
    · rw [he, he']
      rfl
  have hlabel : y'.action.definedLabel = y.action.definedLabel := by
    obtain he | ⟨op, lhs, rhs, w, o, he, he'⟩ := hy.action
    · rw [he]
    · rw [he, he']
      rfl
  rw [Instr.cuts, Instr.cuts, hends, hlabel]

end Instr.Reshaped

/-- Each instruction of a listing is there in the other, perhaps as a copy. -/
def Listing.Reshaped (l l' : Listing) : Prop :=
  ∀ ⦃i x⦄, l.instr? i = some x → ∃ x', l'.instr? i = some x' ∧ x.Reshaped x'

namespace Listing.Reshaped

variable {l l' : Listing}

lemma refl (l : Listing) : l.Reshaped l := fun _ _ hx => ⟨_, hx, .refl _⟩

lemma resolve_eq (h : l.Reshaped l') {o : Operand} (ho : o.InScope l) :
    l'.resolve o = l.resolve o := by
  cases o with
  | instr i =>
    obtain ⟨x, hx⟩ := Option.isSome_iff_exists.1 (instr?_isSome_iff.2 ho)
    obtain ⟨x', hx', hr⟩ := h hx
    simp [Listing.resolve, hx, hx', hr.targetVar]
  | _ => rfl

lemma ofOperand_eq (h : l.Reshaped l') {o : Operand} (ho : o.InScope l) :
    Atom.ofOperand l' o = Atom.ofOperand l o := by
  cases o <;> simp [Atom.ofOperand, h.resolve_eq ho]

lemma ofAction_eq (h : l.Reshaped l') {a : Action} (ha : a.InScope l) :
    Formula.ofAction l' a = Formula.ofAction l a := by
  cases a with
  | compute op lhs rhs target =>
    simp [Formula.ofAction, h.ofOperand_eq ha.1, h.ofOperand_eq ha.2.1]
  | _ => rfl

end Listing.Reshaped

namespace ValueNumbering

@[simp]
lemma Scan.start_table (l : Listing) (events : Log) : (start l events).table = [] := rfl

@[simp]
lemma Scan.start_pending (l : Listing) (events : Log) : (start l events).pending = [] := rfl

/-- The state of the scan after the first `j` instructions of a block. -/
def scanned (t : Toggles) (block : Block) (l : Listing) (events : Log) (j : Nat) : Scan :=
  (block.instrs.zipIdx.take j).foldl (Scan.step t block) (.start l events)

variable {t : Toggles} {block : Block} {l : Listing} {events : Log}

lemma scanned_succ {j : Nat} {i : InstrId} (h : block.instrs[j]? = some i) :
    scanned t block l events (j + 1) = (scanned t block l events j).step t block (i, j) := by
  have hentry : block.instrs.zipIdx[j]? = some (i, j) := by simp [h]
  simp [scanned, List.take_add_one, hentry]

lemma scanned_length :
    scanned t block l events block.instrs.length =
      block.instrs.zipIdx.foldl (Scan.step t block) (.start l events) := by
  rw [scanned, List.take_of_length_le (by simp)]

/-- The variable that the instruction at a position of a block assigns. -/
def targetAt (l : Listing) (body : List InstrId) (j : Nat) : Option VarId := do
  let i ← body[j]?
  let x ← l.instr? i
  x.action.targetVar

lemma targetAt_eq {body : List InstrId} {j : Nat} {i : InstrId} {x : Instr}
    (hi : body[j]? = some i) (hx : l.instr? i = some x) :
    targetAt l body j = x.action.targetVar := by
  simp [targetAt, hi, hx]

lemma targetAt_lt (h : l.Coherent) {body : List InstrId} {j : Nat} {v : VarId}
    (hv : targetAt l body j = some v) : v < l.vars.size := by
  unfold targetAt at hv
  obtain ⟨i, -, hv⟩ := Option.bind_eq_some_iff.1 hv
  obtain ⟨x, hx, hv⟩ := Option.bind_eq_some_iff.1 hv
  exact (h.inScope hx).targetVar_lt hv

/-- What a holding refers to, after `j` instructions. -/
def Holding.Placed (l : Listing) (body : List InstrId) (j : Nat) (pending : List CopyOrder) :
    Holding → Prop
  | literal value => value.var? = none
  | live v origin | detached v origin => origin < j ∧ targetAt l body origin = some v
  | materialized v origin temp => ⟨origin, temp, v⟩ ∈ pending

/-- What a pending copy refers to, after `j` instructions. -/
structure CopyOrder.Placed (l : Listing) (body : List InstrId) (j : Nat) (c : CopyOrder) :
    Prop where
  origin : c.origin + 1 < j
  source : targetAt l body c.origin = some c.source
  temp : l.vars.size ≤ c.temp

structure Scan.Sound (l : Listing) (body : List InstrId) (j : Nat) (s : Scan) : Prop where
  tables : ∃ arena vars, s.listing = { l with arena, vars }
  size : s.listing.arena.size = l.arena.size
  vars : s.listing.vars.size = l.vars.size + s.pending.length
  reshaped : l.Reshaped s.listing
  untouched : ∀ i ∉ body.take j, s.listing.instr? i = l.instr? i
  inScope : ∀ {i x}, s.listing.instr? i = some x → x.action.InScope s.listing
  table : ∀ {f h}, (f, h) ∈ s.table → h.Placed l body j s.pending
  pending : ∀ c ∈ s.pending, c.Placed l body j ∧ c.temp < s.listing.vars.size
  sorted : s.pending.Pairwise fun c c' => c.origin ≤ c'.origin
  distinct : s.pending.Pairwise fun c c' => c.temp ≠ c'.temp

lemma Holding.Placed.mono {body : List InstrId} {j j' : Nat} {p p' : List CopyOrder}
    {h : Holding} (hh : h.Placed l body j p) (hj : j ≤ j') (hp : p ⊆ p') :
    h.Placed l body j' p' := by
  cases h with
  | literal value => exact hh
  | live v origin => exact ⟨hh.1.trans_le hj, hh.2⟩
  | detached v origin => exact ⟨hh.1.trans_le hj, hh.2⟩
  | materialized v origin temp => exact hp hh

lemma Holding.Placed.detach {body : List InstrId} {j : Nat} {p : List CopyOrder} {h : Holding}
    (hh : h.Placed l body j p) (w : VarId) : (h.detach w).Placed l body j p := by
  cases h with
  | live v origin =>
    rw [Holding.detach]
    split <;> exact hh
  | _ => exact hh

lemma placed_assign {body : List InstrId} {j : Nat} {p : List CopyOrder} {table : Table}
    (ht : ∀ {f h}, (f, h) ∈ table → h.Placed l body j p) {w : VarId} {keeps : Bool}
    {f : Formula} {h : Holding} (hm : (f, h) ∈ table.assign w keeps) : h.Placed l body j p := by
  obtain ⟨old, hold, -, rfl | rfl⟩ := Table.mem_of_mem_assign hm
  · exact ht hold
  · exact (ht hold).detach w

/-- Once the copy of a value is ordered, the temporary holds it. -/
lemma placed_materialized {body : List InstrId} {j : Nat} {p : List CopyOrder} {table : Table}
    (ht : ∀ {f h}, (f, h) ∈ table → h.Placed l body j p) {f g : Formula} {v fresh : VarId}
    {origin : Nat} {h : Holding} (hm : (g, h) ∈ table.insert f (.materialized v origin fresh)) :
    h.Placed l body j (CopyOrder.enqueue ⟨origin, fresh, v⟩ p) := by
  obtain ⟨rfl, rfl⟩ | ⟨hm, -⟩ := Table.mem_insert.1 hm
  · exact CopyOrder.mem_enqueue.2 (.inl rfl)
  · exact (ht hm).mono le_rfl fun c hc => CopyOrder.mem_enqueue.2 (.inr hc)

section

variable {formula : Action → Option Formula} {body : List InstrId} {j fresh : Nat}
  {table table' : Table} {p p' : List CopyOrder} {a a' : Action}

/-- Orders stay; at most one is added, for a value that was detached. -/
lemma Numbered.pending (h : Numbered formula fresh j table p a table' p' a') :
    p' = p ∨ ∃ f v origin, (f, .detached v origin) ∈ table ∧
      p' = CopyOrder.enqueue ⟨origin, fresh, v⟩ p := by
  cases h with
  | materialize _ _ hm => exact .inr ⟨_, _, _, hm, rfl⟩
  | _ => exact .inl rfl

/-- A pending order was pending before, or it is the one that is added. -/
lemma Numbered.mem_pending (h : Numbered formula fresh j table p a table' p' a') {c : CopyOrder}
    (hc : c ∈ p') : c ∈ p ∨ ∃ f v origin, (f, .detached v origin) ∈ table ∧
      c = ⟨origin, fresh, v⟩ ∧ p'.length = p.length + 1 := by
  obtain rfl | ⟨f, v, origin, hm, rfl⟩ := h.pending
  · exact .inl hc
  · refine (CopyOrder.mem_enqueue.1 hc).symm.imp_right fun heq => ⟨f, v, origin, hm, heq, ?_⟩
    exact (CopyOrder.enqueue_perm _ _).length_eq

lemma Numbered.subset (h : Numbered formula fresh j table p a table' p' a') : p ⊆ p' := by
  obtain rfl | ⟨f, v, origin, -, rfl⟩ := h.pending
  · exact List.Subset.refl _
  · exact fun c hc => CopyOrder.mem_enqueue.2 (.inr hc)

lemma Numbered.length_le (h : Numbered formula fresh j table p a table' p' a') :
    p.length ≤ p'.length := by
  obtain rfl | ⟨f, v, origin, -, rfl⟩ := h.pending
  · exact le_rfl
  · rw [(CopyOrder.enqueue_perm _ _).length_eq, List.length_cons]
    exact Nat.le_succ _

lemma Numbered.placed (h : Numbered formula fresh j table p a table' p' a')
    (htarget : targetAt l body j = a.targetVar)
    (ht : ∀ {f h}, (f, h) ∈ table → h.Placed l body j p) {f : Formula} {g : Holding}
    (hm : (f, g) ∈ table') : g.Placed l body (j + 1) p' := by
  have hold {t : Table} (hp : p ⊆ p') (h : ∀ {f h}, (f, h) ∈ t → h.Placed l body j p)
      {f : Formula} {g : Holding} (hm : (f, g) ∈ t) : g.Placed l body (j + 1) p' :=
    (h hm).mono (Nat.le_succ j) hp
  have hsub := h.subset
  cases h with
  | skip => exact hold hsub ht hm
  | assign => exact hold hsub (placed_assign ht) hm
  | reuse => exact hold hsub (placed_assign ht) hm
  | materialize hw hf hd =>
    refine placed_assign (fun hm' => ?_) hm
    exact (placed_materialized ht hm').mono (Nat.le_succ j) (List.Subset.refl _)
  | fold hw hf hlit =>
    obtain ⟨rfl, rfl⟩ | ⟨hm', -⟩ := Table.mem_insert.1 hm
    · exact var?_of_fold? hlit
    · exact hold hsub (placed_assign ht) hm'
  | miss hw hf =>
    split at hm
    · exact hold hsub (placed_assign ht) hm
    · obtain ⟨rfl, rfl⟩ | ⟨hm', -⟩ := Table.mem_insert.1 hm
      · exact ⟨Nat.lt_succ_self j, htarget.trans hw⟩
      · exact hold hsub (placed_assign ht) hm'

/-- An action stays as it is, or a computation becomes a copy to the same variable. -/
lemma Numbered.action {m : Listing}
    (h : Numbered (Formula.ofAction m) fresh j table p a table' p' a') :
    a' = a ∨ ∃ op lhs rhs w o, a = .compute op lhs rhs w ∧ a' = .copy o (.var w) := by
  have hcompute {f : Formula} {w : VarId} {o : Operand} (hw : a.targetVar = some w)
      (hf : Formula.ofAction m a = some f) : ∃ op lhs rhs w' o', a = .compute op lhs rhs w' ∧
        Action.copy o (.var w) = .copy o' (.var w') := by
    obtain ⟨op, lhs, rhs, w', rfl⟩ := compute_of_ofAction hf
    obtain rfl : w' = w := by simpa using hw
    exact ⟨op, lhs, rhs, w', o, rfl, rfl⟩
  cases h with
  | reuse hw hf _ _ => exact .inr (hcompute hw hf)
  | materialize hw hf _ => exact .inr (hcompute hw hf)
  | fold hw hf _ => exact .inr (hcompute hw hf)
  | _ => exact .inl rfl

lemma inScope_operand {m : Listing} {value : Atom} (h : value.var? = none) :
    value.operand.InScope m := by
  cases value with
  | var v => simp [Atom.var?] at h
  | _ => trivial

/-- What is read in place of a computation exists. -/
lemma Numbered.inScope {m m' : Listing}
    (h : Numbered (Formula.ofAction m) m.vars.size j table p a table' p' a')
    (ha : a.InScope m) (harena : m.arena.size ≤ m'.arena.size)
    (hvars : m'.vars.size + p.length = m.vars.size + p'.length)
    (hsource : ∀ {f h o}, (f, h) ∈ table → h.operand? = some o → o.InScope m) :
    a'.InScope m' := by
  have hle : m.vars.size ≤ m'.vars.size := by
    obtain rfl | ⟨f, v, origin, -, rfl⟩ := h.pending
    · omega
    · rw [(CopyOrder.enqueue_perm _ _).length_eq, List.length_cons] at hvars
      omega
  have hcopy {f : Formula} {w : VarId} {o : Operand} (hw : a.targetVar = some w)
      (hf : Formula.ofAction m a = some f) (ho : o.InScope m') :
      (Action.copy o (.var w)).InScope m' := by
    obtain ⟨op, lhs, rhs, w', rfl⟩ := compute_of_ofAction hf
    obtain rfl : w' = w := by simpa using hw
    exact ⟨ho, ha.2.2.trans_le hle⟩
  cases h with
  | reuse hw hf hm ho => exact hcopy hw hf ((hsource hm ho).mono hle harena)
  | materialize hw hf hd =>
    refine hcopy hw hf ?_
    rw [(CopyOrder.enqueue_perm _ _).length_eq, List.length_cons] at hvars
    change m.vars.size < m'.vars.size
    omega
  | fold hw hf hlit =>
    exact hcopy hw hf (inScope_operand (var?_of_fold? hlit))
  | _ => exact ha.mono hle harena

end

/-! ### The scan of a block -/

namespace Scan

lemma instr?_rewritten {m : Listing} {i k : InstrId} {a : Action} :
    (rewritten m i a).instr? k =
      if i = k then (m.instr? i).map fun x => { x with action := a } else m.instr? k := by
  unfold rewritten Listing.instr?
  rw [Array.getElem?_modify]
  split
  · rename_i h
    rw [h]
  · rfl

lemma sound_start (l : Listing) (body : List InstrId) (events : Log) (h : l.Coherent) :
    Sound l body 0 (start l events) where
  tables := ⟨l.arena, l.vars, rfl⟩
  size := rfl
  vars := rfl
  reshaped := Listing.Reshaped.refl l
  untouched _ _ := rfl
  inScope := h.inScope
  table := by simp
  pending := by simp
  sorted := .nil
  distinct := .nil

lemma Sound.vars_le {body : List InstrId} {j : Nat} {s : Scan} (hs : s.Sound l body j) :
    l.vars.size ≤ s.listing.vars.size := by
  rw [hs.vars]
  exact Nat.le_add_right _ _

/-- What a value that is not detached is read from exists. -/
lemma Sound.operand_inScope {body : List InstrId} {j : Nat} {s : Scan} (hs : s.Sound l body j)
    (hl : l.Coherent) {f : Formula} {h : Holding} {o : Operand} (hm : (f, h) ∈ s.table)
    (ho : h.operand? = some o) : o.InScope s.listing := by
  have hp := hs.table hm
  cases h with
  | literal value =>
    obtain rfl : value.operand = o := Option.some.inj ho
    exact inScope_operand hp
  | live v origin =>
    obtain rfl : Operand.var v = o := Option.some.inj ho
    exact (targetAt_lt hl hp.2).trans_le hs.vars_le
  | materialized v origin temp =>
    obtain rfl : Operand.var temp = o := Option.some.inj ho
    exact (hs.pending _ hp).2
  | detached v origin => simp [Holding.operand?] at ho

lemma Sound.step {body : List InstrId} {j : Nat} {s : Scan} {i : InstrId} {x : Instr}
    (hs : s.Sound l body j) (hl : l.Coherent) (hbody : body.Nodup) (hi : body[j]? = some i)
    (hx : l.instr? i = some x) (t : Toggles) (block : Block) :
    (s.step t block (i, j)).Sound l body (j + 1) := by
  have htake : body.take (j + 1) = body.take j ++ [i] := by simp [List.take_add_one, hi]
  have hfresh : i ∉ body.take j := by
    have hnodup : (body.take j ++ [i]).Nodup := htake ▸ hbody.sublist (List.take_sublist _ _)
    exact fun hmem => (List.nodup_append.1 hnodup).2.2 i hmem i (by simp) rfl
  have hxs : s.listing.instr? i = some x := (hs.untouched i hfresh).trans hx
  obtain ⟨a', vars, hn, hlisting, hvars⟩ := step_numbered t block j hxs
  have hinstr (k : InstrId) : (s.step t block (i, j)).listing.instr? k =
      if i = k then some { x with action := a' } else s.listing.instr? k := by
    rw [hlisting, instr?_rewritten]
    have hxs' : Listing.instr? { s.listing with vars } i = some x := hxs
    rw [hxs']
    rfl
  have hreshaped : x.Reshaped { x with action := a' } := ⟨rfl, rfl, hn.action⟩
  have hsize : (s.step t block (i, j)).listing.arena.size = s.listing.arena.size := by
    rw [hlisting]
    simp [rewritten]
  have hvars' : (s.step t block (i, j)).listing.vars.size + s.pending.length =
      s.listing.vars.size + (s.step t block (i, j)).pending.length := by
    rw [hlisting]
    exact hvars
  have hgrows : s.listing.vars.size ≤ (s.step t block (i, j)).listing.vars.size := by
    have := hn.length_le
    omega
  refine ⟨?_, ?_, ?_, ?_, ?_, ?_, ?_, ?_, ?_, ?_⟩
  · obtain ⟨arena, vars₀, htables⟩ := hs.tables
    exact ⟨_, vars, by rw [hlisting, htables]; rfl⟩
  · rw [hsize, hs.size]
  · have := hs.vars
    omega
  · intro k y hy
    rw [hinstr]
    split
    · rename_i hik
      subst hik
      obtain rfl : x = y := Option.some.inj (hx.symm.trans hy)
      exact ⟨_, rfl, hreshaped⟩
    · exact hs.reshaped hy
  · intro k hk
    rw [htake, List.mem_append, List.mem_singleton, not_or] at hk
    rw [hinstr, if_neg (Ne.symm hk.2), hs.untouched k hk.1]
  · intro k y hy
    rw [hinstr] at hy
    split at hy
    · obtain rfl : _ = y := Option.some.inj hy
      refine hn.inScope (hs.inScope hxs) hsize.ge hvars' fun hm ho => ?_
      exact hs.operand_inScope hl hm ho
    · exact (hs.inScope hy).mono hgrows hsize.ge
  · intro f h hm
    exact hn.placed (targetAt_eq hi hx) hs.table hm
  · -- an order that was pending stays right; a new one is for a detached value
    intro c hc
    obtain hc | ⟨f, v, origin, hm, rfl, hlen⟩ := hn.mem_pending hc
    · obtain ⟨hp, hlt⟩ := hs.pending c hc
      exact ⟨⟨hp.origin.trans (Nat.lt_succ_self j), hp.source, hp.temp⟩, hlt.trans_le hgrows⟩
    · obtain ⟨hlt, htarget⟩ := hs.table hm
      refine ⟨⟨Nat.succ_lt_succ hlt, htarget, hs.vars_le⟩, ?_⟩
      change s.listing.vars.size < _
      omega
  · obtain heq | ⟨f, v, origin, hm, heq⟩ := hn.pending
    · exact heq ▸ hs.sorted
    · exact heq ▸ CopyOrder.sorted_enqueue _ hs.sorted
  · obtain heq | ⟨f, v, origin, hm, heq⟩ := hn.pending
    · exact heq ▸ hs.distinct
    · rw [heq, (CopyOrder.enqueue_perm _ _).pairwise_iff fun h => Ne.symm h]
      refine List.pairwise_cons.2 ⟨fun c hc => ?_, hs.distinct⟩
      exact (hs.pending c hc).2.ne'

/-- What holds at each point of the scan of a block. -/
theorem scanned_sound {block : Block} (hl : l.Coherent) (hbody : block.instrs.Nodup)
    (hmem : ∀ i ∈ block.instrs, i ∈ l.stream) (t : Toggles) (events : Log) {j : Nat}
    (hj : j ≤ block.instrs.length) : (scanned t block l events j).Sound l block.instrs j := by
  induction j with
  | zero => exact sound_start l block.instrs events hl
  | succ j ih =>
    have hi : block.instrs[j]? = some block.instrs[j] := List.getElem?_eq_getElem hj
    obtain ⟨x, hx⟩ := hl.exists_instr (hmem _ (List.getElem_mem hj))
    rw [scanned_succ hi]
    exact (ih (Nat.le_of_succ_le hj)).step hl hbody hi hx t block

end Scan

end ValueNumbering

end ThreeAddress
