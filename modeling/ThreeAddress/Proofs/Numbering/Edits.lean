import ThreeAddress.Proofs.Numbering.NormalForm

/-!
What a run of value numbering changes. Each value is copied to a temporary at most once, so a
copy stands directly behind the computation that it belongs to. The blocks are scanned one after
the other, and until the scan comes to a block nothing in it differs from the listing before the
run; so what holds of one block against the listing that its scan begins with holds of the whole
run.
-/

namespace ThreeAddress

/-- The variables followed by temporaries that a pass has made, one for each type. Their numbers
and serials go on where those of the variables end. -/
def Variables.withTemporaries (s : Variables) (types : List Ty) : Variables :=
  { s with
    vars := s.vars ++ (types.mapIdx fun k ty =>
      (⟨s.size + k, .temporary (s.nextSerial + k), ty, .ofPass⟩ : Variable)).toArray
    nextSerial := s.nextSerial + types.length }

namespace Variables

variable (s : Variables)

lemma withTemporaries_nil : s.withTemporaries [] = s := by
  simp [withTemporaries]

lemma withTemporaries_snoc (types : List Ty) (ty : Ty) :
    ((s.withTemporaries types).temporary ty .ofPass).1 = s.withTemporaries (types ++ [ty]) := by
  simp [withTemporaries, temporary, push, size, List.mapIdx_append, Nat.add_assoc]

lemma withTemporaries_append (types types' : List Ty) :
    (s.withTemporaries types).withTemporaries types' = s.withTemporaries (types ++ types') := by
  induction types' using List.reverseRecOn with
  | nil => rw [withTemporaries_nil, List.append_nil]
  | append_singleton types' ty ih =>
    rw [← withTemporaries_snoc, ih, withTemporaries_snoc, List.append_assoc]

end Variables

/-- What a run of value numbering may change in a listing. Old instructions stay, except that
computations on scalars may become copies. New ones are copies, each of the target of the
computation directly before it, into temporaries of their own; and only they have these
temporaries for targets. -/
structure Listing.Confined (l l' : Listing) : Prop where
  size : l.arena.size ≤ l'.arena.size
  stream : l'.stream.filter (· < l.arena.size) = l.stream
  old : ∀ {i x}, l.instr? i = some x → l'.instr? i = some x ∨
    x.action.isScalarBinary = true ∧ ∃ value w, x.action.target = some (.var w) ∧
      l'.instr? i = some { x with action := .copy value (.var w) }
  new : ∀ {n y}, l.arena.size ≤ n → l'.instr? n = some y → ∃ k x v temp,
    k < l.arena.size ∧ [k, n] <:+: l'.stream ∧ l'.instr? k = some x ∧
    x.action.operator.isBinary = true ∧ x.action.target = some (.var v) ∧ y.id = n ∧
    y.block = x.block ∧ y.action = .copy (.var v) (.var temp) ∧ l.vars.size ≤ temp ∧
    temp < l'.vars.size
  temps : ∀ v, l.vars.size ≤ v → v < l'.vars.size →
    ∃! n, l.arena.size ≤ n ∧ ∃ y, l'.instr? n = some y ∧ y.action.targetVar = some v
  vars : ∃ types, l'.vars = l.vars.withTemporaries types
  ends : l'.blocks.map (fun b => (b.id, b.first?, b.last?)) =
    l.blocks.map (fun b => (b.id, b.first?, b.last?))
  arrays : l'.arrays = l.arrays
  functions : l'.functions = l.functions
  labels : l'.labels = l.labels

namespace Listing.Confined

variable {l l' : Listing}

lemma refl (hl : l.Coherent) : l.Confined l where
  size := le_rfl
  stream := List.filter_eq_self.2 fun i hi => decide_eq_true (hl.mem_stream.1 hi)
  old hx := .inl hx
  new hn hy := absurd (instr?_isSome_iff.1 (by rw [hy]; rfl)) hn.not_gt
  temps v hv hlt := absurd hlt hv.not_gt
  vars := ⟨[], l.vars.withTemporaries_nil.symm⟩
  ends := rfl
  arrays := rfl
  functions := rfl
  labels := rfl

lemma vars_le (h : l.Confined l') : l.vars.size ≤ l'.vars.size := by
  obtain ⟨types, heq⟩ := h.vars
  simp [heq, Variables.withTemporaries, Variables.size]

end Listing.Confined

lemma Action.target_of_targetVar {a : Action} {w : VarId} (h : a.targetVar = some w) :
    a.target = some (.var w) := by
  obtain ⟨o, ho, hvar⟩ := Option.bind_eq_some_iff.1 h
  cases o with
  | var v => rw [ho, Option.some.inj hvar]
  | _ => cases hvar

lemma Action.isScalarBinary_of_ofAction {l : Listing} {a : Action} {f : Formula}
    (h : Formula.ofAction l a = some f) : a.isScalarBinary = true := by
  obtain ⟨op, lhs, rhs, w, rfl⟩ := ValueNumbering.compute_of_ofAction h
  simp only [Formula.ofAction] at h
  split at h
  · assumption
  · cases h

namespace ValueNumbering

open Listing

/-! ### Orders have different origins -/

/-- No copy of the value has been ordered. -/
def Holding.Unordered (pending : List CopyOrder) : Holding → Prop
  | live _ k | detached _ k => ∀ c ∈ pending, c.origin ≠ k
  | _ => True

section

variable {l l' : Listing} {body : List InstrId} {j fresh : Nat} {table table' : Table}
  {p p' : List CopyOrder} {a a' : Action}

lemma Holding.Unordered.detach {h : Holding} (hh : h.Unordered p) (w : VarId) :
    (h.detach w).Unordered p := by
  cases h with
  | live v k =>
    rw [Holding.detach]
    split <;> exact hh
  | _ => exact hh

lemma unordered_assign (ht : ∀ {f h}, (f, h) ∈ table → h.Unordered p) {w : VarId} {keeps : Bool}
    {f : Formula} {h : Holding} (hm : (f, h) ∈ table.assign w keeps) : h.Unordered p := by
  obtain ⟨old, hold, -, rfl | rfl⟩ := Table.mem_of_mem_assign hm
  · exact ht hold
  · exact (ht hold).detach w

/-- A position computes one formula. -/
lemma Origin.formula_unique {f g : Formula} {k : Nat} {v w : VarId}
    (hf : Origin l l' body j f k v) (hg : Origin l l' body j g k w) : f = g := by
  obtain ⟨i, x, hi, hx, -, hfx, -⟩ := hf.kept
  obtain ⟨i', x', hi', hx', -, hgx, -⟩ := hg.kept
  obtain rfl := Option.some.inj (hi.symm.trans hi')
  obtain rfl := Option.some.inj (hx.symm.trans hx')
  exact Option.some.inj (hfx.symm.trans hgx)

/-- When a value is copied, the table notes it, and the other values come from elsewhere. -/
lemma Holding.Unordered.enqueue {f g : Formula} {h : Holding} {k : Nat} {v : VarId}
    (hh : h.Unordered p) (htraced : h.Traced l l' body j p f)
    (horigin : Origin l l' body j g k v) (hne : f ≠ g) (fresh : VarId) :
    h.Unordered (CopyOrder.enqueue ⟨k, fresh, v⟩ p) := by
  have hother {k' : Nat} {v' : VarId} (h' : Origin l l' body j f k' v')
      (hp : ∀ c ∈ p, c.origin ≠ k') : ∀ c ∈ CopyOrder.enqueue ⟨k, fresh, v⟩ p, c.origin ≠ k' := by
    intro c hc
    obtain rfl | hc := CopyOrder.mem_enqueue.1 hc
    · rintro rfl
      exact hne (h'.formula_unique horigin)
    · exact hp c hc
  cases h with
  | live v' k' => exact hother htraced hh
  | detached v' k' => exact hother htraced hh
  | _ => trivial

lemma Numbered.unordered (h : Numbered (Formula.ofAction l) fresh j table p a table' p' a')
    (htraced : ∀ {f h}, (f, h) ∈ table → h.Traced l l' body j p f)
    (hp : ∀ c ∈ p, c.origin < j) (ht : ∀ {f h}, (f, h) ∈ table → h.Unordered p)
    {f : Formula} {g : Holding} (hm : (f, g) ∈ table') : g.Unordered p' := by
  cases h with
  | skip => exact ht hm
  | assign => exact unordered_assign ht hm
  | reuse => exact unordered_assign ht hm
  | @materialize w f' v origin hw hf hd =>
    refine unordered_assign (fun {f h} hm' => ?_) hm
    obtain ⟨-, rfl⟩ | ⟨hm', hne⟩ := Table.mem_insert.1 hm'
    · trivial
    · exact (ht hm').enqueue (htraced hm') (htraced hd) hne fresh
  | fold =>
    obtain ⟨-, rfl⟩ | ⟨hm', -⟩ := Table.mem_insert.1 hm
    · trivial
    · exact unordered_assign ht hm'
  | miss =>
    split at hm
    · exact unordered_assign ht hm
    · obtain ⟨-, rfl⟩ | ⟨hm', -⟩ := Table.mem_insert.1 hm
      · exact fun c hc => (hp c hc).ne
      · exact unordered_assign ht hm'

lemma Numbered.origins {formula : Action → Option Formula}
    (h : Numbered formula fresh j table p a table' p' a')
    (ht : ∀ {f h}, (f, h) ∈ table → h.Unordered p)
    (hp : p.Pairwise fun c c' => c.origin ≠ c'.origin) :
    p'.Pairwise fun c c' => c.origin ≠ c'.origin := by
  obtain rfl | ⟨f, v, origin, hm, rfl⟩ := h.pending
  · exact hp
  · rw [(CopyOrder.enqueue_perm _ _).pairwise_iff fun h => Ne.symm h]
    exact List.pairwise_cons.2 ⟨fun c hc => (ht hm c hc).symm, hp⟩

end

section

variable {l : Listing} {block : Block} {pre post : List InstrId}
  (h : l.HasBlock block pre post) (t : Toggles) (events : Log)

include h

lemma scanned_origins {j : Nat} (hj : j ≤ block.instrs.length) :
    (∀ {f h}, (f, h) ∈ (scanned t block l events j).table →
        h.Unordered (scanned t block l events j).pending) ∧
      (scanned t block l events j).pending.Pairwise fun c c' => c.origin ≠ c'.origin := by
  induction j with
  | zero => exact ⟨by simp [scanned], .nil⟩
  | succ j ih =>
    have hi : block.instrs[j]? = some block.instrs[j] := List.getElem?_eq_getElem hj
    obtain ⟨x, hx, -⟩ := h.exists_instr hi
    obtain ⟨fresh, a', hn, -⟩ := scanned_numbered h t events hi hx
    have hsound := Scan.scanned_sound h.coherent h.nodup (fun _ hi => h.mem_stream hi) t events
      (Nat.le_of_succ_le hj)
    obtain ⟨htable, hpending⟩ := ih (Nat.le_of_succ_le hj)
    refine ⟨fun hm => hn.unordered (scanned_traced h t events (Nat.le_of_succ_le hj))
      (fun c hc => ?_) htable hm, hn.origins htable hpending⟩
    exact Nat.lt_of_succ_lt (hsound.pending c hc).1.origin

/-- Every copy belongs to a computation that stays. -/
lemma pending_origin {j : Nat} (hj : j ≤ block.instrs.length) :
    ∀ c ∈ (scanned t block l events j).pending,
      ∃ f, Origin l (scanBlock t (l, events) block).1 block.instrs j f c.origin c.source := by
  induction j with
  | zero => simp [scanned]
  | succ j ih =>
    have hi : block.instrs[j]? = some block.instrs[j] := List.getElem?_eq_getElem hj
    obtain ⟨x, hx, -⟩ := h.exists_instr hi
    obtain ⟨fresh, a', hn, -⟩ := scanned_numbered h t events hi hx
    intro c hc
    obtain hc | ⟨f, v, origin, hm, rfl, -⟩ := hn.mem_pending hc
    · obtain ⟨f, hf⟩ := ih (Nat.le_of_succ_le hj) c hc
      exact ⟨f, hf.mono (Nat.le_succ j)⟩
    · exact ⟨f, Origin.mono (scanned_traced h t events (Nat.le_of_succ_le hj) hm) (Nat.le_succ j)⟩

/-- No other copy stands behind the computation that a copy belongs to. -/
lemma ordersAt_eq {c : CopyOrder} (hc : c ∈ (finished t block l events).pending) :
    ordersAt t block l events pre (pre.length + c.origin) = [c] := by
  obtain ⟨front, back, heq⟩ := List.append_of_mem hc
  have hdistinct := (scanned_origins h t events le_rfl).2
  rw [← finished, heq, List.pairwise_append, List.pairwise_cons] at hdistinct
  obtain ⟨-, ⟨hback, -⟩, hfront⟩ := hdistinct
  have hfront : front.filter (fun c' => pre.length + c'.origin = pre.length + c.origin) = [] := by
    rw [List.filter_eq_nil_iff]
    intro c' hc'
    simpa using hfront c' hc' c List.mem_cons_self
  have hback : back.filter (fun c' => pre.length + c'.origin = pre.length + c.origin) = [] := by
    rw [List.filter_eq_nil_iff]
    intro c' hc'
    simpa using (hback c' hc').symm
  rw [ordersAt, heq, List.filter_append, List.filter_cons, hfront, hback]
  simp

/-- A copy stands directly behind the computation that it belongs to. -/
lemma scanBlock_copy_adjacent {n : Nat} {c : CopyOrder}
    (hc : (finished t block l events).pending[n]? = some c) :
    ∃ i, block.instrs[c.origin]? = some i ∧
      [i, l.arena.size + n] <:+: (scanBlock t (l, events) block).1.stream := by
  have hmem := List.mem_of_getElem? hc
  obtain ⟨i, -, -, -, hi, -, hbody, -⟩ := pending_neighbours h t events hmem
  refine ⟨i, hbody, ?_⟩
  have hcopies := copies_forall₂ h t events (pre.length + c.origin)
  rw [ordersAt_eq h t events hmem] at hcopies
  obtain ⟨id, rest, ⟨ty, hcopy⟩, hrest, hids⟩ := List.forall₂_cons_right_iff.1 hcopies
  obtain rfl := List.forall₂_nil_right_iff.1 hrest
  obtain rfl := scanBlock_assigns_temp h t events hcopy hc rfl
  rw [scanBlock_stream h, weave_split hi, hids]
  exact ⟨_, _, List.append_assoc _ _ _⟩

end

/-! ### The scan of a block -/

lemma filter_weave {copies : List (Nat × InstrId)} {p : InstrId → Bool}
    (h : ∀ c ∈ copies, p c.2 = false) (j : Nat) (a : List InstrId) :
    (weave copies j a).filter p = a.filter p := by
  induction a generalizing j with
  | nil => rfl
  | cons i rest ih =>
    have hnil : ((copies.filter (·.1 = j)).map Prod.snd).filter p = [] := by
      rw [List.filter_eq_nil_iff]
      intro k hk
      obtain ⟨c, hc, rfl⟩ := List.mem_map.1 hk
      simp [h c (List.mem_of_mem_filter hc)]
    rw [weave, List.filter_cons, List.filter_cons, List.filter_append, hnil, ih, List.nil_append]

lemma weave_of_le {copies : List (Nat × InstrId)} {j : Nat} {a : List InstrId}
    (h : ∀ c ∈ copies, j + a.length ≤ c.1) : weave copies j a = a := by
  induction a generalizing j with
  | nil => rfl
  | cons i rest ih =>
    rw [List.length_cons] at h
    have hnil : copies.filter (·.1 = j) = [] := by
      rw [List.filter_eq_nil_iff]
      intro c hc
      have := h c hc
      simp only [decide_eq_true_eq]
      omega
    rw [weave, hnil, ih fun c hc => by have := h c hc; omega]
    rfl

/-- Two neighbours whose second one is not among the last ones are both among the first ones. -/
lemma adjacent_of_notMem {k n : InstrId} {a b : List InstrId} (h : [k, n] <:+: a ++ b)
    (hn : n ∉ b) : [k, n] <:+: a := by
  obtain ⟨front, back, heq⟩ := h
  obtain ⟨mid, hmid, rfl⟩ | ⟨mid, hmid, -⟩ := List.append_eq_append_iff.1 heq.symm
  · cases mid using List.reverseRecOn with
    | nil => exact ⟨front, [], by rw [List.append_nil, hmid, List.append_nil]⟩
    | append_singleton mid i =>
      have hlast : n = i := by simpa using congrArg List.getLast? hmid
      exact absurd (by simp [hlast]) hn
  · exact ⟨front, mid, hmid.symm⟩

section

variable {l : Listing} {block : Block} {pre post : List InstrId}
  (h : l.HasBlock block pre post) (t : Toggles) (events : Log)

include h

lemma notMem_of_mem_pre {i : InstrId} (hi : i ∈ pre) : i ∉ block.instrs := by
  have hnodup := h.coherent.nodup
  rw [h.stream, List.append_assoc] at hnodup
  exact fun hmem => (List.nodup_append.1 hnodup).2.2 i hi i (List.mem_append_left _ hmem) rfl

lemma notMem_of_mem_post {i : InstrId} (hi : i ∈ post) : i ∉ block.instrs := by
  have hnodup := h.coherent.nodup
  rw [h.stream, List.append_assoc] at hnodup
  exact fun hmem => (List.nodup_append.1 hnodup.of_append_right).2.2 i hmem i hi rfl

lemma scanBlock_front : pre <+: (scanBlock t (l, events) block).1.stream := by
  rw [scanBlock_stream h, h.stream, List.append_assoc, weave_append, weave_of_le fun e he => ?_]
  · exact List.prefix_append _ _
  · obtain ⟨n, c, -, rfl⟩ := mem_numberedFrom.1 he
    rw [Nat.zero_add]
    exact Nat.le_add_right _ _

/-- What stands directly before an instruction in front of the block stays there. -/
lemma scanBlock_adjacent {k n : InstrId} (hnext : [k, n] <:+: l.stream)
    (hn : n ∉ block.instrs ++ post) :
    k ∈ pre ∧ [k, n] <:+: (scanBlock t (l, events) block).1.stream := by
  rw [h.stream, List.append_assoc] at hnext
  have hpre := adjacent_of_notMem hnext hn
  exact ⟨hpre.subset List.mem_cons_self, hpre.trans (scanBlock_front h t events).isInfix⟩

/-- An instruction outside of the block is as it was, or it is one of the copies. -/
lemma scanBlock_outside {i : InstrId} {y : Instr}
    (hy : (scanBlock t (l, events) block).1.instr? i = some y) (hi : i ∉ block.instrs) :
    l.instr? i = some y ∨ ∃ n c ty, (finished t block l events).pending[n]? = some c ∧
      i = l.arena.size + n ∧ y = ⟨i, .copy (.var c.source) (.var c.temp), ty, block.id⟩ := by
  obtain ⟨x, hx, -⟩ | hcopy := scanBlock_cases h t events hy
  · rw [scanBlock_untouched h t events (instr?_isSome_iff.1 (by rw [hx]; rfl)) hi] at hy
    exact .inl hy
  · exact .inr hcopy

/-- A copy, with the computation that it belongs to. -/
lemma scanBlock_copy_behind {n : Nat} {c : CopyOrder}
    (hc : (finished t block l events).pending[n]? = some c) :
    ∃ k x, k ∈ block.instrs ∧ [k, l.arena.size + n] <:+: (scanBlock t (l, events) block).1.stream ∧
      (scanBlock t (l, events) block).1.instr? k = some x ∧ x.block = block.id ∧
      x.action.operator.isBinary = true ∧ x.action.target = some (.var c.source) := by
  obtain ⟨f, horigin⟩ := pending_origin h t events le_rfl c (List.mem_of_getElem? hc)
  obtain ⟨i, x, hi, hx, hx', hf, htarget⟩ := horigin.kept
  obtain ⟨k, hk, hnext⟩ := scanBlock_copy_adjacent h t events hc
  obtain rfl := Option.some.inj (hi.symm.trans hk)
  obtain ⟨op, lhs, rhs, w, hact⟩ := compute_of_ofAction hf
  have hmem := List.mem_of_getElem? hi
  exact ⟨i, x, hmem, hnext, hx', h.stamped hmem hx, by rw [hact]; rfl,
    Action.target_of_targetVar htarget⟩

omit h in
lemma scanned_vars {j : Nat} (hj : j ≤ block.instrs.length) :
    ∃ types, (scanned t block l events j).listing.vars = l.vars.withTemporaries types := by
  induction j with
  | zero => exact ⟨[], l.vars.withTemporaries_nil.symm⟩
  | succ j ih =>
    obtain ⟨types, heq⟩ := ih (Nat.le_of_succ_le hj)
    rw [scanned_succ (List.getElem?_eq_getElem hj)]
    obtain ⟨hvars, -⟩ | ⟨f, v, origin, -, hvars, -⟩ :=
      Scan.step_vars t block (scanned t block l events j) block.instrs[j] j
    · exact ⟨types, hvars.trans heq⟩
    · exact ⟨types ++ [_], by rw [hvars, heq, Variables.withTemporaries_snoc]⟩

/-- The blocks keep their ends. -/
lemma scanBlock_ends : (scanBlock t (l, events) block).1.blocks.map
      (fun b => (b.id, b.first?, b.last?)) = l.blocks.map (fun b => (b.id, b.first?, b.last?)) := by
  have hsame := scanBlock_sameBlocks h t events
  have hl' := scanBlock_coherent h t events
  rw [hl'.blocks_eq, h.coherent.blocks_eq, hsame.count, List.map_map, List.map_map]
  refine List.map_congr_left fun b hb => ?_
  have hb : b < l.blockCount := List.mem_range.1 hb
  have hfirst := hsame.first b
  have hlast := hsame.last b
  simp only [Function.comp_apply, h.coherent.ofInstrs_id hb, hl'.ofInstrs_id (hsame.count ▸ hb)]
  simp [Block.first?, Block.last?, Block.ofInstrs, hfirst, hlast]

end

/-! ### All blocks -/

section

variable {l₀ l : Listing} {block : Block} {pre post : List InstrId}

variable (hc : l₀.Confined l) (h : l.HasBlock block pre post)
  (hrest : ∀ i ∈ block.instrs ++ post, i < l₀.arena.size ∧ l.instr? i = l₀.instr? i)
  (t : Toggles) (events : Log)

include hc h hrest

lemma confined_old {i : InstrId} {x : Instr} (hx : l₀.instr? i = some x) :
    (scanBlock t (l, events) block).1.instr? i = some x ∨
      x.action.isScalarBinary = true ∧ ∃ value w, x.action.target = some (.var w) ∧
        (scanBlock t (l, events) block).1.instr? i =
          some { x with action := .copy value (.var w) } := by
  by_cases hi : i ∈ block.instrs
  · obtain ⟨j, hj⟩ := List.mem_iff_getElem?.1 hi
    have hxl : l.instr? i = some x := (hrest i (List.mem_append_left _ hi)).2.trans hx
    obtain hkept | ⟨f, w, o, hf, hw, hcopy, -⟩ := scanBlock_supplied h t events hj hxl
    · exact .inl hkept
    · exact .inr ⟨Action.isScalarBinary_of_ofAction hf, o, w, Action.target_of_targetVar hw, hcopy⟩
  · have hlt : i < l₀.arena.size := instr?_isSome_iff.1 (by rw [hx]; rfl)
    rw [scanBlock_untouched h t events (hlt.trans_le hc.size) hi]
    exact hc.old hx

lemma confined_new {n : InstrId} {y : Instr} (hn : l₀.arena.size ≤ n)
    (hy : (scanBlock t (l, events) block).1.instr? n = some y) : ∃ k x v temp,
      k < l₀.arena.size ∧ [k, n] <:+: (scanBlock t (l, events) block).1.stream ∧
      (scanBlock t (l, events) block).1.instr? k = some x ∧
      x.action.operator.isBinary = true ∧ x.action.target = some (.var v) ∧ y.id = n ∧
      y.block = x.block ∧ y.action = .copy (.var v) (.var temp) ∧ l₀.vars.size ≤ temp ∧
      temp < (scanBlock t (l, events) block).1.vars.size := by
  have hnot : n ∉ block.instrs ++ post := fun hmem => (hrest n hmem).1.not_ge hn
  obtain hyl | ⟨x, c, ty, hx, rfl, rfl⟩ :=
    scanBlock_outside h t events hy fun hmem => hnot (List.mem_append_left _ hmem)
  · -- what was inserted before stands in front of the block, and so does its computation
    obtain ⟨k, x, v, temp, hk, hnext, hx, hbinary, htarget, hid, hblock, hact, hle, hlt⟩ :=
      hc.new hn hyl
    obtain ⟨hkpre, hnext⟩ := scanBlock_adjacent h t events hnext hnot
    refine ⟨k, x, v, temp, hk, hnext, ?_, hbinary, htarget, hid, hblock, hact, hle,
      hlt.trans_le (scanBlock_vars_le h t events)⟩
    rw [scanBlock_untouched h t events (hk.trans_le hc.size) (notMem_of_mem_pre h hkpre), hx]
  · obtain ⟨k, z, hk, hnext, hz, hblock, hbinary, htarget⟩ := scanBlock_copy_behind h t events hx
    obtain ⟨hplaced, hlt⟩ := (finished_sound h t events).pending c (List.mem_of_getElem? hx)
    rw [← scanBlock_vars h] at hlt
    exact ⟨k, z, c.source, c.temp, (hrest k (List.mem_append_left _ hk)).1, hnext, hz, hbinary,
      htarget, rfl, hblock.symm, rfl, hc.vars_le.trans hplaced.temp, hlt⟩

lemma confined_temps {v : VarId} (hv : l₀.vars.size ≤ v)
    (hlt : v < (scanBlock t (l, events) block).1.vars.size) :
    ∃! n, l₀.arena.size ≤ n ∧ ∃ y, (scanBlock t (l, events) block).1.instr? n = some y ∧
      y.action.targetVar = some v := by
  have hnot {n : InstrId} (hn : l₀.arena.size ≤ n) : n ∉ block.instrs := fun hmem =>
    (hrest n (List.mem_append_left _ hmem)).1.not_ge hn
  by_cases hvl : v < l.vars.size
  · obtain ⟨n, ⟨hn, y, hy, htarget⟩, hunique⟩ := hc.temps v hv hvl
    refine ⟨n, ⟨hn, y, ?_, htarget⟩, ?_⟩
    · rw [scanBlock_untouched h t events (instr?_isSome_iff.1 (by rw [hy]; rfl)) (hnot hn), hy]
    · rintro m ⟨hm, z, hz, hztarget⟩
      obtain hzl | ⟨x, c, ty, hx, rfl, rfl⟩ := scanBlock_outside h t events hz (hnot hm)
      · exact hunique m ⟨hm, z, hzl, hztarget⟩
      · obtain rfl : c.temp = v := Option.some.inj hztarget
        have htemp := ((finished_sound h t events).pending c (List.mem_of_getElem? hx)).1.temp
        exact absurd hvl htemp.not_gt
  · obtain ⟨c, hmem, rfl⟩ := scanBlock_vars_new h t events (Nat.le_of_not_lt hvl) hlt
    obtain ⟨n, hn⟩ := List.mem_iff_getElem?.1 hmem
    obtain ⟨ty, hcopy⟩ := scanBlock_copy h t events hn
    refine ⟨l.arena.size + n, ⟨hc.size.trans (Nat.le_add_right _ _), _, hcopy, rfl⟩, ?_⟩
    rintro m ⟨-, z, hz, hztarget⟩
    exact scanBlock_assigns_temp h t events hz hn hztarget

/-- The scan of a block in which nothing has changed yet. -/
lemma confined_scanBlock : l₀.Confined (scanBlock t (l, events) block).1 where
  size := by
    rw [(scanBlock_spliced h t events).size, (finished_sound h t events).size]
    exact hc.size.trans (Nat.le_add_right _ _)
  stream := by
    rw [scanBlock_stream h, filter_weave, hc.stream]
    intro e he
    obtain ⟨n, c, -, rfl⟩ := mem_numberedFrom.1 he
    simpa using hc.size.trans (Nat.le_add_right _ _)
  old := confined_old hc h hrest t events
  new := confined_new hc h hrest t events
  temps _ hv hlt := confined_temps hc h hrest t events hv hlt
  vars := by
    obtain ⟨types, heq⟩ := hc.vars
    obtain ⟨types', heq'⟩ := scanned_vars t events (le_refl block.instrs.length)
    refine ⟨types ++ types', ?_⟩
    rw [scanBlock_vars h, finished, heq', heq, Variables.withTemporaries_append]
  ends := (scanBlock_ends h t events).trans hc.ends
  arrays := by
    obtain ⟨arena, stream, vars, heq⟩ := scanBlock_tables h t events
    rw [heq, hc.arrays]
  functions := by
    obtain ⟨arena, stream, vars, heq⟩ := scanBlock_tables h t events
    rw [heq, hc.functions]
  labels := by
    obtain ⟨arena, stream, vars, heq⟩ := scanBlock_tables h t events
    rw [heq, hc.labels]

end

/-- A run that began with `l₀` has still to scan the blocks, in which nothing has changed yet. -/
structure Underway (l₀ : Listing) (blocks : List Block) (l : Listing) : Prop
    extends Unscanned blocks l where
  unchanged : ∀ i ∈ blocks.flatMap (·.instrs), i < l₀.arena.size ∧ l.instr? i = l₀.instr? i

lemma Underway.start {l : Listing} (hl : l.Coherent) : Underway l l.blocks l where
  toUnscanned := .start hl
  unchanged i hi := by
    rw [hl.flatMap_blocks] at hi
    exact ⟨hl.mem_stream.1 hi, rfl⟩

lemma Underway.step {l₀ l : Listing} {block : Block} {blocks : List Block}
    (h : Underway l₀ (block :: blocks) l) (t : Toggles) (events : Log) :
    Underway l₀ blocks (scanBlock t (l, events) block).1 where
  toUnscanned := h.toUnscanned.step t events
  unchanged i hi := by
    obtain ⟨done, hb⟩ := h.toRemaining.hasBlock
    obtain ⟨hlt, hsame⟩ := h.unchanged i (List.mem_append_right _ hi)
    have hmem : i ∈ l.stream := hb.stream ▸ List.mem_append_right _ hi
    refine ⟨hlt, ?_⟩
    rw [scanBlock_untouched hb t events (h.coherent.mem_stream.1 hmem) (notMem_of_mem_post hb hi),
      hsame]

lemma Underway.scan_confined {l₀ l : Listing} {blocks : List Block} (h : Underway l₀ blocks l)
    (hc : l₀.Confined l) (t : Toggles) (events : Log) (changed : Bool) :
    l₀.Confined (blocks.foldl (scanNext t) (l, events, changed)).1 := by
  induction blocks generalizing l events changed with
  | nil => exact hc
  | cons block blocks ih =>
    obtain ⟨done, hb⟩ := h.toRemaining.hasBlock
    exact ih (h.step t events) (confined_scanBlock hc hb h.unchanged t events) _ _

end ValueNumbering

open ValueNumbering in
/-- **The edits of value numbering are confined.** A run only turns computations into copies and
inserts copies of values that would be lost, each into a temporary of its own, directly behind the
computation of the value and so never at an end of a block. -/
theorem Listing.Reachable.confined {l : Listing} (h : l.Reachable) (t : Toggles) :
    l.Confined (run t l).1 :=
  (Underway.start h.coherent).scan_confined (.refl h.coherent) t [] false

open ValueNumbering in
/-- The first quotient is followed by a copy of its target, which the second one has become a copy
of. -/
theorem Listing.Reachable.confined_twoQuotients : ∃ l,
    Listing.ofProgram twoQuotients = .ok l ∧ l.Confined (run .standard l).1 ∧
    l.stream = [0, 1, 2] ∧ (run .standard l).1.stream = [0, 3, 1, 2] ∧
    (run .standard l).1.vars = l.vars.withTemporaries [.int] := by
  have hok : ((Listing.ofProgram twoQuotients).toOption.map fun l =>
      decide (l.stream = [0, 1, 2] ∧ (run .standard l).1.stream = [0, 3, 1, 2] ∧
        (run .standard l).1.vars = l.vars.withTemporaries [.int])) = some true := by decide +kernel
  obtain ⟨l, hl, hok⟩ := toOption_map_eq_some.1 hok
  exact ⟨l, hl, Reachable.confined (.lowered hl) .standard, of_decide_eq_true hok⟩

end ThreeAddress
