import ThreeAddress.Proofs.Lowering.Context
import ThreeAddress.Proofs.Numbering.Simulation

/-!
Where the values come from that value numbering reuses. What the table knows was folded from
literals, or an instruction of the block has computed it that stays as it is. So a computation
that becomes a copy reads a literal, the variable of that earlier instruction, or the new
temporary that takes a copy of this variable right behind it.

The last part says where the instructions stand after the scan of a block: the old ones in their
order, and each copy between two of them.
-/

namespace ThreeAddress.ValueNumbering

open Listing Machine

lemma ofAction_eq_some {l : Listing} {a : Action} {f : Formula} :
    Formula.ofAction l a = some f → ∃ op lhs rhs w left right, a = .compute op lhs rhs w ∧
      Atom.ofOperand l lhs = some left ∧ Atom.ofOperand l rhs = some right ∧
      f = ⟨left, .binary op, right⟩ := by
  intro h
  obtain ⟨op, lhs, rhs, w, rfl⟩ := compute_of_ofAction h
  simp only [Formula.ofAction] at h
  split at h
  · obtain ⟨left, hleft, h⟩ := Option.bind_eq_some_iff.1 h
    obtain ⟨right, hright, h⟩ := Option.bind_eq_some_iff.1 h
    exact ⟨op, lhs, rhs, w, left, right, rfl, hleft, hright, (Option.some.inj h).symm⟩
  · cases h

/-- An instruction before position `j` of the block computes the formula into a variable, and it
is in both listings. -/
structure Origin (l l' : Listing) (body : List InstrId) (j : Nat) (f : Formula) (k : Nat)
    (v : VarId) : Prop where
  lt : k < j
  kept : ∃ i x, body[k]? = some i ∧ l.instr? i = some x ∧ l'.instr? i = some x ∧
    Formula.ofAction l x.action = some f ∧ x.action.targetVar = some v

/-- Where the value of a formula was computed, after `j` instructions. -/
def Holding.Traced (l l' : Listing) (body : List InstrId) (j : Nat) (pending : List CopyOrder)
    (f : Formula) : Holding → Prop
  | literal value => f.fold? = some value
  | live v k | detached v k => Origin l l' body j f k v
  | materialized v k temp => Origin l l' body j f k v ∧ ⟨k, temp, v⟩ ∈ pending

/-- What stands for the value of a formula at position `j`. -/
inductive Supplies (l l' : Listing) (body : List InstrId) (pending : List CopyOrder) (j : Nat)
    (f : Formula) : Operand → Prop
  | literal {value : Atom} : f.fold? = some value → Supplies l l' body pending j f value.operand
  | holder {v : VarId} {k : Nat} : Origin l l' body j f k v →
    Supplies l l' body pending j f (.var v)
  | copied {c : CopyOrder} : Origin l l' body j f c.origin c.source → c ∈ pending →
    Supplies l l' body pending j f (.var c.temp)

section

variable {l l' : Listing} {body : List InstrId} {j j' fresh : Nat} {f : Formula}
  {table table' : Table} {p p' : List CopyOrder} {a a' : Action}

lemma Origin.mono {k : Nat} {v : VarId} (h : Origin l l' body j f k v) (hj : j ≤ j') :
    Origin l l' body j' f k v :=
  ⟨h.lt.trans_le hj, h.kept⟩

lemma Holding.Traced.mono {h : Holding} (hh : h.Traced l l' body j p f) (hj : j ≤ j')
    (hp : p ⊆ p') : h.Traced l l' body j' p' f := by
  cases h with
  | literal value => exact hh
  | live v k => exact Origin.mono hh hj
  | detached v k => exact Origin.mono hh hj
  | materialized v k temp => exact ⟨hh.1.mono hj, hp hh.2⟩

lemma Holding.Traced.detach {h : Holding} (hh : h.Traced l l' body j p f) (w : VarId) :
    (h.detach w).Traced l l' body j p f := by
  cases h with
  | live v k =>
    rw [Holding.detach]
    split <;> exact hh
  | _ => exact hh

lemma traced_assign (ht : ∀ {f h}, (f, h) ∈ table → h.Traced l l' body j p f) {w : VarId}
    {keeps : Bool} {f : Formula} {h : Holding} (hm : (f, h) ∈ table.assign w keeps) :
    h.Traced l l' body j p f := by
  obtain ⟨old, hold, -, rfl | rfl⟩ := Table.mem_of_mem_assign hm
  · exact ht hold
  · exact (ht hold).detach w

/-- One instruction more. What the table learns from it is computed by an instruction that
stays. -/
lemma Numbered.traced (h : Numbered (Formula.ofAction l) fresh j table p a table' p' a')
    {i : InstrId} {x : Instr} (hi : body[j]? = some i) (hx : l.instr? i = some x)
    (hact : x.action = a) (hx' : l'.instr? i = some { x with action := a' })
    (ht : ∀ {f h}, (f, h) ∈ table → h.Traced l l' body j p f) {f : Formula} {g : Holding}
    (hm : (f, g) ∈ table') : g.Traced l l' body (j + 1) p' f := by
  have hold {t : Table} (hp : p ⊆ p') (h : ∀ {f h}, (f, h) ∈ t → h.Traced l l' body j p f)
      {f : Formula} {g : Holding} (hm : (f, g) ∈ t) : g.Traced l l' body (j + 1) p' f :=
    (h hm).mono (Nat.le_succ j) hp
  have hsub := h.subset
  cases h with
  | skip => exact hold hsub ht hm
  | assign => exact hold hsub (traced_assign ht) hm
  | reuse => exact hold hsub (traced_assign ht) hm
  | materialize hw hf hd =>
    refine traced_assign (fun hm' => ?_) hm
    obtain ⟨rfl, rfl⟩ | ⟨hm', -⟩ := Table.mem_insert.1 hm'
    · exact ⟨Origin.mono (ht hd) (Nat.le_succ j), CopyOrder.mem_enqueue.2 (.inl rfl)⟩
    · exact hold hsub ht hm'
  | fold hw hf hlit =>
    obtain ⟨rfl, rfl⟩ | ⟨hm', -⟩ := Table.mem_insert.1 hm
    · exact hlit
    · exact hold hsub (traced_assign ht) hm'
  | miss hw hf =>
    split at hm
    · exact hold hsub (traced_assign ht) hm
    · obtain ⟨rfl, rfl⟩ | ⟨hm', -⟩ := Table.mem_insert.1 hm
      · subst hact
        exact ⟨Nat.lt_succ_self j, i, x, hi, hx, hx', hf, hw⟩
      · exact hold hsub (traced_assign ht) hm'

/-- An action stays, or a value that the table supplies is copied in its place. -/
lemma Numbered.supplied {formula : Action → Option Formula}
    (h : Numbered formula fresh j table p a table' p' a')
    (ht : ∀ {f h}, (f, h) ∈ table → h.Traced l l' body j p f) :
    a' = a ∨ ∃ f w o, formula a = some f ∧ a.targetVar = some w ∧ a' = .copy o (.var w) ∧
      Supplies l l' body p' j f o := by
  cases h with
  | @reuse w f h o hw hf hm ho =>
    refine .inr ⟨f, w, o, hf, hw, rfl, ?_⟩
    have htraced := ht hm
    cases h with
    | literal value => exact Option.some.inj ho ▸ .literal htraced
    | live v k => exact Option.some.inj ho ▸ .holder htraced
    | materialized v k temp =>
      exact Option.some.inj ho ▸ .copied (c := ⟨k, temp, v⟩) htraced.1 htraced.2
    | detached v k => cases ho
  | @materialize w f v origin hw hf hm =>
    exact .inr ⟨f, w, _, hf, hw, rfl,
      .copied (c := ⟨origin, fresh, v⟩) (ht hm) (CopyOrder.mem_enqueue.2 (.inl rfl))⟩
  | @fold w f literal hw hf hlit => exact .inr ⟨f, w, _, hf, hw, rfl, .literal hlit⟩
  | _ => exact .inl rfl

lemma Supplies.mono {o : Operand} (h : Supplies l l' body p j f o) (hp : p ⊆ p') :
    Supplies l l' body p' j f o := by
  cases h with
  | literal hlit => exact .literal hlit
  | holder horigin => exact .holder horigin
  | copied horigin hc => exact .copied horigin (hp hc)

end

/-! ### New variables -/

namespace Scan

/-- What the scan does to the variables: each new one is a temporary for a pending copy, of the
type of what it copies. -/
structure Supplied (l : Listing) (s : Scan) : Prop where
  old : ∀ v < l.vars.size, s.listing.vars.get? v = l.vars.get? v
  new : ∀ v, l.vars.size ≤ v → v < s.listing.vars.size → ∃ c ∈ s.pending, c.temp = v
  temp : ∀ c ∈ s.pending, ∃ y, s.listing.vars.get? c.temp = some y ∧ y.isTemporary = true ∧
    y.marks = .ofPass ∧ y.ty = (l.typeOf? (.var c.source)).getD .none

variable {t : Toggles} {block : Block} {l : Listing} {s : Scan} {i : InstrId} {j : Nat}

/-- A step leaves the variables as they are, or it adds a temporary with a copy to fill it. -/
lemma step_vars (t : Toggles) (block : Block) (s : Scan) (i : InstrId) (j : Nat) :
    (s.step t block (i, j)).listing.vars = s.listing.vars ∧
        (s.step t block (i, j)).pending = s.pending ∨
      ∃ f v origin, (f, Holding.detached v origin) ∈ s.table ∧
        (s.step t block (i, j)).listing.vars =
          (s.listing.vars.temporary ((s.listing.typeOf? (.var v)).getD .none) .ofPass).1 ∧
        (s.step t block (i, j)).pending =
          CopyOrder.enqueue ⟨origin, s.listing.vars.size, v⟩ s.pending := by
  cases hx : s.listing.instr? i with
  | none => exact .inl ⟨by simp [step, hx], by simp [step, hx]⟩
  | some x =>
    have hstep := step_stepped t block j hx
    generalize s.step t block (i, j) = s' at hstep ⊢
    cases hstep with
    | @materialize w f v origin _ _ _ hmem => exact .inr ⟨f, v, origin, hmem, rfl, rfl⟩
    | miss =>
      refine .inl ?_
      split <;> exact ⟨rfl, rfl⟩
    | _ => exact .inl ⟨rfl, rfl⟩

lemma supplied_start (l : Listing) (events : Log) : Supplied l (.start l events) :=
  ⟨fun _ _ => rfl, fun v hle hlt => absurd hlt (Nat.not_lt.2 hle), by simp⟩

lemma Supplied.step (hs : s.Supplied l) {body : List InstrId} (hsound : s.Sound l body j)
    (hl : l.Coherent) (t : Toggles) (block : Block) (i : InstrId) :
    (s.step t block (i, j)).Supplied l := by
  obtain ⟨hvars, hpending⟩ | ⟨f, v, origin, hm, hvars, hpending⟩ := step_vars t block s i j
  · refine ⟨?_, ?_, ?_⟩
    · rw [hvars]
      exact hs.old
    · rw [hvars, hpending]
      exact hs.new
    · rw [hvars, hpending]
      exact hs.temp
  · have hle := hsound.vars_le
    have hsource : v < l.vars.size := targetAt_lt hl (hsound.table hm).2
    refine ⟨fun w hw => ?_, fun w hw hlt => ?_, fun c hc => ?_⟩
    · rw [hvars, Variables.get?_temporary, if_neg (hw.trans_le hle).ne, hs.old w hw]
    · rw [hpending]
      rw [hvars, Variables.size_temporary] at hlt
      obtain hlt | rfl := Nat.lt_succ_iff_lt_or_eq.1 hlt
      · obtain ⟨c, hc, htemp⟩ := hs.new w hw hlt
        exact ⟨c, CopyOrder.mem_enqueue.2 (.inr hc), htemp⟩
      · exact ⟨_, CopyOrder.mem_enqueue.2 (.inl rfl), rfl⟩
    · rw [hpending] at hc
      rw [hvars]
      obtain rfl | hc := CopyOrder.mem_enqueue.1 hc
      · rw [Variables.get?_temporary, if_pos rfl]
        refine ⟨_, rfl, rfl, rfl, ?_⟩
        simp only [typeOf?, hs.old v hsource]
      · obtain ⟨y, hy, hrest⟩ := hs.temp c hc
        refine ⟨y, ?_, hrest⟩
        rw [Variables.get?_temporary, if_neg (hsound.pending c hc).2.ne, hy]

end Scan

/-! ### The scan of a block -/

section

variable {l : Listing} {block : Block} {pre post : List InstrId}
  (h : l.HasBlock block pre post) (t : Toggles) (events : Log)

include h

lemma scanned_traced {j : Nat} (hj : j ≤ block.instrs.length) {f : Formula} {g : Holding}
    (hm : (f, g) ∈ (scanned t block l events j).table) :
    g.Traced l (scanBlock t (l, events) block).1 block.instrs j
      (scanned t block l events j).pending f := by
  induction j generalizing f g with
  | zero => simp [scanned] at hm
  | succ j ih =>
    have hi : block.instrs[j]? = some block.instrs[j] := List.getElem?_eq_getElem hj
    obtain ⟨x, hx, -⟩ := h.exists_instr hi
    obtain ⟨fresh, a', hn, -, hx'⟩ := scanBlock_numbered h t events hi hx
    exact hn.traced hi hx rfl hx' (ih (Nat.le_of_succ_le hj)) hm

/-- An instruction of the block stays, or it is a computation and becomes a copy of what supplies
its value. -/
theorem scanBlock_supplied {j : Nat} {i : InstrId} {x : Instr} (hi : block.instrs[j]? = some i)
    (hx : l.instr? i = some x) : (scanBlock t (l, events) block).1.instr? i = some x ∨
      ∃ f w o, Formula.ofAction l x.action = some f ∧ x.action.targetVar = some w ∧
        (scanBlock t (l, events) block).1.instr? i =
          some { x with action := .copy o (.var w) } ∧
        Supplies l (scanBlock t (l, events) block).1 block.instrs
          (finished t block l events).pending j f o := by
  obtain ⟨fresh, a', hn, hsub, hx'⟩ := scanBlock_numbered h t events hi hx
  have hlt : j < block.instrs.length := (List.getElem?_eq_some_iff.1 hi).1
  obtain rfl | ⟨f, w, o, hf, hw, rfl, hsupplies⟩ := hn.supplied (scanned_traced h t events hlt.le)
  · exact .inl hx'
  · exact .inr ⟨f, w, o, hf, hw, hx', hsupplies.mono hsub⟩

lemma scanned_supplied {j : Nat} (hj : j ≤ block.instrs.length) :
    (scanned t block l events j).Supplied l := by
  induction j with
  | zero => exact Scan.supplied_start l events
  | succ j ih =>
    have hi : block.instrs[j]? = some block.instrs[j] := List.getElem?_eq_getElem hj
    have hsound := Scan.scanned_sound h.coherent h.nodup (fun _ hi => h.mem_stream hi) t events
      (Nat.le_of_succ_le hj)
    rw [scanned_succ hi]
    exact (ih (Nat.le_of_succ_le hj)).step hsound h.coherent t block _

lemma scanBlock_vars_old {v : VarId} (hv : v < l.vars.size) :
    (scanBlock t (l, events) block).1.vars.get? v = l.vars.get? v := by
  rw [scanBlock_vars h]
  exact (scanned_supplied h t events le_rfl).old v hv

lemma scanBlock_vars_new {v : VarId} (hv : l.vars.size ≤ v)
    (hlt : v < (scanBlock t (l, events) block).1.vars.size) :
    ∃ c ∈ (finished t block l events).pending, c.temp = v := by
  rw [scanBlock_vars h] at hlt
  exact (scanned_supplied h t events le_rfl).new v hv hlt

lemma scanBlock_temp {c : CopyOrder} (hc : c ∈ (finished t block l events).pending) :
    ∃ y, (scanBlock t (l, events) block).1.vars.get? c.temp = some y ∧ y.isTemporary = true ∧
      y.marks = .ofPass ∧ y.ty = (l.typeOf? (.var c.source)).getD .none := by
  rw [scanBlock_vars h]
  exact (scanned_supplied h t events le_rfl).temp c hc

/-! ### Positions -/

lemma moved_lt {pc q : Nat} (hlt : pc < q) (hq : q ≤ l.stream.length) :
    moved t block l events pre pc < moved t block l events pre q := by
  induction q, hlt using Nat.le_induction with
  | base =>
    rw [moved_succ h t events (List.getElem?_eq_getElem hq)]
    omega
  | succ q _ ih =>
    rw [moved_succ h t events (List.getElem?_eq_getElem hq)]
    have := ih (Nat.le_of_succ_le hq)
    omega

/-- What stands in the place of an instruction. -/
lemma scanBlock_at {pc : Nat} {x : Instr} (hx : instrAt? l pc = some x) :
    instrAt? (scanBlock t (l, events) block).1 (moved t block l events pre pc) = some x ∨
      ∃ j f w o, pc = pre.length + j ∧ j < block.instrs.length ∧ x.block = block.id ∧
        Formula.ofAction l x.action = some f ∧ x.action.targetVar = some w ∧
        instrAt? (scanBlock t (l, events) block).1 (moved t block l events pre pc) =
          some { x with action := .copy o (.var w) } ∧
        Supplies l (scanBlock t (l, events) block).1 block.instrs
          (finished t block l events).pending j f o := by
  obtain ⟨i, hi, hinstr⟩ := Option.bind_eq_some_iff.1 hx
  rw [instrAt?_moved h, hi, Option.bind_some]
  by_cases hmem : i ∈ block.instrs
  · obtain ⟨j, hj, rfl⟩ := exists_position h hi hmem
    obtain hkept | ⟨f, w, o, hf, hw, hcopy, hsupplies⟩ := scanBlock_supplied h t events hj hinstr
    · exact .inl hkept
    · exact .inr ⟨j, f, w, o, rfl, (List.getElem?_eq_some_iff.1 hj).1, h.stamped hmem hinstr, hf,
        hw, hcopy, hsupplies⟩
  · rw [scanBlock_untouched h t events (instr?_isSome_iff.1 (by rw [hinstr]; rfl)) hmem]
    exact .inl hinstr

lemma pending_temp_inj {n n' : Nat} {c c' : CopyOrder}
    (hc : (finished t block l events).pending[n]? = some c)
    (hc' : (finished t block l events).pending[n']? = some c') (htemp : c.temp = c'.temp) :
    n = n' := by
  have hdistinct := (finished_sound h t events).distinct
  obtain ⟨hn, rfl⟩ := List.getElem?_eq_some_iff.1 hc
  obtain ⟨hn', rfl⟩ := List.getElem?_eq_some_iff.1 hc'
  obtain hlt | rfl | hgt := Nat.lt_trichotomy n n'
  · exact absurd htemp (List.pairwise_iff_getElem.1 hdistinct n n' hn hn' hlt)
  · rfl
  · exact absurd htemp.symm (List.pairwise_iff_getElem.1 hdistinct n' n hn' hn hgt)

/-- Only its own copy assigns a new temporary. -/
lemma scanBlock_assigns_temp {i : InstrId} {y : Instr} {n : Nat} {c : CopyOrder}
    (hy : (scanBlock t (l, events) block).1.instr? i = some y)
    (hc : (finished t block l events).pending[n]? = some c)
    (htarget : y.action.targetVar = some c.temp) : i = l.arena.size + n := by
  have hnew := ((finished_sound h t events).pending c (List.mem_of_getElem? hc)).1.temp
  obtain ⟨x, hx, hr⟩ | ⟨n', c', ty, hc', rfl, rfl⟩ := scanBlock_cases h t events hy
  · rw [hr.targetVar] at htarget
    exact absurd ((h.coherent.inScope hx).targetVar_lt htarget) hnew.not_gt
  · have htemp : c'.temp = c.temp := Option.some.inj htarget
    rw [pending_temp_inj h t events hc' hc htemp]

/-- A copy stands behind the computation that it belongs to, before the next instruction. -/
lemma scanBlock_copy_at {n : Nat} {c : CopyOrder}
    (hc : (finished t block l events).pending[n]? = some c) :
    ∃ q, (scanBlock t (l, events) block).1.stream[q]? = some (l.arena.size + n) ∧
      moved t block l events pre (pre.length + c.origin) < q ∧
      q < moved t block l events pre (pre.length + c.origin + 1) := by
  have hmem := List.mem_of_getElem? hc
  obtain ⟨i, -, -, -, hi, -⟩ := pending_neighbours h t events hmem
  obtain ⟨k, hk⟩ := List.mem_iff_getElem?.1 ((mem_ordersAt t events).2 ⟨hmem, rfl⟩ :
    c ∈ ordersAt t block l events pre (pre.length + c.origin))
  have hlt := (List.getElem?_eq_some_iff.1 hk).1
  obtain ⟨id, ty, hcopy⟩ := instrAt?_copy h t events hi hk
  obtain ⟨i', hi', hcopy⟩ := Option.bind_eq_some_iff.1 hcopy
  obtain rfl := scanBlock_assigns_temp h t events hcopy hc rfl
  refine ⟨_, hi', by omega, ?_⟩
  rw [moved_succ h t events hi]
  omega

/-- What stands at a position after the scan: an instruction that was there before, or a copy. -/
lemma scanBlock_at_cases {q : Nat} {y : Instr}
    (hy : instrAt? (scanBlock t (l, events) block).1 q = some y) :
    (∃ pc x, instrAt? l pc = some x ∧ q = moved t block l events pre pc ∧ x.Reshaped y) ∨
      ∃ c ∈ (finished t block l events).pending,
        y.action = .copy (.var c.source) (.var c.temp) ∧ y.block = block.id ∧
        moved t block l events pre (pre.length + c.origin) < q ∧
        q < moved t block l events pre (pre.length + c.origin + 1) := by
  obtain ⟨i, hi, hinstr⟩ := Option.bind_eq_some_iff.1 hy
  have hnodup := (scanBlock_coherent h t events).nodup
  have hsame {q' : Nat} (hq' : (scanBlock t (l, events) block).1.stream[q']? = some i) : q' = q :=
    (List.getElem?_inj (List.getElem?_eq_some_iff.1 hq').1 hnodup).1 (hq'.trans hi.symm)
  obtain ⟨x, hx, hr⟩ | ⟨n, c, ty, hc, rfl, rfl⟩ := scanBlock_cases h t events hinstr
  · have hmem : i ∈ l.stream := h.coherent.mem_stream.2 (instr?_isSome_iff.1 (by rw [hx]; rfl))
    obtain ⟨pc, hpc⟩ := List.mem_iff_getElem?.1 hmem
    refine .inl ⟨pc, x, by rw [instrAt?, hpc, Option.bind_some, hx], ?_, hr⟩
    exact (hsame ((getElem?_moved h t events pc).trans hpc)).symm
  · obtain ⟨q', hq', hlow, hhigh⟩ := scanBlock_copy_at h t events hc
    obtain rfl := hsame hq'
    exact .inr ⟨c, List.mem_of_getElem? hc, rfl, rfl, hlow, hhigh⟩

/-- The computation that a copy belongs to assigns what is copied. -/
lemma pending_source {c : CopyOrder} (hc : c ∈ (finished t block l events).pending) :
    ∃ x, instrAt? l (pre.length + c.origin) = some x ∧ x.block = block.id ∧
      x.action.targetVar = some c.source := by
  have hp := ((finished_sound h t events).pending c hc).1
  obtain ⟨i, -, x, -, hi, -, hbody, hx, -, hb, -⟩ := pending_neighbours h t events hc
  refine ⟨x, by rw [instrAt?, hi, Option.bind_some, hx], hb, ?_⟩
  rw [← targetAt_eq hbody hx, hp.source]

/-- The computation that an operand is taken from. -/
lemma Origin.exists_at {j k : Nat} {f : Formula} {v : VarId}
    (horigin : Origin l (scanBlock t (l, events) block).1 block.instrs j f k v) :
    ∃ x, instrAt? l (pre.length + k) = some x ∧ x.block = block.id ∧
      instrAt? (scanBlock t (l, events) block).1
        (moved t block l events pre (pre.length + k)) = some x ∧
      Formula.ofAction l x.action = some f ∧ x.action.targetVar = some v := by
  obtain ⟨i, x, hi, hx, hx', hf, hv⟩ := horigin.kept
  have hk := (h.getElem? (List.getElem?_eq_some_iff.1 hi).1).trans hi
  refine ⟨x, by rw [instrAt?, hk, Option.bind_some, hx], h.stamped (List.mem_of_getElem? hi) hx,
    ?_, hf, hv⟩
  rw [instrAt?_moved h, hk, Option.bind_some, hx']

end

end ThreeAddress.ValueNumbering
