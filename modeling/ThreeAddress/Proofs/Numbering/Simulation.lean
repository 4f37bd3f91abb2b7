import ThreeAddress.Proofs.Numbering.Agreement
import ThreeAddress.Proofs.Numbering.Block
import ThreeAddress.Proofs.Numbering.Values

/-!
A run of the listing before the scan of a block, and one of the listing after it. Where the
first run performs an instruction, the second one performs what has become of it and then
makes the copies that were inserted behind it.
-/

namespace ThreeAddress.ValueNumbering

open Machine

variable {W : Type}

/-! ### The copies -/

/-- The data after copies have been made. -/
def copyAll (cs : List CopyOrder) (d : Data W) : Data W :=
  cs.foldl (fun d c => d.set c.temp (d.vars c.source)) d

lemma copyAll_cons (c : CopyOrder) (cs : List CopyOrder) (d : Data W) :
    copyAll (c :: cs) d = copyAll cs (d.set c.temp (d.vars c.source)) := rfl

lemma copyAll_of_ne {cs : List CopyOrder} {v : VarId} (h : ∀ c ∈ cs, c.temp ≠ v) (d : Data W) :
    (copyAll cs d).vars v = d.vars v := by
  induction cs generalizing d with
  | nil => rfl
  | cons c cs ih =>
    obtain ⟨hc, hcs⟩ := List.forall_mem_cons.1 h
    rw [copyAll_cons, ih hcs]
    exact Function.update_of_ne hc.symm _ _

lemma copyAll_temp {k : Nat} {cs : List CopyOrder} (hk : ∀ c ∈ cs, c.source < k ∧ k ≤ c.temp)
    (hdistinct : cs.Pairwise fun c c' => c.temp ≠ c'.temp) (d : Data W) {c : CopyOrder}
    (hc : c ∈ cs) : (copyAll cs d).vars c.temp = d.vars c.source := by
  induction cs generalizing d with
  | nil => simp at hc
  | cons c₀ cs ih =>
    obtain ⟨hne, hdistinct⟩ := List.pairwise_cons.1 hdistinct
    obtain ⟨hk₀, hk⟩ := List.forall_mem_cons.1 hk
    rw [copyAll_cons]
    rcases List.mem_cons.1 hc with rfl | hmem
    · rw [copyAll_of_ne fun c' hc' => (hne c' hc').symm]
      exact Function.update_self _ _ _
    · rw [ih hk hdistinct _ hmem]
      exact Function.update_of_ne ((hk c hmem).1.trans_le hk₀.2).ne _ _

lemma copyAll_agree {k : Nat} {cs : List CopyOrder} (hk : ∀ c ∈ cs, k ≤ c.temp) {d d' : Data W}
    (hd : d.Agree k d') : d.Agree k (copyAll cs d') := by
  induction cs generalizing d' with
  | nil => exact hd
  | cons c cs ih =>
    obtain ⟨hc, hcs⟩ := List.forall_mem_cons.1 hk
    exact ih hcs (hd.set_right hc _)

/-- Nothing is seen of copies that stand within a block. -/
lemma run_copies {l : Listing} (env : Environment W) {q : Nat} {b : BlockId} {cs : List CopyOrder}
    (hcs : ∀ {y : Nat} {c}, cs[y]? = some c → ∃ id ty,
      instrAt? l (q + y) = some ⟨id, .copy (.var c.source) (.var c.temp), ty, b⟩)
    (hend : cs ≠ [] → (instrAt? l (q + cs.length)).map (·.block) = some b) (d : Data W)
    (log : List Observation) {y : Nat} (hy : y ≤ cs.length) :
    Machine.run l env y ⟨q, d, log, true⟩ = ⟨q + y, copyAll (cs.take y) d, log, true⟩ := by
  induction y with
  | zero => rfl
  | succ y ih =>
    have hget : cs[y]? = some cs[y] := List.getElem?_eq_getElem hy
    obtain ⟨id, ty, hinstr⟩ := hcs hget
    have hnext : (instrAt? l (q + y + 1)).map (·.block) = some b := by
      rcases Nat.lt_or_ge (y + 1) cs.length with hlt | hge
      · obtain ⟨id', ty', hinstr'⟩ := hcs (List.getElem?_eq_getElem hlt)
        rw [Nat.add_assoc, hinstr']
        rfl
      · rw [Nat.add_assoc, Nat.le_antisymm hy hge]
        exact hend (List.ne_nil_of_mem (List.getElem_mem hy))
    have htake : copyAll (cs.take (y + 1)) d =
        (copyAll (cs.take y) d).set cs[y].temp ((copyAll (cs.take y) d).vars cs[y].source) := by
      rw [← List.take_append_getElem hy, copyAll, List.foldl_append]
      rfl
    rw [run_add l env y 1, ih (Nat.le_of_succ_le hy), htake, run_one, step_eq env rfl hinstr]
    have hlast : isLast l (q + y)
        ⟨id, .copy (.var cs[y].source) (.var cs[y].temp), ty, b⟩ = false := by
      rw [isLast, hnext]
      simp
    simp [perform, leaving, hlast, nextPc, Transfer.continues, Data.read, Nat.add_assoc]

/-! ### One instruction -/

section

variable {l l' : Listing} {env : Environment W} {d d' : Data W}

/-- A copy does what the computation in its place does, if it reads the value of its
formula. -/
lemma perform_copy {k : Nat} {op : BinaryOp} {lhs rhs o : Operand} {w : VarId} {f : Formula}
    (hf : Formula.ofAction l (.compute op lhs rhs w) = some f)
    (hv : f.value d.vars = some (d'.read l' o)) (hd : d.Agree k d') :
    (perform l env d (.compute op lhs rhs w)).Agree k (perform l' env d' (.copy o (.var w))) := by
  simp only [perform, Formula.value_of_ofAction hf, hv]
  exact ⟨hd.set w _, rfl, rfl⟩

lemma Numbered.perform_agree {fresh j : Nat} {table table' : Table} {q q' p : List CopyOrder}
    {body : List InstrId} {a a' : Action}
    (hn : Numbered (Formula.ofAction l) fresh j table q a table' q' a') (hl : l.Coherent)
    (hr : l.Reshaped l') (hlabels : l'.labels = l.labels) (ha : a.InScope l)
    (hplaced : ∀ {f h}, (f, h) ∈ table → h.Placed l body j q) (hsub : q' ⊆ p)
    (hd : d.Agree l.vars.size d') (ht : table.Holds p d.vars d'.vars) :
    (perform l env d a).Agree l.vars.size (perform l' env d' a') := by
  have hcopy {w : VarId} {f : Formula} {o : Operand} (hw : a.targetVar = some w)
      (hf : Formula.ofAction l a = some f) (hv : f.value d.vars = some (d'.read l' o)) :
      (perform l env d a).Agree l.vars.size (perform l' env d' (.copy o (.var w))) := by
    obtain ⟨op, lhs, rhs, w', rfl⟩ := compute_of_ofAction hf
    obtain rfl : w' = w := Option.some.inj hw
    exact perform_copy hf hv hd
  cases hn with
  | reuse hw hf hm ho =>
    exact hcopy hw hf ((ht _ _ hm).operand (hplaced hm) hl hd.vars ho l' d' rfl)
  | materialize hw hf hm =>
    exact hcopy hw hf (ht _ _ hm _ (hsub (CopyOrder.mem_enqueue.2 (.inl rfl))) rfl)
  | @fold w f literal hw hf hlit =>
    refine hcopy hw hf ?_
    rw [Formula.value_of_fold? hlit]
    have hvar := var?_of_fold? hlit
    cases literal with
    | var v => simp [Atom.var?] at hvar
    | _ => rfl
  | _ => exact Machine.perform_agree hl hr hlabels env hd ha

/-- A computation that does not trap leaves the value of its formula in its target. -/
lemma value_of_perform {a : Action} {f : Formula} {w : VarId} {x : Value}
    (hf : Formula.ofAction l a = some f) (hw : a.targetVar = some w)
    (hfall : (perform l env d a).transfer ≠ .trapped)
    (hx : (perform l env d a).data.vars = Function.update d.vars w x) :
    f.value d.vars = some x := by
  obtain ⟨op, lhs, rhs, w', rfl⟩ := compute_of_ofAction hf
  obtain rfl : w' = w := Option.some.inj hw
  have hvalue := Formula.value_of_ofAction (d := d) hf
  simp only [perform] at hfall hx
  cases hb : Value.binary op (d.read l lhs) (d.read l rhs) with
  | none => simp [hb] at hfall
  | some y =>
    simp only [hb] at hx
    have hxy := congrFun hx w'
    simp only [Data.set, Function.update_self] at hxy
    rw [← hvalue, hb, hxy]

end

/-! ### Positions -/

section

variable {l : Listing} {block : Block} {pre post : List InstrId}
  (h : l.HasBlock block pre post) (t : Toggles) (events : Log)

/-- Where the instruction at a position is found after the scan of the block. -/
def moved (t : Toggles) (block : Block) (l : Listing) (events : Log) (pre : List InstrId)
    (pc : Nat) : Nat :=
  offset (numberedFrom pre.length l.arena.size (finished t block l events).pending) l.stream pc

include h

lemma getElem?_moved (pc : Nat) :
    (scanBlock t (l, events) block).1.stream[moved t block l events pre pc]? = l.stream[pc]? := by
  rw [scanBlock_stream h]
  exact getElem?_offset l.stream pc

lemma instrAt?_moved (pc : Nat) :
    instrAt? (scanBlock t (l, events) block).1 (moved t block l events pre pc) =
      l.stream[pc]?.bind (scanBlock t (l, events) block).1.instr? := by
  rw [instrAt?, getElem?_moved h]

lemma moved_length : moved t block l events pre l.stream.length =
    (scanBlock t (l, events) block).1.stream.length := by
  rw [scanBlock_stream h, moved, offset, List.take_length]

lemma position_moved (label : LabelId) :
    position (scanBlock t (l, events) block).1 label =
      moved t block l events pre (position l label) := by
  have hlabels : (scanBlock t (l, events) block).1.labels = l.labels := by
    obtain ⟨arena, stream, vars, heq⟩ := scanBlock_tables h t events
    rw [heq]
  unfold position
  rw [hlabels]
  cases hsite : (l.labels.get? label).bind (·.site) with
  | none => exact (moved_length h t events).symm
  | some site =>
    obtain ⟨info, hinfo, hsite⟩ := Option.bind_eq_some_iff.1 hsite
    obtain ⟨x, hx, -⟩ := h.coherent.sites hinfo hsite
    have hmem : site ∈ l.stream :=
      h.coherent.mem_stream.2 (Listing.instr?_isSome_iff.1 (by rw [hx]; rfl))
    have hget := (getElem?_moved h t events (l.stream.idxOf site)).trans
      (List.getElem?_idxOf hmem)
    obtain ⟨hlt, hget⟩ := List.getElem?_eq_some_iff.1 hget
    have hnodup := (scanBlock_coherent h t events).nodup
    conv_lhs => rw [← hget]
    exact hnodup.idxOf_getElem _ hlt

/-- Control never jumps into a block behind its start. -/
lemma position_inside {label : LabelId} {j : Nat} (hp : position l label = pre.length + j)
    (hj : j < block.instrs.length) : j = 0 := by
  have hget := (h.getElem? hj).trans (List.getElem?_eq_getElem hj)
  have hlt : pre.length + j < l.stream.length := (List.getElem?_eq_some_iff.1 hget).1
  unfold position at hp
  cases hsite : (l.labels.get? label).bind (·.site) with
  | none =>
    rw [hsite] at hp
    exact absurd hp hlt.ne'
  | some site =>
    rw [hsite] at hp
    obtain ⟨info, hinfo, hsite⟩ := Option.bind_eq_some_iff.1 hsite
    obtain ⟨x, hx, hact⟩ := h.coherent.sites hinfo hsite
    have hmem : site ∈ l.stream :=
      h.coherent.mem_stream.2 (Listing.instr?_isSome_iff.1 (by rw [hx]; rfl))
    have hidx := List.getElem?_idxOf hmem
    change l.stream.idxOf site = _ at hp
    rw [hp, hget] at hidx
    obtain rfl : block.instrs[j] = site := Option.some.inj hidx
    cases j with
    | zero => rfl
    | succ j =>
      have hprev := List.getElem?_eq_getElem (Nat.lt_of_succ_lt hj)
      obtain ⟨y, hy, -⟩ := h.exists_instr hprev
      have hlabel := (h.interior hprev (List.getElem?_eq_getElem hj) hy hx).2
      rw [hact] at hlabel
      simp [Action.definedLabel] at hlabel

omit h in
/-- The copies behind the instruction at a position of the stream. -/
def ordersAt (t : Toggles) (block : Block) (l : Listing) (events : Log) (pre : List InstrId)
    (pc : Nat) : List CopyOrder :=
  (finished t block l events).pending.filter (pre.length + ·.origin = pc)

omit h in
lemma mem_ordersAt {pc : Nat} {c : CopyOrder} : c ∈ ordersAt t block l events pre pc ↔
    c ∈ (finished t block l events).pending ∧ pre.length + c.origin = pc := by
  simp [ordersAt]

lemma copies_forall₂ (pc : Nat) :
    List.Forall₂ (fun id c => ∃ ty, (scanBlock t (l, events) block).1.instr? id =
        some ⟨id, .copy (.var c.source) (.var c.temp), ty, block.id⟩)
      (((numberedFrom pre.length l.arena.size (finished t block l events).pending).filter
        (·.1 = pc)).map Prod.snd) (ordersAt t block l events pre pc) :=
  forall₂_numberedFrom (fun hx => scanBlock_copy h t events hx) pc

lemma moved_succ {pc : Nat} {i : InstrId} (hi : l.stream[pc]? = some i) :
    moved t block l events pre (pc + 1) =
      moved t block l events pre pc + 1 + (ordersAt t block l events pre pc).length := by
  have hlen := (copies_forall₂ h t events pc).length_eq
  rw [List.length_map] at hlen
  rw [moved, offset_succ hi, hlen]
  rfl

lemma instrAt?_copy {pc y : Nat} {i : InstrId} {c : CopyOrder} (hi : l.stream[pc]? = some i)
    (hc : (ordersAt t block l events pre pc)[y]? = some c) :
    ∃ id ty, instrAt? (scanBlock t (l, events) block).1 (moved t block l events pre pc + 1 + y) =
      some ⟨id, .copy (.var c.source) (.var c.temp), ty, block.id⟩ := by
  have hcopies := copies_forall₂ h t events pc
  obtain ⟨hlt, rfl⟩ := List.getElem?_eq_some_iff.1 hc
  have hlt' := hcopies.length_eq ▸ hlt
  obtain ⟨ty, hty⟩ := (List.forall₂_iff_get.1 hcopies).2 y hlt' hlt
  have hget := getElem?_offset_add hi (x := y) (by simpa using hlt')
  rw [List.getElem?_eq_getElem hlt', ← scanBlock_stream h] at hget
  exact ⟨_, ty, by rw [instrAt?, moved, hget]; exact hty⟩

lemma block_moved (pc : Nat) :
    (instrAt? (scanBlock t (l, events) block).1 (moved t block l events pre pc)).map (·.block) =
      (instrAt? l pc).map (·.block) := by
  rw [instrAt?_moved h, instrAt?]
  cases hi : l.stream[pc]? with
  | none => rfl
  | some i =>
    obtain ⟨x, hx⟩ := h.coherent.exists_instr (List.mem_of_getElem? hi)
    obtain ⟨x', hx', hr⟩ := scanBlock_reshaped h t events hx
    simp [hx, hx', hr.block]

/-- Copies stand between two instructions of their block. -/
lemma block_of_mem_ordersAt {pc : Nat} {c : CopyOrder} (hc : c ∈ ordersAt t block l events pre pc) :
    (instrAt? l pc).map (·.block) = some block.id ∧
      (instrAt? l (pc + 1)).map (·.block) = some block.id := by
  obtain ⟨hmem, rfl⟩ := (mem_ordersAt t events).1 hc
  obtain ⟨i, i', x, x', hi, hi', -, hx, hx', hb, hb', -⟩ := pending_neighbours h t events hmem
  exact ⟨by simp [instrAt?, hi, hx, hb], by simp [instrAt?, hi', hx', hb']⟩

lemma isLast_moved {pc : Nat} {i : InstrId} {x x' : Instr} (hi : l.stream[pc]? = some i)
    (hx : l.instr? i = some x) (hr : x.Reshaped x') :
    isLast (scanBlock t (l, events) block).1 (moved t block l events pre pc) x' =
      isLast l pc x := by
  unfold isLast
  rw [hr.block]
  cases horders : ordersAt t block l events pre pc with
  | nil =>
    have hsucc := moved_succ h t events hi
    rw [horders, List.length_nil, Nat.add_zero] at hsucc
    rw [← hsucc, block_moved h]
  | cons c rest =>
    obtain ⟨hb, hb'⟩ := block_of_mem_ordersAt h t events
      (horders ▸ List.mem_cons_self : c ∈ ordersAt t block l events pre pc)
    obtain ⟨id, ty, hcopy⟩ := instrAt?_copy (y := 0) (c := c) h t events hi (by rw [horders]; rfl)
    rw [Nat.add_zero] at hcopy
    have hxb : x.block = block.id := by simpa [instrAt?, hi, hx] using hb
    rw [hcopy, hb', hxb]
    rfl

/-- The position in the block of an instruction that belongs to it. -/
lemma exists_position {pc : Nat} {i : InstrId} (hi : l.stream[pc]? = some i)
    (hmem : i ∈ block.instrs) : ∃ j, block.instrs[j]? = some i ∧ pc = pre.length + j := by
  obtain ⟨j, hj, rfl⟩ := List.getElem_of_mem hmem
  refine ⟨j, List.getElem?_eq_getElem hj, ?_⟩
  have hi' := (h.getElem? hj).trans (List.getElem?_eq_getElem hj)
  obtain ⟨hlt, heq⟩ := List.getElem?_eq_some_iff.1 hi
  obtain ⟨hlt', heq'⟩ := List.getElem?_eq_some_iff.1 hi'
  exact h.coherent.nodup.getElem_inj_iff.1 (heq.trans heq'.symm)

/-! ### The simulation -/

omit h in
/-- The second run stands where the first one stands, with the same log and the same data,
and what the scan had in its table there is right. -/
structure Tracks (t : Toggles) (block : Block) (l : Listing) (events : Log) (pre : List InstrId)
    (c c' : Config W) : Prop where
  log : c'.log.map (·.below l.vars.size) = c.log.map (·.below l.vars.size)
  running : c'.running = c.running
  data : c.running = true → c.data.Agree l.vars.size c'.data
  pc : c.running = true → c'.pc = moved t block l events pre c.pc
  table : c.running = true → ∀ {j}, c.pc = pre.length + j → j < block.instrs.length →
    (scanned t block l events j).table.Holds (finished t block l events).pending
      c.data.vars c'.data.vars

omit h in
lemma table_start (p : List CopyOrder) (old new : VarId → Value) :
    (scanned t block l events 0).table.Holds p old new := by
  intro f g hm
  simp [scanned] at hm

variable (env : Environment W) {c c' : Config W}

lemma perform_tracks (hc : Tracks t block l events pre c c') (hrun : c.running = true)
    {i : InstrId} {x x' : Instr} (hi : l.stream[c.pc]? = some i) (hx : l.instr? i = some x)
    (hx' : (scanBlock t (l, events) block).1.instr? i = some x') :
    (perform l env c.data x.action).Agree l.vars.size
      (perform (scanBlock t (l, events) block).1 env c'.data x'.action) := by
  have hlabels : (scanBlock t (l, events) block).1.labels = l.labels := by
    obtain ⟨arena, stream, vars, heq⟩ := scanBlock_tables h t events
    rw [heq]
  have hr := scanBlock_reshaped h t events
  have hscope := h.coherent.inScope hx
  by_cases hmem : i ∈ block.instrs
  · obtain ⟨j, hj, hpc⟩ := exists_position h hi hmem
    have hlt : j < block.instrs.length := (List.getElem?_eq_some_iff.1 hj).1
    obtain ⟨fresh, a', hn, hsub, hinstr⟩ := scanBlock_numbered h t events hj hx
    have hs := Scan.scanned_sound h.coherent h.nodup (fun _ hi => h.mem_stream hi) t events hlt.le
    obtain rfl := Option.some.inj (hx'.symm.trans hinstr)
    exact hn.perform_agree h.coherent hr hlabels hscope hs.table hsub (hc.data hrun)
      (hc.table hrun hpc hlt)
  · rw [scanBlock_untouched h t events (Listing.instr?_isSome_iff.1 (by rw [hx]; rfl)) hmem,
      hx] at hx'
    obtain rfl := Option.some.inj hx'
    exact Machine.perform_agree h.coherent hr hlabels env (hc.data hrun) hscope

/-- What happens to the variables where the block goes on. -/
lemma advances (hc : Tracks t block l events pre c c') (hrun : c.running = true) {i : InstrId}
    {j : Nat} {x x' : Instr} (hj : block.instrs[j]? = some i) (hpc : c.pc = pre.length + j)
    (hx : l.instr? i = some x) (hx' : (scanBlock t (l, events) block).1.instr? i = some x')
    (hfall : (perform l env c.data x.action).transfer ≠ .trapped) :
    Advances (Formula.ofAction l) (finished t block l events).pending j x.action c.data.vars
      c'.data.vars (perform l env c.data x.action).data.vars
      (copyAll (ordersAt t block l events pre c.pc)
        (perform (scanBlock t (l, events) block).1 env c'.data x'.action).data).vars := by
  have hs := finished_sound h t events
  have hlt : j < block.instrs.length := (List.getElem?_eq_some_iff.1 hj).1
  have hstream := (h.getElem? hlt).trans hj
  rw [← hpc] at hstream
  have hagree := perform_tracks h t events env hc hrun hstream hx hx'
  obtain ⟨y, hy, hr⟩ := scanBlock_reshaped h t events hx
  obtain rfl : y = x' := Option.some.inj (hy.symm.trans hx')
  have hsource : ∀ c ∈ (finished t block l events).pending, c.source < l.vars.size :=
    fun c hc => targetAt_lt h.coherent (hs.pending c hc).1.source
  have htemp : ∀ c ∈ (finished t block l events).pending, l.vars.size ≤ c.temp :=
    fun c hc => (hs.pending c hc).1.temp
  refine ⟨fun ha => perform_vars_of_none l env c.data ha, ?_, ?_, ?_, ?_⟩
  · intro w hw
    obtain ⟨v, hv⟩ := perform_vars_of_some l env c.data hw
    exact ⟨v, hv, fun f hf => value_of_perform hf hw hfall hv⟩
  · intro order horder horigin
    have htarget := (hs.pending order horder).1.source
    rw [horigin, targetAt_eq hj hx] at htarget
    exact htarget
  · intro order horder horigin
    have hmem : order ∈ ordersAt t block l events pre c.pc :=
      (mem_ordersAt t events).2 ⟨horder, by rw [horigin, hpc]⟩
    have hk : ∀ c' ∈ ordersAt t block l events pre c.pc, c'.source < l.vars.size ∧
        l.vars.size ≤ c'.temp := fun c' hc' =>
      ⟨hsource c' ((mem_ordersAt t events).1 hc').1, htemp c' ((mem_ordersAt t events).1 hc').1⟩
    rw [copyAll_temp hk (hs.distinct.filter _) _ hmem]
    exact hagree.data.vars order.source (hsource order horder)
  · intro order horder horigin
    have hne : ∀ c' ∈ ordersAt t block l events pre c.pc, c'.temp ≠ order.temp := by
      intro c' hc' heq
      obtain ⟨hmem, hpos⟩ := (mem_ordersAt t events).1 hc'
      have hne' : c' ≠ order := by
        rintro rfl
        omega
      have : Std.Symm fun c c' : CopyOrder => c.temp ≠ c'.temp := ⟨fun _ _ => Ne.symm⟩
      exact hs.distinct.forall hmem horder hne' heq
    rw [copyAll_of_ne hne]
    cases hw : x.action.targetVar with
    | none => rw [perform_vars_of_none _ env c'.data (hr.targetVar.trans hw)]
    | some w =>
      obtain ⟨v, hv⟩ := perform_vars_of_some (scanBlock t (l, events) block).1 env c'.data
        (hr.targetVar.trans hw)
      have hwlt := (h.coherent.inScope hx).targetVar_lt hw
      rw [hv]
      exact Function.update_of_ne (hwlt.trans_le (htemp order horder)).ne' _ _

/-- Control goes on behind an instruction: the copies there are made. -/
lemma tracks_fall (hc : Tracks t block l events pre c c') (hrun : c.running = true) {i : InstrId}
    {x x' : Instr} (hi : l.stream[c.pc]? = some i) (hx : l.instr? i = some x)
    (hx' : (scanBlock t (l, events) block).1.instr? i = some x')
    (hfall : (perform l env c.data x.action).transfer = .fall) (log log' : List Observation)
    (hlog : log'.map (·.below l.vars.size) = log.map (·.below l.vars.size)) :
    Tracks t block l events pre ⟨c.pc + 1, (perform l env c.data x.action).data, log, true⟩
      ⟨moved t block l events pre (c.pc + 1),
        copyAll (ordersAt t block l events pre c.pc)
          (perform (scanBlock t (l, events) block).1 env c'.data x'.action).data, log', true⟩ := by
  have hs := finished_sound h t events
  have htemp : ∀ c ∈ (finished t block l events).pending, l.vars.size ≤ c.temp :=
    fun c hc => (hs.pending c hc).1.temp
  have hagree := perform_tracks h t events env hc hrun hi hx hx'
  refine ⟨hlog, rfl, fun _ => ?_, fun _ => rfl, fun _ => ?_⟩
  · exact copyAll_agree (fun c' hc' => htemp c' ((mem_ordersAt t events).1 hc').1) hagree.data
  · intro j hpc hj
    cases j with
    | zero => exact table_start t events _ _ _
    | succ j =>
      have hpc : c.pc = pre.length + j := by simpa [← Nat.add_assoc] using hpc
      have hj' := List.getElem?_eq_getElem (Nat.lt_of_succ_lt hj)
      have hget := (h.getElem? (Nat.lt_of_succ_lt hj)).trans hj'
      rw [← hpc, hi] at hget
      obtain rfl := Option.some.inj hget
      obtain ⟨fresh, a', hn, hsub, hinstr⟩ := scanBlock_numbered h t events hj' hx
      have hsj := Scan.scanned_sound h.coherent h.nodup (fun _ hi => h.mem_stream hi) t events
        (Nat.lt_of_succ_lt hj).le
      have hadv := advances h t events env hc hrun hj' hpc hx hx' (by simp [hfall])
      refine hn.holds h.coherent hadv hsj.table (fun c' hc' => ?_) hsub (hc.data hrun).vars ?_
        htemp (hc.table hrun hpc (Nat.lt_of_succ_lt hj))
      · exact Nat.lt_of_succ_lt (hsj.pending c' hc').1.origin
      · exact fun w hw => (h.coherent.inScope hx).targetVar_lt hw

/-- A step of the first run, and those of the second one that belong to it. -/
lemma step_tracks (hc : Tracks t block l events pre c c') (hrun : c.running = true) {i : InstrId}
    {x x' : Instr} (hi : l.stream[c.pc]? = some i) (hx : l.instr? i = some x)
    (hx' : (scanBlock t (l, events) block).1.instr? i = some x') (hr : x.Reshaped x') :
    ∃ m, Tracks t block l events pre (step l env c)
        (Machine.run (scanBlock t (l, events) block).1 env (m + 1) c') ∧
      ∀ y ≤ m, (Machine.run (scanBlock t (l, events) block).1 env (y + 1) c').log =
        (Machine.run (scanBlock t (l, events) block).1 env (m + 1) c').log := by
  have hpc := hc.pc hrun
  have hinstr : instrAt? l c.pc = some x := by rw [instrAt?, hi]; exact hx
  have hinstr' : instrAt? (scanBlock t (l, events) block).1 c'.pc = some x' := by
    rw [hpc, instrAt?_moved h, hi]
    exact hx'
  have hagree := perform_tracks h t events env hc hrun hi hx hx'
  have hleaving := leaving_below (isLast_moved h t events hi hx hr) hr.block hagree
  have hfall := tracks_fall h t events env hc hrun hi hx hx'
  rw [← hpc] at hleaving
  rw [step_eq env hrun hinstr]
  have hstep' := step_eq env (hc.running.trans hrun) hinstr'
  generalize perform l env c.data x.action = o at *
  generalize perform (scanBlock t (l, events) block).1 env c'.data x'.action = o' at *
  have hlog : (c'.log ++ (o'.seen ++ leaving (scanBlock t (l, events) block).1 c'.pc x' o')).map
        (·.below l.vars.size) =
      (c.log ++ (o.seen ++ leaving l c.pc x o)).map (·.below l.vars.size) := by
    simp only [List.map_append, hc.log, hagree.seen, hleaving]
  generalize c'.log ++ (o'.seen ++ leaving (scanBlock t (l, events) block).1 c'.pc x' o') = log'
    at *
  generalize c.log ++ (o.seen ++ leaving l c.pc x o) = log at *
  have hone {s : Config W} (hs : Tracks t block l events pre s
      (step (scanBlock t (l, events) block).1 env c')) :
      ∃ m, Tracks t block l events pre s
          (Machine.run (scanBlock t (l, events) block).1 env (m + 1) c') ∧
        ∀ y ≤ m, (Machine.run (scanBlock t (l, events) block).1 env (y + 1) c').log =
          (Machine.run (scanBlock t (l, events) block).1 env (m + 1) c').log :=
    ⟨0, hs, fun y hy => by rw [Nat.le_zero.1 hy]⟩
  rw [hagree.transfer] at hstep'
  cases htransfer : o.transfer with
  | fall =>
    rw [htransfer] at hstep'
    -- the copies behind the instruction are made in further steps
    have hcopies {y : Nat} (hy : y ≤ (ordersAt t block l events pre c.pc).length) :=
      run_copies env (fun hc => instrAt?_copy h t events hi hc) (fun hne => by
        obtain ⟨order, horder⟩ := List.exists_mem_of_ne_nil _ hne
        rw [← moved_succ h t events hi, block_moved h]
        exact (block_of_mem_ordersAt h t events horder).2) o'.data log' hy
    have hnext : step (scanBlock t (l, events) block).1 env c' =
        ⟨moved t block l events pre c.pc + 1, o'.data, log', true⟩ := by
      rw [hstep', hpc]
      rfl
    have hend := hcopies le_rfl
    refine ⟨(ordersAt t block l events pre c.pc).length, ?_, fun y hy => ?_⟩
    · rw [run_succ, hnext, hend, ← moved_succ h t events hi, List.take_length]
      exact hfall htransfer log log' hlog
    · rw [run_succ, run_succ, hnext, hend, hcopies hy]
  | goto target =>
    rw [htransfer] at hstep'
    refine hone ?_
    rw [hstep']
    refine ⟨hlog, rfl, fun _ => hagree.data, fun _ => position_moved h t events target,
      fun _ => ?_⟩
    intro j hj hlt
    obtain rfl := position_inside h hj hlt
    exact table_start t events _ _ _
  | returned =>
    rw [htransfer] at hstep'
    refine hone ?_
    rw [hstep']
    exact ⟨hlog, rfl, nofun, nofun, nofun⟩
  | trapped =>
    rw [htransfer] at hstep'
    refine hone ?_
    rw [hstep']
    exact ⟨hlog, rfl, nofun, nofun, nofun⟩

theorem scanBlock_simulates :
    Simulates l (scanBlock t (l, events) block).1 env l.vars.size
      (Tracks t block l events pre) where
  log hc := hc.log
  step {c c'} hc := by
    cases hrun : c.running with
    | false =>
      have hrun' : c'.running = false := hc.running.trans hrun
      refine ⟨0, ?_, fun y hy => by rw [Nat.le_zero.1 hy]⟩
      rw [Nat.zero_add, run_one, step_of_stopped hrun, step_of_stopped hrun']
      exact hc
    | true =>
      have hrun' : c'.running = true := hc.running.trans hrun
      have hpc := hc.pc hrun
      cases hi : l.stream[c.pc]? with
      | none =>
        have hnone : instrAt? l c.pc = none := by rw [instrAt?, hi]; rfl
        have hnone' : instrAt? (scanBlock t (l, events) block).1 c'.pc = none := by
          rw [hpc, instrAt?_moved h, hi]
          rfl
        refine ⟨0, ?_, fun y hy => by rw [Nat.le_zero.1 hy]⟩
        rw [Nat.zero_add, run_one, step_of_none hrun hnone, step_of_none hrun' hnone']
        exact ⟨by simp [hc.log], rfl, by simp, by simp, by simp⟩
      | some i =>
        obtain ⟨x, hx⟩ := h.coherent.exists_instr (List.mem_of_getElem? hi)
        obtain ⟨x', hx', hr⟩ := scanBlock_reshaped h t events hx
        exact step_tracks h t events env hc hrun hi hx hx' hr

lemma entryPosition_moved (entry : Entry) :
    entryPosition (scanBlock t (l, events) block).1 entry =
      moved t block l events pre (entryPosition l entry) := by
  obtain ⟨arena, stream, vars, heq⟩ := scanBlock_tables h t events
  cases entry with
  | first => rfl
  | function name =>
    have hfunctions : (scanBlock t (l, events) block).1.functions = l.functions := by rw [heq]
    unfold entryPosition
    simp only [hfunctions]
    cases l.functions.get? name with
    | none => exact (moved_length h t events).symm
    | some f => exact position_moved h t events f.label

lemma entryPosition_inside {entry : Entry} {j : Nat}
    (hp : entryPosition l entry = pre.length + j) (hj : j < block.instrs.length) : j = 0 := by
  cases entry with
  | first => exact (Nat.add_eq_zero_iff.1 hp.symm).2
  | function name =>
    unfold entryPosition at hp
    cases hf : l.functions.get? name with
    | none =>
      simp only [hf, Option.elim_none, h.stream, List.length_append] at hp
      omega
    | some f =>
      simp only [hf, Option.elim_some] at hp
      exact position_inside h hp hj

/-- The scan of a block does not change what is seen of a run. -/
theorem scanBlock_logs (entry : Entry) {d d' : Data W}
    (hd : d.Agree l.vars.size d') :
    logs (scanBlock t (l, events) block).1 env l.vars.size entry d' =
      logs l env l.vars.size entry d := by
  refine (scanBlock_simulates h t events env).logs_eq ?_
  refine ⟨rfl, rfl, fun _ => hd, fun _ => entryPosition_moved h t events entry, fun _ => ?_⟩
  intro j hp hj
  obtain rfl := entryPosition_inside h hp hj
  exact table_start t events _ _ _

end

end ThreeAddress.ValueNumbering
