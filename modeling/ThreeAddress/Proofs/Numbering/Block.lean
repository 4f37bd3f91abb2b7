import ThreeAddress.Proofs.Numbering.Scan
import ThreeAddress.Proofs.Numbering.Splice

/-!
The scan of a whole block and the insertion of its copies, seen from outside: which
instructions the block has afterwards, and that the listing stays coherent.
-/

namespace ThreeAddress

/-- The block stands in the stream between `pre` and `post`. -/
structure Listing.HasBlock (l : Listing) (block : Block) (pre post : List InstrId) : Prop where
  coherent : l.Coherent
  stream : l.stream = pre ++ block.instrs ++ post
  nonempty : block.instrs ≠ []
  stamped : ∀ {i x}, i ∈ block.instrs → l.instr? i = some x → x.block = block.id

namespace Listing.HasBlock

variable {l : Listing} {block : Block} {pre post : List InstrId}

lemma nodup (h : l.HasBlock block pre post) : block.instrs.Nodup := by
  have hnodup := h.coherent.nodup
  rw [h.stream, List.append_assoc] at hnodup
  exact hnodup.of_append_right.of_append_left

lemma mem_stream (h : l.HasBlock block pre post) {i : InstrId} (hi : i ∈ block.instrs) :
    i ∈ l.stream := by
  rw [h.stream]
  simp [hi]

lemma exists_instr (h : l.HasBlock block pre post) {j : Nat} {i : InstrId}
    (hi : block.instrs[j]? = some i) : ∃ x, l.instr? i = some x ∧ x.block = block.id := by
  have hmem := List.mem_of_getElem? hi
  obtain ⟨x, hx⟩ := h.coherent.exists_instr (h.mem_stream hmem)
  exact ⟨x, hx, h.stamped hmem hx⟩

lemma getElem? (h : l.HasBlock block pre post) {j : Nat} (hj : j < block.instrs.length) :
    l.stream[pre.length + j]? = block.instrs[j]? := by
  rw [h.stream, List.append_assoc, List.getElem?_append_right (Nat.le_add_right _ _),
    Nat.add_sub_cancel_left, List.getElem?_append_left hj]

/-- Within a block nothing ends a block and nothing starts one. -/
lemma interior (h : l.HasBlock block pre post) {j : Nat} {i i' : InstrId} {x x' : Instr}
    (hi : block.instrs[j]? = some i) (hi' : block.instrs[j + 1]? = some i')
    (hx : l.instr? i = some x) (hx' : l.instr? i' = some x') :
    x.action.operator.endsBlock = false ∧ x'.action.definedLabel = none := by
  have hlt' : j + 1 < block.instrs.length := (List.getElem?_eq_some_iff.1 hi').1
  have hpc := (h.getElem? (Nat.lt_of_succ_lt hlt')).trans hi
  have hpc' := (h.getElem? hlt').trans hi'
  have hfollows := h.coherent.follows hpc hpc' hx hx'
  have hb := h.stamped (List.mem_of_getElem? hi) hx
  have hb' := h.stamped (List.mem_of_getElem? hi') hx'
  have hcuts := hfollows.cuts_eq_false (hb.trans hb'.symm)
  simpa [Instr.cuts] using hcuts

end Listing.HasBlock

namespace ValueNumbering

variable {l : Listing} {block : Block} {pre post : List InstrId}

lemma Numbered.congr {formula formula' : Action → Option Formula} {fresh j : Nat}
    {table table' : Table} {p p' : List CopyOrder} {a a' : Action}
    (h : Numbered formula fresh j table p a table' p' a') (hf : formula' a = formula a) :
    Numbered formula' fresh j table p a table' p' a' := by
  cases h with
  | skip ha => exact .skip ha
  | assign ha hn => exact .assign ha (hf.trans hn)
  | reuse ha hs hm ho => exact .reuse ha (hf.trans hs) hm ho
  | materialize ha hs hm => exact .materialize ha (hf.trans hs) hm
  | fold ha hs hlit => exact .fold ha (hf.trans hs) hlit
  | miss ha hs => exact .miss ha (hf.trans hs)

/-- The state at the end of the scan of a block. -/
def finished (t : Toggles) (block : Block) (l : Listing) (events : Log) : Scan :=
  scanned t block l events block.instrs.length

section

variable (h : l.HasBlock block pre post) (t : Toggles) (events : Log)

include h

lemma finished_sound : (finished t block l events).Sound l block.instrs block.instrs.length :=
  Scan.scanned_sound h.coherent h.nodup (fun _ hi => h.mem_stream hi) t events le_rfl

/-- An instruction is as it was until the scan comes to it. -/
lemma scanned_instr? {j : Nat} {i : InstrId} (hi : block.instrs[j]? = some i) :
    (scanned t block l events j).listing.instr? i = l.instr? i := by
  obtain ⟨hlt, rfl⟩ := List.getElem?_eq_some_iff.1 hi
  have hs := Scan.scanned_sound h.coherent h.nodup (fun _ hi => h.mem_stream hi) t events hlt.le
  refine hs.untouched _ fun hmem => ?_
  obtain ⟨k, hk, heq⟩ := List.mem_take_iff_getElem.1 hmem
  have := h.nodup.getElem_inj_iff.1 heq
  omega

/-- What the scan does at a position, in terms of the listing before it. -/
lemma scanned_numbered {j : Nat} {i : InstrId} {x : Instr} (hi : block.instrs[j]? = some i)
    (hx : l.instr? i = some x) :
    ∃ fresh a', Numbered (Formula.ofAction l) fresh j (scanned t block l events j).table
        (scanned t block l events j).pending x.action (scanned t block l events (j + 1)).table
        (scanned t block l events (j + 1)).pending a' ∧
      ∀ k, (scanned t block l events (j + 1)).listing.instr? k =
        if i = k then some { x with action := a' }
        else (scanned t block l events j).listing.instr? k := by
  obtain ⟨hlt, rfl⟩ := List.getElem?_eq_some_iff.1 hi
  have hs := Scan.scanned_sound h.coherent h.nodup (fun _ hi => h.mem_stream hi) t events hlt.le
  have hxs := (scanned_instr? h t events hi).trans hx
  obtain ⟨a', vars, hn, hlisting, -⟩ := Scan.step_numbered t block j hxs
  rw [scanned_succ hi]
  have hformula := Listing.Reshaped.ofAction_eq hs.reshaped (h.coherent.inScope hx)
  refine ⟨_, a', hn.congr hformula.symm, fun k => ?_⟩
  rw [hlisting, Scan.instr?_rewritten]
  have hxs' : Listing.instr? { (scanned t block l events j).listing with vars } block.instrs[j] =
      some x := hxs
  rw [hxs']
  rfl

lemma scanned_stable {j k : Nat} {i : InstrId} (hi : block.instrs[j]? = some i) (hjk : j < k)
    (hk : k ≤ block.instrs.length) :
    (scanned t block l events k).listing.instr? i =
        (scanned t block l events (j + 1)).listing.instr? i ∧
      (scanned t block l events (j + 1)).pending ⊆ (scanned t block l events k).pending := by
  induction k, hjk using Nat.le_induction with
  | base => exact ⟨rfl, List.Subset.refl _⟩
  | succ k hjk ih =>
    have hk' : block.instrs[k]? = some block.instrs[k] := List.getElem?_eq_getElem hk
    obtain ⟨x, hx, -⟩ := h.exists_instr hk'
    obtain ⟨fresh, a', hn, hinstr⟩ := scanned_numbered h t events hk' hx
    obtain ⟨hstable, hsub⟩ := ih (Nat.le_of_succ_le hk)
    refine ⟨?_, List.Subset.trans hsub hn.subset⟩
    obtain ⟨hj, rfl⟩ := List.getElem?_eq_some_iff.1 hi
    have hne : block.instrs[k] ≠ block.instrs[j] := by
      rw [Ne, h.nodup.getElem_inj_iff]
      omega
    rw [hinstr, if_neg hne, hstable]

lemma finished_stream : (finished t block l events).listing.stream = l.stream := by
  obtain ⟨arena, vars, heq⟩ := (finished_sound h t events).tables
  rw [heq]

lemma scanBlock_eq : (scanBlock t (l, events) block).1 =
    insertCopies (finished t block l events).listing block.id pre.length
      (finished t block l events).pending := by
  obtain ⟨i, rest, hinstrs⟩ := List.exists_cons_of_ne_nil h.nonempty
  have hindex : (finished t block l events).listing.stream.idxOf? i = some pre.length := by
    rw [finished_stream h, List.idxOf?_eq_some_iff]
    have hlt : pre.length < l.stream.length := by
      rw [h.stream, hinstrs]
      simp
    have hnodup := h.coherent.nodup
    have hi : l.stream[pre.length] = i := by
      simp [h.stream, hinstrs]
    exact ⟨hlt, hi, fun j hj heq => (hnodup.getElem_inj_iff.1 (heq.trans hi.symm)).not_lt hj⟩
  have hfirst : block.first? = some i := by rw [Block.first?, hinstrs]; rfl
  unfold scanBlock
  rw [finished, scanned_length] at hindex
  simp only [hfirst, Option.bind_some, hindex, finished, scanned_length]

lemma scanBlock_spliced : Spliced (finished t block l events).listing block.id pre.length
    (finished t block l events).pending (scanBlock t (l, events) block).1 := by
  have hs := finished_sound h t events
  rw [scanBlock_eq h]
  refine insertCopies_spliced block.id hs.sorted fun c hc => ?_
  have hlt := (hs.pending c hc).1.origin
  rw [finished_stream h, h.stream]
  simp
  omega

lemma scanBlock_tables :
    ∃ arena stream vars, (scanBlock t (l, events) block).1 = { l with arena, stream, vars } := by
  obtain ⟨arena, stream, heq⟩ := (scanBlock_spliced h t events).tables
  obtain ⟨arena', vars, heq'⟩ := (finished_sound h t events).tables
  exact ⟨arena, stream, vars, by rw [heq, heq']⟩

lemma scanBlock_vars :
    (scanBlock t (l, events) block).1.vars = (finished t block l events).listing.vars := by
  obtain ⟨arena, stream, heq⟩ := (scanBlock_spliced h t events).tables
  rw [heq]

lemma scanBlock_vars_le : l.vars.size ≤ (scanBlock t (l, events) block).1.vars.size := by
  rw [scanBlock_vars h]
  exact (finished_sound h t events).vars_le

lemma scanBlock_instr? {i : InstrId} (hi : i < l.arena.size) :
    (scanBlock t (l, events) block).1.instr? i = (finished t block l events).listing.instr? i :=
  (scanBlock_spliced h t events).old i ((finished_sound h t events).size ▸ hi)

/-- The instruction that stands at a position of the block in the end. -/
lemma scanBlock_numbered {j : Nat} {i : InstrId} {x : Instr} (hi : block.instrs[j]? = some i)
    (hx : l.instr? i = some x) :
    ∃ fresh a', Numbered (Formula.ofAction l) fresh j (scanned t block l events j).table
        (scanned t block l events j).pending x.action (scanned t block l events (j + 1)).table
        (scanned t block l events (j + 1)).pending a' ∧
      (scanned t block l events (j + 1)).pending ⊆ (finished t block l events).pending ∧
      (scanBlock t (l, events) block).1.instr? i = some { x with action := a' } := by
  obtain ⟨fresh, a', hn, hinstr⟩ := scanned_numbered h t events hi hx
  have hlt : j < block.instrs.length := (List.getElem?_eq_some_iff.1 hi).1
  obtain ⟨hstable, hsub⟩ := scanned_stable h t events hi hlt le_rfl
  refine ⟨fresh, a', hn, hsub, ?_⟩
  rw [scanBlock_instr? h t events (Listing.instr?_isSome_iff.1 (by rw [hx]; rfl)), finished,
    hstable, hinstr, if_pos rfl]

lemma scanBlock_reshaped : l.Reshaped (scanBlock t (l, events) block).1 := by
  intro i x hx
  rw [scanBlock_instr? h t events (Listing.instr?_isSome_iff.1 (by rw [hx]; rfl))]
  exact (finished_sound h t events).reshaped hx

lemma scanBlock_untouched {i : InstrId} (hi : i < l.arena.size) (hb : i ∉ block.instrs) :
    (scanBlock t (l, events) block).1.instr? i = l.instr? i := by
  rw [scanBlock_instr? h t events hi]
  exact (finished_sound h t events).untouched i (by rwa [List.take_length])

/-- The copies that the block has got. -/
lemma scanBlock_stream : (scanBlock t (l, events) block).1.stream =
    weave (numberedFrom pre.length l.arena.size (finished t block l events).pending) 0
      l.stream := by
  rw [(scanBlock_spliced h t events).stream, finished_stream h, (finished_sound h t events).size]

lemma scanBlock_copy {x : Nat} {c : CopyOrder}
    (hx : (finished t block l events).pending[x]? = some c) :
    ∃ ty, (scanBlock t (l, events) block).1.instr? (l.arena.size + x) =
      some ⟨l.arena.size + x, .copy (.var c.source) (.var c.temp), ty, block.id⟩ := by
  have hcopy := (scanBlock_spliced h t events).new hx
  rw [(finished_sound h t events).size] at hcopy
  exact ⟨_, hcopy⟩

/-- An instruction was there before, or it is one of the copies. -/
lemma scanBlock_cases {i : InstrId} {y : Instr}
    (hy : (scanBlock t (l, events) block).1.instr? i = some y) :
    (∃ x, l.instr? i = some x ∧ x.Reshaped y) ∨
    ∃ x c ty, (finished t block l events).pending[x]? = some c ∧ i = l.arena.size + x ∧
      y = ⟨i, .copy (.var c.source) (.var c.temp), ty, block.id⟩ := by
  have hlt : i < (scanBlock t (l, events) block).1.arena.size :=
    Listing.instr?_isSome_iff.1 (by rw [hy]; rfl)
  rw [(scanBlock_spliced h t events).size, (finished_sound h t events).size] at hlt
  by_cases hold : i < l.arena.size
  · left
    obtain ⟨x, hx⟩ := Option.isSome_iff_exists.1 (Listing.instr?_isSome_iff.2 hold)
    obtain ⟨x', hx', hr⟩ := scanBlock_reshaped h t events hx
    obtain rfl : y = x' := Option.some.inj (hy.symm.trans hx')
    exact ⟨x, hx, hr⟩
  · right
    obtain ⟨x, rfl⟩ := Nat.exists_eq_add_of_le (Nat.le_of_not_lt hold)
    have hx : x < (finished t block l events).pending.length := Nat.lt_of_add_lt_add_left hlt
    obtain ⟨ty, hty⟩ := scanBlock_copy h t events (List.getElem?_eq_getElem hx)
    exact ⟨x, _, ty, List.getElem?_eq_getElem hx, rfl, Option.some.inj (hy.symm.trans hty)⟩

/-! ### Coherence -/

/-- A copy stands behind the instruction that it belongs to, before another of the block. -/
lemma pending_neighbours {c : CopyOrder} (hc : c ∈ (finished t block l events).pending) :
    ∃ i i' x x', l.stream[pre.length + c.origin]? = some i ∧
      l.stream[pre.length + c.origin + 1]? = some i' ∧ block.instrs[c.origin]? = some i ∧
      l.instr? i = some x ∧ l.instr? i' = some x' ∧
      x.block = block.id ∧ x'.block = block.id ∧
      x.action.operator.endsBlock = false ∧ x'.action.definedLabel = none := by
  have hlt := ((finished_sound h t events).pending c hc).1.origin
  have hi := List.getElem?_eq_getElem (Nat.lt_of_succ_lt hlt)
  have hi' := List.getElem?_eq_getElem hlt
  obtain ⟨x, hx, hb⟩ := h.exists_instr hi
  obtain ⟨x', hx', hb'⟩ := h.exists_instr hi'
  obtain ⟨hends, hlabel⟩ := h.interior hi hi' hx hx'
  exact ⟨_, _, x, x', (h.getElem? (Nat.lt_of_succ_lt hlt)).trans hi,
    (h.getElem? hlt).trans hi', hi, hx, hx', hb, hb', hends, hlabel⟩

lemma position_lt {e : Nat × InstrId}
    (he : e ∈ numberedFrom pre.length l.arena.size (finished t block l events).pending) :
    0 ≤ e.1 ∧ e.1 < 0 + l.stream.length := by
  obtain ⟨x, c, hx, rfl⟩ := mem_numberedFrom.1 he
  obtain ⟨i, i', _, _, hi, -⟩ := pending_neighbours h t events (List.mem_of_getElem? hx)
  exact ⟨Nat.zero_le _, by simpa using (List.getElem?_eq_some_iff.1 hi).1⟩

lemma scanBlock_stream_perm : (scanBlock t (l, events) block).1.stream.Perm
    (List.range (scanBlock t (l, events) block).1.arena.size) := by
  rw [scanBlock_stream h, (scanBlock_spliced h t events).size, (finished_sound h t events).size,
    List.range_add, ← map_snd_numberedFrom pre.length]
  refine (weave_perm 0 l.stream).trans ?_
  rw [List.filter_eq_self.2 fun e he => decide_eq_true (position_lt h t events he)]
  exact h.coherent.stream.append_right _

lemma scanBlock_isSome {i : InstrId} (hi : i ∈ (scanBlock t (l, events) block).1.stream) :
    ((scanBlock t (l, events) block).1.instr? i).isSome :=
  Listing.instr?_isSome_iff.2 (by simpa using (scanBlock_stream_perm h t events).mem_iff.1 hi)

lemma scanBlock_stamps :
    (scanBlock t (l, events) block).1.instrs.IsChain Instr.Follows := by
  refine (Listing.isChain_filterMap fun i hi => scanBlock_isSome h t events hi).2 ?_
  rw [scanBlock_stream h]
  have hr := scanBlock_reshaped h t events
  have hold := (Listing.isChain_filterMap (f := l.instr?) (s := l.stream) fun i hi =>
    Listing.instr?_isSome_iff.2 (h.coherent.mem_stream.1 hi)).1 h.coherent.stamps
  refine isChain_weave (hold.imp_of_mem_imp fun i i' hi hi' hR y hy y' hy' => ?_) ?_
  · obtain ⟨x, hx⟩ := h.coherent.exists_instr hi
    obtain ⟨x', hx'⟩ := h.coherent.exists_instr hi'
    obtain ⟨z, hz, hxz⟩ := hr hx
    obtain ⟨z', hz', hxz'⟩ := hr hx'
    obtain rfl : z = y := Option.some.inj (hz.symm.trans hy)
    obtain rfl : z' = y' := Option.some.inj (hz'.symm.trans hy')
    rw [Instr.Follows, hxz.cuts hxz', hxz.block, hxz'.block]
    exact hR x hx x' hx'
  · -- the neighbours of a copy are of its block, and no block ends at them
    intro e he pc i hi hpos
    obtain ⟨n, c, hc, rfl⟩ := mem_numberedFrom.1 he
    obtain ⟨ty, hty⟩ := scanBlock_copy h t events hc
    obtain ⟨k, k', x, x', hk, hk', -, hx, hx', hb, hb', hends, hlabel⟩ :=
      pending_neighbours h t events (List.mem_of_getElem? hc)
    obtain rfl : pre.length + c.origin = pc := by simpa using hpos
    obtain rfl : k = i := Option.some.inj (hk.symm.trans hi)
    obtain ⟨z, hz, hxz⟩ := hr hx
    obtain ⟨z', hz', hxz'⟩ := hr hx'
    refine ⟨?_, ?_, ?_⟩
    · intro y hy y' hy'
      obtain rfl : z = y := Option.some.inj (hz.symm.trans hy)
      obtain rfl := Option.some.inj (hty.symm.trans hy')
      have hcuts := hxz.cuts (Instr.Reshaped.refl
        ⟨l.arena.size + n, .copy (.var c.source) (.var c.temp), ty, block.id⟩)
      rw [Instr.Follows, hcuts, hxz.block, hb, Instr.cuts, hends]
      rfl
    · intro e' he' _ y hy y' hy'
      obtain ⟨n', c', hc', rfl⟩ := mem_numberedFrom.1 he'
      obtain ⟨ty', hty'⟩ := scanBlock_copy h t events hc'
      obtain rfl := Option.some.inj (hty.symm.trans hy)
      obtain rfl := Option.some.inj (hty'.symm.trans hy')
      rfl
    · intro i' hi' y hy y' hy'
      obtain rfl : k' = i' := Option.some.inj (hk'.symm.trans hi')
      obtain rfl := Option.some.inj (hty.symm.trans hy)
      obtain rfl : z' = y' := Option.some.inj (hz'.symm.trans hy')
      have hcuts := (Instr.Reshaped.refl
        ⟨l.arena.size + n, .copy (.var c.source) (.var c.temp), ty, block.id⟩).cuts hxz'
      rw [Instr.Follows, hcuts, hxz'.block, hb', Instr.cuts, hlabel]
      rfl

theorem scanBlock_coherent : (scanBlock t (l, events) block).1.Coherent where
  ids {i y} hy := by
    obtain ⟨x, hx, hr⟩ | ⟨n, c, ty, -, -, rfl⟩ := scanBlock_cases h t events hy
    · rw [hr.id, h.coherent.ids hx]
    · rfl
  stream := scanBlock_stream_perm h t events
  inScope {i y} hy := by
    have hs := finished_sound h t events
    have hsize : (finished t block l events).listing.arena.size ≤
        (scanBlock t (l, events) block).1.arena.size := by
      rw [(scanBlock_spliced h t events).size]
      exact Nat.le_add_right _ _
    have hvars := (congrArg Variables.size (scanBlock_vars h t events)).ge
    obtain ⟨x, hx, hr⟩ | ⟨n, c, ty, hc, -, rfl⟩ := scanBlock_cases h t events hy
    · have hi : i < l.arena.size := Listing.instr?_isSome_iff.1 (by rw [hx]; rfl)
      rw [scanBlock_instr? h t events hi] at hy
      exact (hs.inScope hy).mono hvars hsize
    · obtain ⟨hp, htemp⟩ := hs.pending c (List.mem_of_getElem? hc)
      have hsource := targetAt_lt h.coherent hp.source
      exact ⟨hsource.trans_le (hs.vars_le.trans hvars), htemp.trans_le hvars⟩
  sites {label info site} hlabel hsite := by
    obtain ⟨arena, stream, vars, heq⟩ := scanBlock_tables h t events
    rw [heq] at hlabel
    obtain ⟨x, hx, hact⟩ := h.coherent.sites hlabel hsite
    obtain ⟨x', hx', hr⟩ := scanBlock_reshaped h t events hx
    refine ⟨x', hx', ?_⟩
    obtain heq' | ⟨op, lhs, rhs, w, o, heq', -⟩ := hr.action
    · rw [heq', hact]
    · rw [hact] at heq'
      cases heq'
  first y hy := by
    rw [Listing.instrs, Listing.head?_filterMap fun i hi => scanBlock_isSome h t events hi,
      scanBlock_stream h] at hy
    have hhead (copies : List (Nat × InstrId)) :
        (weave copies 0 l.stream).head? = l.stream.head? := by cases l.stream <;> rfl
    rw [hhead] at hy
    obtain ⟨i, hi, hy⟩ := Option.mem_bind_iff.1 hy
    obtain ⟨x, hx⟩ := h.coherent.exists_instr (List.mem_of_mem_head? hi)
    obtain ⟨x', hx', hr⟩ := scanBlock_reshaped h t events hx
    obtain rfl : x' = y := Option.some.inj (hx'.symm.trans hy)
    rw [hr.block]
    refine h.coherent.first x ?_
    rw [Listing.instrs, Listing.head?_filterMap fun i hi =>
      Listing.instr?_isSome_iff.2 (h.coherent.mem_stream.1 hi)]
    exact Option.mem_bind_iff.2 ⟨i, hi, hx⟩
  stamps := scanBlock_stamps h t events

end

end ValueNumbering

end ThreeAddress
