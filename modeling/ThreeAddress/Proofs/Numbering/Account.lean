import ThreeAddress.Proofs.Numbering.Edits

/-!
The events of a run of value numbering tell exactly what it did. A step of the scan tells of an
instruction when it rewrites it, and when it orders a copy it says so first. Since the copies of a
block are inserted after its scan, an event about a copy is tied to it by the temporary that was
made with the event.
-/

namespace ThreeAddress

/-- What an event of value numbering says, apart from its message. -/
structure Event.Tells (e : Event) (kind : Event.Kind) (b : BlockId) (i : InstrId) : Prop where
  kind : e.kind = kind
  pass : e.pass = some ValueNumbering.passName
  block : e.block = some b
  instr : e.instr = some i

/-- Those of the instructions that are not the same in the other listing, in order. -/
def Listing.rewritten (l l' : Listing) (ids : List InstrId) : List Instr :=
  (ids.filterMap l.instr?).filter fun x => l'.instr? x.id ≠ some x

/-- The variable that an instruction of the listing assigns. -/
def Listing.targetOf (l : Listing) (i : InstrId) : Option VarId :=
  (l.instr? i).bind (·.action.targetVar)

namespace ValueNumbering

open Listing

/-- The log tells of the rewritten instructions in their order, and of the inserted copies. An
event about a copy names the instruction that it stands behind, and the next event is about the
instruction that reads what it copies. -/
inductive Account (l' : Listing) : List Instr → List InstrId → Log → Prop
  | nil : Account l' [] [] []
  | rewrite {x xs ns e log} :
    e.Tells .constantFolded x.block x.id ∨ e.Tells .expressionEliminated x.block x.id →
    Account l' xs ns log → Account l' (x :: xs) ns (e :: log)
  | copy {x xs n ns k y v w temp c e log} :
    l'.instr? n = some y → y.action = .copy (.var v) (.var temp) → [k, n] <:+: l'.stream →
    l'.instr? x.id = some { x with action := .copy (.var temp) (.var w) } →
    c.Tells .copyMaterialized y.block k → e.Tells .expressionEliminated x.block x.id →
    Account l' xs ns log → Account l' (x :: xs) (n :: ns) (c :: e :: log)

namespace Account

variable {l' l'' : Listing} {xs xs' : List Instr} {ns ns' : List InstrId} {log log' : Log}

lemma append (h : Account l' xs ns log) (h' : Account l' xs' ns' log') :
    Account l' (xs ++ xs') (ns ++ ns') (log ++ log') := by
  induction h with
  | nil => exact h'
  | rewrite he _ ih => exact .rewrite he ih
  | copy hy hact hnext hx hc he _ ih => exact .copy hy hact hnext hx hc he ih

lemma mono (h : Account l' xs ns log) (hxs : ∀ x ∈ xs, l''.instr? x.id = l'.instr? x.id)
    (hns : ∀ n ∈ ns, (∀ y, l'.instr? n = some y → l''.instr? n = some y) ∧
      ∀ k, [k, n] <:+: l'.stream → [k, n] <:+: l''.stream) : Account l'' xs ns log := by
  induction h with
  | nil => exact .nil
  | rewrite he _ ih => exact .rewrite he (ih (List.forall_mem_cons.1 hxs).2 hns)
  | copy hy hact hnext hx hc he _ ih =>
    obtain ⟨hx', hxs⟩ := List.forall_mem_cons.1 hxs
    obtain ⟨⟨hinstr, hstream⟩, hns⟩ := List.forall_mem_cons.1 hns
    exact .copy (hinstr _ hy) hact (hstream _ hnext) (hx'.trans hx) hc he (ih hxs hns)

lemma exists_instr (h : Account l' xs ns log) {n : InstrId} (hn : n ∈ ns) :
    ∃ y, l'.instr? n = some y := by
  induction h with
  | nil => cases hn
  | rewrite _ _ ih => exact ih hn
  | copy hy _ _ _ _ _ _ ih =>
    obtain rfl | hn := List.mem_cons.1 hn
    · exact ⟨_, hy⟩
    · exact ih hn

/-- Without rewritten instructions there is nothing to tell. -/
lemma log_eq_nil_iff (h : Account l' xs ns log) : log = [] ↔ xs = [] := by
  cases h <;> simp

end Account

/-! ### One instruction -/

/-- What a step of the scan does at an instruction, and what it tells of it. It reports a change
where it rewrites the instruction. -/
inductive Scan.Reports (block : Block) (i : InstrId) (x : Instr) (s s' : Scan) : Prop
  | nothing : s'.events = s.events → s'.changed = s.changed → s'.pending = s.pending →
    s'.listing.instr? i = some x → Reports block i x s s'
  | rewrite {e : Event} {value : Operand} {w : VarId} : s'.events = s.events ++ [e] →
    s'.changed = true →
    e.Tells .constantFolded block.id i ∨ e.Tells .expressionEliminated block.id i →
    s'.pending = s.pending → s'.listing.instr? i = some { x with action := .copy value (.var w) } →
    x.action ≠ .copy value (.var w) → Reports block i x s s'
  | copy {c e : Event} {v w : VarId} {origin : Nat} : s'.events = s.events ++ [c, e] →
    s'.changed = true → c.Tells .copyMaterialized block.id (block.instrs.getD origin 0) →
    e.Tells .expressionEliminated block.id i →
    s'.pending = CopyOrder.enqueue ⟨origin, s.listing.vars.size, v⟩ s.pending →
    s'.listing.instr? i = some { x with action := .copy (.var s.listing.vars.size) (.var w) } →
    x.action ≠ .copy (.var s.listing.vars.size) (.var w) → Reports block i x s s'

lemma Scan.step_reports (t : Toggles) (block : Block) (j : Nat) {s : Scan} {i : InstrId} {x : Instr}
    (hx : s.listing.instr? i = some x) : Reports block i x s (s.step t block (i, j)) := by
  have hcopy (vars : Variables) (o : Operand) (w : VarId) :=
    instr?_replaceByCopy (l := { s.listing with vars }) hx w o
  have hne {f : Formula} (hf : Formula.ofAction s.listing x.action = some f) (o : Operand)
      (w : VarId) : x.action ≠ .copy o (.var w) := by
    obtain ⟨op, lhs, rhs, w', hact⟩ := compute_of_ofAction hf
    simp [hact]
  have hstep := step_stepped t block j hx
  generalize s.step t block (i, j) = s' at hstep ⊢
  cases hstep with
  | skip | assign => exact .nothing rfl rfl rfl hx
  | @reuse w f h o hw hf =>
    exact .rewrite rfl rfl (.inr ⟨rfl, rfl, rfl, rfl⟩) rfl (hcopy s.listing.vars o w) (hne hf o w)
  | @materialize w f v origin hw hf =>
    exact .copy (List.append_assoc s.events [_] [_]) rfl ⟨rfl, rfl, rfl, rfl⟩ ⟨rfl, rfl, rfl, rfl⟩
      rfl (hcopy _ _ w) (hne hf _ w)
  | @fold w f literal hw hf =>
    exact .rewrite rfl rfl (.inl ⟨rfl, rfl, rfl, rfl⟩) rfl (hcopy s.listing.vars _ w) (hne hf _ w)
  | miss => split <;> exact .nothing rfl rfl rfl hx

/-! ### Rewritten instructions -/

section

variable {l l' l'' : Listing} {ids ids' : List InstrId}

lemma rewritten_append :
    l.rewritten l' (ids ++ ids') = l.rewritten l' ids ++ l.rewritten l' ids' := by
  rw [rewritten, List.filterMap_append, List.filter_append]
  rfl

lemma rewritten_singleton (hl : l.Coherent) {i : InstrId} {x : Instr} (hx : l.instr? i = some x) :
    l.rewritten l' [i] = if l'.instr? i = some x then [] else [x] := by
  have hid := hl.ids hx
  by_cases h : l'.instr? i = some x <;> simp [rewritten, hx, hid, h]

lemma mem_rewritten (hl : l.Coherent) {x : Instr} : x ∈ l.rewritten l' ids ↔
    x.id ∈ ids ∧ l.instr? x.id = some x ∧ l'.instr? x.id ≠ some x := by
  simp only [rewritten, List.mem_filter, List.mem_filterMap, decide_eq_true_eq]
  constructor
  · rintro ⟨⟨i, hi, hx⟩, hne⟩
    rw [hl.ids hx] at hne ⊢
    exact ⟨hi, hx, hne⟩
  · rintro ⟨hi, hx, hne⟩
    exact ⟨⟨_, hi, hx⟩, hne⟩

lemma rewritten_eq_nil (hl : l.Coherent) (h : ∀ i ∈ ids, l'.instr? i = l.instr? i) :
    l.rewritten l' ids = [] := by
  rw [List.eq_nil_iff_forall_not_mem]
  intro x hx
  obtain ⟨hi, hx, hne⟩ := (mem_rewritten hl).1 hx
  exact hne ((h _ hi).trans hx)

lemma rewritten_congr_right (hl : l.Coherent) (h : ∀ i ∈ ids, l''.instr? i = l'.instr? i) :
    l.rewritten l'' ids = l.rewritten l' ids := by
  refine List.filter_congr fun x hx => ?_
  obtain ⟨i, hi, hx⟩ := List.mem_filterMap.1 hx
  rw [hl.ids hx, h i hi]

lemma rewritten_congr_left (h : ∀ i ∈ ids, l''.instr? i = l'.instr? i) :
    l''.rewritten l ids = l'.rewritten l ids := by
  rw [rewritten, rewritten, List.filterMap_congr h]

end

/-! ### One block -/

section

variable {l : Listing} {block : Block} {pre post : List InstrId}
  (h : l.HasBlock block pre post) (t : Toggles) (events : Log)

include h

/-- The step at an instruction decides what it is in the end. -/
lemma scanBlock_instr?_step {j : Nat} {i : InstrId} (hi : block.instrs[j]? = some i) :
    (scanBlock t (l, events) block).1.instr? i =
      ((scanned t block l events j).step t block (i, j)).listing.instr? i := by
  obtain ⟨x, hx, -⟩ := h.exists_instr hi
  have hlt : j < block.instrs.length := (List.getElem?_eq_some_iff.1 hi).1
  rw [scanBlock_instr? h t events (instr?_isSome_iff.1 (by rw [hx]; rfl)), finished,
    (scanned_stable h t events hi hlt le_rfl).1, scanned_succ hi]

/-- The copy that an order has become, by the event that told of the order. -/
lemma scanBlock_ordered {c : CopyOrder} (hc : c ∈ (finished t block l events).pending) :
    ∃ n ty, l.arena.size ≤ n ∧
      [block.instrs.getD c.origin 0, n] <:+: (scanBlock t (l, events) block).1.stream ∧
      (scanBlock t (l, events) block).1.instr? n =
        some ⟨n, .copy (.var c.source) (.var c.temp), ty, block.id⟩ := by
  obtain ⟨n, hn⟩ := List.mem_iff_getElem?.1 hc
  obtain ⟨k, hk, hnext⟩ := scanBlock_copy_adjacent h t events hn
  obtain ⟨ty, hcopy⟩ := scanBlock_copy h t events hn
  refine ⟨l.arena.size + n, ty, Nat.le_add_right _ _, ?_, hcopy⟩
  rwa [List.getD_eq_getElem?_getD, hk]

/-- What the scan has told so far, and the temporaries that the copies it told of will fill. It
has reported a change exactly if it has told of something. -/
lemma scanned_account {j : Nat} (hj : j ≤ block.instrs.length) : ∃ ns log,
    (scanned t block l events j).events = events ++ log ∧
    ((scanned t block l events j).changed = true ↔ log ≠ []) ∧
    Account (scanBlock t (l, events) block).1
      (l.rewritten (scanBlock t (l, events) block).1 (block.instrs.take j)) ns log ∧
    (∀ n ∈ ns, l.arena.size ≤ n) ∧
    ns.map (scanBlock t (l, events) block).1.targetOf =
      (List.range' l.vars.size ns.length).map some ∧
    ns.length = (scanned t block l events j).pending.length := by
  induction j with
  | zero =>
    exact ⟨[], [], (List.append_nil _).symm, by simp [scanned, Scan.start], .nil, by simp, rfl, rfl⟩
  | succ j ih =>
    have hi : block.instrs[j]? = some block.instrs[j] := List.getElem?_eq_getElem hj
    obtain ⟨x, hx, hb⟩ := h.exists_instr hi
    have hid := h.coherent.ids hx
    have hfinal := scanBlock_instr?_step h t events hi
    obtain ⟨ns, log, hevents, hflag, haccount, hnew, htemps, hlen⟩ := ih (Nat.le_of_succ_le hj)
    have hsize := (Scan.scanned_sound h.coherent h.nodup (fun _ hi => h.mem_stream hi) t events
      (Nat.le_of_succ_le hj)).vars
    rw [List.take_add_one, hi, Option.toList_some, rewritten_append,
      rewritten_singleton h.coherent hx, scanned_succ hi]
    have hpending := (scanned_stable h t events hi hj le_rfl).2
    rw [scanned_succ hi, ← finished] at hpending
    have hrewritten {a : Action} (hx' : ((scanned t block l events j).step t block
        (block.instrs[j], j)).listing.instr? block.instrs[j] = some { x with action := a })
        (hne : x.action ≠ a) :
        (scanBlock t (l, events) block).1.instr? block.instrs[j] ≠ some x := by
      rw [hfinal, hx']
      exact fun heq => hne (congrArg Instr.action (Option.some.inj heq)).symm
    cases Scan.step_reports t block j ((scanned_instr? h t events hi).trans hx) with
    | nothing he hc hp hx' =>
      rw [if_pos (hfinal.trans hx'), List.append_nil, he, hc, hp]
      exact ⟨ns, log, hevents, hflag, haccount, hnew, htemps, hlen⟩
    | @rewrite e value w he hc htells hp hx' hne =>
      rw [if_neg (hrewritten hx' hne), he, hc, hp]
      refine ⟨ns, log ++ [e], by rw [hevents, List.append_assoc], by simp, ?_, hnew, htemps, hlen⟩
      simpa using haccount.append (.rewrite (x := x) (by rwa [hb, hid]) .nil)
    | @copy c e v w origin he hc hcopied htells hp hx' hne =>
      rw [if_neg (hrewritten hx' hne), he, hc, hp]
      obtain ⟨n, ty, hn, hnext, hcopy⟩ := scanBlock_ordered h t events
        (hpending (hp ▸ CopyOrder.mem_enqueue.2 (.inl rfl)))
      refine ⟨ns ++ [n], log ++ [c, e], by rw [hevents, List.append_assoc], by simp, ?_, ?_, ?_, ?_⟩
      · refine haccount.append (.copy (w := w) hcopy rfl hnext ?_ hcopied (by rwa [hb, hid]) .nil)
        rw [← hx', ← hfinal, hid]
      · exact List.forall_mem_append.2 ⟨hnew, by simpa using hn⟩
      · rw [List.map_append, htemps, List.length_append, List.length_singleton,
          List.range'_1_concat, List.map_append]
        simp [targetOf, hcopy, hsize, hlen, Action.targetVar, Action.target, Place.operand,
          Operand.var?]
      · rw [(CopyOrder.enqueue_perm _ _).length_eq, List.length_append, hlen]
        rfl

end

/-! ### All blocks -/

/-- The account of the part of a run that has led from one listing to the other. The copies that
it tells of assign the new temporaries, in this order. A change is reported exactly if there is
something to tell. -/
structure Recounts (l l' : Listing) (ns : List InstrId) (log : Log) (changed : Bool) : Prop where
  account : Account l' (l.rewritten l' l.stream) ns log
  new : ∀ n ∈ ns, l.arena.size ≤ n
  temps : ns.map l'.targetOf = (List.range' l.vars.size ns.length).map some
  size : l'.vars.size = l.vars.size + ns.length
  changed : changed = true ↔ log ≠ []

lemma Recounts.refl {l : Listing} (hl : l.Coherent) : Recounts l l [] [] false := by
  refine ⟨?_, by simp, rfl, rfl, by simp⟩
  rw [rewritten_eq_nil hl fun _ _ => rfl]
  exact .nil

section

variable {l₀ l : Listing} {block : Block} {pre post : List InstrId}
  (hl₀ : l₀.Coherent) (hc : l₀.Confined l) (h : l.HasBlock block pre post)
  (hrest : ∀ i ∈ block.instrs ++ post, i < l₀.arena.size ∧ l.instr? i = l₀.instr? i)
  (t : Toggles)

include hl₀ hc h hrest

/-- What the scan of a block rewrites comes behind what was rewritten before. -/
lemma rewritten_scanBlock (events : Log) :
    l₀.rewritten (scanBlock t (l, events) block).1 l₀.stream =
      l₀.rewritten l l₀.stream ++ l.rewritten (scanBlock t (l, events) block).1 block.instrs := by
  have hkept {i : InstrId} (hlt : i < l₀.arena.size) (hi : i ∉ block.instrs) :=
    scanBlock_untouched h t events (hlt.trans_le hc.size) hi
  have hstream : l₀.stream = pre.filter (· < l₀.arena.size) ++ (block.instrs ++ post) := by
    rw [← hc.stream, h.stream, List.append_assoc, List.filter_append]
    congr 1
    exact List.filter_eq_self.2 fun i hi => decide_eq_true (hrest i hi).1
  have hfront : l₀.rewritten (scanBlock t (l, events) block).1 (pre.filter (· < l₀.arena.size)) =
      l₀.rewritten l (pre.filter (· < l₀.arena.size)) :=
    rewritten_congr_right hl₀ fun i hi => by
      obtain ⟨hi, hlt⟩ := List.mem_filter.1 hi
      exact hkept (of_decide_eq_true hlt) (notMem_of_mem_pre h hi)
  have hback : l₀.rewritten (scanBlock t (l, events) block).1 post = [] :=
    rewritten_eq_nil hl₀ fun i hi => by
      obtain ⟨hlt, hsame⟩ := hrest i (List.mem_append_right _ hi)
      rw [hkept hlt (notMem_of_mem_post h hi), hsame]
  have hblock : l₀.rewritten (scanBlock t (l, events) block).1 block.instrs =
      l.rewritten (scanBlock t (l, events) block).1 block.instrs :=
    rewritten_congr_left fun i hi => (hrest i (List.mem_append_left _ hi)).2.symm
  have hrest₀ : l₀.rewritten l (block.instrs ++ post) = [] :=
    rewritten_eq_nil hl₀ fun i hi => (hrest i hi).2
  rw [hstream, rewritten_append, rewritten_append, rewritten_append, hfront, hback, hblock, hrest₀]
  simp

/-- The scan of a block adds its account. -/
lemma Recounts.scanBlock {ns : List InstrId} {log : Log} {changed : Bool}
    (hr : Recounts l₀ l ns log changed) :
    ∃ ns', Recounts l₀ (scanBlock t (l, log) block).1 ns' (scanBlock t (l, log) block).2.1
      (changed || (scanBlock t (l, log) block).2.2) := by
  obtain ⟨ns', log', hlog, hflag, haccount, hnew, htemps, hlen⟩ :=
    scanned_account h t log (le_refl block.instrs.length)
  rw [List.take_length] at haccount
  have hnot : ∀ n ∈ ns, n ∉ block.instrs ++ post := fun n hn hmem =>
    (hrest n hmem).1.not_ge (hr.new n hn)
  have hold : ∀ n ∈ ns, ∀ y, l.instr? n = some y →
      (ValueNumbering.scanBlock t (l, log) block).1.instr? n = some y := fun n hn y hy => by
    rw [scanBlock_untouched h t log (instr?_isSome_iff.1 (by rw [hy]; rfl)) fun hmem =>
      hnot n hn (List.mem_append_left _ hmem), hy]
  rw [scanBlock_reports, finished, hlog]
  refine ⟨ns ++ ns', ?_, ?_, ?_, ?_, ?_⟩
  · rw [rewritten_scanBlock hl₀ hc h hrest]
    refine (hr.account.mono (fun x hx => ?_) fun n hn => ⟨hold n hn, fun k hnext =>
      (scanBlock_adjacent h t log hnext (hnot n hn)).2⟩).append haccount
    obtain ⟨-, hx, hne⟩ := (mem_rewritten hl₀).1 hx
    have hlt : x.id < l₀.arena.size := instr?_isSome_iff.1 (by rw [hx]; rfl)
    exact scanBlock_untouched h t log (hlt.trans_le hc.size) fun hmem =>
      hne ((hrest _ (List.mem_append_left _ hmem)).2.trans hx)
  · exact List.forall_mem_append.2 ⟨hr.new, fun n hn => hc.size.trans (hnew n hn)⟩
  · have hsame : ns.map (ValueNumbering.scanBlock t (l, log) block).1.targetOf =
        ns.map l.targetOf := List.map_congr_left fun n hn => by
      obtain ⟨y, hy⟩ := hr.account.exists_instr hn
      rw [targetOf, targetOf, hy, hold n hn y hy]
    rw [List.map_append, hsame, hr.temps, htemps, hr.size, ← List.map_append, List.range'_append_1,
      List.length_append]
  · rw [scanBlock_vars h, (finished_sound h t log).vars, finished, ← hlen, hr.size,
      List.length_append, Nat.add_assoc]
  · rw [Bool.or_eq_true, hr.changed, hflag, ← not_and_or, ← List.append_eq_nil_iff]

end

lemma Underway.recounts {l₀ l : Listing} {blocks : List Block} (h : Underway l₀ blocks l)
    (hl₀ : l₀.Coherent) (hc : l₀.Confined l) {ns : List InstrId} {log : Log} {changed : Bool}
    (hr : Recounts l₀ l ns log changed) (t : Toggles) : ∃ ns',
      Recounts l₀ (blocks.foldl (scanNext t) (l, log, changed)).1 ns'
        (blocks.foldl (scanNext t) (l, log, changed)).2.1
        (blocks.foldl (scanNext t) (l, log, changed)).2.2 := by
  induction blocks generalizing l log ns changed with
  | nil => exact ⟨ns, hr⟩
  | cons block blocks ih =>
    obtain ⟨done, hb⟩ := h.toRemaining.hasBlock
    obtain ⟨ns', hr'⟩ := hr.scanBlock hl₀ hc hb h.unchanged t
    exact ih (h.step t log) (confined_scanBlock hc hb h.unchanged t log) hr'

/-- The copies that are told of are all the new instructions. -/
lemma Recounts.mem_iff {l l' : Listing} {ns : List InstrId} {log : Log} {changed : Bool}
    (hr : Recounts l l' ns log changed) (hc : l.Confined l') :
    ns.Nodup ∧ ∀ n, n ∈ ns ↔ l.arena.size ≤ n ∧ n < l'.arena.size := by
  refine ⟨.of_map l'.targetOf ?_, fun n => ⟨fun hn => ⟨hr.new n hn, ?_⟩, fun ⟨hle, hlt⟩ => ?_⟩⟩
  · rw [hr.temps]
    exact (List.nodup_range').map (Option.some_injective _)
  · obtain ⟨y, hy⟩ := hr.account.exists_instr hn
    exact instr?_isSome_iff.1 (by rw [hy]; rfl)
  · obtain ⟨y, hy⟩ := Option.isSome_iff_exists.1 (instr?_isSome_iff.2 hlt)
    obtain ⟨k, x, v, temp, -, -, -, -, -, -, -, hact, htemp, htemp'⟩ := hc.new hle hy
    have hmem : some temp ∈ ns.map l'.targetOf := by
      rw [hr.temps, List.mem_map]
      refine ⟨temp, List.mem_range'_1.2 ⟨htemp, ?_⟩, rfl⟩
      rwa [← hr.size]
    obtain ⟨m, hm, htarget⟩ := List.mem_map.1 hmem
    obtain ⟨z, hz, htarget⟩ := Option.bind_eq_some_iff.1 htarget
    obtain rfl := (hc.temps temp htemp htemp').unique ⟨hr.new m hm, z, hz, htarget⟩
      ⟨hle, y, hy, by rw [hact]; rfl⟩
    exact hm

/-- **The events of a run are an exact account of it.** They come behind those that were there
before. In the order of the stream they tell of each instruction that the run has rewritten, and
before it of the copy that had to be inserted for it, if any; all inserted copies are told of once.
A change is reported exactly when there are events, which is when the listing is another one. -/
theorem run_accounted {l : Listing} (h : l.Reachable) (t : Toggles) {σ : Type} (state : σ)
    (log : Log) :
    ∃ l' events changed copies, (pass t).run state l = ⟨state, l', events, .ok changed⟩ ∧
      (∃ started completed, started.kind = .passStarted ∧ completed.kind = .passCompleted ∧
        (Schedule.runPass (pass t) ⟨state, l, log⟩).1.log =
          log ++ started :: (events ++ [completed])) ∧
      Account l' (l.instrs.filter fun x => l'.instr? x.id ≠ some x) copies events ∧
      copies.Nodup ∧ (∀ n, n ∈ copies ↔ l.arena.size ≤ n ∧ n < l'.arena.size) ∧
      (changed = true ↔ events ≠ []) ∧ (events ≠ [] ↔ l' ≠ l) := by
  obtain ⟨copies, hr⟩ := (Underway.start h.coherent).recounts h.coherent (.refl h.coherent)
    (.refl h.coherent) t
  rw [← run] at hr
  obtain ⟨hnodup, hmem⟩ := hr.mem_iff (h.confined t)
  refine ⟨(run t l).1, (run t l).2.1, (run t l).2.2, copies, rfl,
    ⟨.byPass (.ofKind .passStarted) passName, ((Event.ofKind .passCompleted).byPass passName).saying
      (if (run t l).2.2 then "changed" else "unchanged"), rfl, rfl, List.append_assoc _ _ _⟩,
    hr.account, hnodup, hmem, hr.changed, not_congr ⟨fun hnil => ?_, fun heq => ?_⟩⟩
  · have hunchanged : (run t l).2.2 = false := by
      rw [← Bool.not_eq_true, hr.changed, not_not, hnil]
    rw [run_of_normal h t (normal_of_run h t hunchanged)]
  · rw [hr.account.log_eq_nil_iff, heq]
    exact rewritten_eq_nil h.coherent fun _ _ => rfl

/-- Two events tell of the run: one of the copy behind the first quotient, and one of the second
quotient, which reads what is copied. -/
theorem run_accounted_twoQuotients : ∃ l l' c e n,
    Listing.ofProgram twoQuotients = .ok l ∧ run .standard l = (l', [c, e], true) ∧
    Account l' (l.instrs.filter fun x => l'.instr? x.id ≠ some x) [n] [c, e] ∧ n = 3 ∧
    (c.kind, c.block, c.instr) = (.copyMaterialized, some 0, some 0) ∧
    (e.kind, e.block, e.instr) = (.expressionEliminated, some 0, some 2) := by
  have hok : ((Listing.ofProgram twoQuotients).toOption.map fun l =>
      decide (l.arena.size = 3 ∧ (run .standard l).1.arena.size = 4 ∧
        (run .standard l).2.1.map (fun e => (e.kind, e.block, e.instr)) =
          [(.copyMaterialized, some 0, some 0), (.expressionEliminated, some 0, some 2)])) =
      some true := by decide +kernel
  obtain ⟨l, hl, hok⟩ := toOption_map_eq_some.1 hok
  obtain ⟨hsize, hsize', hevents⟩ := of_decide_eq_true hok
  obtain ⟨l', events, changed, copies, hrun, -, haccount, hnodup, hmem, hchanged, -⟩ :=
    run_accounted (.lowered hl) .standard () []
  obtain ⟨rfl, rfl⟩ : (run .standard l).1 = l' ∧ (run .standard l).2.1 = events :=
    ⟨congrArg Pass.Outcome.listing hrun, congrArg Pass.Outcome.events hrun⟩
  obtain rfl : (run .standard l).2.2 = changed :=
    Except.ok.inj (congrArg Pass.Outcome.result hrun)
  obtain ⟨c, e, hlog, hc, he⟩ : ∃ c e, (run .standard l).2.1 = [c, e] ∧
      (c.kind, c.block, c.instr) = (.copyMaterialized, some 0, some 0) ∧
      (e.kind, e.block, e.instr) = (.expressionEliminated, some 0, some 2) := by
    obtain ⟨c, rest, heq, hc, hrest⟩ := List.map_eq_cons_iff.1 hevents
    obtain ⟨e, rest, rfl, he, hrest⟩ := List.map_eq_cons_iff.1 hrest
    exact ⟨c, e, by rw [heq, List.map_eq_nil_iff.1 hrest], hc, he⟩
  obtain rfl : copies = [3] := by
    refine List.perm_singleton.1 ((List.perm_ext_iff_of_nodup hnodup (List.nodup_singleton _)).2
      fun n => ?_)
    rw [hmem, hsize, hsize', List.mem_singleton]
    constructor
    · rintro ⟨hle, hlt⟩
      exact Nat.le_antisymm (Nat.le_of_lt_succ hlt) hle
    · rintro rfl
      decide
  have hflag : (run .standard l).2.2 = true := hchanged.2 (by simp [hlog])
  exact ⟨l, _, c, e, 3, hl, Prod.ext rfl (Prod.ext hlog hflag), hlog ▸ haccount, rfl, hc, he⟩

end ValueNumbering

end ThreeAddress
