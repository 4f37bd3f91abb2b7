import ThreeAddress.Proofs.ControlFlow.Sections

/-!
The blocks of a coherent listing. The stamps ascend from 0 without gaps, so the block with
number `b` consists of the instructions with stamp `b`. Only the first of them can be a label,
and only the last one can end the block.
-/

namespace ThreeAddress

/-- A list that ascends is made up of the parts with one value each. -/
lemma flatMap_filter_range {α : Type} {f : α → Nat} {n : Nat} {xs : List α}
    (hsorted : xs.Pairwise fun a b => f a ≤ f b) (hlt : ∀ a ∈ xs, f a < n) :
    (List.range n).flatMap (fun k => xs.filter (f · == k)) = xs := by
  induction n generalizing xs with
  | zero =>
    cases xs with
    | nil => rfl
    | cons a rest => exact absurd (hlt a List.mem_cons_self) (Nat.not_lt_zero _)
  | succ n ih =>
    -- those below `n` stand first
    have hsplit : xs.filter (f · < n) ++ xs.filter (f · == n) = xs := by
      clear ih
      induction xs with
      | nil => rfl
      | cons a rest ih =>
        obtain ⟨hhead, hrest⟩ := List.pairwise_cons.1 hsorted
        by_cases ha : f a < n
        · have hne : ¬f a = n := ha.ne
          simpa [ha, hne] using ih hrest fun b hb => hlt b (List.mem_cons_of_mem _ hb)
        · have hle : ∀ b ∈ a :: rest, n ≤ f b := by
            intro b hb
            obtain rfl | hb := List.mem_cons.1 hb
            · exact Nat.le_of_not_lt ha
            · exact (Nat.le_of_not_lt ha).trans (hhead b hb)
          have hnone : (a :: rest).filter (f · < n) = [] := by
            simpa using hle
          have hall : (a :: rest).filter (f · == n) = a :: rest := by
            refine List.filter_eq_self.2 fun b hb => ?_
            simpa using Nat.le_antisymm (Nat.lt_succ_iff.1 (hlt b hb)) (hle b hb)
          rw [hnone, hall, List.nil_append]
    have hbelow := ih (hsorted.filter (f · < n)) fun a ha => by simpa using (List.mem_filter.1 ha).2
    rw [List.range_succ, List.flatMap_append, List.flatMap_singleton]
    conv_rhs => rw [← hsplit, ← hbelow]
    congr 1
    refine List.flatMap_congr fun k hk => ?_
    rw [List.filter_filter]
    refine List.filter_congr fun a _ => ?_
    have hk := List.mem_range.1 hk
    by_cases heq : f a = k
    · simp [heq, hk]
    · simp [heq]

namespace Listing

variable {l : Listing}

/-- The instructions with a stamp, in the order of the stream. -/
def stamped (l : Listing) (b : BlockId) : List Instr := l.instrs.filter (·.block == b)

lemma Coherent.mem_instrs (h : l.Coherent) {x : Instr} :
    x ∈ l.instrs ↔ ∃ i, l.instr? i = some x := by
  unfold instrs
  rw [List.mem_filterMap]
  refine ⟨fun ⟨i, _, hx⟩ => ⟨i, hx⟩, fun ⟨i, hx⟩ => ⟨i, ?_, hx⟩⟩
  exact h.mem_stream.2 (Lower.instr?_lt hx)

lemma Coherent.mem_stamped (h : l.Coherent) {x : Instr} {b : BlockId} :
    x ∈ l.stamped b ↔ (∃ i, l.instr? i = some x) ∧ x.block = b := by
  rw [stamped, List.mem_filter, h.mem_instrs, beq_iff_eq]

lemma Coherent.bears_iff (h : l.Coherent) {b : BlockId} : l.Bears b ↔ l.stamped b ≠ [] := by
  refine ⟨fun ⟨i, x, hx, hb⟩ => List.ne_nil_of_mem (h.mem_stamped.2 ⟨⟨i, hx⟩, hb⟩), fun hne => ?_⟩
  obtain ⟨x, hx⟩ := List.exists_mem_of_ne_nil _ hne
  obtain ⟨⟨i, hx⟩, hb⟩ := h.mem_stamped.1 hx
  exact ⟨i, x, hx, hb⟩

lemma Coherent.sorted (h : l.Coherent) : l.instrs.Pairwise fun x y => x.block ≤ y.block := by
  have : IsTrans Instr fun x y => x.block ≤ y.block := ⟨fun _ _ _ => le_trans⟩
  refine List.isChain_iff_pairwise.1 (h.stamps.imp fun x y hxy => ?_)
  rw [Instr.Follows] at hxy
  rw [hxy]
  split
  · exact Nat.le_succ _
  · exact le_rfl

lemma Coherent.lt_blockCount (h : l.Coherent) {x : Instr} (hx : x ∈ l.instrs) :
    x.block < l.blockCount := by
  unfold blockCount
  obtain ⟨init, last, heq⟩ := (List.eq_nil_or_concat l.instrs).resolve_left (List.ne_nil_of_mem hx)
  have hsorted := h.sorted
  rw [heq] at hx hsorted ⊢
  rw [List.concat_eq_append] at *
  rw [List.getLast?_append_of_ne_nil _ (by simp), List.getLast?_singleton, Option.elim_some]
  obtain hx | hx := List.mem_append.1 hx
  · exact Nat.lt_succ_of_le ((List.pairwise_append.1 hsorted).2.2 x hx last (by simp))
  · rw [List.mem_singleton.1 hx]
    exact Nat.lt_succ_self _

/-- The stamps below that of an instruction all occur before it. -/
lemma bears_below {xs : List Instr} (hchain : xs.IsChain Instr.Follows)
    (hfirst : ∀ x ∈ xs.head?, x.block = 0) {y : Instr} (hy : y ∈ xs) {b : Nat}
    (hb : b ≤ y.block) : ∃ x ∈ xs, x.block = b := by
  induction xs using List.reverseRecOn generalizing y b with
  | nil => cases hy
  | append_singleton xs z ih =>
    obtain ⟨hxs, -, hlast⟩ := List.isChain_append.1 hchain
    cases hxs' : xs.getLast? with
    | none =>
      obtain rfl := List.getLast?_eq_none_iff.1 hxs'
      obtain rfl : y = z := by simpa using hy
      have hzero : y.block = 0 := hfirst y rfl
      exact ⟨y, by simp, by rw [hzero] at hb ⊢; exact (Nat.le_zero.1 hb).symm⟩
    | some w =>
      have hne : xs ≠ [] := by
        rintro rfl
        cases hxs'
      have hfirst' : ∀ x ∈ xs.head?, x.block = 0 := by
        rwa [List.head?_append_of_ne_nil _ hne] at hfirst
      have hbefore {y : Instr} (hy : y ∈ xs) {b : Nat} (hb : b ≤ y.block) :
          ∃ x ∈ xs ++ [z], x.block = b := by
        obtain ⟨x, hx, hxb⟩ := ih hxs hfirst' hy hb
        exact ⟨x, List.mem_append_left _ hx, hxb⟩
      obtain hy | hy := List.mem_append.1 hy
      · exact hbefore hy hb
      · obtain rfl : y = z := List.mem_singleton.1 hy
        obtain heq | hlt := hb.eq_or_lt
        · exact ⟨y, by simp, heq.symm⟩
        · refine hbefore (List.mem_of_getLast? hxs') (Nat.lt_succ_iff.1 (hlt.trans_le ?_))
          have hfollows := hlast w hxs' y rfl
          rw [Instr.Follows] at hfollows
          rw [hfollows]
          split
          · exact le_rfl
          · exact Nat.le_succ _

/-- The stamps that occur are those below the number of blocks. -/
lemma Coherent.bears_iff_lt (h : l.Coherent) {b : BlockId} : l.Bears b ↔ b < l.blockCount := by
  constructor
  · rintro ⟨i, x, hx, rfl⟩
    exact h.lt_blockCount (h.mem_instrs.2 ⟨i, hx⟩)
  · intro hb
    cases hlast : l.instrs.getLast? with
    | none =>
      rw [blockCount, hlast] at hb
      exact absurd hb (Nat.not_lt_zero _)
    | some y =>
      rw [blockCount, hlast, Option.elim_some] at hb
      obtain ⟨x, hx, hxb⟩ := bears_below h.stamps h.first (List.mem_of_getLast? hlast)
        (Nat.lt_succ_iff.1 hb)
      obtain ⟨i, hx⟩ := h.mem_instrs.1 hx
      exact ⟨i, x, hx, hxb⟩

lemma Coherent.flatMap_stamped (h : l.Coherent) :
    (List.range l.blockCount).flatMap l.stamped = l.instrs :=
  flatMap_filter_range h.sorted fun _ hx => h.lt_blockCount hx

lemma Coherent.stamped_infix (h : l.Coherent) {b : BlockId} (hb : b < l.blockCount) :
    l.stamped b <:+: l.instrs := by
  conv_rhs => rw [← h.flatMap_stamped]
  obtain ⟨u, w, heq⟩ := List.append_of_mem (List.mem_range.2 hb)
  rw [heq, List.flatMap_append, List.flatMap_cons]
  exact ⟨u.flatMap l.stamped, w.flatMap l.stamped, by simp⟩

/-- Within a block nothing ends it and nothing starts another. -/
lemma Coherent.stamped_uncut (h : l.Coherent) {b : BlockId} (hb : b < l.blockCount) :
    (l.stamped b).IsChain fun x y => x.cuts y = false := by
  have hchain := h.stamps.infix (h.stamped_infix hb)
  refine List.IsChain.imp_of_mem_imp (fun x y hx hy hxy => ?_) hchain
  exact hxy.cuts_eq_false ((h.mem_stamped.1 hx).2.trans (h.mem_stamped.1 hy).2.symm)

lemma Coherent.stamped_ne_nil (h : l.Coherent) {b : BlockId} (hb : b < l.blockCount) :
    l.stamped b ≠ [] :=
  h.bears_iff.1 (h.bears_iff_lt.2 hb)

/-- The blocks, by number. -/
theorem Coherent.blocks_eq (h : l.Coherent) :
    l.blocks = (List.range l.blockCount).map fun b => Block.ofInstrs l (l.stamped b) := by
  have hsplit : l.instrs.splitBy (fun x y => x.block == y.block) =
      (List.range l.blockCount).map l.stamped := by
    refine List.splitBy_eq_iff.2 ⟨?_, ?_, ?_, ?_⟩
    · rw [← List.flatMap_def, h.flatMap_stamped]
    · intro hnil
      obtain ⟨b, hb, hempty⟩ := List.mem_map.1 hnil
      exact h.stamped_ne_nil (List.mem_range.1 hb) hempty
    · intro group hg
      obtain ⟨b, hb, rfl⟩ := List.mem_map.1 hg
      refine (h.stamped_uncut (List.mem_range.1 hb)).imp_of_mem_imp fun x y hx hy _ => ?_
      simp [(h.mem_stamped.1 hx).2, (h.mem_stamped.1 hy).2]
    · rw [List.isChain_map, List.isChain_range]
      intro b hb
      have hlt : b + 1 < l.blockCount := by
        change b < l.blockCount - 1 at hb
        exact Nat.add_lt_of_lt_sub hb
      refine ⟨h.stamped_ne_nil (Nat.lt_of_succ_lt hlt), h.stamped_ne_nil hlt, ?_⟩
      rw [(h.mem_stamped.1 (List.getLast_mem _)).2, (h.mem_stamped.1 (List.head_mem _)).2]
      simp
  rw [blocks, hsplit, List.map_map]
  rfl

lemma Coherent.length_blocks (h : l.Coherent) : l.blocks.length = l.blockCount := by
  rw [h.blocks_eq, List.length_map, List.length_range]

lemma Coherent.getElem?_blocks (h : l.Coherent) {b : BlockId} (hb : b < l.blockCount) :
    l.blocks[b]? = some (Block.ofInstrs l (l.stamped b)) := by
  rw [h.blocks_eq, List.getElem?_map, List.getElem?_range hb]
  rfl

lemma Coherent.eq_of_getElem?_blocks (h : l.Coherent) {b : BlockId} {block : Block}
    (hb : l.blocks[b]? = some block) :
    b < l.blockCount ∧ block = Block.ofInstrs l (l.stamped b) := by
  have hlt : b < l.blockCount := by
    rw [← h.length_blocks]
    exact (List.getElem?_eq_some_iff.1 hb).1
  rw [h.getElem?_blocks hlt] at hb
  exact ⟨hlt, (Option.some.inj hb).symm⟩

lemma Coherent.ofInstrs_id (h : l.Coherent) {b : BlockId} (hb : b < l.blockCount) :
    (Block.ofInstrs l (l.stamped b)).id = b := by
  obtain ⟨x, rest, heq⟩ := List.exists_cons_of_ne_nil (h.stamped_ne_nil hb)
  have hx : x ∈ l.stamped b := by rw [heq]; exact List.mem_cons_self
  simpa [Block.ofInstrs, heq] using (h.mem_stamped.1 hx).2

/-- The instruction that a block ends with. -/
lemma Coherent.last_ofInstrs (h : l.Coherent) (b : BlockId) :
    (Block.ofInstrs l (l.stamped b)).last?.bind l.instr? = (l.stamped b).getLast? := by
  unfold Block.ofInstrs Block.last?
  simp only [List.getLast?_map]
  cases hx : (l.stamped b).getLast? with
  | none => rfl
  | some x =>
    obtain ⟨⟨i, hi⟩, -⟩ := h.mem_stamped.1 (List.mem_of_getLast? hx)
    simp [h.ids hi, hi]

/-- What ends a block stands at its end. -/
lemma Coherent.getLast?_stamped (h : l.Coherent) {x : Instr} {b : BlockId}
    (hx : x ∈ l.stamped b) (hends : x.action.operator.endsBlock = true) :
    (l.stamped b).getLast? = some x := by
  have hb : b < l.blockCount := h.bears_iff_lt.1 (h.bears_iff.2 (List.ne_nil_of_mem hx))
  have hchain := h.stamped_uncut hb
  obtain ⟨u, w, heq⟩ := List.append_of_mem hx
  rw [heq] at hchain ⊢
  cases w with
  | nil => simp
  | cons y w =>
    have hcut := (List.isChain_append_cons_cons.1 hchain).2.1
    rw [Instr.cuts, hends] at hcut
    cases hcut

/-! ### Boundaries -/

lemma Coherent.getElem?_instrs (h : l.Coherent) (pc : Nat) :
    l.instrs[pc]? = Machine.instrAt? l pc := by
  have hall : ∀ i ∈ l.stream, (l.instr? i).isSome := fun i hi =>
    instr?_isSome_iff.2 (h.mem_stream.1 hi)
  unfold instrs Machine.instrAt?
  generalize l.stream = stream at hall
  induction stream generalizing pc with
  | nil => simp
  | cons i rest ih =>
    obtain ⟨x, hx⟩ := Option.isSome_iff_exists.1 (hall i List.mem_cons_self)
    rw [List.filterMap_cons_some hx]
    cases pc with
    | zero => simp [hx]
    | succ pc => simpa using ih pc fun j hj => hall j (List.mem_cons_of_mem _ hj)

/-- A block starts at a position of the stream, behind another one. -/
def isBoundary (l : Listing) : Nat → Bool
  | 0 => false
  | pc + 1 =>
    match Machine.instrAt? l pc, Machine.instrAt? l (pc + 1) with
    | some x, some y => x.cuts y
    | _, _ => false

/-- The stamp of an instruction counts the boundaries up to it. -/
lemma Coherent.block_eq_count (h : l.Coherent) {pc : Nat} {x : Instr}
    (hx : Machine.instrAt? l pc = some x) :
    x.block = (List.range (pc + 1)).countP l.isBoundary := by
  induction pc generalizing x with
  | zero =>
    rw [← h.getElem?_instrs, ← List.head?_eq_getElem?] at hx
    rw [h.first x hx]
    rfl
  | succ pc ih =>
    have hlt : pc < l.instrs.length := by
      rw [← h.getElem?_instrs] at hx
      exact Nat.lt_of_succ_lt (List.getElem?_eq_some_iff.1 hx).1
    have hw : Machine.instrAt? l pc = some l.instrs[pc] := by
      rw [← h.getElem?_instrs, List.getElem?_eq_getElem hlt]
    have hfollows : Instr.Follows l.instrs[pc] x := by
      rw [← h.getElem?_instrs] at hx
      obtain ⟨hlt', rfl⟩ := List.getElem?_eq_some_iff.1 hx
      exact h.stamps.getElem pc hlt'
    rw [Instr.Follows] at hfollows
    rw [List.range_succ, List.countP_append, ← ih hw, hfollows, List.countP_singleton, isBoundary,
      hw, hx]
    split <;> rfl

/-- There is one block more than boundaries. -/
lemma Coherent.blockCount_eq (h : l.Coherent) (hne : l.stream ≠ []) :
    l.blockCount = 1 + (List.range l.length).countP l.isBoundary := by
  have hlength : l.instrs.length = l.length := by
    rw [length, ← map_id_instrs h, List.length_map]
  have hpos : 0 < l.length := List.length_pos_iff.2 hne
  obtain ⟨n, hn⟩ := Nat.exists_eq_succ_of_ne_zero hpos.ne'
  have hlt : n < l.instrs.length := by rw [hlength, hn]; exact Nat.lt_succ_self n
  have hlast : l.instrs.getLast? = some l.instrs[n] := by
    rw [List.getLast?_eq_getElem?, hlength, hn]
    exact List.getElem?_eq_getElem hlt
  have hx : Machine.instrAt? l n = some l.instrs[n] := by
    rw [← h.getElem?_instrs, List.getElem?_eq_getElem hlt]
  rw [blockCount, hlast, Option.elim_some, h.block_eq_count hx, hn, Nat.add_comm]

end Listing

end ThreeAddress
