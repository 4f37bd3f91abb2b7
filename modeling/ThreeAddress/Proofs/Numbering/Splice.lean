import ThreeAddress.Proofs.Coherent
import ThreeAddress.Proofs.Numbering.Step

/-!
The copies that a block has ordered are inserted one after the other, each at a position
that allows for those before it. In the end every instruction of the block is followed by
its copies, which `weave` says outright.
-/

namespace ThreeAddress.ValueNumbering

/-- A block from its position `j` on, each instruction with the copies that belong to its
position. -/
def weave (copies : List (Nat × InstrId)) : Nat → List InstrId → List InstrId
  | _, [] => []
  | j, i :: rest =>
    i :: ((copies.filter (·.1 = j)).map Prod.snd ++ weave copies (j + 1) rest)

section

variable {copies : List (Nat × InstrId)}

lemma weave_append (j : Nat) (a b : List InstrId) :
    weave copies j (a ++ b) = weave copies j a ++ weave copies (j + a.length) b := by
  induction a generalizing j with
  | nil => rfl
  | cons i rest ih =>
    rw [List.cons_append, weave, weave, ih, List.length_cons, Nat.add_right_comm j 1, Nat.add_assoc]
    simp

/-- Copies at other positions do not matter. -/
lemma weave_snoc_of_ne {o : Nat} {id : InstrId} {j : Nat} {a : List InstrId}
    (h : o < j ∨ j + a.length ≤ o) : weave (copies ++ [(o, id)]) j a = weave copies j a := by
  induction a generalizing j with
  | nil => rfl
  | cons i rest ih =>
    have hne : o ≠ j := by simp at h; omega
    rw [weave, weave, ih (by simp at h; omega), List.filter_append]
    simp [hne]

lemma weave_of_lt {j : Nat} {a : List InstrId} (h : ∀ c ∈ copies, c.1 < j) :
    weave copies j a = a := by
  induction a generalizing j with
  | nil => rfl
  | cons i rest ih =>
    have hnil : copies.filter (·.1 = j) = [] := by
      rw [List.filter_eq_nil_iff]
      intro c hc
      simpa using (h c hc).ne
    rw [weave, hnil, ih fun c hc => (h c hc).trans (Nat.lt_succ_self j)]
    rfl

/-- A further copy, behind all others, at the last position. -/
lemma weave_snoc_last (copies : List (Nat × InstrId)) (id : InstrId) (j : Nat)
    (a : List InstrId) (i : InstrId) :
    weave (copies ++ [(j + a.length, id)]) j (a ++ [i]) = weave copies j (a ++ [i]) ++ [id] := by
  rw [weave_append, weave_append, weave_snoc_of_ne (.inr le_rfl)]
  simp [weave, List.filter_append]

/-- Nothing is lost and nothing is there twice. -/
lemma weave_perm (j : Nat) (a : List InstrId) :
    (weave copies j a).Perm
      (a ++ (copies.filter fun c => j ≤ c.1 ∧ c.1 < j + a.length).map Prod.snd) := by
  induction a generalizing j with
  | nil =>
    have hnil : copies.filter (fun c => j ≤ c.1 ∧ c.1 < j + 0) = [] := by
      rw [List.filter_eq_nil_iff]
      intro c hc
      simp only [decide_eq_true_eq]
      omega
    rw [List.length_nil, hnil]
    exact .refl _
  | cons i rest ih =>
    have hsplit : ((copies.filter (·.1 = j)) ++
        copies.filter fun c => j + 1 ≤ c.1 ∧ c.1 < j + 1 + rest.length).Perm
        (copies.filter fun c => j ≤ c.1 ∧ c.1 < j + (i :: rest).length) := by
      refine .trans (.of_eq ?_) (List.filter_append_perm (·.1 = j) _)
      rw [List.filter_filter, List.filter_filter, List.length_cons]
      congr 1 <;> refine List.filter_congr fun c _ => ?_ <;> rw [Bool.eq_iff_iff] <;> simp <;> omega
    rw [weave, List.cons_append]
    refine .cons i (.trans (.append_left _ (ih (j + 1))) ?_)
    refine .trans ?_ (.append_left rest (hsplit.map Prod.snd))
    rw [List.map_append, ← List.append_assoc, ← List.append_assoc]
    exact .append_right _ List.perm_append_comm

lemma length_weave {j : Nat} {a : List InstrId}
    (h : ∀ c ∈ copies, j ≤ c.1 ∧ c.1 < j + a.length) :
    (weave copies j a).length = a.length + copies.length := by
  rw [(weave_perm j a).length_eq, List.filter_eq_self.2 fun c hc => decide_eq_true (h c hc)]
  simp

/-- Whatever relates neighbours before and relates the copies to their neighbours relates
neighbours afterwards. -/
lemma isChain_weave {R : InstrId → InstrId → Prop} {j : Nat} {a : List InstrId}
    (ha : a.IsChain R)
    (hcopy : ∀ c ∈ copies, ∀ x i, a[x]? = some i → c.1 = j + x →
      R i c.2 ∧ (∀ c' ∈ copies, c'.1 = c.1 → R c.2 c'.2) ∧ ∀ i', a[x + 1]? = some i' → R c.2 i') :
    (weave copies j a).IsChain R := by
  induction a generalizing j with
  | nil => exact .nil
  | cons i rest ih =>
    have hhead : (weave copies (j + 1) rest).head? = rest.head? := by cases rest <;> rfl
    rw [weave, ← List.cons_append, List.isChain_append]
    refine ⟨?_, ?_, ?_⟩
    · apply List.Pairwise.isChain
      refine List.pairwise_cons.2 ⟨?_, List.pairwise_of_forall_mem_list ?_⟩
      · intro k hk
        obtain ⟨c, hc, rfl⟩ := List.mem_map.1 hk
        obtain ⟨hc, hj⟩ := List.mem_filter.1 hc
        exact (hcopy c hc 0 i rfl (by simpa using hj)).1
      · intro k hk k' hk'
        obtain ⟨c, hc, rfl⟩ := List.mem_map.1 hk
        obtain ⟨c', hc', rfl⟩ := List.mem_map.1 hk'
        obtain ⟨hc, hj⟩ := List.mem_filter.1 hc
        obtain ⟨hc', hj'⟩ := List.mem_filter.1 hc'
        simp only [decide_eq_true_eq] at hj hj'
        exact (hcopy c hc 0 i rfl hj).2.1 c' hc' (hj'.trans hj.symm)
    · refine ih ha.tail fun c hc x i' hi' hx => ?_
      exact hcopy c hc (x + 1) i' hi' (by omega)
    · intro k hk k' hk'
      rw [hhead] at hk'
      rw [List.getLast?_cons] at hk
      cases hlast : ((copies.filter (·.1 = j)).map Prod.snd).getLast? with
      | none =>
        obtain rfl : i = k := by simpa [hlast] using hk
        exact List.isChain_cons.1 ha |>.1 k' hk'
      | some last =>
        obtain rfl : last = k := by simpa [hlast] using hk
        obtain ⟨c, hc, rfl⟩ := List.mem_map.1 (List.mem_of_getLast? hlast)
        obtain ⟨hc, hj⟩ := List.mem_filter.1 hc
        refine (hcopy c hc 0 i rfl (by simpa using hj)).2.2 k' ?_
        rwa [List.head?_eq_getElem?] at hk'

/-! ### Positions -/

/-- Where the instruction at a position of the stream is found among the copies. -/
def offset (copies : List (Nat × InstrId)) (stream : List InstrId) (pc : Nat) : Nat :=
  (weave copies 0 (stream.take pc)).length

lemma weave_split {stream : List InstrId} {pc : Nat} {i : InstrId} (h : stream[pc]? = some i) :
    weave copies 0 stream = weave copies 0 (stream.take pc) ++
      i :: ((copies.filter (·.1 = pc)).map Prod.snd ++
        weave copies (pc + 1) (stream.drop (pc + 1))) := by
  obtain ⟨hlt, rfl⟩ := List.getElem?_eq_some_iff.1 h
  have hdrop : stream = stream.take pc ++ stream[pc] :: stream.drop (pc + 1) := by simp
  conv_lhs => rw [hdrop]
  rw [weave_append, weave, List.length_take, Nat.min_eq_left hlt.le, Nat.zero_add]

lemma offset_succ {stream : List InstrId} {pc : Nat} {i : InstrId} (h : stream[pc]? = some i) :
    offset copies stream (pc + 1) =
      offset copies stream pc + 1 + (copies.filter (·.1 = pc)).length := by
  obtain ⟨hlt, rfl⟩ := List.getElem?_eq_some_iff.1 h
  have hlen : (stream.take pc).length = pc := by simp; omega
  rw [offset, ← List.take_append_getElem hlt, weave_append, hlen, Nat.zero_add, List.length_append]
  simp [weave, offset]
  omega

lemma getElem?_offset (stream : List InstrId) (pc : Nat) :
    (weave copies 0 stream)[offset copies stream pc]? = stream[pc]? := by
  cases h : stream[pc]? with
  | none =>
    rw [offset, List.take_of_length_le (List.getElem?_eq_none_iff.1 h)]
    simp
  | some i =>
    rw [weave_split h, offset, List.getElem?_append_right le_rfl]
    simp

lemma getElem?_offset_add {stream : List InstrId} {pc : Nat} {i : InstrId}
    (h : stream[pc]? = some i) {x : Nat} (hx : x < (copies.filter (·.1 = pc)).length) :
    (weave copies 0 stream)[offset copies stream pc + 1 + x]? =
      ((copies.filter (·.1 = pc)).map Prod.snd)[x]? := by
  rw [weave_split h, offset, List.getElem?_append_right (by omega), Nat.add_assoc,
    Nat.add_sub_cancel_left, Nat.add_comm 1, List.getElem?_cons_succ,
    List.getElem?_append_left (by simpa using hx)]

end

/-! ### Insertion -/

lemma insertIdx_append_length {α : Type} (a b : List α) (x : α) :
    (a ++ b).insertIdx a.length x = a ++ x :: b := by
  induction a with
  | nil => rfl
  | cons y rest ih => rw [List.cons_append, List.length_cons, List.insertIdx_succ_cons, ih]; rfl

/-- Inserting a copy behind those that are there already. -/
lemma weave_insert {copies : List (Nat × InstrId)} {o : Nat} {stream : List InstrId}
    (ho : o < stream.length) (hle : ∀ c ∈ copies, c.1 ≤ o) (id : InstrId) :
    (weave copies 0 stream).insertIdx (o + 1 + copies.length) id =
      weave (copies ++ [(o, id)]) 0 stream := by
  obtain ⟨a, i, b, rfl, rfl⟩ : ∃ a i b, stream = a ++ [i] ++ b ∧ a.length = o := by
    refine ⟨stream.take o, stream[o], stream.drop (o + 1), ?_, by simp; omega⟩
    simp
  have hlt : ∀ c ∈ copies, c.1 < 0 + (a ++ [i]).length := fun c hc => by
    have := hle c hc
    simp
    omega
  have hold : weave copies 0 (a ++ [i] ++ b) = weave copies 0 (a ++ [i]) ++ b := by
    rw [weave_append 0 (a ++ [i]) b, weave_of_lt hlt]
  have hnew : weave (copies ++ [(a.length, id)]) 0 (a ++ [i] ++ b) =
      weave copies 0 (a ++ [i]) ++ [id] ++ b := by
    have hlast := weave_snoc_last copies id 0 a i
    rw [Nat.zero_add] at hlast
    rw [weave_append 0 (a ++ [i]) b, hlast, weave_snoc_of_ne (.inl (by simp)), weave_of_lt hlt]
  have hlen : (weave copies 0 (a ++ [i])).length = a.length + 1 + copies.length := by
    rw [length_weave fun c hc => ⟨Nat.zero_le _, hlt c hc⟩]
    simp
  rw [hold, hnew, ← hlen, insertIdx_append_length, List.append_cons]

/-- The copies of a block that starts at `start`, with their positions in the stream and with
the numbers from `n` on. -/
def numberedFrom (start n : Nat) (p : List CopyOrder) : List (Nat × InstrId) :=
  p.zipIdx.map fun (c, x) => (start + c.origin, n + x)

lemma numberedFrom_snoc (start n : Nat) (p : List CopyOrder) (c : CopyOrder) :
    numberedFrom start n (p ++ [c]) =
      numberedFrom start n p ++ [(start + c.origin, n + p.length)] := by
  simp [numberedFrom, List.zipIdx_append]

lemma mem_numberedFrom {start n : Nat} {p : List CopyOrder} {e : Nat × InstrId} :
    e ∈ numberedFrom start n p ↔ ∃ x c, p[x]? = some c ∧ e = (start + c.origin, n + x) := by
  simp only [numberedFrom, List.mem_map, Prod.exists, List.mem_zipIdx_iff_getElem?]
  exact ⟨fun ⟨c, x, hx, he⟩ => ⟨x, c, hx, he.symm⟩, fun ⟨x, c, hx, he⟩ => ⟨c, x, hx, he.symm⟩⟩

lemma map_snd_numberedFrom (start n : Nat) (p : List CopyOrder) :
    (numberedFrom start n p).map Prod.snd = (List.range p.length).map (n + ·) := by
  induction p using List.reverseRecOn with
  | nil => rfl
  | append_singleton p c ih => rw [numberedFrom_snoc]; simp [ih, List.range_succ]

/-- The copies at a position, next to their orders. -/
lemma forall₂_numberedFrom {R : InstrId → CopyOrder → Prop} {start n : Nat} {p : List CopyOrder}
    (h : ∀ {x : Nat} {c}, p[x]? = some c → R (n + x) c) (pc : Nat) :
    List.Forall₂ R (((numberedFrom start n p).filter (·.1 = pc)).map Prod.snd)
      (p.filter (start + ·.origin = pc)) := by
  induction p using List.reverseRecOn with
  | nil => exact .nil
  | append_singleton p c ih =>
    rw [numberedFrom_snoc, List.filter_append, List.filter_append, List.map_append]
    refine List.rel_append (ih fun {x c'} hx => h ?_) ?_
    · rw [List.getElem?_append_left (List.getElem?_eq_some_iff.1 hx).1, hx]
    · by_cases hc : start + c.origin = pc
      · simpa [hc] using h (x := p.length) (c := c) (by simp)
      · simp [hc]

/-- The listing `l'` is `l` with the copies `p` in the block `b`, which starts at `start`. -/
structure Spliced (l : Listing) (b : BlockId) (start : Nat) (p : List CopyOrder)
    (l' : Listing) : Prop where
  tables : ∃ arena stream, l' = { l with arena, stream }
  size : l'.arena.size = l.arena.size + p.length
  old : ∀ i < l.arena.size, l'.instr? i = l.instr? i
  new : ∀ {x : Nat} {c}, p[x]? = some c → l'.instr? (l.arena.size + x) =
    some ⟨l.arena.size + x, .copy (.var c.source) (.var c.temp),
      (l.typeOf? (.var c.source)).getD .none, b⟩
  stream : l'.stream = weave (numberedFrom start l.arena.size p) 0 l.stream

lemma insertCopies_snoc (l : Listing) (b : BlockId) (start : Nat) (p : List CopyOrder)
    (c : CopyOrder) :
    insertCopies l b start (p ++ [c]) = (insertCopies l b start p).spliceCopy
      (start + c.origin + 1 + p.length) c.temp c.source b := by
  simp [insertCopies, List.zipIdx_append]

theorem insertCopies_spliced {l : Listing} {start : Nat} {p : List CopyOrder} (b : BlockId)
    (hsorted : p.Pairwise fun c c' => c.origin ≤ c'.origin)
    (hlt : ∀ c ∈ p, start + c.origin < l.stream.length) :
    Spliced l b start p (insertCopies l b start p) := by
  induction p using List.reverseRecOn with
  | nil =>
    refine ⟨⟨l.arena, l.stream, rfl⟩, rfl, fun i _ => rfl, by simp, ?_⟩
    exact (weave_of_lt (by simp [numberedFrom])).symm
  | append_singleton p c ih =>
    obtain ⟨hp, -, hle⟩ := List.pairwise_append.1 hsorted
    have h := ih hp fun c' hc' => hlt c' (List.mem_append_left _ hc')
    rw [insertCopies_snoc]
    generalize insertCopies l b start p = l' at h
    refine ⟨?_, ?_, ?_, ?_, ?_⟩
    · obtain ⟨arena, stream, rfl⟩ := h.tables
      exact ⟨_, _, rfl⟩
    · simp [Listing.spliceCopy, h.size]
      omega
    · intro i hi
      have hne : i ≠ l'.arena.size := h.size ▸ (hi.trans_le (Nat.le_add_right _ _)).ne
      rw [← h.old i hi]
      simp [Listing.instr?, Listing.spliceCopy, Array.getElem?_push, hne]
    · intro x c' hx
      by_cases hlast : x < p.length
      · rw [List.getElem?_append_left hlast] at hx
        have hne : l.arena.size + x ≠ l'.arena.size := by rw [h.size]; omega
        rw [← h.new hx]
        simp [Listing.instr?, Listing.spliceCopy, Array.getElem?_push, hne]
      · have hx' : x < p.length + 1 := by simpa using List.getElem?_eq_some_iff.1 hx |>.1
        obtain rfl : x = p.length := by omega
        obtain rfl : c = c' := by simpa using hx
        have hty : l'.typeOf? (.var c.source) = l.typeOf? (.var c.source) := by
          obtain ⟨arena, stream, rfl⟩ := h.tables
          rfl
        simp [Listing.instr?, Listing.spliceCopy, ← h.size, hty]
    · have hle' : ∀ e ∈ numberedFrom start l.arena.size p, e.1 ≤ start + c.origin := by
        intro e he
        obtain ⟨x, c', hx, rfl⟩ := mem_numberedFrom.1 he
        exact Nat.add_le_add_left (hle c' (List.mem_of_getElem? hx) c (by simp)) start
      have hinsert := weave_insert (hlt c (by simp)) hle' (l.arena.size + p.length)
      rw [numberedFrom_snoc, ← hinsert, ← h.stream, ← h.size]
      simp [Listing.spliceCopy, numberedFrom]

end ThreeAddress.ValueNumbering
