import ThreeAddress.Digraph.Dominators
import ThreeAddress.Proofs.Dominators.Semidominators

/-!
The numbering of the nodes is that of a depth-first tree.

A visit numbers the nodes it finds one after the other and ends when all their successors
have numbers. So the numbers that are given during the visit of a node are those of its
descendants, and an edge that leaves them leads to a number given before.
-/

namespace ThreeAddress.Dominators

lemma getD_setIfInBounds {α : Type} {xs : Array α} {i : Nat} (h : i < xs.size) (x d : α)
    (j : Nat) : (xs.setIfInBounds i x).getD j d = if j = i then x else xs.getD j d := by
  by_cases hij : j = i
  · subst hij
    simp [h]
  · simp [Array.getElem?_setIfInBounds_ne (Ne.symm hij), hij]

namespace Numbering

def num (s : Numbering) (v : Nat) : Nat := s.number.getD v 0

def par (s : Numbering) (v : Nat) : Nat := s.parent.getD v v

lemma reached_iff {s : Numbering} {v : Nat} : s.reached v = true ↔ 0 < s.num v := by
  simp [reached, num, Nat.pos_iff_ne_zero]

/-- The numbers are the places in the order. -/
structure Valid (size : Nat) (s : Numbering) : Prop where
  number_size : s.number.size = size
  parent_size : s.parent.size = size
  order_iff : ∀ {i v}, s.order[i]? = some v ↔ s.num v = i + 1

section

variable {size : Nat} {s : Numbering} {a b v node p : Nat}

lemma Valid.lt (h : Valid size s) (hv : 0 < s.num v) : v < size := by
  by_contra hlt
  rw [← h.number_size] at hlt
  simp [num, Array.getD_eq_getD_getElem?, Array.getElem?_eq_none (not_lt.1 hlt)] at hv

lemma Valid.order_of_pos (h : Valid size s) (hv : 0 < s.num v) :
    s.order[s.num v - 1]? = some v :=
  h.order_iff.2 (by omega)

lemma Valid.num_le (h : Valid size s) (v : Nat) : s.num v ≤ s.order.size := by
  rcases Nat.eq_zero_or_pos (s.num v) with hz | hv
  · omega
  · have := (Array.getElem?_eq_some_iff.1 (h.order_of_pos hv)).1
    omega

lemma Valid.num_inj (h : Valid size s) (ha : 0 < s.num a) (heq : s.num a = s.num b) : a = b := by
  have hb := h.order_of_pos (v := b) (heq ▸ ha)
  rw [← heq, h.order_of_pos ha] at hb
  exact Option.some.inj hb

lemma Valid.pos_of_mem (h : Valid size s) (hv : v ∈ s.order.toList) : 0 < s.num v := by
  obtain ⟨i, hi⟩ := List.mem_iff_getElem?.1 hv
  rw [Array.getElem?_toList] at hi
  rw [h.order_iff.1 hi]
  exact Nat.succ_pos i

lemma Valid.nodup (h : Valid size s) : s.order.toList.Nodup := by
  refine List.nodup_iff_getElem?_ne_getElem?.2 fun i j hij hj heq => ?_
  rw [Array.getElem?_toList, Array.getElem?_toList] at heq
  have hjv : s.order[j]? = some s.order[j] := Array.getElem?_eq_getElem (by simpa using hj)
  have hi := h.order_iff.1 (heq.trans hjv)
  rw [h.order_iff.1 hjv] at hi
  omega

/-- With as many places as there are nodes, every node has one. -/
lemma Valid.pos_of_full (h : Valid size s) (hfull : size ≤ s.order.size) (hv : v < size) :
    0 < s.num v := by
  have hsub : s.order.toList ⊆ List.range size := fun x hx =>
    List.mem_range.2 (h.lt (h.pos_of_mem hx))
  have hperm := (h.nodup.subperm hsub).perm_of_length_le (by simpa using hfull)
  exact h.pos_of_mem (hperm.mem_iff.2 (List.mem_range.2 hv))

lemma num_add (h : Valid size s) (hnode : node < size) (v : Nat) :
    (s.add node p).num v = if v = node then s.order.size + 1 else s.num v :=
  getD_setIfInBounds (by rw [h.number_size]; exact hnode) _ _ v

lemma par_add (h : Valid size s) (hnode : node < size) (v : Nat) :
    (s.add node p).par v = if v = node then p else s.par v :=
  getD_setIfInBounds (by rw [h.parent_size]; exact hnode) _ _ v

lemma Valid.add (h : Valid size s) (hnode : node < size) (hnew : s.num node = 0) :
    Valid size (s.add node p) := by
  refine ⟨?_, ?_, fun {i v} => ?_⟩
  · exact Array.size_setIfInBounds.trans h.number_size
  · exact Array.size_setIfInBounds.trans h.parent_size
  · rw [num_add h hnode]
    have hpush : (s.add node p).order[i]? = if i = s.order.size then some node else s.order[i]? :=
      Array.getElem?_push
    rw [hpush]
    by_cases hv : v = node
    · subst hv
      rw [if_pos rfl]
      split
      · simp_all
      · rw [h.order_iff]
        omega
    · rw [if_neg hv]
      split
      · rename_i hi
        have := h.num_le v
        simp only [Option.some.injEq, Ne.symm hv, false_iff]
        omega
      · exact h.order_iff

end

/-! ### What a visit adds -/

variable {succ : Nat → List Nat} {size : Nat}

/-- Numbers and parents stay; new numbers are greater than the old ones. -/
structure Grown (s s' : Numbering) : Prop where
  size_le : s.order.size ≤ s'.order.size
  num : ∀ {v}, 0 < s.num v → s'.num v = s.num v
  par : ∀ {v}, 0 < s.num v → s'.par v = s.par v
  fresh : ∀ {v}, s.num v = 0 → 0 < s'.num v → s.order.size < s'.num v

lemma Grown.refl (s : Numbering) : Grown s s :=
  ⟨le_rfl, fun _ => rfl, fun _ => rfl, fun hz hp => by omega⟩

lemma Grown.pos {s s' : Numbering} (h : Grown s s') {v : Nat} (hv : 0 < s.num v) :
    0 < s'.num v := by
  rw [h.num hv]
  exact hv

lemma Grown.zero {s s' : Numbering} (h : Grown s s') {v : Nat} (hv : s'.num v = 0) :
    s.num v = 0 := by
  by_contra hpos
  have := h.pos (Nat.pos_of_ne_zero hpos)
  omega

lemma Grown.trans {s t u : Numbering} (h : Grown s t) (h' : Grown t u) : Grown s u := by
  refine ⟨h.size_le.trans h'.size_le, fun hv => ?_, fun hv => ?_, fun {v} hz hp => ?_⟩
  · rw [h'.num (h.pos hv), h.num hv]
  · rw [h'.par (h.pos hv), h.par hv]
  · rcases Nat.eq_zero_or_pos (t.num v) with ht | ht
    · exact h.size_le.trans_lt (h'.fresh ht hp)
    · rw [h'.num ht]
      exact h.fresh hz ht

/-- The numbers from that of `m` to `e` are those of the descendants of `m`. -/
structure Block (succ : Nat → List Nat) (s : Numbering) (m e : Nat) : Prop where
  le : s.num m ≤ e
  bound : e ≤ s.order.size
  inside : ∀ {a}, s.num m < s.num a → s.num a ≤ e → s.num m ≤ s.num (s.par a)
  outside : ∀ {a}, e < s.num a → s.num (s.par a) < s.num m ∨ e < s.num (s.par a)
  edges : ∀ {a b}, s.num m ≤ s.num a → s.num a ≤ e → b ∈ succ a → 0 < s.num b ∧ s.num b ≤ e

/-- What is known after some nodes below `p` have been visited, where the nodes of `tops` are
children of `p`. -/
structure Explored (succ : Nat → List Nat) (size p : Nat) (tops : Nat → Prop)
    (s s' : Numbering) : Prop where
  valid : Valid size s'
  grown : Grown s s'
  parent : ∀ {a}, s.num a = 0 → 0 < s'.num a → (tops a ∧ s'.par a = p) ∨
    (s.num (s'.par a) = 0 ∧ 0 < s'.num (s'.par a) ∧ s'.num (s'.par a) < s'.num a ∧
      a ∈ succ (s'.par a))
  closed : ∀ {a b}, s.num a = 0 → 0 < s'.num a → b ∈ succ a → 0 < s'.num b
  block : ∀ {m}, s.num m = 0 → 0 < s'.num m → ∃ e, Block succ s' m e

lemma Explored.refl {s : Numbering} (h : Valid size s) (p : Nat) (tops : Nat → Prop) :
    Explored succ size p tops s s :=
  ⟨h, .refl s, fun hz hp => by omega, fun hz hp => by omega, fun hz hp => by omega⟩

/-- Later nodes are no descendants. -/
lemma Block.grow {s s' : Numbering} {m e p : Nat} {tops : Nat → Prop} (h : Block succ s m e)
    (hm : 0 < s.num m) (hs : Explored succ size p tops s s') (hp : 0 < s.num p)
    (hpm : s.num p < s.num m) : Block succ s' m e := by
  have hg := hs.grown
  have hold {a : Nat} (ha : 0 < s'.num a) (hle : s'.num a ≤ e) : 0 < s.num a := by
    by_contra hz
    have := hg.fresh (by omega) ha
    have := h.bound
    omega
  rw [← hg.num hm] at hpm
  refine ⟨hg.num hm ▸ h.le, h.bound.trans hg.size_le, fun {a} hlt hle => ?_, fun {a} hlt => ?_,
    fun {a b} hle hle' hb => ?_⟩
  · have ha := hold (by omega) hle
    rw [hg.num hm, hg.num ha] at hlt
    rw [hg.num ha] at hle
    have hin := h.inside hlt hle
    rw [hg.par ha, hg.num hm, hg.num (hm.trans_le hin)]
    exact hin
  · rcases Nat.eq_zero_or_pos (s.num a) with hz | ha
    · obtain ⟨-, hpar⟩ | ⟨hpz, hppos, -⟩ := hs.parent hz (by omega)
      · left
        rw [hpar, hg.num hp]
        exact hpm
      · right
        exact h.bound.trans_lt (hg.fresh hpz hppos)
    · rw [hg.num ha] at hlt
      rw [hg.par ha, hg.num hm]
      have hout := h.outside hlt
      rcases Nat.eq_zero_or_pos (s.num (s.par a)) with hz | hpos
      · rcases Nat.eq_zero_or_pos (s'.num (s.par a)) with hz' | hpos'
        · exact .inl (hz' ▸ hm)
        · exact .inr (h.bound.trans_lt (hg.fresh hz hpos'))
      · rw [hg.num hpos]
        exact hout
  · have hapos : 0 < s'.num a := by
      have := hg.pos hm
      omega
    have ha := hold hapos hle'
    rw [hg.num hm, hg.num ha] at hle
    rw [hg.num ha] at hle'
    obtain ⟨hbpos, hble⟩ := h.edges hle hle' hb
    exact ⟨hg.pos hbpos, by rw [hg.num hbpos]; exact hble⟩

lemma Explored.mono {s s' : Numbering} {p : Nat} {tops tops' : Nat → Prop}
    (h : Explored succ size p tops s s') (htops : ∀ a, tops a → tops' a) :
    Explored succ size p tops' s s' :=
  ⟨h.valid, h.grown, fun hz ha => (h.parent hz ha).imp_left (.imp_left (htops _)), h.closed,
    h.block⟩

lemma Explored.trans {s t u : Numbering} {p : Nat} {tops tops' : Nat → Prop}
    (hs : Valid size s) (h : Explored succ size p tops s t) (h' : Explored succ size p tops' t u)
    (hp : 0 < s.num p) : Explored succ size p (fun a => tops a ∨ tops' a) s u := by
  have hg := h.grown
  have hg' := h'.grown
  refine ⟨h'.valid, hg.trans hg', fun {a} hz ha => ?_, fun {a b} hz ha hb => ?_,
    fun {m} hz hm => ?_⟩
  · rcases Nat.eq_zero_or_pos (t.num a) with ht | ht
    · obtain ⟨htop, hpar⟩ | ⟨hz', hrest⟩ := h'.parent ht ha
      · exact .inl ⟨.inr htop, hpar⟩
      · exact .inr ⟨hg.zero hz', hrest⟩
    · obtain ⟨htop, hpar⟩ | ⟨hz', hpos, hlt, hmem⟩ := h.parent hz ht
      · exact .inl ⟨.inl htop, (hg'.par ht).trans hpar⟩
      · rw [hg'.par ht, hg'.num hpos, hg'.num ht]
        exact .inr ⟨hz', hpos, hlt, hmem⟩
  · rcases Nat.eq_zero_or_pos (t.num a) with ht | ht
    · exact h'.closed ht ha hb
    · exact hg'.pos (h.closed hz ht hb)
  · rcases Nat.eq_zero_or_pos (t.num m) with ht | ht
    · exact h'.block ht hm
    · obtain ⟨e, he⟩ := h.block hz ht
      have hpm : t.num p < t.num m := by
        rw [hg.num hp]
        exact (hs.num_le p).trans_lt (hg.fresh hz ht)
      exact ⟨e, he.grow ht h' (hg.pos hp) hpm⟩

/-- A new node is explored with all it leads to. -/
lemma explored_add {s s' : Numbering} {node p : Nat} (hs : Valid size s) (hnode : node < size)
    (hnew : s.num node = 0)
    (h : Explored succ size node (· ∈ succ node) (s.add node p) s')
    (hsucc : ∀ b ∈ succ node, 0 < s'.num b) : Explored succ size p (· = node) s s' := by
  have hnum := num_add (p := p) hs hnode
  have hself : (s.add node p).num node = s.order.size + 1 := (hnum node).trans (if_pos rfl)
  have hother {v : Nat} (hv : v ≠ node) : (s.add node p).num v = s.num v :=
    (hnum v).trans (if_neg hv)
  have hnumber : s'.num node = s.order.size + 1 := by
    rw [h.grown.num (by rw [hself]; exact Nat.succ_pos _), hself]
  have hgrown : Grown s (s.add node p) := by
    refine ⟨by simp [add], fun {v} hv => ?_, fun {v} hv => ?_, fun {v} hz hv => ?_⟩
    · exact hother fun heq => by rw [heq] at hv; omega
    · refine (par_add hs hnode v).trans (if_neg fun heq => ?_)
      rw [heq] at hv
      omega
    · rw [hnum] at hv ⊢
      split at hv <;> simp_all
  have hg := hgrown.trans h.grown
  have hparent {a : Nat} (hz : s.num a = 0) (ha : 0 < s'.num a) :
      (a = node ∧ s'.par a = p) ∨ (s.num (s'.par a) = 0 ∧ 0 < s'.num (s'.par a) ∧
        s'.num (s'.par a) < s'.num a ∧ a ∈ succ (s'.par a)) := by
    by_cases han : a = node
    · subst han
      refine .inl ⟨rfl, ?_⟩
      rw [h.grown.par (by rw [hself]; exact Nat.succ_pos _)]
      exact (par_add hs hnode a).trans (if_pos rfl)
    · right
      obtain ⟨hmem, hpar⟩ | ⟨hz', hrest⟩ := h.parent ((hother han).trans hz) ha
      · have hlt := h.grown.fresh ((hother han).trans hz) ha
        have hsize : (s.add node p).order.size = s.order.size + 1 := by simp [add]
        rw [hpar]
        exact ⟨hnew, by omega, by omega, hmem⟩
      · exact ⟨hgrown.zero hz', hrest⟩
  have hclosed {a b : Nat} (hz : s.num a = 0) (ha : 0 < s'.num a) (hb : b ∈ succ a) :
      0 < s'.num b := by
    by_cases han : a = node
    · subst han
      exact hsucc b hb
    · exact h.closed ((hother han).trans hz) ha hb
  have hnewer {a : Nat} (ha : s'.num node ≤ s'.num a) : s.num a = 0 := by
    by_contra hpos
    have := hs.num_le a
    rw [hg.num (Nat.pos_of_ne_zero hpos)] at ha
    omega
  refine ⟨h.valid, hg, hparent, hclosed, fun {m} hz hm => ?_⟩
  by_cases hmn : m = node
  · subst hmn
    refine ⟨s'.order.size, h.valid.num_le m, le_rfl, fun {a} hlt _ => ?_, fun {a} hlt => ?_,
      fun {a b} hle _ hb => ?_⟩
    · have haz := hnewer hlt.le
      obtain ⟨rfl, -⟩ | ⟨hpz, hppos, -⟩ := hparent haz (by omega)
      · omega
      · have := hg.fresh hpz hppos
        omega
    · have := h.valid.num_le a
      omega
    · exact ⟨hclosed (hnewer hle) (by omega) hb, h.valid.num_le b⟩
  · exact h.block ((hother hmn).trans hz) hm

lemma foldl_explored {fuel p : Nat} (cs : List Nat) {s : Numbering}
    (hvisit : ∀ node {s : Numbering}, Valid size s → size ≤ s.order.size + fuel →
      Explored succ size p (· = node) s (visit succ fuel p s node) ∧
        (node < size → 0 < (visit succ fuel p s node).num node))
    (hs : Valid size s) (hp : 0 < s.num p) (hfuel : size ≤ s.order.size + fuel) :
    Explored succ size p (· ∈ cs) s (cs.foldl (visit succ fuel p) s) ∧
      ∀ c ∈ cs, c < size → 0 < (cs.foldl (visit succ fuel p) s).num c := by
  induction cs generalizing s with
  | nil => exact ⟨.refl hs p _, by simp⟩
  | cons c cs ih =>
    obtain ⟨hc, hreached⟩ := hvisit c hs hfuel
    have hsize := hc.grown.size_le
    obtain ⟨hcs, hreached'⟩ := ih hc.valid (hc.grown.pos hp) (by omega)
    refine ⟨(Explored.trans hs hc hcs hp).mono fun a ha => List.mem_cons.2 ha, fun c' hc' hlt => ?_⟩
    obtain rfl | hc' := List.mem_cons.1 hc'
    · exact hcs.grown.pos (hreached hlt)
    · exact hreached' c' hc' hlt

lemma visit_explored (hsucc : ∀ a b, b ∈ succ a → b < size) (fuel p : Nat) (node : Nat)
    {s : Numbering} (hs : Valid size s) (hfuel : size ≤ s.order.size + fuel) :
    Explored succ size p (· = node) s (visit succ fuel p s node) ∧
      (node < size → 0 < (visit succ fuel p s node).num node) := by
  induction fuel generalizing p s node with
  | zero => exact ⟨.refl hs p _, fun hnode => hs.pos_of_full (by omega) hnode⟩
  | succ fuel ih =>
    rw [visit]
    split
    · rename_i hskip
      refine ⟨.refl hs p _, fun hnode => ?_⟩
      rw [hs.number_size, reached_iff] at hskip
      exact hskip.resolve_left (by omega)
    · rename_i hskip
      rw [hs.number_size, reached_iff, not_or, not_le, not_lt] at hskip
      obtain ⟨hnode, hnew⟩ := hskip
      have hnew : s.num node = 0 := Nat.le_zero.1 hnew
      have hself : (s.add node p).num node = s.order.size + 1 :=
        (num_add hs hnode node).trans (if_pos rfl)
      have hsize : (s.add node p).order.size = s.order.size + 1 := by simp [add]
      obtain ⟨hfold, hreached⟩ := foldl_explored (succ node) (fun c _ => ih node c)
        (hs.add (p := p) hnode hnew) (by omega) (by omega)
      refine ⟨explored_add hs hnode hnew hfold fun b hb => hreached b hb (hsucc node b hb),
        fun _ => ?_⟩
      exact hfold.grown.pos (by omega)

/-! ### The tree -/

section

variable {root : Nat}

/-- A block holds the descendants of its first node. -/
lemma Block.num_le {s : Numbering} {m e a : Nat} (h : Block succ s m e)
    (hpar : ∀ {b}, b ≠ root → 0 < s.num b → s.num (s.par b) < s.num b)
    (ha : Ancestor root s.num s.par m a) : s.num m ≤ s.num a ∧ s.num a ≤ e := by
  induction ha with
  | refl _ => exact ⟨le_rfl, h.le⟩
  | step hne hpos _ ih =>
    have hlt := hpar hne hpos
    refine ⟨by omega, ?_⟩
    by_contra hle
    have := h.outside (not_le.1 hle)
    omega

lemma Block.ancestor {s : Numbering} {m e b : Nat} (h : Block succ s m e) (hs : Valid size s)
    (hm : 0 < s.num m) (hroot : s.num root ≤ s.num m)
    (hpar : ∀ {b}, b ≠ root → 0 < s.num b → s.num (s.par b) < s.num b)
    (hle : s.num m ≤ s.num b) (hle' : s.num b ≤ e) : Ancestor root s.num s.par m b := by
  induction hn : s.num b using Nat.strong_induction_on generalizing b with
  | _ n ih =>
    by_cases heq : s.num m = s.num b
    · obtain rfl := hs.num_inj hm heq
      exact .refl hm
    · have hne : b ≠ root := by
        rintro rfl
        omega
      have hlt := hpar hne (by omega)
      exact .step hne (by omega)
        (ih _ (hn ▸ hlt) (h.inside (by omega) hle') (by omega) rfl)

/-- The numbering before the first visit. -/
def unnumbered (size root : Nat) : Numbering :=
  ⟨Array.replicate size 0, #[], Array.replicate size root⟩

lemma num_unnumbered (size root v : Nat) : (unnumbered size root).num v = 0 := by
  unfold unnumbered num
  by_cases hv : v < size <;> simp [hv]

lemma valid_unnumbered (size root : Nat) : Valid size (unnumbered size root) := by
  refine ⟨by simp [unnumbered], by simp [unnumbered], fun {i v} => ?_⟩
  rw [num_unnumbered]
  simp [unnumbered]

end

end Numbering

section

variable {succ : Nat → List Nat} {size root : Nat} (hsucc : ∀ a b, b ∈ succ a → b < size)
  (hroot : root < size)

include hsucc hroot

lemma number_explored :
    Numbering.Explored succ size root (· = root) (Numbering.unnumbered size root)
        (number size succ root) ∧
      0 < (number size succ root).num root := by
  obtain ⟨hexplored, hreached⟩ := Numbering.visit_explored hsucc size root root
    (Numbering.valid_unnumbered size root) (Nat.le_add_left size _)
  exact ⟨hexplored, hreached hroot⟩

lemma number_valid : (number size succ root).Valid size :=
  (number_explored hsucc hroot).1.valid

lemma number_parent {b : Nat} (hne : b ≠ root) (hb : 0 < (number size succ root).num b) :
    b ∈ succ ((number size succ root).par b) ∧
      0 < (number size succ root).num ((number size succ root).par b) ∧
      (number size succ root).num ((number size succ root).par b) <
        (number size succ root).num b := by
  obtain ⟨rfl, -⟩ | ⟨-, hpos, hlt, hmem⟩ :=
    (number_explored hsucc hroot).1.parent (Numbering.num_unnumbered size root b) hb
  · exact absurd rfl hne
  · exact ⟨hmem, hpos, hlt⟩

lemma number_root_le {b : Nat} (hb : 0 < (number size succ root).num b) :
    (number size succ root).num root ≤ (number size succ root).num b := by
  induction hn : (number size succ root).num b using Nat.strong_induction_on generalizing b with
  | _ n ih =>
    by_cases hne : b = root
    · rw [← hn, hne]
    · obtain ⟨-, hpos, hlt⟩ := number_parent hsucc hroot hne hb
      have := ih _ (hn ▸ hlt) hpos rfl
      omega

/-- The nodes below a node are the nodes of its block. -/
lemma number_block {m : Nat} (hm : 0 < (number size succ root).num m) :
    ∃ e, Numbering.Block succ (number size succ root) m e ∧
      ∀ b, Ancestor root (number size succ root).num (number size succ root).par m b ↔
        (number size succ root).num m ≤ (number size succ root).num b ∧
          (number size succ root).num b ≤ e := by
  have hpar {b : Nat} (hne : b ≠ root) (hb : 0 < (number size succ root).num b) :=
    (number_parent hsucc hroot hne hb).2.2
  obtain ⟨e, he⟩ := (number_explored hsucc hroot).1.block (Numbering.num_unnumbered size root m) hm
  refine ⟨e, he, fun b => ⟨he.num_le hpar, fun ⟨hle, hle'⟩ => ?_⟩⟩
  exact he.ancestor (number_valid hsucc hroot) hm (number_root_le hsucc hroot hm) hpar hle hle'

/-- The depth-first tree of a numbering. -/
def depthFirst : DepthFirst fun a b => b ∈ succ a where
  root := root
  num := (number size succ root).num
  parent := (number size succ root).par
  root_pos := (number_explored hsucc hroot).2
  closed := fun ha he =>
    (number_explored hsucc hroot).1.closed (Numbering.num_unnumbered size root _) ha he
  num_inj := (number_valid hsucc hroot).num_inj
  parent_spec := number_parent hsucc hroot
  interval := by
    intro m a b ha hle hle'
    obtain ⟨e, -, hbelow⟩ := number_block hsucc hroot ha.left_pos
    exact (hbelow b).2 ⟨hle, hle'.trans ((hbelow a).1 ha).2⟩
  descend := by
    intro m a b ha hb hle
    obtain ⟨e, he, hbelow⟩ := number_block hsucc hroot ha.left_pos
    obtain ⟨hma, hae⟩ := (hbelow a).1 ha
    exact (hbelow b).2 ⟨hle, (he.edges hma hae hb).2⟩

end

end ThreeAddress.Dominators
