import Mathlib
import ThreeAddress.DataFlow.Fixpoint

/-!
The equations of a data-flow problem and how one update of the solver moves towards their
greatest solution.

States are ordered by their meets: `x` lies below `y` when meeting `y` does not change `x`.
Both strategies start at the top and only ever replace a state by the one that its equation
asks for. While every state lies above the one that its equation asks for, such an update
descends, and it stays above every solution.
-/

namespace ThreeAddress.DataFlow

/-! ### Views -/

namespace View

/-- The blocks that flow into a block. -/
def into (v : View) (d : Direction) (b : Nat) : List Nat :=
  match d with
  | .forward => v.pred.getD b []
  | .backward => v.succ.getD b []

/-- The blocks that a block flows into. -/
def outOf (v : View) (d : Direction) (b : Nat) : List Nat :=
  match d with
  | .forward => v.succ.getD b []
  | .backward => v.pred.getD b []

/-- The blocks that keep the boundary state. -/
def AtBoundary (v : View) (d : Direction) (b : Nat) : Prop :=
  (d = .forward ∧ b = v.entry) ∨ v.into d b = []

instance (v : View) (d : Direction) (b : Nat) : Decidable (v.AtBoundary d b) :=
  inferInstanceAs (Decidable ((d = .forward ∧ b = v.entry) ∨ v.into d b = []))

/-- Neighbours are blocks, and the predecessors are the inverse of the successors. -/
structure Sound (v : View) : Prop where
  succ_size : v.succ.size = v.size
  pred_size : v.pred.size = v.size
  succ_lt : ∀ a b, b ∈ v.succ.getD a [] → b < v.size
  mem_pred : ∀ a b, a ∈ v.pred.getD b [] ↔ b ∈ v.succ.getD a []

lemma neighbours_ok {table : Array (List Nat)} {b : Nat} (h : b < table.size) :
    neighbours table b = .ok (table.getD b []) := by
  simp [neighbours, Array.getD, h]
  rfl

lemma mem_getD {table : Array (List Nat)} {a b : Nat} (h : a ∈ table.getD b []) :
    b < table.size := by
  by_contra hb
  simp [Array.getD, hb] at h

namespace Sound

variable {v : View} (h : v.Sound) (d : Direction)

include h

lemma sources_ok {b : Nat} (hb : b < v.size) : v.sources d b = .ok (v.into d b) := by
  cases d with
  | forward => exact neighbours_ok (h.pred_size.symm ▸ hb)
  | backward => exact neighbours_ok (h.succ_size.symm ▸ hb)

lemma targets_ok {b : Nat} (hb : b < v.size) : v.targets d b = .ok (v.outOf d b) := by
  cases d with
  | forward => exact neighbours_ok (h.succ_size.symm ▸ hb)
  | backward => exact neighbours_ok (h.pred_size.symm ▸ hb)

lemma isBoundary_ok {b : Nat} (hb : b < v.size) :
    v.isBoundary d b = .ok (decide (v.AtBoundary d b)) := by
  rw [isBoundary, h.sources_ok d hb]
  by_cases hentry : d = .forward ∧ b = v.entry
  · simp [AtBoundary, hentry]
    rfl
  · rw [if_neg hentry]
    change Except.ok (v.into d b).isEmpty = _
    congr 1
    rw [Bool.eq_iff_iff, List.isEmpty_iff, decide_eq_true_iff, AtBoundary, or_iff_right hentry]

lemma mem_outOf (a b : Nat) : b ∈ v.outOf d a ↔ a ∈ v.into d b := by
  cases d with
  | forward => exact (h.mem_pred a b).symm
  | backward => exact h.mem_pred b a

lemma into_lt {a b : Nat} (hab : a ∈ v.into d b) : a < v.size := by
  cases d with
  | forward => exact h.succ_size ▸ mem_getD ((h.mem_pred a b).mp hab)
  | backward => exact h.succ_lt b a hab

lemma outOf_lt {a b : Nat} (hab : b ∈ v.outOf d a) : b < v.size := by
  cases d with
  | forward => exact h.succ_lt a b hab
  | backward => exact h.succ_size ▸ mem_getD ((h.mem_pred b a).mp hab)

end Sound

/-- Predecessors computed from the successors are their inverse. -/
lemma ofSuccessors_sound (entry : Nat) {succ : Array (List Nat)}
    (h : ∀ a b, b ∈ succ.getD a [] → b < succ.size) : (ofSuccessors entry succ).Sound where
  succ_size := rfl
  pred_size := by simp [ofSuccessors]
  succ_lt := h
  mem_pred a b := by
    by_cases hb : b < succ.size
    · have hpred : (ofSuccessors entry succ).pred.getD b [] =
          (List.range succ.size).filter fun a => (succ.getD a []).contains b := by
        simp [ofSuccessors, hb]
      rw [hpred, List.mem_filter, List.mem_range, List.contains_iff_mem]
      exact ⟨fun hab => hab.2, fun hab => ⟨mem_getD hab, hab⟩⟩
    · have hpred : (ofSuccessors entry succ).pred.getD b [] = [] := by
        simp [ofSuccessors, hb]
      rw [hpred]
      exact ⟨fun hab => absurd hab (by simp), fun hab => absurd (h a b hab) hb⟩

end View

/-! ### The order of the states -/

namespace Problem

variable {L : Type}

/-- One state lies below another: meeting the other does not change it. -/
def Below (p : Problem L) (x y : L) : Prop := p.meet x y = x

/-- The states `D` form a semilattice under the meet, with the initial state on top, and the
transfer functions are monotone on it. -/
structure Lawful (p : Problem L) (D : Set L) : Prop where
  boundary_mem : p.boundary ∈ D
  initial_mem : p.initial ∈ D
  meet_mem : ∀ x ∈ D, ∀ y ∈ D, p.meet x y ∈ D
  transfer_mem : ∀ b, ∀ x ∈ D, p.transfer b x ∈ D
  meet_self : ∀ x ∈ D, p.meet x x = x
  meet_comm : ∀ x ∈ D, ∀ y ∈ D, p.meet x y = p.meet y x
  meet_assoc : ∀ x ∈ D, ∀ y ∈ D, ∀ z ∈ D, p.meet (p.meet x y) z = p.meet x (p.meet y z)
  initial_meet : ∀ x ∈ D, p.meet p.initial x = x
  monotone : ∀ b, ∀ x ∈ D, ∀ y ∈ D, p.Below x y → p.Below (p.transfer b x) (p.transfer b y)

/-- A list of states of `D`, each strictly below the one before. -/
def Falling (p : Problem L) (D : Set L) (chain : List L) : Prop :=
  (∀ x ∈ chain, x ∈ D) ∧ chain.IsChain fun x y => p.Below y x ∧ y ≠ x

/-- No state of `D` descends more than `height` times. -/
def Bounds (p : Problem L) (D : Set L) : Prop :=
  ∀ chain, p.Falling D chain → chain.length ≤ p.height + 1

namespace Lawful

variable {p : Problem L} {D : Set L} (h : p.Lawful D) {x y z : L}

include h

lemma refl (hx : x ∈ D) : p.Below x x := h.meet_self x hx

lemma trans (hx : x ∈ D) (hy : y ∈ D) (hz : z ∈ D) (hxy : p.Below x y) (hyz : p.Below y z) :
    p.Below x z := by
  unfold Below at *
  calc p.meet x z = p.meet (p.meet x y) z := by rw [hxy]
    _ = p.meet x (p.meet y z) := h.meet_assoc x hx y hy z hz
    _ = x := by rw [hyz, hxy]

lemma antisymm (hx : x ∈ D) (hy : y ∈ D) (hxy : p.Below x y) (hyx : p.Below y x) : x = y := by
  unfold Below at *
  calc x = p.meet x y := hxy.symm
    _ = p.meet y x := h.meet_comm x hx y hy
    _ = y := hyx

lemma meet_left (hx : x ∈ D) (hy : y ∈ D) : p.Below (p.meet x y) x := by
  unfold Below
  rw [h.meet_comm _ (h.meet_mem x hx y hy) x hx, ← h.meet_assoc x hx x hx y hy, h.meet_self x hx]

lemma meet_right (hx : x ∈ D) (hy : y ∈ D) : p.Below (p.meet x y) y := by
  unfold Below
  rw [h.meet_assoc x hx y hy y hy, h.meet_self y hy]

lemma le_meet (hx : x ∈ D) (hy : y ∈ D) (hz : z ∈ D) (hzx : p.Below z x) (hzy : p.Below z y) :
    p.Below z (p.meet x y) := by
  unfold Below at *
  rw [← h.meet_assoc z hz x hx y hy, hzx, hzy]

lemma below_initial (hx : x ∈ D) : p.Below x p.initial := by
  unfold Below
  rw [h.meet_comm x hx _ h.initial_mem, h.initial_meet x hx]

/-- In a finite semilattice the states that follow one another downwards are all different,
so a chain has at most as many as there are. -/
lemma bounds_of_finite (hD : D.Finite) (hheight : D.ncard ≤ p.height + 1) : p.Bounds D := by
  classical
  rintro chain ⟨hmem, hchain⟩
  have hstrict : chain.IsChain fun x y => (y ∈ D ∧ x ∈ D) ∧ p.Below y x ∧ y ≠ x := by
    refine List.isChain_iff_getElem.mpr fun i hi => ?_
    exact ⟨⟨hmem _ (List.getElem_mem _), hmem _ (List.getElem_mem _)⟩,
      List.isChain_iff_getElem.mp hchain i hi⟩
  have : Trans (fun x y => (y ∈ D ∧ x ∈ D) ∧ p.Below y x ∧ y ≠ x)
      (fun x y => (y ∈ D ∧ x ∈ D) ∧ p.Below y x ∧ y ≠ x)
      (fun x y => (y ∈ D ∧ x ∈ D) ∧ p.Below y x ∧ y ≠ x) := by
    refine ⟨fun {x y z} hxy hyz => ?_⟩
    obtain ⟨⟨hy, hx⟩, hyx, -⟩ := hxy
    obtain ⟨⟨hz, -⟩, hzy, hne⟩ := hyz
    refine ⟨⟨hz, hx⟩, h.trans hz hy hx hzy hyx, ?_⟩
    rintro rfl
    exact hne (h.antisymm hz hy hzy hyx)
  have hnodup : chain.Nodup := hstrict.pairwise.imp fun hxy => hxy.2.2.symm
  calc chain.length = chain.toFinset.card := (List.toFinset_card_of_nodup hnodup).symm
    _ = (chain.toFinset : Set L).ncard := (Set.ncard_coe_finset _).symm
    _ ≤ D.ncard := Set.ncard_le_ncard (fun x hx => hmem x (by simpa using hx)) hD
    _ ≤ p.height + 1 := hheight

end Lawful

/-- A measure that grows strictly with the state bounds the descents. -/
lemma bounds_of_measure {p : Problem L} {D : Set L} (measure : L → Nat)
    (hle : ∀ x ∈ D, measure x ≤ p.height)
    (hlt : ∀ x ∈ D, ∀ y ∈ D, p.Below x y → x ≠ y → measure x < measure y) : p.Bounds D := by
  have key : ∀ (chain : List L) (x : L), p.Falling D (x :: chain) →
      chain.length ≤ measure x := by
    intro chain
    induction chain with
    | nil => simp
    | cons y rest ih =>
      rintro x ⟨hmem, hchain⟩
      obtain ⟨⟨hyx, hne⟩, hrest⟩ := List.isChain_cons_cons.mp hchain
      have h1 := ih y ⟨fun z hz => hmem z (List.mem_cons_of_mem _ hz), hrest⟩
      have h2 := hlt y (hmem y (by simp)) x (hmem x (by simp)) hyx hne
      simp only [List.length_cons]
      omega
  intro chain hchain
  cases chain with
  | nil => simp
  | cons x rest =>
    have h1 := key rest x hchain
    have h2 := hle x (hchain.1 x (by simp))
    simp only [List.length_cons]
    omega

section Descents

open Classical in
/-- How often a state can still descend. -/
noncomputable def descents (p : Problem L) (D : Set L) (x : L) : Nat :=
  Nat.findGreatest (fun n => ∃ chain, chain.length = n ∧ p.Falling D (x :: chain)) p.height

variable {p : Problem L} {D : Set L} {x y : L}

lemma descents_le : p.descents D x ≤ p.height := by
  classical
  exact Nat.findGreatest_le _

lemma descents_lt (hb : p.Bounds D) (hx : x ∈ D) (hy : y ∈ D) (hxy : p.Below x y) (hne : x ≠ y) :
    p.descents D x < p.descents D y := by
  classical
  have hspec : ∃ chain, chain.length = p.descents D x ∧ p.Falling D (x :: chain) := by
    unfold descents
    refine Nat.findGreatest_spec (P := fun n => ∃ chain, chain.length = n ∧
      p.Falling D (x :: chain)) (Nat.zero_le _) ⟨[], rfl, by simpa using hx, by simp⟩
  obtain ⟨chain, hlen, hmem, hchain⟩ := hspec
  have hlong : p.Falling D (y :: x :: chain) := by
    refine ⟨fun z hz => ?_, List.isChain_cons_cons.mpr ⟨⟨hxy, hne⟩, hchain⟩⟩
    rcases List.mem_cons.mp hz with rfl | hz
    · exact hy
    · exact hmem z hz
  have hbound := hb _ hlong
  simp only [List.length_cons, hlen] at hbound
  have : p.descents D x + 1 ≤ p.descents D y := by
    conv_rhs => unfold descents
    exact Nat.le_findGreatest (by omega) ⟨x :: chain, by simp [hlen], hlong⟩
  omega

end Descents

/-! ### The equations -/

/-- The meet of the states of some blocks. -/
def meetOver (p : Problem L) (flown : Nat → L) (blocks : List Nat) : L :=
  blocks.foldl (fun state c => p.meet state (flown c)) p.initial

/-- The met state that the equations ask for. -/
def dueMet (p : Problem L) (v : View) (flown : Nat → L) (b : Nat) : L :=
  if v.AtBoundary p.direction b then p.boundary else p.meetOver flown (v.into p.direction b)

/-- The equations: the flown state of a block is the transfer of its met state; a block at the
boundary meets the boundary state, and any other block the states that flow into it. -/
def Solves (p : Problem L) (v : View) (met flown : Nat → L) : Prop :=
  ∀ b < v.size, met b = p.dueMet v flown b ∧ flown b = p.transfer b (met b)

section Meets

variable {p : Problem L} {D : Set L} (h : p.Lawful D) {f g : Nat → L} (hf : ∀ b, f b ∈ D)

lemma meetOver_append (blocks : List Nat) (b : Nat) :
    p.meetOver f (blocks ++ [b]) = p.meet (p.meetOver f blocks) (f b) := by
  simp [meetOver]

lemma meetOver_congr {blocks : List Nat} (hfg : ∀ b ∈ blocks, f b = g b) :
    p.meetOver f blocks = p.meetOver g blocks := by
  unfold meetOver
  exact List.foldl_ext _ _ _ fun x b hb => by rw [hfg b hb]

include h hf

lemma meetOver_mem (blocks : List Nat) : p.meetOver f blocks ∈ D := by
  induction blocks using List.reverseRecOn with
  | nil => exact h.initial_mem
  | append_singleton blocks b ih =>
    rw [meetOver_append]
    exact h.meet_mem _ ih _ (hf b)

lemma meetOver_below {blocks : List Nat} {b : Nat} (hb : b ∈ blocks) :
    p.Below (p.meetOver f blocks) (f b) := by
  induction blocks using List.reverseRecOn with
  | nil => simp at hb
  | append_singleton blocks c ih =>
    have hm := meetOver_mem h hf blocks
    rw [meetOver_append]
    rcases List.mem_append.mp hb with hb | hb
    · exact h.trans (h.meet_mem _ hm _ (hf c)) hm (hf b) (h.meet_left hm (hf c)) (ih hb)
    · obtain rfl : b = c := by simpa using hb
      exact h.meet_right hm (hf b)

lemma below_meetOver {blocks : List Nat} {x : L} (hx : x ∈ D)
    (hb : ∀ b ∈ blocks, p.Below x (f b)) : p.Below x (p.meetOver f blocks) := by
  induction blocks using List.reverseRecOn with
  | nil => exact h.below_initial hx
  | append_singleton blocks c ih =>
    rw [meetOver_append]
    exact h.le_meet (meetOver_mem h hf blocks) (hf c) hx
      (ih fun b hb' => hb b (List.mem_append_left _ hb')) (hb c (by simp))

lemma dueMet_mem (v : View) (b : Nat) : p.dueMet v f b ∈ D := by
  unfold dueMet
  split
  · exact h.boundary_mem
  · exact meetOver_mem h hf _

lemma dueMet_mono (hg : ∀ b, g b ∈ D) {v : View} (hv : v.Sound)
    (hfg : ∀ b < v.size, p.Below (f b) (g b)) (b : Nat) :
    p.Below (p.dueMet v f b) (p.dueMet v g b) := by
  unfold dueMet
  split
  · exact h.refl h.boundary_mem
  · refine below_meetOver h hg (meetOver_mem h hf _) fun c hc => ?_
    exact h.trans (meetOver_mem h hf _) (hf c) (hg c) (meetOver_below h hf hc)
      (hfg c (hv.into_lt _ hc))

end Meets

lemma dueMet_congr {p : Problem L} {v : View} {f g : Nat → L} {b : Nat}
    (hfg : ∀ c ∈ v.into p.direction b, f c = g c) : p.dueMet v f b = p.dueMet v g b := by
  unfold dueMet
  rw [meetOver_congr hfg]

end Problem

end ThreeAddress.DataFlow
