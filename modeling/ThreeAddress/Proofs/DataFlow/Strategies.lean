import Mathlib
import ThreeAddress.Proofs.DataFlow.Equations
import ThreeAddress.Proofs.FiniteSets

/-!
Both strategies reach the greatest solution.

One invariant carries both: every state lies above the one that its equation asks for and
above every solution. Each update lowers a state to what its equation asks for, so the sum of
the descents that are left over all blocks decreases with each change, which bounds the turns
of the worklist and the rounds of the full pass. The worklist ends with all equations satisfied
because a block off the list satisfies its own; the full pass ends so because its last round
changed nothing.
-/

namespace ThreeAddress.DataFlow

namespace Problem

variable {L : Type}

def metAt (p : Problem L) (s : States L) (b : Nat) : L := s.met.getD b p.initial

def flownAt (p : Problem L) (s : States L) (b : Nat) : L := s.flown.getD b p.initial

/-- The greatest solution of the equations in `D`. -/
structure Greatest (p : Problem L) (v : View) (D : Set L) (s : States L) : Prop where
  met_size : s.met.size = v.size
  flown_size : s.flown.size = v.size
  met_mem : ∀ b, p.metAt s b ∈ D
  flown_mem : ∀ b, p.flownAt s b ∈ D
  solves : p.Solves v (p.metAt s) (p.flownAt s)
  above : ∀ met flown : Nat → L, (∀ b, met b ∈ D) → (∀ b, flown b ∈ D) → p.Solves v met flown →
    ∀ b < v.size, p.Below (met b) (p.metAt s b) ∧ p.Below (flown b) (p.flownAt s b)

/-- On the way down: each state lies above what its equation asks for and above all
solutions. -/
structure Descending (p : Problem L) (v : View) (D : Set L) (s : States L) : Prop where
  met_size : s.met.size = v.size
  flown_size : s.flown.size = v.size
  met_mem : ∀ b, p.metAt s b ∈ D
  flown_mem : ∀ b, p.flownAt s b ∈ D
  boundary : ∀ b < v.size, v.AtBoundary p.direction b → p.metAt s b = p.boundary
  met_above : ∀ b < v.size, p.Below (p.dueMet v (p.flownAt s) b) (p.metAt s b)
  flown_above : ∀ b < v.size, p.Below (p.transfer b (p.metAt s b)) (p.flownAt s b)
  above : ∀ met flown : Nat → L, (∀ b, met b ∈ D) → (∀ b, flown b ∈ D) → p.Solves v met flown →
    ∀ b < v.size, p.Below (met b) (p.metAt s b) ∧ p.Below (flown b) (p.flownAt s b)

lemma Descending.greatest {p : Problem L} {v : View} {D : Set L} {s : States L}
    (h : p.Descending v D s) (hs : p.Solves v (p.metAt s) (p.flownAt s)) : p.Greatest v D s :=
  ⟨h.met_size, h.flown_size, h.met_mem, h.flown_mem, hs, h.above⟩

lemma array_ext_getD {a b : Array L} {d : L} (hsize : a.size = b.size)
    (h : ∀ i < a.size, a.getD i d = b.getD i d) : a = b := by
  refine Array.ext hsize fun i hi hi' => ?_
  have := h i hi
  rwa [Array.getD, dif_pos hi, Array.getD, dif_pos hi'] at this

/-- There is only one greatest solution. -/
lemma Greatest.eq {p : Problem L} {v : View} {D : Set L} {s t : States L} (hp : p.Lawful D)
    (hs : p.Greatest v D s) (ht : p.Greatest v D t) : s = t := by
  have hst := hs.above _ _ ht.met_mem ht.flown_mem ht.solves
  have hts := ht.above _ _ hs.met_mem hs.flown_mem hs.solves
  have hmet : s.met = t.met := by
    refine array_ext_getD (d := p.initial) (hs.met_size.trans ht.met_size.symm) fun b hb => ?_
    have hb' : b < v.size := hs.met_size ▸ hb
    exact hp.antisymm (hs.met_mem b) (ht.met_mem b) (hts b hb').1 (hst b hb').1
  have hflown : s.flown = t.flown := by
    refine array_ext_getD (d := p.initial) (hs.flown_size.trans ht.flown_size.symm)
      fun b hb => ?_
    have hb' : b < v.size := hs.flown_size ▸ hb
    exact hp.antisymm (hs.flown_mem b) (ht.flown_mem b) (hts b hb').2 (hst b hb').2
  cases s
  cases t
  simp_all

/-! ### The two updates -/

lemma ok_bind {α β : Type} (a : α) (f : α → Except Fault β) : (Except.ok a >>= f) = f a := rfl

lemma stateAt_ok {states : Array L} {b : Nat} (hb : b < states.size) (d : L) :
    stateAt states b = .ok (states.getD b d) := by
  simp [stateAt, Array.getD, hb]
  rfl

lemma setIfInBounds_getD (states : Array L) (b : Nat) (d : L) :
    states.setIfInBounds b (states.getD b d) = states := by
  refine array_ext_getD (d := d) (by simp) fun i hi => ?_
  have hi' : i < states.size := by simpa using hi
  simp only [Array.getD_eq_getD_getElem?, Array.getElem?_setIfInBounds]
  split
  · rename_i hbi
    subst hbi
    simp [hi']
  · rfl

lemma store_ok [DecidableEq L] {states : Array L} {b : Nat} (hb : b < states.size) (d x : L) :
    store states b x = .ok (states.setIfInBounds b x, decide (states.getD b d ≠ x)) := by
  rw [store, stateAt_ok hb d, ok_bind]
  by_cases hx : states.getD b d = x
  · subst hx
    rw [if_pos rfl, setIfInBounds_getD]
    simp
    rfl
  · rw [if_neg hx, decide_eq_true hx]
    rfl

lemma getD_setIfInBounds {states : Array L} {b : Nat} (hb : b < states.size) (x d : L) (c : Nat) :
    (states.setIfInBounds b x).getD c d = if c = b then x else states.getD c d := by
  simp only [Array.getD_eq_getD_getElem?, Array.getElem?_setIfInBounds]
  by_cases hc : b = c
  · subst hc
    simp [hb]
  · simp [hc, Ne.symm hc]

/-- The states with another met state at a block. -/
def setMet (s : States L) (b : Nat) (x : L) : States L :=
  { s with met := s.met.setIfInBounds b x }

/-- The states with another flown state at a block. -/
def setFlown (s : States L) (b : Nat) (x : L) : States L :=
  { s with flown := s.flown.setIfInBounds b x }

section Updates

variable {p : Problem L} {v : View} {D : Set L} {s : States L} {b : Nat}

@[simp] lemma flownAt_setMet (x : L) : p.flownAt (setMet s b x) = p.flownAt s := rfl

@[simp] lemma metAt_setFlown (x : L) : p.metAt (setFlown s b x) = p.metAt s := rfl

lemma Descending.metAt_setMet (h : p.Descending v D s) (hb : b < v.size) (x : L) (c : Nat) :
    p.metAt (setMet s b x) c = if c = b then x else p.metAt s c :=
  getD_setIfInBounds (h.met_size.symm ▸ hb) x _ c

lemma Descending.flownAt_setFlown (h : p.Descending v D s) (hb : b < v.size) (x : L) (c : Nat) :
    p.flownAt (setFlown s b x) c = if c = b then x else p.flownAt s c :=
  getD_setIfInBounds (h.flown_size.symm ▸ hb) x _ c

/-- Lowering a met state to its equation keeps the invariant. -/
lemma Descending.setMet (hp : p.Lawful D) (hv : v.Sound) (h : p.Descending v D s)
    (hb : b < v.size) :
    p.Descending v D (setMet s b (p.dueMet v (p.flownAt s) b)) := by
  have hdue := dueMet_mem hp h.flown_mem v b
  have hmem : ∀ c, p.metAt (Problem.setMet s b (p.dueMet v (p.flownAt s) b)) c ∈ D := by
    intro c
    rw [h.metAt_setMet hb]
    split
    · exact hdue
    · exact h.met_mem c
  refine ⟨by simp [Problem.setMet, h.met_size], h.flown_size, hmem, h.flown_mem, ?_, ?_, ?_, ?_⟩
  · intro c hc hbound
    rw [h.metAt_setMet hb]
    split
    · rename_i hcb
      subst hcb
      rw [dueMet, if_pos hbound]
    · exact h.boundary c hc hbound
  · intro c hc
    rw [flownAt_setMet, h.metAt_setMet hb]
    split
    · rename_i hcb
      subst hcb
      exact hp.refl hdue
    · exact h.met_above c hc
  · intro c hc
    rw [flownAt_setMet, h.metAt_setMet hb]
    split
    · rename_i hcb
      subst hcb
      exact hp.trans (hp.transfer_mem c _ hdue) (hp.transfer_mem c _ (h.met_mem c))
        (h.flown_mem c) (hp.monotone c _ hdue _ (h.met_mem c) (h.met_above c hc))
        (h.flown_above c hc)
    · exact h.flown_above c hc
  · intro met flown hmet hflown hsolves c hc
    have habove := h.above met flown hmet hflown hsolves
    refine ⟨?_, (habove c hc).2⟩
    rw [h.metAt_setMet hb]
    split
    · rename_i hcb
      subst hcb
      rw [(hsolves c hc).1]
      exact dueMet_mono hp hflown h.flown_mem hv (fun a ha => (habove a ha).2) c
    · exact (habove c hc).1

/-- Lowering a flown state to its equation keeps the invariant. -/
lemma Descending.setFlown (hp : p.Lawful D) (hv : v.Sound) (h : p.Descending v D s)
    (hb : b < v.size) :
    p.Descending v D (setFlown s b (p.transfer b (p.metAt s b))) := by
  have hnew := hp.transfer_mem b _ (h.met_mem b)
  have hmem : ∀ c, p.flownAt (Problem.setFlown s b (p.transfer b (p.metAt s b))) c ∈ D := by
    intro c
    rw [h.flownAt_setFlown hb]
    split
    · exact hnew
    · exact h.flown_mem c
  have hlower : ∀ c < v.size,
      p.Below (p.flownAt (Problem.setFlown s b (p.transfer b (p.metAt s b))) c)
        (p.flownAt s c) := by
    intro c hc
    rw [h.flownAt_setFlown hb]
    split
    · rename_i hcb
      subst hcb
      exact h.flown_above c hc
    · exact hp.refl (h.flown_mem c)
  refine ⟨h.met_size, by simp [Problem.setFlown, h.flown_size], h.met_mem, hmem, h.boundary,
    ?_, ?_, ?_⟩
  · intro c hc
    exact hp.trans (dueMet_mem hp hmem v c) (dueMet_mem hp h.flown_mem v c) (h.met_mem c)
      (dueMet_mono hp hmem h.flown_mem hv hlower c) (h.met_above c hc)
  · intro c hc
    rw [metAt_setFlown, h.flownAt_setFlown hb]
    split
    · rename_i hcb
      subst hcb
      exact hp.refl hnew
    · exact h.flown_above c hc
  · intro met flown hmet hflown hsolves c hc
    have habove := h.above met flown hmet hflown hsolves c hc
    refine ⟨habove.1, ?_⟩
    rw [h.flownAt_setFlown hb]
    split
    · rename_i hcb
      subst hcb
      rw [(hsolves c hc).2]
      exact hp.monotone c _ (hmet c) _ (h.met_mem c) habove.1
    · exact habove.2

lemma meetOf_ok {flown : Array L} {blocks : List Nat} (hp : p.Lawful D)
    (hmem : ∀ b, flown.getD b p.initial ∈ D) (hlt : ∀ b ∈ blocks, b < flown.size)
    (hne : blocks ≠ []) :
    p.meetOf flown blocks = .ok (some (p.meetOver (fun b => flown.getD b p.initial) blocks)) := by
  cases blocks with
  | nil => exact absurd rfl hne
  | cons b rest =>
    have hfold : ∀ (rest : List Nat) (x : L), (∀ c ∈ rest, c < flown.size) →
        rest.foldlM (fun state c => return p.meet state (← stateAt flown c)) x =
          (.ok (rest.foldl (fun state c => p.meet state (flown.getD c p.initial)) x) :
            Except Fault L) := by
      intro rest
      induction rest with
      | nil => intro x _; rfl
      | cons c rest ih =>
        intro x hrest
        rw [List.foldlM_cons, stateAt_ok (hrest c (by simp)) p.initial]
        exact ih _ fun d hd => hrest d (List.mem_cons_of_mem _ hd)
    rw [meetOf, stateAt_ok (hlt b (by simp)) p.initial, ok_bind,
      hfold rest _ fun c hc => hlt c (List.mem_cons_of_mem _ hc), ok_bind, meetOver,
      List.foldl_cons, hp.initial_meet _ (hmem b)]
    rfl

variable [DecidableEq L]

/-- Meeting at a block stores what its equation asks for. -/
lemma Descending.meetAt_ok (hp : p.Lawful D) (hv : v.Sound) (h : p.Descending v D s)
    (hb : b < v.size) :
    p.meetAt v s b = .ok (Problem.setMet s b (p.dueMet v (p.flownAt s) b),
      decide (p.metAt s b ≠ p.dueMet v (p.flownAt s) b)) := by
  rw [meetAt, hv.isBoundary_ok _ hb, ok_bind]
  by_cases hbound : v.AtBoundary p.direction b
  · have hsame : p.metAt s b = p.dueMet v (p.flownAt s) b := by
      rw [dueMet, if_pos hbound, h.boundary b hb hbound]
    rw [← hsame, decide_eq_true hbound, if_pos rfl, Problem.setMet, metAt, setIfInBounds_getD]
    simp
    rfl
  · have hne : v.into p.direction b ≠ [] := fun h0 => hbound (.inr h0)
    have hlt : ∀ c ∈ v.into p.direction b, c < s.flown.size := fun c hc =>
      h.flown_size.symm ▸ hv.into_lt _ hc
    rw [hv.sources_ok _ hb, ok_bind, meetOf_ok hp h.flown_mem hlt hne, ok_bind,
      decide_eq_false hbound, dueMet, if_neg hbound]
    simp only [store_ok (h.met_size.symm ▸ hb) p.initial, ok_bind]
    rfl

/-- Transferring a block stores what its equation asks for. -/
lemma Descending.transferAt_ok (h : p.Descending v D s) (hb : b < v.size) :
    p.transferAt v s b = .ok (Problem.setFlown s b (p.transfer b (p.metAt s b)),
      decide (p.flownAt s b ≠ p.transfer b (p.metAt s b))) := by
  rw [transferAt, if_neg (by omega), stateAt_ok (h.met_size.symm ▸ hb) p.initial, ok_bind,
    store_ok (h.flown_size.symm ▸ hb) p.initial, ok_bind]
  rfl

end Updates

/-! ### The descents that are left -/

section Slack

variable {p : Problem L} {v : View} {D : Set L} {f g : Nat → L}

/-- How often the states of all blocks can still descend. -/
noncomputable def slack (p : Problem L) (v : View) (D : Set L) (f : Nat → L) : Nat :=
  ∑ b ∈ Finset.range v.size, p.descents D (f b)

lemma slack_le : p.slack v D f ≤ v.size * p.height := by
  calc p.slack v D f ≤ ∑ _b ∈ Finset.range v.size, p.height :=
        Finset.sum_le_sum fun _ _ => descents_le
    _ = v.size * p.height := by simp

lemma slack_lt (hbounds : p.Bounds D) (hf : ∀ b, f b ∈ D) (hg : ∀ b, g b ∈ D)
    (hle : ∀ b < v.size, p.Below (g b) (f b)) {b : Nat} (hb : b < v.size) (hne : g b ≠ f b) :
    p.slack v D g < p.slack v D f := by
  refine Finset.sum_lt_sum (fun c hc => ?_)
    ⟨b, Finset.mem_range.mpr hb, descents_lt hbounds (hg b) (hf b) (hle b hb) hne⟩
  by_cases hcf : g c = f c
  · rw [hcf]
  · exact (descents_lt hbounds (hg c) (hf c) (hle c (Finset.mem_range.mp hc)) hcf).le

end Slack

section Strategies

variable [DecidableEq L] {p : Problem L} {v : View} {D : Set L} (hp : p.Lawful D) (hv : v.Sound)

/-! ### The full pass -/

include hp hv

lemma Descending.transfers {blocks : List Nat} (hlt : ∀ b ∈ blocks, b < v.size) :
    ∀ {s : States L}, p.Descending v D s →
      ∃ s', blocks.foldlM (fun s b => return (← p.transferAt v s b).1) s =
          (.ok s' : Except Fault (States L)) ∧
        p.Descending v D s' ∧ s'.met = s.met ∧
        (∀ b ∈ blocks, p.flownAt s' b = p.transfer b (p.metAt s b)) ∧
        (∀ b, b ∉ blocks → p.flownAt s' b = p.flownAt s b) := by
  induction blocks with
  | nil => exact fun {s} h => ⟨s, rfl, h, rfl, by simp, fun _ _ => rfl⟩
  | cons b rest ih =>
    intro s h
    have hb := hlt b (by simp)
    obtain ⟨s', hfold, hs', hmet, hdone, hkept⟩ :=
      ih (fun c hc => hlt c (List.mem_cons_of_mem _ hc)) (h.setFlown hp hv hb)
    refine ⟨s', ?_, hs', hmet, ?_, ?_⟩
    · rw [List.foldlM_cons, h.transferAt_ok hb]
      exact hfold
    · intro c hc
      by_cases hrest : c ∈ rest
      · exact hdone c hrest
      · obtain rfl : c = b := by simpa [hrest] using hc
        rw [hkept c hrest, h.flownAt_setFlown hb, if_pos rfl]
    · intro c hc
      rw [List.mem_cons, not_or] at hc
      rw [hkept c hc.2, h.flownAt_setFlown hb, if_neg hc.1]

lemma Descending.meets {blocks : List Nat} (hlt : ∀ b ∈ blocks, b < v.size) :
    ∀ {s : States L} (changed : Bool), p.Descending v D s →
      ∃ s' changed', blocks.foldlM (fun (s, changed) b => do
            let (s, here) ← p.meetAt v s b
            return (s, changed || here)) (s, changed) =
          (.ok (s', changed') : Except Fault (States L × Bool)) ∧
        p.Descending v D s' ∧ s'.flown = s.flown ∧
        (∀ b ∈ blocks, p.metAt s' b = p.dueMet v (p.flownAt s) b) ∧
        (∀ b, b ∉ blocks → p.metAt s' b = p.metAt s b) ∧
        (changed' = true ↔
          changed = true ∨ ∃ b ∈ blocks, p.metAt s b ≠ p.dueMet v (p.flownAt s) b) := by
  induction blocks with
  | nil => exact fun {s} changed h => ⟨s, changed, rfl, h, rfl, by simp, fun _ _ => rfl, by simp⟩
  | cons b rest ih =>
    intro s changed h
    have hb := hlt b (by simp)
    obtain ⟨s', changed', hfold, hs', hflown, hdone, hkept, hchanged⟩ :=
      ih (fun c hc => hlt c (List.mem_cons_of_mem _ hc))
        (changed || decide (p.metAt s b ≠ p.dueMet v (p.flownAt s) b)) (h.setMet hp hv hb)
    simp only [flownAt_setMet, h.metAt_setMet hb] at hdone hkept hchanged
    refine ⟨s', changed', ?_, hs', hflown, ?_, ?_, ?_⟩
    · rw [List.foldlM_cons]
      simp only [h.meetAt_ok hp hv hb, ok_bind]
      exact hfold
    · intro c hc
      by_cases hrest : c ∈ rest
      · exact hdone c hrest
      · obtain rfl : c = b := by simpa [hrest] using hc
        rw [hkept c hrest, if_pos rfl]
    · intro c hc
      rw [List.mem_cons, not_or] at hc
      rw [hkept c hc.2, if_neg hc.1]
    · -- a second visit of `b` finds the state that the first one stored
      rw [hchanged, Bool.or_eq_true, decide_eq_true_iff, or_assoc]
      refine or_congr_right ⟨?_, ?_⟩
      · rintro (hne | ⟨c, hc, hne⟩)
        · exact ⟨b, by simp, hne⟩
        · by_cases hcb : c = b
          · subst hcb
            simp at hne
          · rw [if_neg hcb] at hne
            exact ⟨c, List.mem_cons_of_mem _ hc, hne⟩
      · rintro ⟨c, hc, hne⟩
        by_cases hcb : c = b
        · exact .inl (hcb ▸ hne)
        · refine .inr ⟨c, (List.mem_cons.mp hc).resolve_left hcb, ?_⟩
          rwa [if_neg hcb]

/-- A round that changes no met state has found the solution; any other brings the met states
down. -/
lemma Descending.sweep (hbounds : p.Bounds D) {s : States L} (h : p.Descending v D s) :
    ∃ s' changed, p.sweep v s = .ok (s', changed) ∧ p.Descending v D s' ∧
      (changed = false → p.Solves v (p.metAt s') (p.flownAt s')) ∧
      (changed = true → p.slack v D (p.metAt s') < p.slack v D (p.metAt s)) := by
  have hlt : ∀ b ∈ List.range v.size, b < v.size := fun b => List.mem_range.mp
  obtain ⟨s₁, hfold₁, h₁, hmet₁, hflown₁, -⟩ := h.transfers hp hv hlt
  obtain ⟨s₂, changed, hfold₂, h₂, hflown₂, hmet₂, -, hchanged⟩ := h₁.meets hp hv hlt false
  have hmetAt : p.metAt s₁ = p.metAt s := by
    funext b
    rw [metAt, metAt, hmet₁]
  have hflownAt : p.flownAt s₂ = p.flownAt s₁ := by
    funext b
    rw [flownAt, flownAt, hflown₂]
  have hdue : ∀ b < v.size, p.metAt s₂ b = p.dueMet v (p.flownAt s₂) b := fun b hb => by
    rw [hflownAt, hmet₂ b (List.mem_range.mpr hb)]
  refine ⟨s₂, changed, ?_, h₂, ?_, ?_⟩
  · rw [Problem.sweep, hfold₁, ok_bind]
    exact hfold₂
  · rintro rfl b hb
    have hsame : p.metAt s₂ b = p.metAt s b := by
      by_contra hne
      refine Bool.false_ne_true (hchanged.mpr (.inr ⟨b, List.mem_range.mpr hb, fun heq => ?_⟩))
      rw [hmet₂ b (List.mem_range.mpr hb), ← heq, hmetAt] at hne
      exact hne rfl
    refine ⟨hdue b hb, ?_⟩
    rw [hsame, hflownAt, hflown₁ b (List.mem_range.mpr hb)]
  · rintro rfl
    obtain ⟨b, hb, hne⟩ := (hchanged.mp rfl).resolve_left (by simp)
    rw [← hmetAt]
    refine slack_lt hbounds h₁.met_mem h₂.met_mem (fun c hc => ?_) (List.mem_range.mp hb) ?_
    · rw [hmet₂ c (List.mem_range.mpr hc)]
      exact h₁.met_above c hc
    · rw [hmet₂ b hb]
      exact hne.symm

lemma Descending.settle (hbounds : p.Bounds D) {fuel : Nat} :
    ∀ {s : States L} (rounds : Nat), p.Descending v D s → p.slack v D (p.metAt s) < fuel →
      ∃ s' n, p.settle v fuel rounds s = .ok (s', n) ∧ p.Greatest v D s' := by
  induction fuel with
  | zero => intro s rounds _ hlt; omega
  | succ fuel ih =>
    intro s rounds h hlt
    obtain ⟨s', changed, hsweep, hs', hstop, hgo⟩ := h.sweep hp hv hbounds
    rw [Problem.settle, hsweep, ok_bind]
    cases changed with
    | false => exact ⟨s', rounds + 1, rfl, hs'.greatest (hstop rfl)⟩
    | true =>
      have := hgo rfl
      exact ih (rounds + 1) hs' (by omega)

/-! ### The worklist -/

omit hp hv in
/-- The list holds all blocks whose equations may fail, in ascending order. -/
structure Queued (p : Problem L) (v : View) (D : Set L) (s : States L) (pending : List Nat) :
    Prop where
  descending : p.Descending v D s
  sorted : pending.Pairwise (· < ·)
  lt : ∀ b ∈ pending, b < v.size
  settled : ∀ b < v.size, b ∉ pending →
    p.metAt s b = p.dueMet v (p.flownAt s) b ∧ p.flownAt s b = p.transfer b (p.metAt s b)

omit hp hv [DecidableEq L] in
lemma Queued.length_le {s : States L} {pending : List Nat} (h : p.Queued v D s pending) :
    pending.length ≤ v.size := by
  have hsub : pending ⊆ List.range v.size := fun b hb => List.mem_range.mpr (h.lt b hb)
  have hnodup : pending.Nodup := h.sorted.imp fun hab => hab.ne
  simpa using (hnodup.subperm hsub).length_le

/-- After a turn the block satisfies its equations, and those it flows into are pending if its
flown state changed. -/
lemma Queued.turn (hbounds : p.Bounds D) {s : States L} {b : Nat} {pending : List Nat}
    (h : p.Queued v D s (b :: pending)) :
    ∃ s' affected, p.turn v s b = .ok (s', affected) ∧
      p.Queued v D s' (Ascending.insertAll affected pending) ∧
      (affected = [] ∧ p.slack v D (p.flownAt s') = p.slack v D (p.flownAt s) ∨
        p.slack v D (p.flownAt s') < p.slack v D (p.flownAt s)) := by
  have hb : b < v.size := h.lt b (by simp)
  obtain ⟨hfirst, hrest⟩ := List.pairwise_cons.mp h.sorted
  have hdesc := h.descending
  have h₁ := hdesc.setMet hp hv hb
  set s₁ := setMet s b (p.dueMet v (p.flownAt s) b) with hs₁
  have h₂ := h₁.setFlown hp hv hb
  set s₂ := setFlown s₁ b (p.transfer b (p.metAt s₁ b)) with hs₂
  have hmet : ∀ c, p.metAt s₂ c = if c = b then p.dueMet v (p.flownAt s) b else p.metAt s c :=
    hdesc.metAt_setMet hb _
  have hflown : ∀ c, p.flownAt s₂ c =
      if c = b then p.transfer b (p.metAt s₁ b) else p.flownAt s c := h₁.flownAt_setFlown hb _
  have hown : p.flownAt s₂ b = p.transfer b (p.metAt s₂ b) := by rw [hflown, if_pos rfl]; rfl
  -- a block whose sources keep their states is as settled as before; `b` has been recomputed
  have hsettled : ∀ c < v.size, c ∉ pending →
      (∀ a ∈ v.into p.direction c, p.flownAt s₂ a = p.flownAt s a) →
      p.metAt s₂ c = p.dueMet v (p.flownAt s₂) c ∧
        p.flownAt s₂ c = p.transfer c (p.metAt s₂ c) := by
    intro c hc hnot hsame
    rw [dueMet_congr hsame]
    by_cases hcb : c = b
    · subst hcb
      exact ⟨by rw [hmet, if_pos rfl], hown⟩
    · rw [hmet, if_neg hcb, hflown, if_neg hcb]
      exact h.settled c hc (by simp [hcb, hnot])
  rw [Problem.turn, hdesc.meetAt_ok hp hv hb, ok_bind, ← hs₁]
  simp only [h₁.transferAt_ok hb, ok_bind, ← hs₂]
  by_cases hchanged : p.flownAt s₁ b = p.transfer b (p.metAt s₁ b)
  · have hsame : p.flownAt s₂ = p.flownAt s := by
      funext c
      rw [hflown]
      split
      · rename_i hcb
        rw [← hchanged, hcb]
        rfl
      · rfl
    refine ⟨s₂, [], by simp [hchanged]; rfl,
      ⟨h₂, hrest, fun c hc => h.lt c (List.mem_cons_of_mem b hc), ?_⟩, .inl ⟨rfl, by rw [hsame]⟩⟩
    exact fun c hc hnot => hsettled c hc hnot fun a _ => by rw [hsame]
  · refine ⟨s₂, v.outOf p.direction b, ?_,
      ⟨h₂, Ascending.insertAll_sorted _ hrest, ?_, ?_⟩, .inr ?_⟩
    · simp only [ne_eq, hchanged, not_false_eq_true, decide_true, if_true,
        hv.targets_ok _ hb, ok_bind]
      rfl
    · intro c hc
      rcases (Ascending.mem_insertAll _ _ _).mp hc with hc | hc
      · exact hv.outOf_lt _ hc
      · exact h.lt c (by simp [hc])
    · intro c hc hnot
      rw [Ascending.mem_insertAll, not_or] at hnot
      refine hsettled c hc hnot.2 fun a ha => ?_
      have hab : a ≠ b := by
        rintro rfl
        exact hnot.1 ((hv.mem_outOf _ a c).mpr ha)
      rw [hflown, if_neg hab]
    · refine slack_lt hbounds hdesc.flown_mem h₂.flown_mem (fun c hc => ?_) hb ?_
      · rw [hflown]
        split
        · rename_i hcb
          subst hcb
          exact h₁.flown_above c hc
        · exact hp.refl (hdesc.flown_mem c)
      · rw [hflown, if_pos rfl]
        exact Ne.symm hchanged

lemma Queued.drain (hbounds : p.Bounds D) {fuel : Nat} :
    ∀ {s : States L} {pending : List Nat} (turns : Nat), p.Queued v D s pending →
      pending.length + v.size * p.slack v D (p.flownAt s) ≤ fuel →
      ∃ s' n, p.drain v fuel turns s pending = .ok (s', n) ∧ p.Greatest v D s' := by
  induction fuel with
  | zero =>
    intro s pending turns h hle
    obtain rfl : pending = [] := List.eq_nil_of_length_eq_zero (by omega)
    exact ⟨s, turns, rfl, h.descending.greatest fun b hb => h.settled b hb (by simp)⟩
  | succ fuel ih =>
    intro s pending turns h hle
    cases pending with
    | nil => exact ⟨s, turns, rfl, h.descending.greatest fun b hb => h.settled b hb (by simp)⟩
    | cons b pending =>
      obtain ⟨s', affected, hturn, h', hslack⟩ := h.turn hp hv hbounds
      rw [Problem.drain, hturn, ok_bind]
      refine ih (turns + 1) h' ?_
      simp only [List.length_cons] at hle
      rcases hslack with ⟨rfl, heq⟩ | hlt
      · have hlen : (Ascending.insertAll [] pending).length = pending.length := rfl
        rw [heq, hlen]
        omega
      · have hlen := h'.length_le
        have hmul : v.size * (p.slack v D (p.flownAt s') + 1) ≤
            v.size * p.slack v D (p.flownAt s) := Nat.mul_le_mul_left _ hlt
        rw [Nat.mul_succ] at hmul
        omega

/-! ### From the start -/

omit [DecidableEq L] hp hv in
lemma mapM_ok {α β : Type} {f : α → Except Fault β} {g : α → β} :
    ∀ {l : List α}, (∀ a ∈ l, f a = .ok (g a)) → l.mapM f = .ok (l.map g)
  | [], _ => rfl
  | a :: rest, h => by
    rw [List.mapM_cons, h a (by simp), ok_bind,
      mapM_ok fun b hb => h b (List.mem_cons_of_mem _ hb)]
    rfl

omit [DecidableEq L] in
lemma initialStates_ok : ∃ s, p.initialStates v = .ok s ∧ p.Descending v D s := by
  have hmap : (List.range v.size).mapM (fun b =>
      return if ← v.isBoundary p.direction b then p.boundary else p.initial) =
      (.ok ((List.range v.size).map fun b =>
        if v.AtBoundary p.direction b then p.boundary else p.initial) : Except Fault (List L)) := by
    refine mapM_ok fun b hb => ?_
    rw [hv.isBoundary_ok _ (List.mem_range.mp hb), ok_bind]
    by_cases hbound : v.AtBoundary p.direction b <;> simp [hbound] <;> rfl
  refine ⟨_, by rw [initialStates, hmap, ok_bind]; rfl, ?_⟩
  set s : States L := ⟨((List.range v.size).map fun b =>
    if v.AtBoundary p.direction b then p.boundary else p.initial).toArray,
    Array.replicate v.size p.initial⟩ with hs
  have hflown : ∀ b, p.flownAt s b = p.initial := fun b => by
    simp only [flownAt, hs, Array.getD_eq_getD_getElem?, Array.getElem?_replicate]
    split <;> rfl
  have hmet : ∀ b < v.size,
      p.metAt s b = if v.AtBoundary p.direction b then p.boundary else p.initial := fun b hb => by
    simp [metAt, hs, hb]
  have hmem : ∀ b, p.metAt s b ∈ D := fun b => by
    by_cases hb : b < v.size
    · rw [hmet b hb]
      split
      · exact hp.boundary_mem
      · exact hp.initial_mem
    · simpa [metAt, hs, hb] using hp.initial_mem
  have hflownMem : ∀ b, p.flownAt s b ∈ D := fun b => hflown b ▸ hp.initial_mem
  refine ⟨by simp [hs], by simp [hs], hmem, hflownMem, ?_, ?_, ?_, ?_⟩
  · intro b hb hbound
    rw [hmet b hb, if_pos hbound]
  · intro b hb
    rw [hmet b hb]
    by_cases hbound : v.AtBoundary p.direction b
    · rw [dueMet, if_pos hbound, if_pos hbound]
      exact hp.refl hp.boundary_mem
    · rw [if_neg hbound]
      exact hp.below_initial (dueMet_mem hp hflownMem v b)
  · intro b _
    rw [hflown]
    exact hp.below_initial (hp.transfer_mem b _ (hmem b))
  · intro met flown hm hf hsolves b hb
    rw [hflown, hmet b hb]
    refine ⟨?_, hp.below_initial (hf b)⟩
    by_cases hbound : v.AtBoundary p.direction b
    · rw [if_pos hbound, (hsolves b hb).1, dueMet, if_pos hbound]
      exact hp.refl hp.boundary_mem
    · rw [if_neg hbound]
      exact hp.below_initial (hm b)

/-- Both strategies return the greatest solution. -/
lemma solve_greatest (hbounds : p.Bounds D) :
    ∃ s, p.Greatest v D s ∧ ∀ strategy, ∃ n, p.solve v strategy = .ok (p.solution s n) := by
  obtain ⟨s₀, hinit, h₀⟩ := initialStates_ok hp hv
  have hiterate : ∀ strategy, ∃ s n, p.iterate v strategy s₀ = .ok (s, n) ∧
      p.Greatest v D s := by
    intro strategy
    have hmet : p.slack v D (p.metAt s₀) ≤ v.size * p.height := slack_le
    have hflown : p.slack v D (p.flownAt s₀) ≤ v.size * p.height := slack_le
    cases strategy with
    | worklist =>
      refine Queued.drain hp hv hbounds 0 ⟨h₀, List.pairwise_lt_range, ?_, ?_⟩ ?_
      · exact fun b => List.mem_range.mp
      · exact fun b hb hnot => absurd (List.mem_range.mpr hb) hnot
      · have := Nat.mul_le_mul_left v.size hflown
        rw [turnBound, List.length_range, Nat.mul_succ]
        omega
    | fullPass => exact h₀.settle hp hv hbounds 0 (by rw [roundBound]; omega)
  obtain ⟨s, n, -, hs⟩ := hiterate .worklist
  refine ⟨s, hs, fun strategy => ?_⟩
  by_cases hsize : v.size = 0
  · have hempty : s = ⟨#[], #[]⟩ := by
      have h1 := Array.eq_empty_of_size_eq_zero (hs.met_size.trans hsize)
      have h2 := Array.eq_empty_of_size_eq_zero (hs.flown_size.trans hsize)
      cases s
      simp_all
    refine ⟨0, ?_⟩
    rw [solve, if_pos hsize, hempty, solution]
    cases p.direction <;> rfl
  · obtain ⟨t, m, hiter, ht⟩ := hiterate strategy
    refine ⟨m, ?_⟩
    rw [solve, if_neg hsize, hinit, ok_bind, hiter, ok_bind, hs.eq hp ht]
    rfl

end Strategies

end Problem

end ThreeAddress.DataFlow
