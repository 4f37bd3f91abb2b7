import ThreeAddress.Proofs.Machine
import ThreeAddress.Proofs.Numbering.Scan

/-!
Runs of two listings that look the same. The second listing may have more variables, and
the values of these may differ; whatever an action of the first listing reads is the same
for both. A run may take further steps of its own between those of the other, as long as
nothing is seen of them.
-/

namespace ThreeAddress.Machine

variable {W : Type}

/-- The same data, except for variables from `k` on. -/
structure Data.Agree (k : Nat) (d d' : Data W) : Prop where
  vars : ∀ v < k, d'.vars v = d.vars v
  arrays : d'.arrays = d.arrays
  world : d'.world = d.world
  pushed : d'.pushed = d.pushed
  incoming : d'.incoming = d.incoming

namespace Data.Agree

variable {k : Nat} {d d' : Data W}

lemma refl (k : Nat) (d : Data W) : d.Agree k d := ⟨fun _ _ => rfl, rfl, rfl, rfl, rfl⟩

lemma set (h : d.Agree k d') (v : VarId) (x : Value) : (d.set v x).Agree k (d'.set v x) := by
  refine ⟨fun w hw => ?_, h.arrays, h.world, h.pushed, h.incoming⟩
  by_cases hv : w = v
  · subst hv
    simp [Data.set]
  · simp [Data.set, hv, h.vars w hw]

/-- A variable from `k` on may be assigned by the second run alone. -/
lemma set_right (h : d.Agree k d') {v : VarId} (hv : k ≤ v) (x : Value) :
    d.Agree k (d'.set v x) := by
  refine ⟨fun w hw => ?_, h.arrays, h.world, h.pushed, h.incoming⟩
  have hne : w ≠ v := (Nat.lt_of_lt_of_le hw hv).ne
  simp [Data.set, hne, h.vars w hw]

lemma store (h : d.Agree k d') (a : ArrayId) (i : Int32) (x : Value) :
    (d.store a i x).Agree k (d'.store a i x) :=
  ⟨h.vars, by simp [Data.store, h.arrays], h.world, h.pushed, h.incoming⟩

lemma bindParam (h : d.Agree k d') (v : VarId) : (d.bindParam v).Agree k (d'.bindParam v) := by
  have hset := h.set v (d.incoming.headD .void)
  rw [Data.bindParam, Data.bindParam, h.incoming]
  exact ⟨hset.vars, hset.arrays, hset.world, hset.pushed, rfl⟩

end Data.Agree

/-- Nothing but variables from `k` on tells two outcomes apart. -/
structure Outcome.Agree (k : Nat) (o o' : Outcome W) : Prop where
  data : o.data.Agree k o'.data
  seen : o'.seen = o.seen
  transfer : o'.transfer = o.transfer

section

variable {l l' : Listing} {d d' : Data W}

lemma resolve_lt (hl : l.Coherent) {o : Operand} (ho : o.InScope l) {v : VarId}
    (hv : l.resolve o = some v) : v < l.vars.size := by
  cases o with
  | var w => exact Option.some.inj hv ▸ ho
  | instr i =>
    obtain ⟨x, hx, hv⟩ := Option.bind_eq_some_iff.1 hv
    exact (hl.inScope hx).targetVar_lt hv
  | _ => simp [Listing.resolve] at hv

lemma read_agree (hl : l.Coherent) (hr : l.Reshaped l') (hd : d.Agree l.vars.size d')
    {o : Operand} (ho : o.InScope l) : d'.read l' o = d.read l o := by
  induction o with
  | int n => rfl
  | float x => rfl
  | var v => exact hd.vars v ho
  | elem a index ih => rw [Data.read, Data.read, ih ho, hd.arrays]
  | instr i =>
    rw [Data.read, Data.read, hr.resolve_eq ho]
    cases hv : l.resolve (.instr i) with
    | none => rfl
    | some v => exact hd.vars v (resolve_lt hl ho hv)
  | array a => rfl
  | label t => rfl

/-- An action of the first listing has the same outcome in both. -/
lemma perform_agree (hl : l.Coherent) (hr : l.Reshaped l') (hlabels : l'.labels = l.labels)
    (env : Environment W) (hd : d.Agree l.vars.size d') {a : Action} (ha : a.InScope l) :
    (perform l env d a).Agree l.vars.size (perform l' env d' a) := by
  have hread {o : Operand} (ho : o.InScope l) : d'.read l' o = d.read l o :=
    read_agree hl hr hd ho
  cases a with
  | compute op lhs rhs target =>
    simp only [perform, hread ha.1, hread ha.2.1]
    cases Value.binary op (d.read l lhs) (d.read l rhs) with
    | none => exact ⟨hd, rfl, rfl⟩
    | some x => exact ⟨hd.set target x, rfl, rfl⟩
  | apply op operand target =>
    simp only [perform, hread ha.1]
    exact ⟨hd.set target _, rfl, rfl⟩
  | copy value target =>
    cases target with
    | var v =>
      simp only [perform, hread ha.1]
      exact ⟨hd.set v _, rfl, rfl⟩
    | elem b index =>
      have hindex : index.InScope l := ha.2
      simp only [perform, hread ha.1, hread hindex]
      exact ⟨hd.store b _ _, rfl, rfl⟩
  | label t => exact ⟨hd, rfl, rfl⟩
  | jump t => exact ⟨hd, rfl, rfl⟩
  | jumpFalse cond t =>
    have hcond : cond.InScope l := ha
    simp only [perform, hread hcond]
    split <;> exact ⟨hd, rfl, rfl⟩
  | push value =>
    have hvalue : value.InScope l := ha
    simp only [perform, hread hvalue, hd.pushed]
    exact ⟨⟨hd.vars, hd.arrays, hd.world, rfl, hd.incoming⟩, rfl, rfl⟩
  | call callee target =>
    simp only [perform, functionOf, hlabels, hd.world, hd.pushed, hd.arrays]
    refine ⟨?_, rfl, rfl⟩
    have hafter (w : W) (arrays : ArrayStore) : Data.Agree l.vars.size
        { d with world := w, arrays := arrays, pushed := [] }
        { d' with world := w, arrays := arrays, pushed := [] } :=
      ⟨hd.vars, rfl, rfl, rfl, hd.incoming⟩
    cases target with
    | none => exact hafter _ _
    | some v => exact (hafter _ _).set v _
  | param target => exact ⟨hd.bindParam target, rfl, rfl⟩
  | ret value =>
    refine ⟨hd, ?_, rfl⟩
    have hvalue : value.map (d'.read l') = value.map (d.read l) := by
      cases value with
      | none => rfl
      | some o => simp [hread (ha o rfl)]
    simp only [perform, hvalue]

/-- An action changes no variable but its target. -/
lemma perform_vars_of_none (l : Listing) (env : Environment W) (d : Data W) {a : Action}
    (ha : a.targetVar = none) : (perform l env d a).data.vars = d.vars := by
  cases a with
  | copy value target =>
    cases target with
    | var v => simp [Place.var?] at ha
    | elem b index => rfl
  | jumpFalse cond t =>
    simp only [perform]
    split <;> rfl
  | call callee target =>
    obtain rfl : target = none := by simpa using ha
    rfl
  | compute op lhs rhs w => simp at ha
  | apply op operand w => simp at ha
  | param w => simp at ha
  | _ => rfl

lemma perform_vars_of_some (l : Listing) (env : Environment W) (d : Data W) {a : Action}
    {w : VarId} (ha : a.targetVar = some w) :
    ∃ x, (perform l env d a).data.vars = Function.update d.vars w x := by
  cases a with
  | compute op lhs rhs v =>
    obtain rfl : v = w := Option.some.inj ha
    simp only [perform]
    split
    · exact ⟨_, rfl⟩
    · exact ⟨d.vars v, (Function.update_eq_self v d.vars).symm⟩
  | apply op operand v => exact Option.some.inj ha ▸ ⟨_, rfl⟩
  | copy value target =>
    cases target with
    | var v => exact Option.some.inj ha ▸ ⟨_, rfl⟩
    | elem b index => simp [Place.var?] at ha
  | call callee target =>
    obtain rfl : target = some w := by simpa using ha
    exact ⟨_, rfl⟩
  | param v => exact Option.some.inj ha ▸ ⟨_, rfl⟩
  | _ => simp [Action.targetVar, Action.target] at ha

end

/-! ### Simulation -/

/-- The second run follows each step of the first one with one or more of its own, and after
the first of these the log stays as it is. -/
structure Simulates (l l' : Listing) (env : Environment W) (k : Nat)
    (Sim : Config W → Config W → Prop) : Prop where
  log : ∀ {c c'}, Sim c c' → c'.log.map (·.below k) = c.log.map (·.below k)
  step : ∀ {c c'}, Sim c c' → ∃ m, Sim (step l env c) (run l' env (m + 1) c') ∧
    ∀ x ≤ m, (run l' env (x + 1) c').log = (run l' env (m + 1) c').log

namespace Simulates

variable {l l' : Listing} {env : Environment W} {k : Nat} {Sim : Config W → Config W → Prop}

lemma forward (h : Simulates l l' env k Sim) (n : Nat) {c c' : Config W} (hc : Sim c c') :
    ∃ n', Sim (run l env n c) (run l' env n' c') := by
  induction n generalizing c c' with
  | zero => exact ⟨0, hc⟩
  | succ n ih =>
    obtain ⟨m, hm, -⟩ := h.step hc
    obtain ⟨n', hn'⟩ := ih hm
    exact ⟨m + 1 + n', by rwa [run_succ, run_add]⟩

lemma backward (h : Simulates l l' env k Sim) (n' : Nat) {c c' : Config W} (hc : Sim c c') :
    ∃ n, (run l' env n' c').log.map (·.below k) = (run l env n c).log.map (·.below k) := by
  induction n' using Nat.strong_induction_on generalizing c c' with
  | _ n' ih =>
    obtain rfl | ⟨x, rfl⟩ : n' = 0 ∨ ∃ x, n' = x + 1 := by cases n' <;> simp
    · exact ⟨0, h.log hc⟩
    · obtain ⟨m, hm, hlog⟩ := h.step hc
      by_cases hx : x ≤ m
      · refine ⟨1, ?_⟩
        rw [hlog x hx]
        exact h.log hm
      · obtain ⟨r, hr⟩ : ∃ r, x + 1 = m + 1 + r := ⟨x - m, by omega⟩
        obtain ⟨n, hn⟩ := ih r (by omega) hm
        exact ⟨n + 1, by rw [hr, run_add, hn, run_succ]⟩

theorem logs_eq (h : Simulates l l' env k Sim) {entry : Entry} {d d' : Data W}
    (hstart : Sim (start l entry d) (start l' entry d')) :
    logs l' env k entry d' = logs l env k entry d := by
  ext log
  constructor
  · rintro ⟨n', rfl⟩
    obtain ⟨n, hn⟩ := h.backward n' hstart
    exact ⟨n, hn.symm⟩
  · rintro ⟨n, rfl⟩
    obtain ⟨n', hn'⟩ := h.forward n hstart
    exact ⟨n', h.log hn'⟩

end Simulates

lemma leaving_below {k pc pc' : Nat} {l l' : Listing} {x x' : Instr} {o o' : Outcome W}
    (hlast : isLast l' pc' x' = isLast l pc x) (hb : x'.block = x.block) (ho : o.Agree k o') :
    (leaving l' pc' x' o').map (·.below k) = (leaving l pc x o).map (·.below k) := by
  unfold leaving
  rw [hlast, ho.transfer, hb]
  split
  · have hvars : (fun v => if v < k then o'.data.vars v else .void) =
        fun v => if v < k then o.data.vars v else .void := by
      funext v
      by_cases hv : v < k
      · simp [hv, ho.data.vars v hv]
      · simp [hv]
    simp only [List.map_cons, List.map_nil, Observation.below, hvars]
  · rfl

/-- Variables that no instruction names make no difference. -/
lemma logs_agree {l : Listing} (hl : l.Coherent) (env : Environment W) (entry : Entry)
    {d d' : Data W} (hd : d.Agree l.vars.size d') :
    logs l env l.vars.size entry d' = logs l env l.vars.size entry d := by
  let Same (c c' : Config W) : Prop :=
    c'.log.map (·.below l.vars.size) = c.log.map (·.below l.vars.size) ∧
      c'.running = c.running ∧ c'.pc = c.pc ∧ c.data.Agree l.vars.size c'.data
  have hsim : Simulates l l env l.vars.size Same := by
    refine ⟨fun h => h.1, fun {c c'} ⟨hlog, hrun, hpc, hdata⟩ => ?_⟩
    refine ⟨0, ?_, fun y hy => by rw [Nat.le_zero.1 hy]⟩
    rw [Nat.zero_add, run_one]
    cases hr : c.running with
    | false =>
      rw [step_of_stopped hr, step_of_stopped (hrun.trans hr)]
      exact ⟨hlog, hrun, hpc, hdata⟩
    | true =>
      cases hi : instrAt? l c.pc with
      | none =>
        rw [step_of_none hr hi, step_of_none (hrun.trans hr) (hpc ▸ hi)]
        exact ⟨by simp [hlog], rfl, hpc, hdata⟩
      | some x =>
        rw [step_eq env hr hi, step_eq env (hrun.trans hr) (hpc ▸ hi)]
        obtain ⟨i, -, hx⟩ := Option.bind_eq_some_iff.1 hi
        have hagree := perform_agree hl (.refl l) rfl env hdata (hl.inScope hx)
        have hlast : isLast l c'.pc x = isLast l c.pc x := by rw [hpc]
        have hleaving := leaving_below hlast rfl hagree
        exact ⟨by simp only [List.map_append, hlog, hagree.seen, hleaving],
          by rw [hagree.transfer], by rw [hagree.transfer, hpc], hagree.data⟩
  exact hsim.logs_eq ⟨rfl, rfl, rfl, hd⟩

lemma below_below {k k' : Nat} (h : k ≤ k') (o : Observation) : (o.below k').below k = o.below k := by
  cases o with
  | left b vars =>
    simp only [Observation.below]
    congr 1
    funext v
    by_cases hv : v < k
    · simp [hv, Nat.lt_of_lt_of_le hv h]
    · simp [hv]
  | _ => rfl

/-- Logs that show fewer variables follow from those that show more. -/
lemma logs_mono {k k' : Nat} (h : k ≤ k') (l : Listing) (env : Environment W) (entry : Entry)
    (d : Data W) :
    logs l env k entry d = List.map (·.below k) '' logs l env k' entry d := by
  unfold logs
  rw [← Set.range_comp]
  congr 1
  funext n
  simp [below_below h]

end ThreeAddress.Machine
