import ThreeAddress.Proofs.Machine
import ThreeAddress.Proofs.Numbering.Scan

/-!
What the table of a block says about a run. Two runs are compared: one of the block as it
was, and one of the block as it is after the scan, with all its copies inserted. A value
that is detached is looked for only where a copy will be pending in the end.
-/

namespace ThreeAddress

open Machine

namespace Formula

/-- The value of a formula, unless it is a division without quotient. -/
def value (vars : VarId → Value) (f : Formula) : Option Value :=
  match f.op with
  | .binary op => Value.binary op (.ofAtom vars f.lhs) (.ofAtom vars f.rhs)
  | _ => none

lemma ofAtom_update {a : Atom} {v : VarId} (h : (a.var? == some v) = false)
    (vars : VarId → Value) (x : Value) :
    Value.ofAtom (Function.update vars v x) a = Value.ofAtom vars a := by
  cases a with
  | var w =>
    have hne : w ≠ v := by simpa [Atom.var?] using h
    exact Function.update_of_ne hne x vars
  | _ => rfl

lemma value_update {f : Formula} {v : VarId} (h : f.reads v = false) (vars : VarId → Value)
    (x : Value) : f.value (Function.update vars v x) = f.value vars := by
  obtain ⟨hlhs, hrhs⟩ := Bool.or_eq_false_iff.1 h
  simp only [value, ofAtom_update hlhs, ofAtom_update hrhs]

/-- Of all quotients one is too large. -/
lemma tdiv_eq_two_pow_iff {a b : Int32} :
    a.toInt.tdiv b.toInt = 2 ^ 31 ↔ a = Int32.minValue ∧ b = -1 := by
  constructor
  · intro h
    by_contra hnot
    have hquot : (a / b).toInt = a.toInt.tdiv b.toInt := by
      obtain ha | hb := not_and_or.1 hnot
      · exact Int32.toInt_div_of_ne_left a b ha
      · exact Int32.toInt_div_of_ne_right a b hb
    exact absurd (hquot.trans h) (a / b).toInt_lt.ne
  · rintro ⟨rfl, rfl⟩
    rfl

/-- The arithmetic on 32 bits gives the exact result modulo `2 ^ 32`, and fails where there is
none. -/
lemma eval_eq_intResult (op : BinaryOp) (a b : Int32) :
    Int32Arith.eval op a b = (Value.intResult? op a.toInt b.toInt).map Int32.ofInt := by
  have htrue (p : Bool) : Int32.ofInt p.toInt = Int32Arith.ofBool p := by cases p <;> rfl
  cases op with
  | add => simp [Int32Arith.eval, Value.intResult?, Int32.ofInt_add, Int32.ofInt_toInt]
  | sub => simp [Int32Arith.eval, Value.intResult?, Int32.ofInt_sub, Int32.ofInt_toInt]
  | mul => simp [Int32Arith.eval, Value.intResult?, Int32.ofInt_mul, Int32.ofInt_toInt]
  | div =>
    have hzero : b.toInt = 0 ↔ b = 0 := Int32.toInt_inj (y := 0)
    have hquot : Int32.ofInt (a.toInt.tdiv b.toInt) = a / b := by
      rw [Int32.ofInt_tdiv a.minValue_le_toInt a.toInt_le b.minValue_le_toInt b.toInt_le,
        Int32.ofInt_toInt, Int32.ofInt_toInt]
    simp only [Int32Arith.eval, Int32Arith.div?, Value.intResult?, hzero, tdiv_eq_two_pow_iff]
    split
    · rfl
    · rw [Option.map_some, hquot]
  | eq => simp [Int32Arith.eval, Value.intResult?, htrue, Int32.toInt_inj, beq_eq_decide]
  | ne => simp [Int32Arith.eval, Value.intResult?, htrue, Int32.toInt_inj, bne, beq_eq_decide]
  | le => simp [Int32Arith.eval, Value.intResult?, htrue, Int32.le_iff_toInt_le]
  | ge => simp [Int32Arith.eval, Value.intResult?, htrue, Int32.le_iff_toInt_le]
  | lt => simp [Int32Arith.eval, Value.intResult?, htrue, Int32.lt_iff_toInt_lt]
  | gt => simp [Int32Arith.eval, Value.intResult?, htrue, Int32.lt_iff_toInt_lt]

/-- The arithmetic on floats is that of execution. -/
lemma eval_eq_ofFloats (op : BinaryOp) (a b : Binary32) (vars : VarId → Value) :
    Value.ofAtom vars (Binary32Arith.eval op a b) = Value.ofFloats op a b := by
  cases op <;> rfl

/-- Folding yields what execution would yield. -/
lemma value_of_fold? {f : Formula} {literal : Atom} (h : f.fold? = some literal)
    (vars : VarId → Value) : f.value vars = some (.ofAtom vars literal) := by
  obtain ⟨lhs, op, rhs⟩ := f
  unfold fold? at h
  split at h
  · rename_i a op b hlhs hop hrhs
    obtain ⟨n, hn, rfl⟩ := Option.map_eq_some_iff.1 h
    simp only at hlhs hop hrhs
    subst hlhs hop hrhs
    rw [eval_eq_intResult] at hn
    obtain ⟨exact, hexact, rfl⟩ := Option.map_eq_some_iff.1 hn
    simp [value, Value.ofAtom, Value.binary, hexact]
  · rename_i a op b hlhs hop hrhs
    obtain rfl := Option.some.inj h
    simp only at hlhs hop hrhs
    subst hlhs hop hrhs
    rw [eval_eq_ofFloats]
    rfl
  · simp at h

lemma read_of_ofOperand {W : Type} {l : Listing} {d : Data W} {o : Operand} {a : Atom}
    (h : Atom.ofOperand l o = some a) : d.read l o = .ofAtom d.vars a := by
  cases o with
  | int n => exact Option.some.inj h ▸ rfl
  | float x => exact Option.some.inj h ▸ rfl
  | var v => exact Option.some.inj h ▸ rfl
  | instr i =>
    obtain ⟨v, hv, rfl⟩ := Option.map_eq_some_iff.1 h
    rw [Data.read, hv]
    rfl
  | _ => simp [Atom.ofOperand] at h

/-- The formula of a computation has its value. -/
lemma value_of_ofAction {W : Type} {l : Listing} {d : Data W} {op : BinaryOp} {lhs rhs : Operand}
    {w : VarId} {f : Formula} (h : ofAction l (.compute op lhs rhs w) = some f) :
    Value.binary op (d.read l lhs) (d.read l rhs) = f.value d.vars := by
  simp only [ofAction] at h
  split at h
  · obtain ⟨left, hleft, h⟩ := Option.bind_eq_some_iff.1 h
    obtain ⟨right, hright, h⟩ := Option.bind_eq_some_iff.1 h
    obtain rfl := Option.some.inj h
    rw [read_of_ofOperand hleft, read_of_ofOperand hright]
    rfl
  · simp at h

end Formula

namespace ValueNumbering

/-- The value of `f` is where the holding says, if `old` are the variables of the first run
and `new` those of the second, where the copies `p` are made. -/
def Holding.Holds (p : List CopyOrder) (old new : VarId → Value) (f : Formula) : Holding → Prop
  | literal value => f.value old = some (.ofAtom old value)
  | live v origin =>
    f.value old = some (old v) ∧ ∀ c ∈ p, c.origin = origin → new c.temp = old v
  | detached _ origin => ∀ c ∈ p, c.origin = origin → f.value old = some (new c.temp)
  | materialized _ _ temp => f.value old = some (new temp)

def Table.Holds (p : List CopyOrder) (old new : VarId → Value) (t : Table) : Prop :=
  ∀ f h, (f, h) ∈ t → h.Holds p old new f

/-- What a block does at position `j` to the variables of the two runs: the first run
performs `a` there, and the second one makes the copies of that position too. -/
structure Advances (formula : Action → Option Formula) (p : List CopyOrder) (j : Nat) (a : Action)
    (old new old' new' : VarId → Value) : Prop where
  kept : a.targetVar = none → old' = old
  assigned : ∀ {w}, a.targetVar = some w → ∃ x, old' = Function.update old w x ∧
    ∀ f, formula a = some f → f.value old = some x
  source : ∀ c ∈ p, c.origin = j → a.targetVar = some c.source
  copied : ∀ c ∈ p, c.origin = j → new' c.temp = old' c.source
  temps : ∀ c ∈ p, c.origin ≠ j → new' c.temp = new c.temp

section

variable {formula : Action → Option Formula} {l : Listing} {body : List InstrId} {fresh j k : Nat}
  {t t' : Table} {q q' p : List CopyOrder} {a a' : Action} {old new old' new' : VarId → Value}
  {f : Formula} {h : Holding}

/-- What a value is read from in the second run has it. -/
lemma Holding.Holds.operand (hh : h.Holds p old new f) (hp : h.Placed l body j q)
    (hl : l.Coherent) (hagree : ∀ v < l.vars.size, new v = old v) {o : Operand}
    (ho : h.operand? = some o) {W : Type} (m : Listing) (d : Data W) (hd : d.vars = new) :
    f.value old = some (d.read m o) := by
  cases h with
  | literal value =>
    obtain rfl := Option.some.inj ho
    rw [hh]
    cases value with
    | var v => simp [Holding.Placed, Atom.var?] at hp
    | _ => rfl
  | live v origin =>
    obtain rfl := Option.some.inj ho
    rw [hh.1, ← hagree v (targetAt_lt hl hp.2), ← hd]
    rfl
  | materialized v origin temp =>
    obtain rfl := Option.some.inj ho
    rw [hh, ← hd]
    rfl
  | detached v origin => simp [Holding.operand?] at ho

/-- A holding stays right when a variable that the formula does not read is assigned. -/
lemma Holding.Holds.assign {w : VarId} {x : Value} (hh : h.Holds p old new f)
    (hp : h.Placed l body j q) (hq : ∀ c ∈ q, c ∈ p ∧ c.origin < j) (hread : f.reads w = false)
    (htemps : ∀ c ∈ p, c.origin ≠ j → new' c.temp = new c.temp) :
    (h.detach w).Holds p (Function.update old w x) new' f := by
  have hvalue : f.value (Function.update old w x) = f.value old := Formula.value_update hread old x
  cases h with
  | literal value =>
    refine hvalue.trans (hh.trans ?_)
    cases value with
    | var v => simp [Holding.Placed, Atom.var?] at hp
    | _ => rfl
  | live v origin =>
    have hcopies : ∀ c ∈ p, c.origin = origin → new' c.temp = old v := fun c hc ho => by
      rw [htemps c hc (ho.trans_lt hp.1).ne, hh.2 c hc ho]
    rw [Holding.detach]
    split
    · intro c hc ho
      rw [hvalue, hh.1, hcopies c hc ho]
    · rename_i hne
      have hv : Function.update old w x v = old v := Function.update_of_ne hne x old
      exact ⟨by rw [hvalue, hh.1, hv], fun c hc ho => by rw [hv, hcopies c hc ho]⟩
  | detached v origin =>
    intro c hc ho
    rw [hvalue, hh c hc ho, htemps c hc (ho.trans_lt hp.1).ne]
  | materialized v origin temp =>
    obtain ⟨hmem, hlt⟩ := hq _ hp
    have htemp : new' temp = new temp := htemps _ hmem hlt.ne
    exact hvalue.trans (hh.trans (by rw [htemp]))

/-- Where the second run finds a value it is found, too, once all is as it was. -/
lemma Holding.Holds.keep (hh : h.Holds p old new f) (hp : h.Placed l body j q)
    (hq : ∀ c ∈ q, c ∈ p ∧ c.origin < j)
    (htemps : ∀ c ∈ p, c.origin ≠ j → new' c.temp = new c.temp) : h.Holds p old new' f := by
  cases h with
  | literal value => exact hh
  | live v origin =>
    exact ⟨hh.1, fun c hc ho => by rw [htemps c hc (ho.trans_lt hp.1).ne, hh.2 c hc ho]⟩
  | detached v origin =>
    intro c hc ho
    rw [hh c hc ho, htemps c hc (ho.trans_lt hp.1).ne]
  | materialized v origin temp =>
    obtain ⟨hmem, hlt⟩ := hq _ hp
    have htemp : new' temp = new temp := htemps _ hmem hlt.ne
    exact hh.trans (by rw [htemp])

lemma Table.Holds.assign (ht : t.Holds p old new)
    (hplaced : ∀ {f h}, (f, h) ∈ t → h.Placed l body j q) (hq : ∀ c ∈ q, c ∈ p ∧ c.origin < j)
    (htemps : ∀ c ∈ p, c.origin ≠ j → new' c.temp = new c.temp) (w : VarId) (x : Value) :
    (t.assign w false).Holds p (Function.update old w x) new' := by
  intro f h hm
  obtain ⟨h₀, hm₀, rfl⟩ := (mem_detach (t := t.forget w)).1 hm
  obtain ⟨hm₀, hread⟩ := mem_forget.1 hm₀
  exact (ht _ _ hm₀).assign (hplaced hm₀) hq hread htemps

lemma Table.Holds.materialize (ht : t.Holds p old new) {v fresh : VarId} {origin : Nat}
    (hm : (f, .detached v origin) ∈ t) (hmem : ⟨origin, fresh, v⟩ ∈ p) :
    (t.insert f (.materialized v origin fresh)).Holds p old new := by
  intro g i hg
  obtain ⟨rfl, rfl⟩ | ⟨hg, -⟩ := Table.mem_insert.1 hg
  · exact ht _ _ hm _ hmem rfl
  · exact ht g i hg

/-- The step: what the table says stays right from one position to the next. -/
theorem Numbered.holds (hn : Numbered formula fresh j t q a t' q' a') (hl : l.Coherent)
    (hadv : Advances formula p j a old new old' new')
    (hplaced : ∀ {f h}, (f, h) ∈ t → h.Placed l body j q)
    (hq : ∀ c ∈ q, c.origin < j) (hsub : q' ⊆ p)
    (hagree : ∀ v < l.vars.size, new v = old v)
    (hw : ∀ w, a.targetVar = some w → w < l.vars.size) (htemp : ∀ c ∈ p, l.vars.size ≤ c.temp)
    (ht : t.Holds p old new) : t'.Holds p old' new' := by
  have hq₀ : ∀ c ∈ q, c ∈ p ∧ c.origin < j := fun c hc => ⟨hsub (hn.subset hc), hq c hc⟩
  cases hn with
  | skip ha =>
    rw [hadv.kept ha]
    exact fun f h hm => (ht f h hm).keep (hplaced hm) hq₀ hadv.temps
  | assign ha _ =>
    obtain ⟨x, rfl, -⟩ := hadv.assigned ha
    exact ht.assign hplaced hq₀ hadv.temps _ x
  | @reuse w f h o ha hf hm ho =>
    obtain ⟨x, rfl, hx⟩ := hadv.assigned ha
    by_cases hkeeps : o = .var w
    · -- the target has the value already, so nothing changes
      subst hkeeps
      have hread := (ht f h hm).operand (hplaced hm) hl hagree ho l
        (⟨new, fun _ _ => .void, (), [], []⟩ : Data Unit) rfl
      rw [hx f hf] at hread
      obtain rfl : x = old w := (Option.some.inj hread).trans (hagree w (hw w ha))
      rw [Function.update_eq_self, decide_eq_true rfl]
      intro g i hg
      have hg := (Table.mem_forget.1 hg).1
      exact (ht g i hg).keep (hplaced hg) hq₀ hadv.temps
    · rw [decide_eq_false hkeeps]
      exact ht.assign hplaced hq₀ hadv.temps w x
  | @materialize w f v origin ha hf hm =>
    obtain ⟨x, rfl, -⟩ := hadv.assigned ha
    have hmem : ⟨origin, fresh, v⟩ ∈ p := hsub (CopyOrder.mem_enqueue.2 (.inl rfl))
    have hne : Operand.var fresh ≠ .var w := by
      intro he
      obtain rfl := Operand.var.inj he
      exact absurd (htemp _ hmem) (Nat.not_le_of_lt (hw _ ha))
    have hq' : ∀ c ∈ CopyOrder.enqueue ⟨origin, fresh, v⟩ q, c ∈ p ∧ c.origin < j := by
      refine fun c hc => ⟨hsub hc, ?_⟩
      obtain rfl | hc := CopyOrder.mem_enqueue.1 hc
      · exact (hplaced hm).1
      · exact hq c hc
    rw [decide_eq_false hne]
    exact (ht.materialize hm hmem).assign (placed_materialized hplaced) hq' hadv.temps w x
  | @fold w f literal ha hf hlit =>
    obtain ⟨x, rfl, -⟩ := hadv.assigned ha
    intro g i hg
    obtain ⟨rfl, rfl⟩ | ⟨hg, -⟩ := Table.mem_insert.1 hg
    · exact Formula.value_of_fold? hlit _
    · exact ht.assign hplaced hq₀ hadv.temps w x g i hg
  | @miss w f ha hf =>
    obtain ⟨x, rfl, hx⟩ := hadv.assigned ha
    split
    · exact ht.assign hplaced hq₀ hadv.temps w x
    · rename_i hread
      intro g i hg
      obtain ⟨rfl, rfl⟩ | ⟨hg, -⟩ := Table.mem_insert.1 hg
      · refine ⟨?_, fun c hc ho => ?_⟩
        · rw [Formula.value_update (by simpa using hread), hx g hf, Function.update_self]
        · rw [hadv.copied c hc ho]
          obtain rfl : w = c.source := Option.some.inj (ha.symm.trans (hadv.source c hc ho))
          rfl
      · exact ht.assign hplaced hq₀ hadv.temps w x g i hg

end

end ValueNumbering

end ThreeAddress
