import ThreeAddress.Proofs.Lowering.Layout
import ThreeAddress.Proofs.Lowering.Meaning

/-!
The listing of a program is a row of segments, one for each function that is defined.

A segment starts with the label of its function. Branches stay inside the segment, the last
instruction before the next one is the end of a path, and no two segments name a common
variable or array.
-/

namespace ThreeAddress

/-! ### What actions name -/

/-- An action reads a variable or assigns it. -/
def Listing.Mentions (l : Listing) (a : Action) (v : VarId) : Prop :=
  v ∈ l.uses a ∨ a.targetVar = some v

def Operand.arrayIds : Operand → List ArrayId
  | .array a => [a]
  | .elem a index => a :: index.arrayIds
  | _ => []

/-- The arrays that an action names. -/
def Action.arrayIds (a : Action) : List ArrayId :=
  (a.args ++ a.target.toList).flatMap Operand.arrayIds

namespace Listing

variable {l l' : Listing}

/-- The variables of an operand are its own or those that its instructions assign. -/
lemma operandUses_cases {o : Operand} {v : VarId} {R : Operand → Prop}
    (helem : ∀ {a index}, R (.elem a index) → R index) (ho : R o) (hv : v ∈ l.operandUses o) :
    R (.var v) ∨ ∃ i x, R (.instr i) ∧ l.instr? i = some x ∧ x.action.targetVar = some v := by
  induction o with
  | elem a index ih => exact ih (helem ho) hv
  | var w =>
    obtain rfl : v = w := by simpa [operandUses, resolve] using hv
    exact .inl ho
  | instr i =>
    simp only [operandUses, resolve, Option.mem_toList, Option.bind_eq_some_iff] at hv
    obtain ⟨x, hx, hv⟩ := hv
    exact .inr ⟨i, x, ho, hx, hv⟩
  | _ => simp [operandUses, resolve] at hv

/-- A variable that an action mentions stands in one of its operands. -/
lemma Mentions.cases {a : Action} {v : VarId} (h : l.Mentions a v) {R : Operand → Prop}
    (helem : ∀ {a index}, R (.elem a index) → R index) (hargs : ∀ o ∈ a.args, R o)
    (htarget : ∀ o ∈ a.target, R o) :
    R (.var v) ∨ ∃ i x, R (.instr i) ∧ l.instr? i = some x ∧ x.action.targetVar = some v := by
  obtain h | h := h
  · rw [uses, List.mem_append, List.mem_flatMap] at h
    obtain ⟨o, ho, hv⟩ | hv := h
    · exact operandUses_cases helem (hargs o ho) hv
    · cases ht : a.target with
      | none => simp [ht, targetUses] at hv
      | some o =>
        rw [ht] at hv
        cases o with
        | elem b index => exact operandUses_cases helem (helem (htarget _ ht)) hv
        | _ => simp [targetUses] at hv
  · obtain ⟨o, ht, hv⟩ := Option.bind_eq_some_iff.1 h
    cases o with
    | var w =>
      obtain rfl : w = v := by simpa [Operand.var?] using hv
      exact .inl (htarget _ ht)
    | _ => simp [Operand.var?] at hv

lemma inScope_operands {a : Action} (h : a.InScope l) :
    (∀ o ∈ a.args, o.InScope l) ∧ ∀ o ∈ a.target, o.InScope l := by
  cases a with
  | call callee target =>
    cases target <;>
      simp_all [Action.args, Action.arg1, Action.arg2, Action.target, Operand.InScope,
        Action.InScope]
  | ret value =>
    cases value <;>
      simp_all [Action.args, Action.arg1, Action.arg2, Action.target, Action.InScope]
  | _ =>
    simp_all [Action.args, Action.arg1, Action.arg2, Action.target, Operand.InScope,
      Action.InScope]

/-- What an instruction mentions exists. -/
lemma Coherent.mentions_lt (h : l.Coherent) {i : InstrId} {x : Instr} {v : VarId}
    (hx : l.instr? i = some x) (hm : l.Mentions x.action v) : v < l.vars.size := by
  obtain ⟨hargs, htarget⟩ := inScope_operands (h.inScope hx)
  obtain hv | ⟨j, y, -, hy, hv⟩ := hm.cases (R := (·.InScope l)) (fun ho => ho) hargs htarget
  · exact hv
  · exact (h.inScope hy).targetVar_lt hv

/-- What is read depends on the variables that operands stand for. -/
lemma operandUses_congr {o : Operand} (ho : o.InScope l)
    (h : ∀ {o : Operand}, o.InScope l → l'.resolve o = l.resolve o) :
    l'.operandUses o = l.operandUses o := by
  induction o with
  | elem a index ih => exact ih ho
  | _ => simp only [operandUses, h ho]

lemma uses_congr {a : Action} (ha : a.InScope l)
    (h : ∀ {o : Operand}, o.InScope l → l'.resolve o = l.resolve o) : l'.uses a = l.uses a := by
  obtain ⟨hargs, htarget⟩ := inScope_operands ha
  have htargetUses : l'.targetUses a.target = l.targetUses a.target := by
    cases ht : a.target with
    | none => rfl
    | some o =>
      cases o with
      | elem b index =>
        have hin : (Operand.elem b index).InScope l := htarget _ ht
        exact operandUses_congr (o := index) hin h
      | _ => rfl
  rw [uses, uses, htargetUses, List.flatMap_congr fun o ho => operandUses_congr (hargs o ho) h]

lemma Mentions.congr {a : Action} {v : VarId} (ha : a.InScope l)
    (h : ∀ {o : Operand}, o.InScope l → l'.resolve o = l.resolve o) :
    l'.Mentions a v ↔ l.Mentions a v := by
  rw [Mentions, Mentions, uses_congr ha h]

end Listing

/-- Operands go on to stand for the same variables. -/
lemma Lowering.Kept.resolve_eq {s s' : Lowering} (h : Lowering.Kept s s') {o : Operand}
    (ho : o.InScope s.listing) : s'.listing.resolve o = s.listing.resolve o := by
  cases o with
  | instr i => simp only [Listing.resolve, h.instr i ho]
  | _ => rfl

lemma Operand.Between.arrayIds {lo hi : Listing} {o : Operand} (h : o.Between lo hi)
    {a : ArrayId} (ha : a ∈ o.arrayIds) : lo.arrays.size ≤ a ∧ a < hi.arrays.size := by
  induction o with
  | array b =>
    obtain rfl : a = b := by simpa [Operand.arrayIds] using ha
    exact h
  | elem b index ih =>
    obtain rfl | ha := List.mem_cons.1 ha
    · exact h.1
    · exact ih h.2 ha
  | _ => simp [Operand.arrayIds] at ha

namespace Action.Between

variable {lo hi : Listing} {a : Action}

lemma arrayIds (h : a.Between lo hi) {b : ArrayId} (hb : b ∈ a.arrayIds) :
    lo.arrays.size ≤ b ∧ b < hi.arrays.size := by
  obtain ⟨o, ho, hb⟩ := List.mem_flatMap.1 hb
  obtain ho | ho := List.mem_append.1 ho
  · exact (h.1 o ho).arrayIds hb
  · exact (h.2 o (by simpa using ho)).arrayIds hb

lemma targetVar_le (h : a.Between lo hi) {v : VarId} (hv : a.targetVar = some v) :
    lo.vars.size ≤ v := by
  obtain ⟨o, ht, hv⟩ := Option.bind_eq_some_iff.1 hv
  cases o with
  | var w =>
    obtain rfl : w = v := by simpa [Operand.var?] using hv
    exact (h.2 _ ht).1
  | _ => simp [Operand.var?] at hv

end Action.Between

/-- The table has each name once. -/
def Functions.Distinct (t : Functions) : Prop := (t.entries.map Prod.fst).Nodup

namespace Functions

lemma Distinct.mem_iff {t : Functions} (h : t.Distinct) {name : String} {f : Signature} :
    (name, f) ∈ t.entries ↔ t.get? name = some f := by
  obtain ⟨entries⟩ := t
  unfold Distinct get? at *
  induction entries with
  | nil => simp
  | cons e rest ih =>
    obtain ⟨n, g⟩ := e
    rw [List.map_cons, List.nodup_cons] at h
    rw [List.mem_cons, List.lookup_cons]
    by_cases hn : name = n
    · subst hn
      have hnot : (name, f) ∉ rest := fun hm => h.1 (List.mem_map.2 ⟨_, hm, rfl⟩)
      simp [hnot, eq_comm]
    · have hne : (name == n) = false := beq_eq_false_iff_ne.2 hn
      simp [hn, hne, ih h.2]

lemma names_update (t : Functions) (name : String) (f : Signature) :
    (t.update name f).entries.map Prod.fst = t.entries.map Prod.fst := by
  unfold update
  rw [List.map_map]
  refine List.map_congr_left fun entry _ => ?_
  by_cases hn : entry.1 = name <;> simp [hn]

lemma declare_distinct {t t' : Functions} {labels labels' : Labels} {name : String}
    {f : Signature} {returns : Ty} {params : List Ty} {define : Bool}
    (h : t.declare labels name returns params define = .ok (t', labels', f))
    (ht : t.Distinct) : t'.Distinct := by
  obtain ⟨-, -, -, -, rfl, -⟩ | ⟨hnone, -, rfl, -⟩ := declare_cases h
  · unfold Distinct
    rw [names_update]
    exact ht
  · have hnot : name ∉ t.entries.map Prod.fst := by
      rw [List.mem_map]
      rintro ⟨⟨n, g⟩, hm, rfl⟩
      rw [ht.mem_iff.1 hm] at hnone
      cases hnone
    unfold Distinct at *
    rw [List.map_append, List.nodup_append]
    refine ⟨ht, by simp, ?_⟩
    simpa using fun n g hm (heq : n = name) => hnot (heq ▸ List.mem_map.2 ⟨_, hm, rfl⟩)

end Functions

namespace Lower

open Lowering Source

/-! ### Segments -/

/-- A segment starts at the first instruction and at the label of each function. -/
def Starts (s : Lowering) (p : Nat) : Prop :=
  p = 0 ∨ ∃ name f, s.listing.functions.get? name = some f ∧ Placed s f.label p

/-- No segment starts between two instructions. -/
def Together (s : Lowering) (i j : Nat) : Prop := ∀ ⦃p⦄, Starts s p → (p ≤ i ↔ p ≤ j)

/-- The instruction at `i` is the label of a function. -/
def Heads (s : Lowering) (i : Nat) (a : Action) : Prop :=
  ∃ label info, a = .label label ∧ s.listing.labels.get? label = some info ∧
    info.site = some i ∧ info.isFunction = true

structure Segmented (s : Lowering) : Prop where
  label : ∀ {i : Nat} {x label}, s.listing.instr? i = some x → x.action = .label label →
    Placed s label i
  branch : ∀ {i : Nat} {x label}, s.listing.instr? i = some x →
    x.action.branchTarget = some label →
    (∃ info, s.listing.labels.get? label = some info ∧ info.isFunction = false) ∧
      ∃ site, Placed s label site ∧ Together s i site
  later : ∀ {i site : Nat} {x cond label}, s.listing.instr? i = some x →
    x.action = .jumpFalse cond label → Placed s label site → i < site
  reached : ∀ {i : Nat} {x y}, s.listing.instr? i = some x → s.listing.instr? (i + 1) = some y →
    x.action.operator.endsPath = true → ¬Starts s (i + 1) →
    ∃ label, y.action = .label label ∧ ∃ (q : Nat) (z : Instr), q ≤ i ∧
      s.listing.instr? q = some z ∧ z.action.branchTarget = some label
  closed : ∀ {i : Nat} {x}, s.listing.instr? i = some x → Starts s (i + 1) →
    x.action.operator.endsPath = true
  vars : ∀ {i j : Nat} {x y v}, s.listing.instr? i = some x → s.listing.instr? j = some y →
    s.listing.Mentions x.action v → s.listing.Mentions y.action v → Together s i j
  arrays : ∀ {i j : Nat} {x y a}, s.listing.instr? i = some x → s.listing.instr? j = some y →
    a ∈ x.action.arrayIds → a ∈ y.action.arrayIds → Together s i j
  arrays_lt : ∀ {i : Nat} {x a}, s.listing.instr? i = some x → a ∈ x.action.arrayIds →
    a < s.listing.arrays.size
  param : ∀ {i : Nat} {x v}, s.listing.instr? i = some x → x.action = .param v →
    ∃ e y, Starts s e ∧ e ≤ i ∧ s.listing.instr? e = some y ∧
      (Heads s e y.action ∨ ∃ w, y.action = .param w) ∧
      ∀ j, e < j → j ≤ i → ∃ z w, s.listing.instr? j = some z ∧ z.action = .param w
  defined : ∀ {name f}, s.listing.functions.get? name = some f →
    (f.defined = true ↔ ∃ site, Placed s f.label site)
  distinct : s.listing.functions.Distinct

lemma Placed.unique {s : Lowering} {label : LabelId} {site site' : InstrId}
    (h : Placed s label site) (h' : Placed s label site') : site = site' := by
  obtain ⟨info, hinfo, hsite⟩ := h
  obtain ⟨info', hinfo', hsite'⟩ := h'
  obtain rfl : info = info' := Option.some.inj (hinfo.symm.trans hinfo')
  exact Option.some.inj (hsite.symm.trans hsite')

lemma Placed.site_lt {s : Lowering} (h : s.Sound) {label : LabelId} {site : InstrId}
    (hp : Placed s label site) : site < s.listing.arena.size := by
  obtain ⟨info, hinfo, hsite⟩ := hp
  obtain ⟨x, hx, -⟩ := h.coherent.sites hinfo hsite
  exact instr?_lt hx

lemma Starts.le {s : Lowering} (h : s.Sound) {p : Nat} (hp : Starts s p) :
    p ≤ s.listing.arena.size := by
  obtain rfl | ⟨name, f, -, hp⟩ := hp
  · exact Nat.zero_le _
  · exact (hp.site_lt h).le

/-- The code of one more part stands behind the code of `s`, perhaps after a label. -/
structure Appended (base : Listing) (s s' : Lowering) : Prop where
  kept : Kept s s'
  laid : Laid base ∅ s'
  vars : s.listing.vars.size ≤ base.vars.size
  arrays : s.listing.arrays.size ≤ base.arrays.size
  arena : s.listing.arena.size ≤ base.arena.size
  placed : ∀ {label site}, Placed s label site → Placed s' label site
  starts : ∀ {p}, Starts s' p ↔ Starts s p ∨ p = s.listing.arena.size
  head : ∀ {i : Nat} {x}, s.listing.arena.size ≤ i → i < base.arena.size →
    s'.listing.instr? i = some x → i = s.listing.arena.size ∧ Heads s' i x.action
  closed : ∀ {i : Nat} {x}, i + 1 = s.listing.arena.size → s.listing.instr? i = some x →
    x.action.operator.endsPath = true

namespace Appended

variable {base : Listing} {s s' : Lowering}

/-- An instruction is old, or the label in front, or one of the new part. -/
lemma cases (h : Appended base s s') {i : Nat} {x : Instr} (hx : s'.listing.instr? i = some x) :
    (i < s.listing.arena.size ∧ s.listing.instr? i = some x) ∨
      (i = s.listing.arena.size ∧ Heads s' i x.action) ∨
      (base.arena.size ≤ i ∧ Sited base ∅ s' i x.action) := by
  by_cases hold : i < s.listing.arena.size
  · exact .inl ⟨hold, by rw [← h.kept.instr i hold, hx]⟩
  · by_cases hhead : i < base.arena.size
    · exact .inr (.inl (h.head (Nat.le_of_not_lt hold) hhead hx))
    · have hle := Nat.le_of_not_lt hhead
      exact .inr (.inr ⟨hle, h.laid.code hle hx⟩)

lemma together_old (h : Appended base s s') {i j : Nat} (hi : i < s.listing.arena.size)
    (hj : j < s.listing.arena.size) (hij : Together s i j) : Together s' i j := by
  intro p hp
  obtain hp | rfl := h.starts.1 hp
  · exact hij hp
  · exact iff_of_false hi.not_ge hj.not_ge

lemma together_new (h : Appended base s s') (hs : s.Sound) {i j : Nat}
    (hi : s.listing.arena.size ≤ i) (hj : s.listing.arena.size ≤ j) : Together s' i j := by
  intro p hp
  have hle : p ≤ s.listing.arena.size := by
    obtain hp | rfl := h.starts.1 hp
    · exact hp.le hs
    · exact le_rfl
  exact iff_of_true (hle.trans hi) (hle.trans hj)

/-- Old instructions mention old variables, new ones mention new variables. -/
lemma mentions (h : Appended base s s') (hs : s.Sound) {i : Nat} {x : Instr} {v : VarId}
    (hx : s'.listing.instr? i = some x) (hm : s'.listing.Mentions x.action v) :
    (i < s.listing.arena.size ∧ s.listing.instr? i = some x ∧ s.listing.Mentions x.action v ∧
      v < s.listing.vars.size) ∨ (s.listing.arena.size ≤ i ∧ s.listing.vars.size ≤ v) := by
  obtain ⟨hi, hx⟩ | ⟨rfl, label, -, hact, -⟩ | ⟨hi, hsited⟩ := h.cases hx
  · have hm := (Listing.Mentions.congr (hs.coherent.inScope hx) h.kept.resolve_eq).1 hm
    exact .inl ⟨hi, hx, hm, hs.coherent.mentions_lt hx hm⟩
  · rw [hact] at hm
    simp [Listing.Mentions, Listing.uses, Action.args, Action.arg1, Action.arg2, Action.target,
      Listing.operandUses, Listing.resolve, Listing.targetUses, Action.targetVar] at hm
  · right
    refine ⟨h.arena.trans hi, h.vars.trans ?_⟩
    obtain hv | ⟨j, y, hj, hy, hv⟩ := hm.cases (R := (·.Between base s'.listing))
      (fun ho => ho.2) hsited.between.1 hsited.between.2
    · exact hv.1
    · exact (h.laid.code hj.1 hy).between.targetVar_le hv

lemma arrayIds (h : Appended base s s') (hs : Segmented s) {i : Nat} {x : Instr} {a : ArrayId}
    (hx : s'.listing.instr? i = some x) (ha : a ∈ x.action.arrayIds) :
    (i < s.listing.arena.size ∧ s.listing.instr? i = some x ∧ a < s.listing.arrays.size) ∨
      (s.listing.arena.size ≤ i ∧ s.listing.arrays.size ≤ a ∧ a < s'.listing.arrays.size) := by
  obtain ⟨hi, hx⟩ | ⟨rfl, label, -, hact, -⟩ | ⟨hi, hsited⟩ := h.cases hx
  · exact .inl ⟨hi, hx, hs.arrays_lt hx ha⟩
  · rw [hact] at ha
    simp [Action.arrayIds, Action.args, Action.arg1, Action.arg2, Action.target,
      Operand.arrayIds] at ha
  · obtain ⟨hle, hlt⟩ := hsited.between.arrayIds ha
    exact .inr ⟨h.arena.trans hi, h.arrays.trans hle, hlt⟩

end Appended

section

variable {base : Listing} {s s' : Lowering}

lemma Heads.label {i : Nat} {a : Action} (h : Heads s i a) {label : LabelId}
    (ha : a = .label label) : Placed s label i := by
  obtain ⟨other, info, rfl, hinfo, hsite, -⟩ := h
  obtain rfl : other = label := Action.label.inj ha
  exact ⟨info, hinfo, hsite⟩

lemma Heads.kept {i : Nat} {a : Action} (h : Heads s i a) (hk : Kept s s')
    (hp : ∀ {label site}, Placed s label site → Placed s' label site) : Heads s' i a := by
  obtain ⟨label, info, rfl, hinfo, hsite, hname⟩ := h
  obtain ⟨info', hinfo', hsite'⟩ := hp ⟨info, hinfo, hsite⟩
  obtain ⟨info'', hinfo'', hname'⟩ := hk.names hinfo
  obtain rfl : info' = info'' := Option.some.inj (hinfo'.symm.trans hinfo'')
  exact ⟨label, info', rfl, hinfo', hsite', by rw [Label.isFunction, hname']; exact hname⟩

lemma Appended.kept_instr (h : Appended base s s') {i : Nat} {x : Instr}
    (hx : s.listing.instr? i = some x) : s'.listing.instr? i = some x := by
  rw [h.kept.instr i (instr?_lt hx), hx]

lemma Appended.branch (h : Appended base s s') (hs : s.Sound) (hseg : Segmented s) {i : Nat}
    {x : Instr} {label : LabelId} (hx : s'.listing.instr? i = some x)
    (ht : x.action.branchTarget = some label) :
    (∃ info, s'.listing.labels.get? label = some info ∧ info.isFunction = false) ∧
      ∃ site, Placed s' label site ∧ Together s' i site := by
  obtain ⟨hi, hx⟩ | ⟨-, other, -, hact, -⟩ | ⟨hi, hsited⟩ := h.cases hx
  · obtain ⟨⟨info, hinfo, hname⟩, site, hp, hto⟩ := hseg.branch hx ht
    obtain ⟨info', hinfo', hname'⟩ := h.kept.names hinfo
    exact ⟨⟨info', hinfo', by rw [Label.isFunction, hname']; exact hname⟩, site, h.placed hp,
      h.together_old hi (hp.site_lt hs) hto⟩
  · rw [hact] at ht
    cases ht
  · obtain ⟨hname, hp | ⟨site, hsite, hp⟩⟩ := hsited.target ht
    · exact absurd hp (Set.notMem_empty label)
    · exact ⟨hname, site, hp, h.together_new hs (h.arena.trans hi) (h.arena.trans hsite)⟩

lemma Appended.later (h : Appended base s s') (hseg : Segmented s) {i site : Nat} {x : Instr}
    {cond : Operand} {label : LabelId} (hx : s'.listing.instr? i = some x)
    (hj : x.action = .jumpFalse cond label) (hp : Placed s' label site) : i < site := by
  obtain ⟨hi, hx⟩ | ⟨-, other, -, hact, -⟩ | ⟨hi, hsited⟩ := h.cases hx
  · obtain ⟨-, site', hp', -⟩ := hseg.branch hx (by rw [hj]; rfl)
    obtain rfl := hp.unique (h.placed hp')
    exact hseg.later hx hj hp'
  · rw [hact] at hj
    cases hj
  · exact hsited.later hj hp

lemma Appended.reached (h : Appended base s s') (hseg : Segmented s) {i : Nat} {x y : Instr}
    (hx : s'.listing.instr? i = some x) (hy : s'.listing.instr? (i + 1) = some y)
    (hends : x.action.operator.endsPath = true) (hstart : ¬Starts s' (i + 1)) :
    ∃ label, y.action = .label label ∧ ∃ (q : Nat) (z : Instr), q ≤ i ∧
      s'.listing.instr? q = some z ∧ z.action.branchTarget = some label := by
  obtain ⟨hi, hx⟩ | ⟨-, other, -, hact, -⟩ | ⟨hi, -⟩ := h.cases hx
  · rw [h.starts, not_or] at hstart
    have hlt : i + 1 < s.listing.arena.size := Nat.lt_of_le_of_ne hi hstart.2
    have hy : s.listing.instr? (i + 1) = some y := by rw [← h.kept.instr (i + 1) hlt, hy]
    obtain ⟨label, hlabel, q, z, hq, hz, ht⟩ := hseg.reached hx hy hends hstart.1
    exact ⟨label, hlabel, q, z, hq, h.kept_instr hz, ht⟩
  · rw [hact] at hends
    cases hends
  · obtain ⟨label, hlabel, q, z, -, hq, hz, ht⟩ := h.laid.reached hi hx hy hends
    exact ⟨label, hlabel, q, z, Nat.lt_succ_iff.1 hq, hz, ht⟩

lemma Appended.ends (h : Appended base s s') (hs : s.Sound) (hseg : Segmented s) {i : Nat}
    {x : Instr} (hx : s'.listing.instr? i = some x) (hstart : Starts s' (i + 1)) :
    x.action.operator.endsPath = true := by
  have hle : i + 1 ≤ s.listing.arena.size := by
    obtain hp | hp := h.starts.1 hstart
    · exact hp.le hs
    · exact hp.le
  have hx : s.listing.instr? i = some x := by rw [← h.kept.instr i hle, hx]
  obtain hp | hp := h.starts.1 hstart
  · exact hseg.closed hx hp
  · exact h.closed hp hx

lemma Appended.param (h : Appended base s s') (hseg : Segmented s) {i : Nat} {x : Instr}
    {v : VarId} (hx : s'.listing.instr? i = some x) (hv : x.action = .param v) :
    ∃ e y, Starts s' e ∧ e ≤ i ∧ s'.listing.instr? e = some y ∧
      (Heads s' e y.action ∨ ∃ w, y.action = .param w) ∧
      ∀ j, e < j → j ≤ i → ∃ z w, s'.listing.instr? j = some z ∧ z.action = .param w := by
  have hx' := hx
  obtain ⟨hi, hx⟩ | ⟨-, other, -, hact, -⟩ | ⟨hi, hsited⟩ := h.cases hx
  · obtain ⟨e, y, hstart, hle, hy, hhead, hall⟩ := hseg.param hx hv
    refine ⟨e, y, h.starts.2 (.inl hstart), hle, h.kept_instr hy,
      hhead.imp_left (·.kept h.kept h.placed), fun j hj hji => ?_⟩
    obtain ⟨z, w, hz, hw⟩ := hall j hj hji
    exact ⟨z, w, h.kept_instr hz, hw⟩
  · rw [hact] at hv
    cases hv
  · -- all from the start of the part up to `i` are parameters, but for a label in front
    have hall (j : Nat) (hj : base.arena.size ≤ j) (hji : j ≤ i) :
        ∃ z w, s'.listing.instr? j = some z ∧ z.action = .param w := by
      obtain rfl | hlt := hji.eq_or_lt
      · exact ⟨x, v, hx', hv⟩
      · exact hsited.param hv hj hlt
    have hlast := instr?_lt hx'
    obtain ⟨y, hy⟩ := Option.isSome_iff_exists.1 (Listing.instr?_isSome_iff.2
      (((h.arena.trans hi).trans_lt hlast)))
    refine ⟨s.listing.arena.size, y, h.starts.2 (.inr rfl), h.arena.trans hi, hy, ?_,
      fun j hj hji => hall j ?_ hji⟩
    · by_cases hhead : s.listing.arena.size < base.arena.size
      · exact .inl (h.head le_rfl hhead hy).2
      · obtain ⟨z, w, hz, hw⟩ :=
          hall s.listing.arena.size (Nat.le_of_not_lt hhead) (h.arena.trans hi)
        obtain rfl : y = z := Option.some.inj (hy.symm.trans hz)
        exact .inr ⟨w, hw⟩
    · by_contra hlt
      obtain ⟨z, hz⟩ := Option.isSome_iff_exists.1 (Listing.instr?_isSome_iff.2
        (hji.trans_lt hlast))
      exact hj.ne' (h.head hj.le (Nat.lt_of_not_le hlt) hz).1

/-- One more part keeps the segments. -/
lemma Segmented.append (hseg : Segmented s) (h : Appended base s s') (hs : s.Sound)
    (hdefined : ∀ {name f}, s'.listing.functions.get? name = some f →
      (f.defined = true ↔ ∃ site, Placed s' f.label site))
    (hdistinct : s'.listing.functions.Distinct) : Segmented s' where
  label hx hl := by
    obtain ⟨-, hx⟩ | ⟨-, hhead⟩ | ⟨-, hsited⟩ := h.cases hx
    · exact h.placed (hseg.label hx hl)
    · exact hhead.label hl
    · exact hsited.label hl
  branch hx ht := h.branch hs hseg hx ht
  later hx hj hp := h.later hseg hx hj hp
  reached hx hy hends hstart := h.reached hseg hx hy hends hstart
  closed hx hstart := h.ends hs hseg hx hstart
  vars {i j x y v} hx hy hmx hmy := by
    obtain ⟨hi, hx, hmx, hv⟩ | ⟨hi, hv⟩ := h.mentions hs hx hmx
    · obtain ⟨hj, hy, hmy, -⟩ | ⟨-, hv'⟩ := h.mentions hs hy hmy
      · exact h.together_old hi hj (hseg.vars hx hy hmx hmy)
      · exact absurd hv hv'.not_gt
    · obtain ⟨-, -, -, hv'⟩ | ⟨hj, -⟩ := h.mentions hs hy hmy
      · exact absurd hv' hv.not_gt
      · exact h.together_new hs hi hj
  arrays {i j x y a} hx hy hax hay := by
    obtain ⟨hi, hx, ha⟩ | ⟨hi, ha, -⟩ := h.arrayIds hseg hx hax
    · obtain ⟨hj, hy, -⟩ | ⟨-, ha', -⟩ := h.arrayIds hseg hy hay
      · exact h.together_old hi hj (hseg.arrays hx hy hax hay)
      · exact absurd ha ha'.not_gt
    · obtain ⟨-, -, ha'⟩ | ⟨hj, -⟩ := h.arrayIds hseg hy hay
      · exact absurd ha' ha.not_gt
      · exact h.together_new hs hi hj
  arrays_lt hx ha := by
    obtain ⟨-, -, hlt⟩ | ⟨-, -, hlt⟩ := h.arrayIds hseg hx ha
    · exact hlt.trans_le (h.arrays.trans h.laid.fewer.arrays)
    · exact hlt
  param hx hv := h.param hseg hx hv
  defined hf := hdefined hf
  distinct := hdistinct

end

/-! ### Programs -/

lemma segmented_start : Segmented .start := by
  refine ⟨?_, ?_, ?_, ?_, ?_, ?_, ?_, ?_, ?_, ?_, ?_⟩ <;>
    simp [Lowering.start, Listing.empty, Listing.instr?, Functions.empty, Functions.get?,
      Functions.Distinct]

section

variable {done : List Item} {s t s' : Lowering}

/-- A function counts as defined when it is defined now or was before. -/
lemma declare_defined {functions functions' : Functions} {labels labels' : Labels}
    {name : String} {f : Signature} {returns : Ty} {params : List Ty} {define : Bool}
    (h : functions.declare labels name returns params define = .ok (functions', labels', f))
    (hd : f.defined = true) : define = true ∨
      ∃ old, functions.get? name = some old ∧ old.defined = true ∧ old.label = f.label := by
  obtain ⟨old, hold, -, rfl, -⟩ | ⟨-, rfl, -⟩ := Functions.declare_cases h
  · obtain hold' | hdefine := Bool.or_eq_true_iff.1 hd
    · exact .inr ⟨old, hold, hold', rfl⟩
    · exact .inl hdefine
  · exact .inl hd

/-- A declaration starts no segment. -/
lemma declareFunction_starts {p : Prototype} {define : Bool} {f : Signature}
    (h : s.declareFunction p define = .ok (t, f)) (e : Nat) : Starts t e ↔ Starts s e := by
  have hplaced := declareFunction_placed h
  obtain ⟨functions, labels, hd, rfl⟩ := declareFunction_eq h
  obtain ⟨hget, -, -, hcases⟩ := Functions.declare_spec hd
  unfold Starts
  refine or_congr_right ⟨?_, ?_⟩
  · rintro ⟨name, g, hg, hp⟩
    rw [hplaced] at hp
    have hg : functions.get? name = some g := hg
    rw [hget] at hg
    split at hg
    · obtain rfl := Option.some.inj hg
      obtain ⟨-, old, hold, -, hlabel, -⟩ | ⟨-, -, hlabel⟩ := hcases
      · exact ⟨_, old, hold, hlabel ▸ hp⟩
      · exact absurd hp.lt (by rw [hlabel]; exact lt_irrefl _)
    · exact ⟨name, g, hg, hp⟩
  · rintro ⟨name, g, hg, hp⟩
    by_cases hname : name = p.name
    · subst hname
      obtain ⟨-, old, hold, -, hlabel, -⟩ | ⟨-, hnone, -⟩ := hcases
      · obtain rfl : g = old := Option.some.inj (hg.symm.trans hold)
        exact ⟨p.name, f, (hget _).trans (if_pos rfl), (hplaced _ _).2 (hlabel ▸ hp)⟩
      · rw [hnone] at hg
        cases hg
    · exact ⟨name, g, (hget _).trans ((if_neg hname).trans hg), (hplaced _ _).2 hp⟩

/-- What holds between two items: no name is bound, and control does not pass on. -/
structure Divided (done : List Item) (s : Lowering) : Prop where
  segmented : Segmented s
  sound : s.Sound
  tabled : Tabled done s
  fits : ∃ ctx : Context, ctx.names = [] ∧ Fits ctx s
  closed : ∀ {i : Nat} {x}, i + 1 = s.listing.arena.size → s.listing.instr? i = some x →
    x.action.operator.endsPath = true

lemma Divided.unbound (h : Divided done s) : bindings s.scopes = [] := by
  obtain ⟨ctx, hnames, hf⟩ := h.fits
  have hbinds := hf.binds
  unfold Binds at hbinds
  rw [hnames] at hbinds
  exact List.forall₂_nil_left_iff.1 hbinds

/-- A prototype adds no code. -/
lemma Segmented.prototype {p : Prototype} {f : Signature} (h : Segmented s) (hs : s.Sound)
    (ht : Tabled done t) (hd : s.declareFunction p false = .ok (t, f)) : Segmented t := by
  have hplaced := declareFunction_placed hd
  have hstarts := declareFunction_starts hd
  have hkept : Kept s t := (ItemStep.declareFunction hd).kept
  have htogether (i j : Nat) (hij : Together s i j) : Together t i j :=
    fun e he => hij ((hstarts e).1 he)
  obtain ⟨functions, labels, hdeclare, rfl⟩ := declareFunction_eq hd
  have hmentions {i : Nat} {x : Instr} {v : VarId} (hx : s.listing.instr? i = some x)
      (hm : Listing.Mentions { s.listing with functions, labels } x.action v) :
      s.listing.Mentions x.action v :=
    (Listing.Mentions.congr (hs.coherent.inScope hx) fun {o} _ => by cases o <;> rfl).1 hm
  refine ⟨fun hx hl => (hplaced _ _).2 (h.label hx hl), fun hx hb => ?_,
    fun hx hj hp => h.later hx hj ((hplaced _ _).1 hp),
    fun hx hy hends hstart => h.reached hx hy hends (mt (hstarts _).2 hstart),
    fun hx hstart => h.closed hx ((hstarts _).1 hstart),
    fun hx hy hmx hmy => htogether _ _ (h.vars hx hy (hmentions hx hmx) (hmentions hy hmy)),
    fun hx hy hax hay => htogether _ _ (h.arrays hx hy hax hay),
    h.arrays_lt, fun hx hv => ?_, fun {name g} hg => ?_,
    Functions.declare_distinct hdeclare h.distinct⟩
  · obtain ⟨⟨info, hinfo, hname⟩, site, hp, hto⟩ := h.branch hx hb
    obtain ⟨info', hinfo', hname'⟩ := hkept.names hinfo
    exact ⟨⟨info', hinfo', by rw [Label.isFunction, hname']; exact hname⟩, site,
      (hplaced _ _).2 hp, htogether _ _ hto⟩
  · obtain ⟨e, y, hstart, hle, hy, hhead, hall⟩ := h.param hx hv
    exact ⟨e, y, (hstarts e).2 hstart, hle, hy,
      hhead.imp_left (·.kept hkept fun hp => (hplaced _ _).2 hp), hall⟩
  · constructor
    · intro hdefined
      have hg' : functions.get? name = some g := hg
      rw [(Functions.declare_spec hdeclare).1] at hg'
      have hold : ∃ old, s.listing.functions.get? name = some old ∧ old.defined = true ∧
          old.label = g.label := by
        split at hg'
        · rename_i hname
          obtain rfl := Option.some.inj hg'
          obtain hfalse | hold := declare_defined hdeclare hdefined
          · cases hfalse
          · exact hname ▸ hold
        · exact ⟨g, hg', hdefined, rfl⟩
      obtain ⟨old, hgold, hdold, hlabel⟩ := hold
      obtain ⟨site, hp⟩ := (h.defined hgold).1 hdold
      exact ⟨site, (hplaced _ _).2 (hlabel ▸ hp)⟩
    · rintro ⟨site, hp⟩
      by_contra hundefined
      exact ht.undefined hg (by simpa using hundefined) site hp

/-- No code so far. -/
lemma laid_nil (hbound : bindings s.scopes = []) (hplain : s.listing.vars.Plain)
    (hflag : ∀ {i : Nat} {x}, i + 1 = s.listing.arena.size → s.listing.instr? i = some x →
      s.unreachable = x.action.operator.endsPath) : Laid s.listing ∅ s where
  fewer := .refl _
  plain := hplain
  bound e he := by simp [hbound] at he
  code hi hx := absurd (instr?_lt hx) hi.not_gt
  reached hi hx := absurd (instr?_lt hx) hi.not_gt
  flag _ hsize hx := hflag hsize hx

/-- Behind a label that was just placed. -/
lemma label_laid {t₁ t₂ : Lowering} {label : LabelId} (hs : t₁.startAt label = .ok t₂)
    (hbound : bindings t₂.scopes = []) (hplain : t₂.listing.vars.Plain) :
    Laid t₂.listing ∅ t₂ := by
  have hemit := (startAt_emitted hs).1
  refine laid_nil hbound hplain fun {i x} hsize hx => ?_
  rw [hemit.unreachable]
  obtain ⟨y, hy, hact⟩ := hemit.instr
  obtain rfl : i = t₁.listing.arena.size := Nat.succ.inj (hsize.trans hemit.size)
  rw [Option.some.inj (hx.symm.trans hy), hact]

section

variable {p : Prototype} {body : Stmt} {f : Signature} {u : Unit} {t₁ t₂ t₃ t₄ t₅ : Lowering}
  (hp : Params p.params { t₂ with scopes := t₂.scopes.push } t₃)
  (hb : stmt body { t₃ with function := some ⟨p.name, p.returns.ty⟩ } = .ok (u, t₄))
  (he : FunctionEnd t₄ t₅)

include hp hb he

/-- What is lowered behind the label of a function. -/
lemma function_laid (hs : t₁.startAt f.label = .ok t₂) (hbound : bindings t₂.scopes = [])
    (hplain : t₂.listing.vars.Plain) :
    Laid t₂.listing ∅ { t₅ with function := none, scopes := t₅.scopes.pop } ∧
      t₅.unreachable = true := by
  have hemit := (startAt_emitted hs).1
  have h₂ := label_laid hs hbound hplain
  have h₂' : Laid t₂.listing ∅ { t₂ with scopes := t₂.scopes.push } :=
    h₂.scopes fun e he => h₂.bound e (by rwa [bindings_push] at he)
  obtain ⟨h₃, -⟩ := params_laid hp h₂' hemit.unreachable
    fun j hj hlt => absurd hlt hj.not_gt
  have h₃' : Laid t₂.listing ∅ { t₃ with function := some ⟨p.name, p.returns.ty⟩ } :=
    h₃.of_tables rfl (.refl _) h₃.plain h₃.bound (fun _ _ => Iff.rfl) (fun hget => hget) rfl
  obtain ⟨h₅, hr⟩ := functionEnd_laid he (stmt_laid body hb h₃')
  have h₆ : Laid t₂.listing ∅ { t₅ with function := none } :=
    h₅.of_tables rfl (.refl _) h₅.plain h₅.bound (fun _ _ => Iff.rfl) (fun hget => hget) rfl
  exact ⟨h₆.popScope, hr⟩

/-- The body of a function touches no label from before, and no function. -/
lemma function_tables :
    (∀ label < t₂.listing.labels.size,
      t₅.listing.labels.get? label = t₂.listing.labels.get? label) ∧
      t₅.listing.functions = t₂.listing.functions := by
  have h₃ := params_reaches (k := t₂.listing.labels.size) hp
  have hk₃ : t₂.listing.labels.size ≤ t₃.listing.labels.size := h₃.grows.labels
  have h₄ := stmt_reaches (k := t₂.listing.labels.size) body
    (s := { t₃ with function := some ⟨p.name, p.returns.ty⟩ }) hk₃ hb
  have hk₄ : t₂.listing.labels.size ≤ t₄.listing.labels.size := hk₃.trans h₄.grows.labels
  have h₅ := functionEnd_reaches (k := t₂.listing.labels.size) he
  refine ⟨fun label hlt => ?_, ?_⟩
  · exact (h₅.label_eq hlt hk₄).trans ((h₄.label_eq hlt hk₃).trans (h₃.label_eq hlt le_rfl))
  · exact h₅.functions.trans (h₄.functions.trans h₃.functions)

end

/-- A function is a segment of its own. -/
lemma function_appended {p : Prototype} {body : Stmt} {u : Unit} (h : Divided done s)
    (hf : function p body s = .ok (u, s')) :
    ∃ (base : Listing) (f : Signature), Appended base s s' ∧ s'.unreachable = true ∧
      s'.listing.functions.get? p.name = some f ∧ Placed s' f.label s.listing.arena.size ∧
      ∃ t, s.declareFunction p true = .ok (t, f) ∧ s'.listing.functions = t.listing.functions := by
  have htabled := item_tabled (i := .function p body) hf h.tabled
  have hextends := item_extends (i := .function p body) hf
  have hsound := hextends.sound h.sound
  have hkept := hextends.kept
  obtain ⟨f, t₁, t₂, t₃, t₄, t₅, hd, hs, hp, hb, he, rfl⟩ := function_ok hf
  obtain ⟨hget, -, hunplaced⟩ := declareFunction_define hd h.tabled
  have hplaced₁ := declareFunction_placed hd
  obtain ⟨hemit, hinfo, hother⟩ := startAt_emitted hs
  obtain ⟨hlabels, hfunctions⟩ := function_tables hp hb he
  have hsame : t₁.listing.arena = s.listing.arena ∧ t₁.listing.vars = s.listing.vars ∧
      t₁.listing.arrays = s.listing.arrays ∧ t₁.scopes = s.scopes := by
    obtain ⟨functions, labels, -, rfl⟩ := declareFunction_eq hd
    exact ⟨rfl, rfl, rfl, rfl⟩
  obtain ⟨harena, hvars, harrays, hscopes⟩ := hsame
  have hbound : bindings t₂.scopes = [] := by
    rw [hemit.scopes, hscopes, h.unbound]
  have hplain : t₂.listing.vars.Plain := by
    obtain ⟨ctx, -, hfits⟩ := h.fits
    rw [hemit.vars, hvars]
    exact hfits.plain
  obtain ⟨hlaid, hr⟩ := function_laid hp hb he hs hbound hplain
  rw [harena] at hinfo
  have hsize : t₂.listing.arena.size = s.listing.arena.size + 1 := by rw [hemit.size, harena]
  -- labels of other functions stay where they are
  have hplaced {label : LabelId} (hne : label ≠ f.label) (hlt : label < t₁.listing.labels.size)
      (site : InstrId) : Placed t₅ label site ↔ Placed s label site := by
    have hlt₂ : label < t₂.listing.labels.size := hlt.trans_le (startAt_kept hs).grows.labels
    rw [placed_congr (hlabels label hlt₂), placed_congr (hother label hne), hplaced₁]
  have hnew : Placed t₅ f.label s.listing.arena.size := by
    obtain ⟨info, hinfo, hsite⟩ := hinfo
    exact ⟨info, (hlabels _ (Array.getElem?_eq_some_iff.1 hinfo).1).trans hinfo, hsite⟩
  have hfunctions : t₅.listing.functions = t₁.listing.functions := hfunctions.trans hemit.functions
  have htabled₁ := declareFunction_tabled (i := .function p body) hd rfl h.tabled
  refine ⟨t₂.listing, f, ⟨hkept, hlaid, ?_, ?_, ?_, ?_, ?_, ?_, h.closed⟩, hr, ?_, hnew, t₁, hd,
    hfunctions⟩
  · rw [hemit.vars, hvars]
  · rw [hemit.arrays, harrays]
  · rw [hsize]
    exact Nat.le_succ _
  · intro label site hpl
    have hpl₁ := (hplaced₁ label site).2 hpl
    refine (hplaced (fun heq => ?_) hpl₁.lt site).2 hpl
    exact hunplaced site (heq ▸ hpl₁)
  · intro e
    rw [← declareFunction_starts hd]
    constructor
    · rintro (rfl | ⟨name, g, hg, hpl⟩)
      · exact .inl (.inl rfl)
      · have hg : t₁.listing.functions.get? name = some g := by rw [← hfunctions]; exact hg
        by_cases heq : g.label = f.label
        · exact .inr (Placed.unique (s := t₅) (heq ▸ hpl) hnew)
        · exact .inl (.inr ⟨name, g, hg, (hplaced₁ _ _).2 ((hplaced heq (htabled₁.lt hg) e).1 hpl)⟩)
    · rintro ((rfl | ⟨name, g, hg, hpl⟩) | rfl)
      · exact .inl rfl
      · refine .inr ⟨name, g, by rw [← hg, ← hfunctions], ?_⟩
        refine (hplaced (fun heq => ?_) hpl.lt e).2 ((hplaced₁ _ _).1 hpl)
        exact hunplaced e (heq ▸ hpl)
      · exact .inr ⟨p.name, f, by rw [← hget, ← hfunctions], hnew⟩
  · intro i x hi hlt hx
    obtain rfl : i = s.listing.arena.size := by omega
    obtain ⟨info, hinfo, hsite⟩ := hnew
    obtain ⟨y, hy, hact⟩ := hsound.coherent.sites hinfo hsite
    obtain rfl : x = y := Option.some.inj (hx.symm.trans hy)
    have hget' : t₅.listing.functions.get? p.name = some f := by rw [← hget, ← hfunctions]
    obtain ⟨info', hinfo', hname⟩ := htabled.label hget'
    obtain rfl : info = info' := Option.some.inj (hinfo.symm.trans hinfo')
    exact ⟨rfl, f.label, info, hact, hinfo, hsite, by rw [Label.isFunction, hname]⟩
  · rw [← hget, ← hfunctions]

lemma item_divided {i : Item} {u : Unit} (h : Divided done s) (hi : item i s = .ok (u, s')) :
    Divided (done ++ [i]) s' := by
  have hsound := (item_extends hi).sound h.sound
  have htabled := item_tabled hi h.tabled
  obtain ⟨ctx, hnames, hfits⟩ := h.fits
  have hfits' : ∃ ctx : Context, ctx.names = [] ∧ Fits ctx s' := by
    refine ⟨i.context ctx, ?_, item_fits hi hfits⟩
    cases i <;> exact hnames
  cases i with
  | prototype p =>
    obtain ⟨f, hd⟩ := item_prototype_ok hi
    refine ⟨h.segmented.prototype h.sound htabled hd, hsound, htabled, hfits', ?_⟩
    obtain ⟨functions, labels, -, rfl⟩ := declareFunction_eq hd
    exact h.closed
  | function p body =>
    obtain ⟨base, f, happ, hr, hget, hnew, t, hd, hfunctions⟩ := function_appended h hi
    refine ⟨h.segmented.append happ h.sound ?_ ?_, hsound, htabled, hfits', ?_⟩
    · intro name g hg
      constructor
      · intro hdefined
        by_cases hname : name = p.name
        · subst hname
          obtain rfl : f = g := Option.some.inj (hget.symm.trans hg)
          exact ⟨_, hnew⟩
        · obtain ⟨functions, labels, hdeclare, rfl⟩ := declareFunction_eq hd
          rw [hfunctions] at hg
          have hold : s.listing.functions.get? name = some g := by
            rw [← hg]
            exact (((Functions.declare_spec hdeclare).1 name).trans (if_neg hname)).symm
          obtain ⟨site, hp⟩ := (h.segmented.defined hold).1 hdefined
          exact ⟨site, happ.placed hp⟩
      · rintro ⟨site, hp⟩
        by_contra hundefined
        exact htabled.undefined hg (by simpa using hundefined) site hp
    · obtain ⟨functions, labels, hdeclare, rfl⟩ := declareFunction_eq hd
      rw [hfunctions]
      exact Functions.declare_distinct hdeclare h.segmented.distinct
    · intro i x hsize hx
      exact (happ.laid.flag (by rw [hsize]; exact happ.laid.fewer.arena) hsize hx).symm.trans hr

lemma items_divided {is : List Item} {u : Unit} (h : Divided done s)
    (hi : is.forM item s = .ok (u, s')) : Divided (done ++ is) s' := by
  induction is generalizing done s with
  | nil =>
    obtain ⟨-, rfl⟩ := pure_ok.1 hi
    rwa [List.append_nil]
  | cons i rest ih =>
    obtain ⟨t, hfirst, hrest⟩ := forM_cons_ok.1 hi
    rw [List.append_cons]
    exact ih (item_divided h hfirst) hrest

lemma divided_start : Divided [] .start where
  segmented := segmented_start
  sound := sound_start
  tabled := tabled_start
  fits := ⟨.start, rfl, fits_start⟩
  closed hsize := by simp [Lowering.start, Listing.empty] at hsize

/-- A statement that is a program of its own is one segment. -/
lemma stmt_appended {body : Stmt} {u : Unit} (h : stmt body .start = .ok (u, s')) :
    Appended Lowering.start.listing .start s' := by
  have hreach := stmt_reaches (k := 0) body (Nat.zero_le _) h
  have hlaid : Laid Lowering.start.listing ∅ .start :=
    laid_nil rfl fits_start.plain fun hsize => by simp [Lowering.start, Listing.empty] at hsize
  refine ⟨hreach.kept, stmt_laid body h hlaid, le_rfl, le_rfl, le_rfl, ?_, ?_, ?_, ?_⟩
  · rintro label site ⟨info, hinfo, -⟩
    simp [Lowering.start, Listing.empty, Labels.empty, Labels.get?] at hinfo
  · intro e
    unfold Starts
    rw [hreach.functions]
    simp [Lowering.start, Listing.empty, Functions.empty, Functions.get?]
  · intro i x hi hlt
    exact absurd hlt hi.not_gt
  · intro i x hsize
    simp [Lowering.start, Listing.empty] at hsize

/-- The code of a program is divided into segments. -/
theorem program_segmented {p : Program} {u : Unit} (h : program p .start = .ok (u, s')) :
    Segmented s' := by
  cases p with
  | stmt body =>
    have hfunctions := (stmt_reaches (k := 0) body (Nat.zero_le _) h).functions
    refine segmented_start.append (stmt_appended h) sound_start ?_ ?_
    · intro name f hf
      rw [hfunctions] at hf
      simp [Lowering.start, Listing.empty, Functions.empty, Functions.get?] at hf
    · rw [hfunctions]
      exact segmented_start.distinct
  | items is => exact (items_divided divided_start h).segmented

end

end Lower

end ThreeAddress
