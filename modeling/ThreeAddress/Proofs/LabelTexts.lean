import ThreeAddress.Proofs.DataFlow.Lockstep
import ThreeAddress.Proofs.Numbering.Typing

/-!
Labels by their texts.

A generated label is called `L` with a serial that no other one has, and the label of a function
is called like the function, which no other function is. So among the labels of one kind a text
tells which label it is. The kinds share one name space, though, and a function may have the name
of a generated label: only then do two labels of a listing read alike.
-/

namespace ThreeAddress

open Machine

/-! ### Names -/

namespace Labels

def name? (t : Labels) (i : LabelId) : Option LabelName := (t.get? i).map (·.name)

lemma name?_push (t : Labels) (name : LabelName) (i : LabelId) :
    (t.push name).name? i = if i = t.size then some name else t.name? i := by
  unfold name? get? push size
  rw [Array.getElem?_push]
  split <;> rfl

/-- A label keeps its name when it is placed. -/
lemma name?_modify (t : Labels) (label : LabelId) (site : Option InstrId) (i : LabelId) :
    Labels.name? { t with labels := t.labels.modify label fun info => { info with site } } i =
      t.name? i := by
  unfold name? get?
  rw [Array.getElem?_modify]
  split
  · rw [Option.map_map]
    rfl
  · rfl

end Labels

/-- A serial or a function tells which label it is. -/
structure Listing.Labelled (l : Listing) : Prop where
  serial : ∀ {i n}, l.labels.name? i = some (.synthetic n) → n < l.labels.nextSynthetic
  function : ∀ {i name}, l.labels.name? i = some (.function name) →
    ∃ f, l.functions.get? name = some f ∧ f.label = i
  distinct : ∀ {i j name}, l.labels.name? i = some name → l.labels.name? j = some name → i = j

namespace Listing.Labelled

variable {l l' : Listing}

lemma congr (h : l.Labelled) (hname : ∀ i, l'.labels.name? i = l.labels.name? i)
    (hserial : l'.labels.nextSynthetic = l.labels.nextSynthetic)
    (hfunctions : l'.functions = l.functions) : l'.Labelled where
  serial {i n} hi := by
    rw [hserial]
    exact h.serial (hname i ▸ hi)
  function {i name} hi := by
    rw [hfunctions]
    exact h.function (hname i ▸ hi)
  distinct {i j name} hi hj := h.distinct (hname i ▸ hi) (hname j ▸ hj)

/-- A new label has a name that no label has. -/
lemma distinct_push (h : l.Labelled) {name : LabelName} (hnew : ∀ i, l.labels.name? i ≠ some name)
    {i j : LabelId} {other : LabelName} (hi : (l.labels.push name).name? i = some other)
    (hj : (l.labels.push name).name? j = some other) : i = j := by
  rw [Labels.name?_push] at hi hj
  split at hi <;> split at hj
  · rename_i hi' hj'
    rw [hi', hj']
  · obtain rfl := Option.some.inj hi
    exact absurd hj (hnew j)
  · obtain rfl := Option.some.inj hj
    exact absurd hi (hnew i)
  · exact h.distinct hi hj

end Listing.Labelled

namespace Lowering

variable {s s' : Lowering}

lemma freshLabel_labelled (h : s.listing.Labelled) : s.freshLabel.1.listing.Labelled where
  serial {i n} hi := by
    change n < s.listing.labels.nextSynthetic + 1
    change (s.listing.labels.push _).name? i = _ at hi
    rw [Labels.name?_push] at hi
    split at hi
    · obtain rfl := LabelName.synthetic.inj (Option.some.inj hi)
      exact Nat.lt_succ_self _
    · exact Nat.lt_succ_of_lt (h.serial hi)
  function {i name} hi := by
    change (s.listing.labels.push _).name? i = _ at hi
    rw [Labels.name?_push] at hi
    split at hi
    · cases hi
    · exact h.function hi
  distinct := h.distinct_push fun i hi => lt_irrefl _ (h.serial hi)

lemma declareFunction_labelled {p : Source.Prototype} {define : Bool} {f : Signature}
    (h : s.listing.Labelled) (hd : s.declareFunction p define = .ok (s', f)) :
    s'.listing.Labelled := by
  obtain ⟨functions, labels, hdeclare, rfl⟩ := declareFunction_eq hd
  obtain ⟨hget, -, -, hcases⟩ := Functions.declare_spec hdeclare
  obtain ⟨rfl, old, hold, -, hlabel, -⟩ | ⟨rfl, hnone, hlabel⟩ := hcases
  · -- the function keeps the label that it has
    refine ⟨h.serial, fun {i name} hi => ?_, h.distinct⟩
    obtain ⟨g, hg, rfl⟩ := h.function hi
    simp only [hget]
    split
    · rename_i hname
      subst hname
      obtain rfl := Option.some.inj (hold.symm.trans hg)
      exact ⟨f, rfl, hlabel⟩
    · exact ⟨g, hg, rfl⟩
  · -- all labels of functions are in the table, and this function was not
    refine ⟨fun {i n} hi => ?_, fun {i name} hi => ?_, h.distinct_push fun i hi => ?_⟩
    · rw [Labels.name?_push] at hi
      split at hi
      · cases hi
      · exact h.serial hi
    · rw [Labels.name?_push] at hi
      simp only [hget]
      split at hi
      · rename_i hsize
        obtain rfl := LabelName.function.inj (Option.some.inj hi)
        exact ⟨f, if_pos rfl, hlabel.trans hsize.symm⟩
      · obtain ⟨g, hg, rfl⟩ := h.function hi
        have hne : name ≠ p.name := by
          rintro rfl
          rw [hnone] at hg
          cases hg
        exact ⟨g, by rw [if_neg hne, hg], rfl⟩
    · obtain ⟨g, hg, -⟩ := h.function hi
      rw [hnone] at hg
      cases hg

lemma ItemStep.labelled (h : ItemStep s s') (hs : s.listing.Labelled) : s'.listing.Labelled := by
  cases h with
  | step hstep =>
    cases hstep with
    | emit he =>
      obtain ⟨-, ty, -, hl, -⟩ := emit_eq he
      rw [hl]
      exact hs.congr (fun _ => rfl) rfl rfl
    | startAt hst =>
      obtain ⟨t, he, -, rfl⟩ := startAt_eq hst
      obtain ⟨-, ty, -, hl, -⟩ := emit_eq he
      rw [leaveBlock_listing] at hl
      rw [hl]
      exact hs.congr (fun i => Labels.name?_modify _ _ _ i) rfl rfl
    | freshLabel => exact freshLabel_labelled hs
    | _ => exact hs.congr (fun _ => rfl) rfl rfl
  | context => exact hs
  | declareFunction hd => exact declareFunction_labelled hs hd

lemma Extends.labelled (h : Extends s s') (hs : s.listing.Labelled) : s'.listing.Labelled := by
  induction h with
  | refl => exact hs
  | tail _ hstep ih => exact hstep.labelled ih

end Lowering

lemma Listing.ofProgram_labelled {p : Source.Program} {l : Listing}
    (h : Listing.ofProgram p = .ok l) : l.Labelled := by
  obtain ⟨s, hp, rfl⟩ := ofProgram_ok h
  refine (Lower.program_extends hp).labelled ⟨fun hi => ?_, fun hi => ?_, fun hi => ?_⟩ <;>
    simp [Lowering.start, Listing.empty, Labels.empty, Labels.name?, Labels.get?] at hi

lemma Listing.ofProgram_functionName {p : Source.Program} {l : Listing}
    (h : Listing.ofProgram p = .ok l) {name : String} {f : Signature}
    (hf : l.functions.get? name = some f) : l.labels.name? f.label = some (.function name) := by
  obtain ⟨s, hp, rfl⟩ := ofProgram_ok h
  obtain ⟨done, htabled⟩ := Lower.program_tabled hp
  obtain ⟨info, hinfo, hname⟩ := htabled.label hf
  rw [Labels.name?, hinfo, Option.map_some, hname]

/-! ### Texts -/

lemma Labels.textOf_eq {t : Labels} {i : LabelId} {name : LabelName} (h : t.name? i = some name) :
    t.textOf i = Label.text ⟨name, none⟩ := by
  obtain ⟨info, hinfo, rfl⟩ := Option.map_eq_some_iff.1 h
  rw [textOf, hinfo]
  rfl

namespace Listing

variable {p : Source.Program} {l : Listing} {i j : LabelId} {a b : LabelName}

/-- A generated label and a function that is named like it. -/
def Clash (l : Listing) (a b : LabelName) : Prop :=
  ∃ n < l.labels.nextSynthetic, a = .synthetic n ∧ b = .function ("L" ++ toString n)

lemma Labelled.eq_or_clash (h : l.Labelled) (hi : l.labels.name? i = some a)
    (hj : l.labels.name? j = some b) (htext : l.labels.textOf i = l.labels.textOf j) :
    i = j ∨ l.Clash a b ∨ l.Clash b a := by
  rw [Labels.textOf_eq hi, Labels.textOf_eq hj] at htext
  cases a with
  | synthetic m =>
    cases b with
    | synthetic n =>
      obtain rfl : m = n := Nat.repr_injective ((String.append_right_inj _).1 htext)
      exact .inl (h.distinct hi hj)
    | function name =>
      obtain rfl : "L" ++ toString m = name := htext
      exact .inr (.inl ⟨m, h.serial hi, rfl, rfl⟩)
  | function name =>
    cases b with
    | synthetic n =>
      obtain rfl : name = "L" ++ toString n := htext
      exact .inr (.inr ⟨n, h.serial hj, rfl, rfl⟩)
    | function name' =>
      obtain rfl : name = name' := htext
      exact .inl (h.distinct hi hj)

/-- No function is named like a generated label. -/
def Unmixed (l : Listing) : Prop :=
  ∀ name f n, l.functions.get? name = some f → n < l.labels.nextSynthetic →
    name ≠ "L" ++ toString n

lemma Labelled.not_clash (h : l.Labelled) (hl : l.Unmixed) (hj : l.labels.name? j = some b) :
    ¬l.Clash a b := by
  rintro ⟨n, hn, -, rfl⟩
  obtain ⟨f, hf, -⟩ := h.function hj
  exact hl _ f n hf hn rfl

lemma Labelled.textOf_inj (h : l.Labelled) (hl : l.Unmixed) (hi : l.labels.name? i = some a)
    (hj : l.labels.name? j = some b) (htext : l.labels.textOf i = l.labels.textOf j) : i = j := by
  obtain heq | hclash | hclash := h.eq_or_clash hi hj htext
  · exact heq
  · exact absurd hclash (h.not_clash hl hj)
  · exact absurd hclash (h.not_clash hl hi)

/-! ### Lines -/

/-- The line at position `q` is the one of a label with the text. -/
def LabelLine (l : Listing) (text : String) (q : Nat) : Prop :=
  ∃ x label, instrAt? l q = some x ∧ x.action = .label label ∧
    l.showAction x.action = text ++ ":"

/-- The label has a line. -/
def Places (l : Listing) (label : LabelId) : Prop :=
  ∃ q x, instrAt? l q = some x ∧ x.action = .label label

/-- A text names one label at most, and the lines that jump and call name the line of a label:
one line, or none if the function that is called is not defined. -/
structure NamesLines (l : Listing) : Prop where
  distinct : ∀ i j, l.Places i → l.Places j → l.labels.textOf i = l.labels.textOf j → i = j
  branch : ∀ q x label, instrAt? l q = some x → x.action.branchTarget = some label →
    ∃! target, l.LabelLine (l.labels.textOf label) target
  call : ∀ q x callee target, instrAt? l q = some x → x.action = .call callee target →
    ∃ name f, l.functions.get? name = some f ∧ f.label = callee ∧
      if f.defined then ∃! target, l.LabelLine (l.labels.textOf callee) target
      else ∀ target, ¬l.LabelLine (l.labels.textOf callee) target

lemma labelLine_iff {text : String} {q : Nat} : l.LabelLine text q ↔
    ∃ x label, instrAt? l q = some x ∧ x.action = .label label ∧ l.labels.textOf label = text := by
  constructor
  · rintro ⟨x, label, hx, hact, htext⟩
    rw [hact] at htext
    exact ⟨x, label, hx, hact, (String.append_left_inj _).1 htext⟩
  · rintro ⟨x, label, hx, hact, rfl⟩
    exact ⟨x, label, hx, hact, by rw [hact]; rfl⟩

lemma Places.name? (hs : l.Sectioned) (h : l.Places i) : ∃ name, l.labels.name? i = some name := by
  obtain ⟨q, x, hx, hact⟩ := h
  obtain ⟨k, -, hk⟩ := Option.bind_eq_some_iff.1 hx
  obtain ⟨info, hinfo, -⟩ := hs.label hk hact
  exact ⟨info.name, by rw [Labels.name?, hinfo]; rfl⟩

/-- A label stands at one position only. -/
lemma Coherent.label_position (h : l.Coherent) (hs : l.Sectioned) {q q' : Nat} {x x' : Instr}
    (hx : instrAt? l q = some x) (hact : x.action = .label i) (hx' : instrAt? l q' = some x')
    (hact' : x'.action = .label i) : q = q' := by
  obtain ⟨k, hk, hx⟩ := Option.bind_eq_some_iff.1 hx
  obtain ⟨k', hk', hx'⟩ := Option.bind_eq_some_iff.1 hx'
  obtain ⟨info, hinfo, hsite⟩ := hs.label hx hact
  obtain ⟨info', hinfo', hsite'⟩ := hs.label hx' hact'
  obtain rfl := Option.some.inj (hinfo.symm.trans hinfo')
  obtain rfl := Option.some.inj (hsite.symm.trans hsite')
  have hlt := (List.getElem?_eq_some_iff.1 hk).1
  exact (List.getElem?_inj hlt h.nodup).1 (hk.trans hk'.symm)

/-- The line of a label is the only one that its text names. -/
lemma Unmixed.existsUnique_line (hl : l.Unmixed) (h : l.Coherent) (hs : l.Sectioned)
    (hlab : l.Labelled) {block : BlockId} (hi : l.labelBlock? i = some block) :
    ∃! q, l.LabelLine (l.labels.textOf i) q := by
  obtain ⟨x, hx, hact, -⟩ := h.instrAt?_position hi
  refine ⟨position l i, labelLine_iff.2 ⟨x, i, hx, hact, rfl⟩, fun q hq => ?_⟩
  obtain ⟨y, j, hy, hact', htext⟩ := labelLine_iff.1 hq
  obtain ⟨a, ha⟩ := Places.name? hs ⟨_, x, hx, hact⟩
  obtain ⟨b, hb⟩ := Places.name? hs ⟨q, y, hy, hact'⟩
  obtain rfl := hlab.textOf_inj hl hb ha htext
  exact h.label_position hs hy hact' hx hact

/-- A function that is not defined has no line, and no other label has its text. -/
lemma Unmixed.no_line (hl : l.Unmixed) (hs : l.Sectioned) (hlab : l.Labelled)
    {name : String} {f : Signature} (hf : l.functions.get? name = some f)
    (hname : l.labels.name? f.label = some a) (hd : f.defined = false) (q : Nat) :
    ¬l.LabelLine (l.labels.textOf f.label) q := by
  intro hq
  obtain ⟨x, j, hx, hact, htext⟩ := labelLine_iff.1 hq
  obtain ⟨b, hb⟩ := Places.name? hs ⟨q, x, hx, hact⟩
  obtain rfl := hlab.textOf_inj hl hb hname htext
  obtain ⟨k, -, hk⟩ := Option.bind_eq_some_iff.1 hx
  obtain ⟨info, hinfo, hsite⟩ := hs.label hk hact
  have hblock : l.labelBlock? f.label = some x.block :=
    labelBlock?_eq_some.2 ⟨info, k, x, hinfo, hsite, hk, rfl⟩
  rw [(hs.defined hf).2 ⟨_, hblock⟩] at hd
  cases hd

/-- **Labels by their texts.** Two labels read alike only if one is generated and the other is that
of a function with its name. Where no function has the name of a generated label, the texts of the
labels in the dump identify them, and jumps and calls can be followed by these texts. -/
theorem ofProgram_labelTexts (h : ofProgram p = .ok l) :
    (∀ i j a b, l.labels.name? i = some a → l.labels.name? j = some b →
      l.labels.textOf i = l.labels.textOf j → i = j ∨ l.Clash a b ∨ l.Clash b a) ∧
    (l.Unmixed → l.NamesLines) := by
  have hlab := ofProgram_labelled h
  have hreach : l.Reachable := .lowered h
  have hc := hreach.coherent
  have hs := hreach.sectioned
  have htyped := ofProgram_wellTyped h
  refine ⟨fun i j a b hi hj htext => hlab.eq_or_clash hi hj htext, fun hl => ⟨?_, ?_, ?_⟩⟩
  · intro i j hi hj htext
    obtain ⟨a, ha⟩ := Places.name? hs hi
    obtain ⟨b, hb⟩ := Places.name? hs hj
    exact hlab.textOf_inj hl ha hb htext
  · intro q x label hx ht
    obtain ⟨k, -, hk⟩ := Option.bind_eq_some_iff.1 hx
    obtain ⟨-, block, hblock, -⟩ := hs.branch hk ht
    exact hl.existsUnique_line hc hs hlab hblock
  · intro q x callee target hx hact
    obtain ⟨k, -, hk⟩ := Option.bind_eq_some_iff.1 hx
    obtain ⟨name, f, hf, rfl⟩ : ∃ name f, l.functions.get? name = some f ∧ f.label = callee := by
      have hty := htyped.instrs hk
      rw [hact] at hty
      generalize x.ty = ty at hty
      cases hty with
      | call hf hlabel => exact ⟨_, _, hf, hlabel⟩
      | callInto hf hlabel => exact ⟨_, _, hf, hlabel⟩
    refine ⟨name, f, hf, rfl, ?_⟩
    split
    · rename_i hd
      obtain ⟨block, hblock⟩ := (hs.defined hf).1 hd
      exact hl.existsUnique_line hc hs hlab hblock
    · rename_i hd
      exact hl.no_line hs hlab hf (ofProgram_functionName h hf) (Bool.eq_false_iff.2 hd)

/-- A function with an empty loop. -/
def loopIn (name : String) : Source.Program :=
  .items [.function ⟨name, .void, []⟩ (.compound [.while (.int 1) (.compound [])])]

/-- The two generated labels of the loop are not called `L7`. -/
theorem ofProgram_labelTexts_loopInL7 : ∃ l, ofProgram (loopIn "L7") = .ok l ∧ l.NamesLines ∧
    l.text = "L7:\nL0:\njumpfalse 1 L1\njump L0\nL1:\nreturn\n" := by
  have hok : ((ofProgram (loopIn "L7")).toOption.map fun l =>
      decide (l.functions.entries.map (·.1) = ["L7"] ∧ l.labels.nextSynthetic = 2 ∧
        l.text = "L7:\nL0:\njumpfalse 1 L1\njump L0\nL1:\nreturn\n")) = some true := by
    decide +kernel
  obtain ⟨l, hl, hok⟩ := toOption_map_eq_some.1 hok
  obtain ⟨hnames, hserial, htext⟩ := of_decide_eq_true hok
  refine ⟨l, hl, (ofProgram_labelTexts hl).2 fun name f n hf hn => ?_, htext⟩
  obtain ⟨before, after, hentries, -⟩ := List.lookup_eq_some_iff.1 hf
  have hmem : name ∈ l.functions.entries.map (·.1) := by simp [hentries]
  rw [hnames] at hmem
  obtain rfl := List.mem_singleton.1 hmem
  rw [hserial] at hn
  interval_cases n <;> decide

/-- The loop starts at a label that is called `L0` like the function, and the jump back names the
lines of both. -/
theorem ofProgram_labelTexts_loopInL0 : ∃ l, ofProgram (loopIn "L0") = .ok l ∧
    l.text = "L0:\nL0:\njumpfalse 1 L1\njump L0\nL1:\nreturn\n" ∧
    (∃ i j, l.Places i ∧ l.Places j ∧ i ≠ j ∧ l.labels.textOf i = l.labels.textOf j) ∧
    ∃ x label, instrAt? l 3 = some x ∧ x.action = .jump label ∧
      l.LabelLine (l.labels.textOf label) 0 ∧ l.LabelLine (l.labels.textOf label) 1 := by
  have hok : ((ofProgram (loopIn "L0")).toOption.map fun l =>
      decide (l.text = "L0:\nL0:\njumpfalse 1 L1\njump L0\nL1:\nreturn\n" ∧
        (instrAt? l 0).map (·.action) = some (.label 0) ∧
        (instrAt? l 1).map (·.action) = some (.label 1) ∧
        (instrAt? l 3).map (·.action) = some (.jump 1) ∧
        l.labels.textOf 0 = l.labels.textOf 1)) = some true := by
    decide +kernel
  obtain ⟨l, hl, hok⟩ := toOption_map_eq_some.1 hok
  obtain ⟨htext, hfirst, hsecond, hjump, hsame⟩ := of_decide_eq_true hok
  obtain ⟨x, hx, hact⟩ := Option.map_eq_some_iff.1 hfirst
  obtain ⟨y, hy, hact'⟩ := Option.map_eq_some_iff.1 hsecond
  obtain ⟨z, hz, hact''⟩ := Option.map_eq_some_iff.1 hjump
  exact ⟨l, hl, htext, ⟨0, 1, ⟨0, x, hx, hact⟩, ⟨1, y, hy, hact'⟩, by decide, hsame⟩,
    z, 1, hz, hact'', labelLine_iff.2 ⟨x, 0, hx, hact, hsame⟩,
    labelLine_iff.2 ⟨y, 1, hy, hact', rfl⟩⟩

end Listing

end ThreeAddress
