import ThreeAddress.Proofs.Lowering.Functions

/-!
How the code of one function lies in the listing.

While a function is lowered, every instruction names only variables, arrays and instructions
that were made since its start; a label is placed once, where its site says; a branch goes to a
label that the function places itself; and what follows the end of a path is a label that some
earlier branch goes to.
-/

namespace ThreeAddress

/-- What an operand names was made after `lo` and is there in `hi`. -/
def Operand.Between (lo hi : Listing) : Operand → Prop
  | .var v => lo.vars.size ≤ v ∧ v < hi.vars.size
  | .array a => lo.arrays.size ≤ a ∧ a < hi.arrays.size
  | .elem a index => (lo.arrays.size ≤ a ∧ a < hi.arrays.size) ∧ index.Between lo hi
  | .instr i => lo.arena.size ≤ i ∧ i < hi.arena.size
  | _ => True

def Action.Between (lo hi : Listing) (a : Action) : Prop :=
  (∀ o ∈ a.args, o.Between lo hi) ∧ ∀ o ∈ a.target, o.Between lo hi

def Symbol.Between (lo hi : Listing) : Symbol → Prop
  | .var v => (Operand.var v).Between lo hi
  | .array a => (Operand.array a).Between lo hi

/-- The tables of one listing are no larger than those of the other. -/
structure Listing.Fewer (l l' : Listing) : Prop where
  vars : l.vars.size ≤ l'.vars.size
  arrays : l.arrays.size ≤ l'.arrays.size
  arena : l.arena.size ≤ l'.arena.size

lemma Listing.Fewer.refl (l : Listing) : l.Fewer l := ⟨le_rfl, le_rfl, le_rfl⟩

lemma Listing.Fewer.trans {l l' l'' : Listing} (h : l.Fewer l') (h' : l'.Fewer l'') :
    l.Fewer l'' :=
  ⟨h.vars.trans h'.vars, h.arrays.trans h'.arrays, h.arena.trans h'.arena⟩

section

variable {lo hi hi' : Listing} (h : hi.Fewer hi')

include h

lemma Operand.Between.mono {o : Operand} (ho : o.Between lo hi) : o.Between lo hi' := by
  induction o with
  | var v => exact ⟨ho.1, ho.2.trans_le h.vars⟩
  | array a => exact ⟨ho.1, ho.2.trans_le h.arrays⟩
  | elem a index ih => exact ⟨⟨ho.1.1, ho.1.2.trans_le h.arrays⟩, ih ho.2⟩
  | instr i => exact ⟨ho.1, ho.2.trans_le h.arena⟩
  | _ => trivial

lemma Action.Between.mono {a : Action} (ha : a.Between lo hi) : a.Between lo hi' :=
  ⟨fun o ho => (ha.1 o ho).mono h, fun o ho => (ha.2 o ho).mono h⟩

lemma Symbol.Between.mono {symbol : Symbol} (hs : symbol.Between lo hi) :
    symbol.Between lo hi' := by
  cases symbol with
  | var v => exact Operand.Between.mono h hs
  | array a => exact Operand.Between.mono h hs

end

namespace Lower

open Lowering Source

/-- What is known of an instruction of the function, at `i`. Labels in `pending` are still to be
placed. -/
structure Sited (base : Listing) (pending : Set LabelId) (s : Lowering) (i : Nat)
    (a : Action) : Prop where
  between : a.Between base s.listing
  label : ∀ {label}, a = .label label → Placed s label i
  target : ∀ {label}, a.branchTarget = some label →
    (∃ info, s.listing.labels.get? label = some info ∧ info.isFunction = false) ∧
      (label ∈ pending ∨ ∃ site : Nat, base.arena.size ≤ site ∧ Placed s label site)
  later : ∀ {cond label} {site : Nat}, a = .jumpFalse cond label → Placed s label site → i < site
  param : ∀ {v} {j : Nat}, a = .param v → base.arena.size ≤ j → j < i →
    ∃ x w, s.listing.instr? j = some x ∧ x.action = .param w

/-- Some instruction of the function before `n` goes to the label. -/
def Targeted (base : Listing) (l : Listing) (n : Nat) (label : LabelId) : Prop :=
  ∃ (q : Nat) (x : Instr), base.arena.size ≤ q ∧ q < n ∧ l.instr? q = some x ∧
    x.action.branchTarget = some label

/-- The code of a function so far; its first instruction has the number that is next in
`base`. -/
structure Laid (base : Listing) (pending : Set LabelId) (s : Lowering) : Prop where
  fewer : base.Fewer s.listing
  plain : s.listing.vars.Plain
  bound : ∀ e ∈ bindings s.scopes, e.2.Between base s.listing
  code : ∀ {i : Nat} {x}, base.arena.size ≤ i → s.listing.instr? i = some x →
    Sited base pending s i x.action
  reached : ∀ {i : Nat} {x y}, base.arena.size ≤ i → s.listing.instr? i = some x →
    s.listing.instr? (i + 1) = some y → x.action.operator.endsPath = true →
    ∃ label, y.action = .label label ∧ Targeted base s.listing (i + 1) label
  flag : ∀ {i : Nat} {x}, base.arena.size ≤ i + 1 → i + 1 = s.listing.arena.size →
    s.listing.instr? i = some x → s.unreachable = x.action.operator.endsPath

variable {base : Listing} {P Q : Set LabelId} {s s' : Lowering}

lemma Laid.mono (h : Laid base P s) (hsub : P ⊆ Q) : Laid base Q s where
  fewer := h.fewer
  plain := h.plain
  bound := h.bound
  reached := h.reached
  flag := h.flag
  code hi hx := by
    have hc := h.code hi hx
    refine ⟨hc.between, hc.label, fun ht => ?_, hc.later, hc.param⟩
    obtain ⟨hname, hp | hplaced⟩ := hc.target ht
    · exact ⟨hname, .inl (hsub hp)⟩
    · exact ⟨hname, .inr hplaced⟩

/-! ### Elementary steps -/

lemma instr?_lt {l : Listing} {i : Nat} {x : Instr} (h : l.instr? i = some x) :
    i < l.arena.size :=
  Listing.instr?_isSome_iff.1 (by rw [h]; rfl)

/-- An instruction was there, or it is the one that was emitted. -/
lemma emitted_cases {action : Action} (he : Emitted s action s') (hk : Kept s s') {i : Nat}
    {x : Instr} (hx : s'.listing.instr? i = some x) :
    (i < s.listing.arena.size ∧ s.listing.instr? i = some x) ∨
      (i = s.listing.arena.size ∧ x.action = action) := by
  have hlt := instr?_lt hx
  rw [he.size] at hlt
  by_cases hi : i < s.listing.arena.size
  · exact .inl ⟨hi, by rw [← hk.instr i hi, hx]⟩
  · obtain rfl : i = s.listing.arena.size := by omega
    obtain ⟨y, hy, hact⟩ := he.instr
    exact .inr ⟨rfl, by rw [Option.some.inj (hx.symm.trans hy), hact]⟩

lemma Sited.param_kept {i j : Nat} {a : Action} {v : VarId} (h : Sited base P s i a)
    (hk : Kept s s') (hi : i < s.listing.arena.size) (ha : a = .param v)
    (hj : base.arena.size ≤ j) (hlt : j < i) :
    ∃ x w, s'.listing.instr? j = some x ∧ x.action = .param w := by
  rw [hk.instr j (hlt.trans hi)]
  exact h.param ha hj hlt

lemma emitted_fewer {action : Action} (he : Emitted s action s') : s.listing.Fewer s'.listing :=
  ⟨by rw [he.vars], by rw [he.arrays], by rw [he.size]; exact Nat.le_succ _⟩

lemma Targeted.kept {n m : Nat} {label : LabelId} (h : Targeted base s.listing n label)
    (hk : Kept s s') (hle : n ≤ m) : Targeted base s'.listing m label := by
  obtain ⟨q, x, hq, hlt, hx, ht⟩ := h
  exact ⟨q, x, hq, hlt.trans_le hle, by rw [hk.instr q (instr?_lt hx), hx], ht⟩

/-- One more instruction of the function. What comes after the end of a path is a label that
some branch goes to. -/
lemma Laid.emitted {action : Action} (h : Laid base P s) (he : Emitted s action s')
    (hk : Kept s s')
    (hold : ∀ {i : Nat} {x}, base.arena.size ≤ i → s.listing.instr? i = some x →
      Sited base Q s' i x.action)
    (hnew : Sited base Q s' s.listing.arena.size action)
    (hpath : s.unreachable = true →
      ∃ label, action = .label label ∧ Targeted base s.listing s.listing.arena.size label) :
    Laid base Q s' where
  fewer := h.fewer.trans (emitted_fewer he)
  plain := he.vars ▸ h.plain
  bound e hb := (h.bound e (he.scopes ▸ hb)).mono (emitted_fewer he)
  code {i x} hi hx := by
    obtain ⟨-, hx⟩ | ⟨rfl, hact⟩ := emitted_cases he hk hx
    · exact hold hi hx
    · exact hact ▸ hnew
  reached {i x y} hi hx hy hends := by
    obtain ⟨-, hy⟩ | ⟨hi', hact⟩ := emitted_cases he hk hy
    · have hx : s.listing.instr? i = some x := by
        rw [← hk.instr i ((Nat.lt_succ_self i).trans (instr?_lt hy)), hx]
      obtain ⟨label, hlabel, ht⟩ := h.reached hi hx hy hends
      exact ⟨label, hlabel, ht.kept hk le_rfl⟩
    · have hx : s.listing.instr? i = some x := by rw [← hk.instr i (by omega), hx]
      obtain ⟨label, rfl, ht⟩ := hpath ((h.flag (Nat.le_succ_of_le hi) hi' hx).trans hends)
      exact ⟨label, hact, ht.kept hk hi'.ge⟩
  flag {i x} hi hsize hx := by
    obtain ⟨hlt, -⟩ | ⟨-, hact⟩ := emitted_cases he hk hx
    · have := he.size
      omega
    · rw [he.unreachable, hact]

/-- An instruction that is not a label, on a path that control reaches. -/
lemma Laid.emit {action : Action} {id : InstrId} (h : Laid base P s)
    (he : s.emit action = .ok (s', id)) (hr : s.unreachable = false)
    (hb : action.Between base s.listing) (hlabel : action.definedLabel = none)
    (htarget : ∀ {label}, action.branchTarget = some label →
      (∃ info, s.listing.labels.get? label = some info ∧ info.isFunction = false) ∧
        (label ∈ P ∨ ∃ site : Nat, base.arena.size ≤ site ∧ Placed s label site))
    (hlater : ∀ {cond label}, action = .jumpFalse cond label → Unplaced s label)
    (hparam : ∀ {v} {j : Nat}, action = .param v → base.arena.size ≤ j →
      j < s.listing.arena.size → ∃ x w, s.listing.instr? j = some x ∧ x.action = .param w) :
    Laid base P s' := by
  obtain ⟨hemit, hlabels, -⟩ := emit_emitted he
  have hkept := emit_kept he
  have hplaced (label : LabelId) (site : InstrId) : Placed s' label site ↔ Placed s label site :=
    placed_congr (by rw [hlabels]) site
  refine h.emitted hemit hkept (fun hi hx => ?_)
    ⟨hb.mono (emitted_fewer hemit), ?_, ?_, ?_, ?_⟩ ?_
  · have hc := h.code hi hx
    refine ⟨hc.between.mono (emitted_fewer hemit), fun hl => (hplaced _ _).2 (hc.label hl), ?_, ?_,
      fun hp hj hlt => hc.param_kept hkept (instr?_lt hx) hp hj hlt⟩
    · intro label ht
      obtain ⟨hname, hp | ⟨site, hsite, hs⟩⟩ := hc.target ht
      · exact ⟨hlabels ▸ hname, .inl hp⟩
      · exact ⟨hlabels ▸ hname, .inr ⟨site, hsite, (hplaced _ _).2 hs⟩⟩
    · exact fun hj hs => hc.later hj ((hplaced _ _).1 hs)
  · rintro label rfl
    simp [Action.definedLabel] at hlabel
  · intro label ht
    obtain ⟨hname, hp | ⟨site, hsite, hs⟩⟩ := htarget ht
    · exact ⟨hlabels ▸ hname, .inl hp⟩
    · exact ⟨hlabels ▸ hname, .inr ⟨site, hsite, (hplaced _ _).2 hs⟩⟩
  · intro cond label site hj hs
    exact absurd ((hplaced _ _).1 hs) (hlater hj site)
  · intro v j hp hj hlt
    obtain ⟨x, w, hx, hact⟩ := hparam hp hj hlt
    exact ⟨x, w, by rw [hkept.instr j hlt, hx], hact⟩
  · intro hr'
    rw [hr] at hr'
    cases hr'

/-- A label is placed, where control comes from before or where a branch goes. -/
lemma Laid.startAt {label : LabelId} (h : Laid base (insert label P) s)
    (hs : s.startAt label = .ok s') (hu : Unplaced s label)
    (hr : s.unreachable = true → Targeted base s.listing s.listing.arena.size label) :
    Laid base P s' := by
  obtain ⟨hemit, hinfo, hother⟩ := startAt_emitted hs
  have hkept := startAt_kept hs
  have hnew : Placed s' label s.listing.arena.size := hinfo
  have hplaced {other : LabelId} (hne : other ≠ label) (site : InstrId) :
      Placed s' other site ↔ Placed s other site :=
    placed_congr (hother other hne) site
  have hstays {other : LabelId} {site : InstrId} (hp : Placed s other site) :
      Placed s' other site := by
    refine (hplaced ?_ site).2 hp
    rintro rfl
    exact hu site hp
  refine h.emitted hemit hkept (fun {i x} hi hx => ?_) ⟨?_, ?_, ?_, ?_, ?_⟩
    fun hr' => ⟨label, rfl, hr hr'⟩
  · have hc := h.code hi hx
    refine ⟨hc.between.mono (emitted_fewer hemit), fun hl => hstays (hc.label hl), ?_, ?_,
      fun hp hj hlt => hc.param_kept hkept (instr?_lt hx) hp hj hlt⟩
    · intro other ht
      obtain ⟨⟨info, hget, hname⟩, hp⟩ := hc.target ht
      obtain ⟨info', hget', hname'⟩ := hkept.names hget
      refine ⟨⟨info', hget', by rw [Label.isFunction, hname']; exact hname⟩, ?_⟩
      obtain hp | ⟨site, hsite, hs'⟩ := hp
      · obtain rfl | hp := Set.mem_insert_iff.1 hp
        · exact .inr ⟨_, h.fewer.arena, hnew⟩
        · exact .inl hp
      · exact .inr ⟨site, hsite, hstays hs'⟩
    · intro cond other site hj hs'
      by_cases hne : other = label
      · subst hne
        obtain ⟨a, ha, hsite⟩ := hs'
        obtain ⟨b, hb, hsite'⟩ := hnew
        obtain rfl : a = b := Option.some.inj (ha.symm.trans hb)
        obtain rfl : s.listing.arena.size = site := Option.some.inj (hsite'.symm.trans hsite)
        exact instr?_lt hx
      · exact hc.later hj ((hplaced hne site).1 hs')
  · exact ⟨by simp [Action.args, Action.arg1, Action.arg2, Operand.Between],
      by simp [Action.target]⟩
  · rintro other hl
    obtain rfl : label = other := by simpa using hl
    exact hnew
  · intro other ht
    simp [Action.branchTarget] at ht
  · intro cond other site hj
    cases hj
  · intro v j hp
    cases hp

/-- Tables grow, and the code stays. -/
lemma Laid.of_tables (h : Laid base P s) (harena : s'.listing.arena = s.listing.arena)
    (hfewer : s.listing.Fewer s'.listing) (hplain : s'.listing.vars.Plain)
    (hbound : ∀ e ∈ bindings s'.scopes, e.2.Between base s'.listing)
    (hplaced : ∀ label site, Placed s' label site ↔ Placed s label site)
    (hnames : ∀ {label info}, s.listing.labels.get? label = some info →
      s'.listing.labels.get? label = some info)
    (hr : s'.unreachable = s.unreachable) : Laid base P s' := by
  have hinstr : s'.listing.instr? = s.listing.instr? := by
    funext i
    simp [Listing.instr?, harena]
  refine ⟨h.fewer.trans hfewer, hplain, hbound, fun hi hx => ?_, fun hi hx hy hends => ?_,
    fun hi hsize hx => ?_⟩
  · have hc := h.code hi (hinstr ▸ hx)
    refine ⟨hc.between.mono hfewer, fun hl => (hplaced _ _).2 (hc.label hl), ?_, ?_,
      by rw [hinstr]; exact hc.param⟩
    · intro label ht
      obtain ⟨⟨info, hget, hname⟩, hp | ⟨site, hsite, hs⟩⟩ := hc.target ht
      · exact ⟨⟨info, hnames hget, hname⟩, .inl hp⟩
      · exact ⟨⟨info, hnames hget, hname⟩, .inr ⟨site, hsite, (hplaced _ _).2 hs⟩⟩
    · exact fun hj hs => hc.later hj ((hplaced _ _).1 hs)
  · obtain ⟨label, hlabel, q, z, hq, hlt, hz, ht⟩ :=
      h.reached hi (hinstr ▸ hx) (hinstr ▸ hy) hends
    exact ⟨label, hlabel, q, z, hq, hlt, by rw [hinstr]; exact hz, ht⟩
  · rw [hr]
    exact h.flag hi (harena ▸ hsize) (hinstr ▸ hx)

lemma Laid.freshLabel {label : LabelId} (h : Laid base P s) (hl : s.freshLabel = (s', label)) :
    Laid base P s' ∧
      ∃ info, s'.listing.labels.get? label = some info ∧ info.isFunction = false := by
  have hs : s' = s.freshLabel.1 := by rw [hl]
  have hlabel : label = s.listing.labels.size := (freshLabel_reaches (k := 0) hl).2
  subst hs hlabel
  refine ⟨h.of_tables rfl ⟨le_rfl, le_rfl, le_rfl⟩ h.plain h.bound (fun label site => ?_)
    (fun hget => get?_push_of_some hget) rfl,
    ⟨⟨.synthetic s.listing.labels.nextSynthetic, none⟩, ?_, rfl⟩⟩
  · exact ⟨fun ⟨info, hinfo, hsite⟩ => ⟨info, get?_push hinfo hsite, hsite⟩,
      fun ⟨info, hinfo, hsite⟩ => ⟨info, get?_push_of_some hinfo, hsite⟩⟩
  · simp [Lowering.freshLabel, Labels.synthetic, Labels.push, Labels.get?, Labels.size]

lemma Laid.freshTemporary {ty : Ty} {v : VarId} (h : Laid base P s)
    (ht : s.freshTemporary ty = (s', v)) :
    Laid base P s' ∧ (Operand.var v).Between base s'.listing ∧ s.listing.Fewer s'.listing := by
  have hs : s' = (s.freshTemporary ty).1 := by rw [ht]
  have hv : v = s.listing.vars.size := congrArg Prod.snd ht.symm
  subst hs hv
  have hsize : (s.freshTemporary ty).1.listing.vars.size = s.listing.vars.size + 1 :=
    Variables.size_temporary _ _ _
  have hfewer : s.listing.Fewer (s.freshTemporary ty).1.listing :=
    ⟨by rw [hsize]; exact Nat.le_succ _, le_rfl, le_rfl⟩
  refine ⟨h.of_tables rfl hfewer (h.plain.temporary ty .none)
    (fun e he => (h.bound e he).mono hfewer) (fun _ _ => Iff.rfl) (fun hget => hget) rfl,
    ?_, hfewer⟩
  exact ⟨h.fewer.vars, by rw [hsize]; exact Nat.lt_succ_self _⟩

lemma Laid.freshVariable {name : String} {ty : Ty} {scope : Scope} {marks : Marks} {v : VarId}
    (h : Laid base P s) (ht : s.freshVariable name ty scope marks = (s', v)) :
    Laid base P s' ∧ (Operand.var v).Between base s'.listing ∧ s.listing.Fewer s'.listing := by
  have hs : s' = (s.freshVariable name ty scope marks).1 := by rw [ht]
  have hv : v = s.listing.vars.size := congrArg Prod.snd ht.symm
  subst hs hv
  have hsize : (s.freshVariable name ty scope marks).1.listing.vars.size =
      s.listing.vars.size + 1 :=
    Variables.size_declare _ _ _ _ _
  have hfewer : s.listing.Fewer (s.freshVariable name ty scope marks).1.listing :=
    ⟨by rw [hsize]; exact Nat.le_succ _, le_rfl, le_rfl⟩
  refine ⟨h.of_tables rfl hfewer (h.plain.declare name ty scope marks)
    (fun e he => (h.bound e he).mono hfewer) (fun _ _ => Iff.rfl) (fun hget => hget) rfl,
    ?_, hfewer⟩
  exact ⟨h.fewer.vars, by rw [hsize]; exact Nat.lt_succ_self _⟩

lemma Laid.freshArray {decl : ArrayDecl} {a : ArrayId} (h : Laid base P s)
    (ht : s.freshArray decl = (s', a)) :
    Laid base P s' ∧ (Operand.array a).Between base s'.listing := by
  have hs : s' = (s.freshArray decl).1 := by rw [ht]
  have ha : a = s.listing.arrays.size := congrArg Prod.snd ht.symm
  subst hs ha
  have hsize : (s.freshArray decl).1.listing.arrays.size = s.listing.arrays.size + 1 := by
    simp [Lowering.freshArray, Arrays.declare, Arrays.size]
  have hfewer : s.listing.Fewer (s.freshArray decl).1.listing :=
    ⟨le_rfl, by rw [hsize]; exact Nat.le_succ _, le_rfl⟩
  refine ⟨h.of_tables rfl hfewer h.plain (fun e he => (h.bound e he).mono hfewer)
    (fun _ _ => Iff.rfl) (fun hget => hget) rfl, ?_⟩
  exact ⟨h.fewer.arrays, by rw [hsize]; exact Nat.lt_succ_self _⟩

lemma Laid.scopes {scopes : Scopes} (h : Laid base P s)
    (hbound : ∀ e ∈ bindings scopes, e.2.Between base s.listing) :
    Laid base P { s with scopes } :=
  h.of_tables rfl (.refl _) h.plain hbound (fun _ _ => Iff.rfl) (fun hget => hget) rfl

lemma Laid.bind {name : String} {symbol : Symbol} {scopes : Scopes} (h : Laid base P s)
    (hb : s.scopes.bind name symbol = .ok scopes) (hs : symbol.Between base s.listing) :
    Laid base P { s with scopes } := by
  refine h.scopes fun e he => ?_
  rw [(bind_spec hb).1] at he
  obtain rfl | he := List.mem_cons.1 he
  · exact hs
  · exact h.bound e he

lemma Laid.popScope (h : Laid base P s) : Laid base P { s with scopes := s.scopes.pop } := by
  refine h.scopes fun e he => h.bound e ?_
  unfold bindings Scopes.pop at *
  cases hf : s.scopes.frames with
  | nil => simp [hf] at he
  | cons frame outer =>
    rw [hf, List.tail_cons] at he
    rw [List.flatMap_cons]
    exact List.mem_append_right _ he

/-- A name stands for something that the function has made. -/
lemma Laid.lookup {name : String} {symbol : Symbol} (h : Laid base P s)
    (hl : s.scopes.lookup s.listing.vars name = some symbol) : symbol.Between base s.listing := by
  unfold Scopes.lookup at hl
  rw [binding_eq] at hl
  obtain ⟨found, hfound, rfl⟩ := Option.map_eq_some_iff.1 hl
  have hmem : (name, found) ∈ bindings s.scopes := by
    generalize bindings s.scopes = names at hfound
    induction names with
    | nil => simp at hfound
    | cons e rest ih =>
      obtain ⟨n, a⟩ := e
      rw [List.lookup_cons] at hfound
      cases hn : name == n with
      | true =>
        obtain rfl : name = n := by simpa using hn
        obtain rfl : a = found := by simpa [hn] using hfound
        exact List.mem_cons_self
      | false => exact List.mem_cons_of_mem _ (ih (by simpa [hn] using hfound))
  have hbound := h.bound _ hmem
  cases found with
  | var v => simpa only [h.plain.current] using hbound
  | array a => exact hbound

/-! ### Expressions -/

/-- The instructions that only compute: no labels, no branches and no parameters. -/
def Straight (a : Action) : Prop :=
  a.definedLabel = none ∧ a.branchTarget = none ∧ ∀ v, a ≠ .param v

lemma Laid.emitStraight {action : Action} {id : InstrId} (h : Laid base P s)
    (he : s.emit action = .ok (s', id)) (hr : s.unreachable = false)
    (hb : action.Between base s.listing) (hs : Straight action) : Laid base P s' := by
  obtain ⟨hlabel, hbranch, hparam⟩ := hs
  refine h.emit he hr hb hlabel ?_ ?_ ?_
  · intro label ht
    rw [hbranch] at ht
    cases ht
  · rintro cond label rfl
    cases hbranch
  · intro v j hp
    exact absurd hp (hparam v)

lemma computes_fewer (h : Computes s s') : s.listing.Fewer s'.listing :=
  ⟨h.grows.vars, by rw [h.unmoved.arrays], h.grows.arena⟩

lemma destination_laid {dest : Option VarId} {ty : Ty} {v : VarId} (h : Laid base P s)
    (hdest : ∀ d ∈ dest, (Operand.var d).Between base s.listing)
    (hd : destination dest ty s = .ok (v, s')) :
    Laid base P s' ∧ (Operand.var v).Between base s'.listing ∧ s.listing.Fewer s'.listing := by
  obtain ⟨rfl, rfl⟩ | ⟨-, ht⟩ := destination_ok hd
  · exact ⟨h, hdest v rfl, .refl _⟩
  · exact h.freshTemporary ht

lemma destination_reached {dest : Option VarId} {ty : Ty} {v : VarId}
    (hd : destination dest ty s = .ok (v, s')) : s'.unreachable = s.unreachable := by
  obtain ⟨-, rfl⟩ | ⟨-, ht⟩ := destination_ok hd
  · rfl
  · rw [show s' = (s.freshTemporary ty).1 by rw [ht]]
    rfl

lemma index_laid {name : String} {value : Lowered} {o : Operand} (h : Laid base P s)
    (hr : s.unreachable = false) (hv : value.operand.Between base s.listing)
    (hi : index name value s = .ok (o, s')) : Laid base P s' ∧ o.Between base s'.listing := by
  obtain ⟨-, hi⟩ := index_ok hi
  split at hi
  · obtain ⟨rfl, rfl⟩ := hi
    exact ⟨h, hv⟩
  · obtain ⟨t, v, id, ht, he, rfl⟩ := hi
    obtain ⟨h₁, hvar, hfewer⟩ := h.freshTemporary ht
    have hrt : t.unreachable = false := by
      rw [show t = (s.freshTemporary .int).1 by rw [ht]]
      exact hr
    have hb : (Action.copy value.operand (.var v)).Between base t.listing :=
      ⟨by simpa [Action.args, Action.arg1, Action.arg2] using hv.mono hfewer,
        by simpa [Action.target, Place.operand] using hvar⟩
    exact ⟨h₁.emitStraight he hrt hb ⟨rfl, rfl, by simp⟩,
      hvar.mono (emitted_fewer (emit_emitted he).1)⟩

lemma pushes_laid {args : List Operand} (hp : Pushes args s s') (h : Laid base P s)
    (hr : s.unreachable = false) (hargs : ∀ o ∈ args, o.Between base s.listing) :
    Laid base P s' ∧ s'.unreachable = false ∧ s.listing.Fewer s'.listing := by
  induction hp with
  | nil => exact ⟨h, hr, .refl _⟩
  | @cons o rest s t s' id he _ ih =>
    have hemit := (emit_emitted he).1
    have hb : (Action.push o).Between base s.listing :=
      ⟨by simpa [Action.args, Action.arg1, Action.arg2] using hargs o (by simp),
        by simp [Action.target]⟩
    obtain ⟨h₁, hr₁, hfewer⟩ := ih (h.emitStraight he hr hb ⟨rfl, rfl, by simp⟩) hemit.unreachable
      fun o' ho' => (hargs o' (by simp [ho'])).mono (emitted_fewer hemit)
    exact ⟨h₁, hr₁, (emitted_fewer hemit).trans hfewer⟩

lemma call_laid {f : Signature} {args : List Operand} {dest : Option VarId} {r : Lowered}
    (h : Laid base P s) (hr : s.unreachable = false)
    (hdest : ∀ d ∈ dest, (Operand.var d).Between base s.listing)
    (hargs : ∀ o ∈ args, o.Between base s.listing) (hc : call f args dest s = .ok (r, s')) :
    Laid base P s' ∧ r.operand.Between base s'.listing := by
  obtain ⟨t, hpush, hc⟩ := call_ok hc
  obtain ⟨h₁, hr₁, hfewer⟩ := pushes_laid hpush h hr hargs
  split at hc
  · obtain ⟨v, t', id, hd, he, rfl⟩ := hc
    obtain ⟨h₂, hv, -⟩ := destination_laid h₁ (fun d hd => (hdest d hd).mono hfewer) hd
    have hb : (Action.call f.label (some v)).Between base t'.listing :=
      ⟨by simp [Action.args, Action.arg1, Action.arg2, Operand.Between],
        by simpa [Action.target] using hv⟩
    exact ⟨h₂.emitStraight he ((destination_reached hd).trans hr₁) hb ⟨rfl, rfl, by simp⟩,
      hv.mono (emitted_fewer (emit_emitted he).1)⟩
  · obtain ⟨id, he, rfl⟩ := hc
    obtain ⟨hemit, -, rfl⟩ := emit_emitted he
    have hb : (Action.call f.label none).Between base t.listing :=
      ⟨by simp [Action.args, Action.arg1, Action.arg2, Operand.Between], by simp [Action.target]⟩
    exact ⟨h₁.emitStraight he hr₁ hb ⟨rfl, rfl, by simp⟩, h₁.fewer.arena,
      by rw [hemit.size]; exact Nat.lt_succ_self _⟩

lemma assign_laid {place : Expr} {target : Target} {value r : Lowered} (h : Laid base P s)
    (hr : s.unreachable = false) (hv : value.operand.Between base s.listing)
    (ht : target.place.operand.Between base s.listing)
    (ha : assign place target value s = .ok (r, s')) :
    Laid base P s' ∧ r.operand.Between base s'.listing := by
  obtain ⟨-, id, he, rfl⟩ := assign_ok ha
  have hb : (Action.copy value.operand target.place).Between base s.listing :=
    ⟨by simpa [Action.args, Action.arg1, Action.arg2] using hv,
      by simpa [Action.target] using ht⟩
  exact ⟨h.emitStraight he hr hb ⟨rfl, rfl, by simp⟩, ht.mono (emitted_fewer (emit_emitted he).1)⟩

lemma binary_laid {op : BinaryOp} {lhs rhs : Lowered} {dest : Option VarId} {r : Lowered}
    (h : Laid base P s) (hr : s.unreachable = false)
    (hdest : ∀ d ∈ dest, (Operand.var d).Between base s.listing)
    (hl : lhs.operand.Between base s.listing) (hrhs : rhs.operand.Between base s.listing)
    (hb : binary op lhs rhs dest s = .ok (r, s')) :
    Laid base P s' ∧ r.operand.Between base s'.listing := by
  obtain ⟨-, -, v, t, id, hd, he, rfl⟩ := binary_ok hb
  obtain ⟨h₁, hv, hfewer⟩ := destination_laid h hdest hd
  have hb : (Action.compute op lhs.operand rhs.operand v).Between base t.listing :=
    ⟨by simpa [Action.args, Action.arg1, Action.arg2] using ⟨hl.mono hfewer, hrhs.mono hfewer⟩,
      by simpa [Action.target] using hv⟩
  exact ⟨h₁.emitStraight he ((destination_reached hd).trans hr) hb ⟨rfl, rfl, by simp⟩,
    hv.mono (emitted_fewer (emit_emitted he).1)⟩

lemma unary_laid {op : UnaryOp} {value : Lowered} {dest : Option VarId} {r : Lowered}
    (h : Laid base P s) (hr : s.unreachable = false)
    (hdest : ∀ d ∈ dest, (Operand.var d).Between base s.listing)
    (hv : value.operand.Between base s.listing) (hu : unary op value dest s = .ok (r, s')) :
    Laid base P s' ∧ r.operand.Between base s'.listing := by
  obtain ⟨-, v, t, id, hd, he, rfl⟩ := unary_ok hu
  obtain ⟨h₁, hvar, hfewer⟩ := destination_laid h hdest hd
  have hb : (Action.apply op value.operand v).Between base t.listing :=
    ⟨by simpa [Action.args, Action.arg1, Action.arg2] using hv.mono hfewer,
      by simpa [Action.target] using hvar⟩
  exact ⟨h₁.emitStraight he ((destination_reached hd).trans hr) hb ⟨rfl, rfl, by simp⟩,
    hvar.mono (emitted_fewer (emit_emitted he).1)⟩

mutual

lemma expr_laid (e : Expr) {dest : Option VarId} {s s' : Lowering} {r : Lowered}
    (h : Laid base P s) (hr : s.unreachable = false)
    (hdest : ∀ d ∈ dest, (Operand.var d).Between base s.listing)
    (he : expr dest e s = .ok (r, s')) :
    Laid base P s' ∧ r.operand.Between base s'.listing := by
  match e with
  | .int value | .float value =>
    obtain ⟨rfl, rfl⟩ := pure_ok.1 he
    exact ⟨h, trivial⟩
  | .var name =>
    obtain ⟨v, ty, hl, -, rfl, rfl⟩ := scalar_ok he
    exact ⟨h, h.lookup hl⟩
  | .elem name inner =>
    obtain ⟨a, v, t, o, ty, hl, hv, hi, -, rfl⟩ := expr_elem_ok he
    obtain ⟨hcomputes, hscope⟩ := expr_computes inner (by simp) hv
    obtain ⟨h₁, hb⟩ := expr_laid inner h hr (by simp) hv
    obtain ⟨h₂, ho⟩ := index_laid h₁ (hcomputes.unmoved.reached hr) hb hi
    have hfewer := computes_fewer (hcomputes.trans (index_computes hscope hi).1)
    exact ⟨h₂, (h.lookup hl).mono hfewer, ho⟩
  | .paren inner => exact expr_laid inner h hr hdest (expr_paren ▸ he)
  | .assign lhs rhs =>
    obtain ⟨v, t, target, t', he, hp, ha⟩ := expr_assign_ok he
    obtain ⟨h₁, hv⟩ := expr_laid rhs h hr (by simp) he
    have hrt := (expr_computes rhs (by simp) he).1.unmoved.reached hr
    obtain ⟨h₂, ht⟩ := place_laid lhs h₁ hrt hp
    have hcomputes := (place_computes lhs hp).1
    exact assign_laid h₂ (hcomputes.unmoved.reached hrt) (hv.mono (computes_fewer hcomputes)) ht ha
  | .binary op lhs rhs =>
    obtain ⟨left, t, right, t', hl, hrhs, hb⟩ := expr_binary_ok he
    obtain ⟨h₁, hleft⟩ := expr_laid lhs h hr (by simp) hl
    have hc₁ := (expr_computes lhs (by simp) hl).1
    have hrt := hc₁.unmoved.reached hr
    obtain ⟨h₂, hright⟩ := expr_laid rhs h₁ hrt (by simp) hrhs
    have hc₂ := (expr_computes rhs (by simp) hrhs).1
    exact binary_laid h₂ (hc₂.unmoved.reached hrt)
      (fun d hd => (hdest d hd).mono (computes_fewer (hc₁.trans hc₂)))
      (hleft.mono (computes_fewer hc₂)) hright hb
  | .unary op operand =>
    obtain ⟨value, t, hv, hu⟩ := expr_unary_ok he
    obtain ⟨h₁, hvalue⟩ := expr_laid operand h hr (by simp) hv
    have hc := (expr_computes operand (by simp) hv).1
    exact unary_laid h₁ (hc.unmoved.reached hr)
      (fun d hd => (hdest d hd).mono (computes_fewer hc)) hvalue hu
  | .call function args =>
    obtain ⟨f, values, t, -, -, ha, hc⟩ := expr_call_ok he
    obtain ⟨h₁, hvalues⟩ := arguments_laid args h hr ha
    have hcomputes := (arguments_computes args ha).1
    exact call_laid h₁ (hcomputes.unmoved.reached hr)
      (fun d hd => (hdest d hd).mono (computes_fewer hcomputes)) hvalues hc

lemma place_laid (e : Expr) {s s' : Lowering} {target : Target} (h : Laid base P s)
    (hr : s.unreachable = false) (hp : place e s = .ok (target, s')) :
    Laid base P s' ∧ target.place.operand.Between base s'.listing := by
  match e with
  | .paren inner => exact place_laid inner h hr (place_paren ▸ hp)
  | .var name =>
    obtain ⟨v, ty, hl, -, rfl, rfl⟩ := place_var_ok hp
    exact ⟨h, h.lookup hl⟩
  | .elem name inner =>
    obtain ⟨a, v, t, o, ty, hl, he, hi, -, rfl⟩ := place_elem_ok hp
    obtain ⟨hcomputes, hv⟩ := expr_computes inner (by simp) he
    obtain ⟨h₁, hb⟩ := expr_laid inner h hr (by simp) he
    obtain ⟨h₂, ho⟩ := index_laid h₁ (hcomputes.unmoved.reached hr) hb hi
    have hfewer := computes_fewer (hcomputes.trans (index_computes hv hi).1)
    exact ⟨h₂, (h.lookup hl).mono hfewer, ho⟩
  | .int _ | .float _ | .binary _ _ _ | .assign _ _ | .unary _ _ | .call _ _ =>
    exact (refuse_ok.1 hp).elim

lemma arguments_laid (args : List Expr) {function : String} {position : Nat} {params : List Ty}
    {s s' : Lowering} {values : List Operand} (h : Laid base P s) (hr : s.unreachable = false)
    (ha : arguments function position params args s = .ok (values, s')) :
    Laid base P s' ∧ ∀ o ∈ values, o.Between base s'.listing := by
  match args with
  | [] =>
    obtain ⟨rfl, rfl⟩ := pure_ok.1 ha
    exact ⟨h, by simp⟩
  | arg :: rest =>
    obtain ⟨v, t, vs, he, -, hrest, rfl⟩ := arguments_cons_ok ha
    obtain ⟨h₁, hv⟩ := expr_laid arg h hr (by simp) he
    have hrt := (expr_computes arg (by simp) he).1.unmoved.reached hr
    obtain ⟨h₂, hvs⟩ := arguments_laid rest h₁ hrt hrest
    refine ⟨h₂, fun o ho => ?_⟩
    obtain rfl | ho := List.mem_cons.1 ho
    · exact hv.mono (computes_fewer (arguments_computes rest hrest).1)
    · exact hvs o ho

end

/-! ### Statements -/

lemma condition_laid {test : Expr} {o : Operand} (h : Laid base P s) (hr : s.unreachable = false)
    (hc : condition test s = .ok (o, s')) :
    Laid base P s' ∧ o.Between base s'.listing ∧ s'.unreachable = false := by
  have hcomputes := (condition_computes hc).1
  obtain ⟨ty, hc, -⟩ := condition_ok hc
  obtain ⟨h₁, ho⟩ := expr_laid test h hr (by simp) hc
  exact ⟨h₁, ho, hcomputes.unmoved.reached hr⟩

lemma initVariable_laid {name : String} {ty : Ty} {v : VarId} {init : Expr} {u : Unit}
    (h : Laid base P s) (hr : s.unreachable = false) (hv : (Operand.var v).Between base s.listing)
    (hi : initVariable name ty v init s = .ok (u, s')) : Laid base P s' := by
  obtain ⟨value, t, he, -, hi⟩ := initVariable_ok hi
  obtain ⟨h₁, hvalue⟩ := expr_laid init h hr (by simpa using hv) he
  have hcomputes := (expr_computes init (by simpa using hv.2) he).1
  split at hi
  · exact hi ▸ h₁
  · obtain ⟨id, hcopy⟩ := hi
    have hb : (Action.copy value.operand (.var v)).Between base t.listing :=
      ⟨by simpa [Action.args, Action.arg1, Action.arg2] using hvalue,
        by simpa [Action.target, Place.operand] using hv.mono (computes_fewer hcomputes)⟩
    exact h₁.emitStraight hcopy (hcomputes.unmoved.reached hr) hb ⟨rfl, rfl, by simp⟩

lemma declare_laid {ty : DeclTy} {name : String} {init : Option Expr} {u : Unit}
    (h : Laid base P s) (hr : s.unreachable = false)
    (hd : declare ty name init s = .ok (u, s')) : Laid base P s' := by
  obtain ⟨-, -, t, v, t', scopes, hv, hinit, hb, rfl⟩ := declare_ok hd
  obtain ⟨h₁, hvar, -⟩ := h.freshVariable hv
  have hrt : t.unreachable = false := by
    rw [show t = (s.freshVariable name ty.ty s.scopes.current .none).1 by rw [hv]]
    exact hr
  have h₂ : Laid base P t' ∧ (Operand.var v).Between base t'.listing := by
    cases init with
    | none =>
      obtain rfl : t' = t := hinit
      exact ⟨h₁, hvar⟩
    | some e =>
      exact ⟨initVariable_laid h₁ hrt hvar hinit,
        hvar.mono (computes_fewer (initVariable_computes hvar.2 hinit))⟩
  exact h₂.1.bind hb h₂.2

lemma declareArray_laid {ty : DeclTy} {name : String} {length : Nat} {u : Unit}
    (h : Laid base P s) (hd : declareArray ty name length s = .ok (u, s')) : Laid base P s' := by
  obtain ⟨-, -, t, a, scopes, ha, hb, rfl⟩ := declareArray_ok hd
  obtain ⟨h₁, harray⟩ := h.freshArray ha
  exact h₁.bind hb harray

lemma ret_laid {value : Option Lowered} {u : Unit} (h : Laid base P s)
    (hr : s.unreachable = false) (hv : ∀ r ∈ value, r.operand.Between base s.listing)
    (hret : ret value s = .ok (u, s')) : Laid base P s' := by
  obtain ⟨-, id, he⟩ := ret_ok hret
  have hb : (Action.ret (value.map Lowered.operand)).Between base s.listing := by
    refine ⟨?_, by simp [Action.target]⟩
    cases value with
    | none => simp [Action.args, Action.arg1, Action.arg2]
    | some r => simpa [Action.args, Action.arg1, Action.arg2] using hv r rfl
  exact h.emitStraight he hr hb ⟨rfl, rfl, by simp⟩

/-- A branch that was just emitted goes to its label. -/
lemma emit_targeted {action : Action} {id : InstrId} {label : LabelId} (h : Laid base P s)
    (he : s.emit action = .ok (s', id)) (ht : action.branchTarget = some label) :
    Targeted base s'.listing s'.listing.arena.size label := by
  have hemit := (emit_emitted he).1
  obtain ⟨x, hx, hact⟩ := hemit.instr
  exact ⟨_, x, h.fewer.arena, by rw [hemit.size]; exact Nat.lt_succ_self _, hx, hact ▸ ht⟩

/-- A label that was just made, with a branch to it. -/
structure Awaited (base : Listing) (s : Lowering) (label : LabelId) : Prop where
  unplaced : Unplaced s label
  lt : label < s.listing.labels.size
  targeted : Targeted base s.listing s.listing.arena.size label

lemma Awaited.reaches {label : LabelId} (h : Awaited base s label)
    (hs : Reaches s.listing.labels.size s s') : Awaited base s' label :=
  ⟨h.unplaced.reaches hs h.lt le_rfl, h.lt.trans_le hs.grows.labels,
    h.targeted.kept hs.kept hs.grows.arena⟩

lemma Awaited.startAt {label other : LabelId} (h : Awaited base s label)
    (hs : s.startAt other = .ok s') (hne : label ≠ other) : Awaited base s' label :=
  ⟨h.unplaced.startAt hs hne, h.lt.trans_le (startAt_kept hs).grows.labels,
    h.targeted.kept (startAt_kept hs) (startAt_kept hs).grows.arena⟩

lemma Laid.branch {t : Lowering} {label : LabelId} {action : Action} {id : InstrId}
    (h : Laid base P s) (hr : s.unreachable = false) (hl : s.freshLabel = (t, label))
    (he : t.emit action = .ok (s', id)) (hb : action.Between base s.listing)
    (hlabel : action.definedLabel = none) (htarget : action.branchTarget = some label)
    (hparam : ∀ v, action ≠ .param v) :
    Laid base (insert label P) s' ∧ Awaited base s' label := by
  obtain ⟨h₁, hname⟩ := h.freshLabel hl
  obtain ⟨hunplaced, -⟩ := unplaced_freshLabel hl
  obtain ⟨hu, hlt⟩ := unplaced_emit hl he
  have ht : t = s.freshLabel.1 := by rw [hl]
  have hrt : t.unreachable = false := by rw [ht]; exact hr
  have hfewer : s.listing.Fewer t.listing := by
    subst ht
    exact ⟨le_rfl, le_rfl, le_rfl⟩
  refine ⟨?_, hu, hlt, emit_targeted h₁ he htarget⟩
  refine (h₁.mono (Set.subset_insert label P)).emit he hrt (hb.mono hfewer) hlabel ?_ ?_ ?_
  · intro other hother
    obtain rfl : label = other := Option.some.inj (htarget.symm.trans hother)
    exact ⟨hname, .inl (Set.mem_insert _ _)⟩
  · rintro cond other rfl
    obtain rfl : other = label := Option.some.inj htarget
    exact hunplaced
  · intro v j hp
    exact absurd hp (hparam v)

lemma Laid.place {label : LabelId} (h : Laid base (insert label P) s)
    (ha : Awaited base s label) (hs : s.startAt label = .ok s') : Laid base P s' :=
  h.startAt hs ha.unplaced fun _ => ha.targeted

lemma jumpToJoin_laid {join : Option LabelId} (h : Laid base P s)
    (hj : jumpToJoin s = .ok (join, s')) :
    Laid base (join.elim P (insert · P)) s' ∧ ∀ label ∈ join, Awaited base s' label := by
  have hj := jumpToJoin_ok hj
  split at hj
  · obtain ⟨rfl, rfl⟩ := hj
    exact ⟨h, by simp⟩
  · rename_i hr
    obtain ⟨t, label, id, hl, he, rfl⟩ := hj
    have hb : (Action.jump label).Between base s.listing :=
      ⟨by simp [Action.args, Action.arg1, Action.arg2, Operand.Between], by simp [Action.target]⟩
    obtain ⟨h₁, ha⟩ := h.branch (by simpa using hr) hl he hb rfl rfl (by simp)
    exact ⟨h₁, by simpa using ha⟩

lemma jumpUnlessEnded_laid {label : LabelId} {site : Nat} {u : Unit} (h : Laid base P s)
    (hname : ∃ info, s.listing.labels.get? label = some info ∧ info.isFunction = false)
    (hsite : base.arena.size ≤ site) (hp : Placed s label site)
    (hj : jumpUnlessEnded label s = .ok (u, s')) : Laid base P s' := by
  have hj := jumpUnlessEnded_ok hj
  split at hj
  · exact hj ▸ h
  · rename_i hr
    obtain ⟨id, he⟩ := hj
    have hb : (Action.jump label).Between base s.listing :=
      ⟨by simp [Action.args, Action.arg1, Action.arg2, Operand.Between], by simp [Action.target]⟩
    refine h.emit he (by simpa using hr) hb rfl ?_ (by simp) (by simp)
    intro other ht
    obtain rfl : label = other := Option.some.inj ht
    exact ⟨hname, .inr ⟨site, hsite, hp⟩⟩

lemma jumpFalse_between {o : Operand} {label : LabelId} {l : Listing} (ho : o.Between base l) :
    (Action.jumpFalse o label).Between base l :=
  ⟨by simpa [Action.args, Action.arg1, Action.arg2, Operand.Between] using ho,
    by simp [Action.target]⟩

lemma Laid.branches {test : Expr} {label : LabelId} (h : Laid base P s)
    (hr : s.unreachable = false) (hb : Branches test label s s') :
    Laid base (insert label P) s' ∧ Awaited base s' label := by
  obtain ⟨o, t, t', id, hc, hl, hj⟩ := hb
  obtain ⟨h₁, ho, hr₁⟩ := condition_laid h hr hc
  exact h₁.branch hr₁ hl hj (jumpFalse_between ho) rfl rfl (by simp)

section

variable {test : Expr} {u : Unit} {P : Set LabelId}

lemma ifElse_laid {onTrue onFalse : Stmt} (hs : stmt (.ifElse test onTrue onFalse) s = .ok (u, s'))
    (hr : s.unreachable = false)
    (htrue : ∀ {P : Set LabelId} {t t' : Lowering}, stmt onTrue t = .ok ((), t') →
      Laid base P t → Laid base P t')
    (hfalse : ∀ {P : Set LabelId} {t t' : Lowering}, stmt onFalse t = .ok ((), t') →
      Laid base P t → Laid base P t')
    (h : Laid base P s) : Laid base P s' := by
  obtain ⟨label, t, t₁, join, t₂, t₃, t₄, htest, ht, hjoin, hst, hf, hend⟩ :=
    stmt_ifElse_ok hr hs
  obtain ⟨h₁, ha⟩ := h.branches hr htest
  have ha₁ := ha.reaches (stmt_reaches onTrue le_rfl ht)
  obtain ⟨h₂, hawait⟩ := jumpToJoin_laid (htrue ht h₁) hjoin
  obtain ⟨hreach, hlabels⟩ := jumpToJoin_reaches (k := t₁.listing.labels.size) hjoin
  have ha₂ := ha₁.reaches hreach
  cases join with
  | none =>
    obtain ⟨-, rfl⟩ := pure_ok.1 hend
    exact hfalse hf (h₂.place ha₂ hst)
  | some join =>
    -- the join is newer than the label of the other branch
    have hne : join ≠ label := by
      rw [hlabels join rfl]
      exact ha₁.lt.ne'
    rw [Option.elim_some, Set.insert_comm] at h₂
    have h₄ := hfalse hf (h₂.place ha₂ hst)
    have haj := ((hawait join rfl).startAt hst hne).reaches (stmt_reaches onFalse le_rfl hf)
    exact h₄.place haj (startAt_ok.1 hend)

lemma while_laid {body : Stmt} (hs : stmt (.while test body) s = .ok (u, s'))
    (hr : s.unreachable = false)
    (hbody : ∀ {P : Set LabelId} {t t' : Lowering}, stmt body t = .ok ((), t') →
      Laid base P t → Laid base P t')
    (h : Laid base P s) : Laid base P s' := by
  obtain ⟨head, t₁, t₂, label, t₃, t₄, t₅, hh, hs, htest, hb, hback, hend⟩ :=
    stmt_while_ok hr hs
  obtain ⟨h₁, hname⟩ := h.freshLabel hh
  have hunplaced := (unplaced_freshLabel hh).1
  have hr₁ : t₁.unreachable = false := by
    rw [show t₁ = s.freshLabel.1 by rw [hh]]
    exact hr
  have h₂ : Laid base P t₂ := by
    refine (h₁.mono (Set.subset_insert head P)).startAt hs hunplaced fun hr' => ?_
    rw [hr₁] at hr'
    cases hr'
  obtain ⟨h₃, ha⟩ := h₂.branches (startAt_emitted hs).1.unreachable htest
  have h₄ := hbody hb h₃
  have hto : Reaches t₂.listing.labels.size t₂ t₄ := by
    have hto₃ := (htest.reaches (k := t₂.listing.labels.size)).1
    exact hto₃.trans (stmt_reaches body hto₃.grows.labels hb)
  -- the label at the head keeps its place through the body
  have hplaced : Placed t₄ head t₁.listing.arena.size := (startAt_placed hs).reaches hto
  have hname₄ : ∃ info, t₄.listing.labels.get? head = some info ∧ info.isFunction = false := by
    obtain ⟨info, hget, hfun⟩ := hname
    obtain ⟨info', hget', hname'⟩ := ((startAt_kept hs).trans hto.kept).names hget
    exact ⟨info', hget', by rw [Label.isFunction, hname']; exact hfun⟩
  have h₅ := jumpUnlessEnded_laid h₄ hname₄ h₁.fewer.arena hplaced hback
  have ha₅ := (ha.reaches (stmt_reaches body le_rfl hb)).reaches (jumpUnlessEnded_reaches hback)
  exact h₅.place ha₅ hend

end

mutual

/-- The code of a statement lies as the code before it. -/
theorem stmt_laid (body : Stmt) {P : Set LabelId} {s s' : Lowering} {u : Unit}
    (hs : stmt body s = .ok (u, s')) (h : Laid base P s) : Laid base P s' := by
  cases hr : s.unreachable with
  | true => exact stmt_unreachable hs hr ▸ h
  | false =>
  match body with
  | .expr e =>
    obtain ⟨r, he⟩ := stmt_expr_ok hr hs
    exact (expr_laid e h hr (by simp) he).1
  | .compound body =>
    obtain ⟨t, hb, rfl⟩ := stmt_compound_ok hr hs
    have h₁ : Laid base P { s with scopes := s.scopes.push } :=
      h.scopes fun e he => h.bound e (by rwa [bindings_push] at he)
    exact (stmts_laid body hb h₁).popScope
  | .ifThen test body =>
    obtain ⟨label, t, t', htest, hb, hs⟩ := stmt_ifThen_ok hr hs
    obtain ⟨h₁, ha⟩ := h.branches hr htest
    exact (stmt_laid body hb h₁).place (ha.reaches (stmt_reaches body le_rfl hb)) hs
  | .ifElse test onTrue onFalse =>
    exact ifElse_laid hs hr (stmt_laid onTrue) (stmt_laid onFalse) h
  | .while test body =>
    exact while_laid hs hr (stmt_laid body) h
  | .decl ty name init => exact declare_laid h hr (stmt_decl_ok hr hs)
  | .array ty name length => exact declareArray_laid h (stmt_array_ok hr hs)
  | .ret none => exact ret_laid h hr (by simp) (stmt_ret_ok hr hs)
  | .ret (some value) =>
    obtain ⟨r, t, he, hs⟩ := stmt_retValue_ok hr hs
    obtain ⟨h₁, hv⟩ := expr_laid value h hr (by simp) he
    have hcomputes := (expr_computes value (by simp) he).1
    exact ret_laid h₁ (hcomputes.unmoved.reached hr) (by simpa using hv) hs

theorem stmts_laid (body : List Stmt) {P : Set LabelId} {s s' : Lowering} {u : Unit}
    (hs : stmts body s = .ok (u, s')) (h : Laid base P s) : Laid base P s' := by
  match body with
  | [] =>
    obtain ⟨-, rfl⟩ := pure_ok.1 hs
    exact h
  | first :: rest =>
    obtain ⟨t, hf, hrest⟩ := stmts_cons_ok hs
    exact stmts_laid rest hrest (stmt_laid first hf h)

end

/-! ### Functions -/

/-- Parameters come first. -/
lemma params_laid {ps : List Param} (hp : Params ps s s') (h : Laid base P s)
    (hr : s.unreachable = false)
    (hall : ∀ j : Nat, base.arena.size ≤ j → j < s.listing.arena.size →
      ∃ x w, s.listing.instr? j = some x ∧ x.action = .param w) :
    Laid base P s' ∧ s'.unreachable = false := by
  induction hp with
  | nil => exact ⟨h, hr⟩
  | @cons p rest s t s' hp _ ih =>
    obtain ⟨-, t', v, scopes, id, hv, hb, he⟩ := param_ok hp
    obtain ⟨h₁, hvar, -⟩ := h.freshVariable hv
    have ht' : t' = (s.freshVariable p.name p.ty.ty s.scopes.current .ofParameter).1 := by rw [hv]
    have h₂ := h₁.bind hb hvar
    have hr₂ : t'.unreachable = false := by
      rw [ht']
      exact hr
    have hall₂ : ∀ j : Nat, base.arena.size ≤ j → j < t'.listing.arena.size →
        ∃ x w, t'.listing.instr? j = some x ∧ x.action = .param w := by
      rw [ht']
      exact hall
    have hbetween : (Action.param v).Between base t'.listing :=
      ⟨by simp [Action.args, Action.arg1, Action.arg2], by simpa [Action.target] using hvar⟩
    have h₃ := h₂.emit he hr₂ hbetween rfl (by simp [Action.branchTarget]) (by simp)
      fun _ hj hlt => hall₂ _ hj hlt
    have hemit := (emit_emitted he).1
    refine ih h₃ hemit.unreachable fun j hj hlt => ?_
    rw [hemit.size] at hlt
    by_cases hlast : j < t'.listing.arena.size
    · rw [(emit_kept he).instr j hlast]
      exact hall₂ j hj hlast
    · obtain rfl : j = t'.listing.arena.size :=
        Nat.le_antisymm (Nat.lt_succ_iff.1 hlt) (Nat.le_of_not_lt hlast)
      obtain ⟨x, hx, hact⟩ := hemit.instr
      exact ⟨x, v, hx, hact⟩

lemma functionEnd_laid {t t' : Lowering} (he : FunctionEnd t t') (h : Laid base P t) :
    Laid base P t' ∧ t'.unreachable = true := by
  unfold FunctionEnd at he
  split at he
  · rename_i hr
    exact he ▸ ⟨h, hr⟩
  · rename_i hr
    obtain ⟨id, he⟩ := he
    have hb : (Action.ret none).Between base t.listing :=
      ⟨by simp [Action.args, Action.arg1, Action.arg2], by simp [Action.target]⟩
    exact ⟨h.emitStraight he (by simpa using hr) hb ⟨rfl, rfl, by simp⟩,
      (emit_emitted he).1.unreachable⟩

end Lower

end ThreeAddress
