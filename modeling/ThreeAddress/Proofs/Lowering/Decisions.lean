import ThreeAddress.Proofs.Lowering.Meaning
import ThreeAddress.Proofs.Lowering.Validity

/-!
Lowering decides the types of expressions.

A step of lowering decides what the text says: it succeeds where there is a type or a
declaration, with a result that goes with it, and refuses the program elsewhere. Both directions
are proved at once, by composing decisions in the order in which lowering makes them. No
precondition is ever broken on the way, whatever the program.
-/

namespace ThreeAddress

open Source

namespace Lower

open Lowering

variable {α β γ δ : Type} {m : Lower α} {f : α → Lower γ} {s s' : Lowering}

/-! ### Decisions -/

/-- The step succeeds if there is a verdict, with a result that goes with it, and refuses the
program if there is none. -/
def Decides (m : Lower α) (s : Lowering) (verdict : Option β) (Q : α → β → Lowering → Prop) :
    Prop :=
  match verdict with
  | some b => ∃ a s', m s = .ok (a, s') ∧ Q a b s'
  | none => ∃ d, m s = .error (.refused d)

lemma bind_of_ok {a : α} (h : m s = .ok (a, s')) : (m >>= f) s = f a s' := by
  change (StateT.bind m f) s = _
  simp [StateT.bind, h, Bind.bind, Except.bind]

lemma bind_of_error {e : Failure} (h : m s = .error e) : (m >>= f) s = .error e := by
  change (StateT.bind m f) s = _
  simp [StateT.bind, h, Bind.bind, Except.bind]

namespace Decides

variable {verdict : Option β} {Q : α → β → Lowering → Prop}

lemma ok {a : α} {b : β} (h : m s = .ok (a, s')) (hQ : Q a b s') : Decides m s (some b) Q :=
  ⟨a, s', h, hQ⟩

lemma pure {a : α} {b : β} (hQ : Q a b s) : Decides (Pure.pure a : Lower α) s (some b) Q :=
  ⟨a, s, rfl, hQ⟩

lemma refuse (d : Diagnostic) : Decides (Lower.refuse d : Lower α) s (none : Option β) Q :=
  ⟨d, rfl⟩

lemma mono {R : α → β → Lowering → Prop} (h : Decides m s verdict Q)
    (hQ : ∀ a b s', m s = .ok (a, s') → Q a b s' → R a b s') : Decides m s verdict R := by
  cases verdict with
  | none => exact h
  | some b =>
    obtain ⟨a, s', hm, hab⟩ := h
    exact ⟨a, s', hm, hQ a b s' hm hab⟩

/-- One decision after another. -/
lemma bind {g : β → Option δ} {R : γ → δ → Lowering → Prop} (h : Decides m s verdict Q)
    (hf : ∀ a b s', m s = .ok (a, s') → Q a b s' → Decides (f a) s' (g b) R) :
    Decides (m >>= f) s (verdict.bind g) R := by
  cases verdict with
  | none =>
    obtain ⟨d, hm⟩ := h
    exact ⟨d, bind_of_error hm⟩
  | some b =>
    obtain ⟨a, s', hm, hab⟩ := h
    have hnext := hf a b s' hm hab
    unfold Decides at hnext ⊢
    rwa [bind_of_ok hm]

/-- A decision after a step that succeeds. -/
lemma after {a : α} {verdict : Option δ} {R : γ → δ → Lowering → Prop} (h : m s = .ok (a, s'))
    (hf : Decides (f a) s' verdict R) : Decides (m >>= f) s verdict R := by
  unfold Decides at hf ⊢
  rwa [bind_of_ok h]

/-- A decision before a step that succeeds. -/
lemma before {R : γ → β → Lowering → Prop} (h : Decides m s verdict Q)
    (hf : ∀ a b s', m s = .ok (a, s') → Q a b s' → ∃ c t, f a s' = .ok (c, t) ∧ R c b t) :
    Decides (m >>= f) s verdict R := by
  simpa using h.bind (f := f) (g := some) (R := R) hf

end Decides

lemma expect_decides (context : TypeContext) (expected found : Ty) :
    Decides (expect context expected found) s (if expected = found then some () else none)
      fun _ _ s' => s' = s := by
  unfold expect
  split
  · exact .pure rfl
  · exact .refuse _

lemma expectValue_decides (context : TypeContext) (found : Ty) :
    Decides (expectValue context found) s (if found.isValue then some () else none)
      fun _ _ s' => s' = s := by
  unfold expectValue
  split
  · exact .pure rfl
  · exact .refuse _

lemma checked_error {step : Lowering → Except Diagnostic (Lowering × α)} {d : Diagnostic}
    (h : step s = .error d) : checked step s = .error (.refused d) := by
  unfold checked
  rw [h]
  rfl

lemma whenReached_eq {step : Lower Unit} (h : s.unreachable = false) :
    whenReached step s = step s := by
  unfold whenReached
  rw [bind_of_ok (get_ok.2 ⟨rfl, rfl⟩), h]
  rfl

lemma emit_succeeds (action : Action) (h : ∃ ty, s.listing.actionTy action = .ok ty) :
    ∃ id s', emit action s = .ok (id, s') := by
  obtain ⟨ty, hty⟩ := h
  have hemit : ∃ s' id, s.emit action = .ok (s', id) := by
    unfold Lowering.emit Listing.emit
    simp only [hty, Bind.bind, Except.bind, Pure.pure, Except.pure]
    exact ⟨_, _, rfl⟩
  obtain ⟨s', id, hs'⟩ := hemit
  exact ⟨id, s', emit_ok.2 hs'⟩

lemma startAt_succeeds {label : LabelId} (h : label < s.listing.labels.size) :
    ∃ s', startAt label s = .ok ((), s') := by
  obtain ⟨id, t, ht⟩ : ∃ id t, emit (.label label) s.leaveBlock = .ok (id, t) :=
    emit_succeeds _ ⟨.none, rfl⟩
  rw [emit_ok] at ht
  have hlt : label < t.listing.labels.size := by
    rw [(emit_emitted ht).2.1, leaveBlock_listing]
    exact h
  have hstart : ∃ s', s.startAt label = .ok s' := by
    unfold Lowering.startAt
    simp only [ht, Bind.bind, Except.bind, Labels.place, if_pos hlt, Pure.pure, Except.pure]
    exact ⟨_, rfl⟩
  obtain ⟨s', hs'⟩ := hstart
  exact ⟨s', startAt_ok.2 hs'⟩

end Lower

/-! ### Types are kept -/

namespace Lowering

variable {k : Nat} {s s' : Lowering}

lemma Step.array_kept (h : Step k s s') {a : ArrayId} {decl : ArrayDecl}
    (ha : s.listing.arrays.get? a = some decl) : s'.listing.arrays.get? a = some decl := by
  cases h with
  | emit he _ _ => rwa [(emit_emitted he).1.arrays]
  | startAt hs _ => rwa [(startAt_emitted hs).1.arrays]
  | freshArray =>
    have hlt : a < s.listing.arrays.arrays.size := (Array.getElem?_eq_some_iff.1 ha).1
    simpa [Lowering.freshArray, Arrays.declare, Arrays.get?, Array.getElem?_push, hlt.ne] using ha
  | _ => exact ha

lemma Step.function (h : Step k s s') : s'.function = s.function := by
  cases h with
  | emit he _ _ =>
    obtain ⟨-, ty, -, -, -, hf, -⟩ := emit_eq he
    exact hf
  | startAt hs _ =>
    obtain ⟨t, he, -, rfl⟩ := startAt_eq hs
    obtain ⟨-, ty, -, -, -, hf, -⟩ := emit_eq he
    rw [hf]
    unfold leaveBlock
    split <;> rfl
  | _ => rfl

lemma Reaches.array_kept (h : Reaches k s s') {a : ArrayId} {decl : ArrayDecl}
    (ha : s.listing.arrays.get? a = some decl) : s'.listing.arrays.get? a = some decl := by
  induction h with
  | refl => exact ha
  | tail _ hstep ih => exact hstep.array_kept ih

lemma Reaches.function (h : Reaches k s s') : s'.function = s.function := by
  induction h with
  | refl => rfl
  | tail _ hstep ih => exact hstep.function.trans ih

/-- What has a type keeps it. -/
lemma Reaches.typeOf? (h : Reaches k s s') {o : Operand} {ty : Ty}
    (ho : s.listing.typeOf? o = some ty) : s'.listing.typeOf? o = some ty := by
  cases o with
  | var v =>
    have hv := Lower.typeOf?_var ho
    simpa only [Listing.typeOf?, h.kept.vars v hv] using ho
  | array a | elem a _ =>
    obtain ⟨decl, ha, hty⟩ := Option.map_eq_some_iff.1 ho
    exact Option.map_eq_some_iff.2 ⟨decl, h.array_kept ha, hty⟩
  | instr i =>
    obtain ⟨x, hx, hty⟩ := Option.map_eq_some_iff.1 ho
    refine Option.map_eq_some_iff.2 ⟨x, ?_, hty⟩
    rw [h.kept.instr i (Listing.instr?_isSome_iff.1 (by rw [hx]; rfl)), hx]
  | _ => exact ho

/-- What is declared before is declared after, too. -/
structure Carries (l l' : Listing) : Prop where
  types : ∀ {o ty}, l.typeOf? o = some ty → l'.typeOf? o = some ty
  functions : l'.functions = l.functions
  labels : l.labels.size ≤ l'.labels.size

lemma Carries.trans {l l' l'' : Listing} (h : Carries l l') (h' : Carries l' l'') :
    Carries l l'' :=
  ⟨fun ho => h'.types (h.types ho), h'.functions.trans h.functions, h.labels.trans h'.labels⟩

lemma Reaches.carries (h : Reaches k s s') : Carries s.listing s'.listing :=
  ⟨h.typeOf?, h.functions, h.grows.labels⟩

end Lowering

/-! ### Scopes and declarations -/

namespace Lower

open Lowering

/-- The symbol stands for what is declared so. -/
def Types (l : Listing) : Symbol → Binding → Prop
  | .var v, .scalar ty => l.typeOf? (.var v) = some ty
  | .array a, .array ty => l.typeOf? (.array a) = some ty
  | _, _ => False

/-- The names of a frame are those of a scope. -/
def FrameAgrees (l : Listing) (frame : Frame) (names : List (String × Binding)) : Prop :=
  List.Forall₂ (fun e e' => e.1 = e'.1 ∧ Types l e.2 e'.2) frame.names names

/-- The frames are the open scopes; the frame of the program itself is opened late. -/
def Agrees (l : Listing) (frames : List Frame) (scopes : List (List (String × Binding))) : Prop :=
  List.Forall₂ (FrameAgrees l) frames scopes ∨
    ∃ inner, scopes = inner ++ [[]] ∧ List.Forall₂ (FrameAgrees l) frames inner

section

variable {l l' : Listing} {frames : List Frame} {scopes : List (List (String × Binding))}

lemma Types.mono (h : ∀ {o ty}, l.typeOf? o = some ty → l'.typeOf? o = some ty) {symbol : Symbol}
    {b : Binding} (ht : Types l symbol b) : Types l' symbol b := by
  cases symbol <;> cases b <;> first | exact h ht | exact ht

lemma Agrees.mono (h : ∀ {o ty}, l.typeOf? o = some ty → l'.typeOf? o = some ty)
    (ha : Agrees l frames scopes) : Agrees l' frames scopes := by
  have hframes {inner : List (List (String × Binding))}
      (hf : List.Forall₂ (FrameAgrees l) frames inner) :
      List.Forall₂ (FrameAgrees l') frames inner :=
    hf.imp fun _ _ hn => hn.imp fun _ _ he => ⟨he.1, he.2.mono h⟩
  obtain hf | ⟨inner, heq, hf⟩ := ha
  · exact .inl (hframes hf)
  · exact .inr ⟨inner, heq, hframes hf⟩

lemma Agrees.push (ha : Agrees l frames scopes) (scope : Scope) :
    Agrees l (⟨scope, []⟩ :: frames) ([] :: scopes) := by
  obtain hf | ⟨inner, rfl, hf⟩ := ha
  · exact .inl (.cons .nil hf)
  · exact .inr ⟨[] :: inner, rfl, .cons .nil hf⟩

/-- The innermost frame, if there is one, is the innermost scope. -/
lemma Agrees.cases (ha : Agrees l frames scopes) :
    (frames = [] ∧ scopes.headD [] = [] ∧ scopes.tail = []) ∨
      ∃ frame outer, frames = frame :: outer ∧ FrameAgrees l frame (scopes.headD []) ∧
        Agrees l outer scopes.tail := by
  obtain hf | ⟨inner, rfl, hf⟩ := ha
  · cases hf with
    | nil => exact .inl ⟨rfl, rfl, rfl⟩
    | cons hn hf => exact .inr ⟨_, _, rfl, hn, .inl hf⟩
  · cases hf with
    | nil => exact .inl ⟨rfl, rfl, rfl⟩
    | cons hn hf => exact .inr ⟨_, _, rfl, hn, .inr ⟨_, rfl, hf⟩⟩

lemma lookup_agrees {frame : Frame} {names : List (String × Binding)}
    (h : FrameAgrees l frame names) (name : String) :
    Option.Rel (Types l) (frame.names.lookup name) (names.lookup name) := by
  unfold FrameAgrees at h
  generalize frame.names = entries at h
  induction h with
  | nil => exact .none
  | @cons e e' rest rest' he _ ih =>
    obtain ⟨n, symbol⟩ := e
    obtain ⟨n', b⟩ := e'
    obtain ⟨rfl, ht⟩ := he
    rw [List.lookup_cons, List.lookup_cons]
    cases name == n with
    | true => exact .some ht
    | false => exact ih

lemma findSome?_agrees {inner : List (List (String × Binding))}
    (h : List.Forall₂ (FrameAgrees l) frames inner) (name : String) :
    Option.Rel (Types l) (frames.findSome? fun frame => frame.names.lookup name)
      (inner.findSome? (·.lookup name)) := by
  induction h with
  | nil => exact .none
  | @cons frame names frames inner hn _ ih =>
    rw [List.findSome?_cons, List.findSome?_cons]
    have hlookup := lookup_agrees hn name
    generalize frame.names.lookup name = found at hlookup
    generalize names.lookup name = found' at hlookup
    cases hlookup with
    | none => exact ih
    | some ht => exact .some ht

lemma Agrees.binding (ha : Agrees l frames scopes) (name : String) :
    Option.Rel (Types l) (frames.findSome? fun frame => frame.names.lookup name)
      (scopes.findSome? (·.lookup name)) := by
  obtain hf | ⟨inner, rfl, hf⟩ := ha
  · exact findSome?_agrees hf name
  · simpa [List.findSome?_append] using findSome?_agrees hf name

lemma lookup_isSome {frame : Frame} {names : List (String × Binding)}
    (h : FrameAgrees l frame names) (name : String) :
    (frame.names.lookup name).isSome = (names.lookup name).isSome := by
  have hlookup := lookup_agrees h name
  generalize frame.names.lookup name = found at hlookup
  generalize names.lookup name = found' at hlookup
  cases hlookup <;> rfl

lemma isBoundLocally_agrees {s : Scopes} (ha : Agrees l s.frames scopes) (name : String) :
    s.isBoundLocally name = ((scopes.headD []).lookup name).isSome := by
  unfold Scopes.isBoundLocally
  obtain ⟨hnil, hhead, -⟩ | ⟨frame, outer, hcons, hframe, -⟩ := ha.cases
  · rw [hnil, hhead]
    rfl
  · rw [hcons]
    exact lookup_isSome hframe name

/-- There is an innermost frame to bind a name in, and it is the innermost scope. -/
lemma withFrame_agrees {s : Scopes} (ha : Agrees l s.frames scopes) :
    ∃ frame outer, s.withFrame.frames = frame :: outer ∧ FrameAgrees l frame (scopes.headD []) ∧
      Agrees l outer scopes.tail := by
  unfold Scopes.withFrame
  obtain ⟨hnil, hhead, htail⟩ | ⟨frame, outer, hcons, hframe, houter⟩ := ha.cases
  · rw [if_pos (by simp [hnil])]
    refine ⟨⟨s.next, []⟩, [], by simp [Scopes.push, hnil], by rw [hhead]; exact .nil, ?_⟩
    rw [htail]
    exact .inl .nil
  · rw [if_neg (by simp [hcons])]
    exact ⟨frame, outer, hcons, hframe, houter⟩

lemma bind_free {s : Scopes} (ha : Agrees l s.frames scopes) {name : String}
    (hfree : ((scopes.headD []).lookup name).isSome = false) {symbol : Symbol} {b : Binding}
    (ht : Types l symbol b) : ∃ s', s.bind name symbol = .ok s' ∧
      Agrees l s'.frames (((name, b) :: scopes.headD []) :: scopes.tail) := by
  obtain ⟨frame, outer, hframes, hframe, houter⟩ := withFrame_agrees ha
  have hnew : FrameAgrees l { frame with names := (name, symbol) :: frame.names }
      ((name, b) :: scopes.headD []) :=
    .cons ⟨rfl, ht⟩ hframe
  unfold Scopes.bind
  simp only [hframes, lookup_isSome hframe, hfree, Bool.false_eq_true, if_false]
  refine ⟨_, rfl, ?_⟩
  obtain hf | ⟨inner, hinner, hf⟩ := houter
  · exact .inl (.cons hnew hf)
  · exact .inr ⟨_ :: inner, by rw [hinner]; rfl, .cons hnew hf⟩

lemma bind_taken {s : Scopes} (ha : Agrees l s.frames scopes) (name : String)
    (htaken : ((scopes.headD []).lookup name).isSome = true) (symbol : Symbol) :
    ∃ e, s.bind name symbol = .error e := by
  obtain ⟨frame, outer, hframes, hframe, -⟩ := withFrame_agrees ha
  unfold Scopes.bind
  simp only [hframes, lookup_isSome hframe, htaken, if_true]
  exact ⟨_, rfl⟩

end

end Lower

/-- What a signature says of a function. -/
def Signature.interface (f : Signature) : Interface := ⟨f.returns, f.params, f.defined⟩

namespace Lower

open Lowering

/-- The state is that of lowering where this is declared. -/
structure Accords (d : Declared) (s : Lowering) : Prop where
  scopes : Agrees s.listing s.scopes.frames d.scopes
  functions : ∀ name, (s.listing.functions.get? name).map Signature.interface = d.functions name
  labels : ∀ {name f}, s.listing.functions.get? name = some f →
    f.label < s.listing.labels.size
  returns : s.function.map (·.returns) = d.returns
  fits : ∃ c, Fits c s

section

variable {d : Declared} {s s' : Lowering}

/-- The scopes of the state are those of `d'`, which is `d` with other scopes. -/
structure Rescoped (d d' : Declared) (s' : Lowering) : Prop where
  scopes : Agrees s'.listing s'.scopes.frames d'.scopes
  functions : d'.functions = d.functions
  returns : d'.returns = d.returns

lemma Accords.rescoped {d' : Declared} (h : Accords d s) (hc : Carries s.listing s'.listing)
    (hfunction : s'.function = s.function) (hs : Rescoped d d' s') (hfits : ∃ c, Fits c s') :
    Accords d' s' where
  scopes := hs.scopes
  functions := by
    rw [hc.functions, hs.functions]
    exact h.functions
  labels hf := by
    rw [hc.functions] at hf
    exact (h.labels hf).trans_le hc.labels
  returns := by
    rw [hfunction, hs.returns]
    exact h.returns
  fits := hfits

lemma Accords.reaches {k : Nat} (h : Accords d s) (hr : Reaches k s s')
    (hframes : s'.scopes.frames = s.scopes.frames) (hfits : ∃ c, Fits c s') : Accords d s' := by
  refine h.rescoped hr.carries hr.function ⟨?_, rfl, rfl⟩ hfits
  rw [hframes]
  exact h.scopes.mono hr.typeOf?

lemma Accords.computes (h : Accords d s) (hc : Computes s s') : Accords d s' := by
  obtain ⟨c, hf⟩ := h.fits
  exact h.reaches (hc.reaches (k := 0)) (by rw [hc.unmoved.scopes]) ⟨c, hf.unmoved hc⟩

lemma Accords.emitted (h : Accords d s) {action : Action} {id : InstrId}
    (he : s.emit action = .ok (s', id)) (hscope : action.InScope s.listing)
    (hlabel : action.definedLabel = none) : Accords d s' := by
  obtain ⟨c, hf⟩ := h.fits
  have hemit := (emit_emitted he).1
  exact h.reaches (emit_reaches (k := 0) he hscope hlabel) (by rw [hemit.scopes])
    ⟨c, hf.emitted hemit⟩

lemma Accords.startAt (h : Accords d s) {label : LabelId} (hs : s.startAt label = .ok s') :
    Accords d s' := by
  obtain ⟨c, hf⟩ := h.fits
  have hemit := (startAt_emitted hs).1
  exact h.reaches (Step.startAt hs (Nat.zero_le _)).reaches (by rw [hemit.scopes])
    ⟨c, hf.emitted hemit⟩

lemma Accords.freshLabel (h : Accords d s) : Accords d s.freshLabel.1 := by
  obtain ⟨c, hf⟩ := h.fits
  exact h.reaches (Step.freshLabel (k := 0) s).reaches rfl ⟨c, (freshLabel_after rfl hf).fits⟩

/-! ### Names -/

lemma resolve_decides (h : Accords d s) (name : String) :
    Decides (resolve name) s (d.binding? name)
      fun symbol b s' => s' = s ∧ Types s.listing symbol b := by
  have hfound := h.scopes.binding name
  obtain ⟨c, hf⟩ := h.fits
  -- No variable has been renamed yet, so that each stands for itself.
  have hlookup : s.scopes.lookup s.listing.vars name = s.scopes.binding name := by
    unfold Scopes.lookup
    cases s.scopes.binding name with
    | none => rfl
    | some symbol => cases symbol <;> simp [hf.plain.current]
  change Option.Rel _ (s.scopes.binding name) (d.binding? name) at hfound
  rw [← hlookup] at hfound
  generalize hsymbol : s.scopes.lookup s.listing.vars name = found at hfound
  generalize d.binding? name = declared at hfound
  cases hfound with
  | none =>
    refine ⟨.undeclaredVariable name s.scopes.current, checked_error ?_⟩
    simp only [Lowering.resolve, hsymbol]
    rfl
  | some ht => exact .ok (resolve_ok.2 ⟨hsymbol, rfl⟩) ⟨rfl, ht⟩

lemma scalar_decides (h : Accords d s) (name : String) :
    Decides (scalar name) s (d.scalar? name)
      fun r ty s' => s' = s ∧ r.ty = ty ∧ s.listing.typeOf? r.operand = some ty := by
  refine (resolve_decides h name).bind fun symbol b s' _ hpost => ?_
  obtain ⟨rfl, ht⟩ := hpost
  match symbol, b, ht with
  | .var v, .scalar ty, ht =>
    exact .after (typeOf_ok.2 ⟨ht, rfl⟩) (.pure ⟨rfl, rfl, ht⟩)
  | .array a, .array ty, ht => exact .after (typeOf_ok.2 ⟨ht, rfl⟩) (.refuse _)

lemma arrayNamed_decides (h : Accords d s) (name : String) :
    Decides (arrayNamed name) s (d.array? name)
      fun a ty s' => s' = s ∧ s.listing.typeOf? (.array a) = some ty := by
  refine (resolve_decides h name).bind fun symbol b s' _ hpost => ?_
  obtain ⟨rfl, ht⟩ := hpost
  match symbol, b, ht with
  | .var v, .scalar ty, ht => exact .after (get_ok.2 ⟨rfl, rfl⟩) (.refuse _)
  | .array a, .array ty, ht => exact .pure ⟨rfl, ht⟩

lemma requireFree_decides (h : Accords d s) (name : String) :
    Decides (requireFree name) s (if d.isFree name then some () else none)
      fun scope _ s' => s' = s ∧ scope = s.scopes.current ∧ d.isFree name = true := by
  have hbound := isBoundLocally_agrees h.scopes name
  refine .after (get_ok.2 ⟨rfl, rfl⟩) ?_
  unfold Declared.isFree
  cases hlookup : (d.scopes.headD []).lookup name with
  | none =>
    rw [hlookup] at hbound
    simp only [hbound]
    exact .pure ⟨rfl, rfl, rfl⟩
  | some b =>
    rw [hlookup] at hbound
    simp only [hbound]
    exact Decides.refuse _

lemma bindName_decides (ha : Agrees s.listing s.scopes.frames d.scopes) (name : String)
    {symbol : Symbol} {b : Binding} (ht : Types s.listing symbol b) :
    Decides (bind name symbol) s
      ((if d.isFree name then some () else none).bind fun _ => some (d.bind name b))
      fun _ d' s' => Rescoped d d' s' := by
  unfold Declared.isFree
  cases hlookup : (d.scopes.headD []).lookup name with
  | none =>
    obtain ⟨scopes, hb, ha'⟩ := bind_free ha (by rw [hlookup]; rfl) ht
    exact ⟨(), { s with scopes }, bindName_ok.2 ⟨scopes, hb, rfl⟩, ha', rfl, rfl⟩
  | some _ =>
    obtain ⟨e, he⟩ := bind_taken ha name (by rw [hlookup]; rfl) symbol
    refine ⟨e, checked_error ?_⟩
    unfold Lowering.bind
    rw [he]
    rfl

/-! ### Expressions -/

/-- The result has the type. Its operand has a type, which is the same unless the result is
where the caller wants it: an initializer is computed into its variable before the types are
compared. -/
structure Typed (dest : Option VarId) (ty : Ty) (r : Lowered) (s : Lowering) : Prop where
  result : r.ty = ty
  operand : ∃ t, s.listing.typeOf? r.operand = some t ∧ (dest = none → t = ty)

/-- The variable that a result is wanted in exists. -/
def Wanted (dest : Option VarId) (l : Listing) : Prop :=
  ∀ v ∈ dest, ∃ ty, l.typeOf? (.var v) = some ty

lemma wanted_none {l : Listing} : Wanted none l := by
  simp [Wanted]

lemma Wanted.lt {dest : Option VarId} {l : Listing} (h : Wanted dest l) :
    ∀ v ∈ dest, v < l.vars.size := by
  intro v hv
  obtain ⟨ty, hty⟩ := h v hv
  exact typeOf?_var hty

lemma Wanted.carries {dest : Option VarId} {l l' : Listing} (h : Wanted dest l)
    (hc : Carries l l') : Wanted dest l' := by
  intro v hv
  obtain ⟨ty, hty⟩ := h v hv
  exact ⟨ty, hc.types hty⟩

lemma typeOf_eq {l : Listing} {o : Operand} {ty : Ty} (h : l.typeOf? o = some ty) :
    l.typeOf o = .ok ty := by
  unfold Listing.typeOf
  rw [h]
  rfl

lemma copy_succeeds {o : Operand} {ty : Ty} (h : s.listing.typeOf? o = some ty) (target : Place) :
    ∃ id s', emit (.copy o target) s = .ok (id, s') :=
  emit_succeeds _ ⟨ty, typeOf_eq h⟩

lemma freshTemporary_typeOf? (s : Lowering) (ty : Ty) :
    (s.freshTemporary ty).1.listing.typeOf? (.var s.listing.vars.size) = some ty := by
  have hget := Variables.get?_temporary s.listing.vars ty .none s.listing.vars.size
  rw [if_pos rfl] at hget
  exact Option.map_eq_some_iff.2 ⟨_, hget, rfl⟩

/-- A result that needs a variable gets one. -/
lemma destination_succeeds {dest : Option VarId}
    (hdest : Wanted dest s.listing) (ty : Ty) :
    ∃ v s', destination dest ty s = .ok (v, s') ∧ Typed dest ty ⟨.var v, ty⟩ s' := by
  cases dest with
  | none =>
    exact ⟨_, _, freshTemporary_ok.2 rfl, rfl, ty, freshTemporary_typeOf? s ty, fun _ => rfl⟩
  | some v =>
    obtain ⟨t, ht⟩ := hdest v rfl
    exact ⟨v, s, rfl, rfl, t, ht, by simp⟩

/-- One instruction puts a result into its variable. -/
lemma result_succeeds {dest : Option VarId}
    (hdest : Wanted dest s.listing) (ty : Ty)
    {action : VarId → Action}
    (ha : ∀ {t : Lowering} {v : VarId} {ty' : Ty}, Computes s t →
      t.listing.typeOf? (.var v) = some ty' → ∃ ty, t.listing.actionTy (action v) = .ok ty) :
    ∃ r s', (do
        let target ← destination dest ty
        let _ ← emit (action target)
        return (⟨.var target, ty⟩ : Lowered)) s = .ok (r, s') ∧ Typed dest ty r s' := by
  obtain ⟨v, t, hd, htyped⟩ := destination_succeeds hdest ty
  have hst := (destination_computes hdest.lt hd).1
  obtain ⟨ty', hty', -⟩ := htyped.operand
  obtain ⟨id, s', he⟩ := emit_succeeds _ (ha hst hty')
  refine ⟨_, s', bind_ok.2 ⟨v, t, hd, bind_ok.2 ⟨id, s', he, rfl⟩⟩, rfl, ?_⟩
  simpa only [Listing.typeOf?, (emit_emitted (emit_ok.1 he)).1.vars] using htyped.operand

lemma index_decides {value : Lowered} (name : String)
    (hv : ∃ t, s.listing.typeOf? value.operand = some t) :
    Decides (index name value) s (if .int = value.ty then some () else none)
      fun _ _ _ => True := by
  refine (expect_decides _ _ _).before fun _ _ s' _ hs => ?_
  subst hs
  split
  · exact ⟨_, _, rfl, trivial⟩
  · obtain ⟨t, ht⟩ := hv
    have hfresh : Reaches 0 s' (s'.freshTemporary .int).1 :=
      (freshTemporary_computes rfl).1.reaches
    obtain ⟨id, s'', he⟩ := copy_succeeds (hfresh.typeOf? ht) (.var s'.listing.vars.size)
    exact ⟨_, _, bind_ok.2 ⟨_, _, freshTemporary_ok.2 rfl, bind_ok.2 ⟨_, _, he, rfl⟩⟩, trivial⟩

lemma binary_decides (op : BinaryOp) {lhs rhs : Lowered} {dest : Option VarId}
    (hdest : Wanted dest s.listing)
    (hl : s.listing.typeOf? lhs.operand = some lhs.ty)
    (hr : s.listing.typeOf? rhs.operand = some rhs.ty) :
    Decides (binary op lhs rhs dest) s
      (if lhs.ty = rhs.ty ∧ lhs.ty.isValue then some (op.resultTy lhs.ty) else none)
      fun r ty s' => Typed dest ty r s' := by
  unfold binary
  by_cases hty : lhs.ty = rhs.ty ∧ lhs.ty.isValue
  · rw [if_pos hty, if_neg (by simpa using hty)]
    refine result_succeeds hdest _ fun {t v ty'} hst _ => ⟨op.resultTy rhs.ty, ?_⟩
    have hl' := (hst.reaches (k := 0)).typeOf? hl
    have hr' := (hst.reaches (k := 0)).typeOf? hr
    rw [hty.1] at hl'
    simp only [Listing.actionTy, typeOf_eq hl', typeOf_eq hr', Bind.bind, Except.bind, if_true]
    rfl
  · rw [if_neg hty, if_pos (by simpa [imp_iff_not_or] using hty)]
    exact ⟨_, rfl⟩

lemma unary_decides (op : UnaryOp) {value : Lowered} {dest : Option VarId}
    (hdest : Wanted dest s.listing)
    (hv : s.listing.typeOf? value.operand = some value.ty) :
    Decides (unary op value dest) s
      (if value.ty.isValue then some (op.resultTy value.ty) else none)
      fun r ty s' => Typed dest ty r s' := by
  unfold unary expectValue
  split
  · refine .after (pure_ok.2 ⟨rfl, rfl⟩) ?_
    refine result_succeeds hdest _ fun {t v ty'} hst _ => ⟨op.resultTy value.ty, ?_⟩
    simp only [Listing.actionTy, typeOf_eq ((hst.reaches (k := 0)).typeOf? hv)]
    rfl
  · exact ⟨_, rfl⟩

lemma assign_decides (lhs : Expr) {target : Target} {value : Lowered}
    (ht : s.listing.typeOf? target.place.operand = some target.ty)
    (hscope : target.place.operand.InScope s.listing)
    (hv : s.listing.typeOf? value.operand = some value.ty)
    (hvscope : value.operand.InScope s.listing) (dest : Option VarId) :
    Decides (assign lhs target value) s (if target.ty = value.ty then some target.ty else none)
      fun r ty s' => Typed dest ty r s' := by
  unfold assign expect
  split
  · obtain ⟨id, s', he⟩ := copy_succeeds hv target.place
    have hkept := (emit_reaches (k := 0) (emit_ok.1 he) ⟨hvscope, hscope⟩ rfl).typeOf? ht
    exact .after (pure_ok.2 ⟨rfl, rfl⟩) (.after he (.pure ⟨rfl, _, hkept, fun _ => rfl⟩))
  · exact ⟨_, rfl⟩

lemma callee_decides (h : Accords d s) (function : String) (count : Nat) :
    Decides (callee function count) s
      ((d.functions function).bind fun f => if f.params.length = count then some f else none)
      fun f i s' => s' = s ∧ f.interface = i := by
  refine .after (get_ok.2 ⟨rfl, rfl⟩) ?_
  rw [← h.functions]
  cases s.listing.functions.get? function with
  | none => exact .refuse _
  | some f =>
    simp only [Option.map_some, Option.bind_some]
    change Decides (if f.params.length = count then _ else _) s
      (if f.params.length = count then _ else _) _
    split
    · exact .pure ⟨rfl, rfl⟩
    · exact .refuse _

lemma pushes_succeed (args : List Operand) (s : Lowering) :
    ∃ s', (args.forM fun value => do let _ ← emit (.push value)) s = .ok ((), s') := by
  induction args generalizing s with
  | nil => exact ⟨s, rfl⟩
  | cons o rest ih =>
    obtain ⟨id, t, he⟩ := emit_succeeds (s := s) (.push o) ⟨.none, rfl⟩
    obtain ⟨s', hrest⟩ := ih t
    exact ⟨s', bind_ok.2 ⟨(), t, bind_ok.2 ⟨id, t, he, rfl⟩, hrest⟩⟩

lemma call_succeeds {f : Signature} {args : List Operand} {dest : Option VarId}
    (hargs : ∀ o ∈ args, o.InScope s.listing)
    (hdest : Wanted dest s.listing) :
    ∃ r s', call f args dest s = .ok (r, s') ∧ Typed dest f.returns r s' := by
  obtain ⟨t, hpush⟩ := pushes_succeed args s
  have hst := pushes_computes (pushes_of_forM hpush) hargs
  unfold call
  rw [bind_of_ok hpush]
  split
  · exact result_succeeds (hdest.carries (hst.reaches (k := 0)).carries) _
      fun {t' v ty'} _ hv => ⟨ty', typeOf_eq hv⟩
  · rename_i hvalue
    obtain ⟨id, s', he⟩ := emit_succeeds (s := t) (.call f.label none) ⟨.none, rfl⟩
    have hnone : f.returns = .none := by
      cases hf : f.returns <;> simp [hf, Ty.isValue] at hvalue ⊢
    refine ⟨_, s', bind_ok.2 ⟨id, s', he, rfl⟩, hnone.symm, .none, ?_, fun _ => hnone.symm⟩
    obtain ⟨rfl, ty, hty, hl, -⟩ := emit_eq (emit_ok.1 he)
    obtain rfl : .none = ty := Except.ok.inj hty
    simp [Listing.typeOf?, Listing.instr?, hl]

end

end Lower

/-! ### The checks of an expression in their order -/

namespace Source.Expr

variable {d : Declared}

lemma ty?_elem (name : String) (index : Expr) : (Expr.elem name index).ty? d =
    (d.array? name).bind fun ty => (index.ty? d).bind fun t =>
      (if .int = t then some () else none).bind fun _ => some ty := by
  rw [Expr.ty?]
  cases index.ty? d with
  | none => cases d.array? name <;> rfl
  | some t => cases t <;> cases d.array? name <;> rfl

lemma ty?_assign (lhs rhs : Expr) : (Expr.assign lhs rhs).ty? d =
    (rhs.ty? d).bind fun r => (if lhs.isPlace then lhs.ty? d else none).bind fun l =>
      if l = r then some l else none := by
  rw [Expr.ty?]
  cases lhs.isPlace <;> cases lhs.ty? d <;> cases rhs.ty? d <;> simp [eq_comm]

lemma ty?_binary (op : BinaryOp) (lhs rhs : Expr) : (Expr.binary op lhs rhs).ty? d =
    (lhs.ty? d).bind fun l => (rhs.ty? d).bind fun r =>
      if l = r ∧ l.isValue then some (op.resultTy l) else none := by
  rw [Expr.ty?]
  cases lhs.ty? d <;> cases rhs.ty? d <;> grind

lemma ty?_unary (op : UnaryOp) (operand : Expr) : (Expr.unary op operand).ty? d =
    (operand.ty? d).bind fun t => if t.isValue then some (op.resultTy t) else none := by
  rw [Expr.ty?]
  cases operand.ty? d <;> grind

lemma fit_length {args : List Expr} {tys : List Ty} (h : Expr.fit d args tys = true) :
    tys.length = args.length := by
  induction args generalizing tys with
  | nil => cases tys <;> simp_all [Expr.fit]
  | cons arg rest ih =>
    cases tys with
    | nil => simp [Expr.fit] at h
    | cons ty tys =>
      rw [Expr.fit, Bool.and_eq_true] at h
      simp [ih h.2]

lemma ty?_call (function : String) (args : List Expr) : (Expr.call function args).ty? d =
    ((d.functions function).bind fun f =>
      if f.params.length = args.length then some f else none).bind fun f =>
        (if Expr.fit d args f.params then some () else none).bind fun _ => some f.returns := by
  rw [Expr.ty?]
  cases d.functions function with
  | none => rfl
  | some f =>
    have hlen : Expr.fit d args f.params = true → f.params.length = args.length := fit_length
    grind

lemma fit_cons (arg : Expr) (args : List Expr) (ty : Ty) (tys : List Ty) :
    (if Expr.fit d (arg :: args) (ty :: tys) then some () else none) =
      (arg.ty? d).bind fun t => (if ty = t then some () else none).bind fun _ =>
        if Expr.fit d args tys then some () else none := by
  rw [Expr.fit]
  cases arg.ty? d <;> grind

end Source.Expr

namespace Lower

open Lowering

section

variable {d : Declared} {s s' : Lowering}

lemma Typed.typeOf? {ty : Ty} {r : Lowered} (h : Typed none ty r s) :
    s.listing.typeOf? r.operand = some r.ty := by
  obtain ⟨t, ht, hty⟩ := h.operand
  rw [ht, hty rfl, h.result]

lemma elem_decides {α : Type} {Q : α → Ty → Lowering → Prop} (h : Accords d s) (name : String)
    {inner : Expr}
    (hinner : Decides (expr none inner) s (inner.ty? d) fun r ty s' => Typed none ty r s')
    {result : ArrayId → Operand → Ty → α}
    (hQ : ∀ {a position ty s'}, s'.listing.typeOf? (.array a) = some ty →
      Q (result a position ty) ty s') :
    Decides (do
        let a ← arrayNamed name
        let position ← index name (← expr none inner)
        return result a position (← typeOf (.array a))) s ((Expr.elem name inner).ty? d) Q := by
  rw [Expr.ty?_elem]
  refine (arrayNamed_decides h name).bind fun a ty t _ hpost => ?_
  obtain ⟨rfl, ha⟩ := hpost
  refine hinner.bind fun r ty' t₁ hok htyped => ?_
  obtain ⟨h₁, hscope⟩ := expr_computes inner (by simp) hok
  obtain rfl := htyped.result
  refine (index_decides name ⟨_, htyped.typeOf?⟩).bind fun position _ t₂ hok' _ => ?_
  have h₂ := (index_computes hscope hok').1
  have ha' := ((h₁.trans h₂).reaches (k := 0)).typeOf? ha
  exact .after (typeOf_ok.2 ⟨ha', rfl⟩) (.pure (hQ ha'))

mutual

/-- Lowering an expression decides its type. -/
theorem expr_decides (e : Expr) {dest : Option VarId} {s : Lowering} (h : Accords d s)
    (hdest : Wanted dest s.listing) :
    Decides (expr dest e) s (e.ty? d) fun r ty s' => Typed dest ty r s' := by
  match e with
  | .int value => exact .pure ⟨rfl, .int, rfl, fun _ => rfl⟩
  | .float value => exact .pure ⟨rfl, .float, rfl, fun _ => rfl⟩
  | .var name =>
    refine (scalar_decides h name).mono fun r ty s' _ hpost => ?_
    obtain ⟨rfl, hty, hoperand⟩ := hpost
    exact ⟨hty, ty, hoperand, fun _ => rfl⟩
  | .elem name inner =>
    exact elem_decides h name (expr_decides inner h wanted_none)
      fun ha => ⟨rfl, _, ha, fun _ => rfl⟩
  | .paren inner => simpa only [expr, Expr.ty?] using expr_decides inner h hdest
  | .assign lhs rhs =>
    rw [Expr.ty?_assign, expr]
    refine (expr_decides rhs h wanted_none).bind fun value ty t hok htyped => ?_
    obtain ⟨hst, hscope⟩ := expr_computes rhs (by simp) hok
    obtain rfl := htyped.result
    refine (place_decides lhs (h.computes hst)).bind fun target ty' t' hok' hpost => ?_
    obtain ⟨rfl, htarget⟩ := hpost
    obtain ⟨htt', hscope'⟩ := place_computes lhs hok'
    exact assign_decides lhs.stripParens htarget hscope'
      ((htt'.reaches (k := 0)).typeOf? htyped.typeOf?) (htt'.inScope hscope) dest
  | .binary op lhs rhs =>
    rw [Expr.ty?_binary, expr]
    refine (expr_decides lhs h wanted_none).bind fun left ty t hok htyped => ?_
    have hst := (expr_computes lhs (by simp) hok).1
    obtain rfl := htyped.result
    refine (expr_decides rhs (h.computes hst) wanted_none).bind fun right ty' t' hok' htyped' => ?_
    have htt' := (expr_computes rhs (by simp) hok').1
    obtain rfl := htyped'.result
    exact binary_decides op (hdest.carries ((hst.trans htt').reaches (k := 0)).carries)
      ((htt'.reaches (k := 0)).typeOf? htyped.typeOf?) htyped'.typeOf?
  | .unary op operand =>
    rw [Expr.ty?_unary, expr]
    refine (expr_decides operand h wanted_none).bind fun value ty t hok htyped => ?_
    have hst := (expr_computes operand (by simp) hok).1
    obtain rfl := htyped.result
    exact unary_decides op (hdest.carries (hst.reaches (k := 0)).carries) htyped.typeOf?
  | .call function args =>
    rw [Expr.ty?_call, expr]
    refine (callee_decides h function args.length).bind fun f i t hok hpost => ?_
    obtain ⟨rfl, rfl⟩ := hpost
    obtain ⟨-, hlen, -⟩ := callee_ok hok
    refine (arguments_decides args h hlen).bind fun values _ t' hok' _ => ?_
    obtain ⟨hst, hscope⟩ := arguments_computes args hok'
    exact call_succeeds hscope (hdest.carries (hst.reaches (k := 0)).carries)

theorem place_decides (e : Expr) {s : Lowering} (h : Accords d s) :
    Decides (place e) s (if e.isPlace then e.ty? d else none) fun target ty s' =>
      target.ty = ty ∧ s'.listing.typeOf? target.place.operand = some ty := by
  match e with
  | .paren inner =>
    rw [place, Expr.ty?, Expr.isPlace]
    exact place_decides inner h
  | .var name =>
    rw [place, Expr.ty?]
    refine (resolve_decides h name).bind fun symbol b s' _ hpost => ?_
    obtain ⟨rfl, ht⟩ := hpost
    match symbol, b, ht with
    | .var v, .scalar ty, ht => exact .after (typeOf_ok.2 ⟨ht, rfl⟩) (.pure ⟨rfl, ht⟩)
    | .array a, .array ty, ht => exact .refuse _
  | .elem name inner =>
    exact elem_decides h name (expr_decides inner h wanted_none) fun ha => ⟨rfl, ha⟩
  | .int _ | .float _ | .binary _ _ _ | .assign _ _ | .unary _ _ | .call _ _ =>
    exact ⟨_, rfl⟩

theorem arguments_decides (args : List Expr) {function : String} {position : Nat}
    {params : List Ty} {s : Lowering} (h : Accords d s) (hlen : params.length = args.length) :
    Decides (arguments function position params args) s
      (if Expr.fit d args params then some () else none) fun _ _ _ => True := by
  match args, params with
  | [], [] => exact .pure trivial
  | arg :: rest, ty :: tys =>
    rw [Expr.fit_cons, arguments]
    refine (expr_decides arg h wanted_none).bind fun value ty' t hok htyped => ?_
    have hst := (expr_computes arg (by simp) hok).1
    obtain rfl := htyped.result
    refine (expect_decides _ _ _).bind fun _ _ t' _ ht' => ?_
    subst ht'
    refine (arguments_decides rest (h.computes hst) (Nat.succ.inj hlen)).before
      fun values _ t' hok' _ => ⟨_, _, rfl, trivial⟩

end

end

end Lower

end ThreeAddress
