import ThreeAddress.Proofs.Lowering.Coherence
import ThreeAddress.Proofs.Lowering.Structured

/-!
What lowering keeps, and how its scopes follow the text.

Instructions, variables and the names of labels stay as they are once they exist, and a
statement places only labels of its own. The scopes of lowering bind the names that are
visible at that point of the text; a declared variable is found by its number among the
variables that have names.
-/

namespace ThreeAddress

/-- The variables that have names, in the order of their declarations. -/
def Listing.named (l : Listing) : List VarId :=
  (List.range l.vars.size).filter fun v => (l.vars.get? v).any (!·.isTemporary)

/-- Every variable is the newest of its family. -/
structure Variables.Plain (t : Variables) : Prop where
  latest : t.latest = []
  roots : ∀ {v x r}, t.get? v = some x → x.root? = some r → r = v

lemma Variables.Plain.current {t : Variables} (h : t.Plain) (v : VarId) : t.current v = v := by
  unfold Variables.current
  cases hr : (t.get? v).bind Variable.root? with
  | none => rfl
  | some r =>
    obtain ⟨x, hx, hr⟩ := Option.bind_eq_some_iff.1 hr
    simp [Variables.newest, h.latest, h.roots hx hr]

namespace Variables

lemma get?_push (t : Variables) (kind : VarKind) (ty : Ty) (marks : Marks) (v : VarId) :
    (t.push kind ty marks).get? v =
      if v = t.size then some ⟨t.size, kind, ty, marks⟩ else t.get? v := by
  simp only [push, get?, size, Array.getElem?_push]
  congr

lemma size_push (t : Variables) (kind : VarKind) (ty : Ty) (marks : Marks) :
    (t.push kind ty marks).size = t.size + 1 := by
  simp [push, size]

lemma get?_temporary (t : Variables) (ty : Ty) (marks : Marks) (v : VarId) :
    (t.temporary ty marks).1.get? v =
      if v = t.size then some ⟨t.size, .temporary t.nextSerial, ty, marks⟩ else t.get? v :=
  get?_push t _ ty marks v

lemma size_temporary (t : Variables) (ty : Ty) (marks : Marks) :
    (t.temporary ty marks).1.size = t.size + 1 :=
  size_push t _ ty marks

lemma get?_declare (t : Variables) (name : String) (ty : Ty) (scope : Scope) (marks : Marks)
    (v : VarId) : (t.declare name ty scope marks).1.get? v =
      if v = t.size then some ⟨t.size, .named name scope 0 t.size, ty, marks⟩ else t.get? v :=
  get?_push t _ ty marks v

lemma size_declare (t : Variables) (name : String) (ty : Ty) (scope : Scope) (marks : Marks) :
    (t.declare name ty scope marks).1.size = t.size + 1 :=
  size_push t _ ty marks

lemma get?_size (t : Variables) : t.get? t.size = none := by
  simp [get?, size]

lemma Plain.temporary {t : Variables} (h : t.Plain) (ty : Ty) (marks : Marks) :
    (t.temporary ty marks).1.Plain := by
  refine ⟨h.latest, fun {v x r} hx hr => ?_⟩
  rw [get?_temporary] at hx
  split at hx
  · obtain rfl := Option.some.inj hx
    simp [Variable.root?] at hr
  · exact h.roots hx hr

lemma Plain.declare {t : Variables} (h : t.Plain) (name : String) (ty : Ty) (scope : Scope)
    (marks : Marks) : (t.declare name ty scope marks).1.Plain := by
  refine ⟨h.latest, fun {v x r} hx hr => ?_⟩
  rw [get?_declare] at hx
  split at hx
  · rename_i hv
    obtain rfl := Option.some.inj hx
    obtain rfl : t.size = r := by simpa [Variable.root?] using hr
    exact hv.symm
  · exact h.roots hx hr

end Variables

namespace Listing

/-- More variables leave the named ones at their places. -/
lemma named_prefix {l l' : Listing} (hsize : l.vars.size ≤ l'.vars.size)
    (hget : ∀ v < l.vars.size, l'.vars.get? v = l.vars.get? v) : l.named <+: l'.named := by
  obtain ⟨n, hn⟩ := Nat.exists_eq_add_of_le hsize
  refine ⟨((List.range n).map (l.vars.size + ·)).filter
    (fun v => (l'.vars.get? v).any (!·.isTemporary)), ?_⟩
  unfold named
  rw [hn, List.range_add, List.filter_append]
  congr 1
  refine List.filter_congr fun v hv => ?_
  rw [hget v (List.mem_range.1 hv)]

/-- A variable that is appended comes last among the named ones, if it has a name. -/
lemma named_push {l l' : Listing} {kind : VarKind} {ty : Ty} {marks : Marks}
    (h : l'.vars.vars = (l.vars.push kind ty marks).vars) : l'.named = l.named ++
      if (Variable.mk l.vars.size kind ty marks).isTemporary then [] else [l.vars.size] := by
  have hget (v : VarId) : l'.vars.get? v = (l.vars.push kind ty marks).get? v := congrArg (·[v]?) h
  have hold : ∀ v ∈ List.range l.vars.size, l'.vars.get? v = l.vars.get? v := fun v hv => by
    rw [hget, Variables.get?_push, if_neg (List.mem_range.1 hv).ne]
  have hlast : l'.vars.get? l.vars.size = some ⟨l.vars.size, kind, ty, marks⟩ := by
    rw [hget, Variables.get?_push, if_pos rfl]
  have hsize : l'.vars.size = l.vars.size + 1 := (congrArg Array.size h).trans (l.vars.size_push ..)
  unfold named
  rw [hsize, List.range_succ, List.filter_append, List.filter_congr fun v hv => by rw [hold v hv]]
  cases ht : (Variable.mk l.vars.size kind ty marks).isTemporary <;> simp [hlast, ht]

lemma named_nodup (l : Listing) : l.named.Nodup := List.nodup_range.filter _

/-- A variable has one number. -/
lemma named_inj (l : Listing) {x y : Nat} {v : VarId} (hx : l.named[x]? = some v)
    (hy : l.named[y]? = some v) : x = y := by
  obtain ⟨hlt, heq⟩ := List.getElem?_eq_some_iff.1 hx
  obtain ⟨hlt', heq'⟩ := List.getElem?_eq_some_iff.1 hy
  exact l.named_nodup.getElem_inj_iff.1 (heq.trans heq'.symm)

lemma mem_named {l : Listing} {v : VarId} :
    v ∈ l.named ↔ ∃ x, l.vars.get? v = some x ∧ x.isTemporary = false := by
  unfold named
  rw [List.mem_filter, List.mem_range]
  constructor
  · rintro ⟨-, h⟩
    cases hx : l.vars.get? v with
    | none => simp [hx] at h
    | some x => exact ⟨x, rfl, by simpa [hx] using h⟩
  · rintro ⟨x, hx, ht⟩
    refine ⟨?_, by simp [hx, ht]⟩
    by_contra hv
    have hnone : l.vars.get? v = none := Array.getElem?_eq_none (by simpa [Variables.size] using hv)
    simp [hnone] at hx

end Listing

namespace Scopes

/-- A name is bound in the innermost frame, or in a new one if there is none. -/
lemma bind_cases {s s' : Scopes} {name : String} {symbol : Symbol} (h : s.bind name symbol = .ok s') :
    (s.frames = [] ∧ s' = { s.push with frames := [⟨s.next, [(name, symbol)]⟩] }) ∨
    ∃ f outer, s.frames = f :: outer ∧ f.names.lookup name = none ∧
      s' = { s with frames := { f with names := (name, symbol) :: f.names } :: outer } := by
  unfold bind withFrame at h
  cases hframes : s.frames with
  | nil =>
    refine .inl ⟨rfl, ?_⟩
    simpa [hframes, Scopes.push, Pure.pure, Except.pure, eq_comm] using h
  | cons f outer =>
    refine .inr ⟨f, outer, rfl, ?_⟩
    simp only [hframes, List.isEmpty_cons, Bool.false_eq_true, if_false] at h
    split at h
    · cases h
    · rename_i hnone
      exact ⟨Option.not_isSome_iff_eq_none.1 hnone, (Except.ok.inj h).symm⟩

end Scopes

namespace Lowering

/-! ### What stays -/

/-- What exists is not changed, except that labels are placed. -/
structure Kept (s s' : Lowering) : Prop where
  grows : Grows s s'
  instr : ∀ i < s.listing.arena.size, s'.listing.instr? i = s.listing.instr? i
  vars : ∀ v < s.listing.vars.size, s'.listing.vars.get? v = s.listing.vars.get? v
  names : ∀ {label info}, s.listing.labels.get? label = some info →
    ∃ info', s'.listing.labels.get? label = some info' ∧ info'.name = info.name

lemma Kept.refl (s : Lowering) : Kept s s :=
  ⟨.refl s, fun _ _ => rfl, fun _ _ => rfl, fun h => ⟨_, h, rfl⟩⟩

lemma Kept.trans {s t s' : Lowering} (h : Kept s t) (h' : Kept t s') : Kept s s' := by
  refine ⟨h.grows.trans h'.grows, fun i hi => ?_, fun v hv => ?_, fun hl => ?_⟩
  · rw [h'.instr i (Nat.lt_of_lt_of_le hi h.grows.arena), h.instr i hi]
  · rw [h'.vars v (Nat.lt_of_lt_of_le hv h.grows.vars), h.vars v hv]
  · obtain ⟨info, hinfo, hname⟩ := h.names hl
    obtain ⟨info', hinfo', hname'⟩ := h'.names hinfo
    exact ⟨info', hinfo', hname'.trans hname⟩

lemma get?_push_of_some {t : Labels} {name : LabelName} {label : LabelId} {info : Label}
    (h : t.get? label = some info) : (t.push name).get? label = some info := by
  have hlt : label < t.labels.size := (Array.getElem?_eq_some_iff.1 h).1
  simpa [Labels.push, Labels.get?, Array.getElem?_push, hlt.ne] using h

lemma emit_kept {s s' : Lowering} {action : Action} {id : InstrId}
    (h : s.emit action = .ok (s', id)) : Kept s s' := by
  obtain ⟨-, ty, -, hl, -⟩ := emit_eq h
  refine ⟨⟨by simp [hl], by simp [hl], by simp [hl]⟩, fun i hi => ?_, fun v _ => by simp [hl],
    fun hi => ⟨_, by simpa [hl] using hi, rfl⟩⟩
  simp [hl, Listing.instr?, Array.getElem?_push, Nat.ne_of_lt hi]

lemma Step.kept {k : Nat} {s s' : Lowering} (h : Step k s s') : Kept s s' := by
  have hgrows := h.grows
  cases h with
  | emit he _ _ => exact emit_kept he
  | startAt hs _ =>
    obtain ⟨t, he, -, rfl⟩ := startAt_eq hs
    refine ⟨hgrows, fun i hi => ?_, fun v hv => ?_, fun {label' info} hl => ?_⟩
    · rw [← leaveBlock_listing s] at hi ⊢
      exact (emit_kept he).instr i hi
    · rw [← leaveBlock_listing s] at hv ⊢
      exact (emit_kept he).vars v hv
    · rw [← leaveBlock_listing s] at hl
      obtain ⟨info', hinfo', hname⟩ := (emit_kept he).names hl
      simp only [Labels.get?, Array.getElem?_modify] at hinfo' ⊢
      split
      · exact ⟨{ info' with site := some s.listing.arena.size }, by rw [hinfo']; rfl, hname⟩
      · exact ⟨info', hinfo', hname⟩
  | freshLabel =>
    exact ⟨hgrows, fun _ _ => rfl, fun _ _ => rfl, fun hl => ⟨_, get?_push_of_some hl, rfl⟩⟩
  | freshTemporary ty =>
    refine ⟨hgrows, fun _ _ => rfl, fun v hv => ?_, fun hl => ⟨_, hl, rfl⟩⟩
    exact (Variables.get?_temporary _ _ _ v).trans (if_neg (Nat.ne_of_lt hv))
  | freshVariable name ty scope marks =>
    refine ⟨hgrows, fun _ _ => rfl, fun v hv => ?_, fun hl => ⟨_, hl, rfl⟩⟩
    exact (Variables.get?_declare _ _ _ _ _ v).trans (if_neg (Nat.ne_of_lt hv))
  | _ => exact ⟨hgrows, fun _ _ => rfl, fun _ _ => rfl, fun hl => ⟨_, hl, rfl⟩⟩

lemma ItemStep.kept {s s' : Lowering} (h : ItemStep s s') : Kept s s' := by
  cases h with
  | step hs => exact hs.kept
  | context =>
    exact ⟨⟨le_rfl, le_rfl, le_rfl⟩, fun _ _ => rfl, fun _ _ => rfl, fun hl => ⟨_, hl, rfl⟩⟩
  | declareFunction hd =>
    obtain ⟨functions, labels, hdeclare, rfl⟩ := declareFunction_eq hd
    obtain rfl | rfl := declare_labels hdeclare
    · exact ⟨⟨le_rfl, le_rfl, le_rfl⟩, fun _ _ => rfl, fun _ _ => rfl, fun hl => ⟨_, hl, rfl⟩⟩
    · refine ⟨⟨le_rfl, le_rfl, ?_⟩, fun _ _ => rfl, fun _ _ => rfl,
        fun hl => ⟨_, get?_push_of_some hl, rfl⟩⟩
      simp [Labels.push, Labels.size]

lemma Extends.kept {s s' : Lowering} (h : Extends s s') : Kept s s' := by
  induction h with
  | refl => exact .refl s
  | tail _ hstep ih => exact ih.trans hstep.kept

lemma Reaches.kept {k : Nat} {s s' : Lowering} (h : Reaches k s s') : Kept s s' :=
  h.extends.kept

lemma Computes.kept {s s' : Lowering} (h : Computes s s') : Kept s s' :=
  (h.reaches (k := 0)).kept

lemma Kept.named {s s' : Lowering} (h : Kept s s') : s.listing.named <+: s'.listing.named :=
  Listing.named_prefix h.grows.vars h.vars

section

variable {P : Variables → Prop}
  (htemporary : ∀ {t : Variables} (ty : Ty) (marks : Marks), P t → P (t.temporary ty marks).1)
  (hdeclare : ∀ {t : Variables} (name : String) (ty : Ty) (scope : Scope) (marks : Marks), P t →
    P (t.declare name ty scope marks).1)

include htemporary hdeclare

lemma ItemStep.keeps_vars {s s' : Lowering} (h : ItemStep s s') (hs : P s.listing.vars) :
    P s'.listing.vars := by
  cases h with
  | step hstep =>
    cases hstep with
    | emit he _ _ =>
      obtain ⟨-, ty, -, hl, -⟩ := emit_eq he
      rw [hl]
      exact hs
    | startAt hst _ =>
      obtain ⟨t, he, -, rfl⟩ := startAt_eq hst
      obtain ⟨-, ty, -, hl, -⟩ := emit_eq he
      rw [hl, leaveBlock_listing]
      exact hs
    | freshTemporary ty => exact htemporary ty .none hs
    | freshVariable name ty scope marks => exact hdeclare name ty scope marks hs
    | _ => exact hs
  | context => exact hs
  | declareFunction hd =>
    obtain ⟨functions, labels, -, rfl⟩ := declareFunction_eq hd
    exact hs

/-- What new temporaries and declarations keep of the variables, all of lowering keeps. -/
lemma Extends.keeps_vars {s s' : Lowering} (h : Extends s s') (hs : P s.listing.vars) :
    P s'.listing.vars := by
  induction h with
  | refl => exact hs
  | tail _ hstep ih => exact hstep.keeps_vars htemporary hdeclare ih

end

lemma Extends.plain {s s' : Lowering} (h : Extends s s') (hs : s.listing.vars.Plain) :
    s'.listing.vars.Plain :=
  h.keeps_vars (fun ty marks hp => hp.temporary ty marks)
    (fun name ty scope marks hp => hp.declare name ty scope marks) hs

/-! ### Single operations -/

/-- What an emitted instruction leaves as it was. -/
structure Emitted (s : Lowering) (action : Action) (s' : Lowering) : Prop where
  size : s'.listing.arena.size = s.listing.arena.size + 1
  instr : ∃ x, s'.listing.instr? s.listing.arena.size = some x ∧ x.action = action
  vars : s'.listing.vars = s.listing.vars
  arrays : s'.listing.arrays = s.listing.arrays
  functions : s'.listing.functions = s.listing.functions
  scopes : s'.scopes = s.scopes
  unreachable : s'.unreachable = action.operator.endsPath

lemma emit_emitted {s s' : Lowering} {action : Action} {id : InstrId}
    (h : s.emit action = .ok (s', id)) :
    Emitted s action s' ∧ s'.listing.labels = s.listing.labels ∧ id = s.listing.arena.size := by
  obtain ⟨rfl, ty, -, hl, hscopes, -, hpath, -⟩ := emit_eq h
  refine ⟨⟨?_, ⟨⟨s.listing.arena.size, action, ty, s.block⟩, ?_, rfl⟩, ?_, ?_, ?_, hscopes, hpath⟩,
    ?_, rfl⟩ <;> simp [hl, Listing.instr?]

lemma startAt_emitted {s s' : Lowering} {label : LabelId} (h : s.startAt label = .ok s') :
    Emitted s (.label label) s' ∧
      (∃ info, s'.listing.labels.get? label = some info ∧
        info.site = some s.listing.arena.size) ∧
      ∀ other, other ≠ label → s'.listing.labels.get? other = s.listing.labels.get? other := by
  obtain ⟨t, he, hlt, rfl⟩ := startAt_eq h
  obtain ⟨hemit, hlabels, -⟩ := emit_emitted he
  have hscopes : s.leaveBlock.scopes = s.scopes := by
    unfold leaveBlock
    split <;> rfl
  refine ⟨⟨?_, ?_, ?_, ?_, ?_, ?_, ?_⟩, ?_, ?_⟩
  · simpa [leaveBlock_listing] using hemit.size
  · have hinstr := hemit.instr
    rw [leaveBlock_listing] at hinstr
    exact hinstr
  · simpa [leaveBlock_listing] using hemit.vars
  · simpa [leaveBlock_listing] using hemit.arrays
  · simpa [leaveBlock_listing] using hemit.functions
  · simpa [hscopes] using hemit.scopes
  · exact hemit.unreachable
  · obtain ⟨info, hget⟩ : ∃ info, t.listing.labels.labels[label]? = some info :=
      ⟨_, Array.getElem?_eq_getElem hlt⟩
    refine ⟨{ info with site := some s.listing.arena.size }, ?_, rfl⟩
    simp [Labels.get?, Array.getElem?_modify, hget]
  · intro other hne
    simp [Labels.get?, Array.getElem?_modify, hne.symm, hlabels, leaveBlock_listing]

/-- A statement does not touch the labels that were there before it. -/
lemma Reaches.label_eq {k : Nat} {s s' : Lowering} (h : Reaches k s s') {label : LabelId}
    (hlt : label < k) (hsize : k ≤ s.listing.labels.size) :
    s'.listing.labels.get? label = s.listing.labels.get? label := by
  induction h with
  | refl => rfl
  | @tail t t' hr hstep ih =>
    rw [← ih]
    cases hstep with
    | emit he _ _ => rw [(emit_emitted he).2.1]
    | startAt hs hl => exact (startAt_emitted hs).2.2 label (Nat.lt_of_lt_of_le hlt hl).ne
    | freshLabel =>
      have hne : label ≠ t.listing.labels.labels.size :=
        (Nat.lt_of_lt_of_le hlt (hsize.trans (Reaches.grows hr).labels)).ne
      simp [Lowering.freshLabel, Labels.synthetic, Labels.push, Labels.get?, Array.getElem?_push,
        hne]
    | _ => rfl

lemma Reaches.functions {k : Nat} {s s' : Lowering} (h : Reaches k s s') :
    s'.listing.functions = s.listing.functions := by
  induction h with
  | refl => rfl
  | tail _ hstep ih =>
    rw [← ih]
    cases hstep with
    | emit he _ _ => exact (emit_emitted he).1.functions
    | startAt hs _ => exact (startAt_emitted hs).1.functions
    | _ => rfl

/-- What lowering an expression leaves as it was. -/
structure Unmoved (s s' : Lowering) : Prop where
  scopes : s'.scopes = s.scopes
  labels : s'.listing.labels = s.listing.labels
  arrays : s'.listing.arrays = s.listing.arrays
  named : s'.listing.named = s.listing.named
  reached : s.unreachable = false → s'.unreachable = false

lemma named_freshTemporary (s : Lowering) (ty : Ty) :
    (s.freshTemporary ty).1.listing.named = s.listing.named := by
  have hvars : (s.freshTemporary ty).1.listing.vars.vars =
      (s.listing.vars.push (.temporary s.listing.vars.nextSerial) ty .none).vars := rfl
  rw [Listing.named_push hvars]
  exact List.append_nil _

lemma named_freshVariable {s s' : Lowering} {name : String} {ty : Ty} {scope : Scope}
    {marks : Marks} {v : VarId} (h : s.freshVariable name ty scope marks = (s', v)) :
    s'.listing.named = s.listing.named ++ [v] := by
  have hs : s' = (s.freshVariable name ty scope marks).1 := by rw [h]
  have hv : v = s.listing.vars.size := congrArg Prod.snd h.symm
  subst hs hv
  have hvars : (s.freshVariable name ty scope marks).1.listing.vars.vars =
      (s.listing.vars.push (.named name scope 0 s.listing.vars.size) ty marks).vars := rfl
  exact Listing.named_push hvars

lemma Computes.unmoved {s s' : Lowering} (h : Computes s s') : Unmoved s s' := by
  induction h with
  | refl => exact ⟨rfl, rfl, rfl, rfl, id⟩
  | @tail t t' _ hstep ih =>
    cases hstep with
    | emit he _ _ hpath =>
      obtain ⟨hemit, hlabels, -⟩ := emit_emitted he
      refine ⟨hemit.scopes.trans ih.scopes, hlabels.trans ih.labels, hemit.arrays.trans ih.arrays,
        ?_, fun _ => hemit.unreachable.trans hpath⟩
      rw [← ih.named, Listing.named, hemit.vars]
      rfl
    | freshTemporary ty =>
      exact ⟨ih.scopes, ih.labels, ih.arrays, (named_freshTemporary t ty).trans ih.named, ih.reached⟩

/-! ### Scopes -/

open Source

/-- All bindings in force, the innermost first. -/
def bindings (s : Scopes) : List (String × Symbol) := s.frames.flatMap (·.names)

lemma binding_eq (s : Scopes) (name : String) : s.binding name = (bindings s).lookup name := by
  unfold Scopes.binding bindings
  induction s.frames with
  | nil => rfl
  | cons frame outer ih =>
    rw [List.findSome?_cons, List.flatMap_cons, List.lookup_append, ih]
    cases frame.names.lookup name <;> rfl

lemma bindings_push (s : Scopes) : bindings s.push = bindings s := rfl

/-- Nothing is bound or unbound outside the innermost frame. -/
def SameOuter (s s' : Scopes) : Prop :=
  s.frames ≠ [] → s'.frames ≠ [] ∧ s'.frames.tail = s.frames.tail

lemma SameOuter.refl (s : Scopes) : SameOuter s s := fun h => ⟨h, rfl⟩

lemma SameOuter.trans {s t s' : Scopes} (h : SameOuter s t) (h' : SameOuter t s') :
    SameOuter s s' := by
  intro hs
  obtain ⟨ht, htail⟩ := h hs
  obtain ⟨hs', htail'⟩ := h' ht
  exact ⟨hs', htail'.trans htail⟩

lemma bind_spec {s s' : Scopes} {name : String} {symbol : Symbol}
    (h : s.bind name symbol = .ok s') :
    bindings s' = (name, symbol) :: bindings s ∧ SameOuter s s' := by
  obtain ⟨hframes, rfl⟩ | ⟨f, outer, hframes, -, rfl⟩ := Scopes.bind_cases h
  · exact ⟨by simp [bindings, hframes], fun hne => absurd hframes hne⟩
  · exact ⟨by simp [bindings, hframes], fun _ => ⟨by simp, by simp [hframes]⟩⟩

/-- What a name of the text stands for while it is lowered. -/
def Bound (c : Context) (l : Listing) : Symbol → Symbol → Prop
  | .var x, .var v => x < c.vars ∧ l.named[x]? = some v
  | .array a, .array b => a = b
  | _, _ => False

/-- The bindings are those of the context. -/
def Binds (c : Context) (s : Lowering) : Prop :=
  List.Forall₂ (fun e e' => e.1 = e'.1 ∧ Bound c s.listing e.2 e'.2) c.names (bindings s.scopes)

lemma Bound.mono {c c' : Context} {l l' : Listing} (hc : c.vars ≤ c'.vars)
    (hl : l.named <+: l'.named) {symbol symbol' : Symbol} (h : Bound c l symbol symbol') :
    Bound c' l' symbol symbol' := by
  cases symbol <;> cases symbol' <;> try exact h
  rename_i x v
  obtain ⟨hx, hv⟩ := h
  refine ⟨Nat.lt_of_lt_of_le hx hc, ?_⟩
  obtain ⟨rest, hrest⟩ := hl
  rw [← hrest, List.getElem?_append_left (List.getElem?_eq_some_iff.1 hv).1, hv]

lemma lookup_forall₂ {R : Symbol → Symbol → Prop} {names names' : List (String × Symbol)}
    (h : List.Forall₂ (fun e e' => e.1 = e'.1 ∧ R e.2 e'.2) names names') {name : String}
    {symbol' : Symbol} (hl : names'.lookup name = some symbol') :
    ∃ symbol, names.lookup name = some symbol ∧ R symbol symbol' := by
  induction h with
  | nil => simp at hl
  | @cons e e' rest rest' he _ ih =>
    obtain ⟨n, a⟩ := e
    obtain ⟨n', a'⟩ := e'
    obtain ⟨rfl, hR⟩ := he
    rw [List.lookup_cons] at hl ⊢
    cases hn : name == n with
    | true =>
      obtain rfl : a' = symbol' := by simpa [hn] using hl
      exact ⟨a, rfl, hR⟩
    | false => exact ih (by simpa [hn] using hl)

/-- A name resolves to what the context says. -/
lemma Binds.lookup {c : Context} {s : Lowering} (h : Binds c s) (hp : s.listing.vars.Plain)
    {name : String} {symbol' : Symbol}
    (hl : s.scopes.lookup s.listing.vars name = some symbol') :
    ∃ symbol, c.names.lookup name = some symbol ∧ Bound c s.listing symbol symbol' := by
  unfold Scopes.lookup at hl
  rw [binding_eq] at hl
  obtain ⟨symbol, hsymbol, rfl⟩ := Option.map_eq_some_iff.1 hl
  have hfound := lookup_forall₂ h hsymbol
  cases symbol with
  | var v => simpa only [hp.current] using hfound
  | array a => exact hfound

/-- The state of lowering at a point of the text with this context. -/
structure Fits (c : Context) (s : Lowering) : Prop where
  binds : Binds c s
  vars : s.listing.named.length = c.vars
  arrays : s.listing.arrays.size = c.arrays
  plain : s.listing.vars.Plain

lemma Binds.mono {c c' : Context} {s s' : Lowering} (h : Binds c s) (hnames : c'.names = c.names)
    (hb : bindings s'.scopes = bindings s.scopes) (hc : c.vars ≤ c'.vars)
    (hl : s.listing.named <+: s'.listing.named) : Binds c' s' := by
  unfold Binds
  rw [hnames, hb]
  exact h.imp fun e e' he => ⟨he.1, he.2.mono hc hl⟩

lemma Fits.unmoved {c : Context} {s s' : Lowering} (h : Fits c s) (hs : Computes s s') :
    Fits c s' := by
  have hu := hs.unmoved
  refine ⟨h.binds.mono rfl (by rw [hu.scopes]) le_rfl (by rw [hu.named]), ?_, ?_, ?_⟩
  · rw [hu.named, h.vars]
  · rw [hu.arrays, h.arrays]
  · exact (hs.reaches (k := 0)).extends.plain h.plain

lemma Fits.of_eq {c : Context} {s s' : Lowering} (h : Fits c s) (hscopes : s'.scopes = s.scopes)
    (hvars : s'.listing.vars = s.listing.vars) (harrays : s'.listing.arrays = s.listing.arrays) :
    Fits c s' := by
  have hnamed : s'.listing.named = s.listing.named := by
    unfold Listing.named
    rw [hvars]
  exact ⟨h.binds.mono rfl (by rw [hscopes]) le_rfl (by rw [hnamed]), by rw [hnamed, h.vars],
    by rw [harrays, h.arrays], hvars ▸ h.plain⟩

lemma Fits.emitted {c : Context} {s s' : Lowering} {action : Action} (h : Fits c s)
    (he : Emitted s action s') : Fits c s' :=
  h.of_eq he.scopes he.vars he.arrays

/-- A further variable with a name. -/
lemma Fits.declareVar {c : Context} {s s' : Lowering} {v : VarId} {name : String}
    {scopes : Scopes} (h : Fits c s) (hs : s'.scopes = s.scopes)
    (hnamed : s'.listing.named = s.listing.named ++ [v])
    (harrays : s'.listing.arrays = s.listing.arrays) (hplain : s'.listing.vars.Plain)
    (hb : s'.scopes.bind name (.var v) = .ok scopes) :
    Fits (c.declareVar name) { s' with scopes } := by
  obtain ⟨hbindings, -⟩ := bind_spec hb
  have hold : Binds { c with vars := c.vars + 1 } s' :=
    h.binds.mono rfl (by rw [hs]) (Nat.le_succ _) ⟨[v], hnamed.symm⟩
  refine ⟨?_, ?_, ?_, hplain⟩
  · unfold Binds
    rw [hbindings]
    refine .cons ⟨rfl, Nat.lt_succ_self _, ?_⟩ hold
    rw [hnamed, ← h.vars]
    simp
  · rw [hnamed, List.length_append, h.vars]
    rfl
  · rw [harrays, h.arrays]
    rfl

end Lowering

namespace Lower

open Source Lowering

/-- What is known of the state after a statement that control reaches. -/
structure After (c : Context) (ends : Bool) (s s' : Lowering) : Prop where
  fits : Fits c s'
  unreachable : s'.unreachable = ends
  outer : SameOuter s.scopes s'.scopes

variable {c : Context} {s s' : Lowering}

lemma declare_after {ty : DeclTy} {name : String} {init : Option Expr} {u : Unit}
    (h : declare ty name init s = .ok (u, s')) (hf : Fits c s) (hr : s.unreachable = false) :
    After (c.declareVar name) false s s' := by
  have hplain := (declare_reaches (k := 0) h).extends.plain hf.plain
  obtain ⟨-, -, t, v, t', scopes, hv, hinit, hb, rfl⟩ := declare_ok h
  have hvt := (freshVariable_reaches (k := 0) hv).2
  have ht : t = (s.freshVariable name ty.ty s.scopes.current .none).1 := by rw [hv]
  have htt' : Computes t t' := by
    cases init with
    | none => exact hinit ▸ .refl t
    | some e => exact initVariable_computes hvt hinit
  have hu := htt'.unmoved
  have hscopes : t'.scopes = s.scopes := by rw [hu.scopes, ht]; rfl
  refine ⟨hf.declareVar hscopes ?_ ?_ hplain hb, ?_, ?_⟩
  · rw [hu.named, named_freshVariable hv]
  · rw [hu.arrays, ht]
    rfl
  · exact hu.reached (by rw [ht]; exact hr)
  · rw [← hscopes]
    exact (bind_spec hb).2

lemma declareArray_after {ty : DeclTy} {name : String} {length : Nat} {u : Unit}
    (h : declareArray ty name length s = .ok (u, s')) (hf : Fits c s)
    (hr : s.unreachable = false) : After (c.declareArray name) false s s' := by
  obtain ⟨-, -, t, a, scopes, ha, hb, rfl⟩ := declareArray_ok h
  have ht : t = (s.freshArray ⟨name, ty.ty, length, s.scopes.current⟩).1 := by rw [ha]
  have ha' : a = s.listing.arrays.size := congrArg Prod.snd ha.symm
  subst ht ha'
  obtain ⟨hbindings, houter⟩ := bind_spec hb
  refine ⟨⟨?_, hf.vars, ?_, hf.plain⟩, hr, houter⟩
  · unfold Binds
    rw [hbindings]
    exact .cons ⟨rfl, hf.arrays.symm⟩ (hf.binds.mono rfl rfl le_rfl List.prefix_rfl)
  · have hsize : s.listing.arrays.arrays.size = c.arrays := hf.arrays
    simp [Lowering.freshArray, Arrays.declare, Arrays.size, Context.declareArray, hsize]

lemma freshLabel_eq {label : LabelId} (h : s.freshLabel = (s', label)) :
    s'.scopes = s.scopes ∧ s'.listing.vars = s.listing.vars ∧
      s'.listing.arrays = s.listing.arrays ∧ s'.unreachable = s.unreachable := by
  have hs : s' = s.freshLabel.1 := by rw [h]
  subst hs
  exact ⟨rfl, rfl, rfl, rfl⟩

lemma After.trans {t : Lowering} {c' : Context} {ends ends' : Bool} (h : After c ends s t)
    (h' : After c' ends' t s') : After c' ends' s s' :=
  ⟨h'.fits, h'.unreachable, h.outer.trans h'.outer⟩

lemma computes_after (h : Computes s s') (hf : Fits c s) (hr : s.unreachable = false) :
    After c false s s' := by
  have hu := h.unmoved
  exact ⟨hf.unmoved h, hu.reached hr, by rw [hu.scopes]; exact .refl _⟩

lemma freshLabel_after {label : LabelId} (h : s.freshLabel = (s', label)) (hf : Fits c s) :
    After c s.unreachable s s' := by
  obtain ⟨hscopes, hvars, harrays, hr⟩ := freshLabel_eq h
  exact ⟨hf.of_eq hscopes hvars harrays, hr, by rw [hscopes]; exact .refl _⟩

lemma emitted_after {action : Action} (h : Emitted s action s') (hf : Fits c s) :
    After c action.operator.endsPath s s' :=
  ⟨hf.emitted h, h.unreachable, by rw [h.scopes]; exact .refl _⟩

lemma jumpToJoin_after {join : Option LabelId} (h : jumpToJoin s = .ok (join, s'))
    (hf : Fits c s) : After c true s s' ∧ join.isNone = s.unreachable := by
  have h := jumpToJoin_ok h
  split at h
  · rename_i hr
    obtain ⟨rfl, rfl⟩ := h
    exact ⟨⟨hf, hr, .refl _⟩, hr.symm⟩
  · rename_i hr
    obtain ⟨t, label, id, ht, he, rfl⟩ := h
    have h₁ := freshLabel_after ht hf
    exact ⟨h₁.trans (emitted_after (emit_emitted he).1 h₁.fits), by simpa using hr⟩

lemma jumpUnlessEnded_after {label : LabelId} {u : Unit}
    (h : jumpUnlessEnded label s = .ok (u, s')) (hf : Fits c s) : After c true s s' := by
  have h := jumpUnlessEnded_ok h
  split at h
  · rename_i hr
    subst h
    exact ⟨hf, hr, .refl _⟩
  · obtain ⟨id, he⟩ := h
    exact emitted_after (emit_emitted he).1 hf

lemma stmts_unreachable (body : List Stmt) {u : Unit} {s s' : Lowering}
    (h : stmts body s = .ok (u, s')) (hr : s.unreachable = true) : s' = s := by
  induction body generalizing s with
  | nil =>
    obtain ⟨-, rfl⟩ := pure_ok.1 h
    rfl
  | cons first rest ih =>
    obtain ⟨t, hfirst, hrest⟩ := stmts_cons_ok h
    obtain rfl := stmt_unreachable hfirst hr
    exact ih hrest hr

lemma Branches.after {test : Expr} {label : LabelId} (h : Branches test label s s')
    (hf : Fits c s) (hr : s.unreachable = false) : After c false s s' := by
  obtain ⟨o, t, t', id, hc, hl, hj⟩ := h
  have h₁ := computes_after (condition_computes hc).1 hf hr
  have h₂ := freshLabel_after hl h₁.fits
  exact h₁.trans (h₂.trans (emitted_after (emit_emitted hj).1 h₂.fits))

mutual

/-- The scopes follow the text through a statement that control reaches. -/
theorem stmt_after (body : Stmt) {c : Context} {s s' : Lowering} {u : Unit}
    (h : stmt body s = .ok (u, s')) (hf : Fits c s) (hr : s.unreachable = false) :
    After (body.context c) body.ends s s' := by
  match body with
  | .expr e =>
    obtain ⟨r, he⟩ := stmt_expr_ok hr h
    exact computes_after (expr_computes e (by simp) he).1 hf hr
  | .compound body =>
    obtain ⟨t, hb, rfl⟩ := stmt_compound_ok hr h
    have hf' : Fits c { s with scopes := s.scopes.push } :=
      ⟨hf.binds.mono rfl (bindings_push _) le_rfl List.prefix_rfl, hf.vars, hf.arrays, hf.plain⟩
    have ha := stmts_after body hb hf' hr
    obtain ⟨hne, htail⟩ := ha.outer (by simp [Scopes.push])
    have hframes : t.scopes.pop.frames = s.scopes.frames := htail
    have hkept := (stmts_reaches body (Nat.zero_le _) hb).kept
    have hvars : c.vars ≤ (contextAfter c body).vars := by
      have := hkept.named.length_le
      rw [← hf.vars, ← ha.fits.vars]
      exact this
    refine ⟨⟨?_, ha.fits.vars, ha.fits.arrays, ha.fits.plain⟩, ha.unreachable, fun hs => ?_⟩
    · refine hf.binds.mono rfl ?_ hvars hkept.named
      unfold bindings
      rw [hframes]
    · rw [hframes]
      exact ⟨hs, rfl⟩
  | .ifThen test body =>
    obtain ⟨label, t, t', htest, hb, hs⟩ := stmt_ifThen_ok hr h
    have h₁ := htest.after hf hr
    have h₂ := stmt_after body hb h₁.fits h₁.unreachable
    exact h₁.trans (h₂.trans (emitted_after (startAt_emitted hs).1 h₂.fits))
  | .ifElse test onTrue onFalse =>
    obtain ⟨label, t, t₁, join, t₂, t₃, t₄, htest, ht, hjoin, hs, he, hend⟩ :=
      stmt_ifElse_ok hr h
    have h₁ := htest.after hf hr
    have h₂ := stmt_after onTrue ht h₁.fits h₁.unreachable
    obtain ⟨h₃, hnone⟩ := jumpToJoin_after hjoin h₂.fits
    have h₄ := emitted_after (startAt_emitted hs).1 h₃.fits
    have h₅ := stmt_after onFalse he h₄.fits h₄.unreachable
    have hto := h₁.trans (h₂.trans (h₃.trans (h₄.trans h₅)))
    rw [h₂.unreachable] at hnone
    cases join with
    | none =>
      obtain ⟨-, rfl⟩ := pure_ok.1 hend
      exact ⟨hto.fits, by rw [hto.unreachable, Stmt.ends, ← hnone]; rfl, hto.outer⟩
    | some join =>
      have h₆ := emitted_after (startAt_emitted (startAt_ok.1 hend)).1 hto.fits
      have hlast := hto.trans h₆
      exact ⟨hlast.fits, by rw [hlast.unreachable, Stmt.ends, ← hnone]; rfl, hlast.outer⟩
  | .while test body =>
    obtain ⟨head, t₁, t₂, label, t₃, t₄, t₅, hh, hs, htest, hb, hback, hend⟩ :=
      stmt_while_ok hr h
    have h₁ := freshLabel_after hh hf
    have h₂ := emitted_after (startAt_emitted hs).1 h₁.fits
    have h₃ := htest.after h₂.fits h₂.unreachable
    have h₄ := stmt_after body hb h₃.fits h₃.unreachable
    have h₅ := jumpUnlessEnded_after hback h₄.fits
    have h₆ := emitted_after (startAt_emitted hend).1 h₅.fits
    exact h₁.trans (h₂.trans (h₃.trans (h₄.trans (h₅.trans h₆))))
  | .decl ty name init => exact declare_after (stmt_decl_ok hr h) hf hr
  | .array ty name length => exact declareArray_after (stmt_array_ok hr h) hf hr
  | .ret none =>
    obtain ⟨-, id, he⟩ := ret_ok (stmt_ret_ok hr h)
    exact emitted_after (emit_emitted he).1 hf
  | .ret (some value) =>
    obtain ⟨r, t, he, h⟩ := stmt_retValue_ok hr h
    obtain ⟨-, id, hret⟩ := ret_ok h
    have h₁ := computes_after (expr_computes value (by simp) he).1 hf hr
    exact h₁.trans (emitted_after (emit_emitted hret).1 h₁.fits)

theorem stmts_after (body : List Stmt) {c : Context} {s s' : Lowering} {u : Unit}
    (h : stmts body s = .ok (u, s')) (hf : Fits c s) (hr : s.unreachable = false) :
    After (contextAfter c body) (endsAny body) s s' := by
  match body with
  | [] =>
    obtain ⟨-, rfl⟩ := pure_ok.1 h
    exact ⟨hf, hr, .refl _⟩
  | first :: rest =>
    obtain ⟨t, hfirst, hrest⟩ := stmts_cons_ok h
    have h₁ := stmt_after first hfirst hf hr
    simp only [contextAfter, endsAny]
    cases hends : first.ends with
    | true =>
      obtain rfl := stmts_unreachable rest hrest (h₁.unreachable.trans hends)
      exact ⟨h₁.fits, h₁.unreachable.trans hends, h₁.outer⟩
    | false => exact h₁.trans (stmts_after rest hrest h₁.fits (h₁.unreachable.trans hends))

end

end Lower

end ThreeAddress
