import ThreeAddress.Proofs.Lowering.Naming
import ThreeAddress.Proofs.Numbering.Edits

/-!
The text of a variable tells which variable it is, and so does that of an array.

A text is read from its end. The two numbers of the scope stand behind the last two colons,
whatever characters the name has, and what is left is the name and the generation, which is 0
as long as nothing is renamed. The text of a temporary has no colon. So equal texts mean equal
names and scopes or equal serials, and these identify a variable among those that lowering and
value numbering make.
-/

namespace ThreeAddress

/-! ### Texts are read from the end -/

lemma append_cons_inj_of_notMem_right {α : Type} {c : α} {x y z w : List α} (hz : c ∉ z)
    (hw : c ∉ w) (h : x ++ c :: z = y ++ c :: w) : x = y ∧ z = w := by
  rcases List.append_eq_append_iff.1 h with ⟨as, rfl, heq⟩ | ⟨bs, rfl, heq⟩
  · cases as with
    | nil => simpa using heq
    | cons a as =>
      obtain ⟨-, rfl⟩ := List.cons.inj heq
      simp at hz
  · cases bs with
    | nil => simpa using heq.symm
    | cons b bs =>
      obtain ⟨-, rfl⟩ := List.cons.inj heq
      simp at hw

lemma colon_notMem_digits (n : Nat) : ':' ∉ (toString n).toList := by
  intro hmem
  rw [Nat.toString_eq_repr, Nat.toList_repr] at hmem
  exact absurd (Nat.isDigit_of_mem_toDigits (by decide) le_rfl hmem) (by decide)

lemma append_number_inj {a b : String} {m n : Nat}
    (h : a ++ ":" ++ toString m = b ++ ":" ++ toString n) : a = b ∧ m = n := by
  have hlist := congrArg String.toList h
  simp only [String.toList_append, List.append_assoc] at hlist
  obtain ⟨hname, hnumber⟩ := append_cons_inj_of_notMem_right (colon_notMem_digits m)
    (colon_notMem_digits n) hlist
  exact ⟨String.toList_inj.1 hname, Nat.repr_injective (String.toList_inj.1 hnumber)⟩

lemma Scope.text_eq (s : Scope) : s.text = toString s.depth ++ ":" ++ toString s.index := rfl

lemma append_scope_inj {a b : String} {s t : Scope}
    (h : a ++ ":" ++ s.text = b ++ ":" ++ t.text) : a = b ∧ s = t := by
  rw [Scope.text_eq, Scope.text_eq, ← String.append_assoc, ← String.append_assoc,
    ← String.append_assoc, ← String.append_assoc] at h
  obtain ⟨h, hindex⟩ := append_number_inj h
  obtain ⟨hname, hdepth⟩ := append_number_inj h
  obtain ⟨depth, index⟩ := s
  obtain ⟨depth', index'⟩ := t
  exact ⟨hname, Scope.mk.injEq _ _ _ _ ▸ ⟨hdepth, hindex⟩⟩

lemma ArrayDecl.text_inj {x y : ArrayDecl} (h : x.text = y.text) :
    x.name = y.name ∧ x.scope = y.scope :=
  append_scope_inj h

lemma colon_notMem_temporary (serial : Nat) : ':' ∉ ("$t" ++ toString serial).toList := by
  rw [String.toList_append, List.mem_append, not_or]
  exact ⟨by decide, colon_notMem_digits serial⟩

namespace Variable

variable {x y : Variable} {name : String} {scope : Scope} {generation serial : Nat} {root : VarId}

lemma text_named (h : x.kind = .named name scope generation root) :
    x.text = name ++ toString generation ++ ":" ++ scope.text := by
  rw [text, h]

lemma text_temporary (h : x.kind = .temporary serial) : x.text = "$t" ++ toString serial := by
  rw [text, h]

lemma text_ne (hx : x.kind = .named name scope generation root)
    (hy : y.kind = .temporary serial) : x.text ≠ y.text := by
  intro heq
  have hcolon : ':' ∈ x.text.toList := by simp [text_named hx]
  rw [heq, text_temporary hy] at hcolon
  exact colon_notMem_temporary serial hcolon

end Variable

/-! ### Generations and serials -/

/-- Nothing was renamed, and no two temporaries have the same serial. -/
structure Variables.Counted (t : Variables) : Prop where
  generation : ∀ {v x name scope generation root}, t.get? v = some x →
    x.kind = .named name scope generation root → generation = 0
  serial_lt : ∀ {v x serial}, t.get? v = some x → x.kind = .temporary serial →
    serial < t.nextSerial
  serial_inj : ∀ {v w x y serial}, t.get? v = some x → t.get? w = some y →
    x.kind = .temporary serial → y.kind = .temporary serial → v = w

namespace Variables.Counted

variable {t : Variables}

lemma empty : Variables.empty.Counted := by
  constructor <;> simp [Variables.empty, Variables.get?]

lemma temporary (h : t.Counted) (ty : Ty) (marks : Marks) : (t.temporary ty marks).1.Counted := by
  refine ⟨fun {v x name scope generation root} hx hkind => ?_, fun {v x serial} hx hkind => ?_,
    fun {v w x y serial} hx hy hkind hkind' => ?_⟩
  · rw [get?_temporary] at hx
    split at hx
    · obtain rfl := Option.some.inj hx
      cases hkind
    · exact h.generation hx hkind
  · rw [get?_temporary] at hx
    split at hx
    · obtain rfl := Option.some.inj hx
      cases hkind
      exact Nat.lt_succ_self _
    · exact (h.serial_lt hx hkind).trans (Nat.lt_succ_self _)
  · rw [get?_temporary] at hx hy
    split at hx <;> split at hy
    · simp_all
    · obtain rfl := Option.some.inj hx
      cases hkind
      exact absurd (h.serial_lt hy hkind') (lt_irrefl _)
    · obtain rfl := Option.some.inj hy
      cases hkind'
      exact absurd (h.serial_lt hx hkind) (lt_irrefl _)
    · exact h.serial_inj hx hy hkind hkind'

lemma declare (h : t.Counted) (name : String) (ty : Ty) (scope : Scope) (marks : Marks) :
    (t.declare name ty scope marks).1.Counted := by
  -- a temporary is an old one
  have hold : ∀ {v x serial}, (t.declare name ty scope marks).1.get? v = some x →
      x.kind = .temporary serial → t.get? v = some x := by
    intro v x serial hx hkind
    rw [get?_declare] at hx
    split at hx
    · obtain rfl := Option.some.inj hx
      cases hkind
    · exact hx
  refine ⟨fun {v x name' scope' generation root} hx hkind => ?_,
    fun hx hkind => h.serial_lt (hold hx hkind) hkind,
    fun hx hy hkind hkind' => h.serial_inj (hold hx hkind) (hold hy hkind') hkind hkind'⟩
  rw [get?_declare] at hx
  split at hx
  · obtain rfl := Option.some.inj hx
    cases hkind
    rfl
  · exact h.generation hx hkind

end Variables.Counted

namespace Lowering

variable {s s' : Lowering}

lemma Extends.counted (h : Extends s s') (hs : s.listing.vars.Counted) :
    s'.listing.vars.Counted :=
  h.keeps_vars (fun ty marks hc => hc.temporary ty marks)
    (fun name ty scope marks hc => hc.declare name ty scope marks) hs

end Lowering

/-! ### Lowering and value numbering -/

/-- What tells variables and arrays apart. -/
structure Listing.Distinguished (l : Listing) : Prop where
  declared : ∀ d ∈ l.declarations, ∀ e ∈ l.declarations, d.name = e.name → d.scope = e.scope →
    d = e
  counted : l.vars.Counted

namespace Listing

variable {l l' : Listing}

lemma Distinguished.temporary (h : l.Distinguished) (ty : Ty) (marks : Marks) :
    { l with vars := (l.vars.temporary ty marks).1 }.Distinguished := by
  refine ⟨?_, h.counted.temporary ty marks⟩
  rw [declarations_temporary]
  exact h.declared

lemma Distinguished.withTemporaries (h : l.Distinguished) (types : List Ty) :
    { l with vars := l.vars.withTemporaries types }.Distinguished := by
  induction types using List.reverseRecOn with
  | nil => rwa [Variables.withTemporaries_nil]
  | append_singleton types ty ih =>
    rw [← Variables.withTemporaries_snoc]
    exact ih.temporary ty .ofPass

lemma Distinguished.congr (h : l.Distinguished) (hvars : l'.vars = l.vars)
    (harrays : l'.arrays = l.arrays) : l'.Distinguished := by
  refine ⟨?_, hvars ▸ h.counted⟩
  rw [declarations_congr hvars harrays]
  exact h.declared

lemma ofProgram_distinguished {p : Source.Program} (h : Listing.ofProgram p = .ok l) :
    l.Distinguished := by
  refine ⟨fun d hd e he => declarations_unique h hd he, ?_⟩
  obtain ⟨s, hs, rfl⟩ := ofProgram_ok h
  exact (Lower.program_extends hs).counted .empty

open ValueNumbering in
lemma Reachable.distinguished (h : l.Reachable) : l.Distinguished := by
  refine h.invariant ofProgram_distinguished fun {l block _ _} hb t events hl => ?_
  obtain ⟨types, hvars⟩ := scanned_vars t events (le_refl block.instrs.length)
  obtain ⟨arena, stream, vars, htables⟩ := scanBlock_tables hb t events
  refine (hl.withTemporaries types).congr ?_ ?_
  · rw [scanBlock_vars hb, finished, hvars]
  · rw [htables]

/-- Different variables have different texts, and so have different arrays. Variables with names
differ in name or scope, temporaries in their serials, and arrays in name or scope. -/
structure TextsIdentify (l : Listing) : Prop where
  vars : ∀ {v w x y}, l.vars.get? v = some x → l.vars.get? w = some y → v ≠ w → x.text ≠ y.text
  arrays : ∀ {a b x y}, l.arrays.get? a = some x → l.arrays.get? b = some y → a ≠ b →
    x.text ≠ y.text
  named : ∀ {v w x y name scope generation generation' root root'}, l.vars.get? v = some x →
    l.vars.get? w = some y → x.kind = .named name scope generation root →
    y.kind = .named name scope generation' root' → v = w
  temporaries : ∀ {v w x y serial}, l.vars.get? v = some x → l.vars.get? w = some y →
    x.kind = .temporary serial → y.kind = .temporary serial → v = w
  scopes : ∀ {a b x y}, l.arrays.get? a = some x → l.arrays.get? b = some y → x.name = y.name →
    x.scope = y.scope → a = b

namespace Distinguished

lemma named (h : l.Distinguished) {v w : VarId} {x y : Variable} {name : String} {scope : Scope}
    {generation generation' : Nat} {root root' : VarId} (hx : l.vars.get? v = some x)
    (hy : l.vars.get? w = some y) (hkind : x.kind = .named name scope generation root)
    (hkind' : y.kind = .named name scope generation' root') : v = w := by
  have hd : ⟨name, scope, .var v⟩ ∈ l.declarations :=
    ⟨x, hx, by rw [Variable.name?, hkind], by rw [Variable.scope?, hkind]⟩
  have he : ⟨name, scope, .var w⟩ ∈ l.declarations :=
    ⟨y, hy, by rw [Variable.name?, hkind'], by rw [Variable.scope?, hkind']⟩
  exact Symbol.var.inj (congrArg Declaration.symbol (h.declared _ hd _ he rfl rfl))

lemma arrays (h : l.Distinguished) {a b : ArrayId} {x y : ArrayDecl}
    (hx : l.arrays.get? a = some x) (hy : l.arrays.get? b = some y) (hname : x.name = y.name)
    (hscope : x.scope = y.scope) : a = b := by
  have hd : ⟨x.name, x.scope, .array a⟩ ∈ l.declarations := ⟨x, hx, rfl, rfl⟩
  have he : ⟨y.name, y.scope, .array b⟩ ∈ l.declarations := ⟨y, hy, rfl, rfl⟩
  exact Symbol.array.inj (congrArg Declaration.symbol (h.declared _ hd _ he hname hscope))

/-- Equal texts belong to one variable. -/
lemma vars (h : l.Distinguished) {v w : VarId} {x y : Variable} (hx : l.vars.get? v = some x)
    (hy : l.vars.get? w = some y) (htext : x.text = y.text) : v = w := by
  cases hkind : x.kind with
  | named name scope generation root =>
    cases hkind' : y.kind with
    | named name' scope' generation' root' =>
      rw [Variable.text_named hkind, Variable.text_named hkind', h.counted.generation hx hkind,
        h.counted.generation hy hkind'] at htext
      obtain ⟨hname, rfl⟩ := append_scope_inj htext
      obtain rfl := (String.append_left_inj _).1 hname
      exact h.named hx hy hkind hkind'
    | temporary serial => exact absurd htext (Variable.text_ne hkind hkind')
  | temporary serial =>
    cases hkind' : y.kind with
    | named name scope generation root => exact absurd htext.symm (Variable.text_ne hkind' hkind)
    | temporary serial' =>
      rw [Variable.text_temporary hkind, Variable.text_temporary hkind'] at htext
      obtain rfl : serial = serial' := Nat.repr_injective ((String.append_right_inj _).1 htext)
      exact h.counted.serial_inj hx hy hkind hkind'

end Distinguished

/-- **Texts identify** the variables and arrays of a listing that lowering and value numbering
make. -/
theorem Reachable.textsIdentify (h : l.Reachable) : l.TextsIdentify where
  vars hx hy hne htext := hne (h.distinguished.vars hx hy htext)
  arrays hx hy hne htext :=
    hne (h.distinguished.arrays hx hy (ArrayDecl.text_inj htext).1 (ArrayDecl.text_inj htext).2)
  named := h.distinguished.named
  temporaries := h.distinguished.counted.serial_inj
  scopes := h.distinguished.arrays

/-- `if (1 + 2) { int x; int $t0; } else int x;` -/
def bareDeclaration : Source.Program :=
  .stmt (.ifElse (.binary .add (.int 1) (.int 2))
    (.compound [.decl .int "x" none, .decl .int "$t0" none]) (.decl .int "x" none))

open ValueNumbering in
/-- The last declaration stands outside all scopes. -/
theorem Reachable.textsIdentify_bareDeclaration : ∃ l,
    Listing.ofProgram bareDeclaration = .ok l ∧ (run .standard l).1.TextsIdentify ∧
    (run .standard l).1.vars.vars.toList.map Variable.text =
      ["$t0", "x0:1:0", "$t00:1:0", "x0:0:0"] := by
  have hok : ((Listing.ofProgram bareDeclaration).toOption.map fun l =>
      decide ((run .standard l).1.vars.vars.toList.map Variable.text =
        ["$t0", "x0:1:0", "$t00:1:0", "x0:0:0"])) = some true := by decide +kernel
  obtain ⟨l, hl, hok⟩ := toOption_map_eq_some.1 hok
  exact ⟨l, hl, Reachable.textsIdentify (.numbered .standard (.lowered hl)),
    of_decide_eq_true hok⟩

end Listing

end ThreeAddress
