import Mathlib
import ThreeAddress.Code.Scopes

/-!
What names mean, told by the requests alone.

A lexicon knows what the open levels bind and which declaration each variable belongs to. It has
no scopes, no generations and no table of the newest variables: a name is found on the innermost
level that binds it, and of the variables of one declaration the one made last is the newest.

The main statements are about requests that come in one after the other. What a level hides comes
back when it is closed, and the newest variable of a declaration changes with its renames only.
-/

namespace ThreeAddress

/-- What may be asked of a stack of scopes and of the variables beside it. -/
inductive Request
  | push
  | pop
  | bind (name : String) (symbol : Symbol)
  | declare (name : String) (ty : Ty) (scope : Scope) (marks : Marks)
  | temporary (ty : Ty) (marks : Marks)
  | rename (v : VarId)

/-- The bindings of the open levels, the innermost first, and the declaration that each variable
belongs to, by number. A declaration belongs to itself and a temporary to none. -/
structure Lexicon where
  levels : List (String → Option Symbol)
  origins : List (Option VarId)

namespace Lexicon

def empty : Lexicon := ⟨[], []⟩

def depth (e : Lexicon) : Nat := e.levels.length

/-- The declaration that a variable belongs to. -/
def origin? (e : Lexicon) (v : VarId) : Option VarId := e.origins[v]?.join

/-- The levels after a request. What the innermost one binds already is not bound again. -/
def relevel (levels : List (String → Option Symbol)) : Request → List (String → Option Symbol)
  | .push => (fun _ => none) :: levels
  | .pop => levels.tail
  | .bind name symbol =>
    match levels with
    | [] => [fun n => if n = name then some symbol else none]
    | level :: outer =>
      if (level name).isSome then level :: outer
      else (fun n => if n = name then some symbol else level n) :: outer
  | _ => levels

/-- The variable that a request makes, by what it belongs to. -/
def created (e : Lexicon) : Request → Option (Option VarId)
  | .declare .. => some (some e.origins.length)
  | .temporary .. => some none
  | .rename v => some (e.origin? v)
  | _ => none

def after (e : Lexicon) (r : Request) : Lexicon :=
  ⟨relevel e.levels r, e.origins ++ (e.created r).toList⟩

def afterAll (e : Lexicon) (rs : List Request) : Lexicon := rs.foldl after e

/-- Only what was declared is renamed, and of the variables only it is bound to a name. -/
def Admits (e : Lexicon) : Request → Prop
  | .rename v | .bind _ (.var v) => (e.origin? v).isSome
  | _ => True

instance (e : Lexicon) : (r : Request) → Decidable (e.Admits r)
  | .rename v | .bind _ (.var v) => inferInstanceAs (Decidable ((e.origin? v).isSome = true))
  | .push | .pop | .bind _ (.array _) | .declare .. | .temporary .. =>
    inferInstanceAs (Decidable True)

def AdmitsAll (e : Lexicon) : List Request → Prop
  | [] => True
  | r :: rs => e.Admits r ∧ (e.after r).AdmitsAll rs

instance decidableAdmitsAll (e : Lexicon) : (rs : List Request) → Decidable (e.AdmitsAll rs)
  | [] => inferInstanceAs (Decidable True)
  | r :: rs =>
    have := decidableAdmitsAll (e.after r) rs
    inferInstanceAs (Decidable (e.Admits r ∧ (e.after r).AdmitsAll rs))

/-- The innermost level that binds the name binds it to the symbol. -/
def Finds (e : Lexicon) (name : String) (symbol : Symbol) : Prop :=
  ∃ inner level outer, e.levels = inner ++ level :: outer ∧ level name = some symbol ∧
    ∀ l ∈ inner, l name = none

/-- The variable was made last of those of a declaration. -/
def Newest (e : Lexicon) (d v : VarId) : Prop :=
  e.origin? v = some d ∧ ∀ u, e.origin? u = some d → u ≤ v

/-- What stands for a variable after a request that may rename it. -/
def renamedBy (e : Lexicon) (v : VarId) : Request → VarId
  | .rename u => if e.origin? u = e.origin? v then e.origins.length else v
  | _ => v

/-- What stands for a variable after the renames among the requests. -/
def renamed (e : Lexicon) (v : VarId) : List Request → VarId
  | [] => v
  | r :: rs => (e.after r).renamed (e.renamedBy v r) rs

/-- What stands for a symbol after the renames among the requests. -/
def renamedSymbol (e : Lexicon) (rs : List Request) : Symbol → Symbol
  | .var v => .var (e.renamed v rs)
  | .array a => .array a

/-- A request opens a level, and those that follow it leave that level open, and at their end no
other above it. -/
structure Encloses (e : Lexicon) (opening : Request) (inner : List Request) : Prop where
  opens : (e.after opening).depth = e.depth + 1
  above : ∀ done ∈ inner.inits, e.depth < ((e.after opening).afterAll done).depth
  closes : ((e.after opening).afterAll inner).depth = e.depth + 1

variable {e : Lexicon} {r : Request} {rs : List Request} {d u v w : VarId} {name : String}
  {symbol : Symbol}

lemma afterAll_append (e : Lexicon) (rs ts : List Request) :
    e.afterAll (rs ++ ts) = (e.afterAll rs).afterAll ts := List.foldl_append ..

lemma finds_iff : e.Finds name symbol ↔ e.levels.findSome? (· name) = some symbol := by
  rw [List.findSome?_eq_some_iff]
  rfl

lemma Newest.unique (hv : e.Newest d v) (hw : e.Newest d w) : v = w :=
  le_antisymm (hw.2 v hv.1) (hv.2 w hw.1)

/-! ### What belongs to a declaration -/

lemma origin?_lt (h : e.origin? v = some d) : v < e.origins.length :=
  (List.getElem?_eq_some_iff.1 (Option.join_eq_some_iff.1 h)).1

lemma origin?_after : (e.after r).origin? v = some d ↔
    e.origin? v = some d ∨ v = e.origins.length ∧ e.created r = some (some d) := by
  simp only [origin?, after, Option.join_eq_some_iff]
  rcases lt_trichotomy v e.origins.length with hlt | rfl | hgt
  · rw [List.getElem?_append_left hlt]
    simp [hlt.ne]
  · cases e.created r <;> simp
  · rw [List.getElem?_append_right hgt.le, List.getElem?_eq_none hgt.le]
    have hpos : 0 < v - e.origins.length := Nat.sub_pos_of_lt hgt
    cases e.created r <;> simp [hgt.ne', hpos.ne']

lemma origin?_after_of_some (h : e.origin? v = some d) : (e.after r).origin? v = some d :=
  origin?_after.2 (.inl h)

lemma origin?_afterAll_of_some (h : e.origin? v = some d) (rs : List Request) :
    (e.afterAll rs).origin? v = some d := by
  induction rs generalizing e with
  | nil => exact h
  | cons r rs ih => exact ih (origin?_after_of_some h)

/-- What the lexicon speaks of was declared. -/
structure Sound (e : Lexicon) : Prop where
  bound : ∀ level ∈ e.levels, ∀ name v, level name = some (.var v) → (e.origin? v).isSome
  root : ∀ v d, e.origin? v = some d → d < e.origins.length

lemma sound_empty : Sound empty := ⟨by simp [empty], by simp [empty, origin?]⟩

/-- A binding after a request was there before, or was asked for. -/
lemma relevel_mem {levels : List (String → Option Symbol)} {level : String → Option Symbol}
    (hmem : level ∈ relevel levels r) (hbound : level name = some symbol) :
    (∃ l ∈ levels, l name = some symbol) ∨ r = .bind name symbol := by
  cases r with
  | push =>
    rcases List.mem_cons.1 hmem with rfl | hmem
    · cases hbound
    · exact .inl ⟨level, hmem, hbound⟩
  | pop => exact .inl ⟨level, List.mem_of_mem_tail hmem, hbound⟩
  | bind n t =>
    cases levels with
    | nil =>
      obtain rfl := List.mem_singleton.1 hmem
      simp only [Option.ite_none_right_eq_some, Option.some.injEq] at hbound
      obtain ⟨rfl, rfl⟩ := hbound
      exact .inr rfl
    | cons first outer =>
      simp only [relevel] at hmem
      split at hmem
      · exact .inl ⟨level, hmem, hbound⟩
      · rcases List.mem_cons.1 hmem with rfl | hmem
        · dsimp only at hbound
          split at hbound
          · rename_i heq
            obtain rfl := Option.some.inj hbound
            exact .inr (heq ▸ rfl)
          · exact .inl ⟨first, List.mem_cons_self, hbound⟩
        · exact .inl ⟨level, List.mem_cons_of_mem _ hmem, hbound⟩
  | declare | temporary | rename => exact .inl ⟨level, hmem, hbound⟩

lemma Sound.after (h : e.Sound) (hr : e.Admits r) : (e.after r).Sound where
  bound level hmem name v hbound := by
    have hdeclared : (e.origin? v).isSome := by
      rcases relevel_mem hmem hbound with ⟨l, hl, hv⟩ | rfl
      · exact h.bound l hl name v hv
      · exact hr
    obtain ⟨d, hd⟩ := Option.isSome_iff_exists.1 hdeclared
    exact Option.isSome_iff_exists.2 ⟨d, origin?_after_of_some hd⟩
  root v d hd := by
    have hlen : (e.after r).origins.length = e.origins.length + (e.created r).toList.length :=
      List.length_append
    rcases origin?_after.1 hd with hold | ⟨-, hcreated⟩
    · exact (h.root v d hold).trans_le (hlen ▸ Nat.le_add_right _ _)
    · have hle : d ≤ e.origins.length := by
        cases r with
        | declare =>
          obtain rfl := Option.some.inj (Option.some.inj hcreated)
          exact le_rfl
        | rename u => exact (h.root u d (Option.some.inj hcreated)).le
        | _ => cases hcreated
      rw [hlen, hcreated]
      exact Nat.lt_succ_of_le hle

/-! ### Renames -/

lemma Newest.after (h : e.Sound) (hv : e.Newest d v) :
    (e.after r).Newest d (e.renamedBy v r) := by
  -- only a variable that is made for the same declaration is newer
  have hkept (hcreated : e.created r ≠ some (some d)) : (e.after r).Newest d v := by
    refine ⟨origin?_after_of_some hv.1, fun u hu => ?_⟩
    rcases origin?_after.1 hu with hold | ⟨-, hnew⟩
    · exact hv.2 u hold
    · exact absurd hnew hcreated
  cases r with
  | rename u =>
    rw [renamedBy]
    split
    · rename_i heq
      refine ⟨origin?_after.2 (.inr ⟨rfl, congrArg some (heq.trans hv.1)⟩), fun w hw => ?_⟩
      rcases origin?_after.1 hw with hold | ⟨hnew, -⟩
      · exact (origin?_lt hold).le
      · exact hnew.le
    · rename_i hne
      exact hkept fun hcreated => hne ((Option.some.inj hcreated).trans hv.1.symm)
  | declare =>
    refine hkept fun hcreated => ?_
    obtain rfl := Option.some.inj (Option.some.inj hcreated)
    exact lt_irrefl _ (h.root v _ hv.1)
  | push | pop | bind | temporary => exact hkept (by simp [created])

lemma Newest.afterAll (h : e.Sound) (hrs : e.AdmitsAll rs) (hv : e.Newest d v) :
    (e.afterAll rs).Newest d (e.renamed v rs) := by
  induction rs generalizing e v with
  | nil => exact hv
  | cons r rs ih => exact ih (h.after hrs.1) hrs.2 (hv.after h)

/-! ### Levels that are closed again -/

lemma after_outer {top base : List (String → Option Symbol)} (hne : top ≠ [])
    (h : e.levels = top ++ base) (r : Request) :
    ∃ above, (e.after r).levels = above ++ base := by
  obtain ⟨level, top, rfl⟩ := List.exists_cons_of_ne_nil hne
  simp only [after, h, List.cons_append]
  cases r with
  | push => exact ⟨_ :: level :: top, rfl⟩
  | pop => exact ⟨top, rfl⟩
  | bind name symbol =>
    rw [relevel]
    split
    · exact ⟨level :: top, rfl⟩
    · exact ⟨_ :: top, rfl⟩
  | declare | temporary | rename => exact ⟨level :: top, rfl⟩

/-- Requests that stay above some levels leave them as they are. -/
lemma afterAll_outer {top base : List (String → Option Symbol)} (h : e.levels = top ++ base)
    (habove : ∀ done ∈ rs.inits, base.length < (e.afterAll done).depth) :
    ∃ above, (e.afterAll rs).levels = above ++ base := by
  induction rs generalizing e top with
  | nil => exact ⟨top, h⟩
  | cons r rs ih =>
    -- there is a level above for the first request to work on
    have hne : top ≠ [] := by
      rintro rfl
      have hdepth := habove [] (by simp)
      simp [afterAll, depth, h] at hdepth
    obtain ⟨next, hnext⟩ := after_outer hne h r
    refine ih hnext fun done hdone => habove (r :: done) ?_
    rw [List.inits_cons]
    exact List.mem_cons_of_mem _ (List.mem_map_of_mem hdone)

/-- A level is opened on top of those that are open. -/
lemma opens_levels (h : (e.after r).depth = e.depth + 1) :
    ∃ level, (e.after r).levels = level :: e.levels := by
  simp only [depth, after] at h ⊢
  cases r with
  | push => exact ⟨_, rfl⟩
  | bind name symbol =>
    cases hlevels : e.levels with
    | nil => exact ⟨_, rfl⟩
    | cons level outer =>
      rw [hlevels, relevel] at h
      split at h <;> simp at h
  | pop =>
    simp only [relevel, List.length_tail] at h
    omega
  | declare | temporary | rename => simp [relevel] at h

lemma Encloses.levels {opening : Request} {inner : List Request} (h : e.Encloses opening inner) :
    (e.afterAll (opening :: inner ++ [.pop])).levels = e.levels := by
  obtain ⟨level, hlevel⟩ := opens_levels h.opens
  rw [← List.singleton_append] at hlevel
  obtain ⟨above, habove⟩ := afterAll_outer hlevel h.above
  have hone : above.length = 1 := by
    have hcloses := h.closes
    rw [depth, habove, List.length_append] at hcloses
    exact Nat.add_right_cancel (hcloses.trans (Nat.add_comm ..))
  obtain ⟨last, rfl⟩ := List.length_eq_one_iff.1 hone
  rw [List.cons_append, ← List.singleton_append, afterAll_append, afterAll_append]
  exact congrArg List.tail habove

end Lexicon

end ThreeAddress
