import ThreeAddress.Proofs.Families
import ThreeAddress.Proofs.Lexicon
import ThreeAddress.Proofs.Lowering.Naming

/-!
The stack of scopes and the variables beside it behave as a lexicon.

A session serves requests to both and writes down what they hand out: the scopes that are opened
and the numbers of the variables that are made. Each request keeps the session in step with the
lexicon that is told by the requests alone. So a name that is looked up stands for what the
lexicon finds, and no scope is handed out twice.
-/

namespace ThreeAddress

namespace Scopes

variable {s : Scopes} {name : String} {symbol : Symbol} {issued : List Scope}

/-- What the open frames bind. -/
def levels (s : Scopes) : List (String → Option Symbol) :=
  s.frames.map fun frame name => frame.names.lookup name

/-! ### Bindings -/

lemma bind_withFrame (s : Scopes) (name : String) (symbol : Symbol) :
    s.withFrame.bind name symbol = s.bind name symbol := by
  have hidem : s.withFrame.withFrame = s.withFrame := by
    cases hframes : s.frames <;> simp [withFrame, hframes, push]
  rw [bind, hidem, ← bind]

lemma bind_error {refusal : Diagnostic} (h : s.bind name symbol = .error refusal) :
    ∃ frame outer, s.frames = frame :: outer ∧ (frame.names.lookup name).isSome := by
  unfold bind withFrame at h
  cases hframes : s.frames with
  | nil => simp [hframes, push, pure, Except.pure] at h
  | cons frame outer =>
    refine ⟨frame, outer, rfl, ?_⟩
    simp only [hframes, List.isEmpty_cons, Bool.false_eq_true, if_false] at h
    split at h
    · assumption
    · cases h

/-- Where a binding is refused, no frame was opened for it. -/
lemma attempt_eq (s : Scopes) (name : String) (symbol : Symbol) :
    s.attempt name symbol = match s.bind name symbol with
      | .ok bound => (bound, none)
      | .error refusal => (s, some refusal) := by
  rw [attempt, bind_withFrame]
  cases hbind : s.bind name symbol with
  | ok bound => rfl
  | error refusal =>
    obtain ⟨frame, outer, hframes, -⟩ := bind_error hbind
    have hwith : s.withFrame = s := by simp [withFrame, hframes]
    rw [hwith]

lemma levels_attempt (s : Scopes) (name : String) (symbol : Symbol) :
    (s.attempt name symbol).1.levels = Lexicon.relevel s.levels (.bind name symbol) := by
  rw [attempt_eq]
  cases hbind : s.bind name symbol with
  | error refusal =>
    obtain ⟨frame, outer, hframes, htaken⟩ := bind_error hbind
    simp [levels, hframes, Lexicon.relevel, htaken]
  | ok bound =>
    have hnames (names : List (String × Symbol)) : (fun n => ((name, symbol) :: names).lookup n) =
        fun n => if n = name then some symbol else names.lookup n := by
      funext n
      by_cases hn : n = name
      · simp [hn]
      · simp [List.lookup_cons, beq_false_of_ne hn, hn]
    rcases bind_cases hbind with ⟨hframes, rfl⟩ | ⟨frame, outer, hframes, hfree, rfl⟩
    · simp [levels, hframes, Lexicon.relevel, hnames]
    · simp [levels, hframes, Lexicon.relevel, hnames, hfree]

/-! ### Scopes handed out -/

/-- The scopes handed out differ, and each is counted among those opened. -/
structure Issued (opened : List Nat) (issued : List Scope) : Prop where
  nodup : issued.Nodup
  opened : ∀ scope ∈ issued, Opened opened scope

lemma Issued.push (h : Issued s.opened issued) :
    Issued s.push.opened (issued ++ [s.push.current]) where
  nodup := by
    refine List.nodup_append.2 ⟨h.nodup, List.nodup_singleton _, ?_⟩
    rintro scope hscope _ hnext rfl
    obtain rfl := List.mem_singleton.1 hnext
    exact s.not_opened_next (h.opened _ hscope)
  opened scope hscope := by
    rcases List.mem_append.1 hscope with hold | hnext
    · exact (h.opened scope hold).countAt _
    · obtain rfl := List.mem_singleton.1 hnext
      exact ⟨s.depth, rfl, s.index_lt_push⟩

lemma Issued.attempt (h : Issued s.opened issued) (name : String) (symbol : Symbol) :
    Issued (s.attempt name symbol).1.opened
      (if s.frames.isEmpty then issued ++ [s.push.current] else issued) := by
  rw [attempt_eq]
  cases hbind : s.bind name symbol with
  | error refusal =>
    obtain ⟨frame, outer, hframes, -⟩ := bind_error hbind
    simpa [hframes] using h
  | ok bound =>
    rcases bind_cases hbind with ⟨hframes, rfl⟩ | ⟨frame, outer, hframes, -, rfl⟩
    · simpa [hframes] using h.push
    · simpa [hframes] using h

end Scopes

/-- A stack of scopes and variables, and what they have handed out: the scopes that were opened and
the numbers of the variables that were made, the latest at the end. -/
structure Session where
  scopes : Scopes
  vars : Variables
  issued : List Scope
  made : List VarId

namespace Session

def empty : Session := ⟨.empty, .empty, [], []⟩

/-- The session after a variable was made. -/
def keep (s : Session) (made : Variables × VarId) : Session :=
  { s with vars := made.1, made := s.made ++ [made.2] }

def serve (s : Session) : Request → Except Fault Session
  | .push => return { s with
      scopes := s.scopes.push
      issued := s.issued ++ [s.scopes.push.current] }
  | .pop => return { s with scopes := s.scopes.pop }
  | .bind name symbol => return { s with
      scopes := (s.scopes.attempt name symbol).1
      issued :=
        if s.scopes.frames.isEmpty then s.issued ++ [s.scopes.push.current] else s.issued }
  | .declare name ty scope marks => return s.keep (s.vars.declare name ty scope marks)
  | .temporary ty marks => return s.keep (s.vars.temporary ty marks)
  | .rename v => return s.keep (← s.vars.rename v)

def serveAll (s : Session) (rs : List Request) : Except Fault Session := rs.foldlM serve s

def lookup (s : Session) (name : String) : Option Symbol := s.scopes.lookup s.vars name

/-- What a symbol stands for by now. -/
def resolve (s : Session) : Symbol → Symbol
  | .var v => .var (s.vars.current v)
  | .array a => .array a

/-- The session has what the lexicon tells. -/
structure Tracks (s : Session) (e : Lexicon) : Prop where
  levels : s.scopes.levels = e.levels
  origins : s.vars.vars.toList.map Variable.root? = e.origins
  ordered : s.vars.Ordered
  issued : Scopes.Issued s.scopes.opened s.issued
  made : s.made = List.range s.vars.size
  sound : e.Sound

variable {s s' : Session} {e : Lexicon} {r : Request} {rs : List Request} {v w d : VarId}
  {name : String} {symbol : Symbol}

lemma tracks_empty : Tracks empty .empty where
  levels := rfl
  origins := rfl
  ordered := Variables.ordered_empty
  issued := ⟨List.nodup_nil, by simp [empty]⟩
  made := rfl
  sound := Lexicon.sound_empty

lemma Tracks.origin? (h : s.Tracks e) (v : VarId) :
    e.origin? v = (s.vars.get? v).bind Variable.root? := by
  rw [Lexicon.origin?, ← h.origins, List.getElem?_map, Array.getElem?_toList,
    ← Option.bind_id_eq_join, Option.bind_map]
  rfl

lemma Tracks.size (h : s.Tracks e) : e.origins.length = s.vars.size := by
  simp [← h.origins, Variables.size]

/-! ### What a request keeps -/

/-- A variable is made that belongs where the lexicon says. -/
lemma Tracks.keep (h : s.Tracks e) (hr : e.Admits r)
    (hlevels : Lexicon.relevel e.levels r = e.levels)
    {kind : VarKind} {ty : Ty} {marks : Marks} {vars : Variables}
    (hvars : vars.vars = (s.vars.push kind ty marks).vars) (hordered : vars.Ordered)
    (hcreated : e.created r = some (Variable.mk s.vars.size kind ty marks).root?) :
    (s.keep (vars, s.vars.size)).Tracks (e.after r) where
  levels := h.levels.trans hlevels.symm
  origins := by
    change vars.vars.toList.map Variable.root? = e.origins ++ (e.created r).toList
    rw [hvars, Variables.toList_push, List.map_append, h.origins, hcreated]
    rfl
  ordered := hordered
  issued := h.issued
  made := by
    have hsize : vars.size = s.vars.size + 1 := by simp [Variables.size, hvars, Variables.push]
    change s.made ++ [s.vars.size] = List.range vars.size
    rw [h.made, hsize, List.range_succ]
  sound := h.sound.after hr

lemma Tracks.serve (h : s.Tracks e) (hr : e.Admits r) :
    ∃ s', s.serve r = .ok s' ∧ s'.Tracks (e.after r) := by
  have hsame (hnone : e.created r = none) : s.vars.vars.toList.map Variable.root? =
      (e.after r).origins := by
    simp [Lexicon.after, hnone, h.origins]
  have hsound := h.sound.after hr
  cases r with
  | push =>
    exact ⟨_, rfl, congrArg (_ :: ·) h.levels, hsame rfl, h.ordered, h.issued.push, h.made, hsound⟩
  | pop =>
    have hlevels : s.scopes.pop.levels = e.levels.tail := by
      rw [← h.levels, Scopes.levels, Scopes.pop, List.map_tail]
      rfl
    exact ⟨_, rfl, hlevels, hsame rfl, h.ordered, h.issued, h.made, hsound⟩
  | bind name symbol =>
    have hlevels := s.scopes.levels_attempt name symbol
    rw [h.levels] at hlevels
    exact ⟨_, rfl, hlevels, hsame rfl, h.ordered, h.issued.attempt name symbol, h.made, hsound⟩
  | declare name ty scope marks =>
    -- a variable that is not there yet has no family
    have hfree : s.vars.family s.vars.size = [] := by
      refine List.eq_nil_iff_forall_not_mem.2 fun x hx => ?_
      have hroot := h.sound.root x.id s.vars.size
        ((h.origin? x.id).trans (h.ordered.root?_eq_some.2 ⟨x, hx, rfl⟩))
      exact (hroot.trans_eq h.size).false
    exact ⟨_, rfl, h.keep hr rfl rfl (h.ordered.declare hfree name ty scope marks)
      (congrArg (some ∘ some) h.size)⟩
  | temporary ty marks => exact ⟨_, rfl, h.keep hr rfl rfl (h.ordered.temporary ty marks) rfl⟩
  | rename v =>
    obtain ⟨d, hd⟩ := Option.isSome_iff_exists.1 hr
    obtain ⟨name, scope, ty, marks, hrename⟩ := h.ordered.rename_eq ((h.origin? v).symm.trans hd)
    exact ⟨_, congrArg (Except.map s.keep) hrename, h.keep hr rfl rfl
      (h.ordered.renamed name scope ty marks) (congrArg some hd)⟩

lemma Tracks.serveAll (h : s.Tracks e) (hrs : e.AdmitsAll rs) :
    ∃ s', s.serveAll rs = .ok s' ∧ s'.Tracks (e.afterAll rs) := by
  induction rs generalizing s e with
  | nil => exact ⟨s, rfl, h⟩
  | cons r rs ih =>
    obtain ⟨t, ht, htracks⟩ := h.serve hrs.1
    obtain ⟨s', hs', htracks'⟩ := ih htracks hrs.2
    refine ⟨s', ?_, htracks'⟩
    rw [Session.serveAll, List.foldlM_cons, ht]
    exact hs'

/-! ### What a name stands for -/

lemma Tracks.lookup_eq_none (h : s.Tracks e) :
    s.lookup name = none ↔ ∀ level ∈ e.levels, level name = none := by
  rw [lookup, Scopes.lookup, Option.map_eq_none_iff, ← h.levels, Scopes.levels]
  simp [Scopes.binding]

lemma Tracks.lookup_of_finds (h : s.Tracks e) (hfinds : e.Finds name symbol) :
    s.lookup name = some (s.resolve symbol) := by
  rw [Lexicon.finds_iff, ← h.levels, Scopes.levels, List.findSome?_map] at hfinds
  refine Option.map_eq_some_iff.2 ⟨symbol, hfinds, ?_⟩
  cases symbol <;> rfl

/-- A name is found on some level, or none binds it. -/
lemma Tracks.finds_of_lookup (h : s.Tracks e) (hlookup : s.lookup name = some symbol) :
    ∃ found, e.Finds name found := by
  cases hfound : e.levels.findSome? (· name) with
  | some found => exact ⟨found, Lexicon.finds_iff.2 hfound⟩
  | none =>
    rw [h.lookup_eq_none.2 (List.findSome?_eq_none_iff.1 hfound)] at hlookup
    cases hlookup

lemma Tracks.origin?_of_finds (h : s.Tracks e) (hfinds : e.Finds name (.var v)) :
    ∃ d, e.origin? v = some d := by
  obtain ⟨inner, level, outer, hlevels, hbound, -⟩ := hfinds
  exact Option.isSome_iff_exists.1 (h.sound.bound level (hlevels ▸ by simp) name v hbound)

/-- What stands for a variable is the newest of its declaration. -/
lemma Tracks.newest (h : s.Tracks e) (hd : e.origin? v = some d) :
    e.Newest d (s.vars.current v) := by
  have hroot {u : VarId} : e.origin? u = some d ↔ ∃ x ∈ s.vars.family d, x.id = u := by
    rw [h.origin?, h.ordered.root?_eq_some]
  obtain ⟨x, hx, rfl⟩ := hroot.1 hd
  obtain ⟨last, hlast, -, hid, hle⟩ := h.ordered.getLast?_family hx
  rw [h.ordered.current_eq hx, ← hid]
  refine ⟨hroot.2 ⟨last, hlast, rfl⟩, fun u hu => ?_⟩
  obtain ⟨y, hy, rfl⟩ := hroot.1 hu
  exact hle y hy

lemma Tracks.lookup_eq_array (h : s.Tracks e) {a : ArrayId} :
    s.lookup name = some (.array a) ↔ e.Finds name (.array a) := by
  refine ⟨fun hlookup => ?_, h.lookup_of_finds⟩
  obtain ⟨found, hfinds⟩ := h.finds_of_lookup hlookup
  rw [h.lookup_of_finds hfinds] at hlookup
  cases found with
  | var v => cases hlookup
  | array b =>
    cases hlookup
    exact hfinds

lemma Tracks.lookup_eq_var (h : s.Tracks e) : s.lookup name = some (.var w) ↔
    ∃ v d, e.Finds name (.var v) ∧ e.origin? v = some d ∧ e.Newest d w := by
  constructor
  · intro hlookup
    obtain ⟨found, hfinds⟩ := h.finds_of_lookup hlookup
    rw [h.lookup_of_finds hfinds] at hlookup
    cases found with
    | array a => cases hlookup
    | var v =>
      cases hlookup
      obtain ⟨d, hd⟩ := h.origin?_of_finds hfinds
      exact ⟨v, d, hfinds, hd, h.newest hd⟩
  · rintro ⟨v, d, hfinds, hd, hnewest⟩
    rw [h.lookup_of_finds hfinds, resolve, (h.newest hd).unique hnewest]

/-- Where the levels are the same later, names stand for what they stood for, up to renames. -/
lemma Tracks.lookup_later (h : s.Tracks e) (hrs : e.AdmitsAll rs)
    (hlater : s'.Tracks (e.afterAll rs)) (hlevels : (e.afterAll rs).levels = e.levels)
    (name : String) : s'.lookup name = (s.lookup name).map (e.renamedSymbol rs) := by
  have hfinds {found : Symbol} : (e.afterAll rs).Finds name found ↔ e.Finds name found := by
    rw [Lexicon.finds_iff, Lexicon.finds_iff, hlevels]
  cases hlookup : s.lookup name with
  | none =>
    rw [h.lookup_eq_none, ← hlevels, ← hlater.lookup_eq_none] at hlookup
    exact hlookup
  | some symbol =>
    cases symbol with
    | array a => exact hlater.lookup_eq_array.2 (hfinds.2 (h.lookup_eq_array.1 hlookup))
    | var w =>
      obtain ⟨v, d, hv, hd, hnewest⟩ := h.lookup_eq_var.1 hlookup
      exact hlater.lookup_eq_var.2 ⟨v, d, hfinds.2 hv, Lexicon.origin?_afterAll_of_some hd rs,
        hnewest.afterAll h.sound hrs⟩

/-! ### The environment -/

/-- The session behaves as the lexicon tells, whatever its counters and tables hold. -/
structure Lexical (s : Session) (e : Lexicon) : Prop where
  /-- No scope is handed out twice. -/
  issued : s.issued.Nodup
  levels : s.scopes.levels = e.levels
  depth : s.scopes.depth = e.depth
  unbound (name : String) : s.lookup name = none ↔ ∀ level ∈ e.levels, level name = none
  array (name : String) (a : ArrayId) :
    s.lookup name = some (.array a) ↔ e.Finds name (.array a)
  var (name : String) (w : VarId) : s.lookup name = some (.var w) ↔
    ∃ v d, e.Finds name (.var v) ∧ e.origin? v = some d ∧ e.Newest d w
  /-- A binding that is refused leaves the stack as it was. -/
  attempt (name : String) (symbol : Symbol) :
    s.scopes.attempt name symbol = match s.scopes.bind name symbol with
      | .ok bound => (bound, none)
      | .error refusal => (s.scopes, some refusal)
  made : s.made = List.range s.vars.size
  origins : s.vars.vars.toList.map Variable.root? = e.origins
  ascending (root : VarId) : ((s.vars.family root).map Variable.id).Pairwise (· < ·)
  generations (root : VarId) : (s.vars.family root).map Variable.generation? =
    (List.range (s.vars.family root).length).map some
  current (root : VarId) : ∀ x ∈ s.vars.family root,
    (s.vars.family root).getLast?.map Variable.id = some (s.vars.current x.id)

lemma Tracks.lexical (h : s.Tracks e) : s.Lexical e where
  issued := h.issued.nodup
  levels := h.levels
  depth := by
    rw [Lexicon.depth, ← h.levels, Scopes.levels, List.length_map]
    rfl
  unbound _ := h.lookup_eq_none
  array _ _ := h.lookup_eq_array
  var _ _ := h.lookup_eq_var
  attempt := s.scopes.attempt_eq
  made := h.made
  origins := h.origins
  ascending := h.ordered.ascending
  generations := h.ordered.generations
  current root x hx := by
    obtain ⟨last, -, hlast, hid, -⟩ := h.ordered.getLast?_family hx
    rw [hlast, h.ordered.current_eq hx, ← hid]
    rfl

/-- **Scopes and renames are a lexical environment.** Requests that the lexicon admits are all
served, and the session behaves as the lexicon of these requests tells. Once a level is closed that
was opened, names stand for what they stood for before, up to the renames made meanwhile. -/
theorem serveAll_lexical (h : Lexicon.empty.AdmitsAll rs) :
    ∃ s, empty.serveAll rs = .ok s ∧ s.Lexical (Lexicon.empty.afterAll rs) ∧
      ∀ opening inner,
        (Lexicon.empty.afterAll rs).AdmitsAll (opening :: inner ++ [.pop]) →
        (Lexicon.empty.afterAll rs).Encloses opening inner →
        ∃ s', s.serveAll (opening :: inner ++ [.pop]) = .ok s' ∧
          ∀ name, s'.lookup name = (s.lookup name).map
            ((Lexicon.empty.afterAll rs).renamedSymbol (opening :: inner ++ [.pop])) := by
  obtain ⟨s, hs, htracks⟩ := tracks_empty.serveAll h
  refine ⟨s, hs, htracks.lexical, fun opening inner hadmits hencloses => ?_⟩
  obtain ⟨s', hs', htracks'⟩ := htracks.serveAll hadmits
  exact ⟨s', hs', htracks.lookup_later hadmits htracks' hencloses.levels⟩

/-- An array and a renamed variable, bound in a scope that the first binding opens. -/
def outerNames : List Request :=
  [.bind "a" (.array 0), .declare "x" .int ⟨1, 0⟩ .none, .bind "x" (.var 0), .rename 0]

/-- The name is shadowed and then refused, and both variables are renamed, the outer one through
its declaration. -/
def innerNames : List Request :=
  [.declare "x" .float ⟨2, 0⟩ .none, .bind "x" (.var 2), .bind "x" (.array 1), .rename 0,
    .rename 2, .push, .pop]

/-- The outer name comes back as the variable that it was renamed to while it was hidden. -/
theorem serveAll_lexical_innerNames :
    Lexicon.empty.AdmitsAll outerNames ∧
    (Lexicon.empty.afterAll outerNames).AdmitsAll (.push :: innerNames ++ [.pop]) ∧
    (Lexicon.empty.afterAll outerNames).Encloses .push innerNames ∧
    ∃ s s', empty.serveAll outerNames = .ok s ∧ s.Lexical (Lexicon.empty.afterAll outerNames) ∧
      s.lookup "x" = some (.var 1) ∧
      s.serveAll (.push :: innerNames ++ [.pop]) = .ok s' ∧ s'.lookup "x" = some (.var 3) := by
  have houter : Lexicon.empty.AdmitsAll outerNames := by decide +kernel
  have hinner : (Lexicon.empty.afterAll outerNames).AdmitsAll
      (.push :: innerNames ++ [.pop]) := by decide +kernel
  have hencloses : (Lexicon.empty.afterAll outerNames).Encloses .push innerNames :=
    ⟨by decide +kernel, by decide +kernel, by decide +kernel⟩
  have hfound : (empty.serveAll outerNames).toOption.map (·.lookup "x") =
      some (some (.var 1)) := by decide +kernel
  obtain ⟨s, hs, hlexical, hclosed⟩ := serveAll_lexical houter
  obtain ⟨s', hs', hlookup⟩ := hclosed .push innerNames hinner hencloses
  have hx : s.lookup "x" = some (.var 1) := by
    rw [hs] at hfound
    exact Option.some.inj hfound
  refine ⟨houter, hinner, hencloses, s, s', hs, hlexical, hx, hs', ?_⟩
  rw [hlookup, hx]
  decide +kernel

end Session

end ThreeAddress
