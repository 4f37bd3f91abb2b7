import Mathlib
import ThreeAddress.Pass.Schedule

/-!
What a schedule does, told by its calls.

The passes are called in turn, the first one again after the last one, and each call finds what
the call before it has left. Calls and rounds are numbered from 0; of `k` passes, call `n` runs
number `n % k` and belongs to round `n / k`. A schedule makes all calls of this sequence up to
the end of the first round without a change, to its limit, or to the first call that fails.
-/

namespace ThreeAddress

/-- What a call of a pass adds to the log. -/
def Pass.Outcome.entries {σ : Type} (o : Pass.Outcome σ) (name : String) : Log :=
  let started := (Event.ofKind .passStarted).byPass name
  let completed := (Event.ofKind .passCompleted).byPass name
  started :: o.events ++
    match o.result with
    | .error _ => []
    | .ok true => [completed.saying "changed"]
    | .ok false => [completed.saying "unchanged"]

/-- A pass that looks at the log as well, at a copy of it that goes along with the state. -/
def Pass.reading {σ : Type} (name : String) (look : σ → Listing → Log → Pass.Outcome σ) :
    Pass (σ × Log) where
  name := name
  run s l :=
    let o := look s.1 l (s.2 ++ [(Event.ofKind .passStarted).byPass name])
    ⟨(o.state, s.2 ++ o.entries name), o.listing, o.events, o.result⟩

namespace Schedule

variable {σ : Type} (passes : List (Pass σ)) (hne : passes ≠ []) (p : Progress σ)

/-! ### The sequence of calls -/

/-- The pass whose turn it is. -/
def turn (n : Nat) : Pass σ :=
  passes.get ⟨n % passes.length, Nat.mod_lt n (List.length_pos_iff.2 hne)⟩

/-- The state and the listing that the calls before call `n` leave. -/
def found : Nat → σ × Listing
  | 0 => (p.state, p.listing)
  | n + 1 =>
    let o := (turn passes hne n).run (found n).1 (found n).2
    (o.state, o.listing)

def call (n : Nat) : Pass.Outcome σ :=
  (turn passes hne n).run (found passes hne p n).1 (found passes hne p n).2

/-- State, listing and log after `n` calls. -/
def after (n : Nat) : Progress σ where
  state := (found passes hne p n).1
  listing := (found passes hne p n).2
  log := p.log ++ (List.range n).flatMap fun i =>
    (call passes hne p i).entries (turn passes hne i).name

def Completes (n : Nat) : Prop := ∃ changed, (call passes hne p n).result = .ok changed

/-- Some pass reports a change in round `r`. -/
def Changes (r : Nat) : Prop :=
  ∃ n, n / passes.length = r ∧ (call passes hne p n).result = .ok true

/-- A schedule of at most `limit` rounds ends after so many calls and returns so. -/
inductive Ends (limit : Nat) : Nat → Except Failure Nat → Prop
  | stable {r : Nat} : r < limit → (∀ q < r, Changes passes hne p q) → ¬ Changes passes hne p r →
    (∀ n < (r + 1) * passes.length, Completes passes hne p n) →
    Ends limit ((r + 1) * passes.length) (.ok (r + 1))
  | exhausted : (∀ q < limit, Changes passes hne p q) →
    (∀ n < limit * passes.length, Completes passes hne p n) →
    Ends limit (limit * passes.length) (.ok limit)
  | failed {n : Nat} {failure : Failure} : n / passes.length < limit →
    (∀ q < n / passes.length, Changes passes hne p q) → (∀ m < n, Completes passes hne p m) →
    (call passes hne p n).result = .error failure → Ends limit (n + 1) (.error failure)

variable {passes hne p}

/-! ### One call -/

lemma runPass_eq (pass : Pass σ) (p : Progress σ) : runPass pass p =
    (⟨(pass.run p.state p.listing).state, (pass.run p.state p.listing).listing,
      p.log ++ (pass.run p.state p.listing).entries pass.name⟩,
      (pass.run p.state p.listing).result) := by
  unfold runPass Pass.Outcome.entries
  dsimp only
  rcases (pass.run p.state p.listing).result with failure | changed | changed <;> simp

lemma after_zero : after passes hne p 0 = p := by
  simp [after, found]

lemma after_succ (n : Nat) : after passes hne p (n + 1) =
    ⟨(call passes hne p n).state, (call passes hne p n).listing,
      (after passes hne p n).log ++ (call passes hne p n).entries (turn passes hne n).name⟩ := by
  simp [after, found, call, List.range_succ]

lemma runPass_turn (n : Nat) : runPass (turn passes hne n) (after passes hne p n) =
    (after passes hne p (n + 1), (call passes hne p n).result) := by
  rw [runPass_eq, after_succ]
  rfl

/-- In a schedule of passes that look at the log, the copy is the log. So each pass finds the log
as it is when the pass is called. -/
lemma after_reading {passes : List (Pass (σ × Log))} {hne : passes ≠ []} {p : Progress (σ × Log)}
    (hreading : ∀ pass ∈ passes, ∃ name look, pass = .reading name look)
    (hcopy : p.state.2 = p.log) (n : Nat) :
    (after passes hne p n).state.2 = (after passes hne p n).log := by
  induction n with
  | zero => rwa [after_zero]
  | succ n ih =>
    obtain ⟨name, look, hturn⟩ := hreading (turn passes hne n) (List.get_mem _ _)
    rw [after_succ, ← ih]
    simp only [call, hturn]
    rfl

/-! ### One round -/

/-- What is left of a round from call `a` to call `b`, where `changed` tells of the calls before
these. -/
inductive Remains (passes : List (Pass σ)) (hne : passes ≠ []) (p : Progress σ) (a b : Nat)
    (changed : Bool) : Progress σ × Except Failure Bool → Prop
  | failed {n : Nat} {failure : Failure} : a ≤ n → n < b →
    (∀ m, a ≤ m → m < n → Completes passes hne p m) →
    (call passes hne p n).result = .error failure →
    Remains passes hne p a b changed (after passes hne p (n + 1), .error failure)
  | completed {changed' : Bool} : (∀ m, a ≤ m → m < b → Completes passes hne p m) →
    (changed' = true ↔ changed = true ∨
      ∃ m, a ≤ m ∧ m < b ∧ (call passes hne p m).result = .ok true) →
    Remains passes hne p a b changed (after passes hne p b, .ok changed')

lemma Remains.none {n : Nat} {changed : Bool} :
    Remains passes hne p n n changed (after passes hne p n, .ok changed) :=
  .completed (fun _ hn hlt => absurd hn hlt.not_ge)
    ⟨.inl, fun h => h.elim id fun ⟨_, hn, hlt, _⟩ => absurd hn hlt.not_ge⟩

/-- A call that is completed, and then the others. -/
lemma Remains.cons {a b : Nat} {changed here : Bool} {out : Progress σ × Except Failure Bool}
    (hab : a < b) (hcall : (call passes hne p a).result = .ok here)
    (h : Remains passes hne p (a + 1) b (changed || here) out) :
    Remains passes hne p a b changed out := by
  have hfrom : ∀ {c}, (∀ m, a + 1 ≤ m → m < c → Completes passes hne p m) →
      ∀ m, a ≤ m → m < c → Completes passes hne p m := by
    intro c hc m ham hm
    rcases ham.eq_or_lt with rfl | ham
    · exact ⟨here, hcall⟩
    · exact hc m ham hm
  cases h with
  | failed hn hlt hbefore hfail => exact .failed (by omega) hlt (hfrom hbefore) hfail
  | completed hall hchanged =>
    refine .completed (hfrom hall) (hchanged.trans ?_)
    rw [Bool.or_eq_true, or_assoc]
    refine or_congr_right ⟨?_, ?_⟩
    · rintro (rfl | ⟨m, hm, hlt, htrue⟩)
      · exact ⟨a, le_rfl, hab, hcall⟩
      · exact ⟨m, by omega, hlt, htrue⟩
    · rintro ⟨m, hm, hlt, htrue⟩
      rcases hm.eq_or_lt with rfl | hm
      · rw [hcall] at htrue
        exact .inl (Except.ok.inj htrue)
      · exact .inr ⟨m, hm, hlt, htrue⟩

lemma turn_eq (hne : passes ≠ []) (r : Nat) {j : Nat} (hj : j < passes.length) :
    turn passes hne (r * passes.length + j) = passes[j] := by
  have hmod : (r * passes.length + j) % passes.length = j := Nat.mul_add_mod_of_lt hj
  simp only [turn, hmod, List.get_eq_getElem]

/-- The passes from number `j` on, in round `r`. -/
lemma runRound_drop (r : Nat) {j : Nat} (hj : j ≤ passes.length) (changed : Bool) :
    Remains passes hne p (r * passes.length + j) ((r + 1) * passes.length) changed
      (runRound (passes.drop j) changed (after passes hne p (r * passes.length + j))) := by
  induction hrest : passes.drop j generalizing j changed with
  | nil =>
    have hend : j = passes.length := hj.antisymm (List.drop_eq_nil_iff.1 hrest)
    rw [hend, ← Nat.succ_mul]
    exact .none
  | cons pass rest ih =>
    have hlt : j < passes.length := by
      by_contra hge
      rw [List.drop_eq_nil_of_le (not_lt.1 hge)] at hrest
      cases hrest
    have hbound : r * passes.length + j < (r + 1) * passes.length := by
      rw [Nat.succ_mul]
      omega
    rw [List.drop_eq_getElem_cons hlt, List.cons.injEq, ← turn_eq hne r] at hrest
    obtain ⟨rfl, rfl⟩ := hrest
    rw [runRound, runPass_turn]
    cases hcall : (call passes hne p (r * passes.length + j)).result with
    | error failure =>
      exact .failed le_rfl hbound (fun m hm hlt => absurd hm hlt.not_ge) hcall
    | ok here => exact .cons hbound hcall (ih hlt (changed || here) rfl)

/-! ### All rounds -/

lemma div_eq_iff_round {n r : Nat} (hne : passes ≠ []) : n / passes.length = r ↔
    r * passes.length ≤ n ∧ n < (r + 1) * passes.length := by
  rw [Nat.div_eq_iff (List.length_pos_iff.2 hne), Nat.succ_mul]
  have := List.length_pos_iff.2 hne
  omega

lemma runRounds_ends (limit done : Nat) (hchanges : ∀ q < done, Changes passes hne p q)
    (hcompletes : ∀ n < done * passes.length, Completes passes hne p n) :
    ∃ n result, Ends passes hne p (done + limit) n result ∧
      runRounds passes limit done (after passes hne p (done * passes.length)) =
        (after passes hne p n, result) := by
  induction limit generalizing done with
  | zero => exact ⟨_, _, .exhausted hchanges hcompletes, rfl⟩
  | succ limit ih =>
    have hround : Remains passes hne p (done * passes.length) ((done + 1) * passes.length) false
        (runRound passes false (after passes hne p (done * passes.length))) :=
      runRound_drop done (Nat.zero_le _) false
    unfold runRounds
    generalize runRound passes false _ = out at hround
    cases hround with
    | @failed n failure hn hlt hbefore hfail =>
      have hdiv := (div_eq_iff_round hne).2 ⟨hn, hlt⟩
      refine ⟨_, _, .failed (by omega) (hdiv ▸ hchanges) (fun m hm => ?_) hfail, rfl⟩
      rcases lt_or_ge m (done * passes.length) with hm' | hm'
      · exact hcompletes m hm'
      · exact hbefore m hm' hm
    | @completed changed hall hchanged =>
      have hcompletes' : ∀ n < (done + 1) * passes.length, Completes passes hne p n := by
        intro n hn
        rcases lt_or_ge n (done * passes.length) with hn' | hn'
        · exact hcompletes n hn'
        · exact hall n hn' hn
      have hchanged' : changed = true ↔ Changes passes hne p done := by
        rw [hchanged]
        simp [Changes, div_eq_iff_round hne, and_assoc]
      cases changed with
      | false =>
        have hquiet : ¬ Changes passes hne p done := fun h => Bool.false_ne_true (hchanged'.2 h)
        exact ⟨_, _, .stable (by omega) hchanges hquiet hcompletes', rfl⟩
      | true =>
        rw [Nat.add_comm limit, ← Nat.add_assoc]
        refine ih (done + 1) (fun q hq => ?_) hcompletes'
        rcases (Nat.le_of_lt_succ hq).eq_or_lt with rfl | hq
        · exact hchanged'.1 rfl
        · exact hchanges q hq

lemma not_completes {n : Nat} {failure : Failure}
    (h : (call passes hne p n).result = .error failure) : ¬ Completes passes hne p n := by
  rintro ⟨changed, hok⟩
  rw [h] at hok
  cases hok

/-- A failure comes before the end of the first round without a change, or not at all. -/
lemma lt_of_changes {n r : Nat} (hchanges : ∀ q < n / passes.length, Changes passes hne p q)
    (hquiet : ¬ Changes passes hne p r) : n < (r + 1) * passes.length := by
  rw [← Nat.div_lt_iff_lt_mul (List.length_pos_iff.2 hne), Nat.lt_succ_iff]
  by_contra hlt
  exact hquiet (hchanges r (not_le.1 hlt))

/-- There is only one end. -/
lemma Ends.unique {limit n n' : Nat} {result result' : Except Failure Nat}
    (h : Ends passes hne p limit n result) (h' : Ends passes hne p limit n' result') :
    n' = n ∧ result' = result := by
  have hpos := List.length_pos_iff.2 hne
  cases h with
  | @stable r hr hchanges hquiet hall =>
    cases h' with
    | @stable r' _ hchanges' hquiet' _ =>
      rcases lt_trichotomy r r' with hlt | rfl | hlt
      · exact absurd (hchanges' r hlt) hquiet
      · exact ⟨rfl, rfl⟩
      · exact absurd (hchanges r' hlt) hquiet'
    | exhausted hchanges' _ => exact absurd (hchanges' r hr) hquiet
    | failed _ hchanges' _ hfail =>
      exact absurd (hall _ (lt_of_changes hchanges' hquiet)) (not_completes hfail)
  | exhausted hchanges hall =>
    cases h' with
    | stable hr' _ hquiet' _ => exact absurd (hchanges _ hr') hquiet'
    | exhausted _ _ => exact ⟨rfl, rfl⟩
    | failed hlt' _ _ hfail =>
      exact absurd (hall _ ((Nat.div_lt_iff_lt_mul hpos).1 hlt')) (not_completes hfail)
  | @failed m failure hlt hchanges hall hfail =>
    cases h' with
    | stable _ _ hquiet' hall' =>
      exact absurd (hall' _ (lt_of_changes hchanges hquiet')) (not_completes hfail)
    | exhausted _ hall' =>
      exact absurd (hall' _ ((Nat.div_lt_iff_lt_mul hpos).1 hlt)) (not_completes hfail)
    | @failed m' failure' _ _ hall' hfail' =>
      rcases lt_trichotomy m m' with hm | rfl | hm
      · exact absurd (hall' m hm) (not_completes hfail)
      · rw [hfail] at hfail'
        exact ⟨rfl, congrArg _ (Except.error.inj hfail').symm⟩
      · exact absurd (hall m' hm) (not_completes hfail')

/-- **A schedule makes the calls up to its one end.** It returns what belongs to this end, and the
state, the listing and the log are those that the last of these calls leaves. -/
theorem run_calls (passes : List (Pass σ)) (hne : passes ≠ []) (limit : Nat) (p : Progress σ) :
    ∃ n result, run passes limit p = (after passes hne p n, result) ∧
      ∀ n' result', Ends passes hne p limit n' result' ↔ n' = n ∧ result' = result := by
  have hchanges : ∀ q < 0, Changes passes hne p q := fun q hq => absurd hq q.not_lt_zero
  obtain ⟨n, result, hends, hrun⟩ := runRounds_ends limit 0 hchanges (by simp)
  rw [Nat.zero_add] at hends
  rw [Nat.zero_mul, after_zero] at hrun
  refine ⟨n, result, ?_, fun n' result' => ⟨hends.unique, ?_⟩⟩
  · rw [run, if_neg (by simpa using hne), hrun]
  · rintro ⟨rfl, rfl⟩
    exact hends

/-- The first pass finds something to change once. The second one counts the passes that the log
calls completed, and three are too many. -/
def watched : List (Pass (Unit × Log)) :=
  [.reading "narrow" fun _ l log => ⟨(), l, [], .ok (log.countKind .passCompleted = 0)⟩,
    .reading "watch" fun _ l log => ⟨(), l, [.ofKind .copyMaterialized],
      if log.countKind .passCompleted < 3 then .ok false else .error (.refused .emptyUnit)⟩]

/-- The second pass fails in the second round. -/
theorem run_calls_watched : ∃ hne : watched ≠ [],
    run watched 5 ⟨((), []), .empty, []⟩ =
      (after watched hne ⟨((), []), .empty, []⟩ 4, .error (.refused .emptyUnit)) := by
  have hne : watched ≠ [] := List.cons_ne_nil _ _
  refine ⟨hne, ?_⟩
  obtain ⟨n, result, hrun, hends⟩ := run_calls watched hne 5 ⟨((), []), .empty, []⟩
  have hend : Ends watched hne ⟨((), []), .empty, []⟩ 5 4 (.error (.refused .emptyUnit)) := by
    refine .failed (by decide) (fun q hq => ?_) (fun m hm => ?_) rfl
    · obtain rfl : q = 0 := Nat.lt_one_iff.1 hq
      exact ⟨0, rfl, rfl⟩
    · interval_cases m <;> exact ⟨_, rfl⟩
  obtain ⟨rfl, rfl⟩ := (hends _ _).1 hend
  exact hrun

end Schedule

end ThreeAddress
