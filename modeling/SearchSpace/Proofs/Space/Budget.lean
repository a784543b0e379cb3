import SearchSpace.Proofs.Expr.Faults
import SearchSpace.Proofs.Rejection.Requests
import SearchSpace.Proofs.Space.Sampling

/-!
# The budget of a draw

A space draws vectors in rounds, each of which asks for as many as are still missing, and it asks for
no more than a hundred for each configuration wanted. What it draws are candidates, of which it keeps
those that no clause rules out. `samplesWith_requests` says that the configurations it gives are just
these, in the order of drawing, and that it gives all that are wanted or none. Draws run out in two
ways: the budget is used up, or a group finds no vectors that its parameters admit. In either case
the error counts what the whole call has come to, and no other error can be taken for it, since
conditions and clauses fail in other ways (`not_isUnsuccessful_of_failsOn`).
-/

namespace SearchSpace

/-- An error that says that draws have run out. -/
def Error.IsUnsuccessful (e : Error) : Prop :=
  ∃ requested obtained, e = .samplingUnsuccessful requested obtained

/-! ## Draws of an assignment -/

namespace Assignment

/-- Groups draw as many vectors as there are, or their draws run out. -/
theorem lands_fillRows (parameters : List Parameter) (n : Nat) :
    ∀ (nodes : List Group.Node) {rows : List (List Value)}, rows.length = n → ∀ g : Generator,
      Lands (fun rows' => rows'.length = n) Error.IsUnsuccessful
        ((fillRows parameters n nodes rows).run.run g).1
  | [], _, hlength, _ => hlength
  | node :: nodes, rows, hlength, g => by
    have hbatch : ∀ k g, ∃ draws g', (batch parameters node k).run.run g = (.ok draws, g') :=
      fun _ _ => ⟨_, _, rfl⟩
    have hcollect := Rejection.lands_collect hbatch n g
    rw [fillRows]
    rcases hrun : (Rejection.collect (batch parameters node) n).run.run g with ⟨answer, g'⟩
    rw [hrun] at hcollect
    cases answer with
    | error e =>
      rw [Rejection.Sampler.run_bind_error hrun]
      obtain ⟨obtained, rfl⟩ : ∃ obtained, e = .samplingUnsuccessful n obtained := hcollect
      exact ⟨n, obtained, rfl⟩
    | ok draws =>
      rw [Rejection.Sampler.run_bind_ok hrun]
      have hcount : draws.length = n := hcollect
      have hrows : (List.zipWith (fun row joint => scatter node.indices joint row) rows draws).length =
          n := by
        rw [List.length_zipWith, hlength, hcount, Nat.min_self]
      exact lands_fillRows parameters n nodes hrows g'

/-- An assignment draws as many vectors as are wanted, or its draws run out. -/
theorem lands_sampleRows (parameters : List Parameter) (a : Assignment) (n : Nat) (g : Generator) :
    Lands (fun rows => rows.length = n) Error.IsUnsuccessful
      ((a.sampleRows parameters n).run.run g).1 :=
  lands_fillRows parameters n a.nodes List.length_replicate g

end Assignment

namespace Space

open Rejection (Sampler Request Answers answered)

/-! ## Candidates -/

/-- No clause rules a vector out. -/
def spares (s : Space) (values : List Value) : Bool :=
  (holdingClause? s.scope s.clauses values).toOption.any (·.isNone)

/-- The candidates of some drawn vectors: in each the inactive parameters are marked, and it has been
found out whether a clause rules it out. -/
def Candidates (s : Space) : List (List Value) → List (List Value) → Prop :=
  List.Forall₂ fun row values =>
    activate s.scope s.conditions s.graph.order row = .ok values ∧
      ∃ clause, holdingClause? s.scope s.clauses values = .ok clause

/-- A condition or a clause fails on a drawn vector. -/
def FailsOn (s : Space) (row : List Value) (e : Error) : Prop :=
  activate s.scope s.conditions s.graph.order row = .error e ∨
    ∃ values, activate s.scope s.conditions s.graph.order row = .ok values ∧
      holdingClause? s.scope s.clauses values = .error e

/-- Of some drawn vectors the candidates are kept that no clause rules out, unless a condition or a
clause fails on one of them. -/
theorem lands_accept (s : Space) (rows : List (List Value)) :
    Lands (fun kept => ∃ candidates, s.Candidates rows candidates ∧ kept = candidates.filter s.spares)
      (fun e => ∃ row ∈ rows, s.FailsOn row e) (s.accept rows) := by
  induction rows with
  | nil => exact ⟨[], .nil, rfl⟩
  | cons row rows ih =>
    refine Lands.bind ((lands_self _).imp (fun _ => id) ?_) fun values hactive => ?_
    · exact fun e he => ⟨row, .head rows, .inl he⟩
    refine Lands.bind ((lands_self _).imp (fun _ => id) ?_) fun clause hclause => ?_
    · exact fun e he => ⟨row, .head rows, .inr ⟨values, hactive, he⟩⟩
    refine Lands.bind (ih.imp (fun _ => id) ?_) fun rest ⟨candidates, hcandidates, hkept⟩ => ?_
    · exact fun e ⟨row', hmem, hfails⟩ => ⟨row', .tail row hmem, hfails⟩
    have hspares : s.spares values = clause.isNone := by
      rw [spares, hclause]
      rfl
    refine ⟨values :: candidates, .cons ⟨hactive, clause, hclause⟩ hcandidates, ?_⟩
    rw [List.filter_cons, hspares, hkept]

/-! ## Errors of conditions and clauses -/

/-- The errors of an evaluation do not say that draws have run out. -/
theorem not_isUnsuccessful_of_isFault {e : Error} (h : Expr.IsFault e) : ¬e.IsUnsuccessful := by
  rintro ⟨requested, obtained, rfl⟩
  exact h

variable {scope : Scope} {values : List Value}

/-- An evaluation that fails counts as false if a parameter is inactive, or fails without a draw. -/
theorem lands_of_isFault {e : Error} (h : Expr.IsFault e) :
    Lands (fun _ => True) (¬·.IsUnsuccessful) (if e.isInactive then .ok false else .error e) := by
  split
  · trivial
  · exact not_isUnsuccessful_of_isFault h

/-- A condition holds or does not, or fails without a draw. -/
theorem lands_conditionHolds (i : Nat) (condition : Expr Parameter) :
    Lands (fun _ => True) (¬·.IsUnsuccessful) (conditionHolds scope i condition values) := by
  have heval := Expr.lands_fault (b := ⟨scope, values⟩) condition
  unfold conditionHolds
  split
  · trivial
  · exact fun ⟨_, _, h⟩ => nomatch h
  · next e he =>
    rw [he] at heval
    exact lands_of_isFault heval

/-- A clause holds or does not, or fails without a draw. -/
theorem lands_clauseHolds (clause : Expr Parameter) :
    Lands (fun _ => True) (¬·.IsUnsuccessful) (clauseHolds scope clause values) := by
  have heval := Expr.lands_fault (b := ⟨scope, values⟩) clause
  unfold clauseHolds
  split
  · trivial
  · exact fun ⟨_, _, h⟩ => nomatch h
  · next e he =>
    rw [he] at heval
    exact lands_of_isFault heval

/-- Activation gives a vector or fails without a draw. -/
theorem lands_activate (conditions : Conditions) (order : List Nat) :
    Lands (fun _ => True) (¬·.IsUnsuccessful) (activate scope conditions order values) := by
  induction order generalizing values with
  | nil => trivial
  | cons i order ih =>
    refine Lands.bind (P := fun _ => True) ?_ fun active _ => ?_
    · unfold isActive
      split
      · exact lands_conditionHolds i _
      · trivial
    · split <;> exact ih

/-- The search for a clause that holds ends or fails without a draw. -/
theorem lands_holdingClause? (clauses : List (Expr Parameter)) :
    Lands (fun _ => True) (¬·.IsUnsuccessful) (holdingClause? scope clauses values) := by
  induction clauses with
  | nil => trivial
  | cons clause clauses ih =>
    refine (lands_clauseHolds clause).bind fun holds _ => ?_
    split
    · trivial
    · exact ih

/-- A condition or a clause that fails does not say that draws have run out. -/
theorem not_isUnsuccessful_of_failsOn {s : Space} {row : List Value} {e : Error}
    (h : s.FailsOn row e) : ¬e.IsUnsuccessful := by
  rcases h with hactive | ⟨values, -, hclause⟩
  · have hlands : Lands _ (¬·.IsUnsuccessful) (activate s.scope s.conditions s.graph.order row) :=
      lands_activate s.conditions s.graph.order
    rw [hactive] at hlands
    exact hlands
  · have hlands : Lands _ (¬·.IsUnsuccessful) (holdingClause? s.scope s.clauses values) :=
      lands_holdingClause? s.clauses
    rw [hclause] at hlands
    exact hlands

/-! ## Rounds -/

/-- The vectors that are drawn in answer to some requests. -/
def drawn (requests : List (Request (List (List Value)))) : List (List Value) :=
  (answered requests).flatten

/-- How many vectors some requests ask for. -/
def asked (requests : List (Request (List (List Value)))) : Nat :=
  (requests.map (·.size)).sum

/-- The requests that fill up the vectors found so far to `n`, within a budget, and what comes of
it. -/
structure Fills (s : Space) (n budget : Nat) (accepted : List (List Value))
    (requests : List (Request (List (List Value)))) (outcome : Except Error (List (List Value))) :
    Prop where
  asked_le : asked requests ≤ budget
  /-- A request gets as many vectors as it asks for. -/
  length_eq : ∀ request ∈ requests, ∀ rows, request.answer = .ok rows → rows.length = request.size
  /-- A condition or a clause fails, or all vectors that are wanted are found, or draws have run
  out. -/
  ends : (∃ row ∈ drawn requests, ∃ e, s.FailsOn row e ∧ outcome = .error e) ∨
    ∃ candidates, s.Candidates (drawn requests) candidates ∧
      ((accepted.length + (candidates.filter s.spares).length = n ∧
          outcome = .ok (accepted ++ candidates.filter s.spares)) ∨
        accepted.length + (candidates.filter s.spares).length < n ∧
          (asked requests = budget ∨ ∃ size e, requests.getLast? = some ⟨size, .error e⟩) ∧
          outcome = .error
            (.samplingUnsuccessful n (accepted.length + (candidates.filter s.spares).length)))

variable {s : Space} {a : Assignment} {n budget size : Nat} {accepted : List (List Value)}
  {requests : List (Request (List (List Value)))} {outcome : Except Error (List (List Value))}

/-- No more is asked for where all that is wanted is found or nothing is left of the budget. -/
theorem fills_finish (hlength : accepted.length ≤ n) (hends : n ≤ accepted.length ∨ budget = 0)
    (g : Generator) : ∃ outcome, (collectFrom.finish n accepted).run.run g = (outcome, g) ∧
      Fills s n budget accepted [] outcome := by
  rw [collectFrom.finish]
  split
  · next hshort =>
    refine ⟨_, rfl, Nat.zero_le _, List.forall_mem_nil _, .inr ⟨[], .nil, .inr ⟨hshort, ?_, rfl⟩⟩⟩
    exact .inl (hends.resolve_left (Nat.not_le.2 hshort)).symm
  · next hfull =>
    have heq : accepted.length = n := Nat.le_antisymm hlength (Nat.not_lt.1 hfull)
    refine ⟨_, rfl, Nat.zero_le _, List.forall_mem_nil _, .inr ⟨[], .nil, .inl ⟨heq, ?_⟩⟩⟩
    rw [List.filter_nil, List.append_nil]

/-- A request that fails is the last one. -/
theorem fills_refused (hsize : size ≤ budget) (hshort : accepted.length < n) (e : Error) :
    Fills s n budget accepted [⟨size, .error e⟩]
      (.error (.samplingUnsuccessful n accepted.length)) where
  asked_le := hsize
  length_eq request hmem rows hrows := by
    rw [List.mem_singleton.1 hmem] at hrows
    cases hrows
  ends := .inr ⟨[], .nil, .inr ⟨hshort, .inr ⟨size, e, rfl⟩, rfl⟩⟩

/-- A condition or a clause that fails on a drawn vector ends the call. -/
theorem fills_failed {rows : List (List Value)} (hsize : size ≤ budget) (hrows : rows.length = size)
    {row : List Value} (hrow : row ∈ rows) {e : Error} (hfails : s.FailsOn row e) :
    Fills s n budget accepted [⟨size, .ok rows⟩] (.error e) where
  asked_le := hsize
  length_eq request hmem rows' hrows' := by
    rw [List.mem_singleton.1 hmem] at hrows' ⊢
    cases hrows'
    exact hrows
  ends := .inl ⟨row, List.mem_flatten_of_mem (List.mem_singleton_self rows) hrow, e, hfails, rfl⟩

/-- After a round the vectors found in it are filled up within what is left of the budget. -/
theorem Fills.cons {rows candidates : List (List Value)} (hsize : size ≤ budget)
    (hrows : rows.length = size) (hcandidates : s.Candidates rows candidates)
    (h : Fills s n (budget - size) (accepted ++ candidates.filter s.spares) requests outcome) :
    Fills s n budget accepted (⟨size, .ok rows⟩ :: requests) outcome := by
  obtain ⟨hasked, hlength, hends⟩ := h
  have hsum : asked (⟨size, .ok rows⟩ :: requests) = size + asked requests := rfl
  have hdrawn : drawn (⟨size, .ok rows⟩ :: requests) = rows ++ drawn requests := rfl
  constructor
  · rw [hsum]
    omega
  · intro request hmem rows' hrows'
    rcases List.mem_cons.1 hmem with rfl | hmem
    · cases hrows'
      exact hrows
    · exact hlength request hmem rows' hrows'
  · rw [hsum, hdrawn]
    rcases hends with ⟨row, hrow, e, hfails, houtcome⟩ | ⟨candidates', hcandidates', hends⟩
    · exact .inl ⟨row, List.mem_append_right _ hrow, e, hfails, houtcome⟩
    · refine .inr ⟨candidates ++ candidates', List.rel_append hcandidates hcandidates', ?_⟩
      simp only [List.filter_append, List.length_append, ← Nat.add_assoc, ← List.append_assoc]
        at hends ⊢
      refine hends.imp id fun ⟨hshort, hlast, houtcome⟩ => ⟨hshort, hlast.imp ?_ ?_, houtcome⟩
      · intro heq
        omega
      · rintro ⟨size', e, hlast⟩
        exact ⟨size', e, by rw [List.getLast?_cons, hlast, Option.getD_some]⟩

/-- The rounds of a draw fill up the vectors found so far. The budget is fuel enough, since each
round asks for a vector at least. -/
theorem exists_fills (s : Space) (a : Assignment) (n : Nat) :
    ∀ {fuel budget : Nat} {accepted : List (List Value)}, budget ≤ fuel → accepted.length ≤ n →
      ∀ g : Generator, ∃ requests outcome g',
        (s.collectFrom a n fuel budget accepted).run.run g = (outcome, g') ∧
          Answers (a.sampleRows s.scope.parameters) requests g g' ∧
          Fills s n budget accepted requests outcome := by
  intro fuel
  induction fuel with
  | zero =>
    intro budget accepted hfuel hlength g
    obtain ⟨outcome, hrun, hfills⟩ := fills_finish hlength (.inr (Nat.le_zero.1 hfuel)) g
    exact ⟨[], outcome, g, hrun, .nil, hfills⟩
  | succ fuel ih =>
    intro budget accepted hfuel hlength g
    rw [collectFrom]
    split
    · next hmore =>
      obtain ⟨hshort, hbudget⟩ := hmore
      obtain ⟨size, hsize⟩ : ∃ size, size = min (n - accepted.length) budget := ⟨_, rfl⟩
      have hle : size ≤ budget := by omega
      have hrows := a.lands_sampleRows s.scope.parameters size g
      simp only [← hsize]
      rcases hrun : (a.sampleRows s.scope.parameters size).run.run g with ⟨answer, g₁⟩
      have hadapt := Sampler.run_adapt (relabel n accepted.length) hrun
      rw [hrun] at hrows
      cases answer with
      | error e =>
        obtain ⟨requested, obtained, rfl⟩ : e.IsUnsuccessful := hrows
        exact ⟨_, _, g₁, Sampler.run_bind_error hadapt, .single hrun, fills_refused hle hshort _⟩
      | ok rows =>
        have hcount : rows.length = size := hrows
        rw [Sampler.run_bind_ok hadapt]
        have haccept := s.lands_accept rows
        cases hkept : s.accept rows with
        | error e =>
          rw [hkept] at haccept
          obtain ⟨row, hrow, hfails⟩ := haccept
          exact ⟨_, _, g₁, Sampler.run_bind_error rfl, .single hrun,
            fills_failed hle hcount hrow hfails⟩
        | ok kept =>
          rw [hkept] at haccept
          obtain ⟨candidates, hcandidates, rfl⟩ := haccept
          have hkeptLe := List.length_filter_le s.spares candidates
          have hlengths := hcandidates.length_eq
          obtain ⟨requests, outcome, g', hrest, hanswers, hfills⟩ :
              ∃ requests outcome g', (s.collectFrom a n fuel (budget - size)
                (accepted ++ candidates.filter s.spares)).run.run g₁ = (outcome, g') ∧
                Answers (a.sampleRows s.scope.parameters) requests g₁ g' ∧
                Fills s n (budget - size) (accepted ++ candidates.filter s.spares) requests outcome :=
            ih (by omega) (by rw [List.length_append]; omega) g₁
          exact ⟨_, outcome, g', hrest, .cons hrun hanswers, hfills.cons hle hcount hcandidates⟩
    · next hdone =>
      have hends : n ≤ accepted.length ∨ budget = 0 := by omega
      obtain ⟨outcome, hrun, hfills⟩ := fills_finish hlength hends g
      exact ⟨[], outcome, g, hrun, .nil, hfills⟩

/-! ## Calls -/

/-- Laws made for a space are accepted by it. -/
theorem samplesWith_eq {other : Option OwnedAssignment}
    (h : ∀ o, other = some o → o.owner.id = s.id) (n : Nat) :
    s.samplesWith other n = samplesWith.configurations s n (s.tableOf other) := by
  cases other with
  | none => rfl
  | some o => exact if_neg (Decidable.not_not.2 (h o rfl))

/-- What a call for `n` configurations comes to with its requests for vectors. -/
structure Accounts (s : Space) (n : Nat) (requests : List (Request (List (List Value))))
    (outcome : Except Error (List Configuration)) : Prop where
  /-- At most a hundred vectors are asked for for each configuration. -/
  asked_le : asked requests ≤ 100 * n
  /-- A request gets as many vectors as it asks for. -/
  length_eq : ∀ request ∈ requests, ∀ rows, request.answer = .ok rows → rows.length = request.size
  /-- For no configuration nothing is asked for. -/
  of_eq_zero : n = 0 → requests = [] ∧ outcome = .ok []
  /-- The configurations are the candidates that no clause rules out, in the order of drawing. -/
  configurations : ∀ cs, outcome = .ok cs → cs.length = n ∧
    ∃ candidates, s.Candidates (drawn requests) candidates ∧
      cs = (candidates.filter s.spares).map fun values => ⟨s.toFrame, values⟩
  /-- Draws run out with the budget or with a request that fails, before all that are wanted are
  found, and the error counts those that are. -/
  unsuccessful : ∀ requested obtained,
    outcome = .error (.samplingUnsuccessful requested obtained) → requested = n ∧ obtained < n ∧
      (asked requests = 100 * n ∨ ∃ size e, requests.getLast? = some ⟨size, .error e⟩) ∧
      ∃ candidates, s.Candidates (drawn requests) candidates ∧
        obtained = (candidates.filter s.spares).length
  /-- Any other error is that of a condition or a clause on a vector that is drawn. -/
  fault : ∀ e, outcome = .error e → ¬e.IsUnsuccessful → ∃ row ∈ drawn requests, s.FailsOn row e

/-- A call for no configuration asks for nothing. -/
theorem accounts_zero (s : Space) : s.Accounts 0 [] (.ok []) where
  asked_le := Nat.zero_le _
  length_eq _ h := nomatch h
  of_eq_zero _ := ⟨rfl, rfl⟩
  configurations cs h := by
    cases h
    exact ⟨rfl, [], .nil, rfl⟩
  unsuccessful _ _ h := nomatch h
  fault _ h := nomatch h

/-- Rounds that fill up a list from the start come to the configurations of its vectors, or to their
own error. -/
theorem Fills.accounts (h : Fills s n (100 * n) [] requests outcome) (hpos : n ≠ 0) :
    s.Accounts n requests (outcome.map (List.map fun values => ⟨s.toFrame, values⟩)) := by
  obtain ⟨hasked, hlength, hends⟩ := h
  simp only [List.length_nil, Nat.zero_add, List.nil_append] at hends
  refine ⟨hasked, hlength, (absurd · hpos), ?_, ?_, ?_⟩
  · intro cs hcs
    rcases hends with ⟨_, _, _, _, rfl⟩ | ⟨candidates, hcandidates, ⟨hfull, rfl⟩ | ⟨-, -, rfl⟩⟩
    · cases hcs
    · cases hcs
      exact ⟨by rw [List.length_map, hfull], candidates, hcandidates, rfl⟩
    · cases hcs
  · intro requested obtained herror
    rcases hends with ⟨_, _, _, hfails, rfl⟩ | ⟨candidates, hcandidates, ⟨-, rfl⟩ | ⟨hshort, hlast, rfl⟩⟩
    · cases herror
      exact absurd ⟨_, _, rfl⟩ (not_isUnsuccessful_of_failsOn hfails)
    · cases herror
    · cases herror
      exact ⟨rfl, hshort, hlast, candidates, hcandidates, rfl⟩
  · intro e herror hnot
    rcases hends with ⟨row, hrow, _, hfails, rfl⟩ | ⟨_, -, ⟨-, rfl⟩ | ⟨-, -, rfl⟩⟩
    · cases herror
      exact ⟨row, hrow, hfails⟩
    · cases herror
    · cases herror
      exact absurd ⟨_, _, rfl⟩ hnot

/-- A call for `n` configurations asks for at most a hundred vectors for each, and for none if `n` is
zero, when it leaves the generator alone. The configurations that it gives are just `n`, those of the
candidates that no clause rules out, in the order in which they are drawn. If it says that draws have
run out, it is because the whole budget has been asked for or a request has failed, and it gives `n`
and the number of such candidates that it has found so far, which is less than `n`. Else it fails
only as a condition or a clause does on a vector that has been drawn. -/
theorem samplesWith_requests (s : Space) {other : Option OwnedAssignment}
    (hother : ∀ o, other = some o → o.owner.id = s.id) (n : Nat) (g : Generator) :
    ∃ requests outcome g', (s.samplesWith other n).run.run g = (outcome, g') ∧
      Answers ((s.tableOf other).sampleRows s.scope.parameters) requests g g' ∧
      s.Accounts n requests outcome ∧ (n = 0 → g' = g) := by
  rw [samplesWith_eq hother, samplesWith.configurations]
  by_cases hzero : n = 0
  · subst hzero
    exact ⟨[], .ok [], g, rfl, .nil, s.accounts_zero, fun _ => rfl⟩
  · have hnone : ([] : List (List Value)).length ≤ n := Nat.zero_le n
    obtain ⟨requests, outcome, g', hrun, hanswers, hfills⟩ :=
      exists_fills s (s.tableOf other) n (Nat.le_refl (attemptsPerValue * n)) hnone g
    rw [if_neg hzero]
    exact ⟨requests, _, g', Sampler.run_map _ hrun, hanswers, hfills.accounts hzero,
      (absurd · hzero)⟩

/-- Two configurations of the space with a condition and a clause, drawn from laws that have been
made for it. -/
theorem samplesWith_requests_bounded :
    ∃ s o requests outcome g', build 0 bounded = .ok s ∧
      OwnedAssignment.ofFrame s.toFrame = .ok o ∧
      (∀ o', some o = some o' → o'.owner.id = s.id) ∧
      (s.samplesWith (some o) 2).run.run ⟨5⟩ = (outcome, g') ∧
      Answers (o.assignment.sampleRows s.scope.parameters) requests ⟨5⟩ g' ∧
      s.Accounts 2 requests outcome ∧ (2 = 0 → g' = ⟨5⟩) := by
  have hbuilds : (build 0 bounded).toOption.any (fun s =>
      (OwnedAssignment.ofFrame s.toFrame).toOption.any fun _ => true) = true := by
    decide +kernel
  obtain ⟨s, hs, hbuilds⟩ := exists_ok_of_any hbuilds
  obtain ⟨o, ho, -⟩ := exists_ok_of_any hbuilds
  have hother : ∀ o', some o = some o' → o'.owner.id = s.id := by
    intro o' ho'
    cases ho'
    obtain ⟨a, -, ha⟩ := bind_eq_ok.1 ho
    cases ha
    rfl
  obtain ⟨requests, outcome, g', hspec⟩ := samplesWith_requests s hother 2 ⟨5⟩
  exact ⟨s, o, requests, outcome, g', hs, ho, hother, hspec⟩

end Space

end SearchSpace
