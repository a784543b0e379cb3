import Mathlib.Algebra.Group.Nat.Defs
import SearchSpace.Proofs.Outcome
import SearchSpace.Proofs.Rejection

/-!
# Requests for batches

A computation that takes its draws in batches makes a request for each of them, one after the other.
`Answers` relates the requests and the answers that they get to the states before and after them.
`collect_requests` says which requests a collection makes, and what it comes to with the answers: it
is the filter of all that is drawn, cut off at the number wanted. `Collects` is what the loop keeps
of that from any state on, and its cases are put together in `exists_collects`.
-/

namespace SearchSpace.Rejection

variable {σ α β : Type}

/-! ## Runs of a computation that may fail -/

/-- A computation goes on where its first part has come to a result. -/
theorem Sampler.run_bind_ok {x : Sampler σ α} {f : α → Sampler σ β} {s s' : σ} {a : α}
    (h : x.run.run s = (.ok a, s')) : (x >>= f).run.run s = (f a).run.run s' := by
  show ExceptT.bindCont f (x.run.run s).1 (x.run.run s).2 = _
  rw [h]
  rfl

/-- A computation fails where its first part does. -/
theorem Sampler.run_bind_error {x : Sampler σ α} {f : α → Sampler σ β} {s s' : σ} {e : Error}
    (h : x.run.run s = (.error e, s')) : (x >>= f).run.run s = (.error e, s') := by
  show ExceptT.bindCont f (x.run.run s).1 (x.run.run s).2 = _
  rw [h]
  rfl

/-- A computation whose result is changed fails where it does and leaves the same state. -/
theorem Sampler.run_map {x : Sampler σ α} {answer : Except Error α} {s s' : σ} (f : α → β)
    (h : x.run.run s = (answer, s')) :
    (x >>= fun a => pure (f a) : Sampler σ β).run.run s = (answer.map f, s') := by
  cases answer with
  | error e => exact run_bind_error h
  | ok a => exact run_bind_ok h

/-- A computation whose errors are worded in another way fails where it does and leaves the same
state. -/
theorem Sampler.run_adapt {x : Sampler σ α} {answer : Except Error α} {s s' : σ} (f : Error → Error)
    (h : x.run.run s = (answer, s')) :
    (ExceptT.adapt f x : Sampler σ α).run.run s = (answer.mapError f, s') := by
  show ((x.run.run s).1.mapError f, (x.run.run s).2) = _
  rw [h]

/-! ## Requests -/

/-- A request for a batch of some size, with the answer to it. -/
structure Request (β : Type) where
  size : Nat
  answer : Except Error β

/-- Requests made one after the other get their answers and lead from one state to another. -/
inductive Answers (source : Nat → Sampler σ β) : List (Request β) → σ → σ → Prop
  | nil {s : σ} : Answers source [] s s
  | cons {size : Nat} {answer : Except Error β} {requests : List (Request β)} {s s' s'' : σ} :
    (source size).run.run s = (answer, s') → Answers source requests s' s'' →
      Answers source (⟨size, answer⟩ :: requests) s s''

/-- A request that is made alone. -/
theorem Answers.single {source : Nat → Sampler σ β} {size : Nat} {answer : Except Error β} {s s' : σ}
    (h : (source size).run.run s = (answer, s')) : Answers source [⟨size, answer⟩] s s' :=
  .cons h .nil

/-- The answer to a request is that of the source in some state. -/
theorem Answers.exists_run {source : Nat → Sampler σ β} {requests : List (Request β)} {s s' : σ}
    (h : Answers source requests s s') {request : Request β} (hmem : request ∈ requests) :
    ∃ s₁ s₂, (source request.size).run.run s₁ = (request.answer, s₂) := by
  induction h with
  | nil => cases hmem
  | cons hrun _ ih =>
    rcases List.mem_cons.1 hmem with rfl | hmem
    · exact ⟨_, _, hrun⟩
    · exact ih hmem

/-- The batches that are given in answer to some requests. -/
def answered (requests : List (Request β)) : List β :=
  requests.filterMap (·.answer.toOption)

/-- The accepted draws among all that are given in answer to some requests. -/
def found (requests : List (Request (List (Option α)))) : List α :=
  (answered requests).flatten.filterMap id

/-- Nothing is found without a request. -/
@[simp] theorem found_nil : found ([] : List (Request (List (Option α)))) = [] :=
  rfl

/-- What is found in the first batch stands before what is found in the others. -/
@[simp] theorem found_cons_ok (size : Nat) (batch : List (Option α))
    (requests : List (Request (List (Option α)))) :
    found (⟨size, .ok batch⟩ :: requests) = batch.filterMap id ++ found requests :=
  List.filterMap_append

/-- Nothing is found where a request fails. -/
@[simp] theorem found_cons_error (size : Nat) (e : Error)
    (requests : List (Request (List (Option α)))) :
    found (⟨size, .error e⟩ :: requests) = found requests :=
  rfl

/-- The first requests find no more than more of them. -/
theorem length_found_take_le (requests : List (Request (List (Option α)))) (r : Nat) :
    (found (requests.take r)).length ≤ (found (requests.take (r + 1))).length := by
  induction requests generalizing r with
  | nil => simp
  | cons request requests ih =>
    obtain ⟨size, answer⟩ := request
    cases r with
    | zero => exact Nat.zero_le _
    | succ r =>
      cases answer with
      | ok batch => simpa using ih r
      | error e => simpa using ih r

/-! ## Collecting -/

/-- The requests of a collection of `n` accepted draws, from some that it has on, and what it comes
to. The multiples are those of the batches that are left. -/
structure Collects (n : Nat) (multiples : List Nat) (accepted : List α)
    (requests : List (Request (List (Option α)))) (outcome : Except Error (List α)) : Prop where
  length_le : requests.length ≤ multiples.length
  /-- A request is made while draws are missing, for a multiple of their number. -/
  size_eq : ∀ r request, requests[r]? = some request →
    accepted.length + (found (requests.take r)).length < n ∧ ∃ multiple,
      multiples[r]? = some multiple ∧
        request.size = (n - (accepted.length + (found (requests.take r)).length)) * multiple
  /-- No request is made after one that fails. -/
  isOk : ∀ r request, requests[r]? = some request → r + 1 < requests.length →
    ∃ batch, request.answer = .ok batch
  /-- All that is wanted is found, or the last request fails, or no batch is left. -/
  ends : (n ≤ accepted.length + (found requests).length ∧
      (∀ request ∈ requests, ∃ batch, request.answer = .ok batch) ∧
      outcome = .ok ((accepted ++ found requests).take n)) ∨
    accepted.length + (found requests).length < n ∧
      ((∃ size e, requests.getLast? = some ⟨size, .error e⟩ ∧ outcome = .error e) ∨
        (∀ request ∈ requests, ∃ batch, request.answer = .ok batch) ∧
          requests.length = multiples.length ∧
          outcome = .error (.samplingUnsuccessful n (accepted.length + (found requests).length)))

variable {n multiple : Nat} {multiples : List Nat} {accepted : List α}
  {requests : List (Request (List (Option α)))} {outcome : Except Error (List α)}
  {draw : Nat → Sampler σ (List (Option α))}

/-- Collecting ends as soon as there are enough draws. -/
theorem collectFrom_of_le (h : n ≤ accepted.length) :
    collectFrom draw n multiples accepted = pure accepted := by
  cases multiples <;> rw [collectFrom, if_pos h]

/-- There is no request where nothing is missing. -/
theorem collects_of_le (h : n ≤ accepted.length) :
    Collects n multiples accepted [] (.ok (accepted.take n)) where
  length_le := Nat.zero_le _
  size_eq r request hr := by cases hr
  isOk r request hr := by cases hr
  ends := .inl ⟨h, (fun _ h => nomatch h), by rw [found_nil, List.append_nil]⟩

/-- There is no request where no batch is left. -/
theorem collects_exhausted (h : accepted.length < n) :
    Collects n [] accepted [] (.error (.samplingUnsuccessful n accepted.length)) where
  length_le := Nat.le_refl 0
  size_eq r request hr := by cases hr
  isOk r request hr := by cases hr
  ends := .inr ⟨h, .inr ⟨(fun _ h => nomatch h), rfl, rfl⟩⟩

/-- A request that fails is the last one. -/
theorem collects_failed (h : accepted.length < n) (e : Error) :
    Collects n (multiple :: multiples) accepted
      [⟨(n - accepted.length) * multiple, .error e⟩] (.error e) where
  length_le := Nat.succ_le_succ (Nat.zero_le _)
  size_eq r request hr := by
    cases r with
    | zero =>
      cases hr
      exact ⟨h, multiple, rfl, rfl⟩
    | succ r => cases hr
  isOk r request hr hlt := absurd (Nat.lt_of_succ_lt_succ hlt) (Nat.not_lt_zero r)
  ends := .inr ⟨h, .inl ⟨_, e, rfl, rfl⟩⟩

/-- A batch that is given is followed by the requests for what is still missing then. -/
theorem Collects.cons {batch : List (Option α)} (h : accepted.length < n)
    (hrest : Collects n multiples (accepted ++ batch.filterMap id) requests outcome) :
    Collects n (multiple :: multiples) accepted
      (⟨(n - accepted.length) * multiple, .ok batch⟩ :: requests) outcome := by
  have hlength : ∀ requests' : List (Request (List (Option α))),
      (accepted ++ batch.filterMap id).length + (found requests').length =
        accepted.length + (batch.filterMap id ++ found requests').length := by
    intro requests'
    simp only [List.length_append, Nat.add_assoc]
  obtain ⟨hle, hsize, hok, hends⟩ := hrest
  simp only [hlength] at hsize hends
  constructor
  · exact Nat.succ_le_succ hle
  · intro r request hr
    cases r with
    | zero =>
      cases hr
      exact ⟨h, multiple, rfl, rfl⟩
    | succ r =>
      rw [List.take_succ_cons, found_cons_ok]
      exact hsize r request hr
  · intro r request hr hlt
    cases r with
    | zero =>
      cases hr
      exact ⟨batch, rfl⟩
    | succ r => exact hok r request hr (Nat.lt_of_succ_lt_succ hlt)
  · rw [found_cons_ok, ← List.append_assoc, List.forall_mem_cons]
    refine hends.imp (fun ⟨hfull, hall, houtcome⟩ => ⟨hfull, ⟨⟨batch, rfl⟩, hall⟩, houtcome⟩) ?_
    refine And.imp id (Or.imp ?_ ?_)
    · rintro ⟨size, e, hlast, houtcome⟩
      exact ⟨size, e, by rw [List.getLast?_cons, hlast, Option.getD_some], houtcome⟩
    · rintro ⟨hall, hcount, houtcome⟩
      exact ⟨⟨⟨batch, rfl⟩, hall⟩, congrArg (· + 1) hcount, houtcome⟩

/-- Collecting makes no request where nothing is missing. -/
theorem exists_collects_of_eq (h : accepted.length = n) (s : σ) :
    ∃ requests outcome s', (collectFrom draw n multiples accepted).run.run s = (outcome, s') ∧
      Answers draw requests s s' ∧ Collects n multiples accepted requests outcome := by
  have hcollects : Collects n multiples accepted [] (.ok (accepted.take n)) :=
    collects_of_le (Nat.le_of_eq h.symm)
  rw [List.take_of_length_le (Nat.le_of_eq h)] at hcollects
  rw [collectFrom_of_le (Nat.le_of_eq h.symm)]
  exact ⟨[], _, s, rfl, .nil, hcollects⟩

/-- Collecting makes the requests that it should, and comes to what it should with the answers. -/
theorem exists_collects (h : accepted.length ≤ n) (s : σ) :
    ∃ requests outcome s', (collectFrom draw n multiples accepted).run.run s = (outcome, s') ∧
      Answers draw requests s s' ∧ Collects n multiples accepted requests outcome := by
  induction multiples generalizing accepted s with
  | nil =>
    rcases Nat.lt_or_eq_of_le h with hlt | heq
    · rw [collectFrom, if_neg (Nat.not_le.2 hlt)]
      exact ⟨[], _, s, rfl, .nil, collects_exhausted hlt⟩
    · exact exists_collects_of_eq heq s
  | cons multiple multiples ih =>
    rcases Nat.lt_or_eq_of_le h with hlt | heq
    · rw [collectFrom, if_neg (Nat.not_le.2 hlt)]
      rcases hrun : (draw ((n - accepted.length) * multiple)).run.run s with ⟨answer, s₁⟩
      cases answer with
      | error e =>
        exact ⟨_, _, s₁, Sampler.run_bind_error hrun, .single hrun, collects_failed hlt e⟩
      | ok batch =>
        rw [Sampler.run_bind_ok hrun]
        by_cases hshort : (batch.filterMap id).length < n - accepted.length
        · -- the whole batch is kept, and draws are still missing
          rw [List.take_of_length_le (Nat.le_of_lt hshort)]
          have hlength : (accepted ++ batch.filterMap id).length ≤ n := by
            rw [List.length_append]
            omega
          obtain ⟨requests, outcome, s', hrest, hanswers, hcollects⟩ := ih hlength s₁
          exact ⟨_, outcome, s', hrest, .cons hrun hanswers, hcollects.cons hlt⟩
        · -- the batch has all that is missing, and the rest of it is left out
          have hfull : n ≤ (accepted ++ batch.filterMap id).length := by
            rw [List.length_append]
            omega
          have htake : accepted ++ (batch.filterMap id).take (n - accepted.length) =
              (accepted ++ batch.filterMap id).take n := by
            rw [List.take_append, List.take_of_length_le h]
          rw [htake, collectFrom_of_le (Nat.le_of_eq (List.length_take_of_le hfull).symm)]
          exact ⟨_, _, s₁, rfl, .single hrun, (collects_of_le hfull).cons hlt⟩
    · exact exists_collects_of_eq heq s

/-- A whole collection makes its requests with the multiples of the schedule. -/
theorem exists_requests (draw : Nat → Sampler σ (List (Option α))) (n : Nat) (s : σ) :
    ∃ requests outcome s', (collect draw n).run.run s = (outcome, s') ∧
      Answers draw requests s s' ∧ Collects n schedule [] requests outcome :=
  exists_collects (Nat.zero_le n) s

/-- Where no request fails, collecting gives `n` draws, or says that it has fewer than those. -/
theorem lands_collect (hdraw : ∀ k s, ∃ batch s', (draw k).run.run s = (.ok batch, s')) (n : Nat)
    (s : σ) : Lands (fun xs => xs.length = n) (fun e => ∃ obtained, e = .samplingUnsuccessful n obtained)
      ((collect draw n).run.run s).1 := by
  obtain ⟨requests, outcome, s', hrun, hanswers, hcollects⟩ :=
    exists_requests draw n s
  rw [hrun]
  rcases hcollects.ends with ⟨hfull, -, rfl⟩ | ⟨-, ⟨size, e, hlast, rfl⟩ | ⟨-, -, rfl⟩⟩
  · rw [List.length_nil, Nat.zero_add] at hfull
    exact List.length_take_of_le hfull
  · obtain ⟨s₁, s₂, herror⟩ := hanswers.exists_run (List.mem_of_getLast? hlast)
    obtain ⟨batch, _, hbatch⟩ := hdraw size s₁
    cases hbatch.symm.trans herror
  · exact ⟨_, rfl⟩

/-! ## The schedule -/

/-- What is above the cap does not come below it by growing. -/
theorem not_mul_pow_le_cap {multiple : Nat} (h : cap < multiple) (r : Nat) :
    ¬multiple * growth ^ r ≤ cap := by
  have hgrown : 0 < growth ^ r := Nat.pow_pos (by decide)
  have hle := Nat.le_mul_of_pos_right multiple hgrown
  omega

/-- With enough fuel, the multiples are those that the factor gives up to the cap. -/
theorem getElem?_multiplesFrom {fuel multiple r m : Nat} (hpos : 0 < multiple)
    (hfuel : cap < multiple + fuel) :
    (multiplesFrom fuel multiple)[r]? = some m ↔ m = multiple * growth ^ r ∧ m ≤ cap := by
  induction fuel generalizing multiple r with
  | zero =>
    refine iff_of_false (fun h => nomatch h) ?_
    rintro ⟨rfl, hle⟩
    exact not_mul_pow_le_cap hfuel r hle
  | succ fuel ih =>
    rw [multiplesFrom]
    split
    · next hlt =>
      refine iff_of_false (fun h => nomatch h) ?_
      rintro ⟨rfl, hle⟩
      exact not_mul_pow_le_cap hlt r hle
    · next hle =>
      cases r with
      | zero =>
        rw [List.getElem?_cons_zero, Option.some.injEq, Nat.pow_zero, Nat.mul_one, eq_comm]
        refine ⟨fun h => ⟨h, ?_⟩, And.left⟩
        rw [h]
        exact Nat.not_lt.1 hle
      | succ r =>
        have hgrown : multiple * growth = multiple + multiple := Nat.mul_two multiple
        rw [List.getElem?_cons_succ, Nat.pow_succ', ← Nat.mul_assoc]
        exact ih (by omega) (by omega)

/-- Successive batches have the powers of the factor as their multiples, as far as these are not
above the cap. -/
theorem getElem?_schedule {r m : Nat} : schedule[r]? = some m ↔ m = growth ^ r ∧ m ≤ cap := by
  rw [schedule, getElem?_multiplesFrom Nat.one_pos (Nat.lt_add_of_pos_left Nat.one_pos), Nat.one_mul]

/-- There are six batches. -/
theorem length_schedule : schedule.length = 6 := by
  decide

/-- Collecting `n` accepted draws requests at most six batches: the first of size `n`, and each
later one of twice, four times, up to 32 times the number missing by then, so that none has more than
twice the size of the one before it. Only while draws are missing is there a next one, and not after
a request that fails. If the requests find `n` accepted draws, the first `n` of all that they find
are the result, in the order of drawing. Else the error is that of the last request, unchanged, or
none of six requests fails and the error gives the number of accepted draws that they find. -/
theorem collect_requests (draw : Nat → Sampler σ (List (Option α))) (n : Nat) (s : σ) :
    ∃ requests outcome s', (collect draw n).run.run s = (outcome, s') ∧
      Answers draw requests s s' ∧ requests.length ≤ 6 ∧
      (∀ r request, requests[r]? = some request →
        (found (requests.take r)).length < n ∧
          request.size = 2 ^ r * (n - (found (requests.take r)).length) ∧
          (r + 1 < requests.length → ∃ batch, request.answer = .ok batch) ∧
          ∀ next, requests[r + 1]? = some next → next.size ≤ 2 * request.size) ∧
      (∀ xs, outcome = .ok xs ↔
        n ≤ (found requests).length ∧ xs = (found requests).take n) ∧
      ∀ e, outcome = .error e ↔
        (∃ size, requests.getLast? = some ⟨size, .error e⟩) ∨
          requests.length = 6 ∧ (∀ request ∈ requests, ∃ batch, request.answer = .ok batch) ∧
            (found requests).length < n ∧ e = .samplingUnsuccessful n (found requests).length := by
  obtain ⟨requests, outcome, s', hrun, hanswers, hcollects⟩ :=
    exists_requests draw n s
  obtain ⟨hlength, hsize, hok, hends⟩ := hcollects
  rw [length_schedule] at hlength hends
  simp only [List.length_nil, Nat.zero_add, List.nil_append] at hsize hends
  have hpow : ∀ r request, requests[r]? = some request →
      request.size = 2 ^ r * (n - (found (requests.take r)).length) := by
    intro r request hr
    obtain ⟨-, multiple, hmultiple, heq⟩ := hsize r request hr
    rw [heq, (getElem?_schedule.1 hmultiple).1, Nat.mul_comm]
    rfl
  refine ⟨requests, outcome, s', hrun, hanswers, hlength, ?_, ?_, ?_⟩
  · intro r request hr
    refine ⟨(hsize r request hr).1, hpow r request hr, hok r request hr, fun next hnext => ?_⟩
    have hmore := length_found_take_le requests r
    calc next.size = 2 ^ (r + 1) * (n - (found (requests.take (r + 1))).length) :=
          hpow (r + 1) next hnext
      _ ≤ 2 ^ (r + 1) * (n - (found (requests.take r)).length) :=
        Nat.mul_le_mul_left _ (Nat.sub_le_sub_left hmore n)
      _ = 2 * request.size := by rw [hpow r request hr, Nat.pow_succ', Nat.mul_assoc]
  · intro xs
    rcases hends with ⟨hfull, -, rfl⟩ | ⟨hshort, ⟨_, _, -, rfl⟩ | ⟨-, -, rfl⟩⟩
    · rw [Except.ok.injEq, eq_comm, and_iff_right hfull]
    · exact iff_of_false (fun h => nomatch h) fun h => Nat.not_le.2 hshort h.1
    · exact iff_of_false (fun h => nomatch h) fun h => Nat.not_le.2 hshort h.1
  · intro e
    have hfails : (∀ request ∈ requests, ∃ batch, request.answer = .ok batch) →
        ¬∃ size, requests.getLast? = some ⟨size, .error e⟩ := by
      rintro hall ⟨size, hlast⟩
      obtain ⟨batch, hbatch⟩ := hall _ (List.mem_of_getLast? hlast)
      cases hbatch
    rcases hends with ⟨hfull, hall, rfl⟩ | ⟨hshort, ⟨size, e', hlast, rfl⟩ | ⟨hall, hcount, rfl⟩⟩
    · refine iff_of_false (fun h => nomatch h) ?_
      exact not_or.2 ⟨hfails hall, fun h => Nat.not_le.2 h.2.2.1 hfull⟩
    · constructor
      · intro h
        cases h
        exact .inl ⟨size, hlast⟩
      · rintro (⟨size', hlast'⟩ | ⟨-, hall, -⟩)
        · cases hlast.symm.trans hlast'
          rfl
        · obtain ⟨batch, hbatch⟩ := hall _ (List.mem_of_getLast? hlast)
          cases hbatch
    · rw [Except.error.injEq, eq_comm, or_iff_right (hfails hall)]
      exact ⟨fun h => ⟨hcount, hall, hshort, h⟩, fun h => h.2.2.2⟩

end SearchSpace.Rejection
