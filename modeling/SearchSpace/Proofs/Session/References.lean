import Mathlib.Data.List.Nodup
import Mathlib.Data.List.Perm.Basic
import SearchSpace.Session

/-!
# Counted references

The references to spaces, and to laws kept apart from a space, are held by the handles and by such
laws (`Session.references`). `Sound` says that the count of each is the number of the references
that are held, together with those on the way from one holder to another. Counting a new reference
and giving one up keep this (`Sound.acquire`, `Sound.release`). What happens to parameters is of no
account for it (`Agree`).

`Settled` says which callbacks of a resource have run: none as long as there are references to it,
and all of them after that.
-/

namespace SearchSpace

/-! ## Resources -/

namespace Resource

/-- Parameters hold nothing, and their fate says nothing about that of the rest. -/
def IsParameter : Resource → Prop
  | parameter _ => True
  | space _ | assignment _ => False

/-- The identity of a resource among those of its kind. -/
def identity : Resource → Nat
  | parameter id | space id | assignment id => id

/-- The tags of a resource in a list of callbacks. -/
def tagsIn (r : Resource) (callbacks : List (Resource × String)) : List String :=
  (callbacks.filter (·.1 = r)).map (·.2)

variable {r r' : Resource} {callbacks others : List (Resource × String)}

@[simp] theorem tagsIn_append :
    r.tagsIn (callbacks ++ others) = r.tagsIn callbacks ++ r.tagsIn others := by
  rw [tagsIn, List.filter_append, List.map_append]
  rfl

theorem tagsIn_singleton (tag : String) : r.tagsIn [(r', tag)] = if r' = r then [tag] else [] := by
  rw [tagsIn, List.filter_singleton]
  split <;> simp_all

/-- Of the callbacks of a resource all are its own. -/
@[simp] theorem tagsIn_filter_eq_self :
    r.tagsIn (callbacks.filter (·.1 = r)) = r.tagsIn callbacks := by
  rw [tagsIn, List.filter_filter, tagsIn]
  simp only [Bool.and_self]

/-- Of the callbacks of a resource none is that of another one. -/
theorem tagsIn_filter_eq (h : r' ≠ r) : r'.tagsIn (callbacks.filter (·.1 = r)) = [] := by
  rw [tagsIn, List.filter_filter, List.map_eq_nil_iff, List.filter_eq_nil_iff]
  rintro ⟨q, tag⟩ -
  simp only [Bool.and_eq_true, decide_eq_true_eq, not_and]
  exact fun hq hr => h (hq.symm.trans hr)

/-- Of the callbacks of the other resources none is that of the one. -/
@[simp] theorem tagsIn_filter_ne_self : r.tagsIn (callbacks.filter (·.1 ≠ r)) = [] := by
  rw [tagsIn, List.filter_filter, List.map_eq_nil_iff, List.filter_eq_nil_iff]
  rintro ⟨q, tag⟩ -
  simp only [Bool.and_eq_true, decide_eq_true_eq, not_and]
  exact fun hr hq => hq hr

/-- Without the callbacks of a resource, those of another one are still there. -/
theorem tagsIn_filter_ne (h : r' ≠ r) :
    r'.tagsIn (callbacks.filter (·.1 ≠ r)) = r'.tagsIn callbacks := by
  rw [tagsIn, List.filter_filter, tagsIn]
  refine congrArg _ (List.filter_congr fun ⟨q, tag⟩ _ => ?_)
  by_cases hq : q = r'
  · simp [hq, h]
  · simp [hq]

end Resource

namespace Session

open Resource

variable {s s' s'' : Session} {r : Resource}

/-! ## What happens to parameters -/

/-- A session says the same as another one about everything but parameters. -/
structure Agree (s s' : Session) : Prop where
  handles : s'.handles = s.handles
  spaces : s'.spaces = s.spaces
  assignments : s'.assignments = s.assignments
  made : s'.made = s.made
  strong : ∀ r : Resource, ¬r.IsParameter → s'.strong r = s.strong r
  callbacks : ∀ r : Resource, ¬r.IsParameter → r.tagsIn s'.callbacks = r.tagsIn s.callbacks
  ran : ∀ r : Resource, ¬r.IsParameter → r.tagsIn s'.ran = r.tagsIn s.ran

theorem Agree.refl (s : Session) : Agree s s :=
  ⟨rfl, rfl, rfl, rfl, fun _ _ => rfl, fun _ _ => rfl, fun _ _ => rfl⟩

theorem Agree.trans (h : Agree s s') (h' : Agree s' s'') : Agree s s'' where
  handles := h'.handles.trans h.handles
  spaces := h'.spaces.trans h.spaces
  assignments := h'.assignments.trans h.assignments
  made := h'.made.trans h.made
  strong r hr := (h'.strong r hr).trans (h.strong r hr)
  callbacks r hr := (h'.callbacks r hr).trans (h.callbacks r hr)
  ran r hr := (h'.ran r hr).trans (h.ran r hr)

/-- What relates a session to that after each step relates it to that after all of them. -/
theorem foldl_induction {R : Session → Session → Prop} (hrefl : ∀ s, R s s)
    (htrans : ∀ {s t u}, R s t → R t u → R s u) {α : Type} {g : Session → α → Session}
    (hg : ∀ s a, R s (g s a)) (l : List α) (s : Session) : R s (l.foldl g s) := by
  induction l generalizing s with
  | nil => exact hrefl s
  | cons a l ih => exact htrans (hg s a) (ih _)

/-- Steps that only concern parameters, one after the other, only concern parameters. -/
theorem agree_foldl {α : Type} {f : Session → α → Session} (hf : ∀ s a, Agree s (f s a))
    (l : List α) : Agree s (l.foldl f s) :=
  foldl_induction Agree.refl Agree.trans hf l s

/-- The callbacks of a resource run after those that have run already, and none of them is left. -/
theorem tagsIn_runCallbacks_self (s : Session) (r : Resource) :
    r.tagsIn (s.runCallbacks r).ran = r.tagsIn s.ran ++ r.tagsIn s.callbacks ∧
      r.tagsIn (s.runCallbacks r).callbacks = [] := by
  rw [runCallbacks, tagsIn_append, tagsIn_filter_eq_self, tagsIn_filter_ne_self]
  exact ⟨rfl, rfl⟩

/-- The callbacks of the other resources stay as they are. -/
theorem tagsIn_runCallbacks {q : Resource} (s : Session) (h : q ≠ r) :
    q.tagsIn (s.runCallbacks r).ran = q.tagsIn s.ran ∧
      q.tagsIn (s.runCallbacks r).callbacks = q.tagsIn s.callbacks := by
  rw [runCallbacks, tagsIn_append, tagsIn_filter_eq h, tagsIn_filter_ne h, List.append_nil]
  exact ⟨rfl, rfl⟩

/-- Running the callbacks of any resource keeps the agreement. -/
theorem Agree.runCallbacks (h : Agree s s') (r : Resource) :
    Agree (s.runCallbacks r) (s'.runCallbacks r) where
  handles := h.handles
  spaces := h.spaces
  assignments := h.assignments
  made := h.made
  strong := h.strong
  callbacks q hq := by
    by_cases hqr : q = r
    · subst hqr
      rw [(tagsIn_runCallbacks_self s q).2, (tagsIn_runCallbacks_self s' q).2]
    · rw [(tagsIn_runCallbacks s hqr).2, (tagsIn_runCallbacks s' hqr).2, h.callbacks q hq]
  ran q hq := by
    by_cases hqr : q = r
    · subst hqr
      rw [(tagsIn_runCallbacks_self s q).1, (tagsIn_runCallbacks_self s' q).1, h.callbacks q hq,
        h.ran q hq]
    · rw [(tagsIn_runCallbacks s hqr).1, (tagsIn_runCallbacks s' hqr).1, h.ran q hq]

theorem ne_of_isParameter {q : Resource} (hr : r.IsParameter) (hq : ¬q.IsParameter) : q ≠ r :=
  fun h => hq (h ▸ hr)

/-- The callbacks of a parameter only concern that. -/
theorem agree_runCallbacks (hr : r.IsParameter) : Agree s (s.runCallbacks r) where
  handles := rfl
  spaces := rfl
  assignments := rfl
  made := rfl
  strong _ _ := rfl
  callbacks _ hq := (tagsIn_runCallbacks s (ne_of_isParameter hr hq)).2
  ran _ hq := (tagsIn_runCallbacks s (ne_of_isParameter hr hq)).1

/-- Counting a reference to a parameter only concerns that. -/
theorem agree_acquire (hr : r.IsParameter) : Agree s (s.acquire r) :=
  { Agree.refl s with strong := fun _ hq => if_neg (ne_of_isParameter hr hq) }

/-- Giving up a reference to a parameter only concerns parameters. -/
theorem agree_releaseParameter (s : Session) (id : Nat) : Agree s (s.releaseParameter id) := by
  have hdiscount : Agree s (s.discount (.parameter id)) :=
    { Agree.refl s with
      strong := fun _ hq => if_neg (ne_of_isParameter (r := .parameter id) trivial hq) }
  rw [releaseParameter, giveUp]
  split
  · exact hdiscount.trans (agree_runCallbacks trivial)
  · exact hdiscount

/-- Giving up a reference to a space concerns, but for parameters, that space only. -/
theorem agree_releaseSpace (s : Session) (id : Nat) :
    Agree (s.giveUp (.space id) fun s => s) (s.releaseSpace id) := by
  rw [releaseSpace, giveUp, giveUp]
  split
  · refine Agree.runCallbacks ?_ _
    split
    · exact agree_foldl agree_releaseParameter _
    · exact .refl _
  · exact .refl _

/-! ## Tables -/

section
variable {κ α : Type} [DecidableEq κ] {table : List (κ × α)} {k : κ}

/-- In a table without repeated keys, each entry is found under its key. -/
theorem lookup_eq_some_iff_mem (hkeys : (table.map (·.1)).Nodup) {a : α} :
    table.lookup k = some a ↔ (k, a) ∈ table := by
  constructor
  · intro h
    obtain ⟨l₁, l₂, rfl, -⟩ := List.lookup_eq_some_iff.1 h
    exact List.mem_append_right _ List.mem_cons_self
  · intro h
    obtain ⟨l₁, l₂, rfl⟩ := List.append_of_mem h
    refine List.lookup_eq_some_iff.2 ⟨l₁, l₂, rfl, fun p hp => bne_iff_ne.2 fun hpk => ?_⟩
    rw [List.map_append, List.map_cons] at hkeys
    exact (List.nodup_append.1 hkeys).2.2 p.1 (List.mem_map_of_mem hp) k List.mem_cons_self hpk.symm

/-- In a table without repeated keys, an entry that passes one test and fails another one is all
that the tests differ in, if they do not differ on other keys. -/
theorem perm_filter_of_lookup {p q : κ → Bool} (hkeys : (table.map (·.1)).Nodup)
    (hp : p k = true) (hq : q k = false) (hpq : ∀ j, j ≠ k → p j = q j) :
    (table.filter (p ·.1)).Perm
      ((table.lookup k).toList.map (k, ·) ++ table.filter (q ·.1)) := by
  induction table with
  | nil => exact .refl []
  | cons entry table ih =>
    obtain ⟨j, a⟩ := entry
    obtain ⟨hj, hkeys⟩ := List.nodup_cons.1 hkeys
    rcases eq_or_ne j k with rfl | hjk
    · have hsame : table.filter (p ·.1) = table.filter (q ·.1) :=
        List.filter_congr fun e he => hpq e.1 fun h => hj (List.mem_map.2 ⟨e, he, h⟩)
      simp only [List.filter_cons, hp, hq, if_true, List.lookup_cons_self, hsame]
      exact .refl _
    · have hlookup : ((j, a) :: table).lookup k = table.lookup k := by
        rw [List.lookup_cons, beq_false_of_ne hjk.symm]
      rw [hlookup, List.filter_cons, List.filter_cons, hpq j hjk]
      split
      · exact ((ih hkeys).cons _).trans List.perm_middle.symm
      · exact ih hkeys

/-- In a table whose values are changed by key, the changed value is found. -/
theorem lookup_map_values (table : List (κ × α)) (f : κ → α → α) :
    (table.map fun (j, a) => (j, f j a)).lookup k = (table.lookup k).map (f k) := by
  induction table with
  | nil => rfl
  | cons entry table ih =>
    obtain ⟨j, a⟩ := entry
    rcases eq_or_ne j k with rfl | hjk
    · rw [List.map_cons, List.lookup_cons_self, List.lookup_cons_self, Option.map_some]
    · rw [List.map_cons, List.lookup_cons, List.lookup_cons, beq_false_of_ne hjk.symm]
      exact ih

end

/-! ## References -/

/-- The references that laws kept apart from a space hold. -/
def heldApart (s : Session) : Resource → List Resource
  | .assignment id => (s.assignmentOfId? id).toList.map fun a => .space a.owner.id
  | .parameter _ | .space _ => []

/-- The references that are held: those of the handles, and those of the laws kept apart from a
space to which there still are references. -/
def references (s : Session) : List Resource :=
  s.handles.flatMap (heldBy ·.2) ++
    (s.assignments.filter fun e => s.strong (.assignment e.1) ≠ 0).map fun e => .space e.2.owner.id

/-- What is held depends on the handles, on the laws kept apart from a space, and on which of them
there are references to. -/
theorem references_congr (hhandles : s'.handles = s.handles)
    (hassignments : s'.assignments = s.assignments)
    (hstrong : ∀ id, s'.strong (.assignment id) = 0 ↔ s.strong (.assignment id) = 0) :
    s'.references = s.references := by
  rw [references, references, hhandles, hassignments]
  simp only [ne_eq, hstrong]

@[simp] theorem strong_discount_self : (s.discount r).strong r = s.strong r - 1 :=
  if_pos rfl

theorem strong_discount_of_ne {q : Resource} (h : q ≠ r) : (s.discount r).strong q = s.strong q :=
  if_neg h

/-- What is not counted is not counted afterwards. -/
theorem strong_discount_of_zero {q : Resource} (h : s.strong q = 0) :
    (s.discount r).strong q = 0 := by
  rcases eq_or_ne q r with rfl | hqr
  · rw [strong_discount_self, h]
  · rw [strong_discount_of_ne hqr, h]

@[simp] theorem strong_acquire_self : (s.acquire r).strong r = s.strong r + 1 :=
  if_pos rfl

theorem strong_acquire_of_ne {q : Resource} (h : q ≠ r) : (s.acquire r).strong q = s.strong q :=
  if_neg h

/-- A reference that is counted and taken off again leaves the counts as they were. -/
@[simp] theorem discount_acquire : (s.acquire r).discount r = s := by
  have hstrong : ((s.acquire r).discount r).strong = s.strong := by
    funext q
    rcases eq_or_ne q r with rfl | hq
    · rw [strong_discount_self, strong_acquire_self, Nat.add_sub_cancel]
    · rw [strong_discount_of_ne hq, strong_acquire_of_ne hq]
  obtain ⟨handles, spaces, assignments, strong, callbacks, ran, made⟩ := s
  exact congrArg (Session.mk handles spaces assignments · callbacks ran made) hstrong

/-- With the last reference to laws kept apart from a space, their reference to the space goes. -/
theorem references_discount (hkeys : (s.assignments.map (·.1)).Nodup) (hr : s.strong r ≠ 0) :
    s.references.Perm
      ((if (s.discount r).strong r = 0 then s.heldApart r else []) ++
        (s.discount r).references) := by
  have hsame : (∀ id, (s.discount r).strong (.assignment id) = 0 ↔ s.strong (.assignment id) = 0) →
      (s.discount r).references = s.references := references_congr rfl rfl
  cases r with
  | parameter k | space k =>
    rw [hsame fun id => by rw [strong_discount_of_ne (by simp)]]
    simp only [heldApart, ite_self]
    exact .refl _
  | assignment k =>
    split
    · next hzero =>
      have hsplit := perm_filter_of_lookup hkeys (k := k)
        (p := fun j => decide (s.strong (.assignment j) ≠ 0))
        (q := fun j => decide ((s.discount (.assignment k)).strong (.assignment j) ≠ 0))
        (decide_eq_true hr) (decide_eq_false (not_not_intro hzero))
        fun j hj => by rw [strong_discount_of_ne fun h => hj (Resource.assignment.inj h)]
      rw [references, references, heldApart, assignmentOfId?]
      refine ((hsplit.map _).append_left _).trans ?_
      rw [List.map_append, List.map_map]
      exact List.perm_append_comm_assoc _ _ _
    · next hpos =>
      rw [hsame fun id => ?_]
      · exact .refl _
      · rcases eq_or_ne id k with rfl | hid
        · exact iff_of_false hpos hr
        · rw [strong_discount_of_ne fun h => hid (Resource.assignment.inj h)]

/-! ## Sound sessions -/

/-- The count of each space, and of laws kept apart from one, is the number of the references that
are held or on the way from one holder to another. The tables have no key twice, only what has been
made is counted, and spaces with references are known. -/
structure Sound (s : Session) (moving : List Resource) : Prop where
  strong : ∀ r : Resource, ¬r.IsParameter → s.strong r = (s.references ++ moving).count r
  names : (s.handles.map (·.1)).Nodup
  keys : (s.assignments.map (·.1)).Nodup
  keys_lt : ∀ e ∈ s.assignments, e.1 < s.made
  spaces : ∀ e ∈ s.spaces, e.2.id = e.1
  made : ∀ r : Resource, ¬r.IsParameter → s.strong r ≠ 0 → r.identity < s.made
  known : ∀ id, s.strong (.space id) ≠ 0 → (s.spaceOfId? id).isSome

variable {moving moving' : List Resource}

/-- The order of the references on the way does not matter, nor do those to parameters. -/
theorem Sound.congr (h : Sound s moving)
    (hmoving : ∀ r : Resource, ¬r.IsParameter → moving.count r = moving'.count r) :
    Sound s moving' :=
  { h with
    strong := by
      intro r hr
      rw [h.strong r hr, List.count_append, List.count_append, hmoving r hr] }

/-- Soundness says nothing about parameters. -/
theorem Agree.sound (h : Agree s s') (hs : Sound s moving) : Sound s' moving where
  strong r hr := by
    have hreferences : s'.references = s.references :=
      references_congr h.handles h.assignments fun id => by rw [h.strong (.assignment id) not_false]
    rw [h.strong r hr, hs.strong r hr, hreferences]
  names := h.handles ▸ hs.names
  keys := h.assignments ▸ hs.keys
  keys_lt := by
    rw [h.assignments, h.made]
    exact hs.keys_lt
  spaces := h.spaces ▸ hs.spaces
  made r hr hstrong := by
    rw [h.strong r hr] at hstrong
    rw [h.made]
    exact hs.made r hr hstrong
  known id hstrong := by
    rw [h.strong (.space id) not_false] at hstrong
    rw [spaceOfId?, h.spaces]
    exact hs.known id hstrong

/-- Callbacks that run count for nothing. -/
theorem Sound.runCallbacks (h : Sound s moving) (r : Resource) : Sound (s.runCallbacks r) moving :=
  { h with }

/-- What is on the way is counted. -/
theorem Sound.strong_ne_zero (h : Sound s (r :: moving)) (hr : ¬r.IsParameter) :
    s.strong r ≠ 0 := by
  rw [h.strong r hr, List.count_append, List.count_cons_self]
  omega

/-- A reference on the way is taken off the count. If it was the last one to laws kept apart from a
space, their reference to the space is on the way then. -/
theorem Sound.discount (h : Sound s (r :: moving)) (hr : ¬r.IsParameter) :
    Sound (s.discount r)
      ((if (s.discount r).strong r = 0 then s.heldApart r else []) ++ moving) :=
  { h with
    strong := by
      intro q hq
      -- The references held before are those held afterwards and those that are on the way now.
      have hsplit := (references_discount h.keys (h.strong_ne_zero hr)).count_eq q
      have hcount := h.strong q hq
      rw [List.count_append] at hsplit hcount
      rw [List.count_append, List.count_append]
      rcases eq_or_ne q r with rfl | hqr
      · have hone : (s.discount q).strong q = s.strong q - 1 := strong_discount_self
        rw [List.count_cons_self] at hcount
        omega
      · rw [List.count_cons_of_ne hqr.symm] at hcount
        rw [strong_discount_of_ne hqr]
        omega
    made := fun q hq hstrong => h.made q hq fun hzero => hstrong (strong_discount_of_zero hzero)
    known := fun id hstrong => h.known id fun hzero => hstrong (strong_discount_of_zero hzero) }

/-- A new reference is counted and on the way then. If it is the first one to laws kept apart from a
space, a reference to the space that was on the way goes to them. -/
theorem Sound.acquire
    (h : Sound s ((if s.strong r = 0 then s.heldApart r else []) ++ moving))
    (hmade : r.identity < s.made) (hknown : ∀ id, r = .space id → (s.spaceOfId? id).isSome) :
    Sound (s.acquire r) (r :: moving) :=
  { h with
    strong := by
      intro q hq
      -- Taking the new reference off again leads back to the session, so this is `discount` read
      -- from its end.
      have hsplit : (s.acquire r).references.Perm
          ((if s.strong r = 0 then s.heldApart r else []) ++ s.references) := by
        have hdiscount := references_discount (s := s.acquire r) (r := r) h.keys (by simp)
        rwa [discount_acquire] at hdiscount
      have hcount := h.strong q hq
      rw [List.count_append, List.count_append] at hcount
      rw [List.count_append, hsplit.count_eq, List.count_append]
      rcases eq_or_ne q r with rfl | hqr
      · rw [List.count_cons_self, strong_acquire_self]
        omega
      · rw [List.count_cons_of_ne hqr.symm, strong_acquire_of_ne hqr]
        omega
    made := by
      intro q hq hstrong
      rcases eq_or_ne q r with rfl | hqr
      · exact hmade
      · rw [strong_acquire_of_ne hqr] at hstrong
        exact h.made q hq hstrong
    known := by
      intro id hstrong
      rcases eq_or_ne (.space id) r with hr | hr
      · exact hknown id hr.symm
      · rw [strong_acquire_of_ne hr] at hstrong
        exact h.known id hstrong }

/-! ## Callbacks -/

/-- As long as there are references to a resource, all callbacks registered on it are still there.
Once there is none, they all have run, in the order of their registration. There is none to one that
is gone. -/
structure Settled (s : Session) (r : Resource) (gone : Prop) (registered : List String) : Prop where
  alive : s.strong r ≠ 0 → ¬gone ∧ r.tagsIn s.ran = [] ∧ r.tagsIn s.callbacks = registered
  dead : s.strong r = 0 → r.tagsIn s.ran = registered ∧ r.tagsIn s.callbacks = []

variable {q : Resource} {gone : Prop} {registered : List String} {id : Nat}

/-- The callbacks of a resource are settled as long as only other resources are concerned. -/
theorem Settled.congr (h : Settled s q gone registered) (hstrong : s'.strong q = s.strong q)
    (hran : q.tagsIn s'.ran = q.tagsIn s.ran)
    (hcallbacks : q.tagsIn s'.callbacks = q.tagsIn s.callbacks) : Settled s' q gone registered := by
  constructor
  · rw [hstrong, hran, hcallbacks]
    exact h.alive
  · rw [hstrong, hran, hcallbacks]
    exact h.dead

theorem Agree.settled (h : Agree s s') (hs : Settled s q gone registered) (hq : ¬q.IsParameter) :
    Settled s' q gone registered :=
  hs.congr (h.strong q hq) (h.ran q hq) (h.callbacks q hq)

/-- A reference to another resource is of no account. -/
theorem Settled.discount (h : Settled s q gone registered) (hqr : q ≠ r) :
    Settled (s.discount r) q gone registered :=
  h.congr (strong_discount_of_ne hqr) rfl rfl

/-- The callbacks of another resource are of no account. -/
theorem Settled.runCallbacks (h : Settled s q gone registered) (hqr : q ≠ r) :
    Settled (s.runCallbacks r) q gone registered :=
  h.congr rfl (tagsIn_runCallbacks s hqr).1 (tagsIn_runCallbacks s hqr).2

/-- With the last reference to a resource all its callbacks run. -/
theorem Settled.giveUp (h : Settled s r gone registered) (hr : s.strong r ≠ 0) :
    Settled (s.giveUp r fun s => s) r gone registered := by
  obtain ⟨hgone, hran, hcallbacks⟩ := h.alive hr
  rw [Session.giveUp]
  split
  · next hzero =>
    obtain ⟨hran', hcallbacks'⟩ := tagsIn_runCallbacks_self (s.discount r) r
    refine ⟨fun hpos => absurd hzero hpos, fun _ => ⟨hran'.trans ?_, hcallbacks'⟩⟩
    show r.tagsIn s.ran ++ r.tagsIn s.callbacks = registered
    rw [hran, hcallbacks, List.nil_append]
  · next hpos => exact ⟨fun _ => ⟨hgone, hran, hcallbacks⟩, fun hzero => absurd hzero hpos⟩

/-! ## Giving up references -/

/-- A reference to a space is given up. -/
theorem Sound.releaseSpace (h : Sound s (.space id :: moving)) :
    Sound (s.releaseSpace id) moving := by
  refine (agree_releaseSpace s id).sound ?_
  have hdiscount : Sound (s.discount (.space id)) moving := by
    simpa only [heldApart, ite_self, List.nil_append] using h.discount not_false
  rw [giveUp]
  split
  · exact hdiscount.runCallbacks _
  · exact hdiscount

/-- The callbacks of a space stay settled when a reference to a space is given up. -/
theorem Settled.releaseSpace {id' : Nat} (h : Settled s (.space id) gone registered)
    (hid : s.strong (.space id') ≠ 0) :
    Settled (s.releaseSpace id') (.space id) gone registered := by
  refine (agree_releaseSpace s id').settled ?_ not_false
  rcases eq_or_ne id id' with rfl | hne
  · exact h.giveUp hid
  · have hspace : Resource.space id ≠ .space id' := fun heq => hne (Resource.space.inj heq)
    rw [Session.giveUp]
    split
    · exact (h.discount hspace).runCallbacks hspace
    · exact h.discount hspace

/-- A reference is given up. The callbacks of a space stay settled. -/
theorem Sound.release (h : Sound s (r :: moving)) :
    Sound (s.release r) moving ∧ ∀ id gone registered, Settled s (.space id) gone registered →
      Settled (s.release r) (.space id) gone registered := by
  cases r with
  | parameter k =>
    have hagree := agree_releaseParameter s k
    refine ⟨hagree.sound (h.congr fun r hr => ?_), fun id _ _ hs => hagree.settled hs not_false⟩
    refine List.count_cons_of_ne ?_
    rintro rfl
    exact hr trivial
  | space k =>
    exact ⟨h.releaseSpace, fun id _ _ hs => hs.releaseSpace (h.strong_ne_zero not_false)⟩
  | assignment k =>
    have hdiscount := h.discount not_false
    have hne : ∀ id, Resource.space id ≠ .assignment k := fun id heq => nomatch heq
    rw [Session.release, releaseAssignment, giveUp]
    split
    · next hzero =>
      rw [if_pos hzero, heldApart] at hdiscount
      have hlookup : (s.discount (.assignment k)).assignmentOfId? k = s.assignmentOfId? k := rfl
      simp only [hlookup]
      cases hk : s.assignmentOfId? k with
      | none =>
        rw [hk] at hdiscount
        exact ⟨hdiscount.runCallbacks _,
          fun id _ _ hs => (hs.discount (hne id)).runCallbacks (hne id)⟩
      | some a =>
        rw [hk] at hdiscount
        refine ⟨Sound.runCallbacks (Sound.releaseSpace hdiscount) _, fun id _ _ hs => ?_⟩
        have hreleased := (hs.discount (hne id)).releaseSpace (hdiscount.strong_ne_zero not_false)
        exact hreleased.runCallbacks (hne id)
    · next hpos =>
      rw [if_neg hpos] at hdiscount
      exact ⟨hdiscount, fun id _ _ hs => hs.discount (hne id)⟩

/-- References are given up one after the other. -/
theorem Sound.foldl_release {held : List Resource} (h : Sound s (held ++ moving)) :
    Sound (held.foldl Session.release s) moving ∧ ∀ id gone registered,
      Settled s (.space id) gone registered →
        Settled (held.foldl Session.release s) (.space id) gone registered := by
  induction held generalizing s with
  | nil => exact ⟨h, fun _ _ _ hs => hs⟩
  | cons r held ih =>
    obtain ⟨hsound, hsettled⟩ := h.release
    obtain ⟨hsound', hsettled'⟩ := ih hsound
    exact ⟨hsound', fun id _ _ hs => hsettled' id _ _ (hsettled id _ _ hs)⟩

end Session

end SearchSpace
