import SearchSpace.Proofs.Outcome
import SearchSpace.Proofs.Session.References
import SearchSpace.Proofs.Space.Consistency

/-!
# Handles

What a change of the table of handles does to the references. A handle holds what it names, and
what is given a handle must be there already (`Backed`) or have just been made. `Living` is what
every such change keeps: the session is sound, and the callbacks of each space are settled.

A space has an owner if some handle keeps it (`Kept`): one of the space itself, of a configuration,
or of laws kept apart from it. Just the spaces that have an owner have references
(`Sound.strong_ne_zero_iff_kept`).
-/

namespace SearchSpace

namespace Session

open Resource

variable {s s' : Session} {r : Resource} {moving moving' : List Resource}

/-! ## Owners -/

/-- The space that something a handle names keeps: the space itself, that of a configuration, or
that of laws kept apart from it. -/
def kept? (s : Session) : Entity → Option Nat
  | .space id => some id
  | .configuration c => some c.frame.id
  | .assignment id => (s.assignmentOfId? id).map (·.owner.id)
  | .parameter _ | .scope _ | .expr _ | .distribution _ | .weak _ | .generator _ => none

/-- A space has an owner: some handle keeps it. -/
def Kept (s : Session) (id : Nat) : Prop :=
  ∃ entry ∈ s.handles, s.kept? entry.2 = some id

instance (s : Session) (id : Nat) : Decidable (s.Kept id) :=
  inferInstanceAs (Decidable (∃ entry ∈ s.handles, s.kept? entry.2 = some id))

/-- Only laws kept apart from a space are held as such. -/
theorem assignment_mem_heldBy {id : Nat} {entity : Entity} :
    .assignment id ∈ heldBy entity ↔ entity = .assignment id := by
  cases entity <;> simp [heldBy, eq_comm]

/-- A space is held by its handles and its configurations. -/
theorem space_mem_heldBy {id : Nat} {entity : Entity} :
    .space id ∈ heldBy entity ↔
      entity = .space id ∨ ∃ c, entity = .configuration c ∧ c.frame.id = id := by
  cases entity <;> simp [heldBy, eq_comm]

/-- What is counted is held. -/
theorem Sound.strong_ne_zero_iff (h : Sound s []) (hr : ¬r.IsParameter) :
    s.strong r ≠ 0 ↔ r ∈ s.references := by
  rw [h.strong r hr, List.append_nil, ne_eq, List.count_eq_zero, not_not]

/-- There are references to laws kept apart from a space if they have a handle. -/
theorem Sound.strong_assignment_ne_zero_iff (h : Sound s []) {id : Nat} :
    s.strong (.assignment id) ≠ 0 ↔ ∃ entry ∈ s.handles, entry.2 = .assignment id := by
  rw [h.strong_ne_zero_iff (r := .assignment id) not_false, references, List.mem_append,
    List.mem_flatMap]
  simp [assignment_mem_heldBy]

/-- Just the spaces that have an owner have references. -/
theorem Sound.strong_ne_zero_iff_kept (h : Sound s []) {id : Nat} :
    s.strong (.space id) ≠ 0 ↔ s.Kept id := by
  rw [h.strong_ne_zero_iff (r := .space id) not_false, references, List.mem_append,
    List.mem_flatMap]
  constructor
  · rintro (⟨entry, hentry, hheld⟩ | happart)
    · refine ⟨entry, hentry, ?_⟩
      rcases space_mem_heldBy.1 hheld with he | ⟨c, he, hc⟩
      · rw [he, kept?]
      · rw [he, kept?, hc]
    · obtain ⟨⟨k, a⟩, hmem, ha⟩ := List.mem_map.1 happart
      obtain ⟨hmem, hstrong⟩ := List.mem_filter.1 hmem
      obtain ⟨entry, hentry, he⟩ := h.strong_assignment_ne_zero_iff.1 (of_decide_eq_true hstrong)
      refine ⟨entry, hentry, ?_⟩
      rw [he, kept?, assignmentOfId?, (lookup_eq_some_iff_mem h.keys).2 hmem]
      exact congrArg some (Resource.space.inj ha)
  · rintro ⟨⟨name, entity⟩, hentry, hkept⟩
    cases entity with
    | space k =>
      exact .inl ⟨_, hentry, space_mem_heldBy.2 (.inl (congrArg _ (Option.some.inj hkept)))⟩
    | configuration c =>
      exact .inl ⟨_, hentry, space_mem_heldBy.2 (.inr ⟨c, rfl, Option.some.inj hkept⟩)⟩
    | assignment k =>
      obtain ⟨a, hlookup, ha⟩ := Option.map_eq_some_iff.1 hkept
      have hmem := (lookup_eq_some_iff_mem h.keys).1 hlookup
      have hstrong := h.strong_assignment_ne_zero_iff.2 ⟨_, hentry, rfl⟩
      exact .inr (List.mem_map.2
        ⟨(k, a), List.mem_filter.2 ⟨hmem, decide_eq_true hstrong⟩, congrArg Resource.space ha⟩)
    | parameter | scope | expr | distribution | weak | generator => cases hkept

/-! ## Living sessions -/

/-- A sound session in which the callbacks of each space are settled. What has not been made is not
gone, and it has no callbacks. -/
structure Living (s : Session) (moving : List Resource) (gone : Nat → Prop)
    (registered : Nat → List String) : Prop extends Sound s moving where
  settled : ∀ id, Settled s (.space id) (gone id) (registered id)
  fresh : ∀ id, s.made ≤ id → ¬gone id ∧ registered id = []

variable {gone : Nat → Prop} {registered : Nat → List String}

theorem Agree.living (h : Agree s s') (hs : Living s moving gone registered) :
    Living s' moving gone registered :=
  { h.sound hs.toSound with
    settled := fun id => h.settled (hs.settled id) not_false
    fresh := by
      rw [h.made]
      exact hs.fresh }

/-- The order of the references on the way does not matter, nor do those to parameters. -/
theorem Living.congr (h : Living s moving gone registered)
    (hmoving : ∀ r : Resource, ¬r.IsParameter → moving.count r = moving'.count r) :
    Living s moving' gone registered :=
  { h with strong := (h.toSound.congr hmoving).strong }

section
variable {R : Session → Session → Prop} (hrefl : ∀ s, R s s)
  (htrans : ∀ {s t u}, R s t → R t u → R s u)
include hrefl htrans

/-- A reference is given up by counting it down and running callbacks only. -/
theorem release_induction (hdiscount : ∀ s r, R s (discount s r))
    (hrun : ∀ s r, R s (runCallbacks s r)) (s : Session) (r : Resource) : R s (s.release r) := by
  have hgiveUp : ∀ (s : Session) (r : Resource) (held : Session → Session),
      (∀ s, R s (held s)) → R s (s.giveUp r held) := by
    intro s r held hheld
    rw [giveUp]
    split
    · exact htrans (hdiscount s r) (htrans (hheld _) (hrun _ r))
    · exact hdiscount s r
  have hparameter : ∀ (s : Session) (id : Nat), R s (s.releaseParameter id) :=
    fun s id => hgiveUp s _ _ hrefl
  have hspace : ∀ (s : Session) (id : Nat), R s (s.releaseSpace id) := by
    refine fun s id => hgiveUp s _ _ fun s => ?_
    split
    · exact foldl_induction hrefl htrans hparameter _ s
    · exact hrefl s
  cases r with
  | parameter id => exact hparameter s id
  | space id => exact hspace s id
  | assignment id =>
    rw [release, releaseAssignment]
    refine hgiveUp s _ _ fun s => ?_
    split
    · exact hspace s _
    · exact hrefl s

/-- References are given up by counting them down and running callbacks only. -/
theorem foldl_release_induction (hdiscount : ∀ s r, R s (discount s r))
    (hrun : ∀ s r, R s (runCallbacks s r)) (held : List Resource) (s : Session) :
    R s (held.foldl release s) :=
  foldl_induction hrefl htrans (release_induction hrefl htrans hdiscount hrun) held s

end

/-- References are given up one after the other. -/
theorem Living.foldl_release {held : List Resource}
    (h : Living s (held ++ moving) gone registered) :
    Living (held.foldl release s) moving gone registered := by
  obtain ⟨hsound, hsettled⟩ := h.toSound.foldl_release
  have hmade : (held.foldl release s).made = s.made :=
    foldl_release_induction (R := fun s t => t.made = s.made) (fun _ => rfl)
      (fun h h' => h'.trans h) (fun _ _ => rfl) (fun _ _ => rfl) held s
  exact
    { hsound with
      settled := fun id => hsettled id _ _ (h.settled id)
      fresh := by
        rw [hmade]
        exact h.fresh }

/-! ## New references -/

/-- A new reference is counted. If it is the first one to a space, that has just been made. -/
theorem Living.acquire
    (h : Living s ((if s.strong r = 0 then s.heldApart r else []) ++ moving) gone registered)
    (hmade : r.identity < s.made) (hknown : ∀ id, r = .space id → (s.spaceOfId? id).isSome)
    (hfresh : ∀ id, r = .space id → s.strong r = 0 → ¬gone id ∧ registered id = []) :
    Living (s.acquire r) (r :: moving) gone registered :=
  { h.toSound.acquire hmade hknown with
    settled := by
      intro id
      rcases eq_or_ne (.space id) r with rfl | hne
      · refine ⟨fun _ => ?_, fun hzero => ?_⟩
        · by_cases hzero : s.strong (.space id) = 0
          · obtain ⟨hgone, hnone⟩ := hfresh id rfl hzero
            obtain ⟨hran, hcallbacks⟩ := (h.settled id).dead hzero
            exact ⟨hgone, hran.trans hnone, hcallbacks.trans hnone.symm⟩
          · exact (h.settled id).alive hzero
        · rw [strong_acquire_self] at hzero
          omega
      · exact (h.settled id).congr (strong_acquire_of_ne hne) rfl rfl
    fresh := h.fresh }

/-- A resource to which there can be further references: a parameter, or what already has some. -/
def Backed (s : Session) (r : Resource) : Prop :=
  r.IsParameter ∨ s.strong r ≠ 0

theorem Backed.space {id : Nat} (h : s.Backed (.space id)) : s.strong (.space id) ≠ 0 :=
  h.resolve_left not_false

/-- What has a handle can have another one. -/
theorem Sound.backed_of_find? (h : Sound s moving) {name : String} {entity : Entity}
    (hfind : s.find? name = some entity) : ∀ r ∈ heldBy entity, s.Backed r := by
  intro r hr
  have hentry := (lookup_eq_some_iff_mem h.names).1 hfind
  have hheld : r ∈ s.references :=
    List.mem_append_left _ (List.mem_flatMap.2 ⟨(name, entity), hentry, hr⟩)
  refine or_iff_not_imp_left.2 fun hparameter => ?_
  rw [h.strong r hparameter, List.count_append]
  have := List.count_pos_iff.2 hheld
  omega

/-- A space is found under its identity. -/
theorem Sound.id_of_spaceOfId? (h : Sound s moving) {id : Nat} {space : Space}
    (hspace : s.spaceOfId? id = some space) : space.id = id := by
  obtain ⟨l₁, l₂, hspaces, -⟩ := List.lookup_eq_some_iff.1 hspace
  exact h.spaces (id, space) (hspaces ▸ List.mem_append_right _ List.mem_cons_self)

/-- A handle of a space names it by its identity. -/
theorem Sound.find?_of_space? (h : Sound s moving) {name : String} {space : Space}
    (hspace : s.space? name = some space) : s.find? name = some (.space space.id) := by
  unfold space? at hspace
  split at hspace
  · next id hfind => rw [hfind, h.id_of_spaceOfId? hspace]
  · cases hspace

/-- A space can be had from a weak handle just if there are references to it. -/
theorem Sound.upgrade_cases (h : Sound s moving) (id : Nat) :
    (s.strong (.space id) ≠ 0 ∧ ∃ space, s.upgrade id = .ok space ∧ space.id = id) ∨
      (s.strong (.space id) = 0 ∧ s.upgrade id = .error (.invalidObject .spaceDropped)) := by
  by_cases hstrong : s.strong (.space id) = 0
  · refine .inr ⟨hstrong, ?_⟩
    rw [upgrade]
    split
    · rw [if_pos hstrong]
    · rfl
  · obtain ⟨space, hspace⟩ := Option.isSome_iff_exists.1 (h.known id hstrong)
    refine .inl ⟨hstrong, space, ?_, h.id_of_spaceOfId? hspace⟩
    rw [upgrade, hspace]
    exact if_neg hstrong

/-- A space that has a handle has references. -/
theorem Sound.strong_of_space? (h : Sound s moving) {name : String} {space : Space}
    (hspace : s.space? name = some space) : s.strong (.space space.id) ≠ 0 :=
  (h.backed_of_find? (h.find?_of_space? hspace) _ List.mem_cons_self).space

theorem Backed.acquire {q : Resource} (h : s.Backed q) (r : Resource) : (s.acquire r).Backed q := by
  refine h.imp_right fun hq => ?_
  rcases eq_or_ne q r with rfl | hqr
  · rw [strong_acquire_self]
    omega
  · rwa [strong_acquire_of_ne hqr]

/-- A further reference is counted. -/
theorem Living.acquire_of_backed (h : Living s moving gone registered) (hr : s.Backed r) :
    Living (s.acquire r) (r :: moving) gone registered := by
  by_cases hparameter : r.IsParameter
  · refine ((agree_acquire hparameter).living h).congr fun q hq => ?_
    exact (List.count_cons_of_ne (ne_of_isParameter hparameter hq).symm).symm
  · have hstrong := hr.resolve_left hparameter
    refine Living.acquire ?_ (h.made r hparameter hstrong) (fun id hid => ?_)
      fun id _ hzero => absurd hzero hstrong
    · rwa [if_neg hstrong]
    · exact h.known id (hid ▸ hstrong)

/-- Further references are counted one after the other. -/
theorem Living.foldl_acquire {held : List Resource} (h : Living s moving gone registered)
    (hheld : ∀ r ∈ held, s.Backed r) :
    Living (held.foldl Session.acquire s) (held ++ moving) gone registered := by
  induction held generalizing s moving with
  | nil => exact h
  | cons r held ih =>
    have hrest := ih (h.acquire_of_backed (hheld r List.mem_cons_self)) fun q hq =>
      (hheld q (List.mem_cons_of_mem r hq)).acquire r
    exact hrest.congr fun q _ => List.perm_middle.count_eq q

/-! ## The table of handles -/

/-- What the handles hold is what one of them holds and what the others do. -/
theorem Sound.count_handles (h : Sound s moving) (name : String) (r : Resource) :
    (s.handles.flatMap (heldBy ·.2)).count r =
      ((s.find? name).elim [] heldBy).count r +
        ((s.handles.filter (·.1 != name)).flatMap (heldBy ·.2)).count r := by
  have hsplit := perm_filter_of_lookup h.names (k := name) (p := fun _ => true)
    (q := (· != name)) rfl (bne_self_eq_false name) fun j hj => (bne_iff_ne.2 hj).symm
  rw [List.filter_true] at hsplit
  rw [(hsplit.flatMap_right (heldBy ·.2)).count_eq, List.flatMap_append, List.count_append, find?]
  cases s.handles.lookup name with
  | none => rfl
  | some entity => simp

/-- The table of handles is replaced. What is no longer held is on the way then. -/
theorem Living.withHandles (h : Living s moving gone registered)
    {handles : List (String × Entity)} (hnames : (handles.map (·.1)).Nodup)
    (hheld : ∀ r, (s.handles.flatMap (heldBy ·.2)).count r + moving.count r =
      (handles.flatMap (heldBy ·.2)).count r + moving'.count r) :
    Living { s with handles } moving' gone registered :=
  { h with
    strong := by
      intro r hr
      have hcount := h.strong r hr
      have hheld := hheld r
      simp only [references, List.count_append] at hcount ⊢
      omega
    names := hnames
    settled := fun id => (h.settled id).congr rfl rfl rfl }

/-- Something that is held already is given a handle. -/
theorem Living.put_of_held {name : String} {entity : Entity}
    (h : Living ((heldBy entity).foldl Session.acquire s) (heldBy entity) gone registered) :
    Living (s.put name entity) [] gone registered := by
  have hhandles : ((heldBy entity).foldl Session.acquire s).handles = s.handles :=
    foldl_induction (R := fun s t => t.handles = s.handles) (g := Session.acquire) (fun _ => rfl)
      (fun h h' => h'.trans h) (fun _ _ => rfl) (heldBy entity) s
  rw [put, find?, ← hhandles]
  -- The handle takes over what is on the way, and what it named before is on the way instead.
  generalize (heldBy entity).foldl Session.acquire s = s at h ⊢
  refine Living.foldl_release (Living.withHandles h ?_ fun r => ?_)
  · refine List.nodup_cons.2 ⟨fun hmem => ?_, (List.filter_sublist.map _).nodup h.names⟩
    obtain ⟨entry, hentry, hname⟩ := List.mem_map.1 hmem
    exact bne_iff_ne.1 (List.mem_filter.1 hentry).2 hname
  · have hcount := h.toSound.count_handles name r
    rw [find?] at hcount
    simp only [List.flatMap_cons, List.count_append, List.count_nil]
    omega

/-- Something is given a handle. -/
theorem Living.put {name : String} {entity : Entity} (h : Living s [] gone registered)
    (hentity : ∀ r ∈ heldBy entity, s.Backed r) : Living (s.put name entity) [] gone registered :=
  Living.put_of_held (by simpa only [List.append_nil] using h.foldl_acquire hentity)

/-- The handle that is given stands in the table. -/
theorem find?_put_self (s : Session) (name : String) (entity : Entity) :
    (s.put name entity).find? name = some entity := by
  have hhandles : (s.put name entity).handles =
      (name, entity) :: ((heldBy entity).foldl Session.acquire s).handles.filter (·.1 != name) :=
    foldl_release_induction (R := fun s t => t.handles = s.handles) (fun _ => rfl)
      (fun h h' => h'.trans h) (fun _ _ => rfl) (fun _ _ => rfl) _ _
  rw [find?, hhandles, List.lookup_cons_self]

/-- The tags given for a handle that is taken away are those of the callbacks that run then, after
those that have run before. -/
theorem ran_of_drop? {name : String} {tags : List String} (h : s.drop? name = some (tags, s')) :
    ∃ fired, s'.ran = s.ran ++ fired ∧ tags = fired.map (·.2) := by
  obtain ⟨entity, -, hafter⟩ := Option.map_eq_some_iff.1 h
  cases hafter
  have hran := foldl_release_induction (R := fun s t => s.ran <+: t.ran)
    (fun _ => List.prefix_rfl) List.IsPrefix.trans (fun _ _ => List.prefix_rfl)
    (fun _ _ => List.prefix_append _ _) (heldBy entity)
    { s with handles := s.handles.filter (·.1 != name) }
  obtain ⟨fired, hfired⟩ := hran
  refine ⟨fired, hfired.symm, ?_⟩
  rw [← hfired, List.drop_left]

/-- A handle is taken away. -/
theorem Living.drop {name : String} {tags : List String} (h : Living s [] gone registered)
    (hdrop : s.drop? name = some (tags, s')) : Living s' [] gone registered := by
  obtain ⟨entity, hentity, hafter⟩ := Option.map_eq_some_iff.1 hdrop
  cases hafter
  refine Living.foldl_release (Living.withHandles h ?_ fun r => ?_)
  · exact (List.filter_sublist.map _).nodup h.names
  · have hcount := h.toSound.count_handles name r
    rw [hentity] at hcount
    simp only [Option.elim_some, List.append_nil, List.count_nil] at hcount ⊢
    omega

/-! ## Tables of spaces and laws -/

/-- What has just been made need not be a space or laws. -/
theorem Living.next (h : Living s moving gone registered) :
    Living { s with made := s.made + 1 } moving gone registered :=
  { h with
    keys_lt := fun e he => Nat.lt_succ_of_lt (h.keys_lt e he)
    made := fun r hr hstrong => Nat.lt_succ_of_lt (h.made r hr hstrong)
    settled := fun id => (h.settled id).congr rfl rfl rfl
    fresh := fun id hid => h.fresh id (Nat.le_of_succ_le hid) }

/-- The table of spaces is replaced, and no space is lost. -/
theorem Living.withSpaces (h : Living s moving gone registered) {spaces : List (Nat × Space)}
    (hspaces : ∀ e ∈ spaces, e.2.id = e.1)
    (hknown : ∀ id, (s.spaceOfId? id).isSome → (spaces.lookup id).isSome) :
    Living { s with spaces } moving gone registered :=
  { h with
    spaces := hspaces
    known := fun id hstrong => hknown id (h.known id hstrong)
    settled := fun id => (h.settled id).congr rfl rfl rfl }

/-- There is no reference to laws that have not been made. -/
theorem Sound.strong_assignment_made (h : Sound s moving) : s.strong (.assignment s.made) = 0 := by
  by_contra hstrong
  exact Nat.lt_irrefl _ (h.made (.assignment s.made) not_false hstrong)

/-- Laws that have just been made are put into the table. -/
theorem Living.withAssignment (h : Living s moving gone registered) (a : OwnedAssignment) :
    Living { s with made := s.made + 1, assignments := (s.made, a) :: s.assignments } moving gone
      registered :=
  { h.next with
    strong := by
      intro r hr
      rw [references, List.filter_cons_of_neg (by simpa using h.toSound.strong_assignment_made)]
      exact h.strong r hr
    keys := by
      refine List.nodup_cons.2 ⟨fun hmem => ?_, h.keys⟩
      obtain ⟨e, he, hkey⟩ := List.mem_map.1 hmem
      exact Nat.ne_of_lt (h.keys_lt e he) hkey
    keys_lt := by
      rintro e he
      rcases List.mem_cons.1 he with rfl | he
      · exact Nat.lt_succ_self _
      · exact Nat.lt_succ_of_lt (h.keys_lt e he)
    settled := fun id => (h.settled id).congr rfl rfl rfl }

/-- The first reference to laws that have just been made is counted. That to their space is theirs
then. -/
theorem Living.acquire_made {a : OwnedAssignment}
    (h : Living s (.space a.owner.id :: moving) gone registered) :
    Living (Session.acquire
        { s with made := s.made + 1, assignments := (s.made, a) :: s.assignments }
        (.assignment s.made))
      (.assignment s.made :: moving) gone registered := by
  have hmade := h.withAssignment a
  refine Living.acquire ?_ (Nat.lt_succ_self _) ?_ ?_
  · simp only [h.toSound.strong_assignment_made, if_true, heldApart, assignmentOfId?,
      List.lookup_cons_self]
    exact hmade
  · intro id hassignment
    cases hassignment
  · intro id hassignment
    cases hassignment

/-! ## Making and changing -/

/-- Further references to parameters only concern these. -/
theorem agree_foldl_parameters (s : Session) (ids : List Nat) :
    Agree s (ids.foldl (fun s id => s.acquire (.parameter id)) s) :=
  agree_foldl (fun _ id => agree_acquire (r := .parameter id) trivial) ids

/-- A space is made. -/
theorem Living.newSpace {name : String} {d : Space.Description} {space : Space}
    (h : Living s [] gone registered) (hnew : s.newSpace name d = .ok (space, s')) :
    Living s' [] gone registered := by
  obtain ⟨_, hbuild, hput⟩ := bind_eq_ok.1 hnew
  cases hput
  have hid := (Space.build_eq_ok_iff.1 hbuild).id_eq
  -- The references to the parameters do not matter, so the new entry is the first change that does.
  have hagree := agree_foldl_parameters s (parametersOfSpace space)
  rw [← hagree.made] at hid
  have h := hagree.living h
  generalize (parametersOfSpace space).foldl (fun s id => s.acquire (.parameter id)) s = s
    at h hid ⊢
  have hspaces : ∀ e ∈ (space.id, space) :: s.spaces, e.2.id = e.1 := by
    rintro e he
    rcases List.mem_cons.1 he with rfl | he
    · rfl
    · exact h.spaces e he
  have hknown : ∀ id, (s.spaceOfId? id).isSome →
      (((space.id, space) :: s.spaces).lookup id).isSome := by
    intro id hid
    rw [List.lookup_cons]
    split
    · rfl
    · exact hid
  refine Living.put_of_held (Living.acquire ?_ ?_ ?_ ?_)
  · simpa only [heldApart, ite_self, List.nil_append] using h.next.withSpaces hspaces hknown
  · exact hid ▸ Nat.lt_succ_self _
  · intro id hspace
    cases hspace
    rw [spaceOfId?, List.lookup_cons_self]
    rfl
  · intro id hspace _
    cases hspace
    exact h.fresh space.id (Nat.le_of_eq hid.symm)

/-- Laws are made for a space that has an owner. -/
theorem Living.newAssignment {name : String} {owner : Frame} {a : OwnedAssignment}
    (h : Living s [] gone registered) (howner : s.strong (.space owner.id) ≠ 0)
    (hnew : s.newAssignment name owner = .ok (a, s')) : Living s' [] gone registered := by
  obtain ⟨_, hlaws, hput⟩ := bind_eq_ok.1 hnew
  cases hput
  obtain ⟨laws, _, hframe⟩ := bind_eq_ok.1 hlaws
  cases hframe
  exact Living.put_of_held (h.acquire_of_backed (.inr howner)).acquire_made

/-- A space is changed. -/
theorem Living.updateSpace (h : Living s [] gone registered) (space : Space) :
    Living (s.updateSpace space) [] gone registered := by
  have hagree := agree_foldl_parameters s (parametersOfSpace space)
  rw [Session.updateSpace]
  have h := hagree.living h
  generalize (parametersOfSpace space).foldl (fun s id => s.acquire (.parameter id)) s = s at h ⊢
  refine (agree_foldl agree_releaseParameter _).living (h.withSpaces ?_ fun id => ?_)
  · intro e he
    obtain ⟨⟨id, old⟩, hmem, rfl⟩ := List.mem_map.1 he
    dsimp only
    split
    · next hid => exact hid.symm
    · exact h.spaces _ hmem
  · intro hknown
    have hlookup := lookup_map_values (k := id) s.spaces fun id old =>
      if id = space.id then space else old
    refine (congrArg Option.isSome hlookup).trans ?_
    rw [Option.isSome_map]
    exact hknown

/-- A space that is changed keeps its references, and so do the other ones. -/
theorem strong_updateSpace (s : Session) (space : Space) (id : Nat) :
    (s.updateSpace space).strong (.space id) = s.strong (.space id) := by
  have hacquired := agree_foldl_parameters s (parametersOfSpace space)
  rw [Session.updateSpace, (agree_foldl agree_releaseParameter _).strong (.space id) not_false]
  exact hacquired.strong (.space id) not_false

/-- Laws kept apart from a space are changed. -/
theorem Living.updateAssignment {id : Nat} {a old : OwnedAssignment}
    (h : Living s [] gone registered) (hold : s.assignmentOfId? id = some old)
    (howner : a.owner.id = old.owner.id) : Living (s.updateAssignment id a) [] gone registered := by
  have hkeys : (s.updateAssignment id a).assignments.map (·.1) = s.assignments.map (·.1) := by
    rw [Session.updateAssignment, List.map_map]
    rfl
  have hreferences : (s.updateAssignment id a).references = s.references := by
    rw [references, references, Session.updateAssignment, List.filter_map, List.map_map]
    refine congrArg (s.handles.flatMap (heldBy ·.2) ++ ·) (List.map_congr_left fun e he => ?_)
    obtain ⟨k, b⟩ := e
    have hlookup := (lookup_eq_some_iff_mem h.keys).2 (List.mem_filter.1 he).1
    show Resource.space (if k = id then a else b).owner.id = .space b.owner.id
    split
    · next hk =>
      rw [hk] at hlookup
      rw [howner, Option.some.inj (hold.symm.trans hlookup)]
    · rfl
  exact
    { h with
      strong := by
        intro r hr
        rw [hreferences]
        exact h.strong r hr
      keys := hkeys ▸ h.keys
      keys_lt := by
        intro e he
        obtain ⟨e', he', hkey⟩ := List.mem_map.1 (hkeys ▸ List.mem_map_of_mem he)
        exact hkey ▸ h.keys_lt e' he'
      settled := fun id => (h.settled id).congr rfl rfl rfl }

/-- A callback is registered. -/
theorem Living.onDestroy (h : Living s [] gone registered) (hr : s.Backed r) (tag : String) :
    Living (s.onDestroy r tag) [] gone fun id =>
      registered id ++ if r = .space id then [tag] else [] :=
  { h with
    settled := by
      intro id
      have htags : (Resource.space id).tagsIn (s.onDestroy r tag).callbacks =
          (Resource.space id).tagsIn s.callbacks ++ if r = .space id then [tag] else [] := by
        rw [Session.onDestroy, tagsIn_append, tagsIn_singleton]
      refine ⟨fun hstrong => ?_, fun hzero => ?_⟩
      · obtain ⟨hgone, hran, hcallbacks⟩ := (h.settled id).alive hstrong
        exact ⟨hgone, hran, by rw [htags, hcallbacks]⟩
      · obtain ⟨hran, hcallbacks⟩ := (h.settled id).dead hzero
        have hne : r ≠ .space id := by
          rintro rfl
          exact hr.space hzero
        rw [htags, if_neg hne, hcallbacks, List.append_nil]
        exact ⟨hran, rfl⟩
    fresh := by
      intro id hid
      have hne : r ≠ .space id := by
        rintro rfl
        exact Nat.not_lt.2 hid (h.made (.space id) not_false hr.space)
      rw [if_neg hne, List.append_nil]
      exact h.fresh id hid }

end Session

end SearchSpace
