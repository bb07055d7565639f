import Mathlib.Data.Finset.Card
import Mathlib.Logic.Function.Basic

set_option autoImplicit false

namespace ReaderWriter

inductive Access where
  | reading
  | writing
  deriving DecidableEq, Repr

structure Counters where
  readers : Nat
  writer : Bool
  deriving DecidableEq, Repr

def Counters.idle : Counters := ⟨0, false⟩

variable {Key : Type} [DecidableEq Key]

abbrev Locks (Key : Type) := Key → Option Counters

abbrev Sections (Key : Type) := Nat → Option (Key × Access)

def change (locks : Locks Key) (key : Key) (update : Counters → Counters) : Locks Key :=
  Function.update locks key ((locks key).map update)

structure Backed (locks : Locks Key) (sections : Sections Key) : Prop where
  writer : ∀ key counters, locks key = some counters → counters.writer = true →
    ∃ id, sections id = some (key, .writing)
  readers : ∀ key counters, locks key = some counters → ∃ ids : Finset Nat,
    (∀ id, id ∈ ids ↔ sections id = some (key, .reading)) ∧ counters.readers ≤ ids.card

structure Accounted (locks : Locks Key) (sections : Sections Key) : Prop where
  known : ∀ id key access, sections id = some (key, access) → (locks key).isSome
  writer : ∀ id key counters, sections id = some (key, .writing) → locks key = some counters →
    counters.writer = true ∧ counters.readers = 0
  single : ∀ first second key, sections first = some (key, .writing) → sections second = some (key, .writing) →
    first = second
  readers : ∀ key counters, locks key = some counters → ∃ ids : Finset Nat,
    (∀ id, id ∈ ids ↔ sections id = some (key, .reading)) ∧ counters.readers = ids.card

variable {locks : Locks Key} {sections : Sections Key}

omit [DecidableEq Key] in
theorem Accounted.apart (accounted : Accounted locks sections) (first second : Nat) (different : first ≠ second)
    (key : Key) (mine yours : Access) (here : sections first = some (key, mine))
    (there : sections second = some (key, yours)) : mine = .reading ∧ yours = .reading := by
  obtain ⟨counters, found⟩ := Option.isSome_iff_exists.mp (accounted.known first key mine here)
  obtain ⟨ids, reads, count⟩ := accounted.readers key counters found
  have crowded (id : Nat) (reading : sections id = some (key, .reading)) (writing : counters.readers = 0) : False := by
    rw [count, Finset.card_eq_zero] at writing
    have member := (reads id).mpr reading
    rw [writing] at member
    cases member
  cases mine with
  | reading =>
    cases yours with
    | reading => exact ⟨rfl, rfl⟩
    | writing => exact (crowded first here (accounted.writer second key counters there found).2).elim
  | writing =>
    have empty := (accounted.writer first key counters here found).2
    cases yours with
    | reading => exact (crowded second there empty).elim
    | writing => exact absurd (accounted.single first second key here there) different

def moveTo (sections : Sections Key) (id : Nat) (key : Key) (after : Option Access) : Sections Key :=
  Function.update sections id (after.map fun access => (key, access))

omit [DecidableEq Key] in
theorem moveTo_other {sections : Sections Key} {id : Nat} {key other : Key} (after : Option Access)
    (mine : ∀ key' access, sections id = some (key', access) → key' = key) (different : other ≠ key) (member : Nat)
    (access : Access) : moveTo sections id key after member = some (other, access) ↔
      sections member = some (other, access) := by
  by_cases same : member = id
  · subst same
    rw [moveTo, Function.update_self]
    refine iff_of_false ?_ fun here => different (mine _ _ here)
    rintro here
    obtain ⟨_, -, equal⟩ := Option.map_eq_some_iff.mp here
    exact different (Prod.mk.inj equal).1.symm
  · rw [moveTo, Function.update_of_ne same]

omit [DecidableEq Key] in
theorem moveTo_readers {sections : Sections Key} {id : Nat} {key : Key} (after : Option Access) {ids : Finset Nat}
    (reads : ∀ id, id ∈ ids ↔ sections id = some (key, .reading)) (member : Nat) :
    member ∈ (if after = some .reading then insert id ids else ids.erase id) ↔
      moveTo sections id key after member = some (key, .reading) := by
  by_cases same : member = id
  · subst same
    rw [moveTo, Function.update_self]
    cases after with
    | none => simp
    | some access => cases access <;> simp
  · rw [moveTo, Function.update_of_ne same, ← reads]
    split_ifs <;> simp [same]

section Turns

variable {id : Nat} {key : Key} (mine : ∀ other access, sections id = some (other, access) → other = key)

include mine

theorem Backed.turn (backed : Backed locks sections) (after : Option Access) (update : Counters → Counters)
    (writer : ∀ counters, locks key = some counters → (update counters).writer = true →
      ∃ member, moveTo sections id key after member = some (key, .writing))
    (readers : ∀ counters (ids : Finset Nat), locks key = some counters →
      (∀ id, id ∈ ids ↔ sections id = some (key, .reading)) → counters.readers ≤ ids.card →
      (update counters).readers ≤ (if after = some .reading then insert id ids else ids.erase id).card) :
    Backed (change locks key update) (moveTo sections id key after) where
  writer := by
    intro other counters found
    by_cases same : other = key
    · subst same
      rw [change, Function.update_self, Option.map_eq_some_iff] at found
      obtain ⟨before, found, rfl⟩ := found
      exact writer before found
    · rw [change, Function.update_of_ne same] at found
      intro taken
      obtain ⟨member, inside⟩ := backed.writer other counters found taken
      exact ⟨member, (moveTo_other after mine same member .writing).mpr inside⟩
  readers := by
    intro other counters found
    by_cases same : other = key
    · subst same
      rw [change, Function.update_self, Option.map_eq_some_iff] at found
      obtain ⟨before, found, rfl⟩ := found
      obtain ⟨ids, reads, count⟩ := backed.readers other before found
      exact ⟨_, moveTo_readers after reads, readers before ids found reads count⟩
    · rw [change, Function.update_of_ne same] at found
      obtain ⟨ids, reads, count⟩ := backed.readers other counters found
      exact ⟨ids, fun member => (reads member).trans
        (moveTo_other after mine same member .reading).symm, count⟩

theorem Accounted.turn (accounted : Accounted locks sections) (after : Option Access) (update : Counters → Counters)
    (known : (locks key).isSome)
    (writer : ∀ member counters, moveTo sections id key after member = some (key, .writing) →
      locks key = some counters → (update counters).writer = true ∧ (update counters).readers = 0)
    (single : ∀ first second, moveTo sections id key after first = some (key, .writing) →
      moveTo sections id key after second = some (key, .writing) → first = second)
    (readers : ∀ counters (ids : Finset Nat), locks key = some counters →
      (∀ id, id ∈ ids ↔ sections id = some (key, .reading)) → counters.readers = ids.card →
      (update counters).readers = (if after = some .reading then insert id ids else ids.erase id).card) :
    Accounted (change locks key update) (moveTo sections id key after) where
  known := by
    intro member other access inside
    by_cases same : other = key
    · rw [same, change, Function.update_self, Option.isSome_map]
      exact known
    · rw [change, Function.update_of_ne same]
      exact accounted.known member other access
        ((moveTo_other after mine same member access).mp inside)
  writer := by
    intro member other counters inside found
    by_cases same : other = key
    · subst same
      rw [change, Function.update_self, Option.map_eq_some_iff] at found
      obtain ⟨before, found, rfl⟩ := found
      exact writer member before inside found
    · rw [change, Function.update_of_ne same] at found
      exact accounted.writer member other counters
        ((moveTo_other after mine same member .writing).mp inside) found
  single := by
    intro first second other here there
    by_cases same : other = key
    · subst same
      exact single first second here there
    · rw [moveTo_other after mine same] at here there
      exact accounted.single first second other here there
  readers := by
    intro other counters found
    by_cases same : other = key
    · subst same
      rw [change, Function.update_self, Option.map_eq_some_iff] at found
      obtain ⟨before, found, rfl⟩ := found
      obtain ⟨ids, reads, count⟩ := accounted.readers other before found
      exact ⟨_, moveTo_readers after reads, readers before ids found reads count⟩
    · rw [change, Function.update_of_ne same] at found
      obtain ⟨ids, reads, count⟩ := accounted.readers other counters found
      exact ⟨ids, fun member => (reads member).trans
        (moveTo_other after mine same member .reading).symm, count⟩

end Turns

section Entering

variable {id : Nat} {key : Key} (outside : sections id = none)

include outside

theorem Backed.enterWrite (backed : Backed locks sections) (free : ∀ counters, locks key = some counters →
    counters.readers = 0) : Backed (change locks key fun counters => { counters with writer := true })
      (moveTo sections id key (some .writing)) := by
  refine backed.turn (by simp [outside]) _ _ (fun _ _ _ => ⟨id, Function.update_self ..⟩) ?_
  intro counters ids found _ _
  simp [free counters found]

theorem Backed.enterRead (backed : Backed locks sections) (free : ∀ counters, locks key = some counters →
    counters.writer = false) : Backed (change locks key fun counters => { counters with readers := counters.readers + 1 })
      (moveTo sections id key (some .reading)) := by
  refine backed.turn (by simp [outside]) _ _ (fun counters found taken => ?_) ?_
  · rw [free counters found] at taken
    cases taken
  · intro counters ids found reads count
    have absent : id ∉ ids := by simp [reads, outside]
    simpa [Finset.card_insert_of_notMem absent] using count

theorem Accounted.enterWrite (accounted : Accounted locks sections) (free : locks key = some .idle) :
    Accounted (change locks key fun counters => { counters with writer := true })
      (moveTo sections id key (some .writing)) := by
  have only (member : Nat) (inside : moveTo sections id key (some .writing) member = some (key, .writing)) :
      member = id := by
    by_contra different
    rw [moveTo, Function.update_of_ne different] at inside
    cases (accounted.writer member key .idle inside free).1
  refine accounted.turn (by simp [outside]) _ _ (by simp [free]) ?_ ?_ ?_
  · intro member counters _ found
    rw [← Option.some.inj (free.symm.trans found)]
    exact ⟨rfl, rfl⟩
  · intro first second here there
    rw [only first here, only second there]
  · intro counters ids found reads count
    have absent : id ∉ ids := by simp [reads, outside]
    simpa [Finset.erase_eq_of_notMem absent] using count

theorem Accounted.enterRead (accounted : Accounted locks sections) (counters : Counters)
    (found : locks key = some counters) (free : counters.writer = false) :
    Accounted (change locks key fun counters => { counters with readers := counters.readers + 1 })
      (moveTo sections id key (some .reading)) := by
  have nobody (member : Nat) (inside : moveTo sections id key (some .reading) member = some (key, .writing)) : False := by
    by_cases same : member = id
    · subst same
      simp [moveTo] at inside
    · rw [moveTo, Function.update_of_ne same] at inside
      have taken := (accounted.writer member key counters inside found).1
      rw [free] at taken
      cases taken
  refine accounted.turn (by simp [outside]) _ _ (by simp [found]) (fun member _ inside => (nobody member inside).elim)
    (fun first _ inside => (nobody first inside).elim) ?_
  intro other ids same reads count
  have absent : id ∉ ids := by simp [reads, outside]
  simpa [Finset.card_insert_of_notMem absent] using count

end Entering

omit [DecidableEq Key] in
theorem moveTo_outside {id : Nat} (key : Key) (outside : sections id = none) : moveTo sections id key none = sections := by
  rw [moveTo, Option.map_none, ← outside, Function.update_eq_self]

section Leaving

variable (id : Nat) (key : Key)

theorem Backed.leaveWrite (backed : Backed locks sections)
    (mine : ∀ other access, sections id = some (other, access) → other = key ∧ access = .writing) :
    Backed (change locks key fun counters => { counters with writer := false }) (moveTo sections id key none) := by
  refine backed.turn (fun other access inside => (mine other access inside).1) _ _ (fun _ _ taken => ?_) ?_
  · cases taken
  · intro counters ids found reads count
    have absent : id ∉ ids := fun member => by cases (mine _ _ ((reads id).mp member)).2
    simpa [Finset.erase_eq_of_notMem absent] using count

theorem Backed.leaveRead (backed : Backed locks sections)
    (mine : ∀ other access, sections id = some (other, access) → other = key ∧ access = .reading) :
    Backed (change locks key fun counters => { counters with readers := counters.readers - 1 })
      (moveTo sections id key none) := by
  refine backed.turn (fun other access inside => (mine other access inside).1) _ _ (fun counters found taken => ?_) ?_
  · obtain ⟨member, writes⟩ := backed.writer key counters found taken
    refine ⟨member, ?_⟩
    rw [moveTo, Function.update_of_ne, writes]
    rintro rfl
    cases (mine _ _ writes).2
  · intro counters ids found reads count
    have fewer : ids.card - 1 ≤ (ids.erase id).card := Finset.pred_card_le_card_erase
    simp only [reduceCtorEq, if_false]
    omega

theorem Accounted.leave (accounted : Accounted locks sections) {access : Access} (inside : sections id = some (key, access))
    (alone : ∀ member, member ≠ id → sections member ≠ some (key, .writing)) (update : Counters → Counters)
    (count : ∀ counters (ids : Finset Nat), locks key = some counters →
      (∀ id, id ∈ ids ↔ sections id = some (key, .reading)) → counters.readers = ids.card →
      (update counters).readers = (ids.erase id).card) :
    Accounted (change locks key update) (moveTo sections id key none) := by
  have nobody (member : Nat) (writes : moveTo sections id key none member = some (key, .writing)) : False := by
    by_cases same : member = id
    · subst same
      simp [moveTo] at writes
    · rw [moveTo, Function.update_of_ne same] at writes
      exact alone member same writes
  refine accounted.turn ?_ _ _ (accounted.known id key _ inside) (fun member _ writes => (nobody member writes).elim)
    (fun first _ writes => (nobody first writes).elim) ?_
  · intro other access here
    rw [inside, Option.some.injEq, Prod.mk.injEq] at here
    exact here.1.symm
  · simpa using count

theorem Accounted.leaveWrite (accounted : Accounted locks sections) (inside : sections id = some (key, .writing)) :
    Accounted (change locks key fun counters => { counters with writer := false }) (moveTo sections id key none) := by
  refine accounted.leave id key inside (fun member different writes => ?_) _ fun counters ids found reads count => ?_
  · exact different (accounted.single member id key writes inside)
  · have absent : id ∉ ids := by simp [reads, inside]
    simpa [Finset.erase_eq_of_notMem absent] using count

theorem Accounted.leaveRead (accounted : Accounted locks sections) (inside : sections id = some (key, .reading)) :
    Accounted (change locks key fun counters => { counters with readers := counters.readers - 1 })
      (moveTo sections id key none) := by
  refine accounted.leave id key inside (fun member different writes => ?_) _ fun counters ids found reads count => ?_
  · cases (accounted.apart member id different key .writing .reading writes inside).1
  · have present : id ∈ ids := (reads id).mpr inside
    simp [Finset.card_erase_of_mem present, count]

end Leaving

theorem Accounted.spare (accounted : Accounted locks sections) {key : Key}
    (nobody : ∀ id access, sections id ≠ some (key, access)) {update : Counters → Counters}
    (kept : ∀ counters, counters.readers = 0 → (update counters).readers = 0) :
    Accounted (change locks key update) sections where
  known := by
    intro id other access inside
    have same : other ≠ key := fun same => nobody id access (same ▸ inside)
    rw [change, Function.update_of_ne same]
    exact accounted.known id other access inside
  writer := by
    intro id other counters inside found
    have same : other ≠ key := fun same => nobody id .writing (same ▸ inside)
    rw [change, Function.update_of_ne same] at found
    exact accounted.writer id other counters inside found
  single := accounted.single
  readers := by
    intro other counters found
    by_cases same : other = key
    · subst same
      rw [change, Function.update_self, Option.map_eq_some_iff] at found
      obtain ⟨before, found, rfl⟩ := found
      obtain ⟨ids, reads, count⟩ := accounted.readers other before found
      have empty : ids = ∅ := Finset.eq_empty_of_forall_notMem fun id member => nobody id _ ((reads id).mp member)
      refine ⟨ids, reads, ?_⟩
      rw [empty] at count ⊢
      exact kept before count
    · rw [change, Function.update_of_ne same] at found
      exact accounted.readers other counters found

theorem Backed.fresh (backed : Backed locks sections) (key : Key) (nobody : ∀ id access, sections id ≠ some (key, access)) :
    Backed (Function.update locks key (some .idle)) sections where
  writer := by
    intro other counters found taken
    by_cases same : other = key
    · rw [same, Function.update_self, Option.some.injEq] at found
      rw [← found] at taken
      cases taken
    · rw [Function.update_of_ne same] at found
      exact backed.writer other counters found taken
  readers := by
    intro other counters found
    by_cases same : other = key
    · rw [same, Function.update_self, Option.some.injEq] at found
      exact ⟨∅, fun id => iff_of_false (by simp) (same ▸ nobody id _), by simp [← found, Counters.idle]⟩
    · rw [Function.update_of_ne same] at found
      exact backed.readers other counters found

theorem Accounted.fresh (accounted : Accounted locks sections) (key : Key) (absent : locks key = none) :
    Accounted (Function.update locks key (some .idle)) sections := by
  have nobody (id : Nat) (access : Access) : sections id ≠ some (key, access) := by
    intro inside
    have known := accounted.known id key access inside
    rw [absent] at known
    cases known
  have elsewhere (id : Nat) (other : Key) (access : Access) (inside : sections id = some (other, access)) :
      Function.update locks key (some .idle) other = locks other := by
    refine Function.update_of_ne ?_ ..
    rintro rfl
    exact nobody id access inside
  refine ⟨?_, ?_, accounted.single, ?_⟩
  · intro id other access inside
    rw [elsewhere id other access inside]
    exact accounted.known id other access inside
  · intro id other counters inside found
    rw [elsewhere id other _ inside] at found
    exact accounted.writer id other counters inside found
  · intro other counters found
    by_cases same : other = key
    · rw [same, Function.update_self, Option.some.injEq] at found
      exact ⟨∅, fun id => iff_of_false (by simp) (same ▸ nobody id _), by simp [← found, Counters.idle]⟩
    · rw [Function.update_of_ne same] at found
      exact accounted.readers other counters found

inductive Step (locks : Locks Key) (sections : Sections Key) (id : Nat) :
    Option Key → Locks Key → Sections Key → Prop where
  | stay : Step locks sections id none locks sections
  | fresh (key : Key) (absent : locks key = none) (nobody : ∀ id access, sections id ≠ some (key, access)) :
      Step locks sections id none (Function.update locks key (some .idle)) sections
  | enterWrite (key : Key) (outside : sections id = none) (free : locks key = some .idle) :
      Step locks sections id none (change locks key fun counters => { counters with writer := true })
        (moveTo sections id key (some .writing))
  | enterRead (key : Key) (counters : Counters) (outside : sections id = none) (found : locks key = some counters)
      (free : counters.writer = false) :
      Step locks sections id none (change locks key fun counters => { counters with readers := counters.readers + 1 })
        (moveTo sections id key (some .reading))
  | leaveWrite (key : Key) (inside : sections id = some (key, .writing)) :
      Step locks sections id none (change locks key fun counters => { counters with writer := false })
        (moveTo sections id key none)
  | leaveRead (key : Key) (inside : sections id = some (key, .reading)) :
      Step locks sections id none (change locks key fun counters => { counters with readers := counters.readers - 1 })
        (moveTo sections id key none)
  | freeWrite (key : Key) (outside : sections id = none) :
      Step locks sections id (some key) (change locks key fun counters => { counters with writer := false }) sections
  | freeRead (key : Key) (outside : sections id = none) :
      Step locks sections id (some key) (change locks key fun counters => { counters with readers := counters.readers - 1 })
        sections

variable {locks' : Locks Key} {sections' : Sections Key} {id : Nat} {intruded : Option Key}

theorem Step.of_eq {locks₁ : Locks Key} {sections₁ : Sections Key}
    (step : Step locks sections id intruded locks₁ sections₁) (sameLocks : locks' = locks₁)
    (sameSections : sections' = sections₁) : Step locks sections id intruded locks' sections' := by
  rw [sameLocks, sameSections]
  exact step

theorem change_isSome (locks : Locks Key) (key other : Key) (update : Counters → Counters) :
    (change locks key update other).isSome = (locks other).isSome := by
  by_cases same : other = key
  · subst same
    simp [change]
  · rw [change, Function.update_of_ne same]

theorem Step.kept (step : Step locks sections id intruded locks' sections') (key : Key)
    (present : (locks key).isSome) : (locks' key).isSome := by
  cases step with
  | stay => exact present
  | fresh new absent nobody =>
    by_cases same : key = new
    · rw [same, Function.update_self, Option.isSome_some]
    · rwa [Function.update_of_ne same]
  | enterWrite | enterRead | leaveWrite | leaveRead | freeWrite | freeRead => rwa [change_isSome]

theorem Backed.step (backed : Backed locks sections) (step : Step locks sections id intruded locks' sections') :
    Backed locks' sections' := by
  cases step with
  | stay => exact backed
  | fresh key absent nobody => exact backed.fresh key nobody
  | enterWrite key outside free =>
    refine backed.enterWrite outside fun counters found => ?_
    rw [← Option.some.inj (free.symm.trans found)]
    rfl
  | enterRead key counters outside found free =>
    refine backed.enterRead outside fun other same => ?_
    rw [← Option.some.inj (found.symm.trans same), free]
  | leaveWrite key inside =>
    refine backed.leaveWrite id key fun other access here => ?_
    rw [inside] at here
    cases here
    exact ⟨rfl, rfl⟩
  | leaveRead key inside =>
    refine backed.leaveRead id key fun other access here => ?_
    rw [inside] at here
    cases here
    exact ⟨rfl, rfl⟩
  | freeWrite key outside =>
    have freed := backed.leaveWrite id key (by simp [outside])
    rwa [moveTo_outside key outside] at freed
  | freeRead key outside =>
    have freed := backed.leaveRead id key (by simp [outside])
    rwa [moveTo_outside key outside] at freed

theorem Accounted.step (accounted : Accounted locks sections) (step : Step locks sections id intruded locks' sections')
    (careful : ∀ key, intruded = some key → ∀ member access, sections member ≠ some (key, access)) :
    Accounted locks' sections' := by
  cases step with
  | stay => exact accounted
  | fresh key absent nobody => exact accounted.fresh key absent
  | enterWrite key outside free => exact accounted.enterWrite outside free
  | enterRead key counters outside found free => exact accounted.enterRead outside counters found free
  | leaveWrite key inside => exact accounted.leaveWrite id key inside
  | leaveRead key inside => exact accounted.leaveRead id key inside
  | freeWrite key outside => exact accounted.spare (careful key rfl) fun _ empty => empty
  | freeRead key outside =>
    refine accounted.spare (careful key rfl) fun counters empty => ?_
    rw [empty]

end ReaderWriter
