import Ikkat.Snapshot

set_option autoImplicit false

namespace Ikkat

variable {key : String}

-- A goroutine that sends one marker: on its way, back from the peer, with the state it found in the slot of
-- the server, and through with ReceiveMarkerAck.
inductive MarkerStage where
  | sending
  | attempted
  | looked (target : Nat)
  | finished
  deriving DecidableEq, Repr

structure Marker where
  peer : String
  stage : MarkerStage
  deriving DecidableEq, Repr

inductive InitiationPhase where
  | recorded
  | launched
  | waiting
  | leaving
  | returned
  | failed
  deriving DecidableEq, Repr

-- One call of InitiateSnapshot with its SnapshotState and its goroutines, one for each key of s.servers that
-- it has found alive; `done` is the channel of capacity one.
structure Initiation where
  phase : InitiationPhase
  pendingAck : Map String Bool
  done : Bool
  signalled : Bool
  markers : Map String Marker

structure Coordinator where
  server : Server
  snapshot : Option Nat
  calls : Map Nat Initiation

inductive SnapshotAction where
  | server (next : Server)
  | initiate (call : Nat)
  | persist (call : Nat) (ok : Bool)
  | wait (call : Nat)
  | attempt (call : Nat) (key : String)
  | look (call : Nat) (key : String)
  | ack (call : Nat) (key : String)
  | receive (call : Nat)
  | timeout (call : Nat)
  | clear (call : Nat)

def gather {β : Type} (peers : List (String × ServerInfo)) (value : ServerInfo → β) : Map String β :=
  peers.foldl (fun found item => found.insert item.1 (value item.2)) ∅

namespace Initiation

def start (peers : List (String × ServerInfo)) : Initiation where
  phase := .recorded
  pendingAck := gather peers fun _ => false
  done := false
  signalled := false
  markers := gather peers fun info => ⟨info.id, .sending⟩

def setStage (init : Initiation) (key : String) (marker : Marker) (stage : MarkerStage) : Initiation :=
  { init with markers := init.markers.insert key { marker with stage := stage } }

def ack (init : Initiation) (peer : String) : Initiation :=
  let pendingAck := init.pendingAck.insert peer true
  { init with pendingAck := pendingAck, done := init.done || pendingAck.entries.all fun item => item.2 }

def marker (init : Initiation) (key : String) : Option Marker :=
  if init.phase = .recorded ∨ init.phase = .failed then none else init.markers.lookup key

def Busy (init : Initiation) : Prop :=
  init.phase ≠ .failed ∧ (init.phase = .returned → ∃ key marker, init.markers.lookup key = some marker ∧ marker.stage ≠ .finished)

end Initiation

namespace Coordinator

def start (s : Server) : Coordinator := ⟨s, none, ∅⟩

def setCall (c : Coordinator) (call : Nat) (init : Initiation) : Coordinator :=
  { c with calls := c.calls.insert call init }

def step (c : Coordinator) : SnapshotAction → Option Coordinator
  | .server next => some { c with server := next }
  | .initiate call =>
      if c.server.role = .primary ∧ (c.calls.lookup call).isNone then
        some { c.setCall call (.start c.server.alivePeers) with snapshot := some call }
      else none
  | .persist call ok => do
      let init ← c.calls.lookup call
      if init.phase = .recorded then
        some (c.setCall call { init with phase := if ok then .launched else .failed })
      else none
  | .wait call => do
      let init ← c.calls.lookup call
      if init.phase = .launched then
        some (c.setCall call { init with phase := if init.pendingAck.entries = [] then .leaving else .waiting })
      else none
  | .attempt call key => do
      let init ← c.calls.lookup call
      let marker ← init.marker key
      if marker.stage = .sending then some (c.setCall call (init.setStage key marker .attempted)) else none
  | .look call key => do
      let init ← c.calls.lookup call
      let marker ← init.marker key
      if marker.stage = .attempted then
        let found := match c.snapshot with
          | none => MarkerStage.finished
          | some target => .looked target
        some (c.setCall call (init.setStage key marker found))
      else none
  | .ack call key => do
      let init ← c.calls.lookup call
      let marker ← init.marker key
      match marker.stage with
      | .looked target =>
          let c := c.setCall call (init.setStage key marker .finished)
          let snap ← c.calls.lookup target
          some (c.setCall target (snap.ack marker.peer))
      | _ => none
  | .receive call => do
      let init ← c.calls.lookup call
      if init.phase = .waiting ∧ init.done then
        some (c.setCall call { init with phase := .leaving, done := false, signalled := true })
      else none
  | .timeout call => do
      let init ← c.calls.lookup call
      if init.phase = .waiting then some (c.setCall call { init with phase := .leaving }) else none
  | .clear call => do
      let init ← c.calls.lookup call
      if init.phase = .leaving then some { c.setCall call { init with phase := .returned } with snapshot := none }
      else none

structure OwnAcks (c : Coordinator) : Prop where
  signalled : ∀ call init, c.calls.lookup call = some init → init.signalled = true →
    ∀ key marker, init.markers.lookup key = some marker → marker.stage ≠ .sending
  complete : ∀ call init, c.calls.lookup call = some init → init.phase = .waiting →
    (∀ key marker, init.markers.lookup key = some marker → marker.stage = .finished) → init.done = true

end Coordinator

namespace Initiation

def Finished (init : Initiation) : Prop := ∀ key marker, init.markers.lookup key = some marker → marker.stage = .finished

structure Sound (init : Initiation) (call : Nat) : Prop where
  named : ∀ key marker, init.markers.lookup key = some marker → marker.peer = key
  keys : ∀ key, (init.pendingAck.lookup key).isSome = (init.markers.lookup key).isSome
  target : ∀ key marker target, init.markers.lookup key = some marker → marker.stage = .looked target → target = call
  acked : ∀ key marker, init.markers.lookup key = some marker → init.pendingAck.lookup key = some true →
    marker.stage = .finished
  counted : init.phase ≠ .returned → ∀ key marker, init.markers.lookup key = some marker → marker.stage = .finished →
    init.pendingAck.lookup key = some true
  unsent : init.phase = .recorded → ∀ key marker, init.markers.lookup key = some marker → marker.stage = .sending
  done : init.done = true → init.Finished
  waits : init.phase = .waiting → init.markers.entries ≠ []
  complete : init.phase = .launched ∨ init.phase = .waiting → init.markers.entries ≠ [] → init.Finished → init.done = true
  signalled : init.signalled = true → init.Finished

section Keeps

variable {init : Initiation} {call : Nat}

theorem lookup_setStage (key : String) (marker : Marker) (stage : MarkerStage) (other : String) :
    (init.setStage key marker stage).markers.lookup other =
      if other = key then some { marker with stage := stage } else init.markers.lookup other := by
  unfold setStage
  split_ifs with same
  · rw [same, AList.lookup_insert]
  · rw [AList.lookup_insert_ne same]

theorem Sound.advance (sound : init.Sound call) (key : String) (marker : Marker) (stage : MarkerStage)
    (present : init.markers.lookup key = some marker) (launched : init.phase ≠ .recorded)
    (unfinished : marker.stage ≠ .finished) (target : ∀ other, stage = .looked other → other = call)
    (ends : stage = .finished → init.phase = .returned) : (init.setStage key marker stage).Sound call := by
  have unacked : init.pendingAck.lookup key ≠ some true := fun acked => unfinished (sound.acked key marker present acked)
  have busy : ¬init.Finished := fun finished => unfinished (finished key marker present)
  have still (open_ : init.phase ≠ .returned) : ¬(init.setStage key marker stage).Finished := by
    intro finished
    have here := finished key { marker with stage := stage } (by rw [lookup_setStage, if_pos rfl])
    exact open_ (ends here)
  constructor
  case named =>
    intro other found there
    rw [lookup_setStage] at there
    split_ifs at there with same
    · cases there
      rw [same]
      exact sound.named key marker present
    · exact sound.named other found there
  case keys =>
    intro other
    rw [lookup_setStage]
    split_ifs with same
    · rw [same]
      refine (sound.keys key).trans ?_
      rw [present]
      rfl
    · exact sound.keys other
  case target =>
    intro other found aim there looked
    rw [lookup_setStage] at there
    split_ifs at there
    · cases there
      exact target aim looked
    · exact sound.target other found aim there looked
  case acked =>
    intro other found there acked
    rw [lookup_setStage] at there
    split_ifs at there with same
    · rw [same] at acked
      exact absurd acked unacked
    · exact sound.acked other found there acked
  case counted =>
    intro open_ other found there ended
    rw [lookup_setStage] at there
    split_ifs at there with same
    · cases there
      exact absurd (ends ended) open_
    · exact sound.counted open_ other found there ended
  case unsent => exact fun recorded => absurd recorded launched
  case done => exact fun done => absurd (sound.done done) busy
  case waits =>
    intro waiting
    have listed := AList.mem_lookup_iff.mp (@lookup_setStage init key marker stage key ▸ if_pos rfl)
    exact List.ne_nil_of_mem listed
  case complete =>
    rintro phase - finished
    refine absurd finished (still ?_)
    rintro returned
    rw [setStage] at phase
    rcases phase with phase | phase <;> rw [returned] at phase <;> cases phase
  case signalled => exact fun signalled => absurd (sound.signalled signalled) busy

theorem all_acked (pendingAck : Map String Bool) :
    (pendingAck.entries.all fun item => item.2) = true ↔ ∀ key acked, pendingAck.lookup key = some acked → acked = true := by
  rw [List.all_eq_true]
  constructor
  · exact fun all key acked found => all ⟨key, acked⟩ (AList.mem_lookup_iff.mp found)
  · exact fun all item listed => all item.1 item.2 (AList.mem_lookup_iff.mpr listed)

theorem Sound.acknowledge (sound : init.Sound call) {marker : Marker}
    (present : init.markers.lookup key = some marker) (launched : init.phase ≠ .recorded)
    (unfinished : marker.stage ≠ .finished) : ((init.setStage key marker .finished).ack marker.peer).Sound call := by
  have peer := sound.named key marker present
  have find (other : String) : ((init.setStage key marker .finished).ack marker.peer).markers.lookup other = _ :=
    @lookup_setStage init key marker .finished other
  have pending (other : String) : ((init.setStage key marker .finished).ack marker.peer).pendingAck.lookup other =
      if other = key then some true else init.pendingAck.lookup other := by
    change (init.pendingAck.insert marker.peer true).lookup other = _
    rw [peer]
    split_ifs with same
    · rw [same, AList.lookup_insert]
    · rw [AList.lookup_insert_ne same]
  have busy : ¬init.Finished := fun finished => unfinished (finished key marker present)
  have idle : init.done = false := Bool.eq_false_iff.mpr fun done => busy (sound.done done)
  have acked : ∀ other found, ((init.setStage key marker .finished).ack marker.peer).markers.lookup other = some found →
      ((init.setStage key marker .finished).ack marker.peer).pendingAck.lookup other = some true →
        found.stage = .finished := by
    intro other found there acked
    rw [find] at there
    rw [pending] at acked
    split_ifs at there acked
    · cases there
      rfl
    · exact sound.acked other found there acked
  have counted (open_ : init.phase ≠ .returned) : ∀ other found,
      ((init.setStage key marker .finished).ack marker.peer).markers.lookup other = some found →
      found.stage = .finished →
        ((init.setStage key marker .finished).ack marker.peer).pendingAck.lookup other = some true := by
    intro other found there ended
    rw [find] at there
    rw [pending]
    split_ifs at there ⊢
    · rfl
    · exact sound.counted open_ other found there ended
  have keys : ∀ other, (((init.setStage key marker .finished).ack marker.peer).pendingAck.lookup other).isSome =
      (((init.setStage key marker .finished).ack marker.peer).markers.lookup other).isSome := by
    intro other
    rw [pending, find]
    split_ifs
    · rfl
    · exact sound.keys other
  have done : ((init.setStage key marker .finished).ack marker.peer).done = true ↔ ∀ other acked,
      ((init.setStage key marker .finished).ack marker.peer).pendingAck.lookup other = some acked → acked = true := by
    change (init.done || _) = true ↔ _
    rw [idle]
    exact all_acked _
  refine ⟨?_, keys, ?_, acked, counted, fun recorded => absurd recorded launched, ?_, ?_, ?_, ?_⟩
  · intro other found there
    rw [find] at there
    split_ifs at there with same
    · cases there
      rw [same]
      exact peer
    · exact sound.named other found there
  · intro other found aim there looked
    rw [find] at there
    split_ifs at there
    · cases there
      cases looked
    · exact sound.target other found aim there looked
  · intro signal other found there
    have some_ := keys other
    rw [there] at some_
    obtain ⟨value, known⟩ := Option.isSome_iff_exists.mp some_
    have true_ := done.mp signal other value known
    rw [true_] at known
    exact acked other found there known
  · intro waiting
    have listed := AList.mem_lookup_iff.mp ((find key).trans (if_pos rfl))
    exact List.ne_nil_of_mem listed
  · rintro phase - finished
    refine done.mpr fun other value known => ?_
    have some_ := keys other
    rw [known] at some_
    obtain ⟨found, there⟩ := Option.isSome_iff_exists.mp some_.symm
    have open_ : init.phase ≠ .returned := by
      intro returned
      change init.phase = .launched ∨ init.phase = .waiting at phase
      rw [returned] at phase
      rcases phase with phase | phase <;> cases phase
    rw [counted open_ other found there (finished other found there)] at known
    exact (Option.some.inj known).symm
  · exact fun signalled => absurd (sound.signalled signalled) busy

theorem Sound.enter (sound : init.Sound call) (phase : InitiationPhase) (open_ : init.phase ≠ .returned)
    (later : phase ≠ .recorded) (waits : phase = .waiting → init.markers.entries ≠ [])
    (complete : phase = .launched ∨ phase = .waiting → init.markers.entries ≠ [] → init.Finished → init.done = true) :
    ({ init with phase := phase } : Initiation).Sound call where
  named := sound.named
  keys := sound.keys
  target := sound.target
  acked := sound.acked
  counted := fun _ => sound.counted open_
  unsent := fun recorded => absurd recorded later
  done := sound.done
  waits := waits
  complete := complete
  signalled := sound.signalled

theorem Sound.receive (sound : init.Sound call) (open_ : init.phase ≠ .returned) (signal : init.done = true) :
    ({ init with phase := .leaving, done := false, signalled := true } : Initiation).Sound call where
  named := sound.named
  keys := sound.keys
  target := sound.target
  acked := sound.acked
  counted := fun _ => sound.counted open_
  unsent := nofun
  done := nofun
  waits := nofun
  complete := by rintro (impossible | impossible) <;> cases impossible
  signalled := fun _ => sound.done signal

end Keeps

end Initiation

theorem lookup_gather {β : Type} (peers : List (String × ServerInfo)) (value : ServerInfo → β) (key : String) :
    (gather peers value).lookup key = ((gather peers id).lookup key).map value := by
  have built (found : Map String β) (infos : Map String ServerInfo)
      (same : ∀ key, found.lookup key = (infos.lookup key).map value) :
      (peers.foldl (fun found item => found.insert item.1 (value item.2)) found).lookup key =
        ((peers.foldl (fun found item => found.insert item.1 item.2) infos).lookup key).map value := by
    induction peers generalizing found infos with
    | nil => exact same key
    | cons item rest ih =>
      refine ih _ _ fun other => ?_
      by_cases here : other = item.1
      · subst here
        rw [AList.lookup_insert, AList.lookup_insert, Option.map_some]
      · rw [AList.lookup_insert_ne here, AList.lookup_insert_ne here, same]
  exact built ∅ ∅ fun _ => rfl

theorem foldl_insert_mem (peers : List (String × ServerInfo)) (infos : Map String ServerInfo) (key : String)
    (info : ServerInfo) (found : (peers.foldl (fun found item => found.insert item.1 item.2) infos).lookup key = some info) :
    (key, info) ∈ peers ∨ infos.lookup key = some info := by
  induction peers generalizing infos with
  | nil => exact .inr found
  | cons item rest ih =>
    rcases ih _ found with later | before
    · exact .inl (by simp [later])
    · by_cases here : key = item.1
      · subst here
        rw [AList.lookup_insert] at before
        cases before
        exact .inl (by simp)
      · rw [AList.lookup_insert_ne here] at before
        exact .inr before

variable {peers : List (String × ServerInfo)}

theorem gather_mem {info : ServerInfo} (found : (gather peers id).lookup key = some info) : (key, info) ∈ peers := by
  rcases foldl_insert_mem peers ∅ key info found with listed | absent
  · exact listed
  · cases absent

theorem sound_start (named : ∀ item ∈ peers, item.2.id = item.1) (call : Nat) :
    (Initiation.start peers).Sound call := by
  have marker (key : String) (marker : Marker) (present : (Initiation.start peers).markers.lookup key = some marker) :
      ∃ info, (key, info) ∈ peers ∧ marker = ⟨info.id, .sending⟩ := by
    change (gather peers _).lookup key = some marker at present
    rw [lookup_gather] at present
    obtain ⟨info, found, rfl⟩ := Option.map_eq_some_iff.mp present
    exact ⟨info, gather_mem found, rfl⟩
  have waiting (key : String) : (Initiation.start peers).pendingAck.lookup key ≠ some true := by
    change (gather peers _).lookup key ≠ some true
    rw [lookup_gather]
    simp
  refine ⟨?_, ?_, ?_, ?_, ?_, ?_, nofun, nofun, ?_, nofun⟩
  · intro key found present
    obtain ⟨info, listed, rfl⟩ := marker key found present
    exact named _ listed
  · intro key
    change ((gather peers _).lookup key).isSome = ((gather peers _).lookup key).isSome
    rw [lookup_gather, lookup_gather peers fun info => (⟨info.id, .sending⟩ : Marker), Option.isSome_map, Option.isSome_map]
  · intro key found target present looked
    obtain ⟨info, -, rfl⟩ := marker key found present
    cases looked
  · exact fun key found present acked => absurd acked (waiting key)
  · intro _ key found present ended
    obtain ⟨info, -, rfl⟩ := marker key found present
    cases ended
  · intro _ key found present
    obtain ⟨info, -, rfl⟩ := marker key found present
    rfl
  · rintro (impossible | impossible) <;> cases impossible

namespace Coordinator

structure Settled (c : Coordinator) : Prop where
  sound : ∀ call init, c.calls.lookup call = some init → init.Sound call
  single : ∀ call other init before, c.calls.lookup call = some init → c.calls.lookup other = some before → init.Busy → before.Busy →
    call = other
  slot : ∀ call init, c.calls.lookup call = some init → init.Busy →
    c.snapshot = if init.phase = .returned then none else some call

-- A snapshot starts when every earlier one, its goroutines included, is over, and the peers it finds alive
-- stand in the map under their own ids.
def OneAtATime (c : Coordinator) : SnapshotAction → Prop
  | .initiate _ =>
      (∀ call init, c.calls.lookup call = some init → ¬init.Busy) ∧ ∀ item ∈ c.server.alivePeers, item.2.id = item.1
  | _ => True

variable {c : Coordinator}

theorem calls_setCall (call other : Nat) (init : Initiation) :
    (c.setCall call init).calls.lookup other = if other = call then some init else c.calls.lookup other := by
  unfold setCall
  split_ifs with same
  · rw [same, AList.lookup_insert]
  · rw [AList.lookup_insert_ne same]

theorem Settled.update (settled : c.Settled) (call : Nat) (init : Initiation) (snapshot : Option Nat)
    (alone : ∀ other before, c.calls.lookup other = some before → other ≠ call → ¬before.Busy) (sound : init.Sound call)
    (slot : init.Busy → snapshot = if init.phase = .returned then none else some call) :
    Settled { c.setCall call init with snapshot := snapshot } := by
  have find (other : Nat) : ({ c.setCall call init with snapshot := snapshot } : Coordinator).calls.lookup other = _ :=
    calls_setCall (c := c) call other init
  have busy (other : Nat) (found : Initiation)
      (there : ({ c.setCall call init with snapshot := snapshot } : Coordinator).calls.lookup other = some found)
      (works : found.Busy) : other = call ∧ found = init := by
    rw [find] at there
    split_ifs at there with same
    · exact ⟨same, (Option.some.inj there).symm⟩
    · exact absurd works (alone other found there same)
  constructor
  · intro other found there
    rw [find] at there
    split_ifs at there with same
    · cases there
      rw [same]
      exact sound
    · exact settled.sound other found there
  · intro first second one two here there works both
    rw [(busy first one here works).1, (busy second two there both).1]
  · intro other found there works
    obtain ⟨rfl, rfl⟩ := busy other found there works
    exact slot works

theorem Settled.proceed (settled : c.Settled) {call : Nat} {before init : Initiation} (snapshot : Option Nat)
    (here : c.calls.lookup call = some before) (busy : before.Busy) (sound : init.Sound call)
    (slot : init.Busy → snapshot = if init.phase = .returned then none else some call) :
    Settled { c.setCall call init with snapshot := snapshot } :=
  settled.update call init snapshot
    (fun other found there different works => different (settled.single other call found before there here works busy))
    sound slot

theorem marker_busy {init : Initiation} {marker : Marker} (there : init.marker key = some marker)
    (unfinished : marker.stage ≠ .finished) :
    init.markers.lookup key = some marker ∧ init.phase ≠ .recorded ∧ init.Busy := by
  unfold Initiation.marker at there
  split_ifs at there with phase
  rw [not_or] at phase
  exact ⟨there, phase.1, phase.2, fun _ => ⟨key, marker, there, unfinished⟩⟩

theorem settled_step {next : Coordinator} {action : SnapshotAction} (settled : c.Settled) (orderly : c.OneAtATime action)
    (stepped : c.step action = some next) : next.Settled := by
  cases action with
  | server s =>
    cases stepped
    exact ⟨settled.sound, settled.single, settled.slot⟩
  | initiate call =>
    rw [step] at stepped
    split_ifs at stepped
    cases stepped
    exact settled.update call _ _ (fun other before there _ => orderly.1 other before there)
      (sound_start orderly.2 call) fun _ => rfl
  | persist call ok =>
    obtain ⟨init, here, moved⟩ := Option.bind_eq_some_iff.mp stepped
    by_cases phase : init.phase = .recorded
    case neg =>
      rw [if_neg phase] at moved
      cases moved
    rw [if_pos phase] at moved
    cases moved
    have sound := settled.sound call init here
    have busy : init.Busy := ⟨by simp [phase], by simp [phase]⟩
    refine settled.proceed c.snapshot here busy (sound.enter _ (by simp [phase]) ?_ ?_ ?_) ?_
    · cases ok <;> simp
    · cases ok <;> simp
    · intro _ some_ finished
      obtain ⟨item, listed⟩ := List.exists_mem_of_ne_nil _ some_
      have found : init.markers.lookup item.1 = some item.2 := AList.mem_lookup_iff.mpr listed
      have unsent := sound.unsent phase item.1 item.2 found
      rw [finished item.1 item.2 found] at unsent
      cases unsent
    · intro _
      rw [settled.slot call init here busy, phase]
      cases ok <;> rfl
  | wait call =>
    obtain ⟨init, here, moved⟩ := Option.bind_eq_some_iff.mp stepped
    by_cases phase : init.phase = .launched
    case neg =>
      rw [if_neg phase] at moved
      cases moved
    rw [if_pos phase] at moved
    cases moved
    have sound := settled.sound call init here
    have busy : init.Busy := ⟨by simp [phase], by simp [phase]⟩
    refine settled.proceed c.snapshot here busy (sound.enter _ (by simp [phase]) ?_ ?_ ?_) ?_
    · split_ifs <;> simp
    · intro waiting
      split_ifs at waiting with empty
      obtain ⟨item, listed⟩ := List.exists_mem_of_ne_nil _ empty
      have key := sound.keys item.1
      rw [AList.mem_lookup_iff.mpr listed] at key
      obtain ⟨marker, found⟩ := Option.isSome_iff_exists.mp key.symm
      exact List.ne_nil_of_mem (AList.mem_lookup_iff.mp found)
    · exact fun _ => sound.complete (.inl phase)
    · intro _
      rw [settled.slot call init here busy]
      split_ifs <;> simp_all
  | attempt call key =>
    obtain ⟨init, here, moved⟩ := Option.bind_eq_some_iff.mp stepped
    obtain ⟨marker, there, moved⟩ := Option.bind_eq_some_iff.mp moved
    split_ifs at moved with stage
    cases moved
    obtain ⟨present, launched, busy⟩ := marker_busy there (by simp [stage])
    refine settled.proceed c.snapshot here busy
      ((settled.sound call init here).advance key marker .attempted present launched (by simp [stage]) nofun nofun) ?_
    exact fun _ => settled.slot call init here busy
  | look call key =>
    obtain ⟨init, here, moved⟩ := Option.bind_eq_some_iff.mp stepped
    obtain ⟨marker, there, moved⟩ := Option.bind_eq_some_iff.mp moved
    split_ifs at moved with stage
    cases moved
    obtain ⟨present, launched, busy⟩ := marker_busy there (by simp [stage])
    have slot := settled.slot call init here busy
    refine settled.proceed c.snapshot here busy
      ((settled.sound call init here).advance key marker _ present launched (by simp [stage]) ?_ ?_) fun _ => slot
    · intro other looked
      rw [slot] at looked
      split_ifs at looked
      cases looked
      rfl
    · intro finished
      rw [slot] at finished
      split_ifs at finished with returned
      exact returned
  | ack call key =>
    obtain ⟨init, here, moved⟩ := Option.bind_eq_some_iff.mp stepped
    obtain ⟨marker, there, moved⟩ := Option.bind_eq_some_iff.mp moved
    dsimp only at moved
    split at moved
    case h_1 target stage =>
      obtain ⟨present, launched, busy⟩ := marker_busy there (by simp [stage])
      have sound := settled.sound call init here
      obtain rfl := sound.target key marker target present stage
      rw [calls_setCall, if_pos rfl] at moved
      cases moved
      have twice : (c.setCall target (init.setStage key marker .finished)).setCall target
          ((init.setStage key marker .finished).ack marker.peer) =
            c.setCall target ((init.setStage key marker .finished).ack marker.peer) := by
        simp [setCall]
      rw [twice]
      exact settled.proceed c.snapshot here busy
        (sound.acknowledge present launched (by simp [stage])) fun _ => settled.slot target init here busy
    case h_2 => cases moved
  | receive call =>
    obtain ⟨init, here, moved⟩ := Option.bind_eq_some_iff.mp stepped
    split_ifs at moved with phase
    cases moved
    have busy : init.Busy := ⟨by simp [phase.1], by simp [phase.1]⟩
    refine settled.proceed c.snapshot here busy
      ((settled.sound call init here).receive (by simp [phase.1]) phase.2) fun _ => ?_
    rw [settled.slot call init here busy, phase.1]
    rfl
  | timeout call =>
    obtain ⟨init, here, moved⟩ := Option.bind_eq_some_iff.mp stepped
    split_ifs at moved with phase
    cases moved
    have busy : init.Busy := ⟨by simp [phase], by simp [phase]⟩
    refine settled.proceed c.snapshot here busy
      ((settled.sound call init here).enter .leaving (by simp [phase]) nofun nofun (by simp)) fun _ => ?_
    rw [settled.slot call init here busy, phase]
    rfl
  | clear call =>
    obtain ⟨init, here, moved⟩ := Option.bind_eq_some_iff.mp stepped
    split_ifs at moved with phase
    cases moved
    have busy : init.Busy := ⟨by simp [phase], by simp [phase]⟩
    exact settled.proceed none here busy
      ((settled.sound call init here).enter .returned (by simp [phase]) nofun nofun (by simp)) fun _ => rfl

end Coordinator

theorem markers_belong_to_snapshot (s : Server) (actions : List SnapshotAction) (final : Coordinator)
    (orderly : Transition.Meets Coordinator.step Coordinator.OneAtATime (.start s) actions)
    (reached : Transition.run Coordinator.step (.start s) actions = some final) : final.OwnAcks := by
  have settled := Transition.run_invariant Coordinator.OneAtATime Coordinator.Settled
    (fun c action next settled orderly stepped => Coordinator.settled_step settled orderly stepped)
    (.start s) ⟨nofun, nofun, nofun⟩ actions orderly reached
  refine ⟨fun call init here signalled key marker present sending => ?_, fun call init here waiting finished => ?_⟩
  · have finished := (settled.sound call init here).signalled signalled key marker present
    rw [finished] at sending
    cases sending
  · have sound := settled.sound call init here
    exact sound.complete (.inr waiting) (sound.waits waiting) finished

def primaryOfTwo : Server := (firstPrimary.sendHeartbeat 0 ⟨"2", 0⟩).1

def serialSnapshots : List SnapshotAction :=
  [.initiate 0, .persist 0 true, .attempt 0 "2", .look 0 "2", .wait 0, .ack 0 "2", .receive 0, .clear 0,
    .initiate 1, .persist 1 true, .wait 1, .attempt 1 "2", .look 1 "2", .ack 1 "2"]

def serialStep (c : Coordinator) : SnapshotAction → Bool
  | .initiate _ =>
      (c.calls.entries.all fun item => item.2.phase = .failed ||
        item.2.phase = .returned && item.2.markers.entries.all fun marker => marker.2.stage = .finished) &&
      c.server.alivePeers.all fun item => item.2.id = item.1
  | _ => true

theorem serialStep_oneAtATime {c : Coordinator} {action : SnapshotAction} (serial : serialStep c action = true) :
    c.OneAtATime action := by
  cases action with
  | initiate call =>
    rw [serialStep, Bool.and_eq_true] at serial
    refine ⟨fun other init there busy => ?_, by simpa using serial.2⟩
    have ended := List.all_eq_true.mp serial.1 ⟨other, init⟩ (AList.mem_lookup_iff.mp there)
    simp only [Bool.or_eq_true, Bool.and_eq_true, decide_eq_true_eq] at ended
    rcases ended with failed | ⟨returned, finished⟩
    · exact busy.1 failed
    · obtain ⟨key, marker, present, unfinished⟩ := busy.2 returned
      have ended := List.all_eq_true.mp finished ⟨key, marker⟩ (AList.mem_lookup_iff.mp present)
      rw [decide_eq_true_eq] at ended
      exact unfinished ended
  | _ => trivial

theorem serialSnapshots_ownAcks :
    ∃ final, Transition.run Coordinator.step (.start primaryOfTwo) serialSnapshots = some final ∧ final.OwnAcks ∧
      (final.calls.lookup 0).map Initiation.signalled = some true ∧
      (final.calls.lookup 1).map Initiation.done = some true := by
  have outcome : (Transition.run Coordinator.step (.start primaryOfTwo) serialSnapshots).map (fun final =>
      ((final.calls.lookup 0).map Initiation.signalled, (final.calls.lookup 1).map Initiation.done)) =
        some (some true, some true) := by decide +kernel
  obtain ⟨final, reached, facts⟩ := Option.map_eq_some_iff.mp outcome
  obtain ⟨first, second⟩ := Prod.mk.inj facts
  have orderly : Transition.Meets Coordinator.step Coordinator.OneAtATime (.start primaryOfTwo) serialSnapshots :=
    Transition.meets_of_check _ _ serialStep (fun c action _ serial => serialStep_oneAtATime serial)
      (by decide +kernel)
  exact ⟨final, reached, markers_belong_to_snapshot primaryOfTwo serialSnapshots final orderly reached, first, second⟩

-- The marker goroutine of the first snapshot acknowledges to the second one, which has taken the slot: the second is
-- signalled with its own marker still on the way, the first waits with all its goroutines done.
theorem overlapping_snapshots_exchange_acks :
    ∃ final, Transition.run Coordinator.step (.start primaryOfTwo)
        [.initiate 0, .persist 0 true, .initiate 1, .persist 1 true, .wait 0, .wait 1, .attempt 0 "2", .look 0 "2",
          .ack 0 "2", .receive 1] = some final ∧
      (∃ init, final.calls.lookup 1 = some init ∧ init.signalled = true ∧
        init.markers.lookup "2" = some ⟨"2", .sending⟩) ∧
      (∃ init, final.calls.lookup 0 = some init ∧ init.phase = .waiting ∧ init.done = false ∧ init.Finished) ∧
      ¬final.OwnAcks := by
  have outcome : ((Transition.run Coordinator.step (.start primaryOfTwo)
      [.initiate 0, .persist 0 true, .initiate 1, .persist 1 true, .wait 0, .wait 1, .attempt 0 "2", .look 0 "2",
        .ack 0 "2", .receive 1]).any fun final =>
          ((final.calls.lookup 1).any fun init => init.signalled && init.markers.lookup "2" = some ⟨"2", .sending⟩) &&
          (final.calls.lookup 0).any fun init => init.phase = .waiting && !init.done &&
            init.markers.entries.all fun item => item.2.stage = .finished) = true := by decide +kernel
  obtain ⟨final, reached, facts⟩ := (Option.any_eq_true ..).mp outcome
  rw [Bool.and_eq_true] at facts
  obtain ⟨second, there, early⟩ := (Option.any_eq_true ..).mp facts.1
  obtain ⟨first, here, late⟩ := (Option.any_eq_true ..).mp facts.2
  simp only [Bool.and_eq_true, decide_eq_true_eq, Bool.not_eq_true'] at early late
  refine ⟨final, reached, ⟨second, there, early⟩, ⟨first, here, late.1.1, late.1.2, fun key marker present => ?_⟩, ?_⟩
  · have ended := List.all_eq_true.mp late.2 ⟨key, marker⟩ (AList.mem_lookup_iff.mp present)
    rw [decide_eq_true_eq] at ended
    exact ended
  · exact fun own => own.signalled 1 second there early.1 "2" _ early.2 rfl

end Ikkat
