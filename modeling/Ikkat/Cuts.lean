import Ikkat.Committed
import Ikkat.Snapshot

set_option autoImplicit false

namespace Ikkat

structure Initiated where
  snapshot : GlobalSnapshot
  sentBefore : Nat
  markers : List String

structure MarkerRecord where
  backup : String
  snapshot : GlobalSnapshot
  reflects : List Nat

-- A primary with its handlers and the backups. A request is known by its position among those sent; it may arrive
-- late, twice or never. A marker has a connection of its own and arrives late or never.
structure SnapshotCluster where
  primary : Node
  backup : String → Option Server
  sent : List Envelope
  acked : List (Nat × String)
  received : List (String × Nat)
  initiated : Map Nat Initiated
  recorded : List MarkerRecord

inductive CutAction where
  | primary (action : NodeAction)
  | deliver (position : Nat) (disk : DiskIO)
  | initiate (call : Nat) (now : Time) (snapshotID : String)
  | sendMarker (call : Nat) (backup : String) (now : Time)
  | lose (call : Nat) (backup : String)

namespace SnapshotCluster

def start (primary : Server) (backup : String → Option Server) : SnapshotCluster :=
  ⟨.start primary, backup, [], [], [], ∅, []⟩

def enabled (c : SnapshotCluster) : NodeAction → Bool
  | .create _ _ | .openFile _ _ | .begin _ _ _ _ => true
  | .handler handler (.ack peer true) => (handler, peer) ∈ c.acked
  | .handler _ _ => true
  | _ => false

def reflects (c : SnapshotCluster) (id : String) : List Nat :=
  (c.received.filter fun item => item.1 = id).map Prod.snd

def changes (before after : Server) : Bool :=
  after.log ≠ before.log || after.commitIndex ≠ before.commitIndex

def step [LogCodec] (c : SnapshotCluster) : CutAction → Option SnapshotCluster
  | .primary action =>
      if c.enabled action then do
        let next ← c.primary.step action
        some { c with primary := next, sent := c.sent ++ c.primary.emitted c.primary.server.id action }
      else none
  | .deliver position disk => do
      let envelope ← c.sent[position]?
      let s ← c.backup envelope.target
      let next := (s.appendEntries disk envelope.request).1
      some { c with
        backup := Function.update c.backup envelope.target (some next)
        acked := (envelope.handler, envelope.target) :: c.acked
        received := if changes s next then (envelope.target, position) :: c.received else c.received }
  | .initiate call now snapshotID =>
      if c.primary.server.role = .primary ∧ (c.initiated.lookup call).isNone then
        some { c with
          initiated := c.initiated.insert call
            ⟨c.primary.server.initiatedSnapshot now snapshotID, c.sent.length,
              c.primary.server.alivePeers.map fun item => item.2.id⟩ }
      else none
  | .sendMarker call id now => do
      let init ← c.initiated.lookup call
      let s ← c.backup id
      if id ∈ init.markers then
        some { c with
          initiated := c.initiated.insert call { init with markers := init.markers.erase id }
          recorded := ⟨id, s.markedSnapshot now init.snapshot.snapshotID, c.reflects id⟩ :: c.recorded }
      else none
  | .lose call id => do
      let init ← c.initiated.lookup call
      some { c with initiated := c.initiated.insert call { init with markers := init.markers.erase id } }

def Consistent (c : SnapshotCluster) : Prop :=
  ∀ call init, c.initiated.lookup call = some init → ∀ record ∈ c.recorded,
    record.snapshot.snapshotID = init.snapshot.snapshotID →
      (∀ position ∈ record.reflects, position < init.sentBefore) ∧
        record.snapshot.commitIndex ≤ init.snapshot.commitIndex

def InOrder (c : SnapshotCluster) : CutAction → Prop
  | .deliver position _ => ∀ envelope, c.sent[position]? = some envelope → ∀ call init,
      c.initiated.lookup call = some init → init.sentBefore ≤ position → envelope.target ∉ init.markers
  | .initiate _ _ snapshotID => ∀ call init, c.initiated.lookup call = some init →
      init.snapshot.snapshotID ≠ snapshotID
  | .primary (.handler id (.commit _)) => ∀ h entry, c.primary.handlers id = some h → h.stage.entry = some entry →
      c.primary.server.commitIndex ≤ entry.index.toNat
  | _ => True

structure Ahead (c : SnapshotCluster) (init : Initiated) : Prop where
  within : init.sentBefore ≤ c.sent.length
  carried : ∀ position envelope, position < init.sentBefore → c.sent[position]? = some envelope →
    envelope.request.leaderCommit.toInt.toNat ≤ init.snapshot.commitIndex
  unseen : ∀ id ∈ init.markers, ∀ position, (id, position) ∈ c.received → position < init.sentBefore
  behind : ∀ id ∈ init.markers, ∀ s, c.backup id = some s → s.commitIndex ≤ init.snapshot.commitIndex

structure Orderly (c : SnapshotCluster) : Prop where
  announced : ∀ envelope ∈ c.sent, envelope.request.leaderCommit.toInt.toNat ≤ c.primary.server.commitIndex
  behind : ∀ id s, c.backup id = some s → s.commitIndex ≤ c.primary.server.commitIndex
  arrived : ∀ item ∈ c.received, item.2 < c.sent.length
  ahead : ∀ call init, c.initiated.lookup call = some init → c.Ahead init
  distinct : ∀ call other init second, c.initiated.lookup call = some init →
    c.initiated.lookup other = some second → init.snapshot.snapshotID = second.snapshot.snapshotID → call = other
  origin : ∀ record ∈ c.recorded, ∃ call init, c.initiated.lookup call = some init ∧
    record.snapshot.snapshotID = init.snapshot.snapshotID
  consistent : c.Consistent

variable {envelope : Envelope} {init : Initiated} {backup : String → Option Server}

theorem emitted_leaderCommit {n : Node} {id : String} {action : NodeAction} (member : envelope ∈ n.emitted id action) :
    envelope.request.leaderCommit.toInt.toNat ≤ n.server.commitIndex := by
  obtain ⟨_, entry, _, _, _, request⟩ := Node.emitted_request member
  have small := ofInt_toInt_le n.server.commitIndex
  rw [request]
  change (Int32.ofInt n.server.commitIndex).toInt.toNat ≤ n.server.commitIndex
  omega

variable {c next : SnapshotCluster}

theorem primary_commitIndex [LogCodec] (action : NodeAction) (n : Node) (allowed : c.enabled action = true)
    (inOrder : c.InOrder (.primary action)) (moved : c.primary.step action = some n) :
    c.primary.server.commitIndex ≤ n.server.commitIndex := by
  cases action with
  | create env req =>
    obtain ⟨s, answer, sent, handled, rfl⟩ := Node.handle_returned moved
    exact (Server.create_keeps handled).commitIndex.ge
  | openFile env req =>
    obtain ⟨s, answer, sent, handled, rfl⟩ := Node.handle_returned moved
    exact (Server.openFile_keeps handled).commitIndex.ge
  | begin id kind now req =>
    rcases Node.begin_cases _ _ id kind now req moved with rfl | ⟨_, _, _, _, _, rfl⟩ <;> exact le_rfl
  | handler id action =>
    obtain ⟨h, server, stage, here, _, effect, rfl⟩ := Node.handlerStep_cases moved
    cases effect with
    | commit io primes entry majority awaiting acks before _ =>
      exact inOrder h entry here (by rw [before]; rfl)
    | quiet _ _ _ still | finish _ _ _ still => exact still.keeps.commitIndex.ge
    | _ => exact le_rfl
  | _ => cases allowed

theorem Ahead.sends (ahead : c.Ahead init) (primary : Node) (more : List Envelope) :
    Ahead { c with primary := primary, sent := c.sent ++ more } init where
  within := by
    have within := ahead.within
    simp only [List.length_append]
    omega
  carried position envelope early there := by
    have inside : position < c.sent.length := lt_of_lt_of_le early ahead.within
    exact ahead.carried position envelope early (by rwa [List.getElem?_append_left inside] at there)
  unseen := ahead.unseen
  behind := ahead.behind

theorem Ahead.delivered (ahead : c.Ahead init) {position : Nat}
    {s after : Server} (acked : List (Nat × String)) {received : List (String × Nat)}
    (there : c.sent[position]? = some envelope) (here : c.backup envelope.target = some s)
    (raised : after.commitIndex = max s.commitIndex envelope.request.leaderCommit.toInt.toNat)
    (seen : ∀ item ∈ received, item = (envelope.target, position) ∨ item ∈ c.received)
    (inOrder : init.sentBefore ≤ position → envelope.target ∉ init.markers) :
    Ahead { c with
      backup := Function.update c.backup envelope.target (some after), acked := acked, received := received } init where
  within := ahead.within
  carried := ahead.carried
  unseen id pending other member := by
    rcases seen _ member with same | earlier
    · cases same
      exact Nat.lt_of_not_le fun late => inOrder late pending
    · exact ahead.unseen id pending other earlier
  behind id pending t found := by
    rcases update_cases found with ⟨rfl, rfl⟩ | ⟨_, untouched⟩
    · have early : position < init.sentBefore := Nat.lt_of_not_le fun late => inOrder late pending
      rw [raised]
      exact max_le (ahead.behind _ pending s here) (ahead.carried position envelope early there)
    · exact ahead.behind id pending t untouched

theorem Ahead.fewer (ahead : c.Ahead init) (id : String) (recorded : List MarkerRecord)
    (initiated : Map Nat Initiated) :
    Ahead { c with initiated := initiated, recorded := recorded } { init with markers := init.markers.erase id } where
  within := ahead.within
  carried := ahead.carried
  unseen other pending := ahead.unseen other (List.mem_of_mem_erase pending)
  behind other pending := ahead.behind other (List.mem_of_mem_erase pending)

theorem Ahead.initiated (ahead : c.Ahead init) (recorded : List MarkerRecord)
    (initiated : Map Nat Initiated) : Ahead { c with initiated := initiated, recorded := recorded } init :=
  ⟨ahead.within, ahead.carried, ahead.unseen, ahead.behind⟩

theorem mem_reflects (id : String) (position : Nat) : position ∈ c.reflects id ↔ (id, position) ∈ c.received := by
  simp [reflects]

theorem lookup_initiated {calls : Map Nat Initiated} {call other : Nat} {found : Initiated}
    (there : (calls.insert call init).lookup other = some found) :
    other = call ∧ found = init ∨ other ≠ call ∧ calls.lookup other = some found := by
  rcases eq_or_ne other call with rfl | different
  · rw [AList.lookup_insert, Option.some.injEq] at there
    exact .inl ⟨rfl, there.symm⟩
  · rw [AList.lookup_insert_ne different] at there
    exact .inr ⟨different, there⟩

theorem Orderly.primary [LogCodec] (orderly : c.Orderly) (action : NodeAction) (n : Node)
    (allowed : c.enabled action = true) (inOrder : c.InOrder (.primary action))
    (moved : c.primary.step action = some n) :
    Orderly { c with primary := n, sent := c.sent ++ c.primary.emitted c.primary.server.id action } where
  announced envelope member := by
    refine le_trans ?_ (c.primary_commitIndex action n allowed inOrder moved)
    rcases List.mem_append.mp member with earlier | emitted
    · exact orderly.announced envelope earlier
    · exact emitted_leaderCommit emitted
  behind id s here := (orderly.behind id s here).trans (c.primary_commitIndex action n allowed inOrder moved)
  arrived item member := by
    have bound := orderly.arrived item member
    simp only [List.length_append]
    omega
  ahead call init there := (orderly.ahead call init there).sends n _
  distinct := orderly.distinct
  origin := orderly.origin
  consistent := orderly.consistent

theorem Orderly.deliver [LogCodec] (orderly : c.Orderly) (position : Nat) (disk : DiskIO) (envelope : Envelope)
    (s : Server) (there : c.sent[position]? = some envelope) (here : c.backup envelope.target = some s)
    (inOrder : c.InOrder (.deliver position disk)) (received : List (String × Nat)) (acked : List (Nat × String))
    (seen : ∀ item ∈ received, item = (envelope.target, position) ∨ item ∈ c.received) :
    Orderly { c with
      backup := Function.update c.backup envelope.target (some (s.appendEntries disk envelope.request).1)
      acked := acked, received := received } where
  announced := orderly.announced
  behind id t found := by
    rcases update_cases found with ⟨rfl, rfl⟩ | ⟨_, untouched⟩
    · rw [appendEntries_commitIndex]
      exact max_le (orderly.behind _ s here) (orderly.announced envelope (List.mem_of_getElem? there))
    · exact orderly.behind id t untouched
  arrived item member := by
    rcases seen item member with rfl | earlier
    · exact (List.getElem?_eq_some_iff.mp there).1
    · exact orderly.arrived item earlier
  ahead call init found := (orderly.ahead call init found).delivered acked there here
    (appendEntries_commitIndex ..) seen (inOrder envelope there call init found)
  distinct := orderly.distinct
  origin := orderly.origin
  consistent := orderly.consistent

theorem Orderly.initiate (orderly : c.Orderly) (call : Nat) (now : Time) (snapshotID : String) (markers : List String)
    (fresh : c.InOrder (.initiate call now snapshotID)) (unused : c.initiated.lookup call = none) :
    Orderly { c with
      initiated := c.initiated.insert call
        ⟨c.primary.server.initiatedSnapshot now snapshotID, c.sent.length, markers⟩ } where
  announced := orderly.announced
  behind := orderly.behind
  arrived := orderly.arrived
  ahead other init there := by
    rcases lookup_initiated there with ⟨_, rfl⟩ | ⟨_, earlier⟩
    · exact
        { within := le_rfl
          carried := fun position envelope _ found => orderly.announced envelope (List.mem_of_getElem? found)
          unseen := fun id _ position member => orderly.arrived (id, position) member
          behind := fun id _ s here => orderly.behind id s here }
    · exact (orderly.ahead other init earlier).initiated c.recorded _
  distinct first second init other there found same := by
    rcases lookup_initiated there with ⟨rfl, rfl⟩ | ⟨_, earlier⟩
    · rcases lookup_initiated found with ⟨rfl, _⟩ | ⟨_, older⟩
      · rfl
      · exact absurd same.symm (fresh second other older)
    · rcases lookup_initiated found with ⟨rfl, rfl⟩ | ⟨_, older⟩
      · exact absurd same (fresh first init earlier)
      · exact orderly.distinct first second init other earlier older same
  origin record member := by
    obtain ⟨other, init, there, same⟩ := orderly.origin record member
    have different : other ≠ call := by
      rintro rfl
      simp [unused] at there
    exact ⟨other, init, by rwa [AList.lookup_insert_ne different], same⟩
  consistent other init there record member same := by
    rcases lookup_initiated there with ⟨_, rfl⟩ | ⟨_, earlier⟩
    · obtain ⟨older, first, found, origin⟩ := orderly.origin record member
      exact absurd (origin.symm.trans same) (fresh older first found)
    · exact orderly.consistent other init earlier record member same

theorem Orderly.marked (orderly : c.Orderly) (call : Nat) (init : Initiated) (id : String)
    (there : c.initiated.lookup call = some init) (recorded : List MarkerRecord)
    (kept : ∀ record ∈ recorded, record ∈ c.recorded ∨
      record.snapshot.snapshotID = init.snapshot.snapshotID ∧
        (∀ position ∈ record.reflects, position < init.sentBefore) ∧
          record.snapshot.commitIndex ≤ init.snapshot.commitIndex) :
    Orderly { c with
      initiated := c.initiated.insert call { init with markers := init.markers.erase id }, recorded := recorded } := by
  have before (other : Nat) (found : Initiated) (present : (c.initiated.insert call
      { init with markers := init.markers.erase id }).lookup other = some found) :
      ∃ old, c.initiated.lookup other = some old ∧ found.snapshot = old.snapshot ∧
        found.sentBefore = old.sentBefore := by
    rcases lookup_initiated present with ⟨rfl, rfl⟩ | ⟨_, earlier⟩
    · exact ⟨init, there, rfl, rfl⟩
    · exact ⟨found, earlier, rfl, rfl⟩
  have after (other : Nat) (old : Initiated) (present : c.initiated.lookup other = some old) :
      ∃ found, (c.initiated.insert call { init with markers := init.markers.erase id }).lookup other = some found ∧
        found.snapshot = old.snapshot := by
    rcases eq_or_ne other call with rfl | different
    · rw [there, Option.some.injEq] at present
      exact ⟨_, AList.lookup_insert .., present ▸ rfl⟩
    · exact ⟨old, by rwa [AList.lookup_insert_ne different], rfl⟩
  constructor
  case announced => exact orderly.announced
  case behind => exact orderly.behind
  case arrived => exact orderly.arrived
  case ahead =>
    intro other found present
    rcases lookup_initiated present with ⟨rfl, rfl⟩ | ⟨_, earlier⟩
    · exact (orderly.ahead _ init there).fewer id recorded _
    · exact (orderly.ahead other found earlier).initiated recorded _
  case distinct =>
    intro first second found other present later same
    obtain ⟨old, earlier, snapshot, _⟩ := before first found present
    obtain ⟨older, sooner, copy, _⟩ := before second other later
    exact orderly.distinct first second old older earlier sooner (by rw [← snapshot, ← copy, same])
  case origin =>
    intro record member
    rcases kept record member with earlier | ⟨same, _⟩
    · obtain ⟨other, old, present, origin⟩ := orderly.origin record earlier
      obtain ⟨found, now, snapshot⟩ := after other old present
      exact ⟨other, found, now, by rw [origin, snapshot]⟩
    · obtain ⟨found, now, snapshot⟩ := after call init there
      exact ⟨call, found, now, by rw [same, snapshot]⟩
  case consistent =>
    intro other found present record member same
    obtain ⟨old, earlier, snapshot, sentBefore⟩ := before other found present
    rw [snapshot, sentBefore]
    rw [snapshot] at same
    rcases kept record member with recordedBefore | ⟨own, facts⟩
    · exact orderly.consistent other old earlier record recordedBefore same
    · -- The new record belongs to the call its marker came from, the only one with this id.
      have calls := orderly.distinct other call old init earlier there (same.symm.trans own)
      rw [calls, there, Option.some.injEq] at earlier
      exact earlier ▸ facts

theorem Orderly.step [LogCodec] (action : CutAction) (orderly : c.Orderly) (inOrder : c.InOrder action)
    (moved : c.step action = some next) : next.Orderly := by
  cases action with
  | primary action =>
    simp only [SnapshotCluster.step, Option.ite_none_right_eq_some, Option.bind_eq_bind, Option.bind_eq_some_iff,
      Option.some.injEq] at moved
    obtain ⟨allowed, n, stepped, rfl⟩ := moved
    exact orderly.primary action n allowed inOrder stepped
  | deliver position disk =>
    simp only [SnapshotCluster.step, Option.bind_eq_bind, Option.bind_eq_some_iff, Option.some.injEq] at moved
    obtain ⟨envelope, there, s, here, rfl⟩ := moved
    refine orderly.deliver position disk envelope s there here inOrder _ _ fun item member => ?_
    split_ifs at member
    · simpa using member
    · exact .inr member
  | initiate call now snapshotID =>
    simp only [SnapshotCluster.step, Option.ite_none_right_eq_some, Option.some.injEq] at moved
    obtain ⟨⟨_, unused⟩, rfl⟩ := moved
    exact orderly.initiate call now snapshotID _ inOrder (by simpa using unused)
  | sendMarker call id now =>
    simp only [SnapshotCluster.step, Option.bind_eq_bind, Option.bind_eq_some_iff, Option.ite_none_right_eq_some,
      Option.some.injEq] at moved
    obtain ⟨init, there, s, here, pending, rfl⟩ := moved
    refine orderly.marked call init id there _ fun record member => ?_
    rcases List.mem_cons.mp member with rfl | earlier
    · have ahead := orderly.ahead call init there
      refine .inr ⟨rfl, fun position reflected => ?_, ahead.behind id pending s here⟩
      exact ahead.unseen id pending position ((c.mem_reflects id position).mp reflected)
    · exact .inl earlier
  | lose call id =>
    simp only [SnapshotCluster.step, Option.bind_eq_bind, Option.bind_eq_some_iff, Option.some.injEq] at moved
    obtain ⟨init, there, rfl⟩ := moved
    exact orderly.marked call init id there c.recorded fun record member => .inl member

theorem start_orderly {primary : Server}
    (behind : ∀ id s, backup id = some s → s.commitIndex ≤ primary.commitIndex) : (start primary backup).Orderly where
  announced := by simp [start]
  behind := behind
  arrived := by simp [start]
  ahead call init there := by cases there
  distinct call other init second there := by cases there
  origin := by simp [start]
  consistent call init there := by cases there

end SnapshotCluster

theorem snapshots_are_consistent_cuts [LogCodec] (primary : Server) (backup : String → Option Server)
    (behind : ∀ id s, backup id = some s → s.commitIndex ≤ primary.commitIndex) (actions : List CutAction)
    (final : SnapshotCluster)
    (inOrder : Transition.Meets SnapshotCluster.step SnapshotCluster.InOrder (.start primary backup) actions)
    (reached : Transition.run SnapshotCluster.step (.start primary backup) actions = some final) :
    final.Consistent :=
  (Transition.run_invariant SnapshotCluster.InOrder SnapshotCluster.Orderly
    (fun _ action _ orderly inOrder moved => orderly.step action inOrder moved) (.start primary backup)
    (SnapshotCluster.start_orderly behind) actions inOrder reached).consistent

def openedOfTwo : Server := (firstOpened.sendHeartbeat 0 ⟨"2", 0⟩).1

def onlySecond (id : String) : Option Server := if id = "2" then some freshBackup else none

def replicatedClose : List CutAction :=
  closeToAppend.map .primary ++ [.primary (.handler 0 .send), .primary (.handler 0 .count), .deliver 0 {},
    .primary (.handler 0 (.ack "2" true)), .primary (.handler 0 (.commit fun _ => .ok)),
    .primary (.handler 0 (.notify "2")), .deliver 2 {}]

def SnapshotCluster.indexes (c : SnapshotCluster) (call : Nat) : Option Nat × List (Nat × List Nat) :=
  ((c.initiated.lookup call).map fun init => init.snapshot.commitIndex,
    c.recorded.map fun record => (record.snapshot.commitIndex, record.reflects))

def inOrderStep (c : SnapshotCluster) : CutAction → Bool
  | .deliver position _ => (c.sent[position]?).all fun envelope =>
      c.initiated.entries.all fun item => position < item.2.sentBefore || envelope.target ∉ item.2.markers
  | .initiate _ _ snapshotID => c.initiated.entries.all fun item => item.2.snapshot.snapshotID ≠ snapshotID
  | .primary (.handler id (.commit _)) => (c.primary.handlers id).all fun h =>
      h.stage.entry.all fun entry => c.primary.server.commitIndex ≤ entry.index.toNat
  | _ => true

theorem inOrderStep_inOrder {c : SnapshotCluster} {action : CutAction} (checked : inOrderStep c action = true) :
    c.InOrder action := by
  unfold inOrderStep at checked
  split at checked
  case h_1 position disk =>
    intro envelope there call init found late pending
    simp only [there] at checked
    have each := List.all_eq_true.mp checked ⟨call, init⟩ (AList.mem_lookup_iff.mp found)
    simp [pending] at each
    omega
  case h_2 call now snapshotID =>
    intro other init found
    simpa using List.all_eq_true.mp checked ⟨other, init⟩ (AList.mem_lookup_iff.mp found)
  case h_3 id io =>
    intro h entry here logged
    simpa [here, logged] using checked
  case h_4 deliver initiate commit =>
    unfold SnapshotCluster.InOrder
    split
    case h_1 position disk => exact (deliver position disk rfl).elim
    case h_2 call now snapshotID => exact (initiate call now snapshotID rfl).elim
    case h_3 id io => exact (commit id io rfl).elim
    case h_4 => trivial

theorem snapshots_around_close_consistent :
    ∃ final, Transition.run SnapshotCluster.step (.start openedOfTwo onlySecond)
        ([.initiate 0 0 "s", .sendMarker 0 "2" 0] ++ replicatedClose ++ [.initiate 1 0 "t", .sendMarker 1 "2" 0]) =
          some final ∧ final.Consistent ∧ final.indexes 1 = (some 1, [(1, [2, 0]), (0, [])]) := by
  have outcome : (Transition.run SnapshotCluster.step (.start openedOfTwo onlySecond)
      ([.initiate 0 0 "s", .sendMarker 0 "2" 0] ++ replicatedClose ++ [.initiate 1 0 "t", .sendMarker 1 "2" 0])).map
        (fun final => final.indexes 1) = some (some 1, [(1, [2, 0]), (0, [])]) ∧
      Transition.check SnapshotCluster.step inOrderStep (.start openedOfTwo onlySecond) ([.initiate 0 0 "s",
        .sendMarker 0 "2" 0] ++ replicatedClose ++ [.initiate 1 0 "t", .sendMarker 1 "2" 0]) = true := by decide +kernel
  obtain ⟨outcome, checked⟩ := outcome
  obtain ⟨final, reached, indexes⟩ := Option.map_eq_some_iff.mp outcome
  have behind (id : String) (s : Server) (here : onlySecond id = some s) : s.commitIndex ≤ openedOfTwo.commitIndex := by
    unfold onlySecond at here
    split_ifs at here
    cases here
    decide +kernel
  have inOrder := Transition.meets_of_check SnapshotCluster.step SnapshotCluster.InOrder inOrderStep
    (fun c action _ checked => inOrderStep_inOrder checked) checked
  exact ⟨final, reached, snapshots_are_consistent_cuts openedOfTwo onlySecond behind _ final inOrder reached, indexes⟩

-- Both requests of a Close, sent after the primary has recorded its state, overtake the marker: the backup records
-- commit index 1 where the primary has recorded 0.
theorem requests_overtake_marker :
    ∃ final, Transition.run SnapshotCluster.step (.start openedOfTwo onlySecond)
        (.initiate 0 0 "s" :: replicatedClose ++ [.sendMarker 0 "2" 0]) = some final ∧
      final.indexes 0 = (some 0, [(1, [2, 0])]) ∧ ¬final.Consistent := by
  have outcome : (Transition.run SnapshotCluster.step (.start openedOfTwo onlySecond)
      (.initiate 0 0 "s" :: replicatedClose ++ [.sendMarker 0 "2" 0])).map (fun final =>
        (final.indexes 0, (final.initiated.lookup 0).map fun init => init.snapshot.snapshotID,
          final.recorded.map fun record => record.snapshot.snapshotID)) =
      some ((some 0, [(1, [2, 0])]), some "s", ["s"]) := by decide +kernel
  obtain ⟨final, reached, facts⟩ := Option.map_eq_some_iff.mp outcome
  simp only [Prod.mk.injEq, SnapshotCluster.indexes, Option.map_eq_some_iff] at facts
  obtain ⟨⟨⟨init, there, commitIndex⟩, records⟩, ⟨second, again, name⟩, names⟩ := facts
  refine ⟨final, reached, by simp [SnapshotCluster.indexes, there, commitIndex, records], fun consistent => ?_⟩
  obtain ⟨record, single, recorded⟩ := List.map_eq_singleton_iff.mp records
  rw [single, List.map_singleton, List.cons.injEq] at names
  have same : second = init := by simpa [again] using there
  have cut := (consistent 0 init there record (by simp [single]) (by rw [names.1, ← same, name])).2
  have late : record.snapshot.commitIndex = 1 := congrArg Prod.fst recorded
  omega

end Ikkat
