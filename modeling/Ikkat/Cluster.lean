import Ikkat.Handlers

set_option autoImplicit false

namespace Ikkat

variable {n : Node}

structure Envelope where
  source : String
  handler : Nat
  target : String
  request : AppendEntriesRequest
  deriving DecidableEq, Repr

-- What has been sent stays on the way: a message may arrive late, twice or never. `acked` holds the
-- Success answers to AppendEntries, `verdicts` the answers to heartbeats.
structure Cluster where
  node : String → Option Node
  sent : List Envelope
  acked : List (String × Nat × String)
  beats : List (String × String)
  verdicts : List (String × Bool)

inductive ClusterAction where
  | start (id rootDir : String) (tree : Tree) (logFile : Bytes) (io : Nat → ApplyIO) (now : Time) (port : String)
  | act (id : String) (action : NodeAction)
  | deliver (envelope : Envelope) (disk : DiskIO)
  | round (id : String)
  | beat (sender receiver : String) (now timestamp : Time)
  | reply (sender : String) (success : Bool)

def Node.emitted (n : Node) (id : String) : NodeAction → List Envelope
  | .handler handler action =>
      match n.handlers handler with
      | none => []
      | some h => (h.outgoing n.server action).map fun item => ⟨id, handler, item.1, item.2⟩
  | _ => []

theorem Node.emitted_request {id : String} {action : NodeAction} {envelope : Envelope}
    (member : envelope ∈ n.emitted id action) :
    ∃ h entry, n.handlers envelope.handler = some h ∧ h.stage.entry = some entry ∧ envelope.source = id ∧
      envelope.request = sendAppendEntry n.server.id entry n.server.commitIndex := by
  unfold Node.emitted at member
  split at member
  case h_2 => cases member
  case h_1 handler step =>
    split at member
    case h_1 => cases member
    case h_2 h here =>
      obtain ⟨⟨peer, request⟩, inside, rfl⟩ := List.mem_map.mp member
      unfold Handler.outgoing at inside
      split at inside
      case h_1 primes entry stage =>
        obtain ⟨target, _, same⟩ := List.mem_map.mp inside
        exact ⟨h, entry, here, by rw [stage]; rfl, rfl, (congrArg Prod.snd same).symm⟩
      case h_2 primes entry unsent target stage =>
        rw [List.mem_singleton] at inside
        exact ⟨h, entry, here, by rw [stage]; rfl, rfl, congrArg Prod.snd inside⟩
      case h_3 => cases inside

namespace Cluster

def empty : Cluster := ⟨fun _ => none, [], [], [], []⟩

def put (c : Cluster) (id : String) (n : Node) : Cluster :=
  { c with node := Function.update c.node id (some n) }

@[simp] theorem put_self (c : Cluster) (id : String) (n : Node) : (c.put id n).node id = some n :=
  Function.update_self ..

theorem put_other (c : Cluster) {id other : String} (n : Node) (different : other ≠ id) :
    (c.put id n).node other = c.node other :=
  Function.update_of_ne different ..

def enabled (c : Cluster) (id : String) : NodeAction → Bool
  | .appendEntries _ _ => false
  | .sendHeartbeat _ _ => false
  | .heartbeatReply _ => false
  | .handler handler (.ack peer true) => (id, handler, peer) ∈ c.acked
  | _ => true

variable [LogCodec]

-- All servers are started from the same static map.
def step (config : Map String ServerInfo) (c : Cluster) : ClusterAction → Option Cluster
  | .start id rootDir tree logFile io now port =>
      if (c.node id).isSome then none
      else some (c.put id (.start ((newServer id rootDir config tree logFile).startServer io now port)))
  | .act id action =>
      if c.enabled id action then do
        let n ← c.node id
        let next ← n.step action
        some { c.put id next with sent := n.emitted id action ++ c.sent }
      else none
  | .deliver envelope disk =>
      if envelope ∈ c.sent then do
        let n ← c.node envelope.target
        some { c.put envelope.target { n with server := (n.server.appendEntries disk envelope.request).1 } with
               acked := (envelope.source, envelope.handler, envelope.target) :: c.acked }
      else none
  | .round id => do
      let n ← c.node id
      if n.server.id = n.server.primaryID then
        some { c with beats := n.server.peerIDs.map (fun peer => (id, peer)) ++ c.beats }
      else none
  | .beat sender receiver now timestamp =>
      if (sender, receiver) ∈ c.beats then do
        let n ← c.node receiver
        let heard := n.server.sendHeartbeat now ⟨sender, timestamp⟩
        some { c.put receiver { n with server := heard.1 } with verdicts := (sender, heard.2) :: c.verdicts }
      else none
  | .reply sender success =>
      if (sender, success) ∈ c.verdicts then do
        let n ← c.node sender
        some (c.put sender { n with server := n.server.heartbeatReply success })
      else none

end Cluster

inductive ClusterEffect [LogCodec] (config : Map String ServerInfo) (c : Cluster) :
    ClusterAction → Cluster → Prop where
  | start (id rootDir : String) (tree : Tree) (logFile : Bytes) (io : Nat → ApplyIO) (now : Time) (port : String)
      (down : c.node id = none) :
      ClusterEffect config c (.start id rootDir tree logFile io now port)
        (c.put id (.start ((newServer id rootDir config tree logFile).startServer io now port)))
  | act (id : String) (action : NodeAction) (n next : Node) (enabled : c.enabled id action = true)
      (here : c.node id = some n) (stepped : n.step action = some next) :
      ClusterEffect config c (.act id action) { c.put id next with sent := n.emitted id action ++ c.sent }
  | deliver (envelope : Envelope) (disk : DiskIO) (n : Node) (sent : envelope ∈ c.sent)
      (here : c.node envelope.target = some n) :
      ClusterEffect config c (.deliver envelope disk)
        { c.put envelope.target { n with server := (n.server.appendEntries disk envelope.request).1 } with
          acked := (envelope.source, envelope.handler, envelope.target) :: c.acked }
  | round (id : String) (n : Node) (here : c.node id = some n) (leads : n.server.id = n.server.primaryID) :
      ClusterEffect config c (.round id)
        { c with beats := n.server.peerIDs.map (fun peer => (id, peer)) ++ c.beats }
  | beat (sender receiver : String) (now timestamp : Time) (n : Node) (sent : (sender, receiver) ∈ c.beats)
      (here : c.node receiver = some n) :
      ClusterEffect config c (.beat sender receiver now timestamp)
        { c.put receiver { n with server := (n.server.sendHeartbeat now ⟨sender, timestamp⟩).1 } with
          verdicts := (sender, (n.server.sendHeartbeat now ⟨sender, timestamp⟩).2) :: c.verdicts }
  | reply (sender : String) (success : Bool) (n : Node) (sent : (sender, success) ∈ c.verdicts)
      (here : c.node sender = some n) :
      ClusterEffect config c (.reply sender success)
        (c.put sender { n with server := n.server.heartbeatReply success })

theorem Cluster.step_effect [LogCodec] (config : Map String ServerInfo) (c next : Cluster)
    (action : ClusterAction) (stepped : c.step config action = some next) :
    ClusterEffect config c action next := by
  cases action <;> simp only [step, Option.ite_none_left_eq_some, Option.ite_none_right_eq_some, Option.bind_eq_bind,
    Option.bind_eq_some_iff, Option.some.injEq] at stepped
  case start id rootDir tree logFile io now port =>
    obtain ⟨down, rfl⟩ := stepped
    exact .start id rootDir tree logFile io now port (by simpa using down)
  case act id action =>
    obtain ⟨allowed, n, here, after, moved, rfl⟩ := stepped
    exact .act id action n after allowed here moved
  case deliver envelope disk =>
    obtain ⟨sent, n, here, rfl⟩ := stepped
    exact .deliver envelope disk n sent here
  case round id =>
    obtain ⟨n, here, leads, rfl⟩ := stepped
    exact .round id n here leads
  case beat sender receiver now timestamp =>
    obtain ⟨sent, n, here, rfl⟩ := stepped
    exact .beat sender receiver now timestamp n sent here
  case reply sender success =>
    obtain ⟨sent, n, here, rfl⟩ := stepped
    exact .reply sender success n sent here

structure KeepsView (s next : Server) : Prop where
  id : next.id = s.id
  rootDir : next.rootDir = s.rootDir
  role : next.role = s.role
  primaryID : next.primaryID = s.primaryID
  servers : next.servers = s.servers

theorem Keeps.view {s next : Server} (keeps : Keeps s next) : KeepsView s next :=
  ⟨keeps.id, keeps.rootDir, keeps.role, keeps.primaryID, keeps.servers⟩

theorem HandlerEffect.view {s next : Server} {h : Handler} {action : HandlerStep} {stage : Stage}
    (effect : HandlerEffect s h action next stage) : KeepsView s next := by
  cases effect with
  | quiet _ _ _ still | finish _ _ _ still => exact still.keeps.view
  | _ => exact ⟨rfl, rfl, rfl, rfl, rfl⟩

section View

variable [LogCodec]

theorem appendEntries_view (disk : DiskIO) (s : Server) (req : AppendEntriesRequest) :
    KeepsView s (s.appendEntries disk req).1 := by
  obtain ⟨logFile, same⟩ := appendEntries_eq disk s req
  rw [same]
  exact ⟨rfl, rfl, rfl, rfl, rfl⟩

theorem applyUpdate_view (disk : DiskIO) (s : Server) (msg : UpdateMessage) :
    KeepsView s (s.applyUpdate disk msg).1 := by
  have entries (entries : List PbLogEntry) (s : Server) : KeepsView s (s.receiveLog disk entries).1 := by
    induction entries generalizing s with
    | nil => exact ⟨rfl, rfl, rfl, rfl, rfl⟩
    | cons e rest ih =>
      unfold Server.receiveLog
      split_ifs
      · exact ih s
      · exact ⟨rfl, rfl, rfl, rfl, rfl⟩
      · obtain ⟨logFile, same⟩ := appendLog_eq (disk.persist s.log.length) s e.received
        rw [same]
        have rest := ih { s with log := s.log ++ [e.received], logFile := logFile }
        exact ⟨rest.id, rest.rootDir, rest.role, rest.primaryID, rest.servers⟩
  unfold Server.applyUpdate
  split_ifs
  · have files := (Server.receiveFiles_keeps disk 0
      { s with log := [], commitIndex := 0, lastApplied := 0 } msg.fullFiles).view
    exact ⟨files.id, files.rootDir, files.role, files.primaryID, files.servers⟩
  · exact entries msg.logEntries s

theorem Node.step_view {next : Node} {action : NodeAction} (stepped : n.step action = some next)
    (beat : ∀ now req, action ≠ .sendHeartbeat now req) (reply : ∀ success, action ≠ .heartbeatReply success)
    (monitor : ∀ now, action ≠ .monitorPrimary now) : KeepsView n.server next.server := by
  cases action with
  | create env req =>
    obtain ⟨s, answer, sent, handled, rfl⟩ := Node.handle_returned stepped
    exact (Server.create_keeps handled).view
  | openFile env req =>
    obtain ⟨s, answer, sent, handled, rfl⟩ := Node.handle_returned stepped
    exact (Server.openFile_keeps handled).view
  | begin id kind now req =>
    rcases n.begin_cases next id kind now req stepped with rfl | ⟨_, _, _, _, _, rfl⟩ <;>
      exact ⟨rfl, rfl, rfl, rfl, rfl⟩
  | handler id action =>
    obtain ⟨h, server, stage, _, _, effect, rfl⟩ := Node.handlerStep_cases stepped
    exact effect.view
  | appendEntries disk req =>
    cases stepped
    exact appendEntries_view disk n.server req
  | applyUpdate disk msg =>
    cases stepped
    exact applyUpdate_view disk n.server msg
  | sendHeartbeat now req => exact absurd rfl (beat now req)
  | heartbeatReply success => exact absurd rfl (reply success)
  | monitorPrimary now => exact absurd rfl (monitor now)
  | rebuild =>
    cases stepped
    exact n.server.rebuildAllPrimeSets_keeps.view

end View

namespace Cluster

def AtMostOnePrimary (c : Cluster) : Prop :=
  ∀ left right first second, c.node left = some first → c.node right = some second →
    first.server.role = .primary → second.server.role = .primary → left = right

structure Alone (c : Cluster) : Prop where
  single : ∀ left right, (c.node left).isSome → (c.node right).isSome → left = right
  leads : ∀ id n, c.node id = some n → n.server.id = id ∧ n.server.role = .primary ∧ n.server.primaryID = id
  beats : ∀ beat ∈ c.beats, beat.1 ≠ beat.2 ∧ (c.node beat.1).isSome
  verdicts : c.verdicts = []

def StartsAlone (c : Cluster) : ClusterAction → Prop
  | .start _ _ _ _ _ _ _ => ∀ id, c.node id = none
  | _ => True

theorem alone_put {c next : Cluster} (alone : c.Alone) {id : String} {after : Node} (here : c.node id = some n)
    (node : next.node = (c.put id after).node) (view : KeepsView n.server after.server)
    (beats : next.beats = c.beats) (verdicts : next.verdicts = c.verdicts) : next.Alone := by
  have up (other : String) : (next.node other).isSome ↔ (c.node other).isSome := by
    rw [node]
    rcases eq_or_ne other id with rfl | different
    · simp [here]
    · rw [c.put_other after different]
  refine ⟨fun left right one two => alone.single left right ((up left).mp one) ((up right).mp two), ?_, ?_, ?_⟩
  · intro other m found
    rw [node] at found
    rcases update_cases found with ⟨rfl, rfl⟩ | ⟨_, found⟩
    · rw [view.id, view.role, view.primaryID]
      exact alone.leads other n here
    · exact alone.leads other m found
  · intro beat member
    rw [beats] at member
    exact ⟨(alone.beats beat member).1, (up beat.1).mpr (alone.beats beat member).2⟩
  · rw [verdicts, alone.verdicts]

end Cluster

theorem electPrimary_only (own : String) (infos : List ServerInfo) (leader : String)
    (only : ∀ info ∈ infos, info.alive = true → info.id = own)
    (some_ : leader = own ∨ leader = "" ∧ ∃ info ∈ infos, info.alive = true) :
    infos.foldl (fun leader info =>
      if !info.alive then leader else if leader = "" ∨ info.id < leader then info.id else leader) leader = own := by
  induction infos generalizing leader with
  | nil => simpa using some_
  | cons info rest ih =>
    have later : ∀ other ∈ rest, other.alive = true → other.id = own :=
      fun other member => only other (by simp [member])
    rw [List.foldl_cons]
    refine ih _ later ?_
    cases alive : info.alive with
    | false =>
      rcases some_ with own | ⟨none, other, member, up⟩
      · exact .inl (by simpa using own)
      · refine .inr ⟨by simpa using none, other, ?_, up⟩
        rcases List.mem_cons.mp member with rfl | inside
        · rw [alive] at up
          cases up
        · exact inside
    | true =>
      have same := only info (by simp) alive
      left
      simp only [Bool.not_true, Bool.false_eq_true, if_false]
      split_ifs with better
      · exact same
      · rcases some_ with own | ⟨none, _⟩
        · exact own
        · exact absurd (.inl none) better

section Start

variable [LogCodec] (config : Map String ServerInfo) (asleep : ∀ item ∈ config.entries, item.2.alive = false)

include asleep

theorem startServer_leads (id rootDir : String) (tree : Tree) (logFile : Bytes) (io : Nat → ApplyIO)
    (now : Time) (port : String) :
    let s := (newServer id rootDir config tree logFile).startServer io now port
    s.id = id ∧ s.role = .primary ∧ s.primaryID = id := by
  obtain ⟨commitIndex, lastApplied, filesPrimes, same⟩ :=
    (newServer id rootDir config tree logFile).startServer_eq io now port
  intro s
  have elected : electPrimary ((config.insert id
      ((newServer id rootDir config tree logFile).ownInfo now port)).entries.map fun item => item.2) = id := by
    refine electPrimary_only id _ "" ?_ (.inr ⟨rfl, ?_⟩)
    · intro info member alive
      obtain ⟨⟨key, value⟩, inside, rfl⟩ := List.mem_map.mp member
      have found := AList.mem_lookup_iff.mpr inside
      by_cases own : key = id
      · subst own
        rw [AList.lookup_insert, Option.mem_some_iff] at found
        exact found ▸ rfl
      · rw [AList.lookup_insert_ne own] at found
        have dead := asleep ⟨key, value⟩ (AList.mem_lookup_iff.mp found)
        rw [dead] at alive
        cases alive
    · have own := AList.lookup_insert (a := id)
        (b := (newServer id rootDir config tree logFile).ownInfo now port) config
      exact ⟨_, List.mem_map_of_mem (f := fun item => item.2) (AList.mem_lookup_iff.mp own), rfl⟩
  have state : s = Server.elect _ := same
  rw [state]
  refine ⟨rfl, ?_, elected⟩
  exact if_pos elected.symm

namespace Cluster

theorem starts_alone_iff (c next : Cluster) (alone : c.Alone) (action : ClusterAction)
    (stepped : c.step config action = some next) : next.AtMostOnePrimary ↔ c.StartsAlone action := by
  have same (id : String) (n : Node) (after : Cluster)
      (node : after.node = Function.update c.node id (some n)) (up : (c.node id).isSome) :
      after.AtMostOnePrimary := by
    intro left right first second here there _ _
    have started (other : String) (m : Node) (found : after.node other = some m) : (c.node other).isSome := by
      rw [node] at found
      rcases eq_or_ne other id with rfl | different
      · exact up
      · rw [Function.update_of_ne different] at found
        simp [found]
    exact alone.single left right (started left first here) (started right second there)
  cases c.step_effect config next action stepped with
  | start id rootDir tree logFile io now port down =>
    have leads := startServer_leads config asleep id rootDir tree logFile io now port
    constructor
    · intro most other
      by_contra up
      obtain ⟨n, here⟩ := Option.ne_none_iff_exists'.mp up
      have different : other ≠ id := fun equal => up (equal ▸ down)
      refine different (most other id n _ ?_ (c.put_self ..) (alone.leads other n here).2.1 leads.2.1)
      rw [c.put_other _ different, here]
    · intro nobody left right first second here there _ _
      have only (other : String) (m : Node)
          (found : (c.put id (.start ((newServer id rootDir config tree logFile).startServer io now port))).node other =
            some m) : other = id := by
        by_contra different
        rw [c.put_other _ different, nobody other] at found
        cases found
      rw [only left first here, only right second there]
  | act id action n after enabled here moved =>
    exact iff_of_true (same id after _ rfl (by simp [here])) trivial
  | deliver envelope disk n sent here =>
    exact iff_of_true (same envelope.target _ _ rfl (by simp [here])) trivial
  | round id n here leads =>
    refine iff_of_true (same id n _ ?_ (by simp [here])) trivial
    rw [← here, Function.update_eq_self]
  | beat sender receiver now timestamp n sent here =>
    exact iff_of_true (same receiver _ _ rfl (by simp [here])) trivial
  | reply sender success n sent here =>
    exact iff_of_true (same sender _ _ rfl (by simp [here])) trivial

omit asleep in
theorem alone_act (c : Cluster) (alone : c.Alone) (id : String) (action : NodeAction) (n after : Node)
    (enabled : c.enabled id action = true) (here : c.node id = some n) (moved : n.step action = some after) :
    KeepsView n.server after.server := by
  by_cases monitor : ∃ now, action = .monitorPrimary now
  · obtain ⟨now, rfl⟩ := monitor
    obtain ⟨own, _, leads⟩ := alone.leads id n here
    cases moved
    have nothing : n.server.monitorPrimary now = n.server := if_pos (own.trans leads.symm)
    rw [nothing]
    exact ⟨rfl, rfl, rfl, rfl, rfl⟩
  · refine Node.step_view moved ?_ ?_ fun now same => monitor ⟨now, same⟩
    · rintro now req rfl
      cases enabled
    · rintro success rfl
      cases enabled

theorem alone_step (c next : Cluster) (alone : c.Alone) (action : ClusterAction)
    (most : next.AtMostOnePrimary) (stepped : c.step config action = some next) : next.Alone := by
  have starts := (starts_alone_iff config asleep c next alone action stepped).mp most
  cases c.step_effect config next action stepped with
  | start id rootDir tree logFile io now port down =>
    have leads := startServer_leads config asleep id rootDir tree logFile io now port
    have only (other : String) (up : ((c.put id (.start
        ((newServer id rootDir config tree logFile).startServer io now port))).node other).isSome) :
        other = id := by
      by_contra different
      rw [c.put_other _ different, starts other] at up
      cases up
    refine ⟨fun left right one two => (only left one).trans (only right two).symm, ?_, ?_, alone.verdicts⟩
    · intro other n here
      obtain rfl := only other (by simp [here])
      rw [put_self, Option.some.injEq] at here
      exact here ▸ leads
    · intro beat member
      have up := (alone.beats beat member).2
      rw [starts beat.1] at up
      cases up
  | act id action n after enabled here moved =>
    exact alone_put alone here rfl (alone_act c alone id action n after enabled here moved) rfl rfl
  | deliver envelope disk n sent here =>
    exact alone_put alone here rfl (appendEntries_view disk n.server envelope.request)
      rfl rfl
  | round id n here leads =>
    refine ⟨alone.single, alone.leads, ?_, alone.verdicts⟩
    intro beat member
    rcases List.mem_append.mp member with new | old
    · obtain ⟨peer, inside, rfl⟩ := List.mem_map.mp new
      refine ⟨?_, by simp [here]⟩
      obtain ⟨info, listed, rfl⟩ := List.mem_map.mp inside
      have other := (List.mem_filter.mp listed).2
      rw [← (alone.leads id n here).1]
      exact fun same => absurd same.symm (by simpa using other)
    · exact alone.beats beat old
  | beat sender receiver now timestamp n sent here =>
    obtain ⟨different, up⟩ := alone.beats _ sent
    exact absurd (alone.single sender receiver up (by simp [here])) different
  | reply sender success n sent here =>
    rw [alone.verdicts] at sent
    cases sent

end Cluster

end Start

theorem at_most_one_primary_iff [LogCodec] (config : Map String ServerInfo)
    (asleep : ∀ item ∈ config.entries, item.2.alive = false) (actions : List ClusterAction) (final : Cluster)
    (reached : Transition.run (Cluster.step config) Cluster.empty actions = some final) :
    Transition.Everywhere (Cluster.step config) Cluster.AtMostOnePrimary Cluster.empty actions ↔
      Transition.Meets (Cluster.step config) Cluster.StartsAlone Cluster.empty actions := by
  have nobody : Cluster.empty.AtMostOnePrimary := by
    intro left right first second here
    cases here
  refine Transition.everywhere_iff_meets Cluster.StartsAlone Cluster.Alone ?_ ?_ _ ?_ nobody
    actions reached
  · intro c action next alone _ most stepped
    exact Cluster.alone_step config asleep c next alone action most stepped
  · intro c action next alone _ stepped
    exact Cluster.starts_alone_iff config asleep c next alone action stepped
  · exact ⟨by simp [Cluster.empty], by simp [Cluster.empty], by simp [Cluster.empty], rfl⟩

def startFresh (id port : String) : ClusterAction := .start id ("storage_" ++ id) .empty [] (fun _ => .ok) 0 port

theorem mainServers_asleep : ∀ item ∈ mainServers.entries, item.2.alive = false := by decide

def firstAlone : List ClusterAction := [startFresh "1" "5001", .round "1", .act "1" (.monitorPrimary (9 * second))]

theorem one_server_is_only_primary :
    ∃ final, Transition.run (Cluster.step mainServers) Cluster.empty firstAlone = some final ∧
      Transition.Meets (Cluster.step mainServers) Cluster.StartsAlone Cluster.empty firstAlone ∧
      Transition.Everywhere (Cluster.step mainServers) Cluster.AtMostOnePrimary Cluster.empty firstAlone := by
  have alone : Transition.Meets (Cluster.step mainServers) Cluster.StartsAlone Cluster.empty firstAlone :=
    ⟨fun _ => rfl, fun _ _ => ⟨trivial, fun _ _ => ⟨trivial, fun _ _ => trivial⟩⟩⟩
  exact ⟨_, rfl, alone, (at_most_one_primary_iff mainServers mainServers_asleep _ _ rfl).mpr alone⟩

theorem two_started_servers_lead :
    ∃ final, Transition.run (Cluster.step mainServers) Cluster.empty
        [startFresh "1" "5001", startFresh "2" "5002"] = some final ∧ ¬ final.AtMostOnePrimary := by
  have roles : (Transition.run (Cluster.step mainServers) Cluster.empty
      [startFresh "1" "5001", startFresh "2" "5002"]).map (fun c =>
        ((c.node "1").map fun n => n.server.role, (c.node "2").map fun n => n.server.role)) =
      some (some .primary, some .primary) := by
    decide +kernel
  obtain ⟨final, reached, both⟩ := Option.map_eq_some_iff.mp roles
  obtain ⟨one, two⟩ := Prod.mk.inj both
  obtain ⟨first, here, leads⟩ := Option.map_eq_some_iff.mp one
  obtain ⟨second, there, follows⟩ := Option.map_eq_some_iff.mp two
  refine ⟨final, reached, fun most => ?_⟩
  exact absurd (most "1" "2" first second here there leads follows) (by decide)

end Ikkat
