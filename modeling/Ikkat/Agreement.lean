import Ikkat.CommitQuorum
import Ikkat.Committed

set_option autoImplicit false

namespace Ikkat

variable {c next : Cluster} {h : Handler} {config : Map String ServerInfo} {handler : Nat} {n after : Node}
variable {s : Server}

def configured (config : Map String ServerInfo) : Finset String := config.keys.toFinset

structure Keyed (config servers : Map String ServerInfo) : Prop where
  keys : servers.keys.toFinset = configured config
  ids : ∀ key info, servers.lookup key = some info → info.id = key

theorem keyed_insert {servers : Map String ServerInfo} (keyed : Keyed config servers) {id : String}
    {info : ServerInfo} (own : info.id = id) (member : id ∈ configured config) :
    Keyed config (servers.insert id info) where
  keys := by
    rw [← keyed.keys] at member ⊢
    ext key
    rw [List.mem_toFinset] at member
    rw [List.mem_toFinset, ← AList.mem_keys, AList.mem_insert, List.mem_toFinset]
    exact ⟨fun either => either.elim (fun same => same ▸ member) (fun old => old), .inr⟩
  ids := by
    intro key found present
    rcases eq_or_ne key id with rfl | different
    · rw [AList.lookup_insert, Option.some.injEq] at present
      exact present ▸ own
    · rw [AList.lookup_insert_ne different] at present
      exact keyed.ids key found present

namespace Server

variable (config : Map String ServerInfo)

theorem infos_ids (keyed : Keyed config s.servers) : s.infos.map ServerInfo.id = s.servers.keys := by
  unfold infos AList.keys List.keys
  rw [List.map_map]
  refine List.map_congr_left fun item inside => ?_
  exact keyed.ids item.1 item.2 (AList.mem_lookup_iff.mpr inside)

theorem peerIDs_spec (s : Server) (keyed : Keyed config s.servers) :
    s.peerIDs.Nodup ∧ ∀ peer ∈ s.peerIDs, peer ≠ s.id ∧ peer ∈ configured config := by
  have inside : s.peerIDs.Sublist s.servers.keys := by
    rw [← infos_ids config keyed]
    exact (List.filter_sublist).map ServerInfo.id
  refine ⟨inside.nodup s.servers.keys_nodup, fun peer member => ⟨?_, ?_⟩⟩
  · obtain ⟨info, listed, rfl⟩ := List.mem_map.mp member
    simpa using (List.mem_filter.mp listed).2
  · rw [← keyed.keys, List.mem_toFinset]
    exact inside.subset member

theorem servers_length (s : Server) (keyed : Keyed config s.servers) :
    s.servers.entries.length = (configured config).card := by
  rw [← s.members_card, members, keyed.keys]

theorem keyed_sendHeartbeat (now : Time) {req : Heartbeat} (keyed : Keyed config s.servers)
    (member : req.primaryId ∈ configured config) : Keyed config (s.sendHeartbeat now req).1.servers := by
  have marked : Keyed config (s.markAlive req).servers := by
    unfold markAlive
    split
    case h_1 => exact keyed_insert keyed rfl member
    case h_2 info present =>
      exact keyed_insert keyed (keyed.ids req.primaryId info present) member
  unfold sendHeartbeat
  dsimp only
  split_ifs <;> exact marked

theorem keyed_monitorPrimary (now : Time) (s : Server) (keyed : Keyed config s.servers) :
    Keyed config (s.monitorPrimary now).servers := by
  rcases s.monitorPrimary_cases now with same | ⟨_, _, same⟩ <;> rw [same]
  · exact keyed
  · change Keyed config (s.markDead s.primaryID).servers
    unfold markDead
    split
    case h_1 => exact keyed
    case h_2 info present =>
      have member : s.primaryID ∈ configured config := by
        rw [← keyed.keys, List.mem_toFinset, ← AList.mem_keys, ← AList.lookup_isSome, present]
        rfl
      exact keyed_insert keyed (keyed.ids s.primaryID info present) member

end Server

def Cluster.logs (c : Cluster) (id : String) : List LogEntry :=
  match c.node id with
  | none => []
  | some n => n.server.log

theorem Cluster.logs_node (c : Cluster) (id : String) (n : Node) (here : c.node id = some n) :
    c.logs id = n.server.log := by
  simp [logs, here]

structure Extends (n after : Node) : Prop where
  log : n.server.log <+: after.server.log
  entries : ∀ handler h entry, n.handlers handler = some h → h.stage.entry = some entry →
    ∃ later, after.handlers handler = some later ∧ later.stage.entry = some entry

theorem Extends.refl (n : Node) : Extends n n := ⟨List.prefix_rfl, fun _ h _ here stage => ⟨h, here, stage⟩⟩

def Grows (c next : Cluster) : Prop :=
  ∀ id n, c.node id = some n → ∃ after, next.node id = some after ∧ Extends n after

theorem grows_put {id : String} (here : c.node id = some n)
    (node : next.node = (c.put id after).node) (longer : Extends n after) : Grows c next := by
  intro other m there
  rw [node]
  rcases eq_or_ne other id with rfl | different
  · rw [here, Option.some.injEq] at there
    exact ⟨after, c.put_self .., there ▸ longer⟩
  · exact ⟨m, by rw [c.put_other after different, there], .refl m⟩

theorem grows_logs (grows : Grows c next) (id : String) : c.logs id <+: next.logs id := by
  cases here : c.node id with
  | none => simp [Cluster.logs, here]
  | some n =>
    obtain ⟨after, there, longer⟩ := grows id n here
    rw [c.logs_node id n here, next.logs_node id after there]
    exact longer.log

variable {log : List LogEntry}

theorem take_grown {later : List LogEntry} (grown : log <+: later) (count : Nat)
    (within : count ≤ log.length) : later.take count = log.take count := by
  obtain ⟨suffix, rfl⟩ := grown
  rw [List.take_append_of_le_length within]

section Sound

variable (config : Map String ServerInfo) (logs : String → List LogEntry) (acked : List (String × Nat × String))

structure SoundServer (id : String) (s : Server) : Prop where
  named : s.id = id
  member : id ∈ configured config
  keyed : Keyed config s.servers
  short : s.log.length < 2 ^ 31
  commitWithin : s.commitIndex ≤ s.log.length
  commitBacked : Quorum.Backed (configured config) logs (s.log.take s.commitIndex)
  appliedWithin : s.lastApplied ≤ s.log.length
  appliedBacked : Quorum.Backed (configured config) logs (s.log.take s.lastApplied)

structure SoundHandlers (id : String) (n : Node) : Prop where
  logged : ∀ handler h entry, n.handlers handler = some h → h.stage.entry = some entry →
    StoredAt n.server.log entry
  awaited : ∀ handler call primes entry awaiting, n.handlers handler = some ⟨call, .sent primes entry awaiting⟩ →
    awaiting.Nodup ∧ ∀ peer ∈ awaiting, peer ≠ id ∧ peer ∈ configured config
  counted : ∀ handler call primes entry majority awaiting acks,
    n.handlers handler = some ⟨call, .waiting primes entry majority awaiting acks⟩ →
      (configured config).card / 2 + 1 ≤ majority ∧ (awaiting ++ acks).Nodup ∧
        (∀ peer ∈ awaiting ++ acks, peer ≠ id ∧ peer ∈ configured config) ∧
        ∀ peer ∈ acks, (id, handler, peer) ∈ acked

end Sound

theorem soundServer_mono {before after : String → List LogEntry}
    (grown : ∀ node, before node <+: after node) {id : String}
    (sound : SoundServer config before id s) : SoundServer config after id s :=
  { sound with
    commitBacked := Quorum.backed_mono grown sound.commitBacked
    appliedBacked := Quorum.backed_mono grown sound.appliedBacked }

theorem soundHandlers_mono {before after : List (String × Nat × String)}
    (more : before ⊆ after) {id : String} (sound : SoundHandlers config before id n) :
    SoundHandlers config after id n :=
  { sound with
    counted := fun handler call primes entry majority awaiting acks here =>
      let ⟨enough, distinct, peers, known⟩ := sound.counted handler call primes entry majority awaiting acks here
      ⟨enough, distinct, peers, fun peer member => more (known peer member)⟩ }

def Carried (config : Map String ServerInfo) (c : Cluster) (envelope : Envelope) : Prop :=
  ∃ n h entry commit, c.node envelope.source = some n ∧ n.handlers envelope.handler = some h ∧
    h.stage.entry = some entry ∧ envelope.request = sendAppendEntry envelope.source entry commit ∧
    commit ≤ n.server.log.length ∧ Quorum.Backed (configured config) c.logs (n.server.log.take commit)

def Held (c : Cluster) (source : String) (handler : Nat) (peer : String) : Prop :=
  ∃ n h entry, c.node source = some n ∧ n.handlers handler = some h ∧ h.stage.entry = some entry ∧
    entry.index.toNat ≤ n.server.log.length ∧ n.server.log.take entry.index.toNat <+: c.logs peer

theorem carried_mono (config : Map String ServerInfo) (grows : Grows c next)
    (envelope : Envelope) (carried : Carried config c envelope) : Carried config next envelope := by
  obtain ⟨n, h, entry, commit, here, handler, stage, request, within, backed⟩ := carried
  obtain ⟨after, there, longer⟩ := grows envelope.source n here
  obtain ⟨later, stays, same⟩ := longer.entries envelope.handler h entry handler stage
  refine ⟨after, later, entry, commit, there, stays, same, request, within.trans longer.log.length_le, ?_⟩
  rw [take_grown longer.log commit within]
  exact Quorum.backed_mono (grows_logs grows) backed

theorem held_mono (grows : Grows c next) {source : String} {peer : String}
    (held : Held c source handler peer) : Held next source handler peer := by
  obtain ⟨n, h, entry, here, there, stage, within, agrees⟩ := held
  obtain ⟨after, up, longer⟩ := grows source n here
  obtain ⟨later, stays, same⟩ := longer.entries handler h entry there stage
  refine ⟨after, later, entry, up, stays, same, within.trans longer.log.length_le, ?_⟩
  rw [take_grown longer.log _ within]
  exact agrees.trans (grows_logs grows peer)

theorem held_put {target source : String} {m : Node}
    {entry : LogEntry} (here : c.node target = some n) (node : next.node = (c.put target after).node)
    (longer : Extends n after) (there : c.node source = some m) (found : m.handlers handler = some h)
    (stage : h.stage.entry = some entry) (within : entry.index.toNat ≤ m.server.log.length)
    (holds : m.server.log.take entry.index.toNat <+: after.server.log) : Held next source handler target := by
  obtain ⟨later, up, grown⟩ := grows_put here node longer source m there
  obtain ⟨handling, stays, same⟩ := grown.entries handler h entry found stage
  refine ⟨later, handling, entry, up, stays, same, within.trans grown.log.length_le, ?_⟩
  rw [take_grown grown.log _ within, next.logs_node target after (by rw [node, Cluster.put_self])]
  exact holds

structure Replicating (config : Map String ServerInfo) (c : Cluster) : Prop where
  servers : ∀ id n, c.node id = some n → SoundServer config c.logs id n.server
  handlers : ∀ id n, c.node id = some n → SoundHandlers config c.acked id n
  carried : ∀ envelope ∈ c.sent, Carried config c envelope
  held : ∀ source handler peer, (source, handler, peer) ∈ c.acked → Held c source handler peer
  beats : ∀ beat ∈ c.beats, beat.1 ∈ configured config

theorem replicating_put (replicating : Replicating config c)
    {id : String} (here : c.node id = some n) (node : next.node = (c.put id after).node)
    (longer : Extends n after) (server : SoundServer config c.logs id after.server)
    (handlers : SoundHandlers config c.acked id after) (more : c.acked ⊆ next.acked)
    (sent : ∀ envelope ∈ next.sent, envelope ∈ c.sent ∨ Carried config next envelope)
    (acked : ∀ source handler peer, (source, handler, peer) ∈ next.acked →
      (source, handler, peer) ∈ c.acked ∨ Held next source handler peer)
    (beats : next.beats = c.beats) : Replicating config next := by
  have grows := grows_put here node longer
  have grown := grows_logs grows
  have each (other : String) (m : Node) (there : next.node other = some m) :
      SoundServer config c.logs other m.server ∧ SoundHandlers config c.acked other m := by
    rw [node] at there
    rcases update_cases there with ⟨rfl, rfl⟩ | ⟨_, there⟩
    · exact ⟨server, handlers⟩
    · exact ⟨replicating.servers other m there, replicating.handlers other m there⟩
  exact
    { servers := fun other m there => soundServer_mono grown (each other m there).1
      handlers := fun other m there => soundHandlers_mono more (each other m there).2
      carried := fun envelope member => (sent envelope member).elim
        (fun old => carried_mono config grows envelope (replicating.carried envelope old)) (fun new => new)
      held := fun source handler peer member => (acked source handler peer member).elim
        (fun old => held_mono grows (replicating.held source handler peer old)) (fun new => new)
      beats := beats ▸ replicating.beats }

def Server.matchesUpTo (s : Server) (log : List LogEntry) (index commit : Nat) : Bool :=
  index ≤ s.log.length + 1 && commit ≤ max s.log.length index && (s.log.take (max index commit)).isPrefixOf log

namespace Node

-- An entry is appended where its index says, a Write counts on as many servers as Close does, and a
-- full sync finds the log empty.
def matching (config : Map String ServerInfo) (n : Node) : NodeAction → Bool
  | .handler handler (.append _) => n.appendsNext handler && n.server.log.length + 1 < 2 ^ 31
  | .handler handler .count => (n.handlers handler).all fun h =>
      h.call.kind = .close || (configured config).card / 2 ≤ n.server.alive / 2
  | .applyUpdate _ msg => msg.isFullSync && n.server.log = []
  | _ => true

end Node

namespace Cluster

def matching (config : Map String ServerInfo) (c : Cluster) : ClusterAction → Bool
  | .start id _ _ logFile _ _ _ => logFile = [] && id ∈ configured config
  | .act id action => (c.node id).all fun n => n.matching config action
  | .deliver envelope _ =>
      (c.node envelope.target).all fun receiver => (c.node envelope.source).all fun sender =>
        envelope.request.entries.all fun e =>
          receiver.server.matchesUpTo sender.server.log e.received.index.toNat
            envelope.request.leaderCommit.toInt.toNat
  | _ => true

def Matching (config : Map String ServerInfo) (c : Cluster) (action : ClusterAction) : Prop :=
  c.matching config action

def Agreement (c : Cluster) : Prop :=
  ∀ (left right : String) (first second : Node) (position : Nat), c.node left = some first →
    c.node right = some second → position < first.server.lastApplied → position < second.server.lastApplied →
    first.server.log[position]? = second.server.log[position]?

end Cluster

theorem replicating_agreement (replicating : Replicating config c) : c.Agreement := by
  intro left right first second position here there low high
  have one := (replicating.servers left first here).appliedBacked
  have two := (replicating.servers right second there).appliedBacked
  have agree (log other : List LogEntry) (count bound : Nat) (inside : position < count) (outside : position < bound)
      (within : count ≤ log.length) (shorter : log.take count <+: other.take bound) :
      log[position]? = other[position]? := by
    obtain ⟨suffix, same⟩ := shorter
    calc log[position]? = (log.take count ++ suffix)[position]? := by
          rw [List.getElem?_append_left (by rw [List.length_take]; omega), List.getElem?_take_of_lt inside]
      _ = other[position]? := by rw [same, List.getElem?_take_of_lt outside]
  rcases Quorum.backed_comparable one two with shorter | longer
  · exact agree _ _ _ _ low high (replicating.servers left first here).appliedWithin shorter
  · exact (agree _ _ _ _ high low (replicating.servers right second there).appliedWithin longer).symm

section Steps

variable (config : Map String ServerInfo) (logs : String → List LogEntry) (acked : List (String × Nat × String))

theorem soundServer_keeps {id : String} {next : Server} (sound : SoundServer config logs id s)
    (keeps : KeepsLog s next) (keyed : Keyed config next.servers) : SoundServer config logs id next where
  named := keeps.id.trans sound.named
  member := sound.member
  keyed := keyed
  short := by rw [keeps.log]; exact sound.short
  commitWithin := by rw [keeps.log, keeps.commitIndex]; exact sound.commitWithin
  commitBacked := by rw [keeps.log, keeps.commitIndex]; exact sound.commitBacked
  appliedWithin := by rw [keeps.log, keeps.lastApplied]; exact sound.appliedWithin
  appliedBacked := by rw [keeps.log, keeps.lastApplied]; exact sound.appliedBacked

theorem soundHandlers_server {id : String} {server : Server} (sound : SoundHandlers config acked id n)
    (grown : n.server.log <+: server.log) : SoundHandlers config acked id { n with server := server } where
  logged := fun handler h entry here stage => storedAt_mono grown (sound.logged handler h entry here stage)
  awaited := sound.awaited
  counted := sound.counted

theorem soundHandlers_update (id : String) (n : Node) (sound : SoundHandlers config acked id n) (server : Server)
    (grown : n.server.log <+: server.log) (handler : Nat) (h : Handler)
    (logged : ∀ entry, h.stage.entry = some entry → StoredAt server.log entry)
    (awaited : ∀ primes entry awaiting, h.stage = .sent primes entry awaiting →
      awaiting.Nodup ∧ ∀ peer ∈ awaiting, peer ≠ id ∧ peer ∈ configured config)
    (counted : ∀ primes entry majority awaiting acks, h.stage = .waiting primes entry majority awaiting acks →
      (configured config).card / 2 + 1 ≤ majority ∧ (awaiting ++ acks).Nodup ∧
        (∀ peer ∈ awaiting ++ acks, peer ≠ id ∧ peer ∈ configured config) ∧
        ∀ peer ∈ acks, (id, handler, peer) ∈ acked) :
    SoundHandlers config acked id ⟨server, Function.update n.handlers handler (some h)⟩ where
  logged := by
    intro other found entry here stage
    rcases update_cases here with ⟨_, rfl⟩ | ⟨_, here⟩
    · exact logged entry stage
    · exact storedAt_mono grown (sound.logged other found entry here stage)
  awaited := by
    intro other call primes entry awaiting here
    rcases update_cases here with ⟨_, rfl⟩ | ⟨_, here⟩
    · exact awaited primes entry awaiting rfl
    · exact sound.awaited other call primes entry awaiting here
  counted := by
    intro other call primes entry majority awaiting acks here
    rcases update_cases here with ⟨rfl, rfl⟩ | ⟨_, here⟩
    · exact counted primes entry majority awaiting acks rfl
    · exact sound.counted other call primes entry majority awaiting acks here

end Steps

theorem extends_update {server : Server} (grown : n.server.log <+: server.log)
    {after : Handler} (here : n.handlers handler = some h)
    (kept : ∀ entry, h.stage.entry = some entry → after.stage.entry = some entry) :
    Extends n ⟨server, Function.update n.handlers handler (some after)⟩ where
  log := grown
  entries := by
    intro other found entry there stage
    dsimp only
    rcases eq_or_ne other handler with rfl | different
    · rw [here, Option.some.injEq] at there
      exact ⟨after, Function.update_self .., kept entry (there ▸ stage)⟩
    · exact ⟨found, by rw [Function.update_of_ne different, there], stage⟩

section Steps

variable (config : Map String ServerInfo) (logs : String → List LogEntry)

theorem soundServer_longer {id : String} (sound : SoundServer config logs id s) (log : List LogEntry)
    (table : Map String FileEntry) (logFile : Bytes) (grown : s.log <+: log) (short : log.length < 2 ^ 31) :
    SoundServer config logs id { s with log := log, table := table, logFile := logFile } where
  named := sound.named
  member := sound.member
  keyed := sound.keyed
  short := short
  commitWithin := sound.commitWithin.trans grown.length_le
  commitBacked := by
    rw [take_grown grown _ sound.commitWithin]
    exact sound.commitBacked
  appliedWithin := sound.appliedWithin.trans grown.length_le
  appliedBacked := by
    rw [take_grown grown _ sound.appliedWithin]
    exact sound.appliedBacked

theorem soundServer_applied {id : String} {commitIndex : Nat} (io : Nat → ApplyIO)
    (sound : SoundServer config logs id s) (within : commitIndex ≤ s.log.length)
    (backed : Quorum.Backed (configured config) logs (s.log.take commitIndex)) :
    SoundServer config logs id (({ s with commitIndex := commitIndex }).applied io) where
  named := sound.named
  member := sound.member
  keyed := sound.keyed
  short := sound.short
  commitWithin := within
  commitBacked := backed
  appliedWithin := by
    have inside := sound.appliedWithin
    change max s.lastApplied (min commitIndex s.log.length) ≤ s.log.length
    omega
  appliedBacked := by
    change Quorum.Backed _ _ (s.log.take (max s.lastApplied (min commitIndex s.log.length)))
    rw [Nat.min_eq_left within]
    rcases Nat.le_total s.lastApplied commitIndex with less | more
    · rw [Nat.max_eq_right less]
      exact backed
    · rw [Nat.max_eq_left more]
      exact sound.appliedBacked

theorem acks_back (replicating : Replicating config c) {id : String}
    (here : c.node id = some n) {call : Call} {primes : FilePrimeSet} {entry : LogEntry}
    {majority : Nat} {awaiting acks : List String}
    (waiting : n.handlers handler = some ⟨call, .waiting primes entry majority awaiting acks⟩)
    (reached : majority ≤ acks.length + 1) :
    Quorum.Backed (configured config) c.logs (n.server.log.take entry.index.toNat) := by
  obtain ⟨enough, distinct, peers, known⟩ :=
    (replicating.handlers id n here).counted handler call primes entry majority awaiting acks waiting
  have apart : id ∉ acks := fun own => (peers id (by simp [own])).1 rfl
  refine ⟨(id :: acks).toFinset, ⟨?_, ?_⟩, ?_⟩
  · intro node member
    rcases List.mem_cons.mp (List.mem_toFinset.mp member) with rfl | acked
    · exact (replicating.servers node n here).member
    · exact (peers node (by simp [acked])).2
  · rw [List.toFinset_card_of_nodup (List.nodup_cons.mpr ⟨apart, (List.nodup_append.mp distinct).2.1⟩),
      List.length_cons]
    omega
  · intro node member
    rcases List.mem_cons.mp (List.mem_toFinset.mp member) with rfl | acked
    · rw [c.logs_node node n here]
      exact List.take_prefix _ _
    · obtain ⟨m, h, other, there, found, stage, _, agrees⟩ := replicating.held id handler node (known node acked)
      rw [here, Option.some.injEq] at there
      subst there
      rw [waiting, Option.some.injEq] at found
      subst found
      cases stage
      exact agrees

end Steps

theorem extend_matching {sender : List LogEntry} {e : PbLogEntry} {commit : Nat}
    (stored : StoredAt sender e.received) (next : e.received.index.toNat ≤ log.length + 1)
    (within : commit ≤ max log.length e.received.index.toNat)
    (agrees : log.take (max e.received.index.toNat commit) <+: sender) :
    sender.take e.received.index.toNat <+: extend log [e] ∧ commit ≤ (extend log [e]).length ∧
      (extend log [e]).take commit = sender.take commit ∧
      (extend log [e]).length ≤ max log.length e.received.index.toNat := by
  obtain ⟨positive, found⟩ := stored
  unfold extend extend
  split_ifs with old
  · have short : e.received.index.toNat ≤ log.length := by omega
    have part (count : Nat) (below : count ≤ max e.received.index.toNat commit) :
        log.take count = sender.take count := by
      have cut := take_grown agrees count (by rw [List.length_take]; omega)
      rw [cut, List.take_take, Nat.min_eq_left below]
    refine ⟨?_, by omega, part commit (by omega), by omega⟩
    rw [← part e.received.index.toNat (by omega)]
    exact List.take_prefix _ _
  · have place : e.received.index.toNat = log.length + 1 := by omega
    have whole : log.take (max e.received.index.toNat commit) = log := List.take_of_length_le (by omega)
    rw [whole] at agrees
    have same : log ++ [e.received] = sender.take (log.length + 1) := by
      have position : (e.received.index - 1).toNat = log.length := by omega
      rw [position] at found
      rw [List.take_add_one, found, take_grown agrees log.length (Nat.le_refl _), List.take_length]
      rfl
    have size : (log ++ [e.received]).length = log.length + 1 := by simp
    refine ⟨?_, by omega, ?_, by omega⟩
    · rw [place, same]
    · rw [same, List.take_take, Nat.min_eq_left (by omega)]

section Handlers

variable [LogCodec] (config : Map String ServerInfo)

structure SoundStep (c : Cluster) (id : String) (n next : Node) : Prop where
  longer : Extends n next
  server : SoundServer config c.logs id next.server
  handlers : SoundHandlers config c.acked id next

omit [LogCodec] in
theorem soundStep_keeps (replicating : Replicating config c) {id : String}
    (here : c.node id = some n) (server : Server) (keeps : KeepsLog n.server server)
    (keyed : Keyed config server.servers) : SoundStep config c id n { n with server := server } := by
  have grown : n.server.log <+: server.log := keeps.log.symm ▸ List.prefix_rfl
  exact ⟨⟨grown, fun _ h _ there stage => ⟨h, there, stage⟩⟩,
    soundServer_keeps config c.logs (replicating.servers id n here) keeps keyed,
    soundHandlers_server config c.acked (replicating.handlers id n here) grown⟩

omit [LogCodec] in
theorem soundStep_stage (replicating : Replicating config c) {id : String}
    (here : c.node id = some n) (server : Server) (keeps : Keeps n.server server)
    (there : n.handlers handler = some h) {stage : Stage} (entry : stage.entry = h.stage.entry)
    (awaited : ∀ primes entry awaiting, stage = .sent primes entry awaiting →
      awaiting.Nodup ∧ ∀ peer ∈ awaiting, peer ≠ id ∧ peer ∈ configured config)
    (counted : ∀ primes entry majority awaiting acks, stage = .waiting primes entry majority awaiting acks →
      (configured config).card / 2 + 1 ≤ majority ∧ (awaiting ++ acks).Nodup ∧
        (∀ peer ∈ awaiting ++ acks, peer ≠ id ∧ peer ∈ configured config) ∧
        ∀ peer ∈ acks, (id, handler, peer) ∈ c.acked) :
    SoundStep config c id n ⟨server, Function.update n.handlers handler (some { h with stage := stage })⟩ := by
  have sound := replicating.servers id n here
  have grown : n.server.log <+: server.log := keeps.log.symm ▸ List.prefix_rfl
  refine ⟨extends_update grown there fun logged same => entry.trans same, ?_, ?_⟩
  · exact soundServer_keeps config c.logs sound keeps.toKeepsLog
      (keeps.servers.symm ▸ sound.keyed)
  · refine soundHandlers_update config c.acked id n (replicating.handlers id n here) server grown handler _ ?_
      awaited counted
    intro logged same
    exact storedAt_mono grown
      ((replicating.handlers id n here).logged handler h logged there (entry.symm.trans same))

theorem handler_sound (replicating : Replicating config c) {id : String} {next : Node}
    (here : c.node id = some n) {action : HandlerStep} (enabled : c.enabled id (.handler handler action) = true)
    (matching : n.matching config (.handler handler action) = true)
    (stepped : n.handlerStep handler action = some next) : SoundStep config c id n next := by
  obtain ⟨h, server, stage, there, _, effect, rfl⟩ := Node.handlerStep_cases stepped
  have sound := replicating.servers id n here
  have known := replicating.handlers id n here
  cases effect with
  | append persist primes entry table logFile stage before after =>
    obtain ⟨call, _⟩ := h
    subst before
    simp only [Node.matching, Node.appendsNext, there, Bool.and_eq_true, decide_eq_true_iff] at matching
    have grown : n.server.log <+: n.server.log ++ [entry] := List.prefix_append _ _
    refine ⟨extends_update grown there (by simp [Stage.entry]),
      soundServer_longer config c.logs sound _ table logFile grown (by simpa using matching.2), ?_⟩
    have same : stage.entry = some entry := by rcases after with rfl | ⟨_, rfl⟩ <;> rfl
    refine soundHandlers_update config c.acked id n known _ grown handler _ ?_ ?_ ?_
    · intro other logged
      rw [same, Option.some.injEq] at logged
      exact logged ▸ storedAt_next matching.1
    · rcases after with rfl | ⟨_, rfl⟩ <;> simp
    · rcases after with rfl | ⟨_, rfl⟩ <;> simp
  | send primes entry before =>
    refine soundStep_stage config replicating here n.server (.refl _) there
      (by rw [before]; rfl) ?_ (by simp)
    rintro _ _ awaiting ⟨⟩
    have peers := n.server.peerIDs_spec config sound.keyed
    rw [sound.named] at peers
    exact peers
  | count primes entry awaiting before =>
    obtain ⟨call, _⟩ := h
    subst before
    obtain ⟨distinct, peers⟩ := known.awaited handler call primes entry awaiting there
    refine soundStep_stage config replicating here n.server (.refl _) there rfl (by simp) ?_
    rintro _ _ majority _ _ ⟨⟩
    refine ⟨?_, by simpa using distinct, by simpa using peers, by simp⟩
    simp only [Node.matching, there, Option.all_some, Bool.or_eq_true, decide_eq_true_iff] at matching
    have size := n.server.servers_length config sound.keyed
    unfold Server.majority
    cases kind : call.kind with
    | close =>
      dsimp only
      omega
    | write =>
      simp only [kind, reduceCtorEq, false_or] at matching
      dsimp only
      omega
  | ack peer ok primes entry majority awaiting acks before awaited =>
    obtain ⟨call, _⟩ := h
    subst before
    obtain ⟨enough, distinct, peers, answered⟩ :=
      known.counted handler call primes entry majority awaiting acks there
    refine soundStep_stage config replicating here n.server (.refl _) there rfl (by simp) ?_
    rintro _ _ _ _ _ ⟨⟩
    have moved : (awaiting.erase peer ++ peer :: acks).Perm (awaiting ++ acks) :=
      List.perm_middle.trans ((List.perm_cons_erase awaited).symm.append_right acks)
    cases ok with
    | true =>
      refine ⟨enough, moved.nodup_iff.mpr distinct, fun other member => peers other (moved.subset member), ?_⟩
      intro other member
      rcases List.mem_cons.mp member with rfl | old
      · simpa [Cluster.enabled] using enabled
      · exact answered other old
    | false =>
      have fewer : (awaiting.erase peer ++ acks).Sublist (awaiting ++ acks) :=
        List.erase_sublist.append_right acks
      exact ⟨enough, fewer.nodup distinct, fun other member => peers other (fewer.subset member), answered⟩
  | commit io primes entry majority awaiting acks before reached =>
    obtain ⟨call, _⟩ := h
    subst before
    have stored := known.logged handler _ entry there rfl
    have inside := (List.getElem?_eq_some_iff.mp stored.2).1
    have backed := acks_back config replicating here there reached
    have grown : n.server.log <+:
        (({ n.server with commitIndex := entry.index.toNat }).applied io).log := List.prefix_rfl
    refine ⟨extends_update grown there ?_,
      soundServer_applied config c.logs io sound (by omega) backed, ?_⟩
    · exact fun _ same => same
    · refine soundHandlers_update config c.acked id n known _ grown handler _ ?_ (by simp) (by simp)
      intro other logged
      cases logged
      exact stored
  | quiet action server stage still | finish env server stage still =>
    exact soundStep_stage config replicating here server still.keeps there still.entry
      (fun primes entry awaiting same => absurd same (still.unsent primes entry awaiting))
      (fun primes entry majority awaiting acks same => absurd same (still.settled primes entry majority awaiting acks))

theorem act_sound (replicating : Replicating config c) {id : String} {next : Node}
    (here : c.node id = some n) {action : NodeAction} (enabled : c.enabled id action = true)
    (matching : n.matching config action = true) (stepped : n.step action = some next) :
    SoundStep config c id n next := by
  have sound := replicating.servers id n here
  have known := replicating.handlers id n here
  have moved := soundStep_keeps config replicating here
  have kept (server : Server) (keeps : Keeps n.server server) :=
    moved server keeps.toKeepsLog (keeps.servers.symm ▸ sound.keyed)
  cases action with
  | create env req =>
    obtain ⟨s, answer, sent, handled, rfl⟩ := Node.handle_returned stepped
    exact kept s (Server.create_keeps handled)
  | openFile env req =>
    obtain ⟨s, answer, sent, handled, rfl⟩ := Node.handle_returned stepped
    exact kept s (Server.openFile_keeps handled)
  | begin handler kind now req =>
    rcases n.begin_cases next handler kind now req stepped with rfl | ⟨found, mode, table, fresh, _, rfl⟩
    · exact kept next.server (.refl _)
    · have keeps : Keeps n.server { n.server with table := table } :=
        ⟨⟨rfl, rfl, rfl, rfl, rfl⟩, rfl, rfl, rfl⟩
      refine ⟨⟨List.prefix_rfl, ?_⟩, (kept _ keeps).server, ?_⟩
      · intro other h entry there stage
        have different : other ≠ handler := by
          rintro rfl
          rw [fresh] at there
          cases there
        exact ⟨h, by dsimp only; rw [Function.update_of_ne different, there], stage⟩
      · exact soundHandlers_update config c.acked id n known { n.server with table := table } List.prefix_rfl
          handler _ (by simp [Stage.entry]) (by simp) (by simp)
  | handler handler action =>
    exact handler_sound config replicating here enabled matching stepped
  | appendEntries disk req => cases enabled
  | applyUpdate disk msg =>
    cases stepped
    simp only [Node.matching, Bool.and_eq_true, decide_eq_true_iff] at matching
    obtain ⟨log, commitIndex, lastApplied⟩ := applyUpdate_reset disk n.server matching.1
    have view := applyUpdate_view disk n.server msg
    have empty := matching.2
    have none := sound.commitWithin
    have nothing := sound.appliedWithin
    rw [empty] at none nothing
    refine moved _ ⟨view.id, view.rootDir, ?_, ?_, ?_⟩ (view.servers.symm ▸ sound.keyed)
    · rw [log, empty]
    · rw [commitIndex, Nat.le_zero.mp none]
    · rw [lastApplied, Nat.le_zero.mp nothing]
  | sendHeartbeat now req => cases enabled
  | heartbeatReply success => cases enabled
  | monitorPrimary now =>
    cases stepped
    exact moved _ (n.server.monitorPrimary_keepsLog now) (n.server.keyed_monitorPrimary config now sound.keyed)
  | rebuild =>
    cases stepped
    exact kept _ n.server.rebuildAllPrimeSets_keeps

theorem deliver_sound (replicating : Replicating config c) {envelope : Envelope} {disk : DiskIO}
    (sent : envelope ∈ c.sent) (here : c.node envelope.target = some n)
    (matching : c.matching config (.deliver envelope disk) = true) :
    SoundStep config c envelope.target n
        { n with server := (n.server.appendEntries disk envelope.request).1 } ∧
      ∃ m h entry, c.node envelope.source = some m ∧ m.handlers envelope.handler = some h ∧
        h.stage.entry = some entry ∧ entry.index.toNat ≤ m.server.log.length ∧
        m.server.log.take entry.index.toNat <+: (n.server.appendEntries disk envelope.request).1.log := by
  obtain ⟨m, h, entry, commit, there, found, stage, request, within, backed⟩ := replicating.carried envelope sent
  have sender := replicating.servers envelope.source m there
  have sound := replicating.servers envelope.target n here
  have stored := (replicating.handlers envelope.source m there).logged envelope.handler h entry found stage
  have inside := (List.getElem?_eq_some_iff.mp stored.2).1
  have positive := stored.1
  have short := sender.short
  have received : entry.wire.received = entry := wire_received entry (by omega) (by omega)
  have announced : (Int32.ofInt commit).toInt.toNat = commit := by
    rw [Int32.toInt_ofInt_of_le (by omega) (by omega), Int.toNat_natCast]
  have entries : envelope.request.entries = [entry.wire] := by rw [request]; rfl
  have leaderCommit : envelope.request.leaderCommit.toInt.toNat = commit := by rw [request]; exact announced
  simp only [Cluster.matching, here, there, Option.all_some, entries, List.all_cons, List.all_nil, Bool.and_true,
    leaderCommit, Server.matchesUpTo, Bool.and_eq_true, decide_eq_true_iff, List.isPrefixOf_iff_prefix] at matching
  obtain ⟨⟨next, inLog⟩, agrees⟩ := matching
  obtain ⟨holds, covers, same, size⟩ :=
    extend_matching (received.symm ▸ stored) next inLog agrees
  have grown : n.server.log <+: (n.server.appendEntries disk envelope.request).1.log := by
    rw [appendEntries_log]
    exact extend_grows _ _
  refine ⟨⟨⟨grown, fun _ h _ up stage => ⟨h, up, stage⟩⟩, ?_,
    soundHandlers_server config c.acked (replicating.handlers _ n here) grown⟩,
    m, h, entry, there, found, stage, by omega, ?_⟩
  · obtain ⟨logFile, state⟩ := appendEntries_eq disk n.server envelope.request
    rw [entries] at state
    have longer := soundServer_longer config c.logs sound
      (extend n.server.log [entry.wire]) n.server.table logFile (extend_grows _ _) (by
        have own := sound.short
        rw [received] at size
        omega)
    rw [state, leaderCommit]
    refine soundServer_applied config c.logs disk.apply longer ?_ ?_
    · have old := sound.commitWithin.trans (extend_grows n.server.log [entry.wire]).length_le
      dsimp only
      omega
    · dsimp only
      rcases Nat.le_total n.server.commitIndex commit with less | more
      · rw [Nat.max_eq_right less, same]
        exact backed
      · rw [Nat.max_eq_left more]
        exact longer.commitBacked
  · rw [appendEntries_log, entries]
    rw [received] at holds
    exact holds

theorem start_sound (own : Keyed config config) (logs : String → List LogEntry) {id : String} (rootDir : String) (tree : Tree)
    (io : Nat → ApplyIO) (now : Time) (port : String) (member : id ∈ configured config) :
    SoundServer config logs id ((newServer id rootDir config tree []).startServer io now port) := by
  obtain ⟨log, commitIndex, lastApplied⟩ := startServer_fresh config id rootDir tree io now port
  have nothing := Quorum.backed_nil (configured config) logs ⟨id, member⟩
  constructor
  case named => rfl
  case member => exact member
  case keyed =>
    exact keyed_insert own rfl member
  case short => simp [log]
  case commitWithin => simp [commitIndex]
  case commitBacked => simpa [log] using nothing
  case appliedWithin => simp [lastApplied]
  case appliedBacked => simpa [log] using nothing

theorem replicating_start (own : Keyed config config) (replicating : Replicating config c)
    {id : String} (rootDir : String) (tree : Tree) (io : Nat → ApplyIO) (now : Time) (port : String)
    (down : c.node id = none) (member : id ∈ configured config) :
    Replicating config (c.put id (.start ((newServer id rootDir config tree []).startServer io now port))) := by
  have grows : Grows c (c.put id (.start ((newServer id rootDir config tree []).startServer io now port))) := by
    intro other n here
    have different : other ≠ id := by
      rintro rfl
      rw [down] at here
      cases here
    exact ⟨n, by rw [c.put_other _ different, here], .refl n⟩
  have grown := grows_logs grows
  refine ⟨?_, ?_, fun envelope sent => carried_mono config grows envelope (replicating.carried envelope sent),
    fun source handler peer acked => held_mono grows (replicating.held source handler peer acked),
    replicating.beats⟩
  · intro other n there
    rcases update_cases there with ⟨rfl, rfl⟩ | ⟨_, there⟩
    · exact start_sound config own _ rootDir tree io now port member
    · exact soundServer_mono grown (replicating.servers other n there)
  · intro other n there
    rcases update_cases there with ⟨_, rfl⟩ | ⟨_, there⟩
    · exact ⟨by simp [Node.start], by simp [Node.start], by simp [Node.start]⟩
    · exact replicating.handlers other n there

omit [LogCodec] in
theorem replicating_act (replicating : Replicating config c) {id : String}
    (here : c.node id = some n) (sound : SoundStep config c id n after) (node : next.node = (c.put id after).node)
    (sent : ∀ envelope ∈ next.sent, envelope ∈ c.sent ∨ Carried config c envelope)
    (acked : next.acked = c.acked) (beats : next.beats = c.beats) : Replicating config next := by
  have grows := grows_put here node sound.longer
  refine replicating_put replicating here node sound.longer sound.server sound.handlers
    (acked ▸ List.Subset.refl _) (fun envelope member => ?_) (fun _ _ _ member => .inl (acked ▸ member)) beats
  exact (sent envelope member).imp_right (carried_mono config grows envelope)

theorem replicating_step (own : Keyed config config) (c : Cluster) (action : ClusterAction) (next : Cluster)
    (replicating : Replicating config c) (matching : c.Matching config action)
    (stepped : c.step config action = some next) : Replicating config next := by
  cases c.step_effect config next action stepped with
  | start id rootDir tree logFile io now port down =>
    simp only [Cluster.Matching, Cluster.matching, Bool.and_eq_true, decide_eq_true_iff] at matching
    obtain ⟨rfl, member⟩ := matching
    exact replicating_start config own replicating rootDir tree io now port down member
  | act id action n after enabled here moved =>
    have fits : n.matching config action = true := by
      simpa [Cluster.Matching, Cluster.matching, here] using matching
    refine replicating_act config replicating here
      (act_sound config replicating here enabled fits moved) rfl ?_ rfl rfl
    intro envelope member
    rcases List.mem_append.mp member with new | old
    · obtain ⟨h, entry, found, stage, source, request⟩ := Node.emitted_request new
      subst source
      have server := replicating.servers envelope.source n here
      rw [server.named] at request
      exact .inr ⟨n, h, entry, n.server.commitIndex, here, found, stage, request, server.commitWithin,
        server.commitBacked⟩
    · exact .inl old
  | deliver envelope disk n sent here =>
    obtain ⟨sound, m, h, entry, there, found, stage, within, holds⟩ :=
      deliver_sound config replicating sent here matching
    refine replicating_put replicating here rfl sound.longer sound.server
      sound.handlers (List.subset_cons_self ..) (fun _ member => .inl member) ?_ rfl
    intro source handler peer member
    rcases List.mem_cons.mp member with new | old
    · obtain ⟨rfl, rfl, rfl⟩ : source = envelope.source ∧ handler = envelope.handler ∧ peer = envelope.target := by
        simpa using new
      exact .inr (held_put here rfl sound.longer
        there found stage within holds)
    · exact .inl old
  | round id n here leads =>
    refine ⟨replicating.servers, replicating.handlers, replicating.carried, replicating.held, ?_⟩
    intro beat member
    rcases List.mem_append.mp member with new | old
    · obtain ⟨peer, _, rfl⟩ := List.mem_map.mp new
      exact (replicating.servers id n here).member
    · exact replicating.beats beat old
  | beat sender receiver now timestamp n sent here =>
    refine replicating_act config replicating here
      (soundStep_keeps config replicating here _ (n.server.sendHeartbeat_keepsLog now _) ?_) rfl (fun _ member => .inl member) rfl rfl
    exact Server.keyed_sendHeartbeat config now (replicating.servers receiver n here).keyed
      (replicating.beats _ sent)
  | reply sender success n sent here =>
    refine replicating_act config replicating here
      (soundStep_keeps config replicating here _ (n.server.heartbeatReply_keepsLog success) ?_) rfl (fun _ member => .inl member) rfl rfl
    have same : (n.server.heartbeatReply success).servers = n.server.servers := by
      unfold Server.heartbeatReply
      split_ifs <;> rfl
    exact same ▸ (replicating.servers sender n here).keyed

end Handlers

theorem applied_entries_agree [LogCodec] (config : Map String ServerInfo)
    (own : ∀ item ∈ config.entries, item.2.id = item.1) (actions : List ClusterAction) (final : Cluster)
    (meets : Transition.Meets (Cluster.step config) (Cluster.Matching config) Cluster.empty actions)
    (reached : Transition.run (Cluster.step config) Cluster.empty actions = some final) : final.Agreement := by
  have initial : Replicating config Cluster.empty :=
    ⟨by simp [Cluster.empty], by simp [Cluster.empty], by simp [Cluster.empty], by simp [Cluster.empty],
      by simp [Cluster.empty]⟩
  have keyed : Keyed config config := ⟨rfl, fun key info present => own ⟨key, info⟩ (AList.mem_lookup_iff.mp present)⟩
  exact replicating_agreement (Transition.run_invariant
    (Cluster.Matching config) (Replicating config) (replicating_step config keyed) Cluster.empty initial
    actions meets reached)

def closeOnTwo : List ClusterAction :=
  notifySecond ++ [.deliver ⟨"1", 0, "2", sendAppendEntry "1" closeEntry 1⟩ {}]

theorem close_applied_on_two :
    ∃ final, Transition.run (Cluster.step mainServers) Cluster.empty closeOnTwo = some final ∧
      (final.node "1").map (fun n => n.server.lastApplied) = some 1 ∧
      (final.node "2").map (fun n => n.server.lastApplied) = some 1 ∧ final.Agreement := by
  have outcome : (Transition.run (Cluster.step mainServers) Cluster.empty closeOnTwo).map (fun c =>
      ((c.node "1").map fun n => n.server.lastApplied, (c.node "2").map fun n => n.server.lastApplied)) =
      some (some 1, some 1) ∧
      Transition.check (Cluster.step mainServers) (Cluster.matching mainServers) Cluster.empty closeOnTwo = true := by
    decide +kernel
  obtain ⟨outcome, checked⟩ := outcome
  obtain ⟨final, reached, both⟩ := Option.map_eq_some_iff.mp outcome
  obtain ⟨one, two⟩ := Prod.mk.inj both
  have meets : Transition.Meets (Cluster.step mainServers) (Cluster.Matching mainServers) Cluster.empty closeOnTwo :=
    Transition.meets_of_check _ _ (Cluster.matching mainServers) (fun _ _ _ holds => holds) checked
  exact ⟨final, reached, one, two,
    applied_entries_agree mainServers (by decide) closeOnTwo final meets reached⟩

-- Both servers have applied a first entry: the primary the committed one, server 2 the one that overtook it.
theorem overtaken_servers_disagree :
    ∃ final, Transition.run (Cluster.step mainServers) Cluster.empty
        (missFirst ++ [.deliver ⟨"1", 1, "2", sendAppendEntry "1" overtakingEntry 1⟩ {}]) = some final ∧
      ¬ final.Agreement := by
  have outcome : (Transition.run (Cluster.step mainServers) Cluster.empty
      (missFirst ++ [.deliver ⟨"1", 1, "2", sendAppendEntry "1" overtakingEntry 1⟩ {}])).map (fun c =>
        ((c.node "1").map fun n => (n.server.lastApplied, n.server.log[0]?),
          (c.node "2").map fun n => (n.server.lastApplied, n.server.log[0]?))) =
      some (some (1, some closeEntry), some (1, some overtakingEntry)) := by
    decide +kernel
  obtain ⟨final, reached, both⟩ := Option.map_eq_some_iff.mp outcome
  obtain ⟨one, two⟩ := Prod.mk.inj both
  obtain ⟨first, here, applied⟩ := Option.map_eq_some_iff.mp one
  obtain ⟨second, there, follows⟩ := Option.map_eq_some_iff.mp two
  obtain ⟨low, left⟩ := Prod.mk.inj applied
  obtain ⟨high, right⟩ := Prod.mk.inj follows
  refine ⟨final, reached, fun agreement => ?_⟩
  have same := agreement "1" "2" first second 0 here there (by omega) (by omega)
  rw [left, right] at same
  exact absurd same (by decide)

end Ikkat
