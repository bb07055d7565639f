import Ikkat.Alignment
import Ikkat.Cluster

set_option autoImplicit false

namespace Ikkat

variable {c : Cluster} {done : List ClusterAction}

def Applies (before after : Server) (entry : LogEntry) : Prop :=
  ∃ position : Nat, before.lastApplied ≤ position ∧ position < after.lastApplied ∧
    after.log[position]? = some entry

namespace Cluster

def CommitsUpTo (primary : String) (index : Int) (c : Cluster) : Prop :=
  ∃ n ∈ c.node primary, index ≤ n.server.commitIndex

instance (primary : String) (index : Int) (c : Cluster) : Decidable (c.CommitsUpTo primary index) :=
  inferInstanceAs (Decidable (∃ n ∈ c.node primary, index ≤ (n.server.commitIndex : Int)))

-- One server takes all the requests, servers start with an empty log, updates are full syncs, and a
-- request arrives only after those for all the positions before it.
def follows (primary : String) (c : Cluster) : ClusterAction → Bool
  | .start _ _ _ logFile _ _ _ => logFile = []
  | .act id (.begin _ _ _ _) => id = primary
  | .act _ (.applyUpdate _ msg) => msg.isFullSync
  | .deliver envelope _ =>
      (c.node envelope.target).all fun n => envelope.request.entries.all fun e =>
        e.received.index ≤ n.server.log.length + 1
  | _ => true

def Follows (primary : String) (c : Cluster) (action : ClusterAction) : Prop := c.follows primary action

end Cluster

inductive FollowerStep [LogCodec] (c : Cluster) (before after : Node) : Prop where
  | kept (same : KeepsLog before.server after.server)
  | reset (log : after.server.log = []) (commitIndex : after.server.commitIndex = 0)
      (lastApplied : after.server.lastApplied = 0)
  | received (envelope : Envelope) (disk : DiskIO) (sent : envelope ∈ c.sent)
      (inOrder : ∀ e ∈ envelope.request.entries, e.received.index ≤ before.server.log.length + 1)
      (same : after.server = (before.server.appendEntries disk envelope.request).1)

theorem startServer_fresh [LogCodec] (config : Map String ServerInfo) (id rootDir : String) (tree : Tree)
    (io : Nat → ApplyIO) (now : Time) (port : String) :
    let s := (newServer id rootDir config tree []).startServer io now port
    s.log = [] ∧ s.commitIndex = 0 ∧ s.lastApplied = 0 := by
  exact ⟨rfl, rfl, rfl⟩

theorem applyUpdate_reset [LogCodec] (disk : DiskIO) (s : Server) {msg : UpdateMessage} (full : msg.isFullSync = true) :
    (s.applyUpdate disk msg).1.log = [] ∧ (s.applyUpdate disk msg).1.commitIndex = 0 ∧
      (s.applyUpdate disk msg).1.lastApplied = 0 := by
  unfold Server.applyUpdate
  rw [if_pos full]
  have files := Server.receiveFiles_keeps disk 0
    { s with log := [], commitIndex := 0, lastApplied := 0 } msg.fullFiles
  exact ⟨files.log, files.commitIndex, files.lastApplied⟩

theorem follower_act [LogCodec] {primary id : String} (other : id ≠ primary)
    {action : NodeAction} {n next : Node} (idle : ∀ handler, n.handlers handler = none)
    (enabled : c.enabled id action = true) (follows : c.follows primary (.act id action) = true)
    (stepped : n.step action = some next) : (∀ handler, next.handlers handler = none) ∧ FollowerStep c n next := by
  cases action with
  | create env req =>
    obtain ⟨s, answer, sent, handled, rfl⟩ := Node.handle_returned stepped
    exact ⟨idle, .kept (Server.create_keeps handled).toKeepsLog⟩
  | openFile env req =>
    obtain ⟨s, answer, sent, handled, rfl⟩ := Node.handle_returned stepped
    exact ⟨idle, .kept (Server.openFile_keeps handled).toKeepsLog⟩
  | begin handler kind now req => exact absurd (by simpa [Cluster.follows] using follows) other
  | handler handler action =>
    obtain ⟨h, _, _, here, _⟩ := Node.handlerStep_cases stepped
    rw [idle handler] at here
    cases here
  | appendEntries disk req => cases enabled
  | applyUpdate disk msg =>
    cases stepped
    obtain ⟨log, commitIndex, lastApplied⟩ := applyUpdate_reset disk n.server follows
    exact ⟨idle, .reset log commitIndex lastApplied⟩
  | sendHeartbeat now req => cases enabled
  | heartbeatReply success => cases enabled
  | monitorPrimary now =>
    cases stepped
    exact ⟨idle, .kept (n.server.monitorPrimary_keepsLog now)⟩
  | rebuild =>
    cases stepped
    exact ⟨idle, .kept n.server.rebuildAllPrimeSets_keeps.toKeepsLog⟩

theorem follower_cases [LogCodec] {config : Map String ServerInfo} {primary : String} {next : Cluster}
    {action : ClusterAction} (follows : c.follows primary action = true)
    (stepped : c.step config action = some next) {id : String} (other : id ≠ primary) {after : Node}
    (idle : ∀ n, c.node id = some n → ∀ handler, n.handlers handler = none) (there : next.node id = some after) :
    (∀ handler, after.handlers handler = none) ∧
      ((after.server.log = [] ∧ after.server.commitIndex = 0 ∧ after.server.lastApplied = 0 ∧ c.node id = none) ∨
        ∃ before, c.node id = some before ∧ FollowerStep c before after) := by
  have still (here : c.node id = some after) : (∀ handler, after.handlers handler = none) ∧
      ((after.server.log = [] ∧ after.server.commitIndex = 0 ∧ after.server.lastApplied = 0 ∧ c.node id = none) ∨
        ∃ before, c.node id = some before ∧ FollowerStep c before after) :=
    ⟨idle after here, .inr ⟨after, here, .kept ⟨rfl, rfl, rfl, rfl, rfl⟩⟩⟩
  have elsewhere (changed : String) (n : Node) (node : next.node = (c.put changed n).node)
      (different : id ≠ changed) := still ((c.put_other n different) ▸ node ▸ there)
  cases c.step_effect config next action stepped with
  | start started rootDir tree logFile io now port down =>
    rcases eq_or_ne id started with rfl | different
    · rw [Cluster.put_self, Option.some.injEq] at there
      obtain rfl : logFile = [] := by simpa [Cluster.follows] using follows
      obtain ⟨log, commitIndex, lastApplied⟩ := startServer_fresh config id rootDir tree io now port
      exact there ▸ ⟨fun _ => rfl, .inl ⟨log, commitIndex, lastApplied, down⟩⟩
    · exact elsewhere started _ rfl different
  | act actor action n moved enabled here taken =>
    rcases eq_or_ne id actor with rfl | different
    · obtain rfl : moved = after := by simpa using there
      obtain ⟨quiet, step⟩ := follower_act other (idle n here) enabled follows taken
      exact ⟨quiet, .inr ⟨n, here, step⟩⟩
    · exact elsewhere actor _ rfl different
  | deliver envelope disk n sent here =>
    rcases eq_or_ne id envelope.target with rfl | different
    · simp only [Cluster.put_self, Option.some.injEq] at there
      subst there
      refine ⟨idle n here, .inr ⟨n, here, .received envelope disk sent ?_ rfl⟩⟩
      simpa [Cluster.follows, here] using follows
    · exact elsewhere envelope.target _ rfl different
  | round leader n here leads => exact still there
  | beat sender receiver now timestamp n sent here =>
    rcases eq_or_ne id receiver with rfl | different
    · simp only [Cluster.put_self, Option.some.injEq] at there
      subst there
      exact ⟨idle n here, .inr ⟨n, here, .kept (n.server.sendHeartbeat_keepsLog now _)⟩⟩
    · exact elsewhere receiver _ rfl different
  | reply sender success n sent here =>
    rcases eq_or_ne id sender with rfl | different
    · simp only [Cluster.put_self, Option.some.injEq] at there
      subst there
      exact ⟨idle n here, .inr ⟨n, here, .kept (n.server.heartbeatReply_keepsLog success)⟩⟩
    · exact elsewhere sender _ rfl different

theorem ofInt_toInt_le (n : Nat) : (Int32.ofInt n).toInt ≤ n := by
  rw [Int32.toInt_ofInt, Int.bmod_eq_emod]
  have size : (Int32.size : Int) = 4294967296 := rfl
  have positive : (0 : Int) ≤ n := Int.natCast_nonneg n
  rw [size]
  split_ifs <;> omega

theorem received_aligned {log : List LogEntry} (aligned : Aligned log) (e : PbLogEntry)
    (inOrder : e.received.index ≤ log.length + 1) : Aligned (extend log [e]) := by
  rw [extend_aligned_iff log [e] aligned]
  unfold Contiguous
  split_ifs
  · trivial
  · exact ⟨by omega, trivial⟩

section History

variable [LogCodec] (config : Map String ServerInfo) (primary : String)

def Attained (done : List ClusterAction) (index : Int) : Prop :=
  Transition.Once (Cluster.step config) (Cluster.CommitsUpTo primary index) Cluster.empty done

theorem attained_le (low : Int) {high : Int} (below : low ≤ high)
    (attained : Attained config primary done high) : Attained config primary done low :=
  Transition.once_mono (fun _ ⟨n, here, reaches⟩ => ⟨n, here, Int.le_trans below reaches⟩) _ done attained

structure Following (done : List ClusterAction) (c : Cluster) : Prop where
  idle : ∀ id n, c.node id = some n → id ≠ primary → ∀ handler, n.handlers handler = none
  aligned : ∀ id n, c.node id = some n → id ≠ primary → Aligned n.server.log
  commits : ∀ id n, c.node id = some n → id ≠ primary →
    n.server.commitIndex = 0 ∨ Attained config primary done n.server.commitIndex
  single : ∀ envelope ∈ c.sent, ∃ e, envelope.request.entries = [e]
  sent : ∀ envelope ∈ c.sent, Attained config primary done envelope.request.leaderCommit.toInt

theorem following_append (done : List ClusterAction) (action : ClusterAction) (c : Cluster)
    (following : Following config primary done c) : Following config primary (done ++ [action]) c where
  idle := following.idle
  aligned := following.aligned
  commits := fun id n here other =>
    (following.commits id n here other).imp_right (Transition.once_append _ done [action])
  single := following.single
  sent := fun envelope member => Transition.once_append _ done [action] (following.sent envelope member)

theorem follower_step (following : Following config primary done c)
    {id : String} {before after : Node} (here : c.node id = some before) (other : id ≠ primary)
    (step : FollowerStep c before after) :
    Aligned after.server.log ∧
      (after.server.commitIndex = 0 ∨ Attained config primary done after.server.commitIndex) ∧
      ∀ entry, Applies before.server after.server entry → Attained config primary done entry.index := by
  have aligned := following.aligned id before here other
  have commits := following.commits id before here other
  cases step with
  | kept same =>
    refine ⟨same.log.symm ▸ aligned, same.commitIndex.symm ▸ commits, ?_⟩
    rintro entry ⟨position, low, high, _⟩
    rw [same.lastApplied] at high
    omega
  | reset log commitIndex lastApplied =>
    refine ⟨log.symm ▸ aligned_nil, .inl commitIndex, ?_⟩
    rintro entry ⟨position, _, high, _⟩
    omega
  | received envelope disk sent inOrder same =>
    obtain ⟨e, one⟩ := following.single envelope sent
    have announced := following.sent envelope sent
    have longer : Aligned after.server.log := by
      rw [same, appendEntries_log, one]
      exact received_aligned aligned e (inOrder e (by simp [one]))
    have known (index : Int) (positive : 1 ≤ index)
        (below : index ≤ (max before.server.commitIndex envelope.request.leaderCommit.toInt.toNat : Nat)) :
        Attained config primary done index := by
      rcases Nat.le_total before.server.commitIndex envelope.request.leaderCommit.toInt.toNat with less | more
      · rw [Nat.max_eq_right less] at below
        exact attained_le config primary index (by omega) announced
      · rw [Nat.max_eq_left more] at below
        rcases commits with zero | attained
        · omega
        · exact attained_le config primary index below attained
    refine ⟨longer, ?_, ?_⟩
    · rw [same, appendEntries_commitIndex]
      rcases Nat.eq_zero_or_pos (max before.server.commitIndex envelope.request.leaderCommit.toInt.toNat)
        with zero | positive
      · exact .inl zero
      · exact .inr (known _ (by omega) (Int.le_refl _))
    · rintro entry ⟨position, low, high, found⟩
      have index := longer position entry found
      rw [same, appendEntries_lastApplied] at high
      exact known entry.index (by omega) (by omega)

theorem following_sent {next : Cluster} {action : ClusterAction} (following : Following config primary done c)
    (reached : Transition.run (Cluster.step config) Cluster.empty done = some c)
    (stepped : c.step config action = some next) {envelope : Envelope} (member : envelope ∈ next.sent) :
    (∃ e, envelope.request.entries = [e]) ∧
      Attained config primary done envelope.request.leaderCommit.toInt := by
  have old (before : envelope ∈ c.sent) := And.intro (following.single envelope before) (following.sent envelope before)
  cases c.step_effect config next action stepped with
  | act id action n after enabled here moved =>
    rcases List.mem_append.mp member with new | before
    · obtain ⟨h, entry, handler, _, _, request⟩ := Node.emitted_request new
      have leads : id = primary := by
        by_contra other
        rw [following.idle id n here other] at handler
        cases handler
      subst leads
      rw [request]
      refine ⟨⟨_, rfl⟩, Transition.once_final _ done reached ⟨n, here, ofInt_toInt_le _⟩⟩
    · exact old before
  | start => exact old member
  | deliver => exact old member
  | round => exact old member
  | beat => exact old member
  | reply => exact old member

theorem following_step (done : List ClusterAction) (c : Cluster) (action : ClusterAction) (next : Cluster)
    (reached : Transition.run (Cluster.step config) Cluster.empty done = some c)
    (following : Following config primary done c) (follows : c.Follows primary action)
    (stepped : c.step config action = some next) : Following config primary (done ++ [action]) next := by
  refine following_append config primary done action next ?_
  have cases_ (id : String) (n : Node) (there : next.node id = some n) (other : id ≠ primary) :=
    follower_cases follows stepped other
      (fun before here => following.idle id before here other) there
  have state (id : String) (n : Node) (there : next.node id = some n) (other : id ≠ primary) :
      Aligned n.server.log ∧
        (n.server.commitIndex = 0 ∨ Attained config primary done n.server.commitIndex) := by
    obtain ⟨_, ⟨log, commitIndex, _⟩ | ⟨before, here, step⟩⟩ := cases_ id n there other
    · exact ⟨log.symm ▸ aligned_nil, .inl commitIndex⟩
    · obtain ⟨aligned, commits, _⟩ := follower_step config primary following here other step
      exact ⟨aligned, commits⟩
  exact
    { idle := fun id n there other => (cases_ id n there other).1
      aligned := fun id n there other => (state id n there other).1
      commits := fun id n there other => (state id n there other).2
      single := fun envelope member =>
        (following_sent config primary following reached stepped member).1
      sent := fun envelope member =>
        (following_sent config primary following reached stepped member).2 }

end History

theorem applied_after_commit [LogCodec] (config : Map String ServerInfo) (primary : String)
    (done : List ClusterAction) (action : ClusterAction) (c next : Cluster)
    (meets : Transition.Meets (Cluster.step config) (Cluster.Follows primary) Cluster.empty (done ++ [action]))
    (reached : Transition.run (Cluster.step config) Cluster.empty done = some c)
    (stepped : c.step config action = some next) (backup : String) (other : backup ≠ primary)
    (before after : Node) (here : c.node backup = some before) (there : next.node backup = some after)
    (entry : LogEntry) (applies : Applies before.server after.server entry) :
    Transition.Once (Cluster.step config) (Cluster.CommitsUpTo primary entry.index) Cluster.empty done := by
  obtain ⟨earlier, now⟩ :=
    (Transition.meets_append _ Cluster.empty done [action] reached).mp meets
  have initial : Following config primary [] Cluster.empty :=
    ⟨by simp [Cluster.empty], by simp [Cluster.empty], by simp [Cluster.empty], by simp [Cluster.empty],
      by simp [Cluster.empty]⟩
  have following : Following config primary done c :=
    Transition.run_history (Following config primary)
      initial (following_step config primary) done c earlier reached
  obtain ⟨_, ⟨_, _, _, down⟩ | ⟨_, same, step⟩⟩ :=
    follower_cases now.1 stepped other
      (fun n up => following.idle backup n up other) there
  · rw [down] at here
    cases here
  · rw [here, Option.some.injEq] at same
    subst same
    exact (follower_step config primary following here other step).2.2 entry applies

def startThree : List ClusterAction :=
  [startFresh "1" "5001", startFresh "2" "5002", startFresh "3" "5003",
    .act "1" (.create {} ⟨"r1", "output/a", "c", .write⟩), .act "1" (.create {} ⟨"r3", "output/b", "d", .write⟩)]

def closeEntry : LogEntry := ⟨1, "WRITE", "output/a", [50, 10], 1⟩

def closeThrough (peer : String) : List ClusterAction :=
  closeToAppend.map (.act "1") ++
    [.act "1" (.handler 0 .send), .deliver ⟨"1", 0, peer, sendAppendEntry "1" closeEntry 0⟩ {},
      .act "1" (.handler 0 .count), .act "1" (.handler 0 (.ack peer true)),
      .act "1" (.handler 0 (.commit fun _ => .ok))]

def notifySecond : List ClusterAction := startThree ++ closeThrough "2" ++ [.act "1" (.handler 0 (.notify "2"))]

theorem second_applies_committed_close :
    ∃ c next before after,
      Transition.run (Cluster.step mainServers) Cluster.empty notifySecond = some c ∧
      c.step mainServers (.deliver ⟨"1", 0, "2", sendAppendEntry "1" closeEntry 1⟩ {}) = some next ∧
      c.node "2" = some before ∧ next.node "2" = some after ∧
      Applies before.server after.server closeEntry ∧
      Transition.Once (Cluster.step mainServers) (Cluster.CommitsUpTo "1" closeEntry.index) Cluster.empty
        notifySecond := by
  have outcome : (Transition.run (Cluster.step mainServers) Cluster.empty notifySecond).bind (fun c =>
      (c.step mainServers (.deliver ⟨"1", 0, "2", sendAppendEntry "1" closeEntry 1⟩ {})).bind fun next =>
        (c.node "2").bind fun before => (next.node "2").map fun after =>
          (before.server.lastApplied, after.server.lastApplied, after.server.log)) =
      some (0, 1, [closeEntry]) ∧
      Transition.check (Cluster.step mainServers) (Cluster.follows "1") Cluster.empty
        (notifySecond ++ [.deliver ⟨"1", 0, "2", sendAppendEntry "1" closeEntry 1⟩ {}]) = true := by
    decide +kernel
  simp only [Option.bind_eq_some_iff, Option.map_eq_some_iff, Prod.mk.injEq] at outcome
  obtain ⟨⟨c, reached, next, stepped, before, here, after, there, low, high, log⟩, checked⟩ := outcome
  have applies : Applies before.server after.server closeEntry := ⟨0, by omega, by omega, by rw [log]; rfl⟩
  have meets : Transition.Meets (Cluster.step mainServers) (Cluster.Follows "1") Cluster.empty
      (notifySecond ++ [.deliver ⟨"1", 0, "2", sendAppendEntry "1" closeEntry 1⟩ {}]) :=
    Transition.meets_of_check _ _ (Cluster.follows "1") (fun _ _ _ holds => holds) checked
  exact ⟨c, next, before, after, reached, stepped, here, there, applies,
    applied_after_commit mainServers "1" notifySecond _ c next meets reached stepped "2" (by decide) before after
      here there closeEntry applies⟩

def missFirst : List ClusterAction :=
  startThree ++ closeThrough "3" ++
    [.act "1" (.begin 1 .close 0 ⟨"r5", 1, true, 0, [51, 10], "d"⟩), .act "1" (.handler 1 .acquire),
      .act "1" (.handler 1 (.copy .stored)), .act "1" (.handler 1 .index), .act "1" (.handler 1 (.append .done)),
      .act "1" (.handler 1 .send)]

def overtakingEntry : LogEntry := ⟨2, "WRITE", "output/b", [51, 10], 1⟩

theorem uncommitted_entry_applied :
    ∃ c next before after,
      Transition.run (Cluster.step mainServers) Cluster.empty missFirst = some c ∧
      c.step mainServers (.deliver ⟨"1", 1, "2", sendAppendEntry "1" overtakingEntry 1⟩ {}) = some next ∧
      c.node "2" = some before ∧ next.node "2" = some after ∧
      Applies before.server after.server overtakingEntry ∧ after.server.bytes "output/b" = some [51, 10] ∧
      ¬ Transition.Once (Cluster.step mainServers) (Cluster.CommitsUpTo "1" overtakingEntry.index)
        Cluster.empty missFirst := by
  have outcome : (Transition.run (Cluster.step mainServers) Cluster.empty missFirst).bind (fun c =>
      (c.step mainServers (.deliver ⟨"1", 1, "2", sendAppendEntry "1" overtakingEntry 1⟩ {})).bind fun next =>
        (c.node "2").bind fun before => (next.node "2").map fun after =>
          (before.server.lastApplied, after.server.lastApplied, after.server.log, after.server.bytes "output/b")) =
      some (0, 1, [overtakingEntry], some [51, 10]) ∧
      ¬ Transition.Once (Cluster.step mainServers) (Cluster.CommitsUpTo "1" overtakingEntry.index)
        Cluster.empty missFirst := by
    decide +kernel
  simp only [Option.bind_eq_some_iff, Option.map_eq_some_iff, Prod.mk.injEq] at outcome
  obtain ⟨⟨c, reached, next, stepped, before, here, after, there, low, high, log, file⟩, uncommitted⟩ := outcome
  exact ⟨c, next, before, after, reached, stepped, here, there, ⟨0, by omega, by omega, by rw [log]; rfl⟩, file,
    uncommitted⟩

end Ikkat
