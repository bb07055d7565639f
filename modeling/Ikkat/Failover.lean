import Ikkat.Retention

set_option autoImplicit false

namespace Ikkat

structure Service where
  server : String → Option Server
  primary : String
  ledger : List (String × UInt64)

inductive ServiceAction where
  | create (env : Env) (req : CreateRequest)
  | openFile (env : Env) (req : FileRequest)
  | close (env : Env) (req : DataRequest)
  | delete (env : Env) (req : DeleteRequest)
  | deliver (id : String) (disk : DiskIO) (req : AppendEntriesRequest)
  | sync (id : String) (disk : DiskIO) (msg : UpdateMessage)
  | beat (id : String) (now : Time) (req : Heartbeat)
  | reply (id : String) (success : Bool)
  | restart (id : String) (io : Nat → ApplyIO) (now : Time) (port : String)
  | promote (id : String) (now : Time)

def strike (ledger : List (String × UInt64)) (req : DeleteRequest) :
    Except Status Response → List (String × UInt64)
  | .error _ => ledger
  | .ok _ => ledger.filter fun item => normalize req.filename ≠ some item.1

namespace Service

def put (d : Service) (id : String) (s : Server) : Service :=
  { d with server := Function.update d.server id (some s) }

def change (d : Service) (id : String) (update : Server → Server) : Option Service :=
  (d.server id).map fun s => d.put id (update s)

-- A request to the current primary; one that panics or waits for ever is not answered.
def handle (d : Service) (request : Server → Result)
    (book : Server → Server → Except Status Response → List (String × UInt64)) : Option Service := do
  let s ← d.server d.primary
  match request s with
  | .returned next answer _ => some { d.put d.primary next with ledger := book s next answer }
  | _ => none

variable [LogCodec]

-- Any AppendEntries request, any recovery message and any heartbeat may reach any server at any time.
def step (config : Map String ServerInfo) (d : Service) : ServiceAction → Option Service
  | .create env req => d.handle (fun s => s.create env req) fun _ _ _ => d.ledger
  | .openFile env req => d.handle (fun s => s.openFile env req) fun _ _ _ => d.ledger
  | .close env req =>
      d.handle (fun s => s.close env req) fun s next answer => d.ledger ++ s.putBy next env req answer
  | .delete env req => d.handle (fun s => s.delete env req) fun _ _ answer => strike d.ledger req answer
  | .deliver id disk req => d.change id fun s => (s.appendEntries disk req).1
  | .sync id disk msg => d.change id fun s => (s.applyUpdate disk msg).1
  | .beat id now req => d.change id fun s => (s.sendHeartbeat now req).1
  | .reply id success => d.change id fun s => s.heartbeatReply success
  | .restart id io now port => d.change id (Server.restarted config io now port)
  | .promote id now => do
      let s ← d.server id
      let elected := s.monitorPrimary now
      if elected.role = .primary then some { d.put id elected.rebuildAllPrimeSets with primary := id } else none

end Service

section Run

variable [LogCodec] (files : OutputNames)

-- What keeps the service from losing a number. A Close must find the set of its file complete, and a backup must have
-- what the primary has when it takes over; a restart needs a log file it can read, and nothing may be delivered to
-- the server that is primary.
def Careful (d : Service) : ServiceAction → Prop
  | .create _ req => ∀ safe, normalize req.filename = some safe → safe ∈ files.names
  | .openFile _ req => ∀ safe, normalize req.filename = some safe → safe ∈ files.names
  | .delete _ req => ∀ safe, normalize req.filename = some safe → safe ∈ files.names
  | .close env req => ∀ s, d.server d.primary = some s → ∀ call ready,
      s.Enters .close env req call ready → s.Complete env req call.filename
  | .deliver id disk req => id ≠ d.primary ∧ (∀ position count, disk.persist position ≠ .cut count) ∧
      ∀ e ∈ req.entries, Loggable files e.received
  | .sync id disk msg => id ≠ d.primary ∧ (∀ position count, disk.persist position ≠ .cut count) ∧
      (∀ e ∈ msg.logEntries, Loggable files e.received) ∧ ∀ f ∈ msg.fullFiles, f.filename ∈ files.names
  | .restart id io _ _ => id = d.primary → (∀ position, io position = .ok) ∧
      ∀ s, d.server id = some s → (scanLines [] s.logFile).2 = false
  | .promote id _ => ∀ s other, d.server d.primary = some s → d.server id = some other →
      ∀ name ∈ files.names, ∀ number, s.Retains name number → other.Retains name number
  | _ => True

structure Server.UpToDate (s other : Server) (name : String) : Prop where
  logFile : other.logFile = s.logFile
  readable : (scanLines [] other.logFile).2 = false
  applied : other.log.length ≤ other.lastApplied
  file : ∀ entry ∈ lastFor name (recorded other.logFile), other.bytes name = some entry.content

instance (s other : Server) (name : String) : Decidable (s.UpToDate other name) :=
  decidable_of_iff (other.logFile = s.logFile ∧ (scanLines [] other.logFile).2 = false ∧
      other.log.length ≤ other.lastApplied ∧
      ∀ entry ∈ lastFor name (recorded other.logFile), other.bytes name = some entry.content)
    ⟨fun ⟨logFile, readable, applied, file⟩ => ⟨logFile, readable, applied, file⟩,
      fun caught => ⟨caught.logFile, caught.readable, caught.applied, caught.file⟩⟩

theorem Server.UpToDate.retains {s other : Server} {name : String} {number : UInt64} (caught : s.UpToDate other name)
    (retains : s.Retains name number) : other.Retains name number := by
  have disk := retains.disk
  rw [← caught.logFile] at disk
  obtain ⟨entries, holds, entry, newest, inside⟩ := disk
  have read : recorded other.logFile = entries := by
    have readable := caught.readable
    rw [holds] at readable ⊢
    exact recorded_logBytes readable
  refine ⟨⟨entry.content, caught.file entry (read ▸ newest), inside⟩, ⟨entries, holds, entry, newest, inside⟩, ?_⟩
  rw [Server.unapplied, List.drop_eq_nil_of_le caught.applied]
  intro entry waiting
  cases waiting

theorem promote_careful {d : Service} {id : String} {now : Time} (caught : ∀ s other, d.server d.primary = some s →
    d.server id = some other → ∀ name ∈ files.names, s.UpToDate other name) : Careful files d (.promote id now) :=
  fun s other leads here name member _ retains => (caught s other leads here name member).retains retains

namespace Service

structure Safe (d : Service) : Prop where
  tidy : ∀ id s, d.server id = some s → s.Tidy files
  retained : ∀ item ∈ d.ledger, item.1 ∈ files.names ∧
    ∃ s, d.server d.primary = some s ∧ s.Retains item.1 item.2

variable {d next : Service}

theorem tidy_put (tidy : ∀ id s, d.server id = some s → s.Tidy files) (id : String)
    {next : Server} (fine : next.Tidy files) (other : String) (s : Server)
    (here : (d.put id next).server other = some s) : s.Tidy files := by
  by_cases same : other = id
  · subst same
    obtain rfl : next = s := by simpa [put] using here
    exact fine
  · refine tidy other s ?_
    simpa [put, Function.update_of_ne same] using here

theorem safe_handle (safe : d.Safe files) {request : Server → Result}
    {book : Server → Server → Except Status Response → List (String × UInt64)}
    (stepped : d.handle request book = some next)
    (fine : ∀ s after answer sent, d.server d.primary = some s → request s = .returned after answer sent →
      after.Tidy files ∧ ∀ item ∈ book s after answer, item.1 ∈ files.names ∧ after.Retains item.1 item.2) :
    next.Safe files := by
  obtain ⟨s, here, handled⟩ := Option.bind_eq_some_iff.mp stepped
  split at handled
  case h_2 => cases handled
  case h_1 after answer sent returned =>
    obtain rfl := Option.some.inj handled
    obtain ⟨tidy, retained⟩ := fine s after answer sent here returned
    refine ⟨tidy_put files safe.tidy d.primary tidy, fun item listed => ?_⟩
    exact ⟨(retained item listed).1, after, Function.update_self .., (retained item listed).2⟩

theorem safe_change (safe : d.Safe files) {id : String} {update : Server → Server}
    (stepped : d.change id update = some next)
    (fine : ∀ s, d.server id = some s → (update s).Tidy files ∧ (id = d.primary →
      ∀ name ∈ files.names, ∀ number, s.Retains name number → (update s).Retains name number)) :
    next.Safe files := by
  obtain ⟨s, here, rfl⟩ := Option.map_eq_some_iff.mp stepped
  obtain ⟨tidy, kept⟩ := fine s here
  refine ⟨tidy_put files safe.tidy id tidy, fun item listed => ?_⟩
  obtain ⟨member, primary, leads, retains⟩ := safe.retained item listed
  refine ⟨member, ?_⟩
  by_cases same : d.primary = id
  · subst same
    obtain rfl : s = primary := Option.some.inj (here.symm.trans leads)
    exact ⟨_, Function.update_self .., kept rfl _ member _ retains⟩
  · exact ⟨primary, (Function.update_of_ne same ..).trans leads, retains⟩

theorem safe_promote {config : Map String ServerInfo} (safe : d.Safe files) {id : String}
    {now : Time} (careful : Careful files d (.promote id now))
    (stepped : d.step config (.promote id now) = some next) : next.Safe files := by
  obtain ⟨other, here, elected⟩ := Option.bind_eq_some_iff.mp stepped
  simp only [Option.ite_none_right_eq_some, Option.some.injEq] at elected
  obtain ⟨_, rfl⟩ := elected
  have promoted := Server.viewOnly_retaining files (safe.tidy id other here) (other.promoted_viewOnly now)
  refine ⟨tidy_put files safe.tidy id promoted.tidy, fun item listed => ?_⟩
  obtain ⟨member, s, leads, retains⟩ := safe.retained item listed
  exact ⟨member, _, Function.update_self ..,
    promoted.kept _ member _ (careful s other leads here _ member _ retains)⟩

theorem safe_step (config : Map String ServerInfo) (d next : Service) (action : ServiceAction)
    (safe : d.Safe files) (careful : Careful files d action) (stepped : d.step config action = some next) :
    next.Safe files := by
  -- The primary's own requests: what the ledger said before, the same server still retains.
  have carried (s after : Server) (leads : d.server d.primary = some s) (retaining : s.Retaining files after)
      (item : String × UInt64) (listed : item ∈ d.ledger) :
      item.1 ∈ files.names ∧ after.Retains item.1 item.2 := by
    obtain ⟨member, primary, here, retains⟩ := safe.retained item listed
    obtain rfl : primary = s := Option.some.inj (here.symm.trans leads)
    exact ⟨member, retaining.kept _ member _ retains⟩
  cases action with
  | create env req =>
    refine safe_handle files safe stepped fun s after answer sent here returned => ?_
    have retaining := Server.create_retaining files (safe.tidy _ s here) careful returned
    exact ⟨retaining.tidy, carried s after here retaining⟩
  | openFile env req =>
    refine safe_handle files safe stepped fun s after answer sent here returned => ?_
    have retaining := Server.open_retaining files (safe.tidy _ s here) careful returned
    exact ⟨retaining.tidy, carried s after here retaining⟩
  | close env req =>
    refine safe_handle files safe stepped fun s after answer sent here returned => ?_
    have tidy := safe.tidy _ s here
    have retaining := Server.close_retaining files tidy (careful s here) returned
    refine ⟨retaining.tidy, fun item listed => ?_⟩
    rcases List.mem_append.mp listed with old | new
    · exact carried s after here retaining item old
    · exact Server.close_put files tidy (careful s here) returned new
  | delete env req =>
    refine safe_handle files safe stepped fun s after answer sent here returned => ?_
    obtain ⟨tidy, kept⟩ :=
      Server.delete_retains files (safe.tidy _ s here) careful returned
    refine ⟨tidy, fun item listed => ?_⟩
    obtain ⟨old, spared⟩ : item ∈ d.ledger ∧
        ∀ response, answer = .ok response → normalize req.filename ≠ some item.1 := by
      cases answer with
      | error status => exact ⟨listed, fun _ other => by cases other⟩
      | ok response =>
        obtain ⟨old, other⟩ := List.mem_filter.mp listed
        exact ⟨old, fun _ _ => by simpa using other⟩
    obtain ⟨member, primary, leads, retains⟩ := safe.retained item old
    obtain rfl : primary = s := Option.some.inj (leads.symm.trans here)
    exact ⟨member, kept _ member _ spared retains⟩
  | deliver id disk req =>
    obtain ⟨backup, whole, good⟩ := careful
    refine safe_change files safe stepped fun s here => ?_
    exact ⟨Server.appendEntries_tidy files whole good (safe.tidy id s here), fun own => absurd own backup⟩
  | sync id disk msg =>
    obtain ⟨backup, whole, good, known⟩ := careful
    refine safe_change files safe stepped fun s here => ?_
    exact ⟨Server.applyUpdate_tidy files whole good known (safe.tidy id s here),
      fun own => absurd own backup⟩
  | beat id now req =>
    refine safe_change files safe stepped fun s here => ?_
    have retaining := Server.viewOnly_retaining files (safe.tidy id s here) (s.sendHeartbeat_viewOnly now req)
    exact ⟨retaining.tidy, fun _ => retaining.kept⟩
  | reply id success =>
    refine safe_change files safe stepped fun s here => ?_
    have retaining := Server.viewOnly_retaining files (safe.tidy id s here) (s.heartbeatReply_viewOnly success)
    exact ⟨retaining.tidy, fun _ => retaining.kept⟩
  | restart id io now port =>
    refine safe_change files safe stepped fun s here => ?_
    have tidy := safe.tidy id s here
    refine ⟨s.restarted_tidy files config io now port tidy, fun own name member number => ?_⟩
    obtain ⟨healthy, readable⟩ := careful own
    exact Server.restarted_retains files config healthy now port tidy (readable s here) member number
  | promote id now => exact safe_promote files safe careful stepped

end Service

theorem acknowledged_numbers_survive (config : Map String ServerInfo) (d : Service)
    (tidy : ∀ id s, d.server id = some s → s.Tidy files) (fresh : d.ledger = [])
    (actions : List ServiceAction) (final : Service)
    (careful : Transition.Meets (Service.step config) (Careful files) d actions)
    (reached : Transition.run (Service.step config) d actions = some final) :
    ∀ item ∈ final.ledger, ∃ s, final.server final.primary = some s ∧ item.2 ∈ s.numbers item.1 := by
  have safe : final.Safe files :=
    Transition.run_invariant (Careful files) (Service.Safe files)
      (fun d action next => Service.safe_step files config d next action) d
      ⟨tidy, fun item listed => by simp [fresh] at listed⟩ actions careful reached
  intro item listed
  obtain ⟨_, s, leads, retains⟩ := safe.retained item listed
  obtain ⟨content, holds, inside⟩ := retains.file
  exact ⟨s, leads, Server.numbers_eq holds ▸ inside⟩

end Run

def soleServer : Service where
  server := fun id => if id = "1" then some firstPrimary else none
  primary := "1"
  ledger := []

def closeAgain (data : Bytes) : List ServiceAction :=
  let close (requestId : String) (version : Int32) (data : Bytes) : ServiceAction :=
    .close { answers := [("2", true), ("3", true)] } ⟨requestId, 0, true, version, data, "c"⟩
  [.create {} ⟨"r1", "output/a", "c", .write⟩, close "r2" 0 [50, 10],
    .restart "1" (fun _ => .ok) 0 "5001", .openFile {} ⟨"r3", "output/a", .write, "c"⟩, close "r4" 1 data]

def pairedServers : Service where
  server := fun id => if id = "1" then some firstPrimary else if id = "2" then some freshBackup else none
  primary := "1"
  ledger := []

def survivingRun : List ServiceAction :=
  closeAgain [50, 10, 51, 10] ++
    [.deliver "2" {} (sendAppendEntry "1" ⟨1, "WRITE", "output/a", [50, 10], 1⟩ 1),
      .deliver "2" {} (sendAppendEntry "1" ⟨2, "WRITE", "output/a", [50, 10, 51, 10], 2⟩ 2), .promote "2" (9 * second)]

def carefulFor (d : Service) : ServiceAction → Bool
  | .close _ req => (d.server d.primary).all fun s => s.completeFor req
  | .restart id _ _ _ => (d.server id).all fun s => !(scanLines [] s.logFile).2
  | .deliver id _ _ => id ≠ d.primary
  | .promote id _ =>
      (d.server d.primary).all fun s => (d.server id).all fun other => decide (s.UpToDate other "output/a")
  | _ => true

theorem survivingRun_careful :
    Transition.Meets (Service.step mainServers) (Careful oneFile) pairedServers survivingRun := by
  refine Transition.meets_of_check _ _ carefulFor (fun d action listed holds => ?_) (by decide +kernel)
  have named (safe : String) (same : normalize "output/a" = some safe) : safe ∈ oneFile.names := by
    have plain : normalize "output/a" = some "output/a" := by decide
    exact Option.some.inj (same.symm.trans plain)
  have closes (requestId : String) (version : Int32) (bytes : Bytes)
      (holds : carefulFor d (.close { answers := [("2", true), ("3", true)] }
        ⟨requestId, 0, true, version, bytes, "c"⟩) = true) :
      Careful oneFile d (.close { answers := [("2", true), ("3", true)] }
        ⟨requestId, 0, true, version, bytes, "c"⟩) := by
    intro s leads call ready enters
    rw [carefulFor, leads] at holds
    exact Server.complete_of_check holds (fun _ => rfl) (fun _ other => by cases other) enters
  have delivers (content : Bytes) (index version : Int32)
      (holds : carefulFor d (.deliver "2" {} ⟨"1", [⟨index, "WRITE", "output/a", content, version⟩], index⟩) = true) :
      Careful oneFile d (.deliver "2" {} ⟨"1", [⟨index, "WRITE", "output/a", content, version⟩], index⟩) := by
    refine ⟨of_decide_eq_true holds, nofun, fun e listed => ?_⟩
    rw [List.mem_singleton.mp listed]
    exact ⟨rfl, rfl⟩
  simp only [survivingRun, closeAgain, List.cons_append, List.nil_append, List.mem_cons, List.not_mem_nil, or_false]
    at listed
  rcases listed with rfl | rfl | rfl | rfl | rfl | rfl | rfl | rfl
  · exact named
  · exact closes _ _ _ holds
  · intro _
    refine ⟨fun _ => rfl, fun s here => ?_⟩
    rw [carefulFor, here] at holds
    simpa using holds
  · exact named
  · exact closes _ _ _ holds
  · exact delivers _ _ _ holds
  · exact delivers _ _ _ holds
  · refine promote_careful oneFile fun s other leads here name member => ?_
    rw [carefulFor, leads, here] at holds
    rw [show name = "output/a" from member]
    exact of_decide_eq_true holds

theorem tidy_of_fresh {s : Server} (logFile : s.logFile = []) (log : s.log = []) (files : s.files = ∅) :
    s.Tidy oneFile := by
  refine ⟨⟨[], logFile, by simp⟩, by simp [log], fun fd found present => ?_⟩
  rw [files] at present
  cases present

theorem number_survives_restart_and_promotion :
    ∃ final s, Transition.run (Service.step mainServers) pairedServers survivingRun = some final ∧
      final.primary = "2" ∧ ("output/a", 2) ∈ final.ledger ∧ final.server "2" = some s ∧ 2 ∈ s.numbers "output/a" := by
  have outcome : (Transition.run (Service.step mainServers) pairedServers survivingRun).map
      (fun d => (d.primary, d.ledger.contains ("output/a", 2))) = some ("2", true) := by decide +kernel
  obtain ⟨final, reached, facts⟩ := Option.map_eq_some_iff.mp outcome
  obtain ⟨primary, listed⟩ := Prod.mk.inj facts
  have member : ("output/a", (2 : UInt64)) ∈ final.ledger := by simpa using listed
  have tidy : ∀ id s, pairedServers.server id = some s → s.Tidy oneFile := by
    intro id s here
    simp only [pairedServers] at here
    split_ifs at here
    · obtain rfl := Option.some.inj here
      exact tidy_of_fresh (by decide +kernel) (by decide +kernel) rfl
    · obtain rfl := Option.some.inj here
      exact tidy_of_fresh (by decide +kernel) (by decide +kernel) rfl
  obtain ⟨s, leads, inside⟩ := acknowledged_numbers_survive oneFile mainServers pairedServers tidy rfl _ final
    survivingRun_careful reached _ member
  exact ⟨final, s, reached, primary, member, primary ▸ leads, inside⟩

-- Recovery leaves the set of the file empty, so the second Close writes the file without its old number.
theorem restarted_primary_forgets_number :
    ∃ final s, Transition.run (Service.step mainServers) soleServer (closeAgain [51, 10]) = some final ∧
      final.server final.primary = some s ∧ ("output/a", 2) ∈ final.ledger ∧ s.numbers "output/a" = [3] := by
  have outcome : (Transition.run (Service.step mainServers) soleServer (closeAgain [51, 10])).map
      (fun d => (d.ledger.contains ("output/a", 2), (d.server d.primary).map fun s => s.numbers "output/a")) =
        some (true, some [3]) := by decide +kernel
  obtain ⟨final, reached, facts⟩ := Option.map_eq_some_iff.mp outcome
  simp only [Prod.mk.injEq, Option.map_eq_some_iff, List.contains_iff_mem] at facts
  obtain ⟨listed, s, leads, left⟩ := facts
  exact ⟨final, s, reached, leads, listed, left⟩

end Ikkat
