import Ikkat.Shared.Run
import Ikkat.Commits

set_option autoImplicit false

namespace Ikkat

variable {env : Env} {answer : Except Status Response} {kind : Kind} {sent : List AppendEntriesRequest}
variable {s next : Server}

inductive Rpc where
  | create (req : CreateRequest)
  | openFile (req : FileRequest)
  | close (req : DataRequest)
  | write (req : DataRequest)
  | delete (req : DeleteRequest)
  deriving DecidableEq

def Rpc.requestId : Rpc → String
  | .create req => req.requestId
  | .openFile req => req.requestId
  | .close req => req.requestId
  | .write req => req.requestId
  | .delete req => req.requestId

def Kind.rpc (kind : Kind) (req : DataRequest) : Rpc :=
  match kind with
  | .close => .close req
  | .write => .write req

def Rpc.fits : Rpc → Response → Bool
  | .create _, .opened _ => true
  | .openFile _, .opened _ => true
  | .close _, .closed _ => true
  | .write _, .written _ => true
  | .delete _, .deleted _ => true
  | _, _ => false

structure Delivery where
  env : Env
  rpc : Rpc

def leaseTimeout : Time := 10 * 60 * second

structure ReadRequest where
  filename : String
  clientID : String
  deriving DecidableEq, Repr

structure ReadAnswers where
  now : Time
  seek : Bool
  chunks : List Bytes
  readFails : Bool
  taken : Nat
  deriving DecidableEq, Repr

namespace Server

def streamChunks (io : ReadAnswers) : List Bytes × Option Status :=
  if io.taken < io.chunks.length then (io.chunks.take io.taken, some ⟨.internal, "stream send failed"⟩)
  else if io.readFails then (io.chunks, some ⟨.internal, "read failed"⟩)
  else (io.chunks, none)

def read (io : ReadAnswers) (s : Server) (req : ReadRequest) : Server × List Bytes × Option Status :=
  let refuse (code : Code) (message : String) : Server × List Bytes × Option Status :=
    (s, [], some ⟨code, message⟩)
  match s.notLeader with
  | some status => (s, [], some status)
  | none =>
      match normalize req.filename with
      | none => refuse .invalidArgument "invalid path"
      | some safe =>
          let key : FileKey := ⟨req.clientID, safe⟩
          match s.openMap.lookup key with
          | none => refuse .permissionDenied "file not opened by client"
          | some fd =>
              match s.files.lookup fd with
              | none => refuse .internal "file metadata missing"
              | some found =>
                  match found.clients.lookup req.clientID with
                  | none => refuse .permissionDenied "client not registered"
                  | some client =>
                      if client.mode ≠ .read ∧ client.mode ≠ .write ∧ client.mode ≠ .other 2 then
                        refuse .permissionDenied "read not allowed"
                      else if io.now - client.lastSeen > leaseTimeout then
                        ({ s with
                            openMap := s.openMap.erase key
                            files := s.files.insert fd { found with clients := found.clients.erase req.clientID } },
                          [], some ⟨.permissionDenied, "lease expired"⟩)
                      else
                        let clients := found.clients.insert req.clientID { client with lastSeen := io.now }
                        let s := { s with files := s.files.insert fd { found with clients := clients } }
                        if io.seek then (s, streamChunks io) else (s, [], some ⟨.internal, "seek failed"⟩)

def testAuth (s : Server) (filename : String) : Except Status Int32 :=
  match s.notLeader with
  | some status => .error status
  | none =>
      match normalize filename with
      | none => .error ⟨.invalidArgument, "invalid path"⟩
      | some safe =>
          match s.table.lookup safe with
          | none => .error ⟨.notFound, "file not found"⟩
          | some entry => .ok entry.version

def serve [LogCodec] (env : Env) (s : Server) : Rpc → Result
  | .create req => s.create env req
  | .openFile req => s.openFile env req
  | .close req => s.close env req
  | .write req => s.write env req
  | .delete req => s.delete env req

inductive Noted (env : Env) (before after : Map String RequestEntry) (rpc : Rpc) : Except Status Response → Prop where
  | stored (response : Response) (fits : rpc.fits response = true)
      (requests : after = before.insert rpc.requestId ⟨response, env.finish⟩) : Noted env before after rpc (.ok response)
  | failed (status : Status) (requests : after = before) : Noted env before after rpc (.error status)

theorem requests_releaseWrite (s : Server) (name : String) : (s.releaseWrite name).requests = s.requests := by
  obtain ⟨table, same⟩ := s.releaseWrite_eq name
  rw [same]

theorem finishCall_requests (env : Env) (s : Server) (call : Call) : (s.finishCall env call).1.requests =
      s.requests.insert call.req.requestId ⟨(s.finishCall env call).2, env.finish⟩ := by
  obtain ⟨table, tree, bumped, _⟩ := s.bumpVersion_eq env call
  obtain ⟨files, dropped⟩ := dropClient_eq { s with table := table, tree := tree } call
  have kept : ((s.bumpVersion env call).dropClient call).requests = s.requests := by rw [bumped, dropped]
  change ((s.bumpVersion env call).dropClient call).requests.insert _ _ = _
  rw [kept]
  rfl

end Server

def Recorded (env : Env) (s next : Server) (rpc : Rpc) (answer : Except Status Response) : Prop :=
  (∃ response, answer = .ok response ∧ s.cached rpc.requestId env.start = some response ∧ next = s) ∨
    Server.Noted env s.requests next.requests rpc answer

namespace Server

theorem Dismissed.recorded {rpc : Rpc} {own : Response → Bool}
    (why : Dismissed env s rpc.requestId own (.returned next answer sent)) : Recorded env s next rpc answer := by
  cases why with
  | elsewhere => exact .inr (.failed _ rfl)
  | repeated response _ hit => exact .inl ⟨response, rfl, hit, rfl⟩

theorem create_recorded {req : CreateRequest}
    (handled : s.create env req = .returned next answer sent) : Recorded env s next (.create req) answer := by
  cases handled ▸ s.create_exit env req with
  | dismissed why => exact why.recorded
  | unnamed | barred | failed => exact .inr (.failed _ rfl)
  | created => exact .inr (.stored _ rfl rfl)

theorem openFile_recorded {req : FileRequest}
    (handled : s.openFile env req = .returned next answer sent) : Recorded env s next (.openFile req) answer := by
  cases handled ▸ s.openFile_exit env req with
  | dismissed why => exact why.recorded
  | unnamed | failed => exact .inr (.failed _ rfl)
  | opened => exact .inr (.stored _ rfl rfl)

theorem delete_recorded {req : DeleteRequest}
    (handled : s.delete env req = .returned next answer sent) : Recorded env s next (.delete req) answer := by
  cases handled ▸ s.delete_exit env req with
  | dismissed why => exact why.recorded
  | unnamed | input | directory | busy | failed => exact .inr (.failed _ rfl)
  | gone | removed => exact .inr (.stored _ rfl rfl)

theorem commitCall_requests [LogCodec] (env : Env) (s : Server) (call : Call) :
    (s.commitCall env call).1.requests = s.requests := by
  obtain ⟨logFile, _, ⟨_, same, _⟩ | ⟨_, same, _⟩⟩ := commitCall_cases env s call
  · rw [same]
  · rw [same, commitEntry_eq]
    obtain ⟨tree, filesPrimes, updated⟩ := updatePrimes_eq env (applied env.apply
      { s with
        log := s.log ++ [s.logEntry call (s.content env.range call) s.log.length]
        logFile := logFile
        commitIndex := (s.logEntry call (s.content env.range call) s.log.length).index.toNat })
      call (s.tempPrimeSet call).2
    rw [updated]
    rfl

theorem cachedCall_hit {requestId : String} {now : Time} {response : Response}
    (hit : s.cachedCall kind requestId now = some (some response)) : s.cached requestId now = some response := by
  unfold cachedCall at hit
  split at hit <;> simp_all

theorem beginCall_recorded {req : DataRequest}
    (begun : s.beginCall kind env.start req = .ended (.returned next answer sent)) :
    Recorded env s next (kind.rpc req) answer := by
  have own : (kind.rpc req).requestId = req.requestId := by cases kind <;> rfl
  unfold beginCall refuse at begun
  split at begun
  case h_1 => cases begun; exact .inr (.failed _ rfl)
  case h_2 =>
    split at begun
    case h_1 response hit =>
      cases begun
      exact .inl ⟨response, rfl, own ▸ cachedCall_hit hit, rfl⟩
    case h_2 => cases begun
    case h_3 =>
      split at begun
      case h_1 => cases begun; exact .inr (.failed _ rfl)
      case h_2 => split at begun <;> cases begun

theorem finishCall_noted (env : Env) {before : Map String RequestEntry} (call : Call) (same : s.requests = before) :
    Noted env before (s.finishCall env call).1.requests (call.kind.rpc call.req) (.ok (s.finishCall env call).2) := by
  have own : (call.kind.rpc call.req).requestId = call.req.requestId := by cases call.kind <;> rfl
  refine .stored _ ?_ ?_
  · unfold finishCall Call.response
    cases call.kind <;> rfl
  · rw [finishCall_requests, same, own]

theorem handleCall_recorded [LogCodec] {req : DataRequest}
    (handled : s.handleCall kind env req = .returned next answer sent) :
    Recorded env s next (kind.rpc req) answer := by
  unfold handleCall at handled
  split at handled
  case h_1 result begun =>
    subst handled
    exact beginCall_recorded begun
  case h_2 opened call begun =>
    obtain ⟨found, client, table, _, _, _, rfl, rfl⟩ := beginCall_opened kind env.start s opened req call begun
    have finished (ready : Server) (requests : ready.requests = s.requests) :
        Noted env s.requests (ready.finishCall env ⟨kind, req, found.filename, client.mode⟩).1.requests
          (kind.rpc req) (.ok (ready.finishCall env ⟨kind, req, found.filename, client.mode⟩).2) :=
      finishCall_noted env ⟨kind, req, found.filename, client.mode⟩ requests
    right
    split_ifs at handled
    · obtain ⟨locked, same⟩ := acquireWrite_eq { s with table := table }
        (Call.name ⟨kind, req, found.filename, client.mode⟩)
      dsimp only at handled
      rw [same] at handled
      have committed := commitCall_requests env { s with table := locked } ⟨kind, req, found.filename, client.mode⟩
      split at handled
      case h_1 =>
        cases handled
        exact .failed _ (requests_releaseWrite _ _)
      case h_2 =>
        split at handled
        case h_1 =>
          cases handled
          exact .failed _ ((requests_releaseWrite _ _).trans committed)
        case h_2 =>
          cases handled
          rw [requests_releaseWrite]
          exact finished _ committed
    · cases handled
      exact finished _ rfl

theorem serve_recorded [LogCodec] {rpc : Rpc} (handled : s.serve env rpc = .returned next answer sent) :
    Recorded env s next rpc answer := by
  cases rpc with
  | create req => exact create_recorded handled
  | openFile req => exact openFile_recorded handled
  | close req | write req => exact handleCall_recorded handled
  | delete req => exact delete_recorded handled

end Server

def serveStep [LogCodec] (s : Server) (delivery : Delivery) : Option Server :=
  match s.serve delivery.env delivery.rpc with
  | .returned next _ _ => some next
  | _ => none

theorem serveStep_returned [LogCodec] {delivery : Delivery} (stepped : serveStep s delivery = some next) :
    ∃ answer sent, s.serve delivery.env delivery.rpc = .returned next answer sent := by
  unfold serveStep at stepped
  split at stepped
  case h_1 after answer sent handled =>
    obtain rfl := Option.some.inj stepped
    exact ⟨answer, sent, handled⟩
  case h_2 => cases stepped

end Ikkat
