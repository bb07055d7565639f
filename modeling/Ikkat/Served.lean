import Ikkat.LocalFiles
import Ikkat.Outcomes

set_option autoImplicit false

namespace Ikkat

variable {requestId filename clientID : String} {World : Type}

def Response.openReply : Response → Option OpenResponse
  | .opened response => some response
  | _ => none

def Response.closeReply : Response → Option CloseResponse
  | .closed response => some response
  | _ => none

def Response.writeReply : Response → Option WriteResponse
  | .written response => some response
  | _ => none

def Response.deleteReply : Response → Option DeleteResponse
  | .deleted response => some response
  | _ => none

abbrev Primary := Option Server

def ask {Reply : Type} (world : Primary) (request : Server → Option (Server × Reply)) : Primary × Except Failure Reply :=
  match world.bind request with
  | some (s, reply) => (some s, .ok reply)
  | none => (none, .error .deadlineExceeded)

def Result.reply {Reply : Type} (pick : Response → Option Reply) : Result → Option (Server × Reply)
  | .returned s (.ok response) _ => (pick response).map fun reply => (s, reply)
  | _ => none

def primaryNet [LogCodec] (env : Env) (reads : ReadAnswers) : Net Primary where
  create _ world req := ask world fun s => (s.create env req).reply Response.openReply
  openFile _ world req := ask world fun s => (s.openFile env req).reply Response.openReply
  close _ world req := ask world fun s => (s.close env req).reply Response.closeReply
  write _ world req := ask world fun s => (s.write env req).reply Response.writeReply
  delete _ world req := ask world fun s => (s.delete env req).reply Response.deleteReply
  testAuth _ world filename := ask world fun s => (s.testAuth filename).toOption.map fun version => (s, version)
  read _ world req := ask world fun s =>
    match s.read reads req with
    | (next, chunks, none) => some (next, chunks, none)
    | _ => none
  connect world _ := (world, none)

theorem ask_cases {Reply : Type} (world : Primary) (request : Server → Option (Server × Reply)) :
    ask world request = (none, .error .deadlineExceeded) ∨
      ∃ s next reply, world = some s ∧ request s = some (next, reply) ∧ ask world request = (some next, .ok reply) := by
  unfold ask
  cases made : world.bind request with
  | none => exact .inl rfl
  | some pair =>
    obtain ⟨s, here, there⟩ := Option.bind_eq_some_iff.mp made
    exact .inr ⟨s, pair.1, pair.2, here, there, rfl⟩

theorem deadline_leaderless : extractLeaderAddr .deadlineExceeded = none := by decide +kernel

theorem Result.reply_some {Reply : Type} {pick : Response → Option Reply} {result : Result} {next : Server}
    {reply : Reply} (replied : result.reply pick = some (next, reply)) :
    ∃ response sent, result = .returned next (.ok response) sent ∧ pick response = some reply := by
  unfold Result.reply at replied
  split at replied
  case h_1 s response sent =>
    obtain ⟨found, picked, same⟩ := Option.map_eq_some_iff.mp replied
    cases same
    exact ⟨response, sent, rfl, picked⟩
  case h_2 => cases replied

theorem Result.opened_reply (result : Result) {after : Server} {reply : OpenResponse}
    (replied : result.reply Response.openReply = some (after, reply)) :
    ∃ sent, result = .returned after (.ok (.opened reply)) sent := by
  obtain ⟨response, sent, same, picked⟩ := Result.reply_some replied
  cases response <;> cases picked
  exact ⟨sent, same⟩

namespace Server

section Granted

variable (env : Env) (s next : Server) (resp : OpenResponse) (sent : List AppendEntriesRequest)

theorem create_granted {req : CreateRequest} (uncached : s.cached req.requestId env.start = none)
    (handled : s.create env req = .returned next (.ok (.opened resp)) sent) :
    ∃ safe table tree requests openMap opened, normalize req.filename = some safe ∧
      s.files.entries.length < maxOpenFiles ∧ resp.fd = s.nextFD ∧ resp.version = 0 ∧
      next = { s with
        table := table, tree := tree, requests := requests, openMap := openMap
        nextFD := s.nextFD + 1, files := s.files.insert s.nextFD opened } ∧
      opened.clients = (∅ : Map String ClientState).insert req.clientId ⟨env.finish, req.mode⟩ ∧
      (table.lookup safe).map FileEntry.version = some 0 ∧ tree.find (s.path safe) = some (.file []) ∧
      openMap = s.openMap.insert ⟨req.clientId, safe⟩ s.nextFD ∧ opened.filename = safe := by
  cases handled ▸ s.create_exit env req with
  | dismissed why =>
    cases why with
    | repeated _ _ hit => cases uncached.symm.trans hit
  | created safe tree _ named _ room adds =>
    refine ⟨safe, _, tree, _, _, _, named, room, rfl, rfl, rfl, rfl, ?_, (adds.2 _ []).mpr (by rw [if_pos rfl]), rfl, rfl⟩
    have entered : safe ∈ (s.claimed safe).table := (s.mem_claimed safe safe).mpr (.inl rfl)
    obtain ⟨entry, found⟩ := Option.isSome_iff_exists.mp (AList.lookup_isSome.mpr entered)
    change ((s.created safe).table.lookup safe).map FileEntry.version = some 0
    rw [created, releaseWrite, lookup_setEntry, if_pos rfl, lookup_setEntry, if_pos rfl, found]
    rfl

theorem openFile_granted {req : FileRequest} (uncached : s.cached req.requestId env.start = none)
    (handled : s.openFile env req = .returned next (.ok (.opened resp)) sent) :
    ∃ safe requests openMap opened, normalize req.filename = some safe ∧
      s.files.entries.length < maxOpenFiles ∧ resp.fd = s.nextFD ∧
      resp.version = (s.getFileEntry safe).1.entryVersion safe ∧
      next = { s with
        table := (s.getFileEntry safe).1.table, requests := requests, openMap := openMap
        nextFD := s.nextFD + 1, files := s.files.insert s.nextFD opened } ∧
      opened.clients = (∅ : Map String ClientState).insert req.clientId ⟨env.finish, req.mode⟩ ∧
      openMap = s.openMap.insert ⟨req.clientId, safe⟩ s.nextFD ∧ opened.filename = safe := by
  cases handled ▸ s.openFile_exit env req with
  | dismissed why =>
    cases why with
    | repeated _ _ hit => cases uncached.symm.trans hit
  | opened safe _ _ named room => exact ⟨safe, _, _, _, named, room, rfl, rfl, rfl, rfl, rfl, rfl⟩

end Granted

theorem cachedCall_fresh (kind : Kind) {s : Server} {now : Time}
    (uncached : s.cached requestId now = none) : s.cachedCall kind requestId now = none := by
  unfold cachedCall
  rw [uncached]
  cases kind <;> rfl

theorem read_streamed {io : ReadAnswers} {s next : Server} {req : ReadRequest} {chunks : List Bytes}
    (streamed : s.read io req = (next, chunks, none)) :
    ∃ fd found client, s.files.lookup fd = some found ∧ found.clients.lookup req.clientID = some client ∧
      next = { s with files := s.files.insert fd { found with
        clients := found.clients.insert req.clientID { client with lastSeen := io.now } } } ∧
      streamChunks io = (chunks, none) := by
  unfold read at streamed
  split at streamed
  case h_1 => cases streamed
  case h_2 =>
    split at streamed
    case h_1 => cases streamed
    case h_2 safe _ =>
      dsimp only at streamed
      cases opened : s.openMap.lookup ⟨req.clientID, safe⟩ with
      | none =>
        rw [opened] at streamed
        cases streamed
      | some fd =>
        rw [opened] at streamed
        dsimp only at streamed
        split at streamed
        case h_1 => cases streamed
        case h_2 found present =>
          split at streamed
          case h_1 => cases streamed
          case h_2 client registered =>
            split_ifs at streamed
            · cases streamed
            · cases streamed
            · obtain ⟨rfl, ended⟩ := Prod.mk.inj streamed
              exact ⟨fd, found, client, present, registered, rfl, ended⟩
            · cases streamed

end Server

namespace Seat

variable {Reply : Type} (request : Server → Option (Server × Reply)) (seat : Seat Primary) (next : Server)

theorem retried_dead (net : Net Primary) (further : Nat) (failed : ask seat.world request = (none, .error .deadlineExceeded)) :
    (seat.retried net (fun _ world => ask world request) further).1.world = none := by
  induction further generalizing seat with
  | zero =>
    unfold retried
    rw [failed]
    dsimp only
    rw [deadline_leaderless]
  | succ further ih =>
    unfold retried
    rw [failed]
    exact ih { seat with world := none } rfl

theorem retried_live {net : Net Primary} {further : Nat}
    (live : (seat.retried net (fun _ world => ask world request) further).1.world = some next) :
    ∃ s reply, seat.world = some s ∧ request s = some (next, reply) ∧
      seat.retried net (fun _ world => ask world request) further = ({ seat with world := some next }, .ok reply) := by
  rcases ask_cases seat.world request with failed | ⟨s, after, reply, here, replied, answered⟩
  · rw [seat.retried_dead request net further failed] at live
    cases live
  · have first : seat.retried net (fun _ world => ask world request) further =
        ({ seat with world := some after }, .ok reply) := by
      unfold retried
      rw [answered]
    rw [first] at live
    obtain rfl := Option.some.inj live
    exact ⟨s, reply, here, replied, first⟩

theorem sent_live (net : Net Primary) (live : (seat.sent net fun _ world => ask world request).1.world = some next) :
    ∃ s reply, seat.world = some s ∧ request s = some (next, reply) ∧
      seat.sent net (fun _ world => ask world request) = ({ seat with world := some next }, .ok reply) := by
  rcases ask_cases seat.world request with failed | ⟨s, after, reply, here, replied, answered⟩
  · unfold sent at live
    dsimp only at live
    rw [failed] at live
    dsimp only at live
    rw [deadline_leaderless] at live
    cases live
  · have first : seat.sent net (fun _ world => ask world request) = ({ seat with world := some after }, .ok reply) := by
      unfold sent
      dsimp only
      rw [answered]
    rw [first] at live
    obtain rfl := Option.some.inj live
    exact ⟨s, reply, here, replied, first⟩

theorem settle_live (finish : Client → Reply → Client) (net : Net Primary)
    (live : (settle finish (seat.sent net fun _ world => ask world request)).1.world = some next) :
    ∃ s reply, seat.world = some s ∧ request s = some (next, reply) ∧
      settle finish (seat.sent net fun _ world => ask world request) =
        ({ seat with client := finish seat.client reply, world := some next }, .ok ()) := by
  have alive : (seat.sent net fun _ world => ask world request).1.world = some next := by
    rcases asked : seat.sent net fun _ world => ask world request with ⟨left, err | reply⟩ <;> rw [asked] at live <;> exact live
  obtain ⟨s, reply, here, replied, same⟩ := sent_live request seat next net alive
  exact ⟨s, reply, here, replied, by rw [same]; rfl⟩

theorem makeRoom_world (io : LocalIO) (seat : Seat World) : (seat.makeRoom io).1.world = seat.world := by
  rcases seat.makeRoom_cases io with ⟨_, same⟩ | ⟨_, _, _, same⟩ <;> rw [same]

theorem enter_world (io : LocalIO) (filename : String) (entry : CacheEntry) (seat : Seat World) :
    (seat.enter io filename entry).1.world = seat.world := by
  unfold enter
  dsimp only
  split <;> rfl

theorem forget_world (io : LocalIO) (filename : String) (seat : Seat World) :
    (seat.forget io filename).1.world = seat.world := by
  rcases seat.forget_cases io filename with ⟨_, same, _⟩ | ⟨_, same⟩ <;> rw [same]

theorem fetch_world (io : LocalIO) (filename : String) (entry : CacheEntry) (tmp : Path)
    (chunks : List Bytes) (ended : Option Failure) (seat : Seat World) :
    (fetch io filename entry tmp chunks ended seat).1.world = seat.world := by
  unfold fetch
  dsimp only
  split
  · rfl
  · split
    · rfl
    · split
      · rfl
      · split <;> rfl

theorem dataRequest_eq {io : LocalIO} {seat : Seat World} {who : String} {entry : CacheEntry}
    {req : DataRequest} (made : seat.dataRequest io requestId who entry = some req) :
    req.requestId = requestId ∧ req.fd = entry.fd ∧ req.clientID = who ∧ req.dirty = entry.dirty ∧
      (entry.dirty = true → seat.disk.find entry.localPath = some (.file req.data)) := by
  obtain ⟨data, read, rfl⟩ := Option.map_eq_some_iff.mp made
  refine ⟨rfl, rfl, rfl, rfl, fun dirty => ?_⟩
  rw [if_pos dirty] at read
  unfold osReadFile at read
  split at read
  case h_1 content found =>
    split_ifs at read
    rw [found, Option.some.inj read]
  case h_2 => cases read

theorem retried_open (net : Net Primary) (serve : Server → Result) (further : Nat)
    (live : (seat.retried net (fun _ world => ask world fun s => (serve s).reply Response.openReply) further).1.world =
      some next) :
    ∃ s resp sent, seat.world = some s ∧ serve s = .returned next (.ok (.opened resp)) sent ∧
      seat.retried net (fun _ world => ask world fun s => (serve s).reply Response.openReply) further =
        ({ seat with world := some next }, .ok resp) := by
  obtain ⟨s, resp, here, replied, same⟩ := retried_live _ seat next live
  obtain ⟨sent, returned⟩ := (serve s).opened_reply replied
  exact ⟨s, resp, sent, here, returned, same⟩

section Calls

variable [LogCodec] (env : Env) (reads : ReadAnswers) (io : LocalIO)

theorem testAuth_live (filename : String) (further : Nat)
    (live : (seat.testAuth (primaryNet env reads) filename further).1.world = some next) :
    ∃ version, seat.world = some next ∧ next.testAuth filename = .ok version ∧
      seat.testAuth (primaryNet env reads) filename further = (seat, .ok version) := by
  have dead (further : Nat) (seat : Seat Primary) (failed : (primaryNet env reads).testAuth seat.client.address seat.world
      filename = (none, .error .deadlineExceeded)) :
      (seat.testAuth (primaryNet env reads) filename further).1.world = none := by
    induction further generalizing seat with
    | zero =>
      unfold testAuth
      rw [failed]
      rfl
    | succ further ih =>
      unfold testAuth
      rw [failed]
      exact ih { seat with world := none } rfl
  rcases ask_cases seat.world fun s => (s.testAuth filename).toOption.map fun version => (s, version) with
    failed | ⟨s, after, version, here, replied, answered⟩
  · rw [dead further seat failed] at live
    cases live
  · obtain ⟨found, told, same⟩ := Option.map_eq_some_iff.mp replied
    cases same
    have first : seat.testAuth (primaryNet env reads) filename further = ({ seat with world := some s }, .ok version) := by
      unfold testAuth
      rw [show (primaryNet env reads).testAuth seat.client.address seat.world filename = _ from answered]
    rw [first] at live
    obtain rfl := Option.some.inj live
    have found : s.testAuth filename = .ok version := by
      cases result : s.testAuth filename with
      | error status => rw [result] at told; cases told
      | ok version => rw [result] at told; cases told; rfl
    refine ⟨version, here, found, first.trans ?_⟩
    rw [← here]

theorem create_live (live : (seat.create (primaryNet env reads) io requestId filename clientID).1.world = some next) :
    (∃ err, seat.create (primaryNet env reads) io requestId filename clientID = ((seat.makeRoom io).1, .error err)) ∨
      ∃ s resp sent, seat.world = some s ∧
        s.create env ⟨requestId, filename, clientID, .read⟩ = .returned next (.ok (.opened resp)) sent ∧
        seat.create (primaryNet env reads) io requestId filename clientID =
          enter io filename
            { filename := filename, localPath := (seat.makeRoom io).1.client.localPath filename, version := resp.version,
              dirty := false, fd := resp.fd, closed := true }
            { (seat.makeRoom io).1 with world := some next } := by
  have world := seat.makeRoom_world io
  unfold create at live ⊢
  generalize seat.makeRoom io = made at live world ⊢
  obtain ⟨roomed, failed⟩ := made
  cases failed with
  | some err => exact .inl ⟨err, rfl⟩
  | none =>
    right
    dsimp only at live world ⊢
    cases asked : roomed.retried (primaryNet env reads) (fun address world =>
      (primaryNet env reads).create address world ⟨requestId, filename, clientID, .read⟩) (maxTries - 1) with
    | mk left answer =>
      rw [asked] at live
      have alive : left.world = some next := by
        cases answer with
        | error err => exact live
        | ok resp => exact (enter_world ..).symm.trans live
      obtain ⟨s, resp, sent, here, replied, same⟩ := retried_open roomed next (primaryNet env reads)
        (fun s => s.create env ⟨requestId, filename, clientID, .read⟩) (maxTries - 1)
        ((congrArg (fun pair => pair.1.world) asked).trans alive)
      cases asked.symm.trans same
      exact ⟨s, resp, sent, world ▸ here, replied, rfl⟩

theorem openRemote_live {req : FileRequest} (live : (seat.openRemote (primaryNet env reads) io req).1.world = some next) :
    ∃ s resp sent, seat.world = some s ∧ s.openFile env req = .returned next (.ok (.opened resp)) sent ∧
      seat.openRemote (primaryNet env reads) io req =
        enter io req.filename
          { filename := req.filename, localPath := seat.client.localPath req.filename, version := resp.version,
            dirty := false, fd := resp.fd, closed := false, mode := req.mode }
          { seat with world := some next } := by
  unfold openRemote at live ⊢
  cases asked : seat.retried (primaryNet env reads) (fun address world =>
    (primaryNet env reads).openFile address world req) (maxTries - 1) with
  | mk left answer =>
    rw [asked] at live
    have alive : left.world = some next := by
      cases answer with
      | error err => exact live
      | ok resp => exact (enter_world ..).symm.trans live
    obtain ⟨s, resp, sent, here, replied, same⟩ := retried_open seat next (primaryNet env reads)
      (fun s => s.openFile env req) (maxTries - 1) ((congrArg (fun pair => pair.1.world) asked).trans alive)
    cases asked.symm.trans same
    exact ⟨s, resp, sent, here, replied, rfl⟩

theorem openCached_live (req : FileRequest) (entry : CacheEntry)
    (live : (seat.openCached (primaryNet env reads) req entry).1.world = some next) :
    ∃ s resp sent, seat.world = some s ∧ s.openFile env req = .returned next (.ok (.opened resp)) sent ∧
      seat.openCached (primaryNet env reads) req entry =
        ({ seat with
            client := ((seat.client.touchLRU req.filename).setEntry req.filename
              { entry with valid := true, mode := req.mode }).setEntry req.filename
              { entry with valid := true, mode := req.mode, fd := resp.fd, closed := false }
            world := some next },
          .ok { entry with valid := true, mode := req.mode, fd := resp.fd, closed := false }) := by
  unfold openCached at live ⊢
  dsimp only at live ⊢
  rcases ask_cases seat.world fun s => (s.openFile env req).reply Response.openReply with
    failed | ⟨s, after, resp, here, replied, answered⟩
  · rw [show (primaryNet env reads).openFile _ seat.world req = _ from failed] at live
    cases live
  · rw [show (primaryNet env reads).openFile _ seat.world req = _ from answered] at live ⊢
    obtain rfl := Option.some.inj live
    obtain ⟨sent, returned⟩ := (s.openFile env req).opened_reply replied
    exact ⟨s, resp, sent, here, returned, rfl⟩

end Calls

inductive Opening [LogCodec] (env : Env) (reads : ReadAnswers) (io : LocalIO) (req : FileRequest) (seat : Seat Primary) :
    Seat Primary × Except Failure CacheEntry → Prop where
  | dirty (entry : CacheEntry) (held : seat.client.cache.lookup req.filename = some entry) (dirty : entry.dirty = true) :
      Opening env reads io req seat (seat, .ok entry)
  | refused (entry : CacheEntry) (held : seat.client.cache.lookup req.filename = some entry) (err : Failure) :
      Opening env reads io req seat (seat, .error err)
  | cached (entry : CacheEntry) (held : seat.client.cache.lookup req.filename = some entry)
      (clean : entry.dirty = false) (s : Server) (here : seat.world = some s)
      (current : s.testAuth req.filename = .ok entry.version) :
      Opening env reads io req seat (seat.openCached (primaryNet env reads) req entry)
  | stale (entry : CacheEntry) (held : seat.client.cache.lookup req.filename = some entry)
      (clean : entry.dirty = false) :
      Opening env reads io req seat (seat.openRemote (primaryNet env reads) io req)
  | full (absent : seat.client.cache.lookup req.filename = none) (err : Failure) :
      Opening env reads io req seat ((seat.makeRoom io).1, .error err)
  | absent (absent : seat.client.cache.lookup req.filename = none) :
      Opening env reads io req seat ((seat.makeRoom io).1.openRemote (primaryNet env reads) io req)

section Calls

variable [LogCodec] (env : Env) (reads : ReadAnswers) (io : LocalIO)

theorem openFile_live (req : FileRequest) (live : (seat.openFile (primaryNet env reads) io req).1.world = some next) :
    Opening env reads io req seat (seat.openFile (primaryNet env reads) io req) := by
  unfold openFile at live ⊢
  cases held : seat.client.cache.lookup req.filename with
  | some entry =>
    rw [held] at live
    dsimp only at live ⊢
    by_cases dirty : entry.dirty = true
    · rw [if_pos dirty]
      exact .dirty entry held dirty
    · rw [if_neg dirty] at live ⊢
      cases asked : seat.testAuth (primaryNet env reads) req.filename (maxTries - 1) with
      | mk left answer =>
        rw [asked] at live
        obtain ⟨s, alive⟩ : ∃ s, left.world = some s := by
          cases answer with
          | error err => exact ⟨next, live⟩
          | ok version =>
            dsimp only at live
            split_ifs at live
            · exact ⟨next, live⟩
            · obtain ⟨s, _, _, here, _⟩ := openCached_live left next env reads req entry live
              exact ⟨s, here⟩
            · obtain ⟨s, _, _, here, _⟩ := openRemote_live left next env reads io live
              exact ⟨s, here⟩
        obtain ⟨version, here, current, same⟩ := testAuth_live seat s env reads req.filename (maxTries - 1)
          ((congrArg (fun pair => pair.1.world) asked).trans alive)
        cases asked.symm.trans same
        dsimp only
        split_ifs with equal refuses
        · exact .refused entry held _
        · exact .cached entry held (by simpa using dirty) s here (equal ▸ current)
        · exact .stale entry held (by simpa using dirty)
  | none =>
    generalize made : seat.makeRoom io = room
    obtain ⟨roomed, failed⟩ := room
    cases failed with
    | some err =>
      obtain rfl : roomed = (seat.makeRoom io).1 := by rw [made]
      exact .full held err
    | none =>
      obtain rfl : roomed = (seat.makeRoom io).1 := by rw [made]
      exact .absent held

theorem commit_live (live : (seat.commit (primaryNet env reads) io requestId filename clientID).1.world = some next) :
    (∃ answer, seat.commit (primaryNet env reads) io requestId filename clientID = (seat, answer) ∧
        (answer = .ok () → (seat.client.cache.lookup filename).any (·.dirty) = false)) ∨
      ∃ entry req s resp sent, seat.client.cache.lookup filename = some entry ∧ entry.dirty = true ∧
        seat.dataRequest io requestId clientID entry = some req ∧ seat.world = some s ∧
        s.write env req = .returned next (.ok (.written resp)) sent ∧
        seat.commit (primaryNet env reads) io requestId filename clientID =
          ({ seat with
              client := seat.client.setEntry filename { entry with version := resp.version, dirty := false }
              world := some next }, .ok ()) := by
  rcases seat.commit_cases (primaryNet env reads) io requestId filename clientID with
    ⟨answer, same, clean, _⟩ | ⟨entry, req, held, _, dirty, made, same⟩
  · exact .inl ⟨answer, same, clean⟩
  · rw [same] at live ⊢
    obtain ⟨s, resp, here, replied, done⟩ := settle_live (fun s => (s.write env req).reply Response.writeReply) seat next _ _ live
    obtain ⟨response, sent, returned, picked⟩ := Result.reply_some replied
    cases response <;> cases picked
    exact .inr ⟨entry, req, s, resp, sent, held, dirty, made, here, returned, done⟩

theorem close_live (live : (seat.close (primaryNet env reads) io requestId filename clientID).1.world = some next) :
    (∃ err, seat.close (primaryNet env reads) io requestId filename clientID = (seat, .error err)) ∨
      ∃ entry req s resp sent, seat.client.cache.lookup filename = some entry ∧
        seat.dataRequest io requestId clientID entry = some req ∧ seat.world = some s ∧
        s.close env req = .returned next (.ok (.closed resp)) sent ∧
        seat.close (primaryNet env reads) io requestId filename clientID =
          ({ seat with
              client := (seat.client.setEntry filename
                { entry with version := resp.version, dirty := false, closed := true, fd := 0 }).touchLRU filename
              world := some next }, .ok ()) := by
  rcases seat.close_cases (primaryNet env reads) io requestId filename clientID with
    ⟨err, same, _⟩ | ⟨entry, req, held, made, same⟩
  · exact .inl ⟨err, same⟩
  · rw [same] at live ⊢
    obtain ⟨s, resp, here, replied, done⟩ := settle_live (fun s => (s.close env req).reply Response.closeReply) seat next _ _ live
    obtain ⟨response, sent, returned, picked⟩ := Result.reply_some replied
    cases response <;> cases picked
    exact .inr ⟨entry, req, s, resp, sent, held, made, here, returned, done⟩

theorem delete_live (live : (seat.delete (primaryNet env reads) io requestId filename).1.world = some next) :
    (∃ err, seat.delete (primaryNet env reads) io requestId filename = ((seat.forget io filename).1, .error err)) ∨
      ∃ s resp sent, seat.world = some s ∧
        s.delete env ⟨requestId, filename⟩ = .returned next (.ok (.deleted resp)) sent ∧
        seat.delete (primaryNet env reads) io requestId filename =
          (let left := (seat.forget io filename).1
           { left with
              client := { left.client with lru := left.client.lru.erase filename }
              world := some next }, .ok ()) := by
  have world := seat.forget_world io filename
  rcases forgot : seat.forget io filename with ⟨left, _ | err⟩
  · rw [delete_forgotten _ io requestId forgot] at live ⊢
    rw [forgot] at world
    obtain ⟨s, resp, here, replied, done⟩ := settle_live
      (fun s => (s.delete env ⟨requestId, filename⟩).reply Response.deleteReply) left next _ _ live
    obtain ⟨response, sent, returned, picked⟩ := Result.reply_some replied
    cases response <;> cases picked
    exact .inr ⟨s, resp, sent, world ▸ here, returned, done⟩
  · exact .inl ⟨err, delete_kept _ io requestId forgot⟩

theorem read_live (live : (seat.read (primaryNet env reads) io filename clientID).1.world = some next) :
    (seat.world = some next ∧ ∃ lru answer, seat.read (primaryNet env reads) io filename clientID =
        ({ seat with client := { seat.client with lru := lru } }, answer) ∧
        ∀ data, answer = .ok data → (seat.client.cache.lookup filename).any (·.valid) = true) ∨
      ∃ entry disk s chunks, seat.client.cache.lookup filename = some entry ∧
        osTruncate io.create seat.disk (withSuffix entry.localPath ".tmp") = some disk ∧ seat.world = some s ∧
        s.read reads ⟨filename, clientID⟩ = (next, chunks, none) ∧
        seat.read (primaryNet env reads) io filename clientID =
          fetch io filename entry (withSuffix entry.localPath ".tmp") chunks none
            { seat with disk := disk, world := some next } := by
  unfold read at live ⊢
  cases held : seat.client.cache.lookup filename with
  | none =>
    rw [held] at live
    exact .inl ⟨live, seat.client.lru, _, rfl, by rintro _ ⟨⟩⟩
  | some entry =>
    rw [held] at live
    dsimp only at live ⊢
    by_cases valid : entry.valid = true
    · rw [if_pos valid] at live ⊢
      unfold readFile at live ⊢
      rw [held] at live ⊢
      rw [if_neg (by simp)] at live ⊢
      split
      case h_1 failed =>
        rw [failed] at live
        exact .inl ⟨live, seat.client.lru, _, rfl, by rintro _ ⟨⟩⟩
      case h_2 data found =>
        rw [found] at live
        exact .inl ⟨live, _, _, rfl, fun _ _ => valid⟩
    · rw [if_neg valid] at live ⊢
      cases truncated : osTruncate io.create seat.disk (withSuffix entry.localPath ".tmp") with
      | none =>
        rw [truncated] at live
        exact .inl ⟨live, seat.client.lru, _, rfl, by rintro _ ⟨⟩⟩
      | some disk =>
        rw [truncated] at live
        rcases ask_cases seat.world fun s => (match s.read reads ⟨filename, clientID⟩ with
            | (next, chunks, none) => some (next, chunks, none)
            | _ => none : Option (Server × List Bytes × Option Failure)) with
          failed | ⟨s, after, ⟨chunks, ended⟩, here, replied, answered⟩
        · rw [show (primaryNet env reads).read seat.client.address seat.world ⟨filename, clientID⟩ = _ from failed] at live
          cases live
        · rw [show (primaryNet env reads).read seat.client.address seat.world ⟨filename, clientID⟩ = _ from answered]
            at live ⊢
          rw [fetch_world] at live
          obtain rfl := Option.some.inj live
          split at replied
          case h_1 sent_ chunks_ streamed =>
            cases replied
            exact .inr ⟨entry, disk, s, _, rfl, truncated, here, streamed, rfl⟩
          case h_2 => cases replied

end Calls

end Seat

structure ClientTurn where
  who : String
  call : ClientCall
  env : Env := {}
  reads : ReadAnswers := ⟨0, true, [], false, 0⟩
  io : LocalIO := {}

section Served

variable [LogCodec]

def ClientTurn.toTurn (t : ClientTurn) : Turn Primary := ⟨t.who, t.call, primaryNet t.env t.reads, t.io⟩

def Desk.serve (d : Desk Primary) (t : ClientTurn) : Option (Desk Primary) :=
  let next := (d.turn t.toTurn).1
  if next.world.isSome then some next else none

theorem Desk.serve_eq {d next : Desk Primary} {t : ClientTurn} (served : d.serve t = some next) :
    next = (d.turn t.toTurn).1 ∧ ∃ s, next.world = some s := by
  unfold Desk.serve at served
  dsimp only at served
  split_ifs at served with live
  obtain rfl := Option.some.inj served
  exact ⟨rfl, Option.isSome_iff_exists.mp live⟩

end Served

end Ikkat
