import Ikkat.Cleanup
import Ikkat.Handlers

set_option autoImplicit false

namespace Ikkat

variable {env : Env} {h : Handler} {n : Node} {s next : Server}

inductive Traffic where
  | node (action : NodeAction)
  | serve (delivery : Delivery)
  | cleanupRequests (now : Time)
  | cleanupLeases (now : Time)

def Node.traffic [LogCodec] (n : Node) : Traffic → Option Node
  | .node action => n.step action
  | .serve delivery => n.handle (n.server.serve delivery.env delivery.rpc)
  | .cleanupRequests now => some { n with server := n.server.cleanupRequests now }
  | .cleanupLeases now => some { n with server := n.server.cleanupLeases now }

def Traffic.Elsewhere (id : String) (last : Time) : Traffic → Prop
  | .node (.create _ req) => req.requestId ≠ id
  | .node (.openFile _ req) => req.requestId ≠ id
  | .node (.begin _ _ _ req) => req.requestId ≠ id
  | .serve delivery => delivery.rpc.requestId ≠ id
  | .cleanupRequests now => now ≤ last
  | _ => True

def Node.Returned (n : Node) (id : String) : Prop :=
  ∀ slot h, n.handlers slot = some h → h.call.req.requestId = id → ∃ answer entry, h.stage = .ended answer entry

theorem Node.returned_update {id : String} (slot : Nat) (s : Server) (returned : n.Returned id)
    (different : h.call.req.requestId ≠ id) : Returned ⟨s, Function.update n.handlers slot (some h)⟩ id := by
  intro other found here own
  dsimp only at here
  rw [Function.update_apply] at here
  split_ifs at here
  · cases here
    exact absurd own different
  · exact returned other found here own

def Adds (id : String) (before after : Map String RequestEntry) : Prop :=
  after = before ∨ ∃ entry, after = before.insert id entry

theorem Adds.lookup {id other : String} {before after : Map String RequestEntry} (adds : Adds id before after)
    (different : id ≠ other) : after.lookup other = before.lookup other := by
  rcases adds with rfl | ⟨entry, rfl⟩
  · rfl
  · exact AList.lookup_insert_ne (Ne.symm different)

theorem Handler.step_requests [LogCodec] {action : HandlerStep} {stage : Stage}
    (stepped : h.step s action = some (next, stage)) :
    Adds h.call.req.requestId s.requests next.requests ∧ ∀ answer entry, h.stage ≠ .ended answer entry := by
  have taken := Handler.step_takes stepped
  obtain ⟨call, before⟩ := h
  cases taken with
  | clean env | finish env => exact ⟨.inr ⟨_, s.finishCall_requests env call⟩, by simp⟩
  | _ => exact ⟨.inl rfl, by simp⟩

namespace Server

section Messages

variable [LogCodec]

theorem applyUpdate_requests (disk : DiskIO) (s : Server) (msg : UpdateMessage) :
    (s.applyUpdate disk msg).1.requests = s.requests := by
  unfold applyUpdate
  split_ifs
  · obtain ⟨_, _, _, _, _, same⟩ := receiveFiles_eq disk 0 { s with log := [], commitIndex := 0, lastApplied := 0 } msg.fullFiles
    rw [same]
  · obtain ⟨_, _, same⟩ := receiveLog_eq disk msg.logEntries s
    rw [same]

theorem serve_adds {rpc : Rpc} {answer : Except Status Response}
    {sent : List AppendEntriesRequest} (handled : s.serve env rpc = .returned next answer sent) :
    Adds rpc.requestId s.requests next.requests := by
  rcases serve_recorded handled with ⟨_, _, _, same⟩ | noted
  · exact .inl (by rw [same])
  · cases noted with
    | stored response _ requests => exact .inr ⟨_, requests⟩
    | failed _ requests => exact .inl requests

theorem serve_hit {rpc : Rpc} {response : Response} {stamp : Time}
    (present : s.requests.lookup rpc.requestId = some ⟨response, stamp⟩) (fits : rpc.fits response = true)
    (recent : env.start - stamp < requestCacheTTL) (leads : s.notLeader = none) :
    s.serve env rpc = .returned s (.ok response) [] := by
  have hit : s.cached rpc.requestId env.start = some response := by
    rw [cached, present]
    exact if_pos recent
  cases rpc <;> cases response <;> cases fits
  all_goals simp only [Rpc.requestId] at hit
  · simp [serve, create, leads, hit]
  · simp [serve, openFile, leads, hit]
  · simp [serve, close, handleCall, beginCall, leads, cachedCall, hit]
  · simp [serve, write, handleCall, beginCall, leads, cachedCall, hit]
  · simp [serve, delete, leads, hit]

end Messages

end Server

structure Remembered (rpc : Rpc) (response : Response) (stamp : Time) (n : Node) : Prop where
  lookup : n.server.requests.lookup rpc.requestId = some ⟨response, stamp⟩
  returned : n.Returned rpc.requestId

section Retry

variable [LogCodec] (rpc : Rpc) (response : Response) (stamp : Time)

theorem remembered_served (n next : Node) (other : Rpc) (env : Env) (remembered : Remembered rpc response stamp n)
    (different : other.requestId ≠ rpc.requestId) (handled : n.handle (n.server.serve env other) = some next) :
    Remembered rpc response stamp next := by
  obtain ⟨s, answer, sent, served, rfl⟩ := Node.handle_returned handled
  have adds := Server.serve_adds served
  exact ⟨(adds.lookup different).trans remembered.lookup, remembered.returned⟩

theorem remembered_step (next : Node) {action : Traffic} {last : Time} (remembered : Remembered rpc response stamp n)
    (elsewhere : action.Elsewhere rpc.requestId last) (recent : last - stamp < requestCacheTTL)
    (stepped : n.traffic action = some next) : Remembered rpc response stamp next := by
  have kept (s : Server) (same : s.requests = n.server.requests) :
      Remembered rpc response stamp { n with server := s } :=
    ⟨(congrArg (AList.lookup _) same).trans remembered.lookup, remembered.returned⟩
  cases action with
  | serve delivery => exact remembered_served rpc response stamp n next _ _ remembered elsewhere stepped
  | cleanupLeases now =>
    cases stepped
    exact kept _ (n.server.cleanupLeases_requests now)
  | cleanupRequests now =>
    cases stepped
    refine ⟨Server.lookup_cleanupRequests now remembered.lookup ?_, remembered.returned⟩
    have early : now ≤ last := elsewhere
    exact le_of_lt (lt_of_le_of_lt (Nat.sub_le_sub_right early stamp) recent)
  | node action =>
    cases action with
    | create env req => exact remembered_served rpc response stamp n next (.create req) env remembered elsewhere stepped
    | openFile env req =>
      exact remembered_served rpc response stamp n next (.openFile req) env remembered elsewhere stepped
    | begin slot kind now req =>
      rcases n.begin_cases next slot kind now req stepped with rfl | ⟨found, mode, table, _, _, rfl⟩
      · exact remembered
      · exact ⟨remembered.lookup, Node.returned_update slot _ remembered.returned elsewhere⟩
    | handler slot step =>
      obtain ⟨h, server, stage, here, moved, _, rfl⟩ := Node.handlerStep_cases stepped
      obtain ⟨adds, running⟩ := Handler.step_requests moved
      have different : h.call.req.requestId ≠ rpc.requestId := by
        intro own
        obtain ⟨answer, entry, ended⟩ := remembered.returned slot h here own
        exact running answer entry ended
      exact ⟨(adds.lookup different).trans remembered.lookup,
        Node.returned_update slot server remembered.returned different⟩
    | appendEntries disk req =>
      cases stepped
      obtain ⟨logFile, same⟩ := appendEntries_eq disk n.server req
      exact kept _ (by rw [same]; rfl)
    | applyUpdate disk msg =>
      cases stepped
      exact kept _ (n.server.applyUpdate_requests disk msg)
    | sendHeartbeat now req =>
      cases stepped
      obtain ⟨info, ⟨_, _, same⟩ | ⟨_, same⟩⟩ := n.server.sendHeartbeat_cases now req <;> exact kept _ (by rw [same])
    | heartbeatReply success =>
      cases stepped
      refine kept _ ?_
      unfold Server.heartbeatReply
      split_ifs <;> rfl
    | monitorPrimary now =>
      cases stepped
      refine kept _ ?_
      rcases n.server.monitorPrimary_cases now with same | ⟨_, _, same⟩ <;> rw [same]
      unfold Server.elect Server.markDead
      split <;> rfl
    | rebuild =>
      cases stepped
      obtain ⟨filesPrimes, same⟩ := n.server.rebuildAllPrimeSets_eq
      exact kept _ (by rw [same])

inductive Completes (n : Node) : Node → Prop where
  | served (env : Env) (next : Server) (sent : List AppendEntriesRequest)
      (fresh : n.server.cached rpc.requestId env.start = none)
      (handled : n.server.serve env rpc = .returned next (.ok response) sent) (finish : env.finish = stamp) :
      Completes n { n with server := next }
  | finished (slot : Nat) (h : Handler) (env : Env) (next : Server) (entry : Option LogEntry)
      (here : n.handlers slot = some h) (own : h.call.kind.rpc h.call.req = rpc)
      (stepped : h.step n.server (.finish env) = some (next, .ended (.ok response) entry)) (finish : env.finish = stamp) :
      Completes n ⟨next, Function.update n.handlers slot (some { h with stage := .ended (.ok response) entry })⟩

theorem finish_stores {entry : Option LogEntry}
    (stepped : h.step s (.finish env) = some (next, .ended (.ok response) entry)) :
    next.requests = s.requests.insert h.call.req.requestId ⟨response, env.finish⟩ ∧
      response = (s.finishCall env h.call).2 := by
  have taken := Handler.step_takes stepped
  obtain ⟨call, before⟩ := h
  have stored := s.finishCall_requests env call
  cases taken with
  | clean | finish => exact ⟨stored, rfl⟩

theorem completes_stores {next : Node} (completes : Completes rpc response stamp n next) :
    next.server.requests.lookup rpc.requestId = some ⟨response, stamp⟩ ∧ rpc.fits response = true := by
  cases completes with
  | served env server sent fresh handled finish =>
    rcases Server.serve_recorded handled with ⟨_, _, hit, _⟩ | noted
    · rw [fresh] at hit
      cases hit
    · cases noted with
      | stored _ fits requests =>
        rw [requests, AList.lookup_insert, finish]
        exact ⟨rfl, fits⟩
  | finished slot h env server entry here own stepped finish =>
    obtain ⟨requests, answer⟩ := finish_stores response stepped
    have id : rpc.requestId = h.call.req.requestId := by
      rw [← own]
      cases h.call.kind <;> rfl
    rw [requests, id, AList.lookup_insert, finish]
    refine ⟨rfl, ?_⟩
    rw [answer, ← own]
    unfold Server.finishCall Call.response
    cases h.call.kind <;> rfl

theorem retry_gets_same_answer (n first last : Node) (completes : Completes rpc response stamp n first)
    (returned : first.Returned rpc.requestId) (env : Env) (actions : List Traffic)
    (elsewhere : Transition.Meets Node.traffic (fun _ action => action.Elsewhere rpc.requestId env.start) first actions)
    (reached : Transition.run Node.traffic first actions = some last) (leads : last.server.notLeader = none)
    (recent : env.start - stamp < requestCacheTTL) :
    last.server.serve env rpc = .returned last.server (.ok response) [] := by
  obtain ⟨stored, fits⟩ := completes_stores rpc response stamp completes
  have remembered := Transition.run_invariant (fun _ action => action.Elsewhere rpc.requestId env.start)
    (Remembered rpc response stamp)
    (fun n action next remembered elsewhere => remembered_step rpc response stamp next remembered
      elsewhere recent) first ⟨stored, returned⟩ actions elsewhere reached
  exact Server.serve_hit remembered.lookup fits recent leads

end Retry

def closeRequest : DataRequest := ⟨"r2", 0, true, 0, [50, 10], "c"⟩

def betweenRetries : List Traffic :=
  [.serve ⟨{}, .openFile ⟨"r3", "output/a", .read, "d"⟩⟩, .cleanupRequests 0, .cleanupLeases 0]

theorem closed_twice_answered_once :
    ∃ first last response, Completes (.close closeRequest) response 0 (.start firstOpened) first ∧
      Transition.run Node.traffic first betweenRetries = some last ∧
      last.server.serve { answers := [("2", true), ("3", true)] } (.close closeRequest) =
        .returned last.server (.ok response) [] := by
  have outcome : ((firstOpened.serve { answers := [("2", true), ("3", true)] } (.close closeRequest)).answered.bind
      fun next => (Transition.run Node.traffic (.start next) betweenRetries).map fun n => n.server.notLeader) =
        some none := by decide +kernel
  obtain ⟨next, answered, later⟩ := Option.bind_eq_some_iff.mp outcome
  obtain ⟨response, sent, handled⟩ := Result.answered_eq answered
  obtain ⟨last, reached, leads⟩ := Option.map_eq_some_iff.mp later
  have completes : Completes (.close closeRequest) response 0 (.start firstOpened) (.start next) :=
    .served _ next sent (by decide +kernel) handled rfl
  refine ⟨.start next, last, response, completes, reached, retry_gets_same_answer (.close closeRequest) response 0 _ _
    last completes (fun _ _ here => by cases here) _ betweenRetries ?_ reached leads (by decide)⟩
  refine ⟨?_, fun _ _ => ⟨le_refl 0, fun _ _ => ⟨trivial, fun _ _ => trivial⟩⟩⟩
  change "r3" ≠ "r2"
  decide

def closeSteps : List HandlerStep :=
  [.acquire, .copy .stored, .index, .append .done, .send, .count, .ack "2" true, .commit fun _ => .ok, .notify "2",
    .notify "3", .prime {}, .finish {}]

def Node.answer (n : Node) (slot : Nat) : Option (Except Status Response) :=
  (n.handlers slot).bind fun h =>
    match h.stage with
    | .ended answer _ => some answer
    | _ => none

-- Both copies of the Close find nothing in the cache; the one that is second to get the lock of the file finds
-- another version. And a Close that missed its majority is logged once more by its retry.
theorem concurrent_retry_refused :
    (∃ n, Transition.run Node.step (.start firstOpened)
        ([.begin 0 .close 0 closeRequest, .begin 1 .close 0 closeRequest] ++ closeSteps.map (.handler 0) ++
          [.handler 1 .acquire]) = some n ∧
      n.answer 0 = some (.ok (.closed ⟨"closed", 1⟩)) ∧ n.answer 1 = some (.error ⟨.aborted, "conflict"⟩)) ∧
    ∃ once twice, serveStep firstOpened ⟨{}, .close closeRequest⟩ = some once ∧
      serveStep once ⟨{}, .close closeRequest⟩ = some twice ∧ once.log.length = 1 ∧ twice.log.length = 2 := by
  have concurrent : (Transition.run Node.step (.start firstOpened)
      ([.begin 0 .close 0 closeRequest, .begin 1 .close 0 closeRequest] ++ closeSteps.map (.handler 0) ++
        [.handler 1 .acquire])).map (fun n => (n.answer 0, n.answer 1)) =
      some (some (.ok (.closed ⟨"closed", 1⟩)), some (.error ⟨.aborted, "conflict"⟩)) := by decide +kernel
  have failed : ((serveStep firstOpened ⟨{}, .close closeRequest⟩).bind fun once =>
      (serveStep once ⟨{}, .close closeRequest⟩).map fun twice => (once.log.length, twice.log.length)) =
        some (1, 2) := by decide +kernel
  obtain ⟨n, reached, answers⟩ := Option.map_eq_some_iff.mp concurrent
  obtain ⟨once, first, later⟩ := Option.bind_eq_some_iff.mp failed
  obtain ⟨twice, second, lengths⟩ := Option.map_eq_some_iff.mp later
  exact ⟨⟨n, reached, Prod.mk.inj answers⟩, once, twice, first, second, Prod.mk.inj lengths⟩

end Ikkat
