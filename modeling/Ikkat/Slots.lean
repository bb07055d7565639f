import Ikkat.Captured

set_option autoImplicit false

namespace Ikkat

namespace Server

inductive Granting (s next : Server) (cached : Option Response) (who : String) (mode : FileMode) :
    Except Status Response → Prop where
  | refused (status : Status) (count : next.nextFD = s.nextFD) (files : next.files = s.files)
      (full : status.code = .resourceExhausted → maxOpenFiles ≤ s.files.entries.length) :
      Granting s next cached who mode (.error status)
  | repeated (response : Response) (same : next = s) (held : cached = some response) :
      Granting s next cached who mode (.ok response)
  | granted (resp : OpenResponse) (uncached : cached = none) (grants : s.Grants next who mode resp.fd) :
      Granting s next cached who mode (.ok (.opened resp))

section Requests

variable (env : Env) (s next : Server) (answer : Except Status Response) (sent : List AppendEntriesRequest)

theorem notLeader_code {status : Status} (refused : s.notLeader = some status) : status.code ≠ .resourceExhausted := by
  unfold notLeader at refused
  repeat' split at refused
  all_goals
    cases refused
    try simp

theorem Dismissed.granting {requestId who : String} {mode : FileMode} {own : Response → Bool}
    (why : Dismissed env s requestId own (.returned next answer sent)) :
    s.Granting next (s.cached requestId env.start) who mode answer := by
  cases why with
  | elsewhere status follower => exact .refused status rfl rfl fun full => absurd full (notLeader_code s follower)
  | repeated response _ hit => exact .repeated response rfl hit

theorem create_granting {req : CreateRequest} (handled : s.create env req = .returned next answer sent) :
    s.Granting next (s.cached req.requestId env.start) req.clientId req.mode answer := by
  cases handled ▸ s.create_exit env req with
  | dismissed why => exact why.granting
  | unnamed | barred => exact .refused _ rfl rfl (by simp)
  | failed _ _ _ _ _ _ _ told => exact .refused _ rfl rfl (by rcases told with rfl | rfl | ⟨rfl, full⟩ <;> simp_all)
  | created _ _ new _ _ room => exact .granted _ new.fresh ⟨rfl, rfl, room, _, _, rfl, rfl⟩

theorem openFile_granting {req : FileRequest} (handled : s.openFile env req = .returned next answer sent) :
    s.Granting next (s.cached req.requestId env.start) req.clientId req.mode answer := by
  cases handled ▸ s.openFile_exit env req with
  | dismissed why => exact why.granting
  | unnamed => exact .refused _ rfl rfl (by simp)
  | failed _ _ _ _ told => exact .refused _ rfl rfl (by rcases told with rfl | rfl | rfl | ⟨rfl, full⟩ <;> simp_all)
  | opened _ _ new _ room => exact .granted _ new.fresh ⟨rfl, rfl, room, _, _, rfl, rfl⟩

end Requests

end Server

variable {action : HandlerStep}

theorem Handler.step_maps [LogCodec] {s next : Server} {h : Handler} {stage : Stage}
    (stepped : h.step s action = some (next, stage)) :
    next.nextFD = s.nextFD ∧ next.openMap = s.openMap ∧
      ((∀ env, action ≠ .finish env) ∧ next.files = s.files ∨
        (∃ env, action = .finish env) ∧ next.files = (s.dropClient h.call).files) := by
  have taken := Handler.step_takes stepped
  obtain ⟨call, before⟩ := h
  have mapped (env : Env) : (s.finishCall env call).1.openMap = s.openMap := by
    obtain ⟨_, _, _, _, same⟩ := s.finishCall_eq env call
    rw [same]
  cases taken with
  | clean env | finish env =>
    obtain ⟨count, files⟩ := s.finishCall_descriptors env call
    exact ⟨count, mapped env, .inr ⟨⟨env, rfl⟩, files⟩⟩
  | _ => exact ⟨rfl, rfl, .inl ⟨by simp, rfl⟩⟩

theorem Handler.step_descriptors [LogCodec] {s next : Server} {h : Handler} {stage : Stage}
    (stepped : h.step s action = some (next, stage)) :
    next.nextFD = s.nextFD ∧ (next.files = s.files ∨
      ∃ fd found, fd ∈ s.files ∧ next.files = s.files.insert fd found) := by
  have dropped : (s.dropClient h.call).files = s.files ∨
      ∃ fd found, fd ∈ s.files ∧ (s.dropClient h.call).files = s.files.insert fd found := by
    unfold Server.dropClient
    split
    · exact .inl rfl
    · split
      case h_1 => exact .inl rfl
      case h_2 found here => exact .inr ⟨_, _, AList.lookup_isSome.mp (by rw [here]; rfl), rfl⟩
  obtain ⟨count, _, ⟨_, files⟩ | ⟨_, files⟩⟩ := Handler.step_maps stepped
  · exact ⟨count, .inl files⟩
  · rw [← files] at dropped
    exact ⟨count, dropped⟩

structure Books where
  node : Node
  issued : List Int32
  closed : List Int32

namespace Books

def start (s : Server) : Books := ⟨.start s, [], []⟩

def openFds (b : Books) : List Int32 := b.issued.filter (· ∉ b.closed)

def granted (cached : Option Response) (result : Result) : List Int32 :=
  match cached, result with
  | none, .returned _ (.ok (.opened resp)) _ => [resp.fd]
  | _, _ => []

def closing (n : Node) (id : Nat) (action : HandlerStep) : List Int32 :=
  match n.handlers id, action with
  | some h, .finish _ => if h.call.kind = .close then [h.call.req.fd] else []
  | _, _ => []

def step [LogCodec] (b : Books) (action : NodeAction) : Option Books :=
  match action with
  | .create env req => (b.node.step action).map fun next =>
      ⟨next, granted (b.node.server.cached req.requestId env.start) (b.node.server.create env req) ++ b.issued, b.closed⟩
  | .openFile env req => (b.node.step action).map fun next =>
      ⟨next, granted (b.node.server.cached req.requestId env.start) (b.node.server.openFile env req) ++ b.issued,
        b.closed⟩
  | .begin _ .close _ _ => (b.node.step action).map fun next => ⟨next, b.issued, b.closed⟩
  | .handler id moved => (b.node.step action).map fun next => ⟨next, b.issued, closing b.node id moved ++ b.closed⟩
  | _ => none

structure Kept (b : Books) : Prop where
  numbered : b.node.server.Numbered
  count : b.node.server.files.entries.length = b.issued.length
  listed : ∀ fd, fd ∈ b.node.server.files ↔ fd ∈ b.issued
  serving : ∀ id h, b.node.handlers id = some h → h.call.req.fd ∈ b.issued
  closed : ∀ fd ∈ b.closed, fd ∈ b.issued

def Unclosed (b : Books) (action : NodeAction) : Prop :=
  ∀ id moved, action = .handler id moved → closing b.node id moved = []

variable {b next : Books}

theorem Kept.moved (kept : b.Kept) (n : Node) (closed : List Int32) (numbered : n.server.Numbered)
    (count : n.server.files.entries.length = b.node.server.files.entries.length)
    (listed : ∀ fd, fd ∈ n.server.files ↔ fd ∈ b.node.server.files)
    (serving : ∀ id h, n.handlers id = some h → h.call.req.fd ∈ b.issued) (shut : ∀ fd ∈ closed, fd ∈ b.issued) :
    Kept ⟨n, b.issued, closed⟩ :=
  ⟨numbered, count.trans kept.count, fun fd => (listed fd).trans (kept.listed fd), serving, shut⟩

theorem Kept.serves (kept : b.Kept) (id : Nat) (h : Handler) (known : h.call.req.fd ∈ b.issued) (other : Nat)
    (next : Handler) (serves : Function.update b.node.handlers id (some h) other = some next) :
    next.call.req.fd ∈ b.issued := by
  rcases update_cases serves with ⟨_, rfl⟩ | ⟨_, serves⟩
  · exact known
  · exact kept.serving other next serves

theorem Kept.closes (kept : b.Kept) (id : Nat) (action : HandlerStep) (fd : Int32)
    (inside : fd ∈ closing b.node id action) : fd ∈ b.issued := by
  unfold closing at inside
  split at inside
  case h_1 h env here =>
    split_ifs at inside
    · rw [List.mem_singleton.mp inside]
      exact kept.serving id h here
    · cases inside
  case h_2 => cases inside

theorem Kept.requested (kept : b.Kept) {next : Server} {cached : Option Response} {who : String}
    {mode : FileMode} {answer : Except Status Response} {sent : List AppendEntriesRequest}
    (granting : b.node.server.Granting next cached who mode answer) :
    Kept ⟨{ b.node with server := next }, granted cached (.returned next answer sent) ++ b.issued, b.closed⟩ := by
  cases granting with
  | refused status count files =>
    have none : granted cached (.returned next (.error status) sent) = [] := by cases cached <;> rfl
    rw [none]
    exact kept.moved _ _ ((Server.Steady.of_files count files).numbered kept.numbered) (by rw [← files])
      (fun fd => by rw [← files]) kept.serving kept.closed
  | repeated response same held =>
    subst same held
    exact kept
  | granted resp uncached grants =>
    subst uncached
    obtain ⟨numbered, absent⟩ := kept.numbered.grants grants
    obtain ⟨_, _, _, opened, _, files, _⟩ := grants
    refine ⟨numbered, ?_, fun fd => ?_, fun id h serves => ?_, fun fd inside => ?_⟩
    · dsimp only
      rw [files, Map.length_insert_new _ _ _ absent, kept.count]
      rfl
    · dsimp only
      rw [files, AList.mem_insert, kept.listed]
      exact List.mem_cons.symm
    · exact List.mem_cons_of_mem _ (kept.serving id h serves)
    · exact List.mem_cons_of_mem _ (kept.closed fd inside)

theorem Kept.step [LogCodec] (kept : b.Kept) (action : NodeAction)
    (stepped : b.step action = some next) : next.Kept := by
  unfold Books.step at stepped
  split at stepped
  case h_1 env req =>
    obtain ⟨n, moved, rfl⟩ := Option.map_eq_some_iff.mp stepped
    obtain ⟨s, answer, sent, handled, rfl⟩ := Node.handle_returned moved
    rw [handled]
    exact kept.requested (Server.create_granting env _ s answer sent handled)
  case h_2 env req =>
    obtain ⟨n, moved, rfl⟩ := Option.map_eq_some_iff.mp stepped
    obtain ⟨s, answer, sent, handled, rfl⟩ := Node.handle_returned moved
    rw [handled]
    exact kept.requested (Server.openFile_granting env _ s answer sent handled)
  case h_3 id now req =>
    obtain ⟨n, moved, rfl⟩ := Option.map_eq_some_iff.mp stepped
    rcases Node.begin_cases _ n id .close now req moved with rfl | ⟨found, mode, table, _, present, rfl⟩
    · exact kept
    · have known : req.fd ∈ b.issued := (kept.listed _).mp (AList.lookup_isSome.mp (by rw [present]; rfl))
      exact kept.moved _ _ ⟨kept.numbered.below, kept.numbered.count, kept.numbered.limit⟩ rfl (fun _ => Iff.rfl)
        (kept.serves id ⟨⟨.close, req, found.filename, mode⟩, .opened⟩ known) kept.closed
  case h_4 id moving =>
    obtain ⟨n, moved, rfl⟩ := Option.map_eq_some_iff.mp stepped
    obtain ⟨h, server, stage, here, acted, _, rfl⟩ := Node.handlerStep_cases moved
    obtain ⟨issued, files⟩ := Handler.step_descriptors acted
    have serving := kept.serves id { h with stage := stage } (kept.serving id h here)
    have shut (fd : Int32) (inside : fd ∈ closing b.node id moving ++ b.closed) : fd ∈ b.issued := by
      rcases List.mem_append.mp inside with now | before
      · exact kept.closes id moving fd now
      · exact kept.closed fd before
    rcases files with same | ⟨fd, found, present, same⟩
    · exact kept.moved _ _ ((Server.Steady.of_files issued same).numbered kept.numbered) (by rw [same])
        (fun _ => by rw [same]) serving shut
    · refine kept.moved _ _ (kept.numbered.replaced present issued same) ?_ (fun other => ?_) serving shut
      · rw [same, Map.length_insert_old _ _ _ present]
      · rw [same, AList.mem_insert]
        exact ⟨fun inside => inside.elim (fun own => own ▸ present) fun old => old, .inr⟩
  case h_5 => cases stepped

theorem start_kept {s : Server} (none : s.files = ∅) (first : s.nextFD = 0) : (start s).Kept := by
  have empty : s.files.entries = [] := by rw [none]; rfl
  have absent (fd : Int32) : fd ∉ s.files := by rw [none]; exact AList.notMem_empty fd
  refine ⟨⟨fun fd inside => absurd inside (absent fd), ?_, ?_⟩, ?_, fun fd => ?_, ?_, ?_⟩
  · change s.nextFD.toInt = s.files.entries.length
    rw [first, empty]
    rfl
  · change s.files.entries.length ≤ maxOpenFiles
    rw [empty]
    exact Nat.zero_le _
  · exact congrArg List.length empty
  · exact ⟨fun inside => absurd inside (absent fd), nofun⟩
  · intro id h serves
    cases serves
  · intro fd inside
    cases inside

def Balanced (b : Books) : Prop := b.node.server.files.entries.length = b.openFds.length

theorem Kept.balanced_iff (kept : b.Kept) : b.Balanced ↔ b.closed = [] := by
  unfold Balanced openFds
  rw [kept.count, eq_comm, List.length_filter_eq_length_iff]
  constructor
  · intro all
    refine List.eq_nil_iff_forall_not_mem.mpr fun fd inside => ?_
    simpa [inside] using all fd (kept.closed fd inside)
  · intro none fd _
    simp [none]

theorem step_closed [LogCodec] {action : NodeAction} (stepped : b.step action = some next) :
    next.closed = [] ↔ b.closed = [] ∧ b.Unclosed action := by
  unfold Books.step at stepped
  split at stepped
  case h_4 id moving =>
    obtain ⟨n, _, rfl⟩ := Option.map_eq_some_iff.mp stepped
    rw [List.append_eq_nil_iff, and_comm]
    refine and_congr_right fun _ => ⟨fun none other moved same => ?_, fun none => none id moving rfl⟩
    cases same
    exact none
  case h_5 => cases stepped
  all_goals
    obtain ⟨n, _, rfl⟩ := Option.map_eq_some_iff.mp stepped
    refine (and_iff_left ?_).symm
    rintro id moved ⟨⟩

def Exhausted (s : Server) : Prop :=
  (∃ env req next status sent, s.create env req = .returned next (.error status) sent ∧
      status.code = .resourceExhausted) ∨
    ∃ env req next status sent, s.openFile env req = .returned next (.error status) sent ∧
      status.code = .resourceExhausted

theorem Kept.exhausted (kept : b.Kept) (exhausted : Exhausted b.node.server) :
    b.issued.length = maxOpenFiles := by
  have full : maxOpenFiles ≤ b.node.server.files.entries.length := by
    rcases exhausted with ⟨env, req, next, status, sent, handled, code⟩ | ⟨env, req, next, status, sent, handled, code⟩
    · cases Server.create_granting env _ next _ sent handled with
      | refused _ _ _ full => exact full code
    · cases Server.openFile_granting env _ next _ sent handled with
      | refused _ _ _ full => exact full code
  have limit := kept.numbered.limit
  rw [kept.count] at full limit
  exact Nat.le_antisymm limit full

end Books

section Runs

variable [LogCodec]

theorem open_slots_returned_iff (s : Server) (none : s.files = ∅) (first : s.nextFD = 0) (actions : List NodeAction)
    (final : Books) (reached : Transition.run Books.step (.start s) actions = some final) :
    (Transition.Everywhere Books.step Books.Balanced (.start s) actions ↔
        Transition.Meets Books.step Books.Unclosed (.start s) actions) ∧
      (Books.Exhausted final.node.server → final.issued.length = maxOpenFiles ∧
        (Transition.Meets Books.step Books.Unclosed (.start s) actions → final.openFds.length = maxOpenFiles)) ∧
      final.issued.length ≤ maxOpenFiles := by
  have begun := Books.start_kept none first
  have kept : final.Kept := Transition.run_invariant (fun _ _ => True) Books.Kept
    (fun b action next kept _ stepped => kept.step action stepped) _ begun actions
    (Transition.meets_any _ _ _) reached
  have exactly : Transition.Everywhere Books.step Books.Balanced (.start s) actions ↔
      Transition.Meets Books.step Books.Unclosed (.start s) actions := by
    refine Transition.everywhere_iff_meets Books.Unclosed Books.Kept
      (fun b action next kept _ _ stepped => kept.step action stepped) ?_ _ begun
      (begun.balanced_iff.mpr rfl) actions reached
    intro b action next kept balanced stepped
    rw [(kept.step action stepped).balanced_iff, Books.step_closed stepped]
    exact ⟨And.right, fun unclosed => ⟨kept.balanced_iff.mp balanced, unclosed⟩⟩
  refine ⟨exactly, fun exhausted => ⟨kept.exhausted exhausted, fun unclosed => ?_⟩, ?_⟩
  · have untouched : final.closed = [] := Transition.run_invariant Books.Unclosed (fun b => b.closed = [])
      (fun b action next none unclosed stepped => (Books.step_closed stepped).mpr ⟨none, unclosed⟩) _ rfl
      actions unclosed reached
    rw [← kept.balanced_iff.mpr untouched, kept.count]
    exact kept.exhausted exhausted
  · exact kept.count ▸ kept.numbered.limit

end Runs

def openedTwice : List NodeAction :=
  [.create {} ⟨"r1", "output/a", "c", .write⟩, .openFile {} ⟨"r2", "output/a", .read, "d"⟩]

theorem openedTwice_balanced :
    ∃ final, Transition.run Books.step (.start firstPrimary) openedTwice = some final ∧ final.openFds = [1, 0] ∧
      Transition.Everywhere Books.step Books.Balanced (.start firstPrimary) openedTwice := by
  have outcome : (Transition.run Books.step (.start firstPrimary) openedTwice).map Books.openFds = some [1, 0] := by
    decide +kernel
  obtain ⟨final, reached, opened⟩ := Option.map_eq_some_iff.mp outcome
  have unclosed : Transition.Meets Books.step Books.Unclosed (.start firstPrimary) openedTwice := by
    refine ⟨?_, fun next _ => ⟨?_, fun _ _ => trivial⟩⟩
    · rintro id moved ⟨⟩
    · rintro id moved ⟨⟩
  exact ⟨final, reached, opened,
    (open_slots_returned_iff firstPrimary rfl rfl openedTwice final reached).1.mpr unclosed⟩

-- Close takes the client out of the descriptor's entry and leaves the entry in the table.
theorem closed_descriptor_kept :
    firstPrimary.role = .primary ∧ firstPrimary.files = ∅ ∧
      ∃ final, Transition.run Books.step (.start firstPrimary)
          [.create {} ⟨"r1", "output/a", "c", .write⟩, .begin 0 .close 0 ⟨"r2", 0, false, 0, [], "c"⟩,
            .handler 0 (.finish {})] = some final ∧
        final.issued = [0] ∧ final.closed = [0] ∧ final.openFds = [] ∧
        final.node.server.files.entries.length = 1 := by
  have outcome : (Transition.run Books.step (.start firstPrimary)
      [.create {} ⟨"r1", "output/a", "c", .write⟩, .begin 0 .close 0 ⟨"r2", 0, false, 0, [], "c"⟩,
        .handler 0 (.finish {})]).map (fun b => (b.issued, b.closed, b.openFds,
          b.node.server.files.entries.length)) = some ([0], [0], [], 1) := by decide +kernel
  obtain ⟨final, reached, facts⟩ := Option.map_eq_some_iff.mp outcome
  simp only [Prod.mk.injEq] at facts
  exact ⟨by decide +kernel, rfl, final, reached, facts⟩

end Ikkat
