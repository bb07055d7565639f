import Ikkat.Alignment

set_option autoImplicit false

namespace Ikkat

variable {entry : LogEntry} {base : Nat} {n : Node} {s : Server} {stage : Stage}

theorem lastContent_at (rootDir : String) (entries : List LogEntry) (position : Nat) (entry : LogEntry)
    (content : Bytes) (write : entry.op = "WRITE") (found : entries[position]? = some entry)
    (newest : ∀ (later : Nat) (other : LogEntry), position < later → entries[later]? = some other →
      join rootDir other.filename ≠ join rootDir entry.filename) :
    lastContent rootDir (join rootDir entry.filename) entries content = entry.content := by
  induction entries generalizing position content with
  | nil => simp at found
  | cons first rest ih =>
    unfold lastContent
    cases position with
    | zero =>
      simp only [List.getElem?_cons_zero, Option.some.injEq] at found
      subst found
      rw [if_pos ⟨write, rfl⟩]
      have others (other : LogEntry) (member : other ∈ rest) :
          join rootDir first.filename ≠ join rootDir other.filename := by
        obtain ⟨later, here⟩ := List.mem_iff_getElem?.mp member
        exact (newest (later + 1) other (by omega) (by simpa using here)).symm
      clear ih newest
      induction rest with
      | nil => rfl
      | cons other rest ih =>
        unfold lastContent
        rw [if_neg fun hit => others other (by simp) hit.2]
        exact ih fun later member => others later (by simp [member])
    | succ position =>
      apply ih position _ (by simpa using found)
      intro later other after here
      exact newest (later + 1) other (by omega) (by simpa using here)

namespace Server

def Newest (s : Server) (position : Nat) (entry : LogEntry) : Prop :=
  ∀ (later : Nat) (other : LogEntry), position < later → later < s.lastApplied → s.log[later]? = some other →
    s.path other.filename ≠ s.path entry.filename

def IsFile (s : Server) (filename : String) : Prop := ∃ content, s.bytes filename = some content

structure Ready (base : Nat) (s : Server) : Prop where
  aligned : Aligned s.log
  within : s.lastApplied ≤ s.log.length
  since : base ≤ s.lastApplied
  opened : ∀ fd found, s.files.lookup fd = some found → s.IsFile (normalizeQuiet found.filename)
  pending : ∀ entry ∈ s.log.drop s.lastApplied, entry.op = "WRITE" ∧ s.IsFile entry.filename
  content : ∀ (position : Nat) (entry : LogEntry), base ≤ position → position < s.lastApplied →
    s.log[position]? = some entry → s.Newest position entry → s.bytes entry.filename = some entry.content

theorem isFile_of_regular (s next : Server) (root : next.rootDir = s.rootDir)
    (regular : ∀ path content, s.tree.find path = some (.file content) →
      ∃ left, next.tree.find path = some (.file left))
    (filename : String) (file : s.IsFile filename) : next.IsFile filename := by
  obtain ⟨content, present⟩ := file
  obtain ⟨left, still⟩ := regular _ content ((s.bytes_eq filename content).mp present)
  refine ⟨left, (next.bytes_eq filename left).mpr ?_⟩
  unfold path at *
  rw [root, still]

theorem ready_quiet {next : Server} (ready : s.Ready base) (keeps : Keeps s next)
    (files : ∀ fd found, next.files.lookup fd = some found →
      ∃ old, s.files.lookup fd = some old ∧ found.filename = old.filename)
    (regular : ∀ path content, s.tree.find path = some (.file content) →
      ∃ left, next.tree.find path = some (.file left))
    (tree : ∀ entry ∈ s.log, next.tree.find (s.path entry.filename) = s.tree.find (s.path entry.filename)) :
    next.Ready base where
  aligned := keeps.log.symm ▸ ready.aligned
  within := by rw [keeps.log, keeps.lastApplied]; exact ready.within
  since := by rw [keeps.lastApplied]; exact ready.since
  opened := by
    intro fd found present
    obtain ⟨old, before, name⟩ := files fd found present
    rw [name]
    exact isFile_of_regular s next keeps.rootDir regular _ (ready.opened fd old before)
  pending := by
    rw [keeps.log, keeps.lastApplied]
    intro entry member
    obtain ⟨write, file⟩ := ready.pending entry member
    exact ⟨write, isFile_of_regular s next keeps.rootDir regular _ file⟩
  content := by
    intro position entry after before found newest
    rw [keeps.lastApplied] at before
    rw [keeps.log] at found
    rw [bytes_congr s next keeps.rootDir _ (tree entry (List.mem_of_getElem? found))]
    refine ready.content position entry after before found fun later other above below here => ?_
    have apart := newest later other above (keeps.lastApplied.symm ▸ below) (keeps.log.symm ▸ here)
    unfold path at apart ⊢
    rwa [keeps.rootDir] at apart

theorem ready_append (ready : s.Ready base)
    (table : Map String FileEntry) (logFile : Bytes) (fresh : entry.index = s.log.length + 1)
    (write : entry.op = "WRITE") (file : s.IsFile entry.filename) :
    ({ s with log := s.log ++ [entry], table := table, logFile := logFile }).Ready base where
  aligned := (aligned_append_iff entry ready.aligned).mpr fresh
  within := by
    have bound := ready.within
    rw [List.length_append]
    dsimp only
    omega
  since := ready.since
  opened := ready.opened
  pending := by
    intro other member
    rw [List.drop_append_of_le_length ready.within, List.mem_append, List.mem_singleton] at member
    rcases member with old | rfl
    · exact ready.pending other old
    · exact ⟨write, file⟩
  content := by
    intro position other after before found newest
    have bound := ready.within
    dsimp only at before found
    rw [List.getElem?_append_left (by omega)] at found
    refine ready.content position other after before found fun later next above below here => ?_
    exact newest later next above below (by
      rw [List.getElem?_append_left (by omega), here])

theorem pending_getElem? (s : Server) (offset : Nat) (entry : LogEntry) :
    s.pending[offset]? = some entry ↔
      s.lastApplied + offset < s.commitIndex ∧ s.log[s.lastApplied + offset]? = some entry := by
  unfold pending
  rw [List.getElem?_drop, List.getElem?_take]
  split_ifs with below
  · simp [below]
  · simp [below]

theorem pending_subset (member : entry ∈ s.pending) :
    entry ∈ s.log.drop s.lastApplied := by
  obtain ⟨offset, found⟩ := List.mem_iff_getElem?.mp member
  have here := ((s.pending_getElem? offset entry).mp found).2
  exact List.mem_of_getElem? (by rw [List.getElem?_drop]; exact here)

theorem ready_applied (base : Nat) (s : Server) (ready : s.Ready base) : (s.applied fun _ => .ok).Ready base := by
  have regular (path : Path) (content : Bytes) (present : s.tree.find path = some (.file content)) :
      ∃ left, (s.applied fun _ => .ok).tree.find path = some (.file left) :=
    ⟨_, applyAll_file s.rootDir s.lastApplied s.pending s.tree path content present⟩
  have bound := ready.within
  constructor
  case aligned => exact ready.aligned
  case within =>
    change max s.lastApplied (min s.commitIndex s.log.length) ≤ s.log.length
    omega
  case since => exact ready.since.trans (Nat.le_max_left _ _)
  case opened =>
    intro fd found present
    exact isFile_of_regular s (s.applied fun _ => .ok) rfl regular _ (ready.opened fd found present)
  case pending =>
    intro entry member
    have earlier : entry ∈ s.log.drop s.lastApplied :=
      (List.drop_sublist_drop_left s.log (Nat.le_max_left _ _)).subset member
    obtain ⟨write, file⟩ := ready.pending entry earlier
    exact ⟨write, isFile_of_regular s (s.applied fun _ => .ok) rfl regular _ file⟩
  case content =>
    intro position entry after before found newest
    change position < max s.lastApplied (min s.commitIndex s.log.length) at before
    have apart (later : Nat) (other : LogEntry) (above : position < later)
        (below : later < max s.lastApplied (min s.commitIndex s.log.length))
        (here : s.log[later]? = some other) : s.path other.filename ≠ s.path entry.filename :=
      newest later other above below here
    rw [bytes_eq]
    change (applyAll (fun _ => .ok) s.rootDir s.lastApplied s.pending s.tree).find (s.path entry.filename) =
      some (.file entry.content)
    by_cases old : position < s.lastApplied
    · -- The commit applies nothing to this file.
      have others (other : LogEntry) (member : other ∈ s.pending) :
          s.path entry.filename ≠ join s.rootDir other.filename := by
        obtain ⟨offset, here⟩ := List.mem_iff_getElem?.mp member
        obtain ⟨below, there⟩ := (s.pending_getElem? offset other).mp here
        have within := (List.getElem?_eq_some_iff.mp there).1
        exact (apart (s.lastApplied + offset) other (by omega) (by omega) there).symm
      rw [applyAll_other _ s.rootDir s.lastApplied s.pending s.tree _ _ others, ← bytes_eq]
      refine ready.content position entry after old found fun later other above below here => ?_
      exact apart later other above (by omega) here
    · -- The entry is applied now, and nothing to the same file after it.
      obtain ⟨offset, rfl⟩ := Nat.exists_eq_add_of_le (Nat.le_of_not_lt old)
      have here : s.pending[offset]? = some entry := (s.pending_getElem? offset entry).mpr ⟨by omega, found⟩
      obtain ⟨write, content, present⟩ :=
        ready.pending entry (pending_subset (List.mem_of_getElem? here))
      rw [applyAll_file s.rootDir s.lastApplied s.pending s.tree _ content ((s.bytes_eq _ _).mp present)]
      congr 2
      refine lastContent_at s.rootDir s.pending offset entry content write here ?_
      intro later other above there
      obtain ⟨below, inLog⟩ := (s.pending_getElem? later other).mp there
      have inside := (List.getElem?_eq_some_iff.mp inLog).1
      exact apart (s.lastApplied + later) other (by omega) (by omega) inLog

theorem ready_commit (ready : s.Ready base) (commitIndex : Nat) :
    (({ s with commitIndex := commitIndex }).applied fun _ => .ok).Ready base :=
  ready_applied base { s with commitIndex := commitIndex }
    ⟨ready.aligned, ready.within, ready.since, ready.opened, ready.pending, ready.content⟩

end Server

namespace Node

def acknowledged (n : Node) (id : Nat) : Option LogEntry :=
  match n.handlers id with
  | some ⟨_, .ended (.ok _) entry⟩ => entry
  | _ => none

def ClosesOnDisk (n : Node) : Prop :=
  ∀ id entry, n.acknowledged id = some entry → entry ∈ n.server.log ∧
    ∀ position : Nat, n.server.log[position]? = some entry → n.server.Newest position entry →
      n.server.bytes entry.filename = some entry.content

structure Serving (base : Nat) (n : Node) : Prop where
  ready : n.server.Ready base
  calls : ∀ id h, n.handlers id = some h → h.call.kind = .close ∧ n.server.IsFile h.call.name
  indexed : ∀ id call primes entry, n.handlers id = some ⟨call, .indexed primes entry⟩ →
    entry.op = "WRITE" ∧ entry.filename = call.name
  logged : ∀ id h entry, n.handlers id = some h → h.stage.entry = some entry →
    StoredAt n.server.log entry ∧ base < entry.index
  committed : ∀ id h entry, n.handlers id = some h → h.stage.committedEntry = some entry →
    h.stage.entry = some entry ∧ entry.index ≤ n.server.lastApplied

theorem serving_closesOnDisk (base : Nat) (n : Node) (serving : n.Serving base) : n.ClosesOnDisk := by
  intro id entry acked
  unfold acknowledged at acked
  split at acked
  case h_2 => cases acked
  case h_1 call resp found here =>
    subst acked
    obtain ⟨⟨positive, stored⟩, after⟩ := serving.logged id _ entry here rfl
    obtain ⟨_, applied⟩ := serving.committed id _ entry here rfl
    refine ⟨List.mem_of_getElem? stored, fun position same newest => ?_⟩
    have place := aligned_position serving.ready.aligned same
    exact serving.ready.content position entry (by omega) (by omega) same newest

def ClosesOnly : NodeAction → Prop
  | .begin _ kind _ _ => kind = .close
  | .handler _ (.commit io) => ∀ position, io position = .ok
  | .handler _ _ => True
  | _ => False

def inPlace (n : Node) : NodeAction → Bool
  | .handler id (.append _) => n.appendsNext id
  | .handler id (.finish _) =>
      (n.handlers id).all fun h => n.server.log.all fun entry =>
        n.server.path entry.filename ≠ n.server.path (h.call.name ++ ".meta")
  | _ => true

def Durable (n : Node) (action : NodeAction) : Prop := ClosesOnly action ∧ n.inPlace action

-- The other handlers only rely on what grows: the log, what is applied, and the files.
theorem serving_update (base : Nat) (n : Node) (serving : n.Serving base) (server : Server)
    (ready : server.Ready base) (files : ∀ name, n.server.IsFile name → server.IsFile name)
    (grown : n.server.log <+: server.log) (later : n.server.lastApplied ≤ server.lastApplied)
    (id : Nat) (h : Handler) (close : h.call.kind = .close) (file : server.IsFile h.call.name)
    (indexed : ∀ primes entry, h.stage = .indexed primes entry →
      entry.op = "WRITE" ∧ entry.filename = h.call.name)
    (logged : ∀ entry, h.stage.entry = some entry → StoredAt server.log entry ∧ base < entry.index)
    (committed : ∀ entry, h.stage.committedEntry = some entry →
      h.stage.entry = some entry ∧ entry.index ≤ server.lastApplied) :
    Serving base ⟨server, Function.update n.handlers id (some h)⟩ where
  ready := ready
  calls := by
    intro other handler here
    rcases update_cases here with ⟨_, rfl⟩ | ⟨_, here⟩
    · exact ⟨close, file⟩
    · obtain ⟨kind, old⟩ := serving.calls other handler here
      exact ⟨kind, files _ old⟩
  indexed := by
    intro other call primes entry here
    rcases update_cases here with ⟨_, rfl⟩ | ⟨_, here⟩
    · exact indexed primes entry rfl
    · exact serving.indexed other call primes entry here
  logged := by
    intro other handler entry here stage
    rcases update_cases here with ⟨_, rfl⟩ | ⟨_, here⟩
    · exact logged entry stage
    · obtain ⟨stored, after⟩ := serving.logged other handler entry here stage
      exact ⟨storedAt_mono grown stored, after⟩
  committed := by
    intro other handler entry here stage
    rcases update_cases here with ⟨_, rfl⟩ | ⟨_, here⟩
    · exact committed entry stage
    · obtain ⟨same, applied⟩ := serving.committed other handler entry here stage
      exact ⟨same, by dsimp only; omega⟩

theorem serving_begin (base : Nat) (n next : Node) (serving : n.Serving base) (id : Nat) (now : Time)
    (req : DataRequest) (begun : n.begin id .close now req = some next) : next.Serving base := by
  rcases n.begin_cases next id .close now req begun with rfl | ⟨found, mode, table, _, present, rfl⟩
  · exact serving
  · have ready := serving.ready
    exact serving_update base n serving { n.server with table := table }
      ⟨ready.aligned, ready.within, ready.since, ready.opened, ready.pending, ready.content⟩
      (fun _ file => file) List.prefix_rfl (Nat.le_refl _) id _ rfl (ready.opened req.fd found present)
      (by simp) (by simp [Stage.entry]) (by simp [Stage.committedEntry])

variable {primes : FilePrimeSet}

theorem serving_append (serving : n.Serving base) {id : Nat} {call : Call}
    (table : Map String FileEntry) (logFile : Bytes) (here : n.handlers id = some ⟨call, .indexed primes entry⟩)
    (after : stage = .logged primes entry ∨ ∃ status, stage = .ended (.error status) (some entry))
    (fresh : entry.index = n.server.log.length + 1) :
    Serving base ⟨{ n.server with log := n.server.log ++ [entry], table := table, logFile := logFile },
      Function.update n.handlers id (some ⟨call, stage⟩)⟩ := by
  obtain ⟨close, file⟩ := serving.calls id _ here
  obtain ⟨write, name⟩ := serving.indexed id call primes entry here
  have inside := serving.ready.within
  have since := serving.ready.since
  have placed : StoredAt (n.server.log ++ [entry]) entry ∧ base < entry.index :=
    ⟨storedAt_next fresh, by omega⟩
  refine serving_update base n serving _
    (Server.ready_append serving.ready table logFile fresh write (name ▸ file))
    (fun _ old => old) (List.prefix_append _ _) (Nat.le_refl _) id ⟨call, stage⟩ close file ?_ ?_ ?_
  · rcases after with rfl | ⟨status, rfl⟩ <;> simp
  · rcases after with rfl | ⟨status, rfl⟩ <;>
    · intro other same
      cases same
      exact placed
  · rcases after with rfl | ⟨status, rfl⟩ <;> simp [Stage.committedEntry]

theorem serving_commit (serving : n.Serving base) {id : Nat} {call : Call}
    {majority : Nat} {awaiting acks : List String} (unsent : List String)
    (here : n.handlers id = some ⟨call, .waiting primes entry majority awaiting acks⟩) :
    Serving base ⟨({ n.server with commitIndex := entry.index.toNat }).applied fun _ => .ok,
      Function.update n.handlers id (some ⟨call, .committed primes entry unsent⟩)⟩ := by
  obtain ⟨close, file⟩ := serving.calls id _ here
  obtain ⟨stored, after⟩ := serving.logged id _ entry here rfl
  have ready := Server.ready_commit serving.ready entry.index.toNat
  have files (name : String) (old : n.server.IsFile name) :
      (({ n.server with commitIndex := entry.index.toNat }).applied fun _ => .ok).IsFile name := by
    refine Server.isFile_of_regular n.server _ ?_ ?_ name old
    · rfl
    · intro path content present
      exact ⟨_, applyAll_file n.server.rootDir n.server.lastApplied _ n.server.tree path content present⟩
  have place := (List.getElem?_eq_some_iff.mp stored.2).1
  refine serving_update base n serving _ ready files List.prefix_rfl (Nat.le_max_left _ _) id
    ⟨call, .committed primes entry unsent⟩ close (files _ file) (by simp) ?_ ?_
  · intro other same
    cases same
    exact ⟨stored, after⟩
  · intro other same
    cases same
    refine ⟨rfl, ?_⟩
    change entry.index ≤ (max n.server.lastApplied (min entry.index.toNat n.server.log.length) : Nat)
    omega

theorem serving_quiet (serving : n.Serving base) {id : Nat} {h : Handler}
    {server : Server} (here : n.handlers id = some h) (still : QuietStep n.server h server stage)
    (regular : ∀ path content, n.server.tree.find path = some (.file content) →
      ∃ left, server.tree.find path = some (.file left)) (apart : ∀ entry ∈ n.server.log,
      server.tree.find (n.server.path entry.filename) = n.server.tree.find (n.server.path entry.filename)) :
    Serving base ⟨server, Function.update n.handlers id (some { h with stage := stage })⟩ := by
  obtain ⟨close, file⟩ := serving.calls id h here
  have files := Server.isFile_of_regular n.server server still.keeps.rootDir regular
  refine serving_update base n serving server
    (Server.ready_quiet serving.ready still.keeps still.files regular apart)
    files (still.keeps.log.symm ▸ List.prefix_rfl) (Nat.le_of_eq still.keeps.lastApplied.symm) id
    { h with stage := stage } close (files _ file) still.indexed ?_ ?_
  · intro entry same
    rw [still.keeps.log]
    exact serving.logged id h entry here (still.entry ▸ same)
  · intro entry same
    rw [still.keeps.lastApplied]
    rcases still.committed with none | kept
    · rw [none] at same
      cases same
    · rw [still.entry]
      exact serving.committed id h entry here (kept ▸ same)

theorem serving_stage (serving : n.Serving base) {id : Nat} {h : Handler}
    (here : n.handlers id = some h) (entry : stage.entry = h.stage.entry)
    (committed : stage.committedEntry = none) (indexed : ∀ primes entry, stage ≠ .indexed primes entry) :
    Serving base ⟨n.server, Function.update n.handlers id (some { h with stage := stage })⟩ := by
  obtain ⟨close, file⟩ := serving.calls id h here
  refine serving_update base n serving n.server serving.ready (fun _ old => old) List.prefix_rfl
    (Nat.le_refl _) id { h with stage := stage } close file ?_ ?_ ?_
  · intro primes entry same
    exact absurd same (indexed primes entry)
  · intro entry' same
    exact serving.logged id h entry' here (entry ▸ same)
  · intro entry' same
    rw [committed] at same
    cases same

theorem serving_handler [LogCodec] {next : Node} (serving : n.Serving base) {id : Nat}
    {action : HandlerStep} (durable : n.Durable (.handler id action))
    (stepped : n.handlerStep id action = some next) : next.Serving base := by
  obtain ⟨h, server, stage, here, _, effect, rfl⟩ := handlerStep_cases stepped
  cases effect with
  | append persist primes entry table logFile stage before after =>
    obtain ⟨call, _⟩ := h
    subst before
    have fresh : n.inPlace (.handler id (.append persist)) := durable.2
    simp only [inPlace, appendsNext, here, decide_eq_true_iff] at fresh
    exact serving_append serving table logFile here after fresh
  | send primes entry before | count primes entry awaiting before =>
    exact serving_stage serving here (by rw [before]; rfl) rfl (by simp)
  | ack peer ok primes entry majority awaiting acks before awaited =>
    exact serving_stage serving here (by rw [before]; rfl) rfl (by simp)
  | commit io primes entry majority awaiting acks before reached =>
    obtain ⟨call, _⟩ := h
    subst before
    obtain rfl : io = fun _ => .ok := funext durable.1
    exact serving_commit serving _ here
  | quiet action server stage still logs commits idle =>
    have same := idle (serving.calls id h here).1
    refine serving_quiet serving here still ?_ ?_ <;> rw [same]
    · exact fun _ content present => ⟨content, present⟩
    · exact fun _ _ => rfl
  | finish env server stage still tree regular =>
    have apart : n.inPlace (.handler id (.finish env)) := durable.2
    simp only [inPlace, here, Option.all_some, List.all_eq_true, decide_eq_true_iff] at apart
    exact serving_quiet serving here still regular fun entry member =>
      tree _ (apart entry member)

theorem serving_step [LogCodec] (base : Nat) (n : Node) (action : NodeAction) (next : Node)
    (serving : n.Serving base) (durable : n.Durable action) (stepped : n.step action = some next) :
    next.Serving base := by
  cases action with
  | begin id kind now req =>
    obtain rfl : kind = .close := durable.1
    exact serving_begin base n next serving id now req stepped
  | handler id action => exact serving_handler serving durable stepped
  | _ => exact durable.1.elim

end Node

theorem acknowledged_closes_on_disk [LogCodec] (s : Server) (ready : s.Ready s.lastApplied)
    (actions : List NodeAction) (final : Node)
    (meets : Transition.Meets Node.step Node.Durable (Node.start s) actions)
    (reached : Transition.run Node.step (Node.start s) actions = some final) : final.ClosesOnDisk := by
  refine Node.serving_closesOnDisk s.lastApplied final ?_
  refine Transition.run_invariant Node.Durable (Node.Serving s.lastApplied)
    (Node.serving_step s.lastApplied) (Node.start s) ?_ actions meets reached
  exact ⟨ready, by simp [Node.start], by simp [Node.start], by simp [Node.start], by simp [Node.start]⟩

def twoOpened : Server :=
  match firstOpened.create {} ⟨"r3", "output/b", "d", .write⟩ with
  | .returned s _ _ => s
  | _ => firstOpened

theorem twoOpened_ready : twoOpened.Ready twoOpened.lastApplied := by
  have facts : twoOpened.log = [] ∧ twoOpened.lastApplied = 0 ∧ twoOpened.files.entries.all (fun item =>
      (twoOpened.bytes (normalizeQuiet item.2.filename)).isSome) = true := by decide +kernel
  obtain ⟨log, applied, present⟩ := facts
  refine ⟨log ▸ aligned_nil, by simp [applied], Nat.le_refl _, fun fd found opened => ?_, by simp [log], by simp [log]⟩
  exact Option.isSome_iff_exists.mp (List.all_eq_true.mp present ⟨fd, found⟩ (AList.mem_lookup_iff.mp opened))

def orderedCloses : List NodeAction :=
  [.begin 0 .close 0 ⟨"r4", 0, true, 0, [50, 10], "c"⟩, .begin 1 .close 0 ⟨"r5", 1, true, 0, [51, 10], "d"⟩,
    .handler 0 .acquire, .handler 1 .acquire, .handler 0 (.copy .stored), .handler 1 (.copy .stored),
    .handler 0 .index, .handler 0 (.append .done), .handler 1 .index, .handler 1 (.append .done),
    .handler 1 .send, .handler 1 .count, .handler 1 (.ack "2" true), .handler 1 (.commit fun _ => .ok),
    .handler 0 .send, .handler 0 .count, .handler 0 (.ack "3" true), .handler 0 (.commit fun _ => .ok),
    .handler 0 (.notify "2"), .handler 0 (.notify "3"), .handler 1 (.notify "2"), .handler 1 (.notify "3"),
    .handler 0 (.prime {}), .handler 1 (.prime {}), .handler 1 (.finish {}), .handler 0 (.finish {})]

theorem two_closes_on_disk :
    ∃ final, Transition.run Node.step (Node.start twoOpened) orderedCloses = some final ∧
      twoOpened.Ready twoOpened.lastApplied ∧
      Transition.Meets Node.step Node.Durable (Node.start twoOpened) orderedCloses ∧
      final.acknowledged 0 = some ⟨1, "WRITE", "output/a", [50, 10], 1⟩ ∧
      final.acknowledged 1 = some ⟨2, "WRITE", "output/b", [51, 10], 1⟩ ∧ final.ClosesOnDisk := by
  have outcome : (Transition.run Node.step (Node.start twoOpened) orderedCloses).map (fun n =>
      (n.acknowledged 0, n.acknowledged 1)) =
    some (some ⟨1, "WRITE", "output/a", [50, 10], 1⟩, some ⟨2, "WRITE", "output/b", [51, 10], 1⟩) := by
    decide +kernel
  obtain ⟨final, reached, facts⟩ := Option.map_eq_some_iff.mp outcome
  obtain ⟨first, second⟩ := Prod.mk.inj facts
  have closes : ∀ action ∈ orderedCloses, Node.ClosesOnly action := by simp [orderedCloses, Node.ClosesOnly]
  have durable : Transition.Meets Node.step Node.Durable (Node.start twoOpened) orderedCloses :=
    Transition.meets_of_check Node.step Node.Durable Node.inPlace
      (fun n action member here => ⟨closes action member, here⟩) (by decide +kernel)
  exact ⟨final, reached, twoOpened_ready, durable, first, second,
    acknowledged_closes_on_disk twoOpened twoOpened_ready orderedCloses final durable reached⟩

-- Both handlers read the length of the empty log; the second entry is acknowledged first.
def twoCloses : List NodeAction :=
  [.begin 0 .close 0 ⟨"r4", 0, true, 0, [50, 10], "c"⟩, .begin 1 .close 0 ⟨"r5", 1, true, 0, [51, 10], "d"⟩,
    .handler 0 .acquire, .handler 1 .acquire, .handler 0 (.copy .stored), .handler 1 (.copy .stored),
    .handler 0 .index, .handler 1 .index, .handler 0 (.append .done), .handler 1 (.append .done),
    .handler 1 .send, .handler 1 .count, .handler 1 (.ack "2" true), .handler 1 (.commit fun _ => .ok),
    .handler 1 (.notify "2"), .handler 1 (.notify "3"), .handler 1 (.prime {}), .handler 1 (.finish {})]

-- The commit of index 1 applies the other handler's entry, and Close answers success over an empty file.
theorem stale_index_loses_close :
    ∃ final, Transition.run Node.step (Node.start twoOpened) twoCloses = some final ∧
      ¬ final.ClosesOnDisk := by
  have outcome : (Transition.run Node.step (Node.start twoOpened) twoCloses).map (fun n =>
      (n.acknowledged 1, n.server.log[1]?, n.server.lastApplied, n.server.bytes "output/b")) =
    some (some ⟨1, "WRITE", "output/b", [51, 10], 1⟩, some ⟨1, "WRITE", "output/b", [51, 10], 1⟩, 1, some []) := by
    decide +kernel
  obtain ⟨final, reached, facts⟩ := Option.map_eq_some_iff.mp outcome
  simp only [Prod.mk.injEq] at facts
  obtain ⟨acked, stored, applied, file⟩ := facts
  refine ⟨final, reached, fun onDisk => ?_⟩
  have newest : final.server.Newest 1 ⟨1, "WRITE", "output/b", [51, 10], 1⟩ := by
    intro later other above below
    omega
  have written := (onDisk 1 _ acked).2 1 stored newest
  rw [file] at written
  exact absurd written (by decide)

end Ikkat
