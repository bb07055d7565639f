import Ikkat.Served
import Ikkat.Snapshot

set_option autoImplicit false

namespace Ikkat

variable {mode : FileMode} {fd : Int32} {s next : Server} {who : String}

namespace Server

def Registers (s : Server) (fits : String → ClientState → Prop) (who : String) (fd : Int32) : Prop :=
  ∃ found client, s.files.lookup fd = some found ∧ found.clients.lookup who = some client ∧ fits found.filename client

def Registered (s : Server) (who : String) (fd : Int32) : Prop :=
  s.Registers (fun _ client => client.mode = .write) who fd

theorem captured_iff (s : Server) (now : Time) (snapshotID who : String) :
    (checkClientInSnapshot (s.initiatedSnapshot now snapshotID) who).1 = true ↔ ∃ fd, s.Registered who fd := by
  unfold checkClientInSnapshot Registered Registers
  simp only [initiatedSnapshot, localSnapshot, snapshotClients, List.any_eq_true, List.mem_filter, List.mem_flatMap,
    List.mem_map, decide_eq_true_eq]
  constructor
  · rintro ⟨_, ⟨⟨item, listed, client, registered, rfl⟩, rfl⟩, mode⟩
    exact ⟨item.1, item.2, client.2, AList.mem_lookup_iff.mpr listed, AList.mem_lookup_iff.mpr registered, mode⟩
  · rintro ⟨fd, found, client, present, registered, mode⟩
    exact ⟨_, ⟨⟨⟨fd, found⟩, AList.mem_lookup_iff.mp present, ⟨who, client⟩, AList.mem_lookup_iff.mp registered, rfl⟩, rfl⟩,
      mode⟩

structure Grants (s next : Server) (who : String) (mode : FileMode) (fd : Int32) : Prop where
  fresh : fd = s.nextFD
  count : next.nextFD = s.nextFD + 1
  limit : s.files.entries.length < maxOpenFiles
  files : ∃ opened now, next.files = s.files.insert fd opened ∧
    opened.clients = (∅ : Map String ClientState).insert who ⟨now, mode⟩

section Requests

variable (env : Env) (s next : Server) (resp : OpenResponse) (sent : List AppendEntriesRequest)

theorem create_grants {req : CreateRequest} (uncached : s.cached req.requestId env.start = none)
    (handled : s.create env req = .returned next (.ok (.opened resp)) sent) :
    s.Grants next req.clientId req.mode resp.fd := by
  obtain ⟨_, _, _, _, _, opened, _, room, fd, _, rfl, clients, _⟩ := create_granted env s next resp sent uncached handled
  exact ⟨fd, rfl, room, opened, env.finish, by rw [fd], clients⟩

theorem openFile_grants (req : FileRequest) (uncached : s.cached req.requestId env.start = none)
    (handled : s.openFile env req = .returned next (.ok (.opened resp)) sent) :
    s.Grants next req.clientId req.mode resp.fd := by
  obtain ⟨_, _, _, opened, _, room, fd, _, rfl, clients, _⟩ := openFile_granted env s next resp sent uncached handled
  exact ⟨fd, rfl, room, opened, env.finish, by rw [fd], clients⟩

end Requests

section Calls

variable [LogCodec] (env : Env) (s next : Server) (response : Response) (sent : List AppendEntriesRequest)

omit [LogCodec] in
theorem finishCall_descriptors (call : Call) : (s.finishCall env call).1.nextFD = s.nextFD ∧
    (s.finishCall env call).1.files = (s.dropClient call).files := by
  obtain ⟨table, tree, same, _⟩ := s.bumpVersion_eq env call
  unfold finishCall dropClient
  rw [same]
  dsimp only [remember]
  cases call.kind with
  | write => exact ⟨rfl, rfl⟩
  | close =>
    dsimp only
    cases s.files.lookup call.req.fd <;> exact ⟨rfl, rfl⟩

omit [LogCodec] in
theorem committed_descriptors (call : Call) (logFile : Bytes) :
    (committed env s call logFile).1.nextFD = s.nextFD ∧ (committed env s call logFile).1.files = s.files := by
  obtain ⟨_, _, _, _, same⟩ := committed_eq env s call logFile
  rw [same]
  exact ⟨rfl, rfl⟩

theorem handleCall_descriptors {kind : Kind} {req : DataRequest} (uncached : s.cached req.requestId env.start = none)
    (handled : s.handleCall kind env req = .returned next (.ok response) sent) :
    next.nextFD = s.nextFD ∧ ∃ found client, s.files.lookup req.fd = some found ∧
      found.clients.lookup req.clientID = some client ∧
      next.files = (s.dropClient ⟨kind, req, found.filename, client.mode⟩).files := by
  have fresh := cachedCall_fresh kind uncached
  have dropped (t : Server) (files : t.files = s.files) (call : Call) : (t.dropClient call).files =
      (s.dropClient call).files := by
    unfold dropClient
    cases call.kind with
    | write => exact files
    | close =>
      rw [files]
      cases s.files.lookup call.req.fd with
      | none => exact files
      | some found => rfl
  cases handleCall_outcome kind env s next req _ sent fresh handled with
  | clean call table response begun still listed made =>
    obtain ⟨found, client, _, _, present, registered, rfl, _⟩ := beginCall_opened kind env.start s _ req call begun
    obtain ⟨count, files⟩ := finishCall_descriptors env { s with table := table } ⟨kind, req, found.filename, client.mode⟩
    rw [made]
    exact ⟨count, found, client, present, registered, files.trans (dropped { s with table := table } rfl _)⟩
  | done call ready logFile response enters replicated persisted finished made =>
    obtain ⟨found, client, table, _, present, registered, _, _, rfl, rfl⟩ := enters_eq kind env s ready req call enters
    obtain ⟨issued, kept⟩ := committed_descriptors env { s with table := table }
      ⟨kind, req, found.filename, client.mode⟩ logFile
    generalize (committed env { s with table := table } ⟨kind, req, found.filename, client.mode⟩ logFile).1 = done
      at issued kept made
    obtain ⟨count, files⟩ := finishCall_descriptors env done ⟨kind, req, found.filename, client.mode⟩
    obtain ⟨_, released⟩ := releaseWrite_eq (done.finishCall env ⟨kind, req, found.filename, client.mode⟩).1
      (Call.name ⟨kind, req, found.filename, client.mode⟩)
    rw [made, released]
    exact ⟨count.trans issued, found, client, present, registered, files.trans (dropped done kept _)⟩

end Calls

structure Numbered (s : Server) : Prop where
  below : ∀ fd ∈ s.files, fd.toInt < s.nextFD.toInt
  count : s.nextFD.toInt = s.files.entries.length
  limit : s.files.entries.length ≤ maxOpenFiles

theorem Numbered.raised (numbered : s.Numbered)
    (grants : s.Grants next who mode fd) : s.nextFD.toInt < next.nextFD.toInt := by
  have bound := numbered.count
  have limit := grants.limit
  have room : maxOpenFiles = 1000 := rfl
  rw [grants.count, toInt_succ s.nextFD (by omega)]
  omega

theorem Numbered.grants (numbered : s.Numbered)
    (grants : s.Grants next who mode fd) : next.Numbered ∧ fd ∉ s.files := by
  obtain ⟨rfl, count, limit, opened, now, files, _⟩ := grants
  have absent : s.nextFD ∉ s.files := fun inside => absurd (numbered.below _ inside) (Int.lt_irrefl _)
  have bound := numbered.count
  have room : maxOpenFiles = 1000 := rfl
  have raised : next.nextFD.toInt = s.nextFD.toInt + 1 := by
    rw [count]
    exact toInt_succ s.nextFD (by omega)
  refine ⟨⟨fun fd inside => ?_, ?_, ?_⟩, absent⟩
  · rw [files, AList.mem_insert] at inside
    rcases inside with rfl | inside
    · omega
    · have := numbered.below fd inside
      omega
  · rw [files, Map.length_insert_new _ _ _ absent]
    omega
  · rw [files, Map.length_insert_new _ _ _ absent]
    omega

theorem Numbered.replaced (numbered : s.Numbered) {found : FileMeta}
    (present : fd ∈ s.files) (count : next.nextFD = s.nextFD) (files : next.files = s.files.insert fd found) :
    next.Numbered where
  below other inside := by
    rw [files, AList.mem_insert] at inside
    rw [count]
    rcases inside with rfl | inside
    · exact numbered.below _ present
    · exact numbered.below _ inside
  count := by rw [count, files, Map.length_insert_old _ _ _ present, numbered.count]
  limit := by rw [files, Map.length_insert_old _ _ _ present]; exact numbered.limit

section Registers

variable {s next : Server} (fits : String → ClientState → Prop) {who : String} {client : ClientState} {fd : Int32}
  {found : FileMeta}

theorem registers_granted (absent : fd ∉ s.files) (files : next.files = s.files.insert fd found)
    (clients : found.clients = (∅ : Map String ClientState).insert who client) (other : String) (target : Int32) :
    next.Registers fits other target ↔
      s.Registers fits other target ∨ other = who ∧ target = fd ∧ fits found.filename client := by
  unfold Registers
  rw [files]
  by_cases same : target = fd
  · subst same
    have nothing : s.files.lookup target = none := AList.lookup_eq_none.mpr absent
    rw [nothing]
    have only : found.clients.lookup other = if other = who then some client else none := by
      rw [clients]
      split_ifs with own
      · rw [own, AList.lookup_insert]
      · rw [AList.lookup_insert_ne own]
        rfl
    by_cases own : other = who <;> simp [only]
  · rw [AList.lookup_insert_ne same]
    simp [same]

theorem registers_dropped (present : s.files.lookup fd = some found)
    (files : next.files = s.files.insert fd { found with clients := found.clients.erase who })
    (other : String) (target : Int32) :
    next.Registers fits other target ↔ s.Registers fits other target ∧ ¬ (other = who ∧ target = fd) := by
  unfold Registers
  rw [files]
  by_cases same : target = fd
  · subst same
    rw [present]
    by_cases own : other = who
    · subst own
      simp
    · simp [own]
  · rw [AList.lookup_insert_ne same]
    simp [same]

theorem registers_renewed (present : s.files.lookup fd = some found) (registered : found.clients.lookup who = some client)
    (renewed : ClientState) (alike : fits found.filename renewed ↔ fits found.filename client)
    (files : next.files = s.files.insert fd { found with clients := found.clients.insert who renewed })
    (other : String) (target : Int32) : next.Registers fits other target ↔ s.Registers fits other target := by
  unfold Registers
  rw [files]
  by_cases same : target = fd
  · subst same
    rw [present]
    by_cases own : other = who
    · subst own
      simp [registered, alike]
    · simp [AList.lookup_insert_ne own]
  · rw [AList.lookup_insert_ne same]

end Registers

theorem registered_grants
    (grants : s.Grants next who mode fd) (absent : fd ∉ s.files) (other : String) (target : Int32) :
    next.Registered other target ↔ s.Registered other target ∨ other = who ∧ target = fd ∧ mode = .write := by
  obtain ⟨_, _, _, opened, now, files, clients⟩ := grants
  exact registers_granted (fun _ client => client.mode = .write) absent files clients other target

theorem registered_dropped {found : FileMeta} (present : s.files.lookup fd = some found)
    (files : next.files = s.files.insert fd { found with clients := found.clients.erase who })
    (other : String) (target : Int32) :
    next.Registered other target ↔ s.Registered other target ∧ ¬ (other = who ∧ target = fd) :=
  registers_dropped (fun _ client => client.mode = .write) present files other target

structure Steady (s next : Server) : Prop where
  numbered : s.Numbered → next.Numbered
  count : next.nextFD = s.nextFD
  registered : ∀ who fd, next.Registered who fd ↔ s.Registered who fd

theorem Steady.refl (s : Server) : s.Steady s := ⟨fun numbered => numbered, rfl, fun _ _ => Iff.rfl⟩

theorem Steady.of_files (count : next.nextFD = s.nextFD) (files : next.files = s.files) :
    s.Steady next := by
  refine ⟨fun numbered => ⟨?_, ?_, ?_⟩, count, fun who fd => ?_⟩
  · rw [files, count]
    exact numbered.below
  · rw [files, count]
    exact numbered.count
  · rw [files]
    exact numbered.limit
  · unfold Registered Registers
    rw [files]

theorem read_steady {io : ReadAnswers} {req : ReadRequest} {chunks : List Bytes}
    (streamed : s.read io req = (next, chunks, none)) : s.Steady next := by
  obtain ⟨fd, found, client, present, registered, rfl, _⟩ := read_streamed streamed
  refine ⟨fun numbered => numbered.replaced (AList.lookup_isSome.mp (by rw [present]; rfl)) rfl rfl, rfl,
    fun who target => ?_⟩
  exact registers_renewed (fun _ client => client.mode = .write) present registered { client with lastSeen := io.now }
    Iff.rfl rfl who target

end Server

def CacheEntry.seen (entry : CacheEntry) : Option (FileMode × Int32) :=
  if entry.closed then none else some (entry.mode, entry.fd)

def Client.openView (c : Client) (name : String) : Option (FileMode × Int32) := (c.cache.lookup name).bind (·.seen)

theorem Client.openView_setEntry (c : Client) (name : String) (entry : CacheEntry) :
    (c.setEntry name entry).openView = Function.update c.openView name entry.seen := by
  funext other
  unfold openView setEntry
  rw [Function.update_apply]
  split_ifs with same
  · rw [same, AList.lookup_insert, Option.bind_some]
  · rw [AList.lookup_insert_ne same]

theorem Client.openView_touchLRU (c : Client) (name : String) : (c.touchLRU name).openView = c.openView := rfl

namespace Seat

variable {World : Type} (io : LocalIO)

theorem openView_makeRoom (seat : Seat World) : (seat.makeRoom io).1.client.openView = seat.client.openView := by
  rcases seat.makeRoom_cases io with ⟨failed, same⟩ | ⟨name, entry, evicts, same⟩
  · rw [same]
  · obtain ⟨held, _, shut⟩ := Client.victim_entry evicts
    rw [same]
    funext other
    unfold Client.openView
    by_cases own : other = name
    · subst own
      rw [AList.lookup_erase, held, Option.bind_some, CacheEntry.seen, if_pos shut]
      rfl
    · rw [AList.lookup_erase_ne own]

theorem openView_fetch (name : String) (entry : CacheEntry) (tmp : Path) (chunks : List Bytes) (ended : Option Failure)
    (seat : Seat World) : (fetch io name entry tmp chunks ended seat).1.client.openView = seat.client.openView := by
  unfold fetch
  dsimp only
  split
  · rfl
  · split
    · rfl
    · split
      · rfl
      · split <;> rfl

def makes (io : LocalIO) (path : Path) (seat : Seat World) : Bool :=
  let made := if io.mkdir then (seat.disk.mkdirAll path.dropLast).getD seat.disk else seat.disk
  (osTruncate io.create made path).isSome

theorem openView_enter (name : String) (entry : CacheEntry) (seat : Seat World) :
    (seat.makes io entry.localPath = false ∧ (∃ err, (seat.enter io name entry).2 = .error err) ∧
        (seat.enter io name entry).1.client.openView = seat.client.openView) ∨
      (seat.enter io name entry).2 = .ok entry ∧
        (seat.enter io name entry).1.client.openView = Function.update seat.client.openView name entry.seen := by
  unfold enter makes
  dsimp only
  cases osTruncate io.create (if io.mkdir then (seat.disk.mkdirAll entry.localPath.dropLast).getD seat.disk
    else seat.disk) entry.localPath with
  | none => exact .inl ⟨rfl, ⟨_, rfl⟩, rfl⟩
  | some disk => exact .inr ⟨rfl, seat.client.openView_setEntry name entry⟩

end Seat

def InWrite (view : String → Option (FileMode × Int32)) (name : String) : Prop := ∃ fd, view name = some (.write, fd)

def SoleName (view : String → Option (FileMode × Int32)) (name : String) : Prop :=
  ∀ other, (view other).isSome → normalize other = normalize name → other = name

structure Tracked (s : Server) (who : String) (view : String → Option (FileMode × Int32)) : Prop where
  below : ∀ name mode fd, view name = some (mode, fd) → fd.toInt < s.nextFD.toInt
  writes : ∀ name fd, view name = some (.write, fd) → s.Registered who fd
  kept : ∀ fd, s.Registered who fd → ∃ name, view name = some (.write, fd)
  apart : ∀ name other mode mode' fd, view name = some (mode, fd) → view other = some (mode', fd) → name = other

structure Followed (opened : Option String → Option FileMode) (view : String → Option (FileMode × Int32)) : Prop where
  single : ∀ name, (view name).isSome → SoleName view name
  written : ∀ file, opened file = some .write ↔ ∃ name, normalize name = file ∧ InWrite view name

inductive Motion (s next : Server) (who name : String) (view : String → Option (FileMode × Int32)) :
    (String → Option (FileMode × Int32)) → Option (Option FileMode) → Prop where
  | quiet (steady : s.Steady next) : Motion s next who name view view none
  | again (steady : s.Steady next) (mode : FileMode) (alone : SoleName view name)
      (same : InWrite view name ↔ mode = .write) : Motion s next who name view view (some (some mode))
  | granted (mode : FileMode) (fd : Int32) (grants : s.Grants next who mode fd) (alone : SoleName view name)
      (unwritten : ¬ InWrite view name) :
      Motion s next who name view (Function.update view name (some (mode, fd))) (some (some mode))
  | unseen (mode : FileMode) (fd : Int32) (grants : s.Grants next who mode fd) (harmless : mode ≠ .write) :
      Motion s next who name view view none
  | created (fd : Int32) (grants : s.Grants next who .read fd) (unwritten : ¬ InWrite view name) :
      Motion s next who name view (Function.update view name none) none
  | closed (fd : Int32) (found : FileMeta) (present : s.files.lookup fd = some found)
      (files : next.files = s.files.insert fd { found with clients := found.clients.erase who })
      (count : next.nextFD = s.nextFD) (alone : SoleName view name)
      (own : ∀ mode other, view name = some (mode, other) → other = fd)
      (lost : s.Registered who fd → (view name).isSome) :
      Motion s next who name view (Function.update view name none) (some none)

namespace Motion

variable {s next : Server} {who name : String} {view after : String → Option (FileMode × Int32)}
  {heard : Option (Option FileMode)}

theorem numbered (motion : Motion s next who name view after heard) (numbered : s.Numbered) : next.Numbered := by
  cases motion with
  | quiet steady | again steady => exact steady.numbered numbered
  | granted _ _ grants | unseen _ _ grants | created _ grants => exact (numbered.grants grants).1
  | closed _ _ present files count =>
    exact numbered.replaced (AList.lookup_isSome.mp (by rw [present]; rfl)) count files

theorem rises (motion : Motion s next who name view after heard) (numbered : s.Numbered) :
    s.nextFD.toInt ≤ next.nextFD.toInt := by
  cases motion with
  | quiet steady | again steady => exact Int.le_of_eq (by rw [steady.count])
  | granted _ _ grants | unseen _ _ grants | created _ grants => exact Int.le_of_lt (numbered.raised grants)
  | closed _ _ _ _ count => exact Int.le_of_eq (by rw [count])

theorem others (motion : Motion s next who name view after heard) (numbered : s.Numbered) (other : String)
    (different : other ≠ who) (fd : Int32) : next.Registered other fd ↔ s.Registered other fd := by
  cases motion with
  | quiet steady | again steady => exact steady.registered other fd
  | granted _ _ grants | unseen _ _ grants =>
    simp [Server.registered_grants grants (numbered.grants grants).2, different]
  | created _ grants => simp [Server.registered_grants grants (numbered.grants grants).2]
  | closed _ _ present files => simp [Server.registered_dropped present files, different]

end Motion

namespace Tracked

variable {s next : Server} {who name : String} {view after : String → Option (FileMode × Int32)}
  {heard : Option (Option FileMode)}

theorem congr (tracked : Tracked s who view) (rises : s.nextFD.toInt ≤ next.nextFD.toInt)
    (registered : ∀ fd, next.Registered who fd ↔ s.Registered who fd) : Tracked next who view where
  below name mode fd seen := Int.lt_of_lt_of_le (tracked.below name mode fd seen) rises
  writes name fd seen := (registered fd).mpr (tracked.writes name fd seen)
  kept fd held := tracked.kept fd ((registered fd).mp held)
  apart := tracked.apart

theorem granted (tracked : Tracked s who view) (numbered : s.Numbered)
    (grants : s.Grants next who mode fd) (unwritten : ¬ InWrite view name) :
    Tracked next who (Function.update view name (some (mode, fd))) := by
  have registered := Server.registered_grants grants (numbered.grants grants).2 who
  have raised := numbered.raised grants
  have fresh (other : String) (mode' : FileMode) (seen : view other = some (mode', fd)) : False := by
    have := tracked.below other mode' fd seen
    rw [grants.fresh] at this
    omega
  refine ⟨fun other mode' fd' seen => ?_, fun other fd' seen => ?_, fun fd' held => ?_,
    fun one other mode' mode'' fd' seen seen' => ?_⟩
  · rw [Function.update_apply] at seen
    split_ifs at seen
    · cases seen
      rw [grants.fresh]
      exact raised
    · exact Int.lt_trans (tracked.below other mode' fd' seen) raised
  · rw [Function.update_apply] at seen
    split_ifs at seen
    · cases seen
      exact (registered fd).mpr (.inr ⟨rfl, rfl, rfl⟩)
    · exact (registered fd').mpr (.inl (tracked.writes other fd' seen))
  · rcases (registered fd').mp held with before | ⟨_, rfl, rfl⟩
    · obtain ⟨other, seen⟩ := tracked.kept fd' before
      refine ⟨other, ?_⟩
      rw [Function.update_of_ne]
      · exact seen
      · rintro rfl
        exact unwritten ⟨fd', seen⟩
    · exact ⟨name, Function.update_self ..⟩
  · rw [Function.update_apply] at seen seen'
    split_ifs at seen seen' with first second
    · exact first.trans second.symm
    · cases seen
      exact (fresh other _ seen').elim
    · cases seen'
      exact (fresh one _ seen).elim
    · exact tracked.apart one other mode' mode'' fd' seen seen'

theorem forgotten (tracked : Tracked s who view) (unwritten : ¬ InWrite view name) :
    Tracked s who (Function.update view name none) := by
  have before (other : String) (entry : FileMode × Int32) (seen : Function.update view name none other = some entry) :
      view other = some entry := by
    rw [Function.update_apply] at seen
    split_ifs at seen
    exact seen
  refine ⟨fun other mode fd seen => tracked.below other mode fd (before _ _ seen),
    fun other fd seen => tracked.writes other fd (before _ _ seen), fun fd held => ?_,
    fun one other mode mode' fd seen seen' => tracked.apart one other mode mode' fd (before _ _ seen) (before _ _ seen')⟩
  obtain ⟨other, seen⟩ := tracked.kept fd held
  refine ⟨other, ?_⟩
  rw [Function.update_of_ne]
  · exact seen
  · rintro rfl
    exact unwritten ⟨fd, seen⟩

theorem moved (tracked : Tracked s who view) (numbered : s.Numbered)
    (motion : Motion s next who name view after heard) : Tracked next who after := by
  have rises := motion.rises numbered
  cases motion with
  | quiet steady | again steady => exact tracked.congr rises (steady.registered who)
  | granted mode fd grants _ unwritten => exact tracked.granted numbered grants unwritten
  | unseen mode fd grants harmless =>
    refine tracked.congr rises fun target => ?_
    simp [Server.registered_grants grants (numbered.grants grants).2, harmless]
  | created fd grants unwritten =>
    refine (tracked.forgotten unwritten).congr rises fun target => ?_
    simp [Server.registered_grants grants (numbered.grants grants).2]
  | closed fd found present files count alone own lost =>
    have registered := Server.registered_dropped present files who
    have before (other : String) (entry : FileMode × Int32)
        (seen : Function.update view name none other = some entry) : other ≠ name ∧ view other = some entry := by
      rw [Function.update_apply] at seen
      split_ifs at seen with same
      exact ⟨same, seen⟩
    refine ⟨fun other mode fd' seen => ?_, fun other fd' seen => ?_, fun fd' held => ?_,
      fun one other mode mode' fd' seen seen' =>
        tracked.apart one other mode mode' fd' (before _ _ seen).2 (before _ _ seen').2⟩
    · exact Int.lt_of_lt_of_le (tracked.below other mode fd' (before _ _ seen).2) rises
    · obtain ⟨different, seen⟩ := before _ _ seen
      refine (registered fd').mpr ⟨tracked.writes other fd' seen, ?_⟩
      rintro ⟨_, rfl⟩
      obtain ⟨⟨mode, target⟩, here⟩ := Option.isSome_iff_exists.mp (lost (tracked.writes other fd' seen))
      obtain rfl := own mode target here
      exact different (tracked.apart other name _ _ _ seen here)
    · obtain ⟨held, other⟩ := (registered fd').mp held
      obtain ⟨target, seen⟩ := tracked.kept fd' held
      refine ⟨target, ?_⟩
      rw [Function.update_of_ne]
      · exact seen
      · rintro rfl
        exact other ⟨rfl, own _ _ seen⟩

end Tracked

namespace Followed

variable {s next : Server} {who name : String} {view after : String → Option (FileMode × Int32)}
  {opened : Option String → Option FileMode} {heard : Option (Option FileMode)}

theorem replaced (followed : Followed opened view) (alone : SoleName view name) (entry : Option (FileMode × Int32))
    (mode : Option FileMode) (same : mode = some .write ↔ ∃ fd, entry = some (.write, fd)) :
    Followed (Function.update opened (normalize name) mode) (Function.update view name entry) := by
  have before (other : String) (different : other ≠ name) : Function.update view name entry other = view other :=
    Function.update_of_ne different ..
  refine ⟨fun one seen other seen' sameFile => ?_, fun file => ?_⟩
  · by_cases first : one = name <;> by_cases second : other = name
    · exact second.trans first.symm
    · rw [before other second] at seen'
      rw [first] at sameFile ⊢
      exact alone other seen' sameFile
    · rw [before one first] at seen
      rw [second] at sameFile ⊢
      exact (alone one seen sameFile.symm).symm
    · rw [before one first] at seen
      rw [before other second] at seen'
      exact followed.single one seen other seen' sameFile
  · by_cases own : file = normalize name
    · rw [own, Function.update_self, same]
      constructor
      · rintro ⟨fd, seen⟩
        exact ⟨name, rfl, fd, by rw [Function.update_self, seen]⟩
      · rintro ⟨other, sameFile, fd, seen⟩
        by_cases different : other = name
        · rw [different, Function.update_self] at seen
          exact ⟨fd, seen⟩
        · rw [before other different] at seen
          exact absurd (alone other (by rw [seen]; rfl) sameFile) different
    · rw [Function.update_of_ne own, followed.written file]
      refine exists_congr fun other => and_congr_right fun sameFile => ?_
      have different : other ≠ name := by
        rintro rfl
        exact own sameFile.symm
      unfold InWrite
      rw [before other different]

theorem forgotten (followed : Followed opened view) (unwritten : ¬ InWrite view name) :
    Followed opened (Function.update view name none) := by
  have before (other : String) (seen : (Function.update view name none other).isSome) : (view other).isSome := by
    rw [Function.update_apply] at seen
    split_ifs at seen
    · cases seen
    · exact seen
  refine ⟨fun one seen other seen' => followed.single one (before one seen) other (before other seen'), fun file => ?_⟩
  rw [followed.written file]
  refine exists_congr fun other => and_congr_right fun _ => ?_
  by_cases own : other = name
  · subst own
    exact iff_of_false unwritten (by simp [InWrite])
  · unfold InWrite
    rw [Function.update_of_ne own]

theorem moved (followed : Followed opened view) (motion : Motion s next who name view after heard) :
    Followed (heard.elim opened (Function.update opened (normalize name))) after := by
  cases motion with
  | quiet => exact followed
  | again _ mode alone same =>
    have kept := followed.replaced alone (view name) (some mode) (by simpa [InWrite] using same.symm)
    rwa [Function.update_eq_self] at kept
  | granted mode fd _ alone => exact followed.replaced alone (some (mode, fd)) (some mode) (by simp)
  | unseen => exact followed
  | created fd _ unwritten => exact followed.forgotten unwritten
  | closed _ _ _ _ _ alone => exact followed.replaced alone none none (by simp)

end Followed

def ClientCall.heard (call : ClientCall) (answer : Except Failure ClientAnswer) : Option (Option FileMode) :=
  match answer, call with
  | .ok _, .openFile _ _ mode => some (some mode)
  | .ok _, .close _ _ => some none
  | _, _ => none

namespace Seat

def enters (io : LocalIO) (name : String) (seat : Seat Primary) : Bool :=
  let seat := if seat.client.cache.lookup name = none then (seat.makeRoom io).1 else seat
  seat.makes io (seat.client.localPath name)

def Fits (seat : Seat Primary) (t : ClientTurn) : Prop :=
  let view := seat.client.openView
  let fresh (requestId : String) : Prop := ∀ s, seat.world = some s → s.cached requestId t.env.start = none
  match t.call with
  | .create requestId name => fresh requestId ∧ ¬ InWrite view name
  | .openFile requestId name mode =>
      fresh requestId ∧ SoleName view name ∧
        if (seat.client.cache.lookup name).any (·.dirty) then InWrite view name ↔ mode = .write
        else ¬ InWrite view name ∧ (mode = .write → seat.enters t.io name)
  | .commit requestId _ => fresh requestId
  | .close requestId name =>
      fresh requestId ∧ SoleName view name ∧
        ∀ s entry, seat.world = some s → seat.client.cache.lookup name = some entry → entry.closed = true →
          ¬ s.Registered t.who entry.fd
  | _ => True

section Moves

variable [LogCodec] (seat : Seat Primary) (s next : Server) (here : seat.world = some s) (env : Env)
  (reads : ReadAnswers) (io : LocalIO)

include here

variable (requestId name : String)

theorem moves_create (who : String) (fresh : s.cached requestId env.start = none)
    (unwritten : ¬ InWrite seat.client.openView name)
    (live : (seat.create (primaryNet env reads) io requestId name who).1.world = some next) :
    Motion s next who name seat.client.openView
      (seat.create (primaryNet env reads) io requestId name who).1.client.openView none := by
  rcases seat.create_live next env reads io live with ⟨err, same⟩ | ⟨t, resp, sent, there, replied, same⟩
  · rw [same] at live ⊢
    rw [makeRoom_world, here] at live
    obtain rfl := Option.some.inj live
    rw [openView_makeRoom]
    exact .quiet (.refl s)
  · obtain rfl := Option.some.inj (here.symm.trans there)
    have grants := s.create_grants env next resp sent fresh replied
    rw [same]
    rcases openView_enter io name _ { (seat.makeRoom io).1 with world := some next } with
      ⟨_, _, kept⟩ | ⟨_, entered⟩
    · rw [kept, openView_makeRoom]
      exact .unseen .read resp.fd grants (by decide)
    · rw [entered, openView_makeRoom]
      exact .created resp.fd grants unwritten

theorem moves_openRemote (req : FileRequest) (fresh : s.cached req.requestId env.start = none)
    (alone : SoleName seat.client.openView req.filename) (unwritten : ¬ InWrite seat.client.openView req.filename)
    (makes : req.mode = .write → seat.makes io (seat.client.localPath req.filename))
    (live : (seat.openRemote (primaryNet env reads) io req).1.world = some next) :
    Motion s next req.clientId req.filename seat.client.openView
      (seat.openRemote (primaryNet env reads) io req).1.client.openView
      (ClientCall.heard (.openFile req.requestId req.filename req.mode)
        ((seat.openRemote (primaryNet env reads) io req).2.map .entry)) := by
  obtain ⟨t, resp, sent, there, replied, same⟩ := seat.openRemote_live next env reads io live
  obtain rfl := Option.some.inj (here.symm.trans there)
  have grants := s.openFile_grants env next resp sent req fresh replied
  rw [same]
  rcases openView_enter io req.filename _ { seat with world := some next } with ⟨unmade, ⟨err, failed⟩, kept⟩ | ⟨entered, view⟩
  · rw [kept, failed]
    refine .unseen req.mode resp.fd grants fun write => ?_
    exact absurd (makes write) (by rw [show seat.makes io _ = false from unmade]; decide)
  · rw [view, entered]
    exact .granted req.mode resp.fd grants alone unwritten

theorem moves_openFile (req : FileRequest) (fresh : s.cached req.requestId env.start = none)
    (alone : SoleName seat.client.openView req.filename)
    (fits : if (seat.client.cache.lookup req.filename).any (·.dirty) then
        InWrite seat.client.openView req.filename ↔ req.mode = .write
      else ¬ InWrite seat.client.openView req.filename ∧ (req.mode = .write → seat.enters io req.filename))
    (live : (seat.openFile (primaryNet env reads) io req).1.world = some next) :
    Motion s next req.clientId req.filename seat.client.openView
      (seat.openFile (primaryNet env reads) io req).1.client.openView
      (ClientCall.heard (.openFile req.requestId req.filename req.mode)
        ((seat.openFile (primaryNet env reads) io req).2.map .entry)) := by
  have opening := seat.openFile_live next env reads io req live
  generalize seat.openFile (primaryNet env reads) io req = result at live opening ⊢
  have unchanged (world : seat.world = some next) : s.Steady next := by
    obtain rfl := Option.some.inj (here.symm.trans world)
    exact .refl s
  cases opening with
  | dirty entry held dirty =>
    rw [held, Option.any_some, if_pos dirty] at fits
    exact .again (unchanged live) req.mode alone fits
  | refused entry held err => exact .quiet (unchanged live)
  | cached entry held clean t there current =>
    rw [held, Option.any_some, if_neg (by rw [clean]; decide)] at fits
    obtain ⟨t, resp, sent, there, replied, same⟩ := seat.openCached_live next env reads req entry live
    obtain rfl := Option.some.inj (here.symm.trans there)
    rw [same, Client.openView_setEntry, Client.openView_setEntry, Function.update_idem]
    exact .granted req.mode resp.fd (s.openFile_grants env next resp sent req fresh replied) alone fits.1
  | stale entry held clean =>
    rw [held, Option.any_some, if_neg (by rw [clean]; decide)] at fits
    refine seat.moves_openRemote s next here env reads io req fresh alone fits.1 (fun write => ?_) live
    have makes := fits.2 write
    unfold enters at makes
    rwa [held] at makes
  | full absent err =>
    rw [makeRoom_world] at live
    rw [openView_makeRoom]
    exact .quiet (unchanged live)
  | absent absent =>
    rw [absent] at fits
    have moved := (seat.makeRoom io).1.moves_openRemote s next (by rw [makeRoom_world, here]) env reads io req fresh
      (by rwa [openView_makeRoom]) (by rw [openView_makeRoom]; exact fits.1) (fun write => ?_) live
    · rwa [openView_makeRoom] at moved
    · have makes := fits.2 write
      unfold enters at makes
      rwa [if_pos absent] at makes

omit here [LogCodec] in
theorem openView_kept {name : String} {entry : CacheEntry} (changed : CacheEntry)
    (held : seat.client.cache.lookup name = some entry) (same : changed.seen = entry.seen) :
    (seat.client.setEntry name changed).openView = seat.client.openView := by
  rw [Client.openView_setEntry, same]
  have view : entry.seen = seat.client.openView name := by rw [Client.openView, held, Option.bind_some]
  rw [view, Function.update_eq_self]

theorem moves_commit (who : String) (fresh : s.cached requestId env.start = none)
    (live : (seat.commit (primaryNet env reads) io requestId name who).1.world = some next) :
    Motion s next who name seat.client.openView
      (seat.commit (primaryNet env reads) io requestId name who).1.client.openView none := by
  rcases seat.commit_live next env reads io live with
    ⟨answer, same, _⟩ | ⟨entry, req, t, resp, sent, held, _, made, there, replied, same⟩
  · rw [same] at live ⊢
    obtain rfl := Option.some.inj (here.symm.trans live)
    exact .quiet (.refl s)
  · obtain rfl := Option.some.inj (here.symm.trans there)
    obtain ⟨rfl, _, _⟩ := dataRequest_eq made
    obtain ⟨count, _, _, _, _, files⟩ := s.handleCall_descriptors env next _ sent fresh replied
    rw [same]
    have view := seat.openView_kept { entry with version := resp.version, dirty := false } held rfl
    rw [view]
    exact .quiet (.of_files count files)

theorem moves_close (who : String) (fresh : s.cached requestId env.start = none)
    (alone : SoleName seat.client.openView name)
    (unregistered : ∀ entry, seat.client.cache.lookup name = some entry → entry.closed = true →
      ¬ s.Registered who entry.fd)
    (live : (seat.close (primaryNet env reads) io requestId name who).1.world = some next) :
    Motion s next who name seat.client.openView
      (seat.close (primaryNet env reads) io requestId name who).1.client.openView
      (ClientCall.heard (.close requestId name)
        ((seat.close (primaryNet env reads) io requestId name who).2.map fun _ => .done)) := by
  rcases seat.close_live next env reads io live with
    ⟨err, same⟩ | ⟨entry, req, t, resp, sent, held, made, there, replied, same⟩
  · rw [same] at live ⊢
    obtain rfl := Option.some.inj (here.symm.trans live)
    exact .quiet (.refl s)
  · obtain rfl := Option.some.inj (here.symm.trans there)
    obtain ⟨rfl, target, rfl, _⟩ := dataRequest_eq made
    obtain ⟨count, found, client, present, _, files⟩ := s.handleCall_descriptors env next _ sent fresh replied
    have view : seat.client.openView name = entry.seen := by rw [Client.openView, held, Option.bind_some]
    rw [same]
    rw [Client.openView_touchLRU, Client.openView_setEntry]
    refine .closed req.fd found present (files.trans ?_) count alone (fun mode fd seen => ?_) fun registered => ?_
    · unfold Server.dropClient
      rw [present]
    · rw [view, CacheEntry.seen] at seen
      split_ifs at seen
      cases seen
      exact target.symm
    · rw [target] at registered
      rw [view, CacheEntry.seen, if_neg fun shut => unregistered entry held shut registered]
      rfl

theorem moves_read (who : String) (live : (seat.read (primaryNet env reads) io name who).1.world = some next) :
    Motion s next who name seat.client.openView
      (seat.read (primaryNet env reads) io name who).1.client.openView none := by
  rcases seat.read_live next env reads io live with
    ⟨world, lru, answer, same, _⟩ | ⟨entry, disk, t, chunks, held, _, there, streamed, same⟩
  · rw [same]
    obtain rfl := Option.some.inj (here.symm.trans world)
    exact .quiet (.refl s)
  · obtain rfl := Option.some.inj (here.symm.trans there)
    rw [same, openView_fetch]
    exact .quiet (Server.read_steady streamed)

omit [LogCodec] in
theorem moves_writeLocal (change : Tree → Path → Tree × Bool) (name who : String)
    (live : (seat.writeLocal io change name).1.world = some next) :
    Motion s next who name seat.client.openView (seat.writeLocal io change name).1.client.openView none := by
  have steady (world : seat.world = some next) : s.Steady next := by
    obtain rfl := Option.some.inj (here.symm.trans world)
    exact .refl s
  unfold writeLocal at live ⊢
  cases held : seat.client.cache.lookup name with
  | none =>
    rw [held] at live
    exact .quiet (steady live)
  | some entry =>
    rw [held] at live
    dsimp only at live ⊢
    split_ifs at live ⊢
    · exact .quiet (steady live)
    · cases changed : change seat.disk entry.localPath with
      | mk disk works =>
        rw [changed] at live
        cases works with
        | false => exact .quiet (steady live)
        | true =>
          dsimp only
          rw [Client.openView_touchLRU,
            seat.openView_kept { entry with dirty := true, valid := false } held rfl]
          exact .quiet (steady live)

theorem moves_perform (t : ClientTurn) (fits : seat.Fits t) (kept : ∀ requestId name, t.call ≠ .delete requestId name)
    (live : (seat.perform (primaryNet t.env t.reads) t.io t.who t.call).1.world = some next) :
    Motion s next t.who t.call.name seat.client.openView
      (seat.perform (primaryNet t.env t.reads) t.io t.who t.call).1.client.openView
      (t.call.heard (seat.perform (primaryNet t.env t.reads) t.io t.who t.call).2) := by
  have unheard (call : ClientCall) (silent : ∀ answer, call.heard (.ok answer) = none)
      (answer : Except Failure ClientAnswer) : call.heard answer = none := by
    cases answer with
    | error err => rfl
    | ok reply => exact silent reply
  obtain ⟨who, call, env, reads, io⟩ := t
  cases call with
  | create requestId name =>
    rw [unheard (.create requestId name) fun _ => rfl]
    exact seat.moves_create s next here env reads io requestId name who (fits.1 s here) fits.2 live
  | openFile requestId name mode =>
    exact seat.moves_openFile s next here env reads io ⟨requestId, name, mode, who⟩ (fits.1 s here) fits.2.1 fits.2.2 live
  | read name =>
    rw [unheard (.read name) fun _ => rfl]
    exact seat.moves_read s next here env reads io name who live
  | writeFile name data =>
    rw [unheard (.writeFile name data) fun _ => rfl]
    exact seat.moves_writeLocal s next here io (fun disk path => osWriteFile io.write disk path data) name who live
  | appendFile name data =>
    rw [unheard (.appendFile name data) fun _ => rfl]
    exact seat.moves_writeLocal s next here io (fun disk path => osAppendFile io.write disk path data) name who live
  | commit requestId name =>
    rw [unheard (.commit requestId name) fun _ => rfl]
    exact seat.moves_commit s next here env reads io requestId name who (fits s here) live
  | close requestId name =>
    exact seat.moves_close s next here env reads io requestId name who (fits.1 s here) fits.2.1
      (fun entry => fits.2.2 s entry here) live
  | delete requestId name => exact absurd rfl (kept requestId name)

end Moves

end Seat

structure Watched where
  desk : Desk Primary
  opened : String → Option String → Option FileMode

namespace Watched

variable [LogCodec]

def step (w : Watched) (t : ClientTurn) : Option Watched :=
  match t.call with
  | .delete _ _ => none
  | call => (w.desk.serve t).map fun next =>
      let before := w.opened t.who
      let heard := call.heard (w.desk.turn t.toTurn).2
      ⟨next, Function.update w.opened t.who (heard.elim before (Function.update before (normalize call.name)))⟩

def start (disk : Tree) (cacheDir address : String → String) (s : Server) : Watched where
  desk := .start disk cacheDir address (some s)
  opened _ _ := none

def Tidy (w : Watched) (t : ClientTurn) : Prop := (w.desk.seat t.who).Fits t

structure Agrees (w : Watched) (s : Server) : Prop where
  here : w.desk.world = some s
  numbered : s.Numbered
  tracked : ∀ who, Tracked s who (w.desk.clients who).openView
  followed : ∀ who, Followed (w.opened who) (w.desk.clients who).openView

theorem step_eq {w next : Watched} {t : ClientTurn} (stepped : w.step t = some next) :
    (∀ requestId name, t.call ≠ .delete requestId name) ∧ w.desk.serve t = some next.desk ∧
      next.opened = Function.update w.opened t.who ((t.call.heard (w.desk.turn t.toTurn).2).elim (w.opened t.who)
        (Function.update (w.opened t.who) (normalize t.call.name))) := by
  unfold step at stepped
  split at stepped
  case h_1 => cases stepped
  case h_2 call other =>
    obtain ⟨desk, served, rfl⟩ := Option.map_eq_some_iff.mp stepped
    exact ⟨other, served, rfl⟩

theorem agrees_step (w next : Watched) (t : ClientTurn) (agrees : ∃ s, w.Agrees s) (tidy : w.Tidy t)
    (stepped : w.step t = some next) : ∃ s, next.Agrees s := by
  obtain ⟨s, here, numbered, tracked, followed⟩ := agrees
  obtain ⟨kept, served, opened⟩ := step_eq stepped
  obtain ⟨same, after, live⟩ := Desk.serve_eq served
  have motion := (w.desk.seat t.who).moves_perform s after here t tidy kept (by rw [same] at live; exact live)
  have clients : next.desk.clients = Function.update w.desk.clients t.who
      ((w.desk.seat t.who).perform (primaryNet t.env t.reads) t.io t.who t.call).1.client := by
    rw [same]
    rfl
  refine ⟨after, live, motion.numbered numbered, fun who => ?_, fun who => ?_⟩
  · rw [clients]
    by_cases own : who = t.who
    · rw [own, Function.update_self]
      exact (tracked t.who).moved numbered motion
    · rw [Function.update_of_ne own]
      exact (tracked who).congr (motion.rises numbered) (motion.others numbered who own)
  · rw [clients, opened]
    by_cases own : who = t.who
    · rw [own, Function.update_self, Function.update_self]
      exact (followed t.who).moved motion
    · rw [Function.update_of_ne own, Function.update_of_ne own]
      exact followed who

omit [LogCodec] in
theorem agrees_start (disk : Tree) (cacheDir address : String → String) (s : Server) (files : s.files = ∅)
    (count : s.nextFD = 0) : (start disk cacheDir address s).Agrees s := by
  have nothing (who : String) (fd : Int32) : ¬ s.Registered who fd := by
    rintro ⟨found, _, present, _⟩
    rw [files] at present
    cases present
  refine ⟨rfl, ⟨fun fd inside => ?_, by rw [count, files]; rfl, by rw [files]; decide⟩, fun who => ⟨?_, ?_, ?_, ?_⟩,
    fun who => ⟨?_, ?_⟩⟩
  · rw [files] at inside
    cases inside
  · rintro _ _ _ ⟨⟩
  · rintro _ _ ⟨⟩
  · exact fun fd held => absurd held (nothing who fd)
  · rintro _ _ _ _ _ ⟨⟩
  · rintro _ ⟨⟩
  · intro file
    constructor
    · rintro ⟨⟩
    · rintro ⟨_, _, _, ⟨⟩⟩

theorem opened_elsewhere (who : String) {file : Option String} (turns : List ClientTurn) (w : Watched) {final : Watched}
    (elsewhere : ∀ t ∈ turns, normalize t.call.name ≠ file) (reached : Transition.run step w turns = some final) :
    final.opened who file = w.opened who file := by
  induction turns generalizing w with
  | nil =>
    obtain rfl := Option.some.inj reached
    rfl
  | cons t rest ih =>
    obtain ⟨next, stepped, later⟩ := (Transition.run_cons ..).mp reached
    rw [ih next (fun t member => elsewhere t (.tail _ member)) later, (step_eq stepped).2.2]
    by_cases own : who = t.who
    · subst own
      rw [Function.update_self]
      cases t.call.heard (w.desk.turn t.toTurn).2 with
      | none => rfl
      | some mode => exact Function.update_of_ne (elsewhere t (.head _)).symm ..
    · rw [Function.update_of_ne own]

end Watched

theorem snapshot_reports_open_writes [LogCodec] (disk : Tree) (cacheDir address : String → String) (id rootDir : String)
    (config : Map String ServerInfo) (tree : Tree) (logFile : Bytes) (io : Nat → ApplyIO) (started : Time) (port : String)
    (turns : List ClientTurn) (final : Watched)
    (tidy : Transition.Meets Watched.step Watched.Tidy
      (.start disk cacheDir address ((newServer id rootDir config tree logFile).startServer io started port)) turns)
    (reached : Transition.run Watched.step
      (.start disk cacheDir address ((newServer id rootDir config tree logFile).startServer io started port)) turns =
        some final) :
    ∃ s, final.desk.world = some s ∧ ∀ now snapshotID who,
      (checkClientInSnapshot (s.initiatedSnapshot now snapshotID) who).1 = true ↔
        ∃ file, final.opened who file = some .write := by
  obtain ⟨_, _, _, fresh⟩ := (newServer id rootDir config tree logFile).startServer_eq io started port
  have initial := Watched.agrees_start disk cacheDir address
    ((newServer id rootDir config tree logFile).startServer io started port) (by rw [fresh]; rfl) (by rw [fresh]; rfl)
  obtain ⟨s, agrees⟩ := Transition.run_invariant Watched.Tidy (fun w => ∃ s, w.Agrees s)
    (fun w t next agrees tidy stepped => w.agrees_step next t agrees tidy stepped) _ ⟨_, initial⟩ turns tidy reached
  refine ⟨s, agrees.here, fun now snapshotID who => ?_⟩
  rw [Server.captured_iff]
  constructor
  · rintro ⟨fd, held⟩
    obtain ⟨name, seen⟩ := (agrees.tracked who).kept fd held
    exact ⟨normalize name, ((agrees.followed who).written _).mpr ⟨name, rfl, fd, seen⟩⟩
  · rintro ⟨file, noted⟩
    obtain ⟨name, _, fd, seen⟩ := ((agrees.followed who).written file).mp noted
    exact ⟨fd, (agrees.tracked who).writes name fd seen⟩

def soleWatch : Watched := .start .empty (fun who => who) (fun _ => "localhost:5001") firstPrimary

def createThenOpen : List ClientTurn :=
  [{ who := "c", call := .create "q1" "output/a" }, { who := "c", call := .openFile "q2" "output/a" .write }]

def opensFirst (w : Watched) (t : ClientTurn) : Bool :=
  let seat := w.desk.seat "c"
  let requestId := match t.call with
    | .create _ _ => "q1"
    | _ => "q2"
  seat.world.all (fun s => s.cached requestId 0 = none) &&
    seat.client.cache.keys.all (fun name => seat.client.openView name = none) &&
    !(seat.client.cache.lookup "output/a").any (·.dirty) && seat.enters {} "output/a"

theorem createThenOpen_tidy : Transition.Meets Watched.step Watched.Tidy soleWatch createThenOpen := by
  refine Transition.meets_of_check _ _ opensFirst ?_ (by decide +kernel)
  intro w t member checked
  have unseen (shut : ((w.desk.clients "c").cache.keys.all fun name => (w.desk.clients "c").openView name = none) = true)
      (name : String) : (w.desk.clients "c").openView name = none := by
    cases held : (w.desk.clients "c").cache.lookup name with
    | none => rw [Client.openView, held, Option.bind_none]
    | some entry =>
      have inside : name ∈ (w.desk.clients "c").cache := AList.lookup_isSome.mp (by rw [held]; rfl)
      exact of_decide_eq_true (List.all_eq_true.mp shut name (AList.mem_keys.mp inside))
  simp only [createThenOpen, List.mem_cons, List.not_mem_nil, or_false] at member
  simp only [opensFirst, Bool.and_eq_true] at checked
  obtain ⟨⟨⟨fresh, shut⟩, clean⟩, enters⟩ := checked
  have unseen := unseen shut
  have unwritten : ¬ InWrite (w.desk.clients "c").openView "output/a" := by
    rintro ⟨fd, seen⟩
    rw [unseen] at seen
    cases seen
  rcases member with rfl | rfl
  · refine ⟨fun s here => ?_, unwritten⟩
    rw [here] at fresh
    exact of_decide_eq_true fresh
  · refine ⟨fun s here => ?_, fun other seen => ?_, ?_⟩
    · rw [here] at fresh
      exact of_decide_eq_true fresh
    · rw [show (w.desk.seat "c").client.openView other = none from unseen other] at seen
      cases seen
    · rw [if_neg (by simpa using clean)]
      exact ⟨unwritten, fun _ => enters⟩

theorem createThenOpen_captured :
    ∃ final s, Transition.run Watched.step soleWatch createThenOpen = some final ∧ final.desk.world = some s ∧
      (checkClientInSnapshot (s.initiatedSnapshot 0 "snap") "c").1 = true := by
  have outcome : (Transition.run Watched.step soleWatch createThenOpen).map (fun w => w.opened "c" (some "output/a")) =
      some (some .write) := by decide +kernel
  obtain ⟨final, reached, noted⟩ := Option.map_eq_some_iff.mp outcome
  obtain ⟨s, here, captured⟩ := snapshot_reports_open_writes .empty (fun who => who) (fun _ => "localhost:5001") "1"
    "storage" mainServers .empty [] (fun _ => .ok) 0 "5001" createThenOpen final createThenOpen_tidy reached
  exact ⟨final, s, reached, here, (captured 0 "snap" "c").mpr ⟨some "output/a", noted⟩⟩

-- Close gives back the descriptor of the second Open only.
def openTwice : List ClientTurn :=
  createThenOpen ++
    [{ who := "c", call := .openFile "q3" "output/a" .write }, { who := "c", call := .close "q4" "output/a" }]

theorem closed_after_two_opens_captured :
    ∃ final s, Transition.run Watched.step soleWatch openTwice = some final ∧ final.desk.world = some s ∧
      (checkClientInSnapshot (s.initiatedSnapshot 0 "snap") "c").1 = true ∧
      ∀ file, final.opened "c" file ≠ some .write := by
  have outcome : (Transition.run Watched.step soleWatch openTwice).map (fun w => (w.opened "c" (some "output/a"),
      w.desk.world.map fun s => (checkClientInSnapshot (s.initiatedSnapshot 0 "snap") "c").1)) =
      some (none, some true) := by decide +kernel
  obtain ⟨final, reached, facts⟩ := Option.map_eq_some_iff.mp outcome
  obtain ⟨closed, world⟩ := Prod.mk.inj facts
  obtain ⟨s, here, captured⟩ := Option.map_eq_some_iff.mp world
  refine ⟨final, s, reached, here, captured, fun file noted => ?_⟩
  by_cases own : file = some "output/a"
  · rw [own, closed] at noted
    cases noted
  · have elsewhere : ∀ t ∈ openTwice, normalize t.call.name ≠ file := by
      intro t member
      have named : ∀ t ∈ openTwice, normalize t.call.name = some "output/a" := by decide
      rw [named t member]
      exact Ne.symm own
    rw [Watched.opened_elsewhere "c" openTwice soleWatch elsewhere reached] at noted
    cases noted

end Ikkat
