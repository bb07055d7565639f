import Ikkat.Identity
import Ikkat.Served
import Ikkat.Versions

set_option autoImplicit false

namespace Ikkat

namespace Server

structure Verbatim (env : Env) (s : Server) (call : Call) : Prop where
  apply : ∀ position, env.apply position = .ok
  present : s.bytes call.filename ≠ none
  content : s.content env.range call = call.req.data
  known : call.kind = .write → ∀ number ∈ parseNumbers call.req.data, number ∈ s.primeSet call.filename

theorem finishCall_tells (env : Env) (s : Server) (call : Call) (entered : s.version call.name ≠ none) :
    ∃ version, (s.finishCall env call).2.version = some version ∧
      (s.finishCall env call).1.version call.name = some version := by
  have present : (s.bumpVersion env call).version call.name ≠ none := by
    unfold bumpVersion
    split_ifs
    · change (s.setEntry call.name fun entry => { entry with version := entry.version + 1 }).version call.name ≠ none
      rw [version, lookup_setEntry]
      simpa [version] using entered
    · exact entered
  obtain ⟨version, here⟩ := Option.ne_none_iff_exists'.mp present
  obtain ⟨entry, found, same⟩ := Option.map_eq_some_iff.mp here
  have told : (call.response entry.version).version = some entry.version := by
    unfold Call.response
    cases call.kind <;> rfl
  refine ⟨version, ?_, ?_⟩
  · rw [finishCall, entryVersion]
    rw [found, ← same]
    exact told
  · rw [Server.version, finishCall_table_eq]
    exact here

theorem committed_version (env : Env) (s : Server) (call : Call) (logFile : Bytes) (name : String) :
    (committed env s call logFile).1.version name = s.version name := by
  obtain ⟨_, _, _, _, same⟩ := committed_eq env s call logFile
  rw [same]
  rfl

section Answered

variable [LogCodec] (kind : Kind) (env : Env) (s next : Server) (req : DataRequest) (response : Response)
  (sent : List AppendEntriesRequest) (uncached : s.cached req.requestId env.start = none)
  (handled : s.handleCall kind env req = .returned next (.ok response) sent)

include uncached handled

theorem handleCall_response (ready : Server) (call : Call) (own : call.req = req)
    (made : next.requests = (ready.finishCall env call).1.requests) : response = (ready.finishCall env call).2 := by
  rcases handleCall_recorded handled with ⟨_, _, found, _⟩ | noted
  · cases kind <;> (rw [show s.cached req.requestId env.start = some _ from found] at uncached; cases uncached)
  · cases noted with
    | stored _ _ stored =>
      rw [made, finishCall_requests, own] at stored
      have read := congrArg (AList.lookup req.requestId) stored
      cases kind <;> (simp only [Kind.rpc, Rpc.requestId, AList.lookup_insert] at read; cases read; rfl)

theorem handleCall_tells : ∃ call version, s.Addresses kind req call ∧ response.version = some version ∧
    next.version call.name = some version := by
  cases handleCall_outcome kind env s next req _ sent (cachedCall_fresh kind uncached) handled with
  | clean call table response begun still listed made =>
    obtain ⟨found, client, _, _, present, registered, own, _⟩ := beginCall_opened kind env.start s _ req call begun
    have entered := beginCall_version kind env.start s _ req call begun call.name
    obtain ⟨version, told, here⟩ := finishCall_tells env { s with table := table } call (by rw [entered]; simp)
    have answered := handleCall_response kind env s next req response [] uncached handled { s with table := table } call
      (by rw [own]) (by rw [made])
    rw [answered, made]
    exact ⟨call, version, ⟨found, client, present, registered, own⟩, told, here⟩
  | done call ready logFile response enters replicated persisted finished made =>
    obtain ⟨found, client, _, _, present, registered, _, _, own, _⟩ := enters_eq kind env s ready req call enters
    obtain ⟨opened, begun, _, _, same, _⟩ := enters
    have entered : (committed env ready call logFile).1.version call.name ≠ none := by
      rw [committed_version, same, version_acquireWrite, beginCall_version kind env.start s opened req call begun,
        if_pos rfl]
      simp
    obtain ⟨version, told, here⟩ := finishCall_tells env (committed env ready call logFile).1 call entered
    have answered := handleCall_response kind env s next req response _ uncached handled
      (committed env ready call logFile).1 call (by rw [own]) (by rw [made, requests_releaseWrite])
    rw [answered, made]
    exact ⟨call, version, ⟨found, client, present, registered, own⟩, told, (version_releaseWrite ..).trans here⟩

theorem handleCall_keeps (files : OutputNames) (call : Call) (addressed : s.Addresses kind req call)
    (dirty : req.dirty = true) (advances : Lifetime.Advances files env s call) (verbatim : s.Verbatim env call) :
    next.bytes call.filename = some req.data := by
  obtain ⟨found, client, present, registered, rfl⟩ := addressed
  cases handleCall_outcome kind env s next req _ sent (cachedCall_fresh kind uncached) handled with
  | clean call table response begun still => rw [dirty] at still; cases still
  | done call ready logFile response enters replicated persisted finished made =>
    obtain ⟨other, owner, table, _, there, known, _, _, rfl, rfl⟩ := enters_eq kind env s ready req call enters
    obtain rfl : found = other := Option.some.inj (present.symm.trans there)
    obtain rfl : client = owner := Option.some.inj (registered.symm.trans known)
    obtain ⟨named, keyed⟩ := files.call_name ⟨kind, req, found.filename, client.mode⟩ advances.member
    obtain ⟨old, regular⟩ := Option.ne_none_iff_exists'.mp verbatim.present
    have lossless : Lossless kind env { s with table := table } ⟨kind, req, found.filename, client.mode⟩ :=
      ⟨replicated, verbatim.apply, verbatim.known, advances.opens, advances.free⟩
    obtain ⟨logged, _⟩ := logged_committed env { s with table := table } advances.caughtUp
      ⟨kind, req, found.filename, client.mode⟩ lossless named keyed (parent_of_bytes _ regular)
      (files.tmp_apart s _ _ advances.member advances.member) (files.tmp_beside s _ advances.member)
    rw [persisted] at logged
    have kept := logged_release _ _ _ found.filename _ (logged_finish env { s with table := table } _
      ⟨kind, req, found.filename, client.mode⟩ _ (files.meta_apart s _ _ advances.member advances.member) named logged)
    rw [made, named]
    rcases kept.own with file | dir
    · refine (bytes_eq ..).mpr ?_
      rw [Server.path, kept.rootDir]
      exact file.trans (congrArg (fun content => some (FileTree.Node.file content)) verbatim.content)
    · rw [bytes_eq] at regular
      cases regular.symm.trans dir

end Answered

end Server

structure Sound (t : Lifetime) (disk : Tree) (safe : String) (entry : CacheEntry) (filled : Bool) : Prop where
  known : safe ∈ t.known
  behind : ∀ version, t.server.version safe = some version → entry.version.toInt ≤ version.toInt
  synced : entry.dirty = false → filled = true → ∃ content, disk.find entry.localPath = some (.file content) ∧
    (t.server.version safe = some entry.version → t.server.bytes safe = some content)

namespace Sound

variable {t next : Lifetime} {disk after : Tree} {safe : String} {entry : CacheEntry} {filled : Bool}

theorem later (sound : Sound t disk safe entry filled) (continues : Lifetime.Continues t next) :
    Sound next disk safe entry filled where
  known := continues.known safe sound.known
  behind version held := by
    obtain ⟨old, here, up, _⟩ := continues.kept safe version sound.known held
    exact Int.le_trans (sound.behind old here) up
  synced clean full := by
    obtain ⟨content, file, same⟩ := sound.synced clean full
    refine ⟨content, file, fun held => ?_⟩
    obtain ⟨old, here, up, equal⟩ := continues.kept safe entry.version sound.known held
    obtain rfl : old = entry.version := Int32.toInt_inj.mp (Int.le_antisymm up (sound.behind old here))
    rw [equal rfl, same here]

theorem untouched (sound : Sound t disk safe entry filled) {region : Path → Prop}
    (same : Untouched region disk after) (inside : region entry.localPath) : Sound t after safe entry filled where
  known := sound.known
  behind := sound.behind
  synced clean full := by
    obtain ⟨content, file, bytes⟩ := sound.synced clean full
    exact ⟨content, (same _ content inside).mpr file, bytes⟩

theorem changed (sound : Sound t disk safe entry filled) {other : CacheEntry} {flag : Bool}
    (version : other.version = entry.version) (path : other.localPath = entry.localPath)
    (clean : other.dirty = false → entry.dirty = false) (full : flag = true → filled = true) :
    Sound t disk safe other flag where
  known := sound.known
  behind := by rw [version]; exact sound.behind
  synced still flagged := by rw [version, path]; exact sound.synced (clean still) (full flagged)

end Sound

def Apart (clients : String → Client) (who name : String) : Prop :=
  ∀ user other entry, (clients user).cache.lookup other = some entry → ¬ (user = who ∧ other = name) →
    (clients who).Beside name (fun _ => False) entry.localPath

def SparesOthers (clients : String → Client) (who : String) : Prop :=
  ∀ other found, (clients who).victim = some (other, found) → ∀ user name entry,
    (clients user).cache.lookup name = some entry → ¬ (user = who ∧ name = other) → entry.localPath ≠ found.localPath

structure Coherent (files : OutputNames) (clients : String → Client) (disk : Tree) (t : Lifetime)
    (filled : String → String → Bool) : Prop where
  registered : Lifetime.Registered files t
  placed : ∀ who, (clients who).Placed
  sound : ∀ who name entry, (clients who).cache.lookup name = some entry →
    ∃ safe, normalize name = some safe ∧ Sound t disk safe entry (filled who name)

namespace Coherent

variable {files : OutputNames} {clients : String → Client} {disk : Tree} {t next : Lifetime}
  {filled : String → String → Bool}

theorem later (coherent : Coherent files clients disk t filled) (registered : Lifetime.Registered files next)
    (continues : Lifetime.Continues t next) : Coherent files clients disk next filled where
  registered := registered
  placed := coherent.placed
  sound who name entry held := by
    obtain ⟨safe, named, sound⟩ := coherent.sound who name entry held
    exact ⟨safe, named, sound.later continues⟩

theorem evict (coherent : Coherent files clients disk t filled) {World : Type} (io : LocalIO) (who : String)
    (world : World) (apart : SparesOthers clients who) :
    Coherent files (Function.update clients who ((Seat.mk (clients who) disk world).makeRoom io).1.client)
      ((Seat.mk (clients who) disk world).makeRoom io).1.disk t filled := by
  rcases (Seat.mk (clients who) disk world).makeRoom_cases io with ⟨_, same⟩ | ⟨other, found, evicts, same⟩
  · rw [same, Function.update_eq_self]
    exact coherent
  · rw [same]
    have older (user name : String) (entry : CacheEntry) (held : (Function.update clients who { clients who with
        cache := (clients who).cache.erase other, lru := (clients who).lru.erase other } user).cache.lookup name =
          some entry) : (clients user).cache.lookup name = some entry ∧ ¬ (user = who ∧ name = other) := by
      by_cases own : user = who
      · subst own
        rw [Function.update_self] at held
        by_cases gone : name = other
        · subst gone
          rw [AList.lookup_erase] at held
          cases held
        · exact ⟨(AList.lookup_erase_ne gone).symm.trans held, fun ⟨_, equal⟩ => gone equal⟩
      · rw [Function.update_of_ne own] at held
        exact ⟨held, fun ⟨equal, _⟩ => own equal⟩
    refine ⟨coherent.registered, fun user name entry held => ?_, fun user name entry held => ?_⟩
    · have path := coherent.placed user name entry (older user name entry held).1
      by_cases own : user = who
      · subst own
        rw [Function.update_self]
        exact path
      · rw [Function.update_of_ne own]
        exact path
    · obtain ⟨before, others⟩ := older user name entry held
      obtain ⟨safe, named, sound⟩ := coherent.sound user name entry before
      refine ⟨safe, named, sound.untouched (osRemove_untouched (· = entry.localPath) io.remove disk found.localPath ?_) rfl⟩
      exact (apart other found evicts user name entry before others).symm

theorem own (coherent : Coherent files clients disk t filled) {World : Type} (who name : String) (world : World)
    (after : Seat World) (acts : Acts name (fun _ => False) (Seat.mk (clients who) disk world) after)
    (apart : Apart clients who name) (flag : Bool) (sound : ∀ entry, after.client.cache.lookup name = some entry →
      ∃ safe, normalize name = some safe ∧ Sound t after.disk safe entry flag) :
    Coherent files (Function.update clients who after.client) after.disk t
      (Function.update filled who (Function.update (filled who) name flag)) := by
  have disk := acts.disk (coherent.placed who)
  refine ⟨coherent.registered, fun user => ?_, fun user other entry held => ?_⟩
  · by_cases own : user = who
    · subst own
      rw [Function.update_self]
      exact acts.placed (coherent.placed user)
    · rw [Function.update_of_ne own]
      exact coherent.placed user
  · have elsewhere (before : (clients user).cache.lookup other = some entry) (others : ¬ (user = who ∧ other = name)) :
        ∃ safe, normalize other = some safe ∧ Sound t after.disk safe entry (filled user other) := by
      obtain ⟨safe, named, sound⟩ := coherent.sound user other entry before
      exact ⟨safe, named, sound.untouched disk (apart user other entry before others)⟩
    by_cases own : user = who
    · subst own
      rw [Function.update_self] at held ⊢
      by_cases same : other = name
      · subst same
        rw [Function.update_self]
        exact sound entry held
      · rw [Function.update_of_ne same]
        exact elsewhere (acts.older other entry same held) fun ⟨_, equal⟩ => same equal
    · rw [Function.update_of_ne own] at held ⊢
      exact elsewhere held fun ⟨equal, _⟩ => own equal

end Coherent

namespace Lifetime

variable {files : OutputNames} {s next : Server} {known : List String}

theorem served [LogCodec] (registered : Registered files ⟨s, known⟩) (env : Env) (rpc : Rpc)
    (unrepeated : Unrepeated files ⟨s, known⟩ (.request ⟨env, rpc⟩)) (answer : Except Status Response)
    (sent : List AppendEntriesRequest) (handled : s.serve env rpc = .returned next answer sent) :
    Registered files ⟨next, next.table.keys ++ known⟩ ∧ Continues ⟨s, known⟩ ⟨next, next.table.keys ++ known⟩ := by
  refine continues_step files registered unrepeated ?_
  rw [step, serveStep, handled]
  rfl

theorem rested (registered : Registered files ⟨s, known⟩) (descriptors : Map Int32 FileMeta) :
    Registered files ⟨{ s with files := descriptors }, s.table.keys ++ known⟩ ∧
      Continues ⟨s, known⟩ ⟨{ s with files := descriptors }, s.table.keys ++ known⟩ := by
  have entered (name : String) (member : name ∈ s.table.keys) : name ∈ known := by
    refine registered.listed name ?_
    have present : name ∈ s.table := AList.mem_keys.mpr member
    simpa [Server.version, AList.lookup_eq_none] using present
  refine ⟨⟨fun name held => List.mem_append_right _ (registered.listed name held), fun name listed => ?_⟩,
    ⟨fun name listed => List.mem_append_right _ listed, fun name version _ held =>
      ⟨version, held, Int.le_refl _, fun _ => rfl⟩⟩⟩
  rcases List.mem_append.mp listed with new | old
  · exact registered.clear name (entered name new)
  · exact registered.clear name old

end Lifetime

namespace Seat

variable {World : Type} (io : LocalIO)

theorem writeLocal_world (change : Tree → Path → Tree × Bool) (name : String) (seat : Seat World) :
    (seat.writeLocal io change name).1.world = seat.world := by
  unfold writeLocal
  split
  · rfl
  · split
    · rfl
    · split <;> rfl

theorem forget_gone (name : String) (seat : Seat World) :
    (seat.forget io name).1 = seat ∨ (seat.forget io name).1.client.cache.lookup name = none := by
  rcases seat.forget_cases io name with ⟨_, same, _⟩ | ⟨_, same⟩
  · exact .inl (by rw [same])
  · exact .inr (by rw [same]; exact AList.lookup_erase _ _)

theorem fetch_cases (name : String) {entry : CacheEntry} {tmp : Path} (chunks : List Bytes) (seat : Seat World)
    (apart : tmp ≠ entry.localPath) (empty : seat.disk.find tmp = some (.file [])) :
    (∃ disk err, fetch io name entry tmp chunks none seat = ({ seat with disk := disk }, .error err) ∧
        Untouched (· ≠ tmp) seat.disk disk) ∨
      ∃ disk lru answer, fetch io name entry tmp chunks none seat =
          ({ seat with disk := disk, client := { seat.client with lru := lru } }, answer) ∧
        disk.find entry.localPath = some (.file chunks.flatten) := by
  have filled (data : Bytes) : ((seat.disk.writeFile tmp data).getD seat.disk).find tmp = some (.file data) := by
    obtain ⟨next, written⟩ := seat.disk.writeFile_over tmp [] data empty
    rw [written, Option.getD_some, FileTree.Tree.find_writeFile tmp written, if_pos rfl]
  have beside (data : Bytes) : Untouched (· ≠ tmp) seat.disk ((seat.disk.writeFile tmp data).getD seat.disk) :=
    .writeFile_getD _ _ fun inside => inside rfl
  unfold fetch
  dsimp only
  split
  case isTrue =>
    exact .inl ⟨_, _, rfl, (beside _).trans (osRemove_untouched _ _ _ _ fun inside => inside rfl)⟩
  case isFalse whole =>
    have copied : Server.copied io.write chunks.flatten = chunks.flatten := by
      rw [not_not.mp whole]
      rfl
    rw [copied]
    split
    case h_1 => exact .inl ⟨_, _, rfl, beside _⟩
    case h_2 disk renamed =>
      have file := osRename_find chunks.flatten apart (filled _) renamed
      split
      · exact .inr ⟨disk, seat.client.lru, _, rfl, file⟩
      · exact .inr ⟨disk, _, _, rfl, file⟩

end Seat

namespace Coherent

variable {files : OutputNames} {clients : String → Client} {disk : Tree} {t : Lifetime}
  {filled : String → String → Bool}

theorem apart_evict {World : Type} (io : LocalIO) {who name : String} (world : World) (apart : Apart clients who name) :
    Apart (Function.update clients who ((Seat.mk (clients who) disk world).makeRoom io).1.client) who name := by
  intro user other entry held others
  have before : (clients user).cache.lookup other = some entry := by
    by_cases own : user = who
    · subst own
      rw [Function.update_self] at held
      exact (Seat.mk (clients user) disk world).makeRoom_older io held
    · rwa [Function.update_of_ne own] at held
  have beside := apart user other entry before others
  rw [Function.update_self]
  unfold Client.Beside Client.localPath at beside ⊢
  have dir : ((Seat.mk (clients who) disk world).makeRoom io).1.client.cacheDir = (clients who).cacheDir :=
    ((Seat.mk (clients who) disk world).acts_makeRoom io name fun _ _ _ => trivial : Acts name (fun _ => True) _ _).cacheDir
  rwa [dir]

theorem enter (coherent : Coherent files clients disk t filled) {World : Type} (io : LocalIO) (who name : String)
    (world : World) (apart : Apart clients who name) (entry : CacheEntry)
    (path : entry.localPath = (clients who).localPath name) (flag : Bool)
    (sound : ∀ disk, disk.find entry.localPath = some (.file []) →
      ∃ safe, normalize name = some safe ∧ Sound t disk safe entry flag) :
    let entered := (Seat.mk (clients who) disk world).enter io name entry
    Coherent files (Function.update clients who entered.1.client) entered.1.disk t
      (Function.update filled who (Function.update (filled who) name
        (if entered.2.toOption.isSome then flag else filled who name))) := by
  intro entered
  refine coherent.own who name world entered.1 (Seat.acts_enter io name _ path) apart _ fun found held => ?_
  have outcome := (Seat.mk (clients who) disk world).enter_cases io name entry
  rcases outcome with ⟨made, err, same, kept⟩ | ⟨made, same, file⟩
  · obtain ⟨safe, named, old⟩ := coherent.sound who name found (by rw [← held]; simp only [entered, same])
    have everywhere : Untouched (fun _ => True) disk made := fun path content _ => kept path content
    refine ⟨safe, named, ?_⟩
    simp only [entered, same]
    exact old.untouched everywhere trivial
  · obtain rfl : entry = found := by
      simp only [entered, same] at held
      exact Option.some.inj ((AList.lookup_insert _).symm.trans held)
    simp only [entered, same]
    exact sound made file

end Coherent

def ClientTurn.request (t : ClientTurn) (seat : Seat Primary) : Option Rpc :=
  let data (requestId name : String) : Option DataRequest :=
    (seat.client.cache.lookup name).bind (seat.dataRequest t.io requestId t.who)
  match t.call with
  | .create requestId name => some (.create ⟨requestId, name, t.who, .read⟩)
  | .openFile requestId name mode => some (.openFile ⟨requestId, name, mode, t.who⟩)
  | .commit requestId name => (data requestId name).map .write
  | .close requestId name => (data requestId name).map .close
  | .delete requestId name => some (.delete ⟨requestId, name⟩)
  | _ => none

-- Whether the local file of the entry has been given the bytes of the server's: by a Create, by an Open of an empty
-- file, by a Read that fetches, or the other way round by a Commit or Close that sends. Close without changes takes
-- over the server's version; if that is another one, the local file is none of it.
def ClientTurn.fills (t : ClientTurn) (seat after : Seat Primary) (answer : Except Failure ClientAnswer) (old : Bool) :
    Bool :=
  let entry (seat : Seat Primary) := seat.client.cache.lookup t.call.name
  match answer, t.call with
  | .ok _, .create _ _ => true
  | .ok (.entry found), .openFile _ name _ =>
      if found.valid || found.dirty then old
      else after.world.any fun s => (normalize name).any fun safe => s.bytes safe = some []
  | .ok _, .read _ => old || !(entry seat).any (·.valid)
  | .ok _, .commit _ _ => old || (entry seat).any (·.dirty)
  | .ok _, .close _ _ =>
      (entry seat).any (·.dirty) || old && (entry after).map (·.version) = (entry seat).map (·.version)
  | _, _ => old

structure Caches where
  desk : Desk Primary
  known : List String
  filled : String → String → Bool

def Desk.Validates (d : Desk Primary) (t : ClientTurn) (s : Server) (entry : CacheEntry) : Prop :=
  match t.call with
  | .openFile _ name mode =>
      (d.clients t.who).cache.lookup name = some entry ∧ entry.dirty = false ∧ d.world = some s ∧
        s.testAuth name = .ok entry.version ∧ ¬ (entry.closed = false ∧ entry.mode ≠ mode ∧ entry.mode = .read)
  | _ => False

namespace Caches

section Step

variable [LogCodec]

def step (w : Caches) (t : ClientTurn) : Option Caches :=
  (w.desk.serve t).map fun next =>
    let flag := t.fills (w.desk.seat t.who) (next.seat t.who) (w.desk.turn t.toTurn).2 (w.filled t.who t.call.name)
    { desk := next
      known := ((next.world.map fun s => s.table.keys).getD []) ++ w.known
      filled := Function.update w.filled t.who (Function.update (w.filled t.who) t.call.name flag) }

def start (disk : Tree) (cacheDir address : String → String) (s : Server) : Caches :=
  ⟨.start disk cacheDir address (some s), [], fun _ _ => false⟩

end Step

structure Orderly (files : OutputNames) (w : Caches) (t : ClientTurn) : Prop where
  requests : ∀ s rpc, w.desk.world = some s → t.request (w.desk.seat t.who) = some rpc →
    s.cached rpc.requestId t.env.start = none ∧ Lifetime.Unrepeated files ⟨s, w.known⟩ (.request ⟨t.env, rpc⟩)
  sends : ∀ s kind req, w.desk.world = some s → t.request (w.desk.seat t.who) = some (kind.rpc req) →
    ∀ call, s.Addresses kind req call → normalize t.call.name = some call.name ∧
      (req.dirty = true → s.Verbatim t.env call)
  apart : Apart w.desk.clients t.who t.call.name
  spares : SparesOthers w.desk.clients t.who
  streams : ∀ s name safe, w.desk.world = some s → t.call = .read name → normalize name = some safe →
    s.bytes safe = some t.reads.chunks.flatten
  whole : ∀ name data entry, t.call = .writeFile name data ∨ t.call = .appendFile name data →
    (w.desk.clients t.who).cache.lookup name = some entry → entry.dirty = false → ∀ count, t.io.write ≠ .cut count
  validates : ∀ s entry, w.desk.Validates t s entry → w.filled t.who t.call.name = true

end Caches

def CoherentAfter (files : OutputNames) (clients : String → Client) (filled : String → String → Bool)
    (known : List String) (who name : String) (flag : Bool) (after : Seat Primary) (next : Server) : Prop :=
  Coherent files (Function.update clients who after.client) after.disk ⟨next, next.table.keys ++ known⟩
    (Function.update filled who (Function.update (filled who) name flag))

def Sends [LogCodec] (files : OutputNames) (s : Server) (known : List String) (env : Env) (kind : Kind) (name : String)
    (req : DataRequest) : Prop :=
  s.cached req.requestId env.start = none ∧ Lifetime.Unrepeated files ⟨s, known⟩ (.request ⟨env, kind.rpc req⟩) ∧
    ∀ call, s.Addresses kind req call → normalize name = some call.name ∧ (req.dirty = true → s.Verbatim env call)

namespace Coherent

variable {files : OutputNames} {clients : String → Client} {disk : Tree} {s : Server} {known : List String}
  {filled : String → String → Bool} (coherent : Coherent files clients disk ⟨s, known⟩ filled) (who : String)

include coherent

theorem rest : Coherent files clients disk ⟨s, s.table.keys ++ known⟩ filled := by
  obtain ⟨registered, continues⟩ := Lifetime.rested coherent.registered s.files
  exact coherent.later registered continues

theorem idle (name : String) (apart : Apart clients who name) (lru : List String) (world : Primary) :
    CoherentAfter files clients filled known who name (filled who name) ⟨{ clients who with lru := lru }, disk, world⟩ s :=
  coherent.rest.own who name world _ (.files _ _ _ _ fun _ => .refl _) apart _ fun entry held =>
    coherent.rest.sound who name entry held

section Calls

variable [LogCodec] (next : Server) (env : Env) (reads : ReadAnswers) (io : LocalIO) (name : String)
  (apart : Apart clients who name)

theorem answered (rpc : Rpc) (unrepeated : Lifetime.Unrepeated files ⟨s, known⟩ (.request ⟨env, rpc⟩))
    (answer : Except Status Response) (sent : List AppendEntriesRequest)
    (handled : s.serve env rpc = .returned next answer sent) :
    Coherent files clients disk ⟨next, next.table.keys ++ known⟩ filled := by
  obtain ⟨registered, continues⟩ := Lifetime.served coherent.registered env rpc unrepeated answer sent handled
  exact coherent.later registered continues

omit coherent [LogCodec] in
theorem current {known : List String} {disk : Tree} {safe : String} {entry : CacheEntry} {flag : Bool}
    (held : next.version safe = some entry.version)
    (content : entry.dirty = false → flag = true → ∃ content, disk.find entry.localPath = some (.file content) ∧
      next.bytes safe = some content) : Sound ⟨next, next.table.keys ++ known⟩ disk safe entry flag where
  known := by
    refine List.mem_append_left _ (AList.mem_keys.mp ?_)
    obtain ⟨found, present, _⟩ := Option.map_eq_some_iff.mp held
    exact AList.lookup_isSome.mp (by rw [present]; rfl)
  behind version same := by
    obtain rfl := Option.some.inj (held.symm.trans same)
    exact Int.le_refl _
  synced clean full := by
    obtain ⟨content, file, bytes⟩ := content clean full
    exact ⟨content, file, fun _ => bytes⟩

include apart

omit [LogCodec] in
theorem full (spares : SparesOthers clients who) : CoherentAfter files clients filled known who name (filled who name)
    ((Seat.mk (clients who) disk (some s)).makeRoom io).1 s := by
  have kept := (coherent.evict io who (some s) spares).idle who name (apart_evict io (some s) apart)
    ((Seat.mk (clients who) disk (some s)).makeRoom io).1.client.lru (some s)
  unfold CoherentAfter at kept ⊢
  rw [Function.update_self, Function.update_idem] at kept
  exact kept

variable (requestId : String)

theorem create (fresh : s.cached requestId env.start = none)
    (unrepeated : Lifetime.Unrepeated files ⟨s, known⟩ (.request ⟨env, .create ⟨requestId, name, who, .read⟩⟩))
    (spares : SparesOthers clients who)
    (live : ((Seat.mk (clients who) disk (some s)).create (primaryNet env reads) io requestId name who).1.world =
      some next) :
    let done := (Seat.mk (clients who) disk (some s)).create (primaryNet env reads) io requestId name who
    CoherentAfter files clients filled known who name (if done.2.toOption.isSome then true else filled who name)
      done.1 next := by
  intro done
  rcases Seat.create_live _ next env reads io live with ⟨err, same⟩ | ⟨_, resp, sent, here, replied, same⟩
  · rw [same, Seat.makeRoom_world] at live
    obtain rfl := Option.some.inj live
    simp only [done, same]
    exact coherent.full who io name apart spares
  · obtain rfl := Option.some.inj here
    have served := (coherent.evict io who (some s) spares).answered next env (.create ⟨requestId, name, who, .read⟩)
      unrepeated _ sent replied
    obtain ⟨safe, table, tree, _, _, _, named, _, _, version, made, _, zero, file, _⟩ :=
      s.create_granted env next resp sent fresh replied
    have entered := served.enter io who name (some next) (apart_evict io (some s) apart)
      { filename := name, localPath := ((Seat.mk (clients who) disk (some s)).makeRoom io).1.client.localPath name,
        version := resp.version, dirty := false, fd := resp.fd, closed := true } (by rw [Function.update_self]) true
      fun after empty => ⟨safe, named, current next (by rw [made, version]; exact zero) fun _ _ =>
        ⟨[], empty, by rw [made]; exact (Server.bytes_eq ..).mpr file⟩⟩
    rw [Function.update_self] at entered
    dsimp only at entered
    rw [Function.update_idem] at entered
    simp only [done, same]
    exact entered

theorem openRemote (mode : FileMode) (fresh : s.cached requestId env.start = none)
    (unrepeated : Lifetime.Unrepeated files ⟨s, known⟩ (.request ⟨env, .openFile ⟨requestId, name, mode, who⟩⟩))
    (live : ((Seat.mk (clients who) disk (some s)).openRemote (primaryNet env reads) io
      ⟨requestId, name, mode, who⟩).1.world = some next) :
    let done := (Seat.mk (clients who) disk (some s)).openRemote (primaryNet env reads) io ⟨requestId, name, mode, who⟩
    CoherentAfter files clients filled known who name
      (if done.2.toOption.isSome then (normalize name).any fun safe => next.bytes safe = some [] else filled who name)
      done.1 next ∧ ∀ entry, done.2 = .ok entry → entry.valid = false ∧ entry.dirty = false := by
  intro done
  obtain ⟨_, resp, sent, here, replied, same⟩ := Seat.openRemote_live _ next env reads io live
  obtain rfl := Option.some.inj here
  have served := coherent.answered next env (.openFile ⟨requestId, name, mode, who⟩) unrepeated _ sent replied
  obtain ⟨safe, _, _, _, named, _, _, version, made, _⟩ := s.openFile_granted env next resp sent fresh replied
  have held : next.version safe = some resp.version := by
    have entered := s.version_getFileEntry safe safe
    rw [if_pos rfl] at entered
    rw [made, version, Server.entryVersion_eq entered]
    exact entered
  have entered := served.enter io who name (some next) apart
    { filename := name, localPath := (clients who).localPath name, version := resp.version, dirty := false,
      fd := resp.fd, closed := false, mode := mode } rfl ((normalize name).any fun safe => next.bytes safe = some [])
    fun after empty => ⟨safe, named, current next held fun _ full => by
      rw [show normalize name = some safe from named] at full
      exact ⟨[], empty, of_decide_eq_true full⟩⟩
  simp only [done, same]
  refine ⟨entered, fun entry opened => ?_⟩
  rcases Seat.enter_cases io name _ { client := clients who, disk := disk, world := some next } with
    ⟨_, _, failed, _⟩ | ⟨_, done, _⟩
  · rw [failed] at opened
    cases opened
  · rw [done] at opened
    cases opened
    exact ⟨rfl, rfl⟩

theorem openFile (mode : FileMode) (fresh : s.cached requestId env.start = none)
    (unrepeated : Lifetime.Unrepeated files ⟨s, known⟩ (.request ⟨env, .openFile ⟨requestId, name, mode, who⟩⟩))
    (spares : SparesOthers clients who)
    (live : ((Seat.mk (clients who) disk (some s)).openFile (primaryNet env reads) io
      ⟨requestId, name, mode, who⟩).1.world = some next) :
    let done := (Seat.mk (clients who) disk (some s)).openFile (primaryNet env reads) io ⟨requestId, name, mode, who⟩
    CoherentAfter files clients filled known who name
      (match done.2 with
        | .ok entry => if entry.valid || entry.dirty then filled who name
            else (normalize name).any fun safe => next.bytes safe = some []
        | .error _ => filled who name) done.1 next := by
  intro done
  have opening := Seat.openFile_live _ next env reads io _ live
  have remote (result : Seat Primary × Except Failure CacheEntry)
      (opened : CoherentAfter files clients filled known who name
        (if result.2.toOption.isSome then (normalize name).any fun safe => next.bytes safe = some []
          else filled who name) result.1 next)
      (new : ∀ entry, result.2 = .ok entry → entry.valid = false ∧ entry.dirty = false) :
      CoherentAfter files clients filled known who name
        (match result.2 with
          | .ok entry => if entry.valid || entry.dirty then filled who name
              else (normalize name).any fun safe => next.bytes safe = some []
          | .error _ => filled who name) result.1 next := by
    cases answer : result.2 with
    | error err =>
      rw [answer] at opened
      exact opened
    | ok entry =>
      obtain ⟨invalid, clean⟩ := new entry answer
      rw [answer] at opened
      dsimp only
      rw [invalid, clean]
      exact opened
  simp only [done]
  generalize (Seat.mk (clients who) disk (some s)).openFile (primaryNet env reads) io ⟨requestId, name, mode, who⟩ = result
    at live opening ⊢
  cases opening with
  | dirty entry held dirty =>
    obtain rfl := Option.some.inj live
    dsimp only
    rw [dirty, Bool.or_true]
    exact coherent.idle who name apart _ _
  | refused entry held err =>
    obtain rfl := Option.some.inj live
    exact coherent.idle who name apart _ _
  | cached entry held clean _ here =>
    obtain ⟨_, resp, sent, here, replied, same⟩ := Seat.openCached_live _ next env reads _ entry live
    obtain rfl := Option.some.inj here
    have served := coherent.answered next env (.openFile ⟨requestId, name, mode, who⟩) unrepeated _ sent replied
    have acts : Acts name (fun _ => False) (Seat.mk (clients who) disk (some s)) _ :=
      Seat.acts_openCached (primaryNet env reads) held
    rw [same] at acts ⊢
    refine served.own who name (some s) _ acts apart _ fun found opened => ?_
    obtain rfl := Option.some.inj ((AList.lookup_insert _).symm.trans opened)
    obtain ⟨safe, named, sound⟩ := served.sound who name entry held
    exact ⟨safe, named, sound.changed rfl rfl (fun still => still) fun full => full⟩
  | stale entry held clean =>
    obtain ⟨opened, new⟩ := coherent.openRemote who next env reads io name apart requestId mode fresh unrepeated live
    exact remote _ opened new
  | full absent err =>
    rw [Seat.makeRoom_world] at live
    obtain rfl := Option.some.inj live
    exact coherent.full who io name apart spares
  | absent absent =>
    have evicted := coherent.evict io who (some s) spares
    have clear : Apart (Function.update clients who ((Seat.mk (clients who) disk (some s)).makeRoom io).1.client) who
      name := apart_evict io (some s) apart
    have world := Seat.makeRoom_world io (Seat.mk (clients who) disk (some s))
    generalize ((Seat.mk (clients who) disk (some s)).makeRoom io).1 = roomed at evicted clear world live ⊢
    obtain ⟨client, left, _⟩ := roomed
    obtain rfl : _ = some s := world
    have opened := evicted.openRemote who next env reads io name clear requestId mode fresh unrepeated
      (by rw [Function.update_self]; exact live)
    rw [Function.update_self] at opened
    unfold CoherentAfter at opened
    dsimp only at opened
    rw [Function.update_idem] at opened
    exact remote _ opened.1 opened.2

theorem returned (kind : Kind) (requestId : String) (entry changed : CacheEntry) (req : DataRequest) (response : Response)
    (sent : List AppendEntriesRequest) (held : (clients who).cache.lookup name = some entry)
    (made : (Seat.mk (clients who) disk (some s)).dataRequest io requestId who entry = some req)
    (sends : Sends files s known env kind name req)
    (handled : s.handleCall kind env req = .returned next (.ok response) sent)
    (told : response.version = some changed.version) (path : changed.localPath = entry.localPath) (lru : List String)
    (flag : Bool) (full : flag = true →
      (entry.dirty || filled who name && decide (changed.version = entry.version)) = true) :
    CoherentAfter files clients filled known who name flag
      ⟨{ clients who with cache := (clients who).cache.insert name changed, lru := lru }, disk, some next⟩ next := by
  obtain ⟨_, _, _, dirty, file⟩ := Seat.dataRequest_eq made
  obtain ⟨fresh, unrepeated, sends⟩ := sends
  have served := coherent.answered next env (kind.rpc req) unrepeated _ sent (by cases kind <;> exact handled)
  refine served.own who name (some s) _
    (.own _ _ _ _ _ (fun placed => path.trans (placed name entry held)) fun _ => .refl _) apart _ fun found opened => ?_
  obtain rfl := Option.some.inj ((AList.lookup_insert _).symm.trans opened)
  obtain ⟨call, version, addressed, same, here⟩ := Server.handleCall_tells kind env s next req response sent fresh handled
  obtain rfl : changed.version = version := Option.some.inj (told.symm.trans same)
  obtain ⟨named, verbatim⟩ := sends call addressed
  refine ⟨call.name, named, ?_⟩
  cases change : entry.dirty with
  | true =>
    rw [change] at dirty
    have advances : Lifetime.Advances files env s call := by
      cases kind <;> exact (unrepeated call addressed).2.2 dirty
    obtain ⟨own, _⟩ := files.call_name call advances.member
    have content := Server.handleCall_keeps kind env s next req response sent fresh handled files call addressed dirty
      advances (verbatim dirty)
    refine current next here fun _ _ => ⟨req.data, ?_, by rw [own]; exact content⟩
    exact path ▸ file change
  | false =>
    obtain ⟨safe, same, sound⟩ := served.sound who name entry held
    obtain rfl : safe = call.name := Option.some.inj (same.symm.trans named)
    rw [change, Bool.false_or, Bool.and_eq_true] at full
    by_cases unchanged : changed.version = entry.version
    · exact sound.changed unchanged path (fun _ => change) fun flagged => (full flagged).1
    · exact current next here fun _ flagged => absurd (of_decide_eq_true (full flagged).2) unchanged

theorem commit (requests : ∀ entry req, (clients who).cache.lookup name = some entry →
      (Seat.mk (clients who) disk (some s)).dataRequest io requestId who entry = some req →
      Sends files s known env .write name req)
    (live : ((Seat.mk (clients who) disk (some s)).commit (primaryNet env reads) io requestId name who).1.world =
      some next) :
    let done := (Seat.mk (clients who) disk (some s)).commit (primaryNet env reads) io requestId name who
    CoherentAfter files clients filled known who name
      (if done.2.toOption.isSome then filled who name || ((clients who).cache.lookup name).any (·.dirty)
        else filled who name) done.1 next := by
  intro done
  rcases Seat.commit_live _ next env reads io live with
    ⟨answer, same, clean⟩ | ⟨entry, req, _, resp, sent, held, dirty, made, here, replied, same⟩
  · rw [same] at live
    obtain rfl := Option.some.inj live
    have flag : (if answer.toOption.isSome then filled who name || ((clients who).cache.lookup name).any (·.dirty)
        else filled who name) = filled who name := by
      cases answer with
      | error err => rfl
      | ok _ => simp [clean rfl]
    simp only [done, same, flag]
    exact coherent.idle who name apart _ _
  · obtain rfl := Option.some.inj here
    simp only [done, same]
    exact coherent.returned who next env io name apart .write requestId entry
      { entry with version := resp.version, dirty := false } req _ sent held made (requests entry req held made) replied
      rfl rfl _ _ fun _ => by rw [dirty, Bool.true_or]

theorem close (requests : ∀ entry req, (clients who).cache.lookup name = some entry →
      (Seat.mk (clients who) disk (some s)).dataRequest io requestId who entry = some req →
      Sends files s known env .close name req)
    (live : ((Seat.mk (clients who) disk (some s)).close (primaryNet env reads) io requestId name who).1.world =
      some next) :
    let done := (Seat.mk (clients who) disk (some s)).close (primaryNet env reads) io requestId name who
    CoherentAfter files clients filled known who name
      (if done.2.toOption.isSome then ((clients who).cache.lookup name).any (·.dirty) || filled who name &&
          (done.1.client.cache.lookup name).map (·.version) = ((clients who).cache.lookup name).map (·.version)
        else filled who name) done.1 next := by
  intro done
  rcases Seat.close_live _ next env reads io live with
    ⟨err, same⟩ | ⟨entry, req, _, resp, sent, held, made, here, replied, same⟩
  · rw [same] at live
    obtain rfl := Option.some.inj live
    simp only [done, same]
    exact coherent.idle who name apart _ _
  · obtain rfl := Option.some.inj here
    simp only [done, same]
    refine coherent.returned who next env io name apart .close requestId entry
      { entry with version := resp.version, dirty := false, closed := true, fd := 0 } req _ sent held made
      (requests entry req held made) replied rfl rfl _ _ fun full => ?_
    rw [show (clients who).cache.lookup name = some entry from held] at full
    simpa [Client.setEntry, Client.touchLRU, Except.toOption] using full

theorem delete (unrepeated : Lifetime.Unrepeated files ⟨s, known⟩ (.request ⟨env, .delete ⟨requestId, name⟩⟩))
    (live : ((Seat.mk (clients who) disk (some s)).delete (primaryNet env reads) io requestId name).1.world = some next) :
    CoherentAfter files clients filled known who name (filled who name)
      ((Seat.mk (clients who) disk (some s)).delete (primaryNet env reads) io requestId name).1 next := by
  have acts : Acts name (fun _ => False) (Seat.mk (clients who) disk (some s)) _ :=
    Seat.acts_delete (primaryNet env reads) io requestId name _
  have forgets := (Seat.mk (clients who) disk (some s)).forget_gone io name
  rcases Seat.delete_live _ next env reads io live with ⟨err, same⟩ | ⟨_, resp, sent, here, replied, same⟩
  · rw [same, Seat.forget_world] at live
    obtain rfl := Option.some.inj live
    rw [same] at acts ⊢
    refine coherent.rest.own who name (some s) _ acts apart _ fun found held => ?_
    rcases forgets with kept | gone
    · rw [kept] at held ⊢
      exact coherent.rest.sound who name found held
    · rw [gone] at held
      cases held
  · obtain rfl := Option.some.inj here
    have served := coherent.answered next env (.delete ⟨requestId, name⟩) unrepeated _ sent replied
    rw [same] at acts ⊢
    refine served.own who name (some s) _ acts apart _ fun found held => ?_
    rcases forgets with kept | gone
    · dsimp only at held ⊢
      rw [kept] at held ⊢
      exact served.sound who name found held
    · cases gone.symm.trans held

omit [LogCodec] in
theorem writeLocal (change : Tree → Path → Tree × Bool)
    (live : ((Seat.mk (clients who) disk (some s)).writeLocal io change name).1.world = some next)
    (touches : ∀ region tree path, ¬ region path → Untouched region tree (change tree path).1)
    (whole : ∀ entry, (clients who).cache.lookup name = some entry → entry.dirty = false →
      (change disk entry.localPath).2 = false → SameFiles disk (change disk entry.localPath).1) :
    CoherentAfter files clients filled known who name (filled who name)
      ((Seat.mk (clients who) disk (some s)).writeLocal io change name).1 next := by
  obtain rfl : s = next := Option.some.inj ((Seat.writeLocal_world ..).symm.trans live)
  have acts : Acts name (fun _ => False) (Seat.mk (clients who) disk (some s)) _ :=
    Seat.acts_writeLocal io touches name _
  refine coherent.rest.own who name (some s) _ acts apart _ fun found opened => ?_
  unfold Seat.writeLocal at opened ⊢
  cases held : (clients who).cache.lookup name with
  | none =>
    simp only [held] at opened
    cases opened
  | some entry =>
    obtain ⟨safe, named, sound⟩ := coherent.rest.sound who name entry held
    simp only [held] at opened ⊢
    split_ifs at opened ⊢
    · obtain rfl := Option.some.inj (held.symm.trans opened)
      exact ⟨safe, named, sound⟩
    · cases changed : change disk entry.localPath with
      | mk after works =>
        rw [changed] at opened
        cases works with
        | false =>
          obtain rfl := Option.some.inj (held.symm.trans opened)
          refine ⟨safe, named, ?_⟩
          cases clean : entry.dirty with
          | true => exact ⟨sound.known, sound.behind, fun still => by rw [clean] at still; cases still⟩
          | false =>
            have same := whole entry held clean (by rw [changed])
            rw [changed] at same
            have everywhere : Untouched (fun _ => True) disk after := fun path content _ => same path content
            exact sound.untouched everywhere trivial
        | true =>
          obtain rfl := Option.some.inj ((AList.lookup_insert _).symm.trans opened)
          exact ⟨safe, named, sound.known, sound.behind, by rintro ⟨⟩⟩

theorem read (live : ((Seat.mk (clients who) disk (some s)).read (primaryNet env reads) io name who).1.world = some next)
    (streams : ∀ safe, normalize name = some safe → s.bytes safe = some reads.chunks.flatten) :
    let done := (Seat.mk (clients who) disk (some s)).read (primaryNet env reads) io name who
    CoherentAfter files clients filled known who name
      (if done.2.toOption.isSome then filled who name || !((clients who).cache.lookup name).any (·.valid)
        else filled who name) done.1 next := by
  intro done
  have acts : Acts name (fun _ => False) (Seat.mk (clients who) disk (some s)) _ :=
    Seat.acts_read (primaryNet env reads) io name who _
  rcases Seat.read_live _ next env reads io live with
    ⟨world, lru, answer, same, valid⟩ | ⟨entry, emptied, _, chunks, held, truncated, here, streamed, same⟩
  · obtain rfl := Option.some.inj world
    have flag : (if answer.toOption.isSome then filled who name || !((clients who).cache.lookup name).any (·.valid)
        else filled who name) = filled who name := by
      cases answer with
      | error err => rfl
      | ok data => simp [valid data rfl]
    simp only [done, same, flag]
    exact coherent.idle who name apart lru _
  · obtain rfl := Option.some.inj here
    obtain ⟨fd, _, _, _, _, rfl, ended⟩ := Server.read_streamed streamed
    obtain rfl : reads.chunks = chunks := by
      unfold Server.streamChunks at ended
      split_ifs at ended <;> cases ended
      rfl
    obtain ⟨registered, continues⟩ := Lifetime.rested coherent.registered (s.files.insert fd _)
    have served := coherent.later registered continues
    rw [same] at acts
    simp only [done, same]
    refine served.own who name (some s) _ acts apart _ fun found opened => ?_
    obtain ⟨safe, named, sound⟩ := served.sound who name entry held
    have path := withSuffix_tmp_ne entry.localPath
    have emptied_untouched : Untouched (· ≠ withSuffix entry.localPath ".tmp") disk emptied :=
      osTruncate_untouched _ _ _ _ _ (fun inside => inside rfl) truncated
    rcases Seat.fetch_cases io name reads.chunks
      ⟨clients who, emptied, some _⟩ path (osTruncate_find truncated) with
      ⟨after, err, failed, kept⟩ | ⟨after, lru, answer, fetched, file⟩
    · rw [failed] at opened ⊢
      obtain rfl := Option.some.inj (held.symm.trans opened)
      exact ⟨safe, named, sound.untouched (emptied_untouched.trans kept) path.symm⟩
    · rw [fetched] at opened ⊢
      obtain rfl := Option.some.inj (held.symm.trans opened)
      exact ⟨safe, named, sound.known, sound.behind, fun _ _ => ⟨_, file, fun _ => streams safe named⟩⟩

end Calls

end Coherent

theorem osWriteFile_whole {outcome : Outcome} {disk : Tree} {path : Path} {data : Bytes}
    (whole : ∀ count, outcome ≠ .cut count) (failed : (osWriteFile outcome disk path data).2 = false) :
    SameFiles disk (osWriteFile outcome disk path data).1 := by
  unfold osWriteFile at failed ⊢
  cases outcome with
  | refused => exact fun _ _ => Iff.rfl
  | cut count => exact absurd rfl (whole count)
  | done =>
    dsimp only at failed ⊢
    split at failed
    · cases failed
    · exact fun _ _ => Iff.rfl

theorem osAppendFile_whole {outcome : Outcome} {disk : Tree} {path : Path} {data : Bytes}
    (whole : ∀ count, outcome ≠ .cut count) (failed : (osAppendFile outcome disk path data).2 = false) :
    SameFiles disk (osAppendFile outcome disk path data).1 := by
  unfold osAppendFile at failed ⊢
  split at failed
  case h_2 => exact fun _ _ => Iff.rfl
  case h_1 old held =>
    cases outcome with
    | done => cases failed
    | cut count => exact absurd rfl (whole count)
    | refused =>
      intro target content
      obtain ⟨next, written⟩ := disk.writeFile_over path old old held
      rw [show old ++ Server.copied .refused data = old from List.append_nil old, written, Option.getD_some,
        FileTree.Tree.find_writeFile target written]
      split_ifs with own
      · rw [own, held]
      · exact Iff.rfl

namespace Caches

variable [LogCodec] {files : OutputNames}

theorem coherent_perform {w : Caches} {t : ClientTurn} {s next : Server} (here : w.desk.world = some s)
    (coherent : Coherent files w.desk.clients w.desk.disk ⟨s, w.known⟩ w.filled) (orderly : w.Orderly files t)
    (live : ((w.desk.seat t.who).perform (primaryNet t.env t.reads) t.io t.who t.call).1.world = some next) :
    let done := (w.desk.seat t.who).perform (primaryNet t.env t.reads) t.io t.who t.call
    CoherentAfter files w.desk.clients w.filled w.known t.who t.call.name
      (t.fills (w.desk.seat t.who) done.1 done.2 (w.filled t.who t.call.name)) done.1 next := by
  intro done
  obtain ⟨⟨disk, clients, world⟩, known, filled⟩ := w
  obtain rfl : world = some s := here
  obtain ⟨requests, sends, apart, spares, streams, whole, -⟩ := orderly
  obtain ⟨who, call, env, reads, io⟩ := t
  have settled {Reply : Type} (wrap : Reply → ClientAnswer) (result : Seat Primary × Except Failure Reply) (flag : Bool)
      (same : done = result.map id (·.map wrap))
      (filling : ∀ reply, ClientTurn.fills ⟨who, call, env, reads, io⟩ ⟨clients who, disk, some s⟩ result.1
        (.ok (wrap reply)) (filled who call.name) = flag)
      (after : CoherentAfter files clients filled known who call.name
        (if result.2.toOption.isSome then flag else filled who call.name) result.1 next) :
      CoherentAfter files clients filled known who call.name
        (ClientTurn.fills ⟨who, call, env, reads, io⟩ ⟨clients who, disk, some s⟩ done.1 done.2 (filled who call.name))
        done.1 next := by
    rw [same]
    obtain ⟨left, answer⟩ := result
    cases answer with
    | error err => exact after
    | ok reply =>
      rw [show Prod.map id (·.map wrap) (left, Except.ok reply) = (left, .ok (wrap reply)) from rfl, filling reply]
      exact after
  have unmarked {Reply : Type} (wrap : Reply → ClientAnswer) (result : Seat Primary × Except Failure Reply)
      (same : done = result.map id (·.map wrap))
      (filling : ∀ reply, ClientTurn.fills ⟨who, call, env, reads, io⟩ ⟨clients who, disk, some s⟩ result.1
        (.ok (wrap reply)) (filled who call.name) = filled who call.name)
      (after : CoherentAfter files clients filled known who call.name (filled who call.name) result.1 next) :=
    settled wrap result (filled who call.name) same filling (by rw [ite_self]; exact after)
  have sent (kind : Kind) (req : DataRequest) (request : ClientTurn.request ⟨who, call, env, reads, io⟩
      ⟨clients who, disk, some s⟩ = some (kind.rpc req)) : Sends files s known env kind call.name req := by
    obtain ⟨fresh, unrepeated⟩ := requests s _ rfl request
    exact ⟨by cases kind <;> exact fresh, unrepeated, sends s kind req rfl request⟩
  cases call with
  | create requestId name =>
    obtain ⟨fresh, unrepeated⟩ := requests s _ rfl rfl
    exact settled ClientAnswer.entry _ true rfl (fun _ => rfl)
      (coherent.create who next env reads io name apart requestId fresh unrepeated spares live)
  | openFile requestId name mode =>
    obtain ⟨fresh, unrepeated⟩ := requests s _ rfl rfl
    have after := coherent.openFile who next env reads io name apart requestId mode fresh unrepeated spares live
    cases result : (Seat.mk (clients who) disk (some s)).openFile (primaryNet env reads) io
      ⟨requestId, name, mode, who⟩ with
    | mk left answer =>
      have same : done = (left, answer.map ClientAnswer.entry) :=
        congrArg (Prod.map id fun answer : Except Failure CacheEntry => answer.map ClientAnswer.entry) result
      have world : left.world = some next := (congrArg (fun pair => pair.1.world) same).symm.trans live
      rw [result] at after
      rw [same]
      cases answer with
      | error err => exact after
      | ok entry =>
        simp only [ClientTurn.fills, world]
        exact after
  | read name =>
    exact settled ClientAnswer.data _ _ rfl (fun _ => rfl)
      (coherent.read who next env reads io name apart live fun safe named => streams s name safe rfl rfl named)
  | writeFile name data =>
    exact unmarked (fun _ => ClientAnswer.done) _ rfl (fun _ => rfl)
      (coherent.writeLocal who next io name apart (fun disk path => osWriteFile io.write disk path data) live
        (fun _ _ _ outside => osWriteFile_untouched _ _ _ outside) fun entry held clean failed =>
          osWriteFile_whole (whole name data entry (.inl rfl) held clean) failed)
  | appendFile name data =>
    exact unmarked (fun _ => ClientAnswer.done) _ rfl (fun _ => rfl)
      (coherent.writeLocal who next io name apart (fun disk path => osAppendFile io.write disk path data) live
        (fun _ _ _ outside => osAppendFile_untouched _ _ _ outside) fun entry held clean failed =>
          osAppendFile_whole (whole name data entry (.inr rfl) held clean) failed)
  | commit requestId name =>
    exact settled (fun _ => ClientAnswer.done) _ _ rfl (fun _ => rfl)
      (coherent.commit who next env reads io name apart requestId (fun entry req held made => sent .write req
        (by simp only [ClientTurn.request, held, Option.bind_some, made]; rfl)) live)
  | close requestId name =>
    exact settled (fun _ => ClientAnswer.done) _ _ rfl (fun _ => rfl)
      (coherent.close who next env reads io name apart requestId (fun entry req held made => sent .close req
        (by simp only [ClientTurn.request, held, Option.bind_some, made]; rfl)) live)
  | delete requestId name =>
    obtain ⟨_, unrepeated⟩ := requests s _ rfl rfl
    exact unmarked (fun _ => ClientAnswer.done) _ rfl (fun _ => rfl)
      (coherent.delete who next env reads io name apart requestId unrepeated live)

theorem coherent_step {w next : Caches} {t : ClientTurn}
    (holds : ∃ s, w.desk.world = some s ∧ Coherent files w.desk.clients w.desk.disk ⟨s, w.known⟩ w.filled)
    (orderly : w.Orderly files t) (stepped : w.step t = some next) :
    ∃ s, next.desk.world = some s ∧
      Coherent files next.desk.clients next.desk.disk ⟨s, next.known⟩ next.filled := by
  obtain ⟨s, here, coherent⟩ := holds
  obtain ⟨desk, served, rfl⟩ := Option.map_eq_some_iff.mp stepped
  obtain ⟨rfl, after, live⟩ := Desk.serve_eq served
  refine ⟨after, live, ?_⟩
  have performed := coherent_perform here coherent orderly live
  rw [live, show (w.desk.turn t.toTurn).1.seat t.who = _ from w.desk.seat_turn_self t.toTurn]
  exact performed

end Caches

theorem validated_entry_coherent [LogCodec] (files : OutputNames) (disk : Tree) (cacheDir address : String → String)
    (id rootDir : String) (config : Map String ServerInfo) (tree : Tree) (logFile : Bytes) (io : Nat → ApplyIO)
    (started : Time) (port : String) (turns : List ClientTurn) (t : ClientTurn) (w : Caches)
    (orderly : Transition.Meets Caches.step (Caches.Orderly files)
      (.start disk cacheDir address ((newServer id rootDir config tree logFile).startServer io started port))
      (turns ++ [t]))
    (reached : Transition.run Caches.step
      (.start disk cacheDir address ((newServer id rootDir config tree logFile).startServer io started port)) turns =
        some w)
    (s : Server) (entry : CacheEntry) (validates : w.desk.Validates t s entry) :
    ∃ safe content, normalize t.call.name = some safe ∧
      w.desk.disk.find entry.localPath = some (.file content) ∧ s.bytes safe = some content := by
  obtain ⟨before, last, _⟩ := (Transition.meets_append _ _ _ _ reached).mp orderly
  obtain ⟨_, _, _, fresh⟩ := (newServer id rootDir config tree logFile).startServer_eq io started port
  have initial : Coherent files (Desk.start disk cacheDir address (some ((newServer id rootDir config tree
      logFile).startServer io started port))).clients disk ⟨(newServer id rootDir config tree logFile).startServer io
      started port, []⟩ fun _ _ => false := by
    refine ⟨⟨fun name entered => absurd ?_ entered, by rintro _ ⟨⟩⟩, ?_, ?_⟩
    · unfold Server.version
      rw [fresh]
      rfl
    · rintro _ _ _ ⟨⟩
    · rintro _ _ _ ⟨⟩
  obtain ⟨server, here, coherent⟩ := Transition.run_invariant (Caches.Orderly files)
    (fun w => ∃ s, w.desk.world = some s ∧ Coherent files w.desk.clients w.desk.disk ⟨s, w.known⟩ w.filled)
    (fun w t next holds meets stepped => Caches.coherent_step holds meets stepped) _ ⟨_, rfl, initial⟩ turns before
    reached
  have full := last.validates s entry validates
  obtain ⟨who, call, env, reads, local_⟩ := t
  cases call with
  | openFile requestId name mode =>
    obtain ⟨held, clean, there, current, _⟩ := validates
    obtain rfl := Option.some.inj (here.symm.trans there)
    obtain ⟨safe, named, sound⟩ := coherent.sound who name entry held
    obtain ⟨content, file, same⟩ := sound.synced clean full
    obtain ⟨other, again, version⟩ := Server.testAuth_version current
    obtain rfl : other = safe := Option.some.inj (again.symm.trans named)
    exact ⟨other, content, named, file, same version⟩
  | _ => exact validates.elim

def soleCaches : Caches := .start .empty (fun who => who) (fun _ => "localhost:5001") firstPrimary

def closeTurn : ClientTurn :=
  { who := "c", call := .close "q3" "output/a", env := { answers := [("2", true), ("3", true)] } }

def writeThenClose : List ClientTurn :=
  [{ who := "c", call := .create "q1" "output/a" }, { who := "c", call := .openFile "q2" "output/a" .write },
    { who := "c", call := .writeFile "output/a" [50, 10] }, closeTurn]

def openAgain : ClientTurn := { who := "c", call := .openFile "q4" "output/a" .read }

def closeTwo : DataRequest := ⟨"q3", 1, true, 0, [50, 10], "c"⟩

def takesTwo (s : Server) : Bool :=
  decide (s.cached "q3" 0 = none ∧ s.version "output/a" = some 0 ∧ s.lastApplied = s.log.length ∧
    s.bytes "output/a" ≠ none ∧ (s.files.lookup 1).map FileMeta.filename = some "output/a" ∧
    s.content .stored ⟨.close, closeTwo, "output/a", .write⟩ = closeTwo.data)

def orderlyA (w : Caches) (t : ClientTurn) : Bool :=
  let client := w.desk.clients "c"
  let alone := decide (client.victim = none) && client.cache.keys.all (· = "output/a")
  let state (holds : Server → Bool) := w.desk.world.all holds
  alone && match t.call with
    | .create _ _ => decide ("output/a" ∉ w.known) && state fun s => s.cached "q1" 0 = none
    | .openFile requestId _ _ => w.filled "c" "output/a" &&
        state fun s => s.cached requestId 0 = none ∧ s.version "output/a" ≠ none
    | .close _ _ => (w.desk.seat "c").client.cache.lookup "output/a" |>.all fun entry =>
        (w.desk.seat "c").dataRequest {} "q3" "c" entry = some closeTwo ∧ state takesTwo
    | _ => true

theorem orderlyA_alone {w : Caches} (others : ∀ user, user ≠ "c" → (w.desk.clients user).cache = ∅)
    (named : ∀ name ∈ (w.desk.clients "c").cache.keys, name = "output/a") (full : (w.desk.clients "c").victim = none) :
    Apart w.desk.clients "c" "output/a" ∧ SparesOthers w.desk.clients "c" := by
  refine ⟨fun user name entry held other => absurd ?_ other, fun _ _ evicts => ?_⟩
  · have own : user = "c" := by
      by_contra different
      rw [others user different] at held
      cases held
    subst own
    exact ⟨rfl, named name (AList.mem_keys.mp (AList.lookup_isSome.mp (by rw [held]; rfl)))⟩
  · rw [full] at evicts
    cases evicts

theorem closeTwo_unrepeated (known : List String) {s : Server} {call : Call} (takes : takesTwo s = true)
    (addressed : s.Addresses .close closeTwo call) :
    oneFile.Clear s call.name ∧ Lifetime.New ⟨s, known⟩ call.name ∧
      (closeTwo.dirty = true → Lifetime.Advances oneFile closeTurn.env s call) := by
  obtain ⟨_, version, applied, _, filename, _⟩ := of_decide_eq_true takes
  obtain ⟨found, client, present, _, rfl⟩ := addressed
  rw [show s.files.lookup 1 = some found from present] at filename
  have inside : found.filename ∈ oneFile.names := Option.some.inj filename
  obtain ⟨own, _⟩ := oneFile.call_name ⟨.close, closeTwo, found.filename, client.mode⟩ inside
  have here : s.version found.filename = some 0 := by rw [show found.filename = "output/a" from inside, version]
  refine ⟨.inl (own ▸ inside), fun absent => ?_, fun _ => ⟨inside, applied, fun held same => ?_, ?_, ?_, ?_, ?_⟩⟩
  · rw [own, here] at absent
    cases absent
  · obtain rfl : 0 = held := Option.some.inj (here.symm.trans same)
    decide
  all_goals rintro ⟨⟩

theorem closeTwo_verbatim {s : Server} {call : Call} (takes : takesTwo s = true)
    (addressed : s.Addresses .close closeTwo call) :
    normalize "output/a" = some call.name ∧ (closeTwo.dirty = true → s.Verbatim closeTurn.env call) := by
  obtain ⟨_, _, _, bytes, filename, content⟩ := of_decide_eq_true takes
  obtain ⟨found, client, present, _, rfl⟩ := addressed
  rw [show s.files.lookup 1 = some found from present] at filename
  obtain ⟨file, name, version, clients⟩ := found
  obtain rfl : name = "output/a" := Option.some.inj filename
  have named : normalize "output/a" = some (normalizeQuiet "output/a") := by decide
  exact ⟨named, fun _ => ⟨fun _ => rfl, bytes, content, by rintro ⟨⟩⟩⟩

theorem writeThenClose_orderly :
    Transition.Meets Caches.step (Caches.Orderly oneFile) soleCaches (writeThenClose ++ [openAgain]) := by
  refine Transition.meets_along _ orderlyA (fun w => ∀ user, user ≠ "c" → (w.desk.clients user).cache = ∅) _ _ ?_ ?_
    (fun _ _ => rfl) (by decide +kernel)
  · intro w next t member others _ stepped user different
    obtain ⟨desk, served, rfl⟩ := Option.map_eq_some_iff.mp stepped
    obtain ⟨rfl, _⟩ := Desk.serve_eq served
    have who : t.who = "c" := by
      have all : ∀ t ∈ writeThenClose ++ [openAgain], t.who = "c" := by decide
      exact all t member
    change (Function.update w.desk.clients t.who _ user).cache = ∅
    rw [Function.update_of_ne (by rw [who]; exact different)]
    exact others user different
  · intro w t member others checked
    obtain ⟨alone, checked⟩ := Bool.and_eq_true_iff.mp checked
    obtain ⟨full, named⟩ := Bool.and_eq_true_iff.mp alone
    obtain ⟨apart, spares⟩ := orderlyA_alone others (fun name inside => of_decide_eq_true (List.all_eq_true.mp named name
      inside)) (of_decide_eq_true full)
    have plain (safe : String) (same : normalize "output/a" = some safe) : safe = "output/a" :=
      Option.some.inj (same.symm.trans (by decide))
    simp only [writeThenClose, List.cons_append, List.nil_append, List.mem_cons, List.not_mem_nil, or_false] at member
    have reopens (requestId : String) (mode : FileMode)
        (checked : (w.filled "c" "output/a" && w.desk.world.all fun s =>
          decide (s.cached requestId 0 = none ∧ s.version "output/a" ≠ none)) = true) :
        w.Orderly oneFile { who := "c", call := .openFile requestId "output/a" mode } := by
      obtain ⟨filled, state⟩ := Bool.and_eq_true_iff.mp checked
      refine ⟨?_, ?_, apart, spares, by rintro _ _ _ _ ⟨⟩, fun _ _ _ writes => by simp at writes,
        fun _ _ _ => filled⟩
      · rintro s _ here ⟨⟩
        rw [here] at state
        obtain ⟨fresh, entered⟩ := of_decide_eq_true state
        refine ⟨fresh, fun safe same => ?_⟩
        obtain rfl := plain safe same
        exact ⟨.inl rfl, fun absent => absurd absent entered⟩
      · rintro _ (_ | _) _ _ ⟨⟩
    rcases member with rfl | rfl | rfl | rfl | rfl
    · obtain ⟨new, state⟩ := Bool.and_eq_true_iff.mp checked
      refine ⟨?_, ?_, apart, spares, by rintro _ _ _ _ ⟨⟩, fun _ _ _ writes => by simp at writes,
        fun _ _ absurd => absurd.elim⟩
      · rintro s _ here ⟨⟩
        rw [here] at state
        refine ⟨of_decide_eq_true state, fun safe same => ?_⟩
        obtain rfl := plain safe same
        exact ⟨rfl, of_decide_eq_true new⟩
      · rintro _ (_ | _) _ _ ⟨⟩
    · exact reopens "q2" .write checked
    · exact ⟨by rintro _ _ _ ⟨⟩, by rintro _ _ _ _ ⟨⟩, apart, spares, by rintro _ _ _ _ ⟨⟩,
        by rintro _ _ _ _ _ _ _ ⟨⟩, fun _ _ absurd => absurd.elim⟩
    · have request (rpc : Rpc) (asked : closeTurn.request (w.desk.seat "c") = some rpc) :
          rpc = .close closeTwo ∧ w.desk.world.all takesTwo = true := by
        obtain ⟨req, made, rfl⟩ := Option.map_eq_some_iff.mp asked
        obtain ⟨entry, held, made⟩ := Option.bind_eq_some_iff.mp made
        rw [show (w.desk.seat "c").client.cache.lookup "output/a" = some entry from held] at checked
        obtain ⟨same, state⟩ := of_decide_eq_true checked
        exact ⟨congrArg Rpc.close (Option.some.inj (made.symm.trans same)), state⟩
      refine ⟨?_, ?_, apart, spares, by rintro _ _ _ _ ⟨⟩, fun _ _ _ writes => by simp [closeTurn] at writes,
        fun _ _ absurd => absurd.elim⟩
      · intro s rpc here asked
        obtain ⟨rfl, state⟩ := request rpc asked
        rw [here] at state
        exact ⟨(of_decide_eq_true state).1, fun call addressed => closeTwo_unrepeated w.known state addressed⟩
      · intro s kind req here asked call addressed
        obtain ⟨same, state⟩ := request _ asked
        rw [here] at state
        obtain ⟨rfl, rfl⟩ : kind = .close ∧ req = closeTwo := by cases kind <;> cases same; exact ⟨rfl, rfl⟩
        exact closeTwo_verbatim state addressed
    · exact reopens "q4" .read checked

theorem writeThenClose_coherent :
    ∃ w s entry content, Transition.run Caches.step soleCaches writeThenClose = some w ∧
      w.desk.Validates openAgain s entry ∧ w.desk.disk.find entry.localPath = some (.file content) ∧
      s.bytes "output/a" = some content := by
  have outcome : ((Transition.run Caches.step soleCaches writeThenClose).bind fun w => w.desk.world.bind fun s =>
      ((w.desk.clients "c").cache.lookup "output/a").map fun entry =>
        decide (entry.dirty = false ∧ s.testAuth "output/a" = .ok entry.version ∧ entry.closed = true)) = some true := by
    decide +kernel
  obtain ⟨w, reached, rest⟩ := Option.bind_eq_some_iff.mp outcome
  obtain ⟨s, here, rest⟩ := Option.bind_eq_some_iff.mp rest
  obtain ⟨entry, held, facts⟩ := Option.map_eq_some_iff.mp rest
  obtain ⟨clean, current, shut⟩ := of_decide_eq_true facts
  have validates : w.desk.Validates openAgain s entry :=
    ⟨held, clean, here, current, fun refused => by rw [shut] at refused; cases refused.1⟩
  obtain ⟨safe, content, named, file, bytes⟩ := validated_entry_coherent oneFile .empty (fun who => who)
    (fun _ => "localhost:5001") "1" "storage" mainServers .empty [] (fun _ => .ok) 0 "5001" writeThenClose openAgain w
    writeThenClose_orderly reached s entry validates
  obtain rfl : safe = "output/a" := Option.some.inj (named.symm.trans (by decide))
  exact ⟨w, s, entry, content, reached, validates, file, bytes⟩

-- Open makes an empty local file with the version of the server's file, and the next Open finds that version.
def openTwiceElsewhere : List ClientTurn :=
  writeThenClose ++ [{ who := "d", call := .openFile "q4" "output/a" .read }]

theorem unread_entry_validated :
    ∃ w s entry, Transition.run Caches.step soleCaches openTwiceElsewhere = some w ∧
      w.desk.Validates { who := "d", call := .openFile "q5" "output/a" .read } s entry ∧
      ((w.desk.turn (ClientTurn.toTurn { who := "d", call := .openFile "q5" "output/a" .read })).2.toOption.any fun answer =>
        answer = .entry { entry with valid := true, fd := 3 }) = true ∧
      w.desk.disk.find entry.localPath = some (.file []) ∧ s.bytes "output/a" = some [50, 10] := by
  have outcome : ((Transition.run Caches.step soleCaches openTwiceElsewhere).bind fun w => w.desk.world.bind fun s =>
      ((w.desk.clients "d").cache.lookup "output/a").map fun entry =>
        decide (entry.dirty = false ∧ s.testAuth "output/a" = .ok entry.version ∧ entry.mode = .read ∧
          ((w.desk.turn (ClientTurn.toTurn { who := "d", call := .openFile "q5" "output/a" .read })).2.toOption.any
            fun answer => answer = .entry { entry with valid := true, fd := 3 }) = true ∧
          w.desk.disk.find entry.localPath = some (.file []) ∧ s.bytes "output/a" = some [50, 10])) = some true := by
    decide +kernel
  obtain ⟨w, reached, rest⟩ := Option.bind_eq_some_iff.mp outcome
  obtain ⟨s, here, rest⟩ := Option.bind_eq_some_iff.mp rest
  obtain ⟨entry, held, facts⟩ := Option.map_eq_some_iff.mp rest
  obtain ⟨clean, current, mode, answer, file, bytes⟩ := of_decide_eq_true facts
  exact ⟨w, s, entry, reached, ⟨held, clean, here, current, fun refused => refused.2.1 mode⟩, answer, file, bytes⟩

end Ikkat
