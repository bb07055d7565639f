import Ikkat.Locks

set_option autoImplicit false

namespace Ikkat

-- How the handlers use their entry: they look it up outside of any section, drop a name only inside the
-- write section of its entry and leave no section behind.
def Op.Allowed (l : Locals) : Op → Prop
  | .getFileEntry _ | .findEntry _ | .claimWrite | .forget => l.access = none
  | .releaseWrite => l.access ≠ some .reading
  | .releaseRead => l.access ≠ some .writing
  | .dropEntry name => l.access = some .writing ∧ l.entry.map Ref.name = some name
  | .acquireWrite | .acquireReadNoPriority => False
  | _ => True

def Op.Waits (l : Locals) : Op → Prop
  | .acquireWrite | .acquireReadNoPriority => l.access = none
  | _ => False

def rules : Threads.Rules Op Locals where
  allowed := Op.Allowed
  waits := Op.Waits
  rests l := l = ⟨none, none⟩

def Mutex.rank : Mutex → Nat
  | .server => 0
  | .file _ => 1
  | .entry _ => 2

namespace Program

-- The rules, and the order of the mutexes: it is asked for while `quiet` holds, which the states that the handler
-- meets take part in. A lock that the handler has already is not passed.
def Tidy (calm : Server → Prop) : Program → Prop → Finset Mutex → Locals → Prop
  | .done _, _, held, l => held = ∅ ∧ l = ⟨none, none⟩
  | .panic, _, _, _ => True
  | .lock lock next, quiet, held, l =>
      l.mutex lock ∉ held → (quiet → ∀ other ∈ held, other.rank < (l.mutex lock).rank) ∧
        Tidy calm next quiet (insert (l.mutex lock) held) l
  | .unlock lock next, quiet, held, l => l.mutex lock ∈ held ∧ Tidy calm next quiet (held.erase (l.mutex lock)) l
  | .act op next, quiet, held, l =>
      op.Allowed l ∧ ∀ m : Memory, Tidy calm (next (m.exec op l).1 m) (quiet ∧ calm m.server) held (m.exec op l).1
  | .await lock op next, quiet, held, l =>
      l.mutex lock ∈ held ∧ op.Waits l ∧
        (quiet → ∀ other ∈ held.erase (l.mutex lock), other.rank < (l.mutex lock).rank) ∧
          ∀ m : Memory, m.guard op l = true → Tidy calm next quiet held (m.exec op l).1
  | .broadcast _ next, quiet, held, l => Tidy calm next quiet held l

variable {calm : Server → Prop} {quiet : Prop}

theorem Tidy.follows (program : Program) (held : Finset Mutex) (l : Locals) (tidy : Tidy calm program quiet held l) :
    Threads.Follows meaning rules program held l := by
  induction program generalizing quiet held l with
  | done => exact tidy
  | panic => trivial
  | lock lock next ih => exact fun free => ih _ _ (tidy free).2
  | unlock lock next ih => exact ⟨tidy.1, ih _ _ tidy.2⟩
  | act op next ih => exact ⟨tidy.1, fun m => ih _ _ _ _ (tidy.2 m)⟩
  | await lock op next ih => exact ⟨tidy.1, tidy.2.1, fun m ready => ih _ _ (tidy.2.2.2 m ready)⟩
  | broadcast lock next ih => exact ih _ _ tidy

section Rules

variable (held : Finset Mutex) (l : Locals)

@[simp] theorem tidy_done (answer : Answer) : Tidy calm (.done answer) quiet held l ↔ held = ∅ ∧ l = ⟨none, none⟩ :=
  Iff.rfl

@[simp] theorem tidy_panic : Tidy calm .panic quiet held l := trivial

@[simp] theorem tidy_lock (lock : Lock) (next : Program) :
    Tidy calm (.lock lock next) quiet ∅ l ↔ Tidy calm next quiet {l.mutex lock} l := by
  simp [Tidy]

@[simp] theorem tidy_unlock (lock : Lock) (next : Program) :
    Tidy calm (.unlock lock next) quiet held l ↔
      l.mutex lock ∈ held ∧ Tidy calm next quiet (held.erase (l.mutex lock)) l := Iff.rfl

@[simp] theorem tidy_act (op : Op) (next : Locals → Memory → Program) :
    Tidy calm (.act op next) quiet held l ↔
      op.Allowed l ∧ ∀ m : Memory, Tidy calm (next (m.exec op l).1 m) (quiet ∧ calm m.server) held (m.exec op l).1 :=
  Iff.rfl

@[simp] theorem tidy_await (lock : Lock) (op : Op) (next : Program) :
    Tidy calm (.await lock op next) quiet {l.mutex lock} l ↔
      op.Waits l ∧ ∀ m : Memory, m.guard op l = true → Tidy calm next quiet {l.mutex lock} (m.exec op l).1 := by
  simp [Tidy]

@[simp] theorem tidy_broadcast (lock : Lock) (next : Program) :
    Tidy calm (.broadcast lock next) quiet held l ↔ Tidy calm next quiet held l := Iff.rfl

@[simp] theorem tidy_look (next : Server → Program) :
    Tidy calm (look next) quiet held l ↔ ∀ m : Memory, Tidy calm (next m.server) (quiet ∧ calm m.server) held l :=
  and_iff_right trivial

@[simp] theorem tidy_data (update : Server → Server) (next : Server → Program) :
    Tidy calm (data update next) quiet held l ↔
      ∀ m : Memory, Tidy calm (next m.server) (quiet ∧ calm m.server) held l :=
  and_iff_right trivial

end Rules

variable {held : Finset Mutex} {lock : Lock} {next : Program} {l : Locals} {entry : Option Ref} {access : Option Access}

theorem tidy_unlocked {mutex : Mutex} (mine : l.mutex lock = mutex) (later : Tidy calm next quiet ∅ l) :
    Tidy calm (.unlock lock next) quiet {mutex} l := by
  simp [mine, later]

theorem tidy_file {fd : Int32} (later : Tidy calm next quiet {.file fd, .server} l) :
    Tidy calm (.lock (.file fd) next) quiet {.server} l :=
  fun _ => ⟨fun _ => by simp [Locals.mutex, Mutex.rank], later⟩

theorem tidy_filed {fd : Int32} (later : Tidy calm next quiet {.server} l) :
    Tidy calm (.unlock (.file fd) next) quiet {.file fd, .server} l := by
  simp [Locals.mutex, later]

@[simp] theorem tidy_leave (answer : Answer) : Tidy calm (leave answer) quiet ∅ ⟨entry, none⟩ := by
  simp [leave, Op.Allowed, Memory.exec]

theorem tidy_asPrimary (refused : Status → Answer) (later : ∀ quiet, Tidy calm next quiet ∅ ⟨none, none⟩) :
    Tidy calm (asPrimary refused next) quiet ∅ ⟨none, none⟩ := by
  simp only [asPrimary, tidy_look]
  intro m
  split
  · simp
  · exact later _

theorem tidy_getFileEntry (name : String) (later : ∀ quiet (ref : Ref), Tidy calm next quiet ∅ ⟨some ref, none⟩) :
    Tidy calm (getFileEntry name next) quiet ∅ ⟨entry, none⟩ := by
  rw [getFileEntry, tidy_lock, tidy_act]
  exact ⟨rfl, fun m => tidy_unlocked rfl (later _ (m.current name))⟩

theorem tidy_acquireWrite (later : ∀ quiet, Tidy calm next quiet ∅ ⟨entry, some .writing⟩) :
    Tidy calm (acquireWrite next) quiet ∅ ⟨entry, none⟩ := by
  simp [acquireWrite, Tidy, Op.Allowed, Op.Waits, Memory.exec, Locals.mutex, later]

theorem tidy_acquireReadNoPriority (later : ∀ quiet, Tidy calm next quiet ∅ ⟨entry, some .reading⟩) :
    Tidy calm (acquireReadNoPriority next) quiet ∅ ⟨entry, none⟩ := by
  simp [acquireReadNoPriority, Tidy, Op.Waits, Memory.exec, Locals.mutex, later]

theorem tidy_releaseWrite (mine : access ≠ some .reading) (later : ∀ quiet, Tidy calm next quiet ∅ ⟨entry, none⟩) :
    Tidy calm (releaseWrite next) quiet ∅ ⟨entry, access⟩ := by
  simp [releaseWrite, Op.Allowed, Memory.exec, Locals.mutex, mine, later]

theorem tidy_releaseRead (mine : access ≠ some .writing) (later : ∀ quiet, Tidy calm next quiet ∅ ⟨entry, none⟩) :
    Tidy calm (releaseRead next) quiet ∅ ⟨entry, access⟩ := by
  simp [releaseRead, Op.Allowed, Memory.exec, Locals.mutex, mine, later]

@[simp] theorem tidy_unlockAndLeave (answer : Answer) :
    Tidy calm (unlockAndLeave answer) quiet ∅ ⟨entry, some .writing⟩ :=
  tidy_releaseWrite (by simp) fun _ => tidy_leave answer

theorem tidy_createLocked (env : Env) (req : CreateRequest) (safe : String) :
    Tidy calm (createLocked env req safe) quiet ∅ ⟨entry, some .writing⟩ := by
  have registered (quiet : Prop) : Tidy calm (createRegistered env req safe) quiet ∅ ⟨entry, some .writing⟩ := by
    simp only [createRegistered, tidy_lock, tidy_look]
    intro m
    split_ifs <;> simp [Tidy, Op.Allowed, Memory.exec, Locals.mutex, Mutex.rank, data]
  simp only [createLocked, tidy_data]
  intro m
  split
  · simp
  · rw [tidy_data]
    intro m
    split_ifs
    · simp
    · split
      · simp
      · exact registered _

theorem tidy_create (env : Env) (req : CreateRequest) : Tidy calm (create env req) quiet ∅ ⟨none, none⟩ := by
  refine tidy_asPrimary _ fun _ => ?_
  simp only [tidy_lock, tidy_look]
  intro m
  split
  · simp [Locals.mutex]
  · simp
  · refine tidy_unlocked rfl ?_
    split
    · simp
    · split_ifs
      · simp
      · exact tidy_getFileEntry _ fun _ ref => tidy_acquireWrite fun _ => tidy_createLocked env req _

theorem tidy_openRegistered (env : Env) (req : FileRequest) (safe message : String) {release : Program → Program}
    (released : ∀ quiet answer, Tidy calm (release (leave answer)) quiet ∅ ⟨entry, access⟩) :
    Tidy calm (openRegistered env req safe message release) quiet ∅ ⟨entry, access⟩ := by
  rw [openRegistered, tidy_lock, tidy_act]
  refine ⟨trivial, fun m => ?_⟩
  split_ifs
  · exact tidy_unlocked rfl (released _ _)
  · exact ⟨trivial, fun m => tidy_unlocked rfl (released _ _)⟩

theorem tidy_openInput (env : Env) (req : FileRequest) (safe : String) :
    Tidy calm (openInput env req safe) quiet ∅ ⟨entry, none⟩ := by
  have released (quiet : Prop) (answer : Answer) :
      Tidy calm (releaseRead (leave answer)) quiet ∅ ⟨entry, some .reading⟩ :=
    tidy_releaseRead (by simp) fun _ => tidy_leave answer
  unfold openInput
  split_ifs
  · simp
  · refine tidy_acquireReadNoPriority fun _ => ?_
    rw [tidy_look]
    intro m
    split_ifs
    · exact tidy_openRegistered env req safe _ released
    · exact released _ _

theorem tidy_openOutput (env : Env) (req : FileRequest) (safe : String) :
    Tidy calm (openOutput env req safe) quiet ∅ ⟨entry, none⟩ := by
  rw [openOutput, tidy_look]
  intro m
  split_ifs
  · exact tidy_openRegistered env req safe _ fun _ => tidy_leave
  · simp

theorem tidy_openFile (env : Env) (req : FileRequest) : Tidy calm (openFile env req) quiet ∅ ⟨none, none⟩ := by
  refine tidy_asPrimary _ fun _ => ?_
  simp only [tidy_lock, tidy_look]
  intro m
  split
  · simp [Locals.mutex]
  · simp
  · refine tidy_unlocked rfl ?_
    split
    · simp
    · refine tidy_getFileEntry _ fun _ ref => ?_
      split_ifs
      · exact tidy_openInput env req _
      · exact tidy_openOutput env req _

theorem tidy_releaseClaim (answer : Answer) : Tidy calm (releaseClaim answer) quiet ∅ ⟨entry, some .writing⟩ := by
  rw [releaseClaim, tidy_lock, tidy_act]
  refine ⟨by simp [Op.Allowed], fun m => ?_⟩
  split_ifs
  · exact tidy_unlocked rfl (tidy_leave answer)
  · simp

theorem tidy_deleteLocked (env : Env) (req : DeleteRequest) {safe : String} {ref : Ref} (named : ref.name = safe) :
    Tidy calm (deleteLocked env req safe) quiet ∅ ⟨some ref, some .writing⟩ := by
  rw [deleteLocked, tidy_data]
  intro m
  split_ifs
  · simp [Op.Allowed, Memory.exec, Locals.mutex, named, tidy_releaseClaim]
  · exact tidy_releaseClaim _

theorem tidy_alreadyDeleted (env : Env) (req : DeleteRequest) :
    Tidy calm (alreadyDeleted env req) quiet ∅ ⟨entry, none⟩ := by
  simp [alreadyDeleted]

theorem tidy_delete (env : Env) (req : DeleteRequest) : Tidy calm (delete env req) quiet ∅ ⟨none, none⟩ := by
  refine tidy_asPrimary _ fun _ => ?_
  simp only [tidy_lock, tidy_look]
  intro m
  split
  · simp [Locals.mutex]
  · simp
  · refine tidy_unlocked rfl ?_
    split
    · simp
    case h_2 safe named =>
      split_ifs
      · simp
      · rw [tidy_look]
        intro m
        split
        · exact tidy_alreadyDeleted env req
        · simp
        · rw [tidy_lock, tidy_act]
          refine ⟨rfl, fun m => tidy_unlocked rfl ?_⟩
          split_ifs with absent
          · exact tidy_alreadyDeleted env req
          · obtain ⟨ref, found⟩ := Option.ne_none_iff_exists'.mp (by simpa using absent)
            have here : ref.name = safe := by
              simp only [Memory.exec, Option.map_eq_some_iff] at found
              obtain ⟨_, -, rfl⟩ := found
              rfl
            have known : (m.exec (.findEntry safe) ⟨none, none⟩).1 = ⟨some ref, none⟩ :=
              congrArg (Locals.mk · none) found
            rw [known, tidy_lock, tidy_act]
            refine ⟨rfl, fun m => ?_⟩
            have claims : (m.exec .claimWrite ⟨some ref, none⟩).1 = ⟨some ref, some .writing⟩ ∨
                (m.exec .claimWrite ⟨some ref, none⟩).1 = ⟨some ref, none⟩ := by
              unfold Memory.exec
              split_ifs <;> simp
            rcases claims with claimed | busy
            · rw [claimed]
              exact tidy_unlocked rfl (tidy_deleteLocked env req here)
            · rw [busy]
              exact tidy_unlocked rfl (by simp)

def writes (dirty : Bool) : Option Access := if dirty then some .writing else none

theorem tidy_answerCall (env : Env) (call : Call) (sent : List AppendEntriesRequest) (version : Int32) :
    Tidy calm (answerCall env call sent version) quiet ∅ ⟨entry, writes call.req.dirty⟩ := by
  have ends (quiet : Prop) (answer : Answer) :
      Tidy calm (if call.req.dirty = true then unlockAndLeave answer else leave answer) quiet ∅
        ⟨entry, writes call.req.dirty⟩ := by
    unfold writes
    split_ifs <;> simp
  cases kind : call.kind with
  | close =>
    -- Close takes the lock of the descriptor under the one of the server.
    simp only [answerCall, kind, tidy_lock]
    refine tidy_file ⟨trivial, fun m => tidy_filed (tidy_unlocked rfl ?_)⟩
    simp [Memory.exec, ends]
  | write => simp only [answerCall, kind]; simp [ends]

theorem tidy_finishCall (env : Env) (call : Call) (sent : List AppendEntriesRequest) :
    Tidy calm (finishCall env call sent) quiet ∅ ⟨entry, writes call.req.dirty⟩ := by
  rw [finishCall]
  split_ifs
  · simp [Op.Allowed, Memory.exec, tidy_answerCall]
  · simp [Op.Allowed, Memory.exec, tidy_answerCall]

section Replication

variable (env : Env) (call : Call) (dirty : call.req.dirty = true)

include dirty

theorem tidy_finishDirty (sent : List AppendEntriesRequest) :
    Tidy calm (finishCall env call sent) quiet ∅ ⟨entry, some .writing⟩ := by
  have finished : Tidy calm (finishCall env call sent) quiet ∅ ⟨entry, writes call.req.dirty⟩ :=
    tidy_finishCall env call sent
  rwa [writes, if_pos dirty] at finished

theorem tidy_updatePrimes (primes : FilePrimeSet) (sent : List AppendEntriesRequest) :
    Tidy calm (updatePrimes env call primes sent) quiet ∅ ⟨entry, some .writing⟩ := by
  unfold updatePrimes
  split
  · simp [tidy_finishDirty env call dirty sent]
  · simp only [tidy_lock, tidy_look]
    refine fun m => tidy_unlocked rfl ?_
    rw [tidy_data]
    intro m
    split
    · simp
    · simp [tidy_finishDirty env call dirty sent]

theorem tidy_replicate (primes : FilePrimeSet) (logged : LogEntry) :
    Tidy calm (replicate env call primes logged) quiet ∅ ⟨entry, some .writing⟩ := by
  have decided (quiet : Prop) (round : AppendEntriesRequest) (majority : Nat) :
      Tidy calm (if Server.ackCount majority 1 env.answers < majority then
          unlockAndLeave (.rpc (.error ⟨.unavailable, "failed to reach majority"⟩) [round])
        else commit env call primes logged round) quiet ∅ ⟨entry, some .writing⟩ := by
    split_ifs
    · simp
    · simp [commit, tidy_updatePrimes env call dirty]
  rw [replicate]
  unfold countMajority
  split
  · simp [decided]
  · simp [decided]

theorem tidy_appendCall [LogCodec] (primes : FilePrimeSet) (content : Bytes) :
    Tidy calm (appendCall env call primes content) quiet ∅ ⟨entry, some .writing⟩ := by
  rw [appendCall, tidy_act]
  refine ⟨trivial, fun m => ?_⟩
  simp only [tidy_lock, tidy_data]
  refine fun m => tidy_unlocked rfl ?_
  split_ifs
  · exact tidy_replicate env call dirty primes _
  · simp [Memory.exec]

theorem tidy_lockedCall [LogCodec] : Tidy calm (lockedCall env call) quiet ∅ ⟨entry, some .writing⟩ := by
  rw [lockedCall, tidy_act]
  refine ⟨trivial, fun m => ?_⟩
  split
  · simp [Memory.exec]
  · split
    · simp only [tidy_lock, tidy_look]
      exact fun m => tidy_unlocked rfl (tidy_appendCall env call dirty _ _)
    · exact tidy_appendCall env call dirty _ _

end Replication

theorem tidy_foundCall [LogCodec] (kind : Kind) (env : Env) (req : DataRequest) :
    Tidy calm (look fun s =>
      match s.files.lookup req.fd with
      | none => .unlock .server (.done (refuse .notFound "file not open"))
      | some found =>
          match found.clients.lookup req.clientID with
          | none => alreadyClosed env ⟨kind, req, found.filename, .read⟩
          | some client =>
              .unlock .server <| getFileEntry (Call.name ⟨kind, req, found.filename, client.mode⟩) <|
                if req.dirty then acquireWrite (lockedCall env ⟨kind, req, found.filename, client.mode⟩)
                else finishCall env ⟨kind, req, found.filename, client.mode⟩ [])
      quiet {.server} ⟨none, none⟩ := by
  rw [tidy_look]
  intro m
  split
  · simp [Locals.mutex]
  · split
    · exact fun free => absurd (Finset.mem_singleton_self _) free
    case h_2 found _ _ client _ =>
      refine tidy_unlocked rfl (tidy_getFileEntry _ fun _ ref => ?_)
      split_ifs with dirty
      · exact tidy_acquireWrite fun _ => tidy_lockedCall env _ dirty
      · have none : writes req.dirty = none := if_neg dirty
        rw [← none]
        exact tidy_finishCall env _ []

theorem tidy_handleCall [LogCodec] (kind : Kind) (env : Env) (req : DataRequest) :
    Tidy calm (handleCall kind env req) quiet ∅ ⟨none, none⟩ := by
  refine tidy_asPrimary _ fun _ => ?_
  simp only [tidy_lock, tidy_look]
  intro m
  split
  · simp [Locals.mutex]
  · simp
  · split
    · refine tidy_unlocked rfl ?_
      rw [tidy_lock]
      exact tidy_foundCall .close env req
    · exact tidy_foundCall .write env req

-- A Read whose lease has run out takes the lock of the server under the one of the descriptor.
theorem tidy_read (io : ReadAnswers) (req : ReadRequest)
    (leased : ∀ s fd state, calm s → client s fd req.clientID = some state → io.now - state.lastSeen ≤ leaseTimeout) :
    Tidy calm (read io req) quiet ∅ ⟨none, none⟩ := by
  have streams (quiet : Prop) (key : FileKey) (fd : Int32) : Tidy calm (readLocked io req key fd) quiet ∅ ⟨none, none⟩ := by
    simp only [readLocked, tidy_lock, tidy_look]
    intro m
    split
    · simp [Locals.mutex]
    case h_2 state registered =>
      split_ifs with expired
      · refine fun _ => ⟨fun ⟨_, still⟩ => absurd expired (not_lt.mpr (leased _ fd state still registered)), ?_⟩
        simp [Locals.mutex]
      · simp [Locals.mutex]
      · simp [Locals.mutex]
  refine tidy_asPrimary _ fun _ => ?_
  split
  · simp
  · simp only [tidy_lock, tidy_look]
    refine fun m => tidy_unlocked rfl ?_
    split
    · simp
    · split_ifs
      · simp
      · rw [tidy_look]
        intro m
        split
        · simp
        · split_ifs
          · simp
          · exact streams _ _ _

theorem tidy_testAuth (filename : String) : Tidy calm (testAuth filename) quiet ∅ ⟨none, none⟩ := by
  refine tidy_asPrimary _ fun _ => ?_
  split
  · simp
  · rw [tidy_lock, tidy_act]
    refine ⟨rfl, fun m => tidy_unlocked rfl ?_⟩
    split_ifs
    · simp [Memory.exec]
    · simp [Op.Allowed, Memory.exec]

theorem tidy_releaseLeases (leases : List ExpiredLease) : Tidy calm (releaseLeases leases) quiet ∅ ⟨entry, none⟩ := by
  induction leases generalizing entry quiet with
  | nil => exact tidy_leave _
  | cons lease rest ih =>
    refine tidy_getFileEntry _ fun _ ref => ?_
    split
    · exact tidy_releaseRead (by simp) fun _ => ih
    · exact tidy_releaseWrite (by simp) fun _ => ih
    · split_ifs
      · exact tidy_releaseWrite (by simp) fun _ => ih
      · exact ih

theorem tidy_cleanupLeases (now : Time) : Tidy calm (cleanupLeases now) quiet ∅ ⟨none, none⟩ := by
  have expires (fds : List Int32) (quiet : Prop) (expired : List ExpiredLease) :
      Tidy calm (expireFiles now fds expired) quiet {.server} ⟨none, none⟩ := by
    induction fds generalizing quiet expired with
    | nil => exact tidy_unlocked rfl (tidy_releaseLeases expired)
    | cons fd rest ih => exact tidy_file ⟨trivial, fun m => tidy_filed (ih _ _)⟩
  simp only [cleanupLeases, tidy_lock, tidy_look]
  exact fun m => expires _ _ _

theorem tidy_versionOf (below : ∀ other ∈ held, other.rank < 2) (name : String) {next : Int32 → Program}
    (later : ∀ quiet entry version, Tidy calm (next version) quiet held ⟨entry, none⟩) :
    Tidy calm (versionOf name next) quiet held ⟨entry, none⟩ := by
  rw [versionOf, tidy_act]
  refine ⟨rfl, fun m => ?_⟩
  split_ifs
  · exact later _ _ _
  · refine fun apart => ⟨fun _ => below, trivial, fun m => ?_⟩
    rw [tidy_unlock, Memory.exec, Finset.erase_insert apart]
    exact ⟨Finset.mem_insert_self .., later _ _ _⟩

theorem tidy_recordClients (below : ∀ other ∈ held, other.rank < 2) (fd : Int32) (filename : String)
    {next : List SnapshotClientInfo → Program}
    (later : ∀ quiet entry recorded, Tidy calm (next recorded) quiet held ⟨entry, none⟩)
    (clients : List (Sigma fun _ : String => ClientState)) (recorded : List SnapshotClientInfo) :
    Tidy calm (recordClients fd filename next clients recorded) quiet held ⟨entry, none⟩ := by
  induction clients generalizing quiet entry recorded with
  | nil => exact later _ entry recorded
  | cons client rest ih => exact tidy_versionOf below filename fun _ _ _ => ih _

theorem tidy_recordOpen {next : List SnapshotClientInfo → Program}
    (later : ∀ quiet entry recorded, Tidy calm (next recorded) quiet {.server} ⟨entry, none⟩) (fds : List Int32)
    (recorded : List SnapshotClientInfo) : Tidy calm (recordOpen next fds recorded) quiet {.server} ⟨entry, none⟩ := by
  induction fds generalizing quiet entry recorded with
  | nil => exact later _ entry recorded
  | cons fd rest ih =>
    refine tidy_file ((tidy_look ..).mpr fun m => ?_)
    split
    · exact tidy_filed (ih _)
    · exact tidy_recordClients (by simp [Mutex.rank]) fd _ (fun _ _ _ => tidy_filed (ih _)) _ _

theorem tidy_recordFiles (primes : Server → String → List UInt64) {next : List SnapshotFileInfo → Program}
    (later : ∀ quiet entry recorded, Tidy calm (next recorded) quiet {.server} ⟨entry, none⟩) (names : List String)
    (recorded : List SnapshotFileInfo) :
    Tidy calm (recordFiles primes next names recorded) quiet {.server} ⟨entry, none⟩ := by
  induction names generalizing quiet entry recorded with
  | nil => exact later _ entry recorded
  | cons name rest ih =>
    refine tidy_versionOf (by simp [Mutex.rank]) name fun _ _ _ => ?_
    simp only [tidy_look]
    exact fun m => ih _

theorem tidy_record (io : SnapshotIO) (snapshotID : String) (primes : Server → String → List UInt64)
    (next : GlobalSnapshot → Program) (later : ∀ quiet entry snap, Tidy calm (next snap) quiet ∅ ⟨entry, none⟩) :
    Tidy calm (record io snapshotID primes next) quiet ∅ ⟨none, none⟩ := by
  simp only [record, tidy_lock, tidy_look]
  refine fun m => tidy_recordOpen (fun _ entry clients => ?_) _ _
  exact tidy_recordFiles _ (fun _ entry files => tidy_unlocked rfl (later _ entry _)) _ _

theorem tidy_sendMarker (io : SnapshotIO) (snapshotID : String) :
    Tidy calm (sendMarker io snapshotID) quiet ∅ ⟨none, none⟩ :=
  tidy_record io snapshotID _ _ fun _ _ _ => tidy_leave _

theorem tidy_initiateSnapshot (io : SnapshotIO) (snapshotID : String) :
    Tidy calm (initiateSnapshot io snapshotID) quiet ∅ ⟨none, none⟩ := by
  simp only [initiateSnapshot, tidy_look]
  intro m
  split
  · simp
  · refine tidy_record io snapshotID _ _ fun _ entry snap => ?_
    split
    · exact tidy_leave _
    · simp

theorem tidy_locked (update : Server → Server) : Tidy calm (locked update) quiet ∅ ⟨none, none⟩ := by
  simp [locked]

theorem tidy_applyUpdate [LogCodec] (disk : DiskIO) (msg : UpdateMessage) :
    Tidy calm (applyUpdate disk msg) quiet ∅ ⟨none, none⟩ := by
  have receives (quiet : Prop) (position : Nat) (files : List Replication) :
      Tidy calm (receiveFiles disk position files) quiet {.server} ⟨none, none⟩ := by
    induction files generalizing quiet position with
    | nil => exact tidy_unlocked rfl (by simp)
    | cons f rest ih =>
      rw [receiveFiles, tidy_act]
      refine ⟨trivial, fun m => tidy_unlocked rfl ?_⟩
      split_ifs
      · simp only [tidy_lock, tidy_data]
        exact fun m => tidy_unlocked rfl ((tidy_lock ..).mpr (ih _ _))
      · simp [Memory.exec]
  unfold applyUpdate
  split_ifs
  · simp only [tidy_lock, tidy_data]
    exact fun m => receives _ 0 _
  · exact tidy_locked _

theorem tidy_getLeader : Tidy calm getLeader quiet ∅ ⟨none, none⟩ := by
  simp [getLeader]

theorem tidy_requestRecovery : Tidy calm requestRecovery quiet ∅ ⟨none, none⟩ := by
  have collects (quiet : Prop) (names : List String) (files : List Replication) :
      Tidy calm (collectFiles names files) quiet {.server} ⟨none, none⟩ := by
    induction names generalizing quiet files with
    | nil => exact tidy_unlocked rfl (by simp)
    | cons name rest ih =>
      rw [collectFiles, tidy_look]
      exact fun m => ih _ _
  simp only [requestRecovery, tidy_lock, tidy_look]
  intro m
  split_ifs
  · exact tidy_unlocked rfl (by simp)
  · exact collects _ _ _

theorem tidy_rebuildAllPrimeSets : Tidy calm rebuildAllPrimeSets quiet ∅ ⟨none, none⟩ := by
  have rebuilds (quiet : Prop) (names : List String) : Tidy calm (rebuildNames names) quiet ∅ ⟨none, none⟩ := by
    induction names generalizing quiet with
    | nil => exact ⟨rfl, rfl⟩
    | cons name rest ih =>
      rw [rebuildNames, tidy_data]
      exact fun m => ih _
  rw [rebuildAllPrimeSets, tidy_look]
  intro m
  split_ifs
  · exact ⟨rfl, rfl⟩
  · rw [tidy_look]
    intro m
    split
    · exact rebuilds _ _
    · exact ⟨rfl, rfl⟩

end Program

def Server.Leased (s : Server) (now : Time) (clientID : String) : Prop :=
  ∀ found ∈ s.files.entries, ∀ client ∈ found.2.clients.entries, client.1 = clientID →
    now - client.2.lastSeen ≤ leaseTimeout

instance (s : Server) (now : Time) (clientID : String) : Decidable (s.Leased now clientID) :=
  inferInstanceAs (Decidable (∀ found ∈ s.files.entries, ∀ client ∈ found.2.clients.entries, client.1 = clientID →
    now - client.2.lastSeen ≤ leaseTimeout))

theorem Server.Leased.fresh {s : Server} {now : Time} {clientID : String} (leased : s.Leased now clientID) (fd : Int32)
    (state : ClientState) (registered : Program.client s fd clientID = some state) :
    now - state.lastSeen ≤ leaseTimeout := by
  obtain ⟨found, present, listed⟩ := Option.bind_eq_some_iff.mp registered
  exact leased ⟨fd, found⟩ (AList.mem_lookup_iff.mp present) ⟨clientID, state⟩ (AList.mem_lookup_iff.mp listed) rfl

namespace Job

def Calm (job : Job) (s : Server) : Prop :=
  match job with
  | .read io req => s.Leased io.now req.clientID
  | _ => True

theorem tidy [LogCodec] (job : Job) (quiet : Prop) : Program.Tidy job.Calm job.program quiet ∅ ⟨none, none⟩ :=
  match job with
  | .serve env (.create req) => Program.tidy_create env req
  | .serve env (.openFile req) => Program.tidy_openFile env req
  | .serve env (.close req) => Program.tidy_handleCall .close env req
  | .serve env (.write req) => Program.tidy_handleCall .write env req
  | .serve env (.delete req) => Program.tidy_delete env req
  | .read io req => Program.tidy_read io req fun _ fd state leased registered => leased.fresh fd state registered
  | .testAuth filename => Program.tidy_testAuth filename
  | .cleanupLeases now => Program.tidy_cleanupLeases now
  | .applyUpdate disk msg => Program.tidy_applyUpdate disk msg
  | .sendMarker io snapshotID => Program.tidy_sendMarker io snapshotID
  | .initiateSnapshot io snapshotID => Program.tidy_initiateSnapshot io snapshotID
  | .getLeader => Program.tidy_getLeader
  | .requestRecovery => Program.tidy_requestRecovery
  | .rebuildAllPrimeSets => Program.tidy_rebuildAllPrimeSets
  | .cleanupRequests _ | .receiveMarkerAck | .appendEntries _ _ | .sendHeartbeat _ _ | .heartbeatReply _
  | .monitorPrimary _ => Program.tidy_locked _

theorem follows [LogCodec] (job : Job) : Threads.Follows meaning rules job.program ∅ meaning.start :=
  (job.tidy True).follows _ _ _

end Job

end Ikkat
