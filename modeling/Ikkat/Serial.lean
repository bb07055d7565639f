import Ikkat.Locks

set_option autoImplicit false

namespace Ikkat

open Threads (alone Verdict)

def Memory.on (m : Memory) (s : Server) : Memory := { m with server := s }

namespace Memory

variable (m : Memory) (s : Server) (name : String)

@[simp] theorem on_server : (m.on s).server = s := rfl

@[simp] theorem on_self : m.on m.server = m := rfl

@[simp] theorem on_on (t : Server) : (m.on s).on t = m.on t := rfl

@[simp] theorem current_on : (m.on s).current name = m.current name := rfl

@[simp] theorem entry_on : (m.on s).entry (m.current name) = s.table.lookup name := if_pos rfl

@[simp] theorem setEntry_on (update : FileEntry → FileEntry) :
    (m.on s).setEntry (m.current name) update = m.on (s.setEntry name update) := if_pos rfl

@[simp] theorem update_on (access : Option Access) (update : FileEntry → FileEntry) :
    (m.on s).update ⟨some (m.current name), access⟩ update = m.on (s.setEntry name update) := if_pos rfl

@[simp] theorem version_view : ((m.on s).view (some (m.current name))).entryVersion name = s.entryVersion name := by
  unfold view
  rw [Option.bind_some, entry_on]
  cases present : s.table.lookup name with
  | none => rfl
  | some entry => simp [Server.entryVersion, present, current]

theorem current_replace (t : Server) : m.current name ≠ ((m.replace name t).on s).current name := by
  simp [current, on, generation_replace]

theorem entry_lost (t : Server) : ((m.replace name t).on s).entry (m.current name) = m.server.table.lookup name := by
  refine (if_neg (m.current_replace s name t)).trans ?_
  exact Function.update_self ..

theorem setEntry_lost (t : Server) (update : FileEntry → FileEntry) :
    (((m.replace name t).on s).setEntry (m.current name) update).server = s := by
  exact congrArg server (if_neg (m.current_replace s name t))

end Memory

theorem Server.setEntry_setEntry (s : Server) (name : String) (first second : FileEntry → FileEntry) :
    (s.setEntry name first).setEntry name second = s.setEntry name (second ∘ first) := by
  cases present : s.table.lookup name with
  | none =>
    have same (update : FileEntry → FileEntry) : s.setEntry name update = s := by rw [setEntry, present]
    rw [same, same, same]
  | some entry =>
    have changed (update : FileEntry → FileEntry) :
        s.setEntry name update = { s with table := s.table.insert name (update entry) } := by rw [setEntry, present]
    rw [changed, changed]
    simp [setEntry]

-- Up to the order in which the table lists its entries.
def Server.Alike (s t : Server) : Prop :=
  s = { t with table := s.table } ∧ ∀ name, s.table.lookup name = t.table.lookup name

theorem Server.Alike.refl (s : Server) : s.Alike s := ⟨rfl, fun _ => rfl⟩

def Agrees (verdict : Verdict Locals Memory Answer) : Result → Prop
  | .returned s answer sent => ∃ after, verdict = .returned (.rpc answer sent) ⟨none, none⟩ after ∧ after.server.Alike s
  | .panicked _ => verdict = .panicked
  | .blocked => verdict = .blocked

theorem agrees_returned (m : Memory) (s : Server) (answer : Except Status Response) (sent : List AppendEntriesRequest) :
    Agrees (.returned (.rpc answer sent) ⟨none, none⟩ (m.on s)) (.returned s answer sent) :=
  ⟨m.on s, rfl, .refl s⟩

namespace Program

open Threads.Prog

variable (m : Memory) (s : Server) (held : Finset Mutex) (l : Locals)

@[simp] theorem alone_done (answer : Answer) : alone meaning (.done answer : Program) held l m = .returned answer l m := rfl

@[simp] theorem alone_panic : alone meaning (.panic : Program) held l m = .panicked := rfl

theorem alone_lock {lock : Lock} (next : Program) (free : l.mutex lock ∉ held) :
    alone meaning (.lock lock next) held l m = alone meaning next (insert (l.mutex lock) held) l m := if_neg free

theorem alone_unlock (lock : Lock) (mutex : Mutex) (next : Program) (mine : l.mutex lock = mutex)
    (free : mutex ∉ held) :
    alone meaning (.unlock lock next) (insert mutex held) l m = alone meaning next held l m := by
  subst mine
  have held_again : (insert (l.mutex lock) held).erase (l.mutex lock) = held := Finset.erase_insert free
  refine (if_pos (Finset.mem_insert_self (l.mutex lock) held)).trans ?_
  exact congrArg (fun held => alone meaning next held l m) held_again

theorem alone_lockServer (next : Program) :
    alone meaning (.lock .server next) ∅ l m = alone meaning next (insert .server ∅) l m := rfl

theorem alone_unlockServer (next : Program) :
    alone meaning (.unlock .server next) (insert .server ∅) l m = alone meaning next ∅ l m :=
  alone_unlock m ∅ l .server .server next rfl (Finset.notMem_empty _)

theorem alone_act (op : Op) (next : Locals → Memory → Program) :
    alone meaning (.act op next) held l m =
      alone meaning (next (m.exec op l).1 m) held (m.exec op l).1 (m.exec op l).2 := rfl

theorem alone_await (lock : Lock) (op : Op) (next : Program) :
    alone meaning (.await lock op next) held l m =
      if m.guard op l then alone meaning next held (m.exec op l).1 (m.exec op l).2 else .blocked := rfl

@[simp] theorem alone_look (next : Server → Program) :
    alone meaning (look next) held l (m.on s) = alone meaning (next s) held l (m.on s) := rfl

theorem alone_data (update : Server → Server) (next : Server → Program) (table : (update s).table = s.table)
    (root : (update s).rootDir = s.rootDir) :
    alone meaning (data update next) held l (m.on s) = alone meaning (next s) held l (m.on (update s)) := by
  have same : { update s with table := s.table, rootDir := s.rootDir } = update s := by
    rw [← table, ← root]
  change alone meaning (next s) held l (m.on { update s with table := s.table, rootDir := s.rootDir }) = _
  rw [same]

theorem alone_asPrimary (refused : Status → Answer) (next : Program) :
    alone meaning (asPrimary refused next) held l (m.on s) =
      match s.notLeader with
      | some status => .returned (refused status) l (m.on s)
      | none => alone meaning next held l (m.on s) := by
  rw [asPrimary, alone_look]
  cases s.notLeader <;> rfl

theorem alone_getFileEntry (name : String) (next : Program) (free : Mutex.server ∉ held) :
    alone meaning (getFileEntry name next) held l (m.on s) =
      alone meaning next held ⟨some (m.current name), l.access⟩ (m.on (s.getFileEntry name).1) := by
  rw [getFileEntry, alone_lock _ _ _ _ free]
  exact alone_unlock _ held _ .server .server next rfl free

-- getFileEntry waits for the lock its caller holds.
theorem alone_getFileEntry_held (name : String) (next : Program) (taken : Mutex.server ∈ held) :
    alone meaning (getFileEntry name next) held l m = .blocked := if_pos taken

variable (name : String)

theorem alone_acquireWrite (next : Program) :
    alone meaning (acquireWrite next) ∅ ⟨some (m.current name), none⟩ (m.on s) =
      if s.canWrite name then alone meaning next ∅ ⟨some (m.current name), some .writing⟩ (m.on (s.acquireWrite name))
      else .blocked := by
  have announced := s.lookup_setEntry name name fun entry => { entry with waitingWriters := entry.waitingWriters + 1 }
  rw [if_pos rfl] at announced
  have guard : (m.on (s.setEntry name fun entry => { entry with waitingWriters := entry.waitingWriters + 1 })).guard
      .acquireWrite ⟨some (m.current name), none⟩ = s.canWrite name := by
    rw [Memory.guard, Option.bind_some, Memory.entry_on, announced, Server.canWrite]
    cases s.table.lookup name <;> rfl
  have acquired : (s.setEntry name fun entry => { entry with waitingWriters := entry.waitingWriters + 1 }).setEntry name
      (fun entry => { entry with waitingWriters := entry.waitingWriters - 1, activeWriter := true }) =
        s.acquireWrite name := Server.setEntry_setEntry ..
  rw [acquireWrite, alone_lock _ _ _ _ (Finset.notMem_empty _), alone_act]
  simp only [Memory.exec, Memory.update_on]
  rw [alone_await, guard]
  split_ifs
  · simp only [Memory.exec, Memory.update_on]
    rw [acquired]
    exact alone_unlock _ ∅ _ .entry _ next rfl (Finset.notMem_empty _)
  · rfl

theorem alone_releaseWrite (access : Option Access) (next : Program) :
    alone meaning (releaseWrite next) ∅ ⟨some (m.current name), access⟩ (m.on s) =
      alone meaning next ∅ ⟨some (m.current name), none⟩ (m.on (s.releaseWrite name)) := by
  rw [releaseWrite, alone_lock _ _ _ _ (Finset.notMem_empty _), alone_act]
  simp only [Memory.exec, Memory.update_on]
  exact alone_unlock _ ∅ _ .entry _ next rfl (Finset.notMem_empty _)

theorem alone_unlockAndLeave (answer : Answer) (access : Option Access) :
    alone meaning (unlockAndLeave answer) ∅ ⟨some (m.current name), access⟩ (m.on s) =
      .returned answer ⟨none, none⟩ (m.on (s.releaseWrite name)) :=
  alone_releaseWrite m s name access (leave answer)

theorem releaseWrite_tree (tree : Tree) : ({ s with tree := tree }).releaseWrite name = { s.releaseWrite name with tree := tree } := by
  unfold Server.releaseWrite Server.setEntry
  cases s.table.lookup name <;> rfl

variable {change : Server → Option Tree}

theorem onTree_none (failed : change s = none) : onTree change s = s := by
  rw [onTree, failed, Option.getD_none]

theorem onTree_some {tree : Tree} (done : change s = some tree) :
    onTree change s = { s with tree := tree } := by
  rw [onTree, done, Option.getD_some]

theorem createRegistered_agrees (env : Env) (req : CreateRequest) :
    Agrees (alone meaning (createRegistered env req name) ∅ ⟨some (m.current name), some .writing⟩ (m.on s))
      (if s.files.entries.length ≥ maxOpenFiles then
        { s.releaseWrite name with tree := ((removeFile env name s).getD s.tree) }.refuse .resourceExhausted
          "too many open files"
      else
        let s := s.setEntry name fun entry => { entry with version := 0 }
        let opened := s.register name req.clientId req.mode 0 env.finish
        let resp := Response.opened ⟨opened.2, 0, "file created"⟩
        .returned ((opened.1.remember req.requestId resp env.finish).releaseWrite name) (.ok resp) []) := by
  rw [createRegistered, alone_lockServer, alone_look]
  split_ifs with full
  · rw [alone_unlockServer, alone_data m s ∅ _ _ _ rfl rfl, onTree,
      alone_unlockAndLeave, releaseWrite_tree]
    exact agrees_returned m _ _ _
  · obtain ⟨table, reset⟩ := s.setEntry_eq name fun entry => { entry with version := 0 }
    rw [alone_lock _ _ _ _ (by simp [Locals.mutex]), alone_act]
    simp only [Memory.exec, Memory.update_on]
    rw [alone_unlock _ _ _ .entry _ _ rfl (by simp [Locals.mutex]), alone_data _ _ _ _ _ _ rfl rfl,
      alone_unlockServer, alone_unlockAndLeave]
    exact agrees_returned m _ _ _

theorem createLocked_agrees (env : Env) (req : CreateRequest) :
    Agrees (alone meaning (createLocked env req name) ∅ ⟨some (m.current name), some .writing⟩ (m.on s))
      (s.createLocked env req name) := by
  unfold createLocked Server.createLocked
  rw [alone_data m s ∅ _ _ _ rfl rfl]
  dsimp only
  cases dirs : mkdirs env name s with
  | none =>
    rw [show (if env.mkdir = true then s.tree.mkdirAll (s.path name).dropLast else none) = none from dirs,
      onTree_none s dirs]
    rw [alone_unlockAndLeave]
    exact agrees_returned m _ _ _
  | some made =>
    rw [show (if env.mkdir = true then s.tree.mkdirAll (s.path name).dropLast else none) = some made from dirs,
      onTree_some s dirs]
    dsimp only
    rw [alone_data _ _ ∅ _ _ _ rfl rfl]
    have path : Server.path { s with tree := made } name = s.path name := rfl
    rw [path]
    by_cases taken : (made.find (s.path name)).isSome = true
    · have exclusive : openExclusive env name { s with tree := made } = none := if_pos taken
      rw [if_pos taken, if_pos taken, onTree_none _ exclusive, alone_unlockAndLeave, releaseWrite_tree]
      exact agrees_returned m _ _ _
    · have exclusive : openExclusive env name { s with tree := made } =
          if env.openFile then made.writeFile (s.path name) [] else none := if_neg taken
      rw [if_neg taken, if_neg taken]
      cases opens : (if env.openFile = true then made.writeFile (s.path name) [] else none) with
      | none =>
        rw [opens] at exclusive
        rw [exclusive, onTree_none _ exclusive]
        rw [alone_unlockAndLeave, releaseWrite_tree]
        exact agrees_returned m _ _ _
      | some created =>
        rw [opens] at exclusive
        rw [exclusive, onTree_some _ exclusive]
        dsimp only
        have removal : (if env.remove = true then (created.remove (s.path name)).getD created else created) =
            (removeFile env name { s with tree := created }).getD created := by
          unfold removeFile
          split_ifs <;> rfl
        have registered := createRegistered_agrees m { s with tree := created } name env req
        rw [releaseWrite_tree] at registered
        rw [removal]
        exact registered

theorem create_agrees (env : Env) (req : CreateRequest) :
    Agrees (alone meaning (create env req) ∅ ⟨none, none⟩ (m.on s)) (s.create env req) := by
  rw [create, alone_asPrimary, Server.create]
  cases s.notLeader with
  | some status => exact agrees_returned m s _ _
  | none =>
    rw [alone_lockServer, alone_look]
    cases s.cached req.requestId env.start with
    | some response =>
      cases response with
      | opened resp =>
        exact agrees_returned m s _ _
      | closed | written | deleted => rfl
    | none =>
      rw [alone_unlockServer]
      cases normalize req.filename with
      | none => exact agrees_returned m s _ _
      | some safe =>
        dsimp only
        split_ifs
        · exact agrees_returned m s _ _
        · rw [alone_getFileEntry _ _ _ _ _ _ (Finset.notMem_empty _), alone_acquireWrite, if_pos ‹_›]
          exact createLocked_agrees m _ safe env req
        · rw [alone_getFileEntry _ _ _ _ _ _ (Finset.notMem_empty _), alone_acquireWrite, if_neg ‹_›]
          rfl

theorem alone_openRegistered (env : Env) (req : FileRequest) (message : String) (access : Option Access)
    (release : Program → Program) :
    ∃ next answer, s.openRegistered env req name message = .returned next answer [] ∧ next.table = s.table ∧
      alone meaning (openRegistered env req name message release) ∅ ⟨some (m.current name), access⟩ (m.on s) =
        alone meaning (release (leave (.rpc answer []))) ∅ ⟨some (m.current name), access⟩ (m.on next) := by
  rw [openRegistered, Server.openRegistered, alone_lockServer, alone_act]
  by_cases full : s.files.entries.length ≥ maxOpenFiles
  · have branch : (m.on s).server.files.entries.length ≥ maxOpenFiles := full
    rw [if_pos full, if_pos branch]
    exact ⟨s, _, rfl, rfl, alone_unlockServer ..⟩
  · have branch : ¬(m.on s).server.files.entries.length ≥ maxOpenFiles := full
    have pointer : ((m.on s).exec .look ⟨some (m.current name), access⟩).1.entry = some (m.current name) := rfl
    rw [if_neg full, if_neg branch, pointer, Memory.version_view]
    exact ⟨_, _, rfl, rfl, (alone_data m s _ _ _ _ rfl rfl).trans (alone_unlockServer ..)⟩

theorem openRegistered_table {env : Env} {req : FileRequest} {message : String} {table : Map String FileEntry}
    (version : Server.entryVersion { s with table := table } name = s.entryVersion name) {next : Server}
    {answer : Except Status Response} (opened : s.openRegistered env req name message = .returned next answer []) :
    Server.openRegistered env { s with table := table } req name message = .returned { next with table := table } answer [] := by
  unfold Server.openRegistered at opened ⊢
  rw [version]
  split_ifs at opened ⊢
  · cases opened
    rfl
  · cases opened
    rfl

theorem openOutput_agrees (env : Env) (req : FileRequest) :
    Agrees (alone meaning (openOutput env req name) ∅ ⟨some (m.current name), none⟩ (m.on s)) (s.openOutput env req name) := by
  rw [openOutput, Server.openOutput, alone_look]
  split_ifs
  · obtain ⟨next, answer, opened, -, ran⟩ := alone_openRegistered m s name env req "opened output file" none id
    rw [opened, ran]
    exact agrees_returned m next _ _
  · exact agrees_returned m s _ _

theorem alone_acquireReadNoPriority (next : Program) :
    alone meaning (acquireReadNoPriority next) ∅ ⟨some (m.current name), none⟩ (m.on s) =
      if (s.table.lookup name).any fun entry => !entry.activeWriter then
        alone meaning next ∅ ⟨some (m.current name), some .reading⟩
          (m.on (s.setEntry name fun entry => { entry with activeReaders := entry.activeReaders + 1 }))
      else .blocked := by
  rw [acquireReadNoPriority, alone_lock _ _ _ _ (Finset.notMem_empty _), alone_await, Memory.guard,
    Option.bind_some, Memory.entry_on]
  split_ifs
  · simp only [Memory.exec, Memory.update_on]
    exact alone_unlock _ ∅ _ .entry _ next rfl (Finset.notMem_empty _)
  · rfl

theorem alone_releaseRead (access : Option Access) (next : Program) :
    alone meaning (releaseRead next) ∅ ⟨some (m.current name), access⟩ (m.on s) =
      alone meaning next ∅ ⟨some (m.current name), none⟩ (m.on (s.releaseRead name)) := by
  rw [releaseRead, alone_lock _ _ _ _ (Finset.notMem_empty _), alone_act]
  simp only [Memory.exec, Memory.update_on]
  exact alone_unlock _ ∅ _ .entry _ next rfl (Finset.notMem_empty _)

theorem releaseRead_alike {next : Server} (same : next.table = s.table) :
    (Server.releaseRead { next with table := (s.setEntry name fun entry =>
      { entry with activeReaders := entry.activeReaders + 1 }).table } name).Alike next := by
  refine ⟨?_, fun other => ?_⟩
  · obtain ⟨table, changed⟩ := Server.setEntry_eq { next with table := (s.setEntry name fun entry =>
      { entry with activeReaders := entry.activeReaders + 1 }).table } name
        fun entry => { entry with activeReaders := entry.activeReaders - 1 }
    rw [Server.releaseRead, changed]
  · rw [Server.releaseRead, Server.lookup_setEntry, Server.lookup_setEntry, same]
    split_ifs
    · cases s.table.lookup other <;> rfl
    · rfl

theorem openInput_agrees (env : Env) (req : FileRequest) {entry : FileEntry}
    (present : s.table.lookup name = some entry) :
    Agrees (alone meaning (openInput env req name) ∅ ⟨some (m.current name), none⟩ (m.on s)) (s.openInput env req name) := by
  rw [openInput, Server.openInput]
  by_cases mode : req.mode ≠ .read
  · rw [if_pos mode, if_pos mode]
    exact agrees_returned m s _ _
  · rw [if_neg mode, if_neg mode, alone_acquireReadNoPriority, present, Option.any_some, Option.any_some]
    cases entry.activeWriter with
    | true => rfl
    | false =>
      obtain ⟨table, changed⟩ := s.setEntry_eq name fun entry => { entry with activeReaders := entry.activeReaders + 1 }
      have version : Server.entryVersion { s with table := table } name = s.entryVersion name := by
        have raised := s.lookup_setEntry name name fun entry => { entry with activeReaders := entry.activeReaders + 1 }
        rw [changed] at raised
        simp [Server.entryVersion, raised, present]
      have left (next : Server) (same : next.table = s.table) :
          (Server.releaseRead { next with table := table } name).Alike next := by
        have raised := releaseRead_alike s name same
        rw [changed] at raised
        exact raised
      rw [changed, alone_look]
      by_cases opens : (env.openFile && (s.tree.find (s.path name)).isSome) = true
      · obtain ⟨next, answer, opened, same, -⟩ := alone_openRegistered m s name env req "opened input file" none id
        obtain ⟨raised, given, reopened, -, ran⟩ :=
          alone_openRegistered m { s with table := table } name env req "opened input file" (some .reading) releaseRead
        have agree := openRegistered_table s name version opened
        rw [reopened] at agree
        cases agree
        have opens' : (env.openFile && (s.tree.find (Server.path { s with table := table } name)).isSome) = true := opens
        rw [if_pos opens, if_pos opens', opened, ran, alone_releaseRead]
        exact ⟨_, rfl, left next same⟩
      · have opens' : ¬(env.openFile && (s.tree.find (Server.path { s with table := table } name)).isSome) = true := opens
        rw [if_neg opens, if_neg opens', alone_releaseRead]
        exact ⟨_, rfl, left s rfl⟩

theorem openFile_agrees (env : Env) (req : FileRequest) :
    Agrees (alone meaning (openFile env req) ∅ ⟨none, none⟩ (m.on s)) (s.openFile env req) := by
  rw [openFile, alone_asPrimary, Server.openFile]
  cases s.notLeader with
  | some status => exact agrees_returned m s _ _
  | none =>
    rw [alone_lockServer, alone_look]
    cases s.cached req.requestId env.start with
    | some response =>
      cases response with
      | opened resp =>
        exact agrees_returned m s _ _
      | closed | written | deleted => rfl
    | none =>
      rw [alone_unlockServer]
      cases normalize req.filename with
      | none => exact agrees_returned m s _ _
      | some safe =>
        have present := s.getFileEntry_table safe safe
        rw [if_pos rfl] at present
        dsimp only
        rw [alone_getFileEntry _ _ _ _ _ _ (Finset.notMem_empty _)]
        split_ifs
        · exact openInput_agrees m _ safe env req present
        · exact openOutput_agrees m _ safe env req

theorem alone_releaseClaim (ref : Ref) (access : Option Access) (answer : Answer) :
    alone meaning (releaseClaim answer) ∅ ⟨some ref, access⟩ m =
      if (m.entry ref).any FileEntry.cond then
        .returned answer ⟨none, none⟩ (m.setEntry ref fun entry => { entry with activeWriter := false })
      else .panicked := by
  rw [releaseClaim, alone_lock _ _ _ _ (Finset.notMem_empty _), alone_act]
  by_cases ready : (m.entry ref).any FileEntry.cond = true
  · have branch : ((m.exec .releaseWrite ⟨some ref, access⟩).1.entry.bind m.entry).any FileEntry.cond = true := ready
    rw [if_pos ready, if_pos branch]
    exact alone_unlock _ ∅ _ .entry _ (leave answer) rfl (Finset.notMem_empty _)
  · have branch : ¬((m.exec .releaseWrite ⟨some ref, access⟩).1.entry.bind m.entry).any FileEntry.cond = true := ready
    rw [if_neg ready, if_neg branch, alone_panic]

theorem deleteLocked_agrees (env : Env) (req : DeleteRequest) {entry : FileEntry}
    (present : s.table.lookup name = some entry) (there : osStat s.tree (s.path name) ≠ .missing) :
    Agrees (alone meaning (deleteLocked env req name) ∅ ⟨some (m.current name), some .writing⟩ (m.on s))
      (Server.broadcast entry.cond (s.deleteLocked env req name)) := by
  have removal : removes env name s = (removeFile env name s).isSome := by
    unfold removes
    split
    · contradiction
    · rfl
  unfold deleteLocked Server.deleteLocked
  rw [alone_data m s ∅ _ _ _ rfl rfl, removal]
  cases removed : removeFile env name s with
  | none =>
    rw [show (if env.remove = true then s.tree.remove (s.path name) else none) = none from removed,
      onTree_none s removed, Option.isSome_none, if_neg Bool.false_ne_true, alone_releaseClaim, Memory.entry_on, present,
      Option.any_some]
    cases entry.cond with
    | false => rfl
    | true =>
      rw [Memory.setEntry_on]
      exact agrees_returned m _ _ _
  | some left =>
    rw [show (if env.remove = true then s.tree.remove (s.path name) else none) = some left from removed,
      onTree_some s removed, Option.isSome_some, if_pos rfl, alone_lockServer, alone_act]
    let after : Server := Server.remember
      { s with tree := left, table := s.table.erase name, filesPrimes := s.filesPrimes.erase name }
      req.requestId (.deleted ⟨"File is deleted"⟩) env.finish
    have lost := (m.on { s with tree := left }).entry_lost after name { s with tree := left, table := s.table.erase name }
    have kept := (m.on { s with tree := left }).setEntry_lost after name { s with tree := left, table := s.table.erase name }
    rw [Memory.current_on] at lost kept
    have ran := (alone_unlockServer
      (((m.on { s with tree := left }).replace name { s with tree := left, table := s.table.erase name }).on after)
      ⟨some (m.current name), some .writing⟩ (releaseClaim (.rpc (.ok (.deleted ⟨"File is deleted"⟩)) []))).trans
        (alone_releaseClaim ..)
    rw [lost, Memory.on_server, present, Option.any_some] at ran
    cases ready : entry.cond with
    | false =>
      rw [ready] at ran
      exact ran
    | true =>
      rw [ready] at ran
      refine ⟨_, ran, ?_⟩
      rw [kept]
      exact .refl after

theorem alreadyDeleted_agrees (env : Env) (req : DeleteRequest) (access : Option Access) (pointer : Option Ref) :
    Agrees (alone meaning (alreadyDeleted env req) ∅ ⟨pointer, access⟩ (m.on s))
      (.returned (s.remember req.requestId (.deleted ⟨"File is already deleted"⟩) env.finish)
        (.ok (.deleted ⟨"File is already deleted"⟩)) []) := by
  exact agrees_returned m _ _ _

theorem alone_findEntry (absent found : Program) :
    alone meaning (lock .server <| act (.findEntry name) fun l _ => unlock .server <|
        if l.entry.isNone then absent else found) ∅ ⟨none, none⟩ (m.on s) =
      match s.table.lookup name with
      | none => alone meaning absent ∅ ⟨none, none⟩ (m.on s)
      | some _ => alone meaning found ∅ ⟨some (m.current name), none⟩ (m.on s) := by
  have looked : (m.on s).exec (.findEntry name) ⟨none, none⟩ =
      (⟨(s.table.lookup name).map fun _ => m.current name, none⟩, m.on s) := rfl
  rw [alone_lockServer, alone_act, looked]
  cases s.table.lookup name <;> rfl

theorem claim_agrees (env : Env) (req : DeleteRequest) (there : osStat s.tree (s.path name) ≠ .missing) :
    Agrees (alone meaning (lock .server <| act (.findEntry name) fun l _ => unlock .server <|
        if l.entry.isNone then alreadyDeleted env req
        else
          lock .entry <| act .claimWrite fun l _ => unlock .entry <|
            if l.access = some .writing then deleteLocked env req name
            else leave (refuse .failedPrecondition "file is currently in use by another client"))
        ∅ ⟨none, none⟩ (m.on s))
      (match s.table.lookup name with
      | none => .returned (s.remember req.requestId (.deleted ⟨"File is already deleted"⟩) env.finish)
          (.ok (.deleted ⟨"File is already deleted"⟩)) []
      | some entry =>
          if entry.activeReaders > 0 || entry.activeWriter then
            s.refuse .failedPrecondition "file is currently in use by another client"
          else Server.broadcast entry.cond ((s.acquireWrite name).deleteLocked env req name)) := by
  rw [alone_findEntry]
  cases present : s.table.lookup name with
  | none => exact alreadyDeleted_agrees m s env req none none
  | some entry =>
    have acquired := s.lookup_setEntry name name fun entry => { entry with activeWriter := true }
    rw [if_pos rfl, present] at acquired
    obtain ⟨table, changed⟩ := s.acquireWrite_eq name
    have still : osStat (s.acquireWrite name).tree ((s.acquireWrite name).path name) ≠ .missing := by
      rw [changed]
      exact there
    dsimp only
    rw [alone_lock _ _ _ _ (Finset.notMem_empty _), alone_act]
    have guard : (m.on s).guard .claimWrite ⟨some (m.current name), none⟩ = entry.canWrite := by
      rw [Memory.guard, Option.bind_some, Memory.entry_on, present, Option.any_some]
    have used : (decide (entry.activeReaders > 0) || entry.activeWriter) = !entry.canWrite := by
      cases readers : entry.activeReaders <;> simp [FileEntry.canWrite, readers]
    rw [used, Memory.exec, guard]
    cases entry.canWrite with
    | false =>
      rw [if_neg Bool.false_ne_true, alone_unlock _ ∅ _ .entry _ _ rfl (Finset.notMem_empty _)]
      exact agrees_returned m s _ _
    | true =>
      have claimed := deleteLocked_agrees m (s.acquireWrite name) name env req acquired still
      have released : alone meaning (unlock .entry (deleteLocked env req name)) (insert (.entry (some (m.current name))) ∅)
          ⟨some (m.current name), some .writing⟩ (m.on (s.acquireWrite name)) = _ :=
        alone_unlock _ ∅ _ .entry _ _ rfl (Finset.notMem_empty _)
      rw [Memory.update_on]
      rw [← released] at claimed
      exact claimed

theorem delete_agrees (env : Env) (req : DeleteRequest) :
    Agrees (alone meaning (delete env req) ∅ ⟨none, none⟩ (m.on s)) (s.delete env req) := by
  rw [delete, alone_asPrimary, Server.delete]
  cases s.notLeader with
  | some status => exact agrees_returned m s _ _
  | none =>
    rw [alone_lockServer, alone_look]
    cases s.cached req.requestId env.start with
    | some response =>
      cases response with
      | deleted resp =>
        exact agrees_returned m s _ _
      | closed | written | opened => rfl
    | none =>
      rw [alone_unlockServer]
      cases normalize req.filename with
      | none => exact agrees_returned m s _ _
      | some safe =>
        dsimp only
        split_ifs
        · exact agrees_returned m s _ _
        · rw [alone_look]
          have claimed := claim_agrees m s safe env req
          cases stat : osStat s.tree (s.path safe) with
          | missing => exact alreadyDeleted_agrees m s env req none none
          | failed =>
            rw [stat] at claimed
            cases present : s.table.lookup safe <;> (rw [present] at claimed; exact claimed (by simp))
          | found node =>
            cases node with
            | dir => exact agrees_returned m s _ _
            | file content =>
              rw [stat] at claimed
              cases present : s.table.lookup safe <;> (rw [present] at claimed; exact claimed (by simp))

def released (call : Call) (s : Server) : Server :=
  if call.req.dirty then s.releaseWrite call.name else s

theorem alone_answerCall (env : Env) (call : Call) (sent : List AppendEntriesRequest) (version : Int32)
    (access : Option Access) :
    alone meaning (answerCall env call sent version) ∅ ⟨some (m.current call.name), access⟩ (m.on s) =
      .returned (.rpc (.ok (call.response version)) sent) ⟨none, none⟩
        (m.on (released call ((s.dropClient call).remember call.req.requestId (call.response version) env.finish))) := by
  have remembered (s : Server) :
      alone meaning (lock .server <| data (fun s => s.remember call.req.requestId (call.response version) env.finish)
          fun _ => unlock .server <|
            if call.req.dirty then unlockAndLeave (.rpc (.ok (call.response version)) sent)
            else leave (.rpc (.ok (call.response version)) sent))
        ∅ ⟨some (m.current call.name), access⟩ (m.on s) =
      .returned (.rpc (.ok (call.response version)) sent) ⟨none, none⟩
        (m.on (released call (s.remember call.req.requestId (call.response version) env.finish))) := by
    rw [alone_lockServer, alone_data _ _ _ _ _ _ rfl rfl, alone_unlockServer, released]
    split_ifs
    · exact alone_unlockAndLeave ..
    · rfl
  obtain ⟨files, dropped⟩ := s.dropClient_eq call
  unfold answerCall
  cases kind : call.kind with
  | close =>
    rw [alone_lockServer, alone_lock _ _ _ _ (by simp [Locals.mutex]),
      alone_data _ _ _ _ _ _ (by rw [dropped]) (by rw [dropped]), alone_unlock _ _ _ (.file call.req.fd) _ _ rfl (by simp [Locals.mutex]),
      alone_unlockServer]
    exact remembered _
  | write =>
    have kept : s.dropClient call = s := by rw [Server.dropClient, kind]
    rw [kept]
    exact remembered s

theorem alone_finishCall (env : Env) (call : Call) (sent : List AppendEntriesRequest) (access : Option Access) :
    alone meaning (finishCall env call sent) ∅ ⟨some (m.current call.name), access⟩ (m.on s) =
      .returned (.rpc (.ok (s.finishCall env call).2) sent) ⟨none, none⟩
        (m.on (released call (s.finishCall env call).1)) := by
  rw [finishCall, alone_lock _ _ _ _ (Finset.notMem_empty _), Server.finishCall, Server.bumpVersion]
  split_ifs
  · rw [alone_act]
    simp only [Memory.exec, Memory.update_on]
    rw [alone_act]
    simp only [Memory.exec, Memory.version_view]
    rw [alone_data _ _ _ _ _ _ rfl rfl, alone_unlock _ ∅ _ .entry _ _ rfl (Finset.notMem_empty _)]
    exact alone_answerCall ..
  · rw [alone_act]
    simp only [Memory.exec, Memory.version_view]
    rw [alone_unlock _ ∅ _ .entry _ _ rfl (Finset.notMem_empty _)]
    exact alone_answerCall ..

def endCall (env : Env) (call : Call) (committed : Server × Option Status × List AppendEntriesRequest) : Result :=
  match committed.2.1 with
  | some status => .returned (committed.1.releaseWrite call.name) (.error status) committed.2.2
  | none =>
      let finished := committed.1.finishCall env call
      .returned (finished.1.releaseWrite call.name) (.ok finished.2) committed.2.2

section Dirty

variable (call : Call) (access : Option Access)

theorem failedCall_agrees (env : Env) (status : Status) (sent : List AppendEntriesRequest) :
    Agrees (alone meaning (unlockAndLeave (.rpc (.error status) sent)) ∅ ⟨some (m.current call.name), access⟩ (m.on s))
      (endCall env call (s, some status, sent)) := by
  rw [alone_unlockAndLeave]
  exact agrees_returned m _ _ _

theorem finishCall_agrees (env : Env) (sent : List AppendEntriesRequest) (dirty : call.req.dirty = true) :
    Agrees (alone meaning (finishCall env call sent) ∅ ⟨some (m.current call.name), access⟩ (m.on s))
      (endCall env call (s, none, sent)) := by
  rw [alone_finishCall, released, if_pos dirty]
  exact agrees_returned m _ _ _

theorem updatePrimes_agrees (env : Env) (primes : FilePrimeSet) (sent : List AppendEntriesRequest)
    (dirty : call.req.dirty = true) :
    Agrees (alone meaning (updatePrimes env call primes sent) ∅ ⟨some (m.current call.name), access⟩ (m.on s))
      (endCall env call ((s.updatePrimes env call primes).1, (s.updatePrimes env call primes).2, sent)) := by
  unfold updatePrimes Server.updatePrimes
  cases call.kind with
  | close =>
    rw [alone_lockServer, alone_data _ _ _ _ _ _ rfl rfl, alone_unlockServer]
    exact finishCall_agrees m _ call access env sent dirty
  | write =>
    obtain ⟨tree, same⟩ := s.appendUnique_eq env call.filename (s.tempPrimeSet call).1
    dsimp only
    rw [alone_lockServer, alone_look, alone_unlockServer, alone_data _ _ _ _ _ _ (by rw [same]) (by rw [same])]
    cases (s.appendUnique env call.filename (s.tempPrimeSet call).1).2 with
    | some status => exact failedCall_agrees m _ call access env status sent
    | none =>
      rw [alone_lockServer, alone_data _ _ _ _ _ _ rfl rfl]
      exact finishCall_agrees m _ call access env sent dirty

theorem commit_agrees (env : Env) (primes : FilePrimeSet) (entry : LogEntry) (round : AppendEntriesRequest)
    (dirty : call.req.dirty = true) :
    Agrees (alone meaning (commit env call primes entry round) ∅ ⟨some (m.current call.name), access⟩ (m.on s))
      (endCall env call (((s.commitEntry env.apply entry).updatePrimes env call primes).1,
        ((s.commitEntry env.apply entry).updatePrimes env call primes).2,
        [round, sendAppendEntry (s.commitEntry env.apply entry).id entry (s.commitEntry env.apply entry).commitIndex])) := by
  have committed := s.commitEntry_eq env.apply entry
  rw [commit, alone_lockServer, alone_data _ _ _ _ _ _ (by rw [committed]; rfl) (by rw [committed]; rfl),
    alone_unlockServer, alone_look]
  exact updatePrimes_agrees m _ call access env primes _ dirty

theorem replicate_agrees (env : Env) (primes : FilePrimeSet) (entry : LogEntry) (dirty : call.req.dirty = true) :
    Agrees (alone meaning (replicate env call primes entry) ∅ ⟨some (m.current call.name), access⟩ (m.on s))
      (endCall env call
        (if Server.ackCount (s.majority call.kind) 1 env.answers < s.majority call.kind then
          (s, some ⟨.unavailable, "failed to reach majority"⟩, [sendAppendEntry s.id entry s.commitIndex])
        else
          let next := s.commitEntry env.apply entry
          let updated := next.updatePrimes env call primes
          (updated.1, updated.2, [sendAppendEntry s.id entry s.commitIndex, sendAppendEntry next.id entry next.commitIndex]))) := by
  have counted (next : Nat → Program) :
      alone meaning (countMajority call.kind next) ∅ ⟨some (m.current call.name), access⟩ (m.on s) =
        alone meaning (next (s.majority call.kind)) ∅ ⟨some (m.current call.name), access⟩ (m.on s) := by
    cases call.kind with
    | close => rfl
    | write => rw [countMajority, alone_lockServer, alone_look, alone_unlockServer]
  rw [replicate, alone_look, counted]
  split_ifs
  · exact failedCall_agrees m s call access env _ _
  · exact commit_agrees m s call access env primes entry _ dirty

variable [LogCodec]

variable {primes : FilePrimeSet}

theorem persist_agrees {env : Env} {entry : LogEntry} (dirty : call.req.dirty = true)
    (copied : call.kind = .close → primes = (s.tempPrimeSet call).2)
    (made : entry = s.logEntry call (s.content env.range call) s.log.length) :
    Agrees (alone meaning (lock .server <| data (fun s => (s.appendLog env.persist entry).1) fun s => unlock .server <|
        if (s.appendLog env.persist entry).2 then replicate env call primes entry
        else unlockAndLeave (refuse .internal "log persist failed")) ∅ ⟨some (m.current call.name), access⟩ (m.on s))
      (endCall env call (s.commitCall env call)) := by
  -- Only Close writes the set it is given.
  have primed (t : Server) : t.updatePrimes env call (s.tempPrimeSet call).2 = t.updatePrimes env call primes := by
    unfold Server.updatePrimes
    cases kind : call.kind with
    | close => rw [copied kind]
    | write => rfl
  obtain ⟨logFile, logged⟩ := appendLog_eq env.persist s entry
  rw [alone_lockServer, alone_data _ _ _ _ _ _ (by rw [logged]) (by rw [logged]), alone_unlockServer, Server.commitCall]
  rw [← made]
  cases (s.appendLog env.persist entry).2 with
  | false => exact failedCall_agrees m _ call access env _ _
  | true =>
    simp only [primed]
    exact replicate_agrees m _ call access env primes _ dirty

theorem appendCall_agrees (env : Env) (dirty : call.req.dirty = true)
    (copied : call.kind = .close → primes = (s.tempPrimeSet call).2) :
    Agrees (alone meaning (appendCall env call primes (s.content env.range call)) ∅ ⟨some (m.current call.name), access⟩ (m.on s))
      (endCall env call (s.commitCall env call)) := by
  have made : ((m.on s).view (some (m.current call.name))).logEntry call (s.content env.range call) s.log.length =
      s.logEntry call (s.content env.range call) s.log.length := by
    rw [Server.logEntry, Server.logEntry, Memory.version_view]
  exact persist_agrees m s call access dirty copied made

theorem lockedCall_agrees (env : Env) (dirty : call.req.dirty = true) :
    Agrees (alone meaning (lockedCall env call) ∅ ⟨some (m.current call.name), access⟩ (m.on s))
      (match s.refusal call with
      | some status => .returned (s.releaseWrite call.name) (.error status) []
      | none => endCall env call (s.commitCall env call)) := by
  have refused : ((m.on s).view (some (m.current call.name))).refusal call = s.refusal call := by
    rw [Server.refusal, Server.refusal, Memory.version_view]
  rw [lockedCall, alone_act]
  simp only [Memory.exec]
  rw [refused]
  cases s.refusal call with
  | some status =>
    rw [alone_unlockAndLeave]
    exact agrees_returned m _ _ _
  | none =>
    cases kind : call.kind with
    | close =>
      rw [alone_lockServer, alone_look, alone_unlockServer]
      exact appendCall_agrees m s call access env dirty fun _ => rfl
    | write =>
      have content : s.content env.range call = call.req.data := by rw [Server.content, kind]
      rw [← content]
      exact appendCall_agrees m s call access env dirty fun closes => by rw [kind] at closes; cases closes

end Dirty

theorem alone_relocked (kind : Kind) (found : Program) :
    alone meaning (match kind with | .close => unlock .server (lock .server found) | .write => found)
      (insert .server ∅) ⟨none, none⟩ (m.on s) = alone meaning found (insert .server ∅) ⟨none, none⟩ (m.on s) := by
  cases kind with
  | close => exact (alone_unlockServer ..).trans (alone_lockServer ..)
  | write => rfl

theorem handleCall_agrees [LogCodec] (kind : Kind) (env : Env) (req : DataRequest) :
    Agrees (alone meaning (handleCall kind env req) ∅ ⟨none, none⟩ (m.on s)) (s.handleCall kind env req) := by
  rw [handleCall, alone_asPrimary, Server.handleCall, Server.beginCall]
  cases s.notLeader with
  | some status => exact agrees_returned m s _ _
  | none =>
    rw [alone_lockServer, alone_look]
    cases s.cachedCall kind req.requestId env.start with
    | some response =>
      cases response with
      | some resp =>
        exact agrees_returned m s _ _
      | none => rfl
    | none =>
      refine Eq.mpr (congrArg (Agrees · _) (alone_relocked m s kind _)) ?_
      rw [alone_look]
      cases s.files.lookup req.fd with
      | none =>
        exact agrees_returned m s _ _
      | some found =>
        dsimp only
        cases found.clients.lookup req.clientID with
        | none => exact alone_getFileEntry_held _ _ _ _ _ (Finset.mem_insert_self ..)
        | some client =>
          dsimp only
          rw [alone_unlockServer, alone_getFileEntry _ _ _ _ _ _ (Finset.notMem_empty _)]
          cases dirty : req.dirty with
          | false =>
            rw [if_neg Bool.false_ne_true, if_neg Bool.false_ne_true, alone_finishCall, released,
              if_neg (by simp [dirty])]
            exact agrees_returned m _ _ _
          | true =>
            rw [if_pos rfl, alone_acquireWrite]
            cases writable : (s.getFileEntry (Call.name ⟨kind, req, found.filename, client.mode⟩)).1.canWrite
                (Call.name ⟨kind, req, found.filename, client.mode⟩) with
            | false => rfl
            | true => exact lockedCall_agrees m _ ⟨kind, req, found.filename, client.mode⟩ _ env dirty

theorem alone_testAuth (filename : String) :
    ∃ locals, alone meaning (testAuth filename) ∅ ⟨none, none⟩ (m.on s) =
      .returned (.version (s.testAuth filename)) locals (m.on s) := by
  rw [testAuth, alone_asPrimary, Server.testAuth]
  cases s.notLeader with
  | some status => exact ⟨_, rfl⟩
  | none =>
    cases normalize filename with
    | none => exact ⟨_, rfl⟩
    | some safe =>
      dsimp only
      rw [alone_findEntry]
      cases present : s.table.lookup safe with
      | none => exact ⟨_, rfl⟩
      | some entry =>
        have version : s.entryVersion safe = entry.version := by rw [Server.entryVersion, present]
        rw [alone_lock _ _ _ _ (Finset.notMem_empty _), alone_act]
        simp only [Memory.exec, Memory.version_view]
        rw [alone_unlock _ ∅ _ .entry _ _ rfl (Finset.notMem_empty _), version]
        exact ⟨_, rfl⟩

theorem setClients_some {fd : Int32} {found : FileMeta} (present : s.files.lookup fd = some found)
    (change : Map String ClientState → Map String ClientState) :
    setClients s fd change = { s with files := s.files.insert fd { found with clients := change found.clients } } := by
  rw [setClients, present]

def streamed (m : Memory) (result : Server × List Bytes × Option Status) : Verdict Locals Memory Answer :=
  .returned (.stream result.2.1 result.2.2) ⟨none, none⟩ (m.on result.1)

theorem alone_ends (fd : Int32) (chunks : List Bytes) (status : Option Status) :
    alone meaning (unlock (.file fd) (done (Answer.stream chunks status))) (insert (.file fd) ∅) ⟨none, none⟩ (m.on s) =
      streamed m (s, chunks, status) :=
  alone_unlock (m.on s) ∅ ⟨none, none⟩ (.file fd) _ _ rfl (Finset.notMem_empty _)

theorem alone_readLocked (io : ReadAnswers) {req : ReadRequest} (key : FileKey) {fd : Int32} {found : FileMeta}
    {state : ClientState} (present : s.files.lookup fd = some found)
    (registered : found.clients.lookup req.clientID = some state) :
    alone meaning (readLocked io req key fd) ∅ ⟨none, none⟩ (m.on s) =
      streamed m (if io.now - state.lastSeen > leaseTimeout then
          ({ s with
              openMap := s.openMap.erase key
              files := s.files.insert fd { found with clients := found.clients.erase req.clientID } },
            [], some ⟨.permissionDenied, "lease expired"⟩)
        else
          let clients := found.clients.insert req.clientID { state with lastSeen := io.now }
          let s := { s with files := s.files.insert fd { found with clients := clients } }
          if io.seek then (s, Server.streamChunks io) else (s, [], some ⟨.internal, "seek failed"⟩)) := by
  have mine : client s fd req.clientID = some state := by
    rw [client, present, Option.bind_some, registered]
  have free : Mutex.server ∉ (insert (Locals.mutex ⟨none, none⟩ (.file fd)) ∅ : Finset Mutex) := by simp [Locals.mutex]
  rw [readLocked, alone_lock _ _ _ _ (Finset.notMem_empty _), alone_look, mine]
  dsimp only
  split_ifs with expired seek
  · have kept := setClients_some { s with openMap := s.openMap.erase key } present
    rw [alone_lock _ _ _ _ free, alone_data _ _ _ _ _ _ rfl rfl, alone_unlock _ _ ⟨none, none⟩ .server _ _ rfl free,
      alone_data _ _ _ _ _ _ (by rw [kept]) (by rw [kept]), kept]
    exact alone_ends ..
  · have kept := setClients_some s present
    rw [alone_data _ _ _ _ _ _ (by rw [kept]) (by rw [kept]), kept]
    exact alone_ends ..
  · have kept := setClients_some s present
    rw [alone_data _ _ _ _ _ _ (by rw [kept]) (by rw [kept]), kept]
    exact alone_ends ..

theorem alone_read (io : ReadAnswers) (req : ReadRequest) :
    alone meaning (read io req) ∅ ⟨none, none⟩ (m.on s) = streamed m (s.read io req) := by
  rw [read, alone_asPrimary, Server.read]
  cases s.notLeader with
  | some status => rfl
  | none =>
    cases normalize req.filename with
    | none => rfl
    | some safe =>
      dsimp only
      rw [alone_lockServer, alone_look, alone_unlockServer]
      cases s.openMap.lookup ⟨req.clientID, safe⟩ with
      | none => rfl
      | some fd =>
        dsimp only
        cases present : s.files.lookup fd with
        | none => rfl
        | some found =>
          have state : client s fd req.clientID = found.clients.lookup req.clientID := by
            rw [client, present, Option.bind_some]
          dsimp only
          rw [Option.isNone_some, if_neg Bool.false_ne_true, alone_look, state]
          cases registered : found.clients.lookup req.clientID with
          | none => rfl
          | some client =>
            dsimp only
            by_cases mode : client.mode ≠ .read ∧ client.mode ≠ .write ∧ client.mode ≠ .other 2
            · rw [if_pos mode, if_pos mode]
              rfl
            · rw [if_neg mode, if_neg mode]
              exact alone_readLocked m s io _ present registered

section Snapshots

variable (outside : ∀ pointer, Mutex.entry pointer ∉ held) (pointer : Option Ref)

include outside

end Snapshots

end Program

theorem Rpc.program_agrees [LogCodec] (m : Memory) (s : Server) (env : Env) (rpc : Rpc) :
    Agrees (alone meaning (rpc.program env) ∅ ⟨none, none⟩ (m.on s)) (s.serve env rpc) := by
  cases rpc with
  | create req => exact Program.create_agrees m s env req
  | openFile req => exact Program.openFile_agrees m s env req
  | close req => exact Program.handleCall_agrees m s .close env req
  | write req => exact Program.handleCall_agrees m s .write env req
  | delete req => exact Program.delete_agrees m s env req

end Ikkat
