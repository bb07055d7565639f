import Ikkat.Replication

set_option autoImplicit false

namespace Ikkat

variable {s next : Server} {safe : String} {before after : Tree} {path : Path}

-- `blocked` is a handler that waits for a lock nobody will release to it, `panicked` one that takes
-- the process down. `sent` goes to every peer.
inductive Result where
  | returned (s : Server) (answer : Except Status Response) (sent : List AppendEntriesRequest)
  | panicked (s : Server)
  | blocked

def Result.answered : Result → Option Server
  | .returned s (.ok _) _ => some s
  | _ => none

theorem Result.answered_eq {result : Result} (done : result.answered = some s) :
    ∃ response sent, result = .returned s (.ok response) sent := by
  unfold Result.answered at done
  split at done
  case h_1 next response sent => exact ⟨response, sent, by rw [Option.some.inj done]⟩
  case h_2 => cases done

def Response.isOpened : Response → Bool
  | .opened _ => true
  | _ => false

def Response.isDeleted : Response → Bool
  | .deleted _ => true
  | _ => false

-- What happens around one request: the clock, the order a range loop takes, the acknowledgements
-- that arrive before the timeout and the answers of the operating system.
structure Env where
  start : Time := 0
  finish : Time := 0
  range : RangeOrder := RangeOrder.stored
  answers : List (String × Bool) := []
  persist : Outcome := .done
  apply : Nat → ApplyIO := fun _ => .ok
  saveMeta : Outcome := .done
  mkdir : Bool := true
  openFile : Bool := true
  remove : Bool := true
  tmpOpen : Bool := true
  tmpWrite : Outcome := .done
  srcOpen : Bool := true
  dstOpen : Bool := true
  copy : Outcome := .done
  reason : String := "input/output error"

structure CreateRequest where
  requestId : String
  filename : String
  clientId : String
  mode : FileMode
  deriving DecidableEq, Repr

structure FileRequest where
  requestId : String
  filename : String
  mode : FileMode
  clientId : String
  deriving DecidableEq, Repr

structure DeleteRequest where
  requestId : String
  filename : String
  deriving DecidableEq, Repr

inductive Stat where
  | found (node : FileTree.Node Bytes)
  | missing
  | failed

-- A path below a regular file is an error other than os.ErrNotExist.
def osStat (tree : Tree) (path : Path) : Stat :=
  match tree.find path with
  | some node => .found node
  | none =>
      let blockedBy (count : Nat) : Bool :=
        match tree.find (path.take count) with
        | some (.file _) => true
        | _ => false
      if (List.range path.length).any blockedBy then .failed else .missing

def osOpen (tree : Tree) (path : Path) (mode : FileMode) : Bool :=
  match tree.find path with
  | none => false
  | some (.file _) => true
  | some .dir => mode ≠ .write

namespace Server

def notLeader (s : Server) : Option Status :=
  if s.role = .primary then none
  else if s.primaryID = "" then some ⟨.unavailable, "no leader elected yet"⟩
  else
    match s.servers.lookup s.primaryID with
    | none => some ⟨.internal, "leader info missing"⟩
    | some leader => some ⟨.failedPrecondition, "not leader: " ++ leader.address⟩

def cached (s : Server) (requestId : String) (now : Time) : Option Response :=
  match s.requests.lookup requestId with
  | none => none
  | some entry => if now - entry.timestamp < requestCacheTTL then some entry.response else none

def remember (s : Server) (requestId : String) (response : Response) (now : Time) : Server :=
  { s with requests := s.requests.insert requestId ⟨response, now⟩ }

def setEntry (s : Server) (name : String) (update : FileEntry → FileEntry) : Server :=
  match s.table.lookup name with
  | none => s
  | some entry => { s with table := s.table.insert name (update entry) }

def canWrite (s : Server) (name : String) : Bool :=
  match s.table.lookup name with
  | none => false
  | some entry => entry.canWrite

def acquireWrite (s : Server) (name : String) : Server :=
  s.setEntry name fun entry => { entry with activeWriter := true }

def releaseWrite (s : Server) (name : String) : Server :=
  s.setEntry name fun entry => { entry with activeWriter := false }

def entryVersion (s : Server) (name : String) : Int32 :=
  match s.table.lookup name with
  | none => 0
  | some entry => entry.version

def register (s : Server) (safe clientID : String) (mode : FileMode) (version : Int32) (now : Time) :
    Server × Int32 :=
  let fd := s.nextFD
  let opened : FileMeta :=
    { file := s.path safe, filename := safe, version := version
      clients := (∅ : Map String ClientState).insert clientID ⟨now, mode⟩ }
  ({ s with
      nextFD := s.nextFD + 1
      files := s.files.insert fd opened
      openMap := s.openMap.insert ⟨clientID, safe⟩ fd }, fd)

def refuse (s : Server) (code : Code) (message : String) : Result :=
  .returned s (.error ⟨code, message⟩) []

def createLocked (env : Env) (s : Server) (req : CreateRequest) (safe : String) : Result :=
  let full := s.path safe
  let unlocked := s.releaseWrite safe
  match if env.mkdir then s.tree.mkdirAll full.dropLast else none with
  | none => unlocked.refuse .unknown env.reason
  | some made =>
      let unlocked := { unlocked with tree := made }
      if (made.find full).isSome then unlocked.refuse .alreadyExists "file exists"
      else
        match if env.openFile then made.writeFile full [] else none with
        | none => unlocked.refuse .unknown env.reason
        | some created =>
            if s.files.entries.length ≥ maxOpenFiles then
              let left := if env.remove then (created.remove full).getD created else created
              { unlocked with tree := left }.refuse .resourceExhausted "too many open files"
            else
              let s := ({ s with tree := created }).setEntry safe fun entry => { entry with version := 0 }
              let opened := s.register safe req.clientId req.mode 0 env.finish
              let resp := Response.opened ⟨opened.2, 0, "file created"⟩
              .returned ((opened.1.remember req.requestId resp env.finish).releaseWrite safe) (.ok resp) []

def create (env : Env) (s : Server) (req : CreateRequest) : Result :=
  match s.notLeader with
  | some status => .returned s (.error status) []
  | none =>
      match s.cached req.requestId env.start with
      | some (.opened resp) => .returned s (.ok (.opened resp)) []
      | some _ => .panicked s
      | none =>
          match normalize req.filename with
          | none => s.refuse .unknown "invalid path"
          | some safe =>
              if !(hasPrefix "output/" safe || hasPrefix "output\\" safe) then
                s.refuse .permissionDenied "only output/"
              else
                let s := (s.getFileEntry safe).1
                if s.canWrite safe then createLocked env (s.acquireWrite safe) req safe else .blocked

def openRegistered (env : Env) (s : Server) (req : FileRequest) (safe message : String) : Result :=
  if s.files.entries.length ≥ maxOpenFiles then s.refuse .resourceExhausted "too many open files"
  else
    let version := s.entryVersion safe
    let opened := s.register safe req.clientId req.mode version env.finish
    let resp := Response.opened ⟨opened.2, version, message⟩
    .returned (opened.1.remember req.requestId resp env.finish) (.ok resp) []

-- An input file needs its read lock, which a writer of it would hold back.
def openInput (env : Env) (s : Server) (req : FileRequest) (safe : String) : Result :=
  if req.mode ≠ .read then s.refuse .permissionDenied "input files are read-only"
  else if (s.table.lookup safe).any (·.activeWriter) then .blocked
  else if env.openFile && (s.tree.find (s.path safe)).isSome then
    openRegistered env s req safe "opened input file"
  else s.refuse .notFound "input file not found"

def openOutput (env : Env) (s : Server) (req : FileRequest) (safe : String) : Result :=
  if env.openFile && osOpen s.tree (s.path safe) req.mode then
    openRegistered env s req safe "opened output file"
  else s.refuse .notFound "output file not found"

def openFile (env : Env) (s : Server) (req : FileRequest) : Result :=
  match s.notLeader with
  | some status => .returned s (.error status) []
  | none =>
      match s.cached req.requestId env.start with
      | some (.opened resp) => .returned s (.ok (.opened resp)) []
      | some _ => .panicked s
      | none =>
          match normalize req.filename with
          | none => s.refuse .unknown "invalid path"
          | some safe =>
              let s := (s.getFileEntry safe).1
              if hasPrefix "input/" safe then openInput env s req safe else openOutput env s req safe

def deleteLocked (env : Env) (s : Server) (req : DeleteRequest) (safe : String) : Result :=
  match if env.remove then s.tree.remove (s.path safe) else none with
  | none => (s.releaseWrite safe).refuse .internal env.reason
  | some left =>
      let resp := Response.deleted ⟨"File is deleted"⟩
      let s :=
        { s with tree := left, table := s.table.erase safe, filesPrimes := s.filesPrimes.erase safe }
      .returned (s.remember req.requestId resp env.finish) (.ok resp) []

-- The deferred function broadcasts on the entry's condition variable, whatever the outcome.
def broadcast (ready : Bool) (result : Result) : Result :=
  match result with
  | .returned s answer sent => if ready then .returned s answer sent else .panicked s
  | other => other

def delete (env : Env) (s : Server) (req : DeleteRequest) : Result :=
  match s.notLeader with
  | some status => .returned s (.error status) []
  | none =>
      match s.cached req.requestId env.start with
      | some (.deleted resp) => .returned s (.ok (.deleted resp)) []
      | some _ => .panicked s
      | none =>
          let absent := Response.deleted ⟨"File is already deleted"⟩
          let gone := Result.returned (s.remember req.requestId absent env.finish) (.ok absent) []
          match normalize req.filename with
          | none => s.refuse .unknown "invalid path"
          | some safe =>
              if hasPrefix "input/" safe then
                s.refuse .permissionDenied "cannot delete input files"
              else
                match osStat s.tree (s.path safe), s.table.lookup safe with
                | .missing, _ => gone
                | .found .dir, _ => s.refuse .invalidArgument "cannot delete directory"
                | _, none => gone
                | _, some entry =>
                    if entry.activeReaders > 0 || entry.activeWriter then
                      s.refuse .failedPrecondition "file is currently in use by another client"
                    else broadcast entry.cond (deleteLocked env (s.acquireWrite safe) req safe)

end Server

namespace Server

theorem setEntry_eq (s : Server) (name : String) (update : FileEntry → FileEntry) :
    ∃ table, s.setEntry name update = { s with table := table } := by
  unfold setEntry
  split <;> exact ⟨_, rfl⟩

theorem lookup_setEntry (s : Server) (name other : String) (update : FileEntry → FileEntry) :
    (s.setEntry name update).table.lookup other =
      if other = name then (s.table.lookup other).map update else s.table.lookup other := by
  unfold setEntry
  split_ifs with same
  · subst same
    split
    case h_1 absent => rw [absent, Option.map_none]
    case h_2 entry found => rw [found, Option.map_some, AList.lookup_insert]
  · split
    case h_1 => rfl
    case h_2 => rw [AList.lookup_insert_ne same]

theorem getFileEntry_eq (s : Server) (name : String) :
    ∃ table, (s.getFileEntry name).1 = { s with table := table } := by
  unfold getFileEntry
  split
  · exact ⟨_, rfl⟩
  · split_ifs <;> exact ⟨_, rfl⟩

theorem getFileEntry_entry (s : Server) (name : String) :
    (s.getFileEntry name).2 = { (s.table.lookup name).getD { cond := true, version := 1 } with cond := true } := by
  unfold getFileEntry
  split
  case h_1 absent => rw [absent, Option.getD_none]
  case h_2 entry found =>
    rw [found, Option.getD_some]
    split_ifs with ready
    · rw [← ready]
    · rfl

theorem getFileEntry_table (s : Server) (name other : String) : (s.getFileEntry name).1.table.lookup other =
      if other = name then some (s.getFileEntry name).2 else s.table.lookup other := by
  unfold getFileEntry
  split_ifs with same
  · subst same
    split
    case h_1 => exact AList.lookup_insert _
    case h_2 entry found =>
      split_ifs
      · exact found
      · exact AList.lookup_insert _
  · split
    case h_1 => exact AList.lookup_insert_ne same
    case h_2 =>
      split_ifs
      · rfl
      · exact AList.lookup_insert_ne same

theorem mem_setEntry (s : Server) (name other : String) (update : FileEntry → FileEntry) :
    other ∈ (s.setEntry name update).table ↔ other ∈ s.table := by
  unfold setEntry
  split
  case h_1 => rfl
  case h_2 entry found =>
    have present : name ∈ s.table := AList.lookup_isSome.mp (by rw [found]; rfl)
    rw [AList.mem_insert]
    exact ⟨fun either => either.elim (fun same => same ▸ present) fun old => old, .inr⟩

theorem mem_getFileEntry (s : Server) (name other : String) :
    other ∈ (s.getFileEntry name).1.table ↔ other = name ∨ other ∈ s.table := by
  unfold getFileEntry
  split
  case h_1 => exact AList.mem_insert _
  case h_2 entry found =>
    have present : name ∈ s.table := AList.lookup_isSome.mp (by rw [found]; rfl)
    split_ifs
    · exact ⟨.inr, fun either => either.elim (fun same => same ▸ present) fun old => old⟩
    · exact AList.mem_insert _

theorem mem_acquireWrite (s : Server) (name other : String) :
    other ∈ (s.acquireWrite name).table ↔ other ∈ s.table := s.mem_setEntry name other _

theorem mem_releaseWrite (s : Server) (name other : String) :
    other ∈ (s.releaseWrite name).table ↔ other ∈ s.table := s.mem_setEntry name other _

theorem acquireWrite_eq (s : Server) (name : String) :
    ∃ table, s.acquireWrite name = { s with table := table } := setEntry_eq s name _

theorem releaseWrite_eq (s : Server) (name : String) :
    ∃ table, s.releaseWrite name = { s with table := table } := setEntry_eq s name _

end Server

def SameFiles (before after : Tree) : Prop :=
  ∀ path content, after.find path = some (.file content) ↔ before.find path = some (.file content)

def AddsFile (before after : Tree) (path : Path) : Prop :=
  before.find path = none ∧ ∀ target content, after.find target = some (.file content) ↔
    if target = path then content = [] else before.find target = some (.file content)

structure Enlarges (before after : Tree) : Prop where
  dirs : ∀ path, before.find path = some .dir → after.find path = some .dir
  files : ∀ path content, before.find path = some (.file content) → ∃ content, after.find path = some (.file content)

theorem Enlarges.refl (tree : Tree) : Enlarges tree tree := ⟨fun _ dir => dir, fun _ content file => ⟨content, file⟩⟩

theorem Enlarges.trans {middle : Tree} (first : Enlarges before middle) (second : Enlarges middle after) :
    Enlarges before after where
  dirs path dir := second.dirs path (first.dirs path dir)
  files path content file := by
    obtain ⟨held, present⟩ := first.files path content file
    exact second.files path held present

theorem Enlarges.kept (grows : Enlarges before after) (path : Path)
    (absent : after.find path = none) : before.find path = none := by
  cases found : before.find path with
  | none => rfl
  | some node =>
    cases node with
    | dir =>
      rw [grows.dirs path found] at absent
      cases absent
    | file content =>
      obtain ⟨held, present⟩ := grows.files path content found
      rw [present] at absent
      cases absent

theorem grows_mkdirAll (made : before.mkdirAll path = some after) :
    Enlarges before after := by
  have present := fun target => FileTree.Tree.find_mkdirAll_present target made
  refine ⟨fun target dir => ?_, fun target content file => ⟨content, ?_⟩⟩
  · rw [present target (by simp [dir]), dir]
  · rw [present target (by simp [file]), file]

theorem grows_writeFile {content : Bytes}
    (written : before.writeFile path content = some after) : Enlarges before after := by
  have found := fun target => FileTree.Tree.find_writeFile target written
  have leaf := (FileTree.Tree.writeFile_place written).2
  refine ⟨fun target dir => ?_, fun target held file => ?_⟩
  · rw [found, if_neg, dir]
    rintro rfl
    exact leaf dir
  · rw [found]
    split_ifs
    · exact ⟨content, rfl⟩
    · exact ⟨held, file⟩

theorem mkdirAll_sameFiles {path : Path} (made : before.mkdirAll path = some after) :
    SameFiles before after := by
  intro target content
  refine ⟨FileTree.Tree.find_mkdirAll_file target content made, fun present => ?_⟩
  rw [FileTree.Tree.find_mkdirAll_present target made (by simp [present]), present]

theorem writeFile_addsFile {made : Tree} {path : Path} (same : SameFiles before made)
    (kept : made.find path = none → before.find path = none) (absent : made.find path = none)
    (written : made.writeFile path [] = some after) : AddsFile before after path := by
  refine ⟨kept absent, fun target content => ?_⟩
  rw [FileTree.Tree.find_writeFile target written]
  split_ifs
  · simp [eq_comm]
  · exact same target content

theorem remove_sameFiles {made created : Tree} {path : Path} (same : SameFiles before made)
    (absent : made.find path = none) (written : made.writeFile path [] = some created)
    (removed : created.remove path = some after) : SameFiles before after := by
  intro target content
  rw [FileTree.Tree.find_remove target removed, FileTree.Tree.find_writeFile target written]
  split_ifs with here
  · subst here
    rw [← same target content, absent]
    simp
  · exact same target content

namespace Server

variable {env : Env} {answer : Except Status Response} {sent : List AppendEntriesRequest}

structure Undertakes (env : Env) (s : Server) (requestId : String) : Prop where
  primary : s.notLeader = none
  fresh : s.cached requestId env.start = none

inductive Dismissed (env : Env) (s : Server) (requestId : String) (own : Response → Bool) : Result → Prop where
  | elsewhere (status : Status) (follower : s.notLeader = some status) :
      Dismissed env s requestId own (.returned s (.error status) [])
  | repeated (response : Response) (primary : s.notLeader = none)
      (hit : s.cached requestId env.start = some response) (fits : own response = true) :
      Dismissed env s requestId own (.returned s (.ok response) [])
  | mismatched (response : Response) (primary : s.notLeader = none)
      (hit : s.cached requestId env.start = some response) (other : own response = false) :
      Dismissed env s requestId own (.panicked s)

theorem Dismissed.same {requestId : String} {own : Response → Bool}
    (why : Dismissed env s requestId own (.returned next answer sent)) : next = s ∧ sent = [] := by
  cases why <;> exact ⟨rfl, rfl⟩

def claimed (s : Server) (safe : String) : Server := (s.getFileEntry safe).1.acquireWrite safe

def created (s : Server) (safe : String) : Server :=
  ((s.claimed safe).setEntry safe fun entry => { entry with version := 0 }).releaseWrite safe

inductive CreateExit (env : Env) (s : Server) (req : CreateRequest) : Result → Prop where
  | dismissed {result : Result} (why : Dismissed env s req.requestId Response.isOpened result) :
      CreateExit env s req result
  | unnamed (new : s.Undertakes env req.requestId) (unnamed : normalize req.filename = none) :
      CreateExit env s req (.returned s (.error ⟨.unknown, "invalid path"⟩) [])
  | barred (safe : String) (new : s.Undertakes env req.requestId) (named : normalize req.filename = some safe)
      (other : (hasPrefix "output/" safe || hasPrefix "output\\" safe) = false) :
      CreateExit env s req (.returned s (.error ⟨.permissionDenied, "only output/"⟩) [])
  | waiting (safe : String) (new : s.Undertakes env req.requestId) (named : normalize req.filename = some safe)
      (held : (s.getFileEntry safe).1.canWrite safe = false) : CreateExit env s req .blocked
  | failed (safe : String) (tree : Tree) (status : Status) (new : s.Undertakes env req.requestId)
      (named : normalize req.filename = some safe)
      (output : (hasPrefix "output/" safe || hasPrefix "output\\" safe) = true)
      (free : (s.getFileEntry safe).1.canWrite safe = true)
      (told : status = ⟨.unknown, env.reason⟩ ∨ status = ⟨.alreadyExists, "file exists"⟩ ∨
        status = ⟨.resourceExhausted, "too many open files"⟩ ∧ maxOpenFiles ≤ s.files.entries.length)
      (left : SameFiles s.tree tree ∨ env.remove = false ∧ AddsFile s.tree tree (s.path safe))
      (grows : Enlarges s.tree tree) :
      CreateExit env s req
        (.returned { s with table := ((s.claimed safe).releaseWrite safe).table, tree := tree } (.error status) [])
  | created (safe : String) (tree : Tree) (new : s.Undertakes env req.requestId)
      (named : normalize req.filename = some safe)
      (output : (hasPrefix "output/" safe || hasPrefix "output\\" safe) = true)
      (room : s.files.entries.length < maxOpenFiles)
      (adds : AddsFile s.tree tree (s.path safe)) (grows : Enlarges s.tree tree) :
      CreateExit env s req
        (.returned
          ((register { s with table := (s.created safe).table, tree := tree } safe req.clientId req.mode 0
            env.finish).1.remember req.requestId (.opened ⟨s.nextFD, 0, "file created"⟩) env.finish)
          (.ok (.opened ⟨s.nextFD, 0, "file created"⟩)) [])

theorem tree_abandoned {made created : Tree} {path : Path} (same : SameFiles before made) (grown : Enlarges before made)
    (absent : made.find path = none) (written : made.writeFile path [] = some created) :
    ∃ left, created.remove path = some left ∧ SameFiles before left ∧ Enlarges before left := by
  have adds := writeFile_addsFile same (grown.kept _) absent written
  have larger := grown.trans (grows_writeFile written)
  have file : created.find path = some (.file []) := (adds.2 _ []).mpr (by simp)
  obtain ⟨left, removed⟩ := FileTree.Tree.remove_file file
  refine ⟨left, removed, remove_sameFiles same absent written removed, fun target dir => ?_, fun target content held => ?_⟩
  · rw [FileTree.Tree.find_remove target removed, if_neg, larger.dirs target dir]
    rintro rfl
    rw [larger.dirs _ dir] at file
    cases file
  · rw [FileTree.Tree.find_remove target removed, if_neg]
    · exact larger.files target content held
    · rintro rfl
      rw [grown.kept _ absent] at held
      cases held

variable {req : CreateRequest}

theorem createLocked_exit (new : s.Undertakes env req.requestId) (named : normalize req.filename = some safe)
    (output : (hasPrefix "output/" safe || hasPrefix "output\\" safe) = true)
    (free : (s.getFileEntry safe).1.canWrite safe = true) :
    s.CreateExit env req ((s.claimed safe).createLocked env req safe) := by
  obtain ⟨table, held⟩ : ∃ table, s.claimed safe = { s with table := table } := by
    obtain ⟨first, found⟩ := s.getFileEntry_eq safe
    unfold claimed
    rw [found]
    exact acquireWrite_eq { s with table := first } safe
  have failed (tree : Tree) (status : Status) := CreateExit.failed safe tree status new named output free
  have done (tree : Tree) := CreateExit.created safe tree new named output
  unfold created at done
  rw [held] at failed done ⊢
  obtain ⟨released, freed⟩ := releaseWrite_eq { s with table := table } safe
  unfold createLocked refuse
  rw [freed] at failed ⊢
  dsimp only
  split
  case h_1 => exact failed s.tree _ (.inl rfl) (.inl fun _ _ => Iff.rfl) (.refl s.tree)
  case h_2 made dirs =>
    have mkdir : s.tree.mkdirAll (s.path safe).dropLast = some made := by
      split_ifs at dirs
      exact dirs
    have same := mkdirAll_sameFiles mkdir
    have grown := grows_mkdirAll mkdir
    split
    case isTrue => exact failed made _ (.inr (.inl rfl)) (.inl same) grown
    case isFalse taken =>
      have absent : made.find (s.path safe) = none := Option.not_isSome_iff_eq_none.mp taken
      split
      case h_1 => exact failed made _ (.inl rfl) (.inl same) grown
      case h_2 tree opens =>
        have written : made.writeFile (s.path safe) [] = some tree := by
          split_ifs at opens
          exact opens
        have adds := writeFile_addsFile same (grown.kept _) absent written
        have larger := grown.trans (grows_writeFile written)
        split
        case isTrue full =>
          obtain ⟨left, removed, without, rest⟩ := tree_abandoned same grown absent written
          cases removes : env.remove with
          | false => exact failed tree _ (.inr (.inr ⟨rfl, full⟩)) (.inr ⟨removes, adds⟩) larger
          | true =>
            rw [show tree.remove (path { s with table := table } safe) = _ from removed]
            exact failed left _ (.inr (.inr ⟨rfl, full⟩)) (.inl without) rest
        case isFalse room =>
          have exit := done tree (Nat.lt_of_not_le room) adds larger
          simp only [releaseWrite, setEntry, register, remember, path] at exit ⊢
          cases present : table.lookup safe <;> simpa [present] using exit

theorem create_exit (env : Env) (s : Server) (req : CreateRequest) : s.CreateExit env req (s.create env req) := by
  unfold create
  split
  case h_1 status follower => exact .dismissed (.elsewhere status follower)
  case h_2 primary =>
    split
    case h_1 resp hit => exact .dismissed (.repeated _ primary hit rfl)
    case h_2 response other hit =>
      refine .dismissed (.mismatched response primary hit ?_)
      cases response <;> first | rfl | exact (other _ rfl).elim
    case h_3 fresh =>
      split
      case h_1 unnamed => exact .unnamed ⟨primary, fresh⟩ unnamed
      case h_2 safe named =>
        dsimp only
        split_ifs with other free
        · exact .barred safe ⟨primary, fresh⟩ named (by simpa using other)
        · exact createLocked_exit ⟨primary, fresh⟩ named (by rwa [Bool.not_eq_true, Bool.not_eq_false'] at other) free
        · exact .waiting safe ⟨primary, fresh⟩ named (Bool.eq_false_iff.mpr free)

inductive OpenExit (env : Env) (s : Server) (req : FileRequest) : Result → Prop where
  | dismissed {result : Result} (why : Dismissed env s req.requestId Response.isOpened result) : OpenExit env s req result
  | unnamed (new : s.Undertakes env req.requestId) (unnamed : normalize req.filename = none) :
      OpenExit env s req (.returned s (.error ⟨.unknown, "invalid path"⟩) [])
  | waiting (safe : String) (new : s.Undertakes env req.requestId)
      (held : ((s.getFileEntry safe).1.table.lookup safe).any (·.activeWriter) = true) : OpenExit env s req .blocked
  | failed (safe : String) (status : Status) (new : s.Undertakes env req.requestId)
      (named : normalize req.filename = some safe)
      (told : status = ⟨.permissionDenied, "input files are read-only"⟩ ∨ status = ⟨.notFound, "input file not found"⟩ ∨
        status = ⟨.notFound, "output file not found"⟩ ∨
        status = ⟨.resourceExhausted, "too many open files"⟩ ∧ maxOpenFiles ≤ s.files.entries.length) :
      OpenExit env s req (.returned { s with table := (s.getFileEntry safe).1.table } (.error status) [])
  | opened (safe message : String) (new : s.Undertakes env req.requestId) (named : normalize req.filename = some safe)
      (room : s.files.entries.length < maxOpenFiles)
      (regular : req.mode = .write → hasPrefix "input/" safe = false ∧ ∃ content, s.bytes safe = some content) :
      OpenExit env s req
        (.returned
          ((register { s with table := (s.getFileEntry safe).1.table } safe req.clientId req.mode
            ((s.getFileEntry safe).1.entryVersion safe) env.finish).1.remember req.requestId
            (.opened ⟨s.nextFD, (s.getFileEntry safe).1.entryVersion safe, message⟩) env.finish)
          (.ok (.opened ⟨s.nextFD, (s.getFileEntry safe).1.entryVersion safe, message⟩)) [])

theorem openRegistered_exit {req : FileRequest} (message : String) (new : s.Undertakes env req.requestId)
    (named : normalize req.filename = some safe)
    (regular : req.mode = .write → hasPrefix "input/" safe = false ∧ ∃ content, s.bytes safe = some content) :
    s.OpenExit env req ((s.getFileEntry safe).1.openRegistered env req safe message) := by
  have failed := OpenExit.failed safe ⟨.resourceExhausted, "too many open files"⟩ new named
  have opened := OpenExit.opened safe message new named
  obtain ⟨table, found⟩ := s.getFileEntry_eq safe
  rw [found] at failed opened ⊢
  unfold openRegistered refuse
  split_ifs with full
  · exact failed (.inr (.inr (.inr ⟨rfl, full⟩)))
  · exact opened (Nat.lt_of_not_le full) regular

theorem bytes_of_osOpen (opens : osOpen s.tree (s.path safe) .write = true) : ∃ content, s.bytes safe = some content := by
  unfold osOpen at opens
  split at opens
  case h_1 => cases opens
  case h_2 content node => exact ⟨content, (bytes_eq _ safe content).mpr node⟩
  case h_3 => simp at opens

theorem openFile_exit (env : Env) (s : Server) (req : FileRequest) : s.OpenExit env req (s.openFile env req) := by
  unfold openFile
  split
  case h_1 status follower => exact .dismissed (.elsewhere status follower)
  case h_2 primary =>
    split
    case h_1 resp hit => exact .dismissed (.repeated _ primary hit rfl)
    case h_2 response other hit =>
      refine .dismissed (.mismatched response primary hit ?_)
      cases response <;> first | rfl | exact (other _ rfl).elim
    case h_3 fresh =>
      split
      case h_1 unnamed => exact .unnamed ⟨primary, fresh⟩ unnamed
      case h_2 safe named =>
        have new : s.Undertakes env req.requestId := ⟨primary, fresh⟩
        have failed (status : Status) := OpenExit.failed safe status new named
        have same : (s.getFileEntry safe).1 = { s with table := (s.getFileEntry safe).1.table } := by
          obtain ⟨table, found⟩ := s.getFileEntry_eq safe
          rw [found]
        rw [← same] at failed
        unfold openInput openOutput refuse
        dsimp only
        split_ifs with input mode busy present opens
        · exact failed _ (.inl rfl)
        · exact .waiting safe new busy
        · refine openRegistered_exit _ new named fun write => ?_
          simp [write] at mode
        · exact failed _ (.inr (.inl rfl))
        · refine openRegistered_exit _ new named fun write => ⟨Bool.eq_false_iff.mpr input, ?_⟩
          rw [same, write, Bool.and_eq_true] at opens
          exact bytes_of_osOpen opens.2
        · exact failed _ (.inr (.inr (.inl rfl)))

structure DeleteClaim (env : Env) (s : Server) (req : DeleteRequest) (safe : String) (entry : FileEntry) : Prop where
  new : s.Undertakes env req.requestId
  named : normalize req.filename = some safe
  output : hasPrefix "input/" safe = false
  stored : osStat s.tree (s.path safe) ≠ .missing
  leaf : osStat s.tree (s.path safe) ≠ .found .dir
  present : s.table.lookup safe = some entry
  unused : (decide (entry.activeReaders > 0) || entry.activeWriter) = false

inductive DeleteExit (env : Env) (s : Server) (req : DeleteRequest) : Result → Prop where
  | dismissed {result : Result} (why : Dismissed env s req.requestId Response.isDeleted result) :
      DeleteExit env s req result
  | unnamed (new : s.Undertakes env req.requestId) (unnamed : normalize req.filename = none) :
      DeleteExit env s req (.returned s (.error ⟨.unknown, "invalid path"⟩) [])
  | input (safe : String) (new : s.Undertakes env req.requestId) (named : normalize req.filename = some safe)
      (input : hasPrefix "input/" safe = true) :
      DeleteExit env s req (.returned s (.error ⟨.permissionDenied, "cannot delete input files"⟩) [])
  | directory (safe : String) (new : s.Undertakes env req.requestId) (named : normalize req.filename = some safe)
      (dir : osStat s.tree (s.path safe) = .found .dir) :
      DeleteExit env s req (.returned s (.error ⟨.invalidArgument, "cannot delete directory"⟩) [])
  | gone (safe : String) (new : s.Undertakes env req.requestId) (named : normalize req.filename = some safe)
      (output : hasPrefix "input/" safe = false)
      (absent : osStat s.tree (s.path safe) = .missing ∨
        osStat s.tree (s.path safe) ≠ .found .dir ∧ s.table.lookup safe = none) :
      DeleteExit env s req
        (.returned (s.remember req.requestId (.deleted ⟨"File is already deleted"⟩) env.finish)
          (.ok (.deleted ⟨"File is already deleted"⟩)) [])
  | busy (safe : String) (entry : FileEntry) (new : s.Undertakes env req.requestId)
      (named : normalize req.filename = some safe) (present : s.table.lookup safe = some entry)
      (used : (decide (entry.activeReaders > 0) || entry.activeWriter) = true) :
      DeleteExit env s req
        (.returned s (.error ⟨.failedPrecondition, "file is currently in use by another client"⟩) [])
  | silent (safe : String) (entry : FileEntry) (left : Server) (claim : DeleteClaim env s req safe entry)
      (mute : entry.cond = false) : DeleteExit env s req (.panicked left)
  | failed (safe : String) (entry : FileEntry) (claim : DeleteClaim env s req safe entry) (ready : entry.cond = true) :
      DeleteExit env s req
        (.returned { s with table := ((s.acquireWrite safe).releaseWrite safe).table } (.error ⟨.internal, env.reason⟩) [])
  | removed (safe : String) (entry : FileEntry) (tree : Tree) (claim : DeleteClaim env s req safe entry)
      (ready : entry.cond = true) (removes : s.tree.remove (s.path safe) = some tree) :
      DeleteExit env s req
        (.returned
          (remember
            { s with
              tree := tree, table := (s.acquireWrite safe).table.erase safe
              filesPrimes := s.filesPrimes.erase safe }
            req.requestId (.deleted ⟨"File is deleted"⟩) env.finish)
          (.ok (.deleted ⟨"File is deleted"⟩)) [])

theorem deleteLocked_exit {req : DeleteRequest} {entry : FileEntry} (claim : DeleteClaim env s req safe entry) :
    s.DeleteExit env req (broadcast entry.cond ((s.acquireWrite safe).deleteLocked env req safe)) := by
  have failed := DeleteExit.failed safe entry claim
  have removed (tree : Tree) := DeleteExit.removed safe entry tree claim
  have silent (left : Server) := DeleteExit.silent safe entry left claim
  obtain ⟨table, held⟩ := s.acquireWrite_eq safe
  obtain ⟨released, freed⟩ := releaseWrite_eq { s with table := table } safe
  rw [held] at failed removed ⊢
  unfold deleteLocked refuse
  rw [freed] at failed ⊢
  split
  case h_1 =>
    change DeleteExit _ _ _ (if entry.cond = true then _ else _)
    split_ifs with ready
    · exact failed ready
    · exact silent _ (Bool.eq_false_iff.mpr ready)
  case h_2 tree removes =>
    change DeleteExit _ _ _ (if entry.cond = true then _ else _)
    split_ifs at removes
    split_ifs with ready
    · exact removed tree ready removes
    · exact silent _ (Bool.eq_false_iff.mpr ready)

theorem delete_exit (env : Env) (s : Server) (req : DeleteRequest) : s.DeleteExit env req (s.delete env req) := by
  unfold delete
  split
  case h_1 status follower => exact .dismissed (.elsewhere status follower)
  case h_2 primary =>
    split
    case h_1 resp hit => exact .dismissed (.repeated _ primary hit rfl)
    case h_2 response other hit =>
      refine .dismissed (.mismatched response primary hit ?_)
      cases response <;> first | rfl | exact (other _ rfl).elim
    case h_3 fresh =>
      have new : s.Undertakes env req.requestId := ⟨primary, fresh⟩
      split
      case h_1 unnamed => exact .unnamed new unnamed
      case h_2 safe named =>
        split_ifs with input
        · exact .input safe new named input
        · have output := Bool.eq_false_iff.mpr input
          split
          case h_1 stat => exact .gone safe new named output (.inl stat)
          case h_2 dir => exact .directory safe new named dir
          case h_3 missing _ leaf => exact .gone safe new named output (.inr ⟨leaf, missing⟩)
          case h_4 _ _ entry present stored leaf =>
            split_ifs with used
            · exact .busy safe entry new named present used
            · exact deleteLocked_exit ⟨new, named, output, stored, leaf, present, Bool.eq_false_iff.mpr used⟩

def CreateEffect (s next : Server) (safe : String) : Prop :=
  ∃ table requests openMap nextFD files tree,
    next = { s with table := table, requests := requests, openMap := openMap, nextFD := nextFD,
                    files := files, tree := tree } ∧
    ((SameFiles s.tree tree ∧ files = s.files) ∨
      AddsFile s.tree tree (s.path safe) ∧
        (files = s.files ∨ ∃ fd opened, files = s.files.insert fd opened ∧ opened.filename = safe))

theorem create_cases (handled : s.create env req = .returned next answer sent) :
    next = s ∨ ∃ safe, normalize req.filename = some safe ∧ s.CreateEffect next safe := by
  cases handled ▸ s.create_exit env req with
  | dismissed why => exact .inl why.same.1
  | unnamed | barred => exact .inl rfl
  | failed safe tree status _ named _ _ _ left =>
    refine .inr ⟨safe, named, _, _, _, _, _, tree, rfl, ?_⟩
    exact left.elim (fun same => .inl ⟨same, rfl⟩) fun kept => .inr ⟨kept.2, .inl rfl⟩
  | created safe tree _ named _ _ adds =>
    exact .inr ⟨safe, named, _, _, _, _, _, tree, rfl, .inr ⟨adds, .inr ⟨_, _, rfl, rfl⟩⟩⟩

theorem createEffect_bytes (effect : s.CreateEffect next safe)
    (name : String) (content : Bytes) (holds : s.bytes name = some content) :
    next.bytes name = some content := by
  obtain ⟨table, requests, openMap, nextFD, files, tree, rfl, effect⟩ := effect
  rw [bytes_eq] at holds ⊢
  rcases effect with ⟨same, _⟩ | ⟨⟨absent, adds⟩, _⟩
  · exact (same _ content).mpr holds
  · refine (adds _ content).mpr ?_
    rw [if_neg]
    · exact holds
    · intro here
      rw [show s.path name = s.path safe from here, absent] at holds
      cases holds

theorem opened_insert {files : Map Int32 FileMeta} {fd key : Int32} {opened found : FileMeta}
    (present : (files.insert key opened).lookup fd = some found) :
    found = opened ∨ files.lookup fd = some found :=
  (Map.lookup_of_insert present).imp And.right And.right

theorem registered_mode {client other : String} {mode : FileMode} {now : Time} {state : ClientState}
    (registered : ((∅ : Map String ClientState).insert client ⟨now, mode⟩).lookup other = some state) :
    state.mode = mode := by
  rcases Map.lookup_of_insert registered with ⟨_, rfl⟩ | ⟨_, absent⟩
  · rfl
  · cases absent

theorem createEffect_files (effect : s.CreateEffect next safe)
    (fd : Int32) (found : FileMeta) (present : next.files.lookup fd = some found) :
    found.filename = safe ∨ s.files.lookup fd = some found := by
  obtain ⟨table, requests, openMap, nextFD, files, tree, rfl, effect⟩ := effect
  rcases effect with ⟨_, rfl⟩ | ⟨_, rfl | ⟨key, opened, rfl, rfl⟩⟩
  · exact .inr present
  · exact .inr present
  · exact (opened_insert present).imp_left (congrArg FileMeta.filename)

def OpenEffect (s next : Server) (safe : String) : Prop :=
  ∃ table requests openMap nextFD files,
    next = { s with table := table, requests := requests, openMap := openMap, nextFD := nextFD,
                    files := files } ∧
    (files = s.files ∨ ∃ fd opened, files = s.files.insert fd opened ∧ opened.filename = safe ∧
      ∀ client state, opened.clients.lookup client = some state → state.mode = .write →
        ∃ content, s.bytes safe = some content)

theorem openFile_cases {req : FileRequest} (handled : s.openFile env req = .returned next answer sent) :
    next = s ∨ ∃ safe, normalize req.filename = some safe ∧ s.OpenEffect next safe := by
  cases handled ▸ s.openFile_exit env req with
  | dismissed why => exact .inl why.same.1
  | unnamed => exact .inl rfl
  | failed safe _ _ named => exact .inr ⟨safe, named, _, _, _, _, _, rfl, .inl rfl⟩
  | opened safe _ _ named _ regular =>
    refine .inr ⟨safe, named, _, _, _, _, _, rfl, .inr ⟨_, _, rfl, rfl, fun client state registered write => ?_⟩⟩
    exact (regular (registered_mode registered ▸ write)).2

theorem openEffect_files (effect : s.OpenEffect next safe)
    {fd : Int32} {found : FileMeta} (present : next.files.lookup fd = some found) :
    found.filename = safe ∨ s.files.lookup fd = some found := by
  obtain ⟨table, requests, openMap, nextFD, files, rfl, rfl | ⟨key, opened, rfl, rfl, _⟩⟩ := effect
  · exact .inr present
  · exact (opened_insert present).imp_left (congrArg FileMeta.filename)

def DeleteEffect (s next : Server) (req : DeleteRequest) (answer : Except Status Response) : Prop :=
  ∃ table requests filesPrimes tree,
    next = { s with table := table, requests := requests, filesPrimes := filesPrimes, tree := tree } ∧
    (tree = s.tree ∨ ∃ safe response, normalize req.filename = some safe ∧ answer = .ok response ∧
      s.tree.remove (s.path safe) = some tree)

theorem delete_cases {req : DeleteRequest} (handled : s.delete env req = .returned next answer sent) :
    s.DeleteEffect next req answer := by
  cases handled ▸ s.delete_exit env req with
  | dismissed why =>
    obtain ⟨rfl, _⟩ := why.same
    exact ⟨_, _, _, _, rfl, .inl rfl⟩
  | unnamed | input | directory | gone | busy | failed => exact ⟨_, _, _, _, rfl, .inl rfl⟩
  | removed safe entry tree claim _ removes =>
    exact ⟨_, _, _, tree, rfl, .inr ⟨safe, _, claim.named, rfl, removes⟩⟩

end Server

end Ikkat
