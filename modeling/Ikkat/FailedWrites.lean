import Ikkat.Election
import Ikkat.Outcomes

set_option autoImplicit false

namespace Ikkat

variable {s : Server}

namespace Server

def version (s : Server) (name : String) : Option Int32 := (s.table.lookup name).map FileEntry.version

theorem version_setEntry (s : Server) (name other : String) {update : FileEntry → FileEntry}
    (same : ∀ entry, (update entry).version = entry.version) :
    (s.setEntry name update).version other = s.version other := by
  unfold setEntry version
  split
  case h_1 => rfl
  case h_2 entry found =>
    by_cases own : other = name
    · rw [own, AList.lookup_insert, found, Option.map_some, Option.map_some, same]
    · rw [AList.lookup_insert_ne own]

theorem version_acquireWrite (s : Server) (name other : String) :
    (s.acquireWrite name).version other = s.version other := s.version_setEntry name other fun _ => rfl

theorem version_releaseWrite (s : Server) (name other : String) :
    (s.releaseWrite name).version other = s.version other := s.version_setEntry name other fun _ => rfl

theorem version_getFileEntry (s : Server) (name other : String) : (s.getFileEntry name).1.version other =
      if other = name then some ((s.version name).getD 1) else s.version other := by
  unfold getFileEntry version
  split
  case h_1 absent =>
    split_ifs with own
    · rw [own, AList.lookup_insert, absent]
      rfl
    · rw [AList.lookup_insert_ne own]
  case h_2 entry found =>
    split_ifs with ready own own
    · rw [own, found]
      rfl
    · rfl
    · rw [own, AList.lookup_insert, found]
      rfl
    · rw [AList.lookup_insert_ne own]

def Admits (kind : Kind) (s : Server) (req : DataRequest) : Prop :=
  ∃ found client, s.files.lookup req.fd = some found ∧ found.clients.lookup req.clientID = some client ∧
    client.mode = .write ∧
    req.version = (s.version (Call.name ⟨kind, req, found.filename, client.mode⟩)).getD 1

structure Unaffected (s next : Server) : Prop where
  log : next.log = s.log
  logFile : next.logFile = s.logFile
  tree : next.tree = s.tree
  versions : ∀ name, next.version name = s.version name
  filesPrimes : next.filesPrimes = s.filesPrimes

def NeverApplied [LogCodec] (s next : Server) : Prop :=
  ∀ position entry, s.log.length ≤ position → next.log[position]? = some entry →
    ∀ deliveries final, Transition.run serveStep next deliveries = some final → final.lastApplied ≤ position

theorem beginCall_version (kind : Kind) (now : Time) (s opened : Server) (req : DataRequest) (call : Call)
    (begun : s.beginCall kind now req = .opened opened call) (other : String) :
    opened.version other = if other = call.name then some ((s.version call.name).getD 1) else s.version other := by
  rw [beginCall_entry begun]
  exact s.version_getFileEntry _ other

theorem entryVersion_eq {name : String} {version : Int32} (held : s.version name = some version) :
    s.entryVersion name = version := by
  unfold Server.version at held
  unfold entryVersion
  cases found : s.table.lookup name with
  | none => simp [found] at held
  | some entry => simpa [found] using held

theorem Unaffected.refl (s : Server) : s.Unaffected s := ⟨rfl, rfl, rfl, fun _ => rfl, rfl⟩

theorem beginCall_failed (kind : Kind) (now : Time) (next : Server) (req : DataRequest) (status : Status)
    (sent : List AppendEntriesRequest) (primary : s.role = .primary)
    (begun : s.beginCall kind now req = .ended (.returned next (.error status) sent)) :
    next = s ∧ s.files.lookup req.fd = none := by
  unfold beginCall refuse at begun
  rw [(s.notLeader_eq_none).mpr primary] at begun
  dsimp only at begun
  split at begun
  case h_1 => cases begun
  case h_2 => cases begun
  case h_3 =>
    split at begun
    case h_1 closed =>
      cases begun
      exact ⟨rfl, closed⟩
    case h_2 => split at begun <;> cases begun

variable [LogCodec]

theorem neverApplied_of_log (s next : Server) (same : next.log = s.log) : s.NeverApplied next := by
  intro position entry beyond found
  rw [same] at found
  obtain ⟨within, _⟩ := List.getElem?_eq_some_iff.mp found
  omega

omit [LogCodec] in
theorem admits_opened {kind : Kind} {env : Env} {opened : Server} {req : DataRequest} {call : Call}
    (begun : s.beginCall kind env.start req = .opened opened call) :
    s.Admits kind req ↔ (opened.acquireWrite call.name).refusal call = none := by
  obtain ⟨found, client, _, _, present, registered, made, _⟩ := beginCall_opened kind env.start s opened req call begun
  have held : (opened.acquireWrite call.name).version call.name = some ((s.version call.name).getD 1) := by
    have opens := beginCall_version kind env.start s opened req call begun call.name
    rw [if_pos rfl] at opens
    rw [version_acquireWrite, opens]
  have current := entryVersion_eq held
  have checks : (opened.acquireWrite call.name).refusal call = none ↔
      call.mode = .write ∧ call.req.version = (s.version call.name).getD 1 := by
    unfold refusal
    rw [current]
    by_cases mode : call.mode = .write
    · by_cases version : call.req.version = (s.version call.name).getD 1 <;> simp [mode, version]
    · simp [mode]
  rw [checks, made]
  constructor
  · rintro ⟨other, state, open_, known, mode, version⟩
    obtain rfl : found = other := Option.some.inj (present.symm.trans open_)
    obtain rfl : client = state := Option.some.inj (registered.symm.trans known)
    exact ⟨mode, version⟩
  · rintro ⟨mode, version⟩
    exact ⟨found, client, present, registered, mode, version⟩

theorem failed_call_without_effect_iff (kind : Kind) (env : Env) (s next : Server) (req : DataRequest)
    (status : Status) (sent : List AppendEntriesRequest) (primary : s.role = .primary) (dirty : req.dirty = true)
    (handled : s.handleCall kind env req = .returned next (.error status) sent) :
    s.Unaffected next ∧ s.NeverApplied next ↔
      ¬ s.Admits kind req ∧ ∀ found client, s.files.lookup req.fd = some found →
        found.clients.lookup req.clientID = some client →
        ∃ version, s.version (Call.name ⟨kind, req, found.filename, client.mode⟩) = some version := by
  cases begun : s.beginCall kind env.start req with
  | ended result =>
    have ended := handled
    unfold handleCall at ended
    rw [begun] at ended
    dsimp only at ended
    obtain ⟨rfl, closed⟩ := beginCall_failed kind env.start next req status sent primary (begun.trans (by rw [ended]))
    refine ⟨fun _ => ⟨?_, ?_⟩, fun _ => ⟨.refl next, neverApplied_of_log next next rfl⟩⟩
    · rintro ⟨found, _, open_, _⟩
      rw [closed] at open_
      cases open_
    · intro found _ open_
      rw [closed] at open_
      cases open_
  | opened opened call =>
    have admits := admits_opened begun
    have versions := beginCall_version kind env.start s opened req call begun
    have free : opened.canWrite call.name = true := by
      by_contra busy
      unfold handleCall at handled
      rw [begun] at handled
      simp [dirty, busy] at handled
    obtain ⟨found, client, table, _, present, registered, made, rfl⟩ :=
      beginCall_opened kind env.start s opened req call begun
    by_cases admitted : s.Admits kind req
    · -- The entry is in the log, whatever made the call fail afterwards.
      have grown : next.log ≠ s.log := by
        have fresh : s.cachedCall kind req.requestId env.start = none := by
          unfold beginCall at begun
          split at begun
          case h_1 => cases begun
          case h_2 => split at begun <;> first | cases begun | assumption
        have longer (call : Call) (ready : Server) (logFile : Bytes) (enters : s.Enters kind env req call ready) :
            (committed env ready call logFile).1.log ≠ s.log ∧ ready.log = s.log := by
          obtain ⟨_, _, locked, _, _, _, _, _, _, rfl⟩ := enters_eq kind env s ready req call enters
          obtain ⟨tree, filesPrimes, same⟩ := updatePrimes_eq env
            (commitEntry env.apply { s with
              table := locked
              log := s.log ++ [logEntry { s with table := locked } call
                (content env.range { s with table := locked } call) s.log.length]
              logFile := logFile } (logEntry { s with table := locked } call
                (content env.range { s with table := locked } call) s.log.length))
            call (tempPrimeSet { s with table := locked } call).2
          rw [committed, same, commitEntry_eq]
          simp [applied]
        cases handleCall_outcome kind env s next req _ sent fresh handled with
        | rejected _ _ _ _ idle =>
          exact absurd ⟨_, begun, dirty, free, rfl, admits.mp admitted⟩ (idle call _)
        | failed call ready logFile _ _ enters _ _ made =>
          obtain ⟨released, freed⟩ := releaseWrite_eq { ready with
            log := ready.log ++ [ready.logEntry call (ready.content env.range call) ready.log.length]
            logFile := logFile } call.name
          rw [made, freed]
          simp [(longer call ready logFile enters).2]
        | broken call ready logFile _ _ enters _ _ _ made =>
          obtain ⟨released, freed⟩ := releaseWrite_eq (committed env ready call logFile).1 call.name
          rw [made, freed]
          exact (longer call ready logFile enters).1
      exact ⟨fun same => absurd same.1.log grown, fun condition => absurd admitted condition.1⟩
    · have released : next = (acquireWrite { s with table := table } call.name).releaseWrite call.name := by
        unfold handleCall at handled
        rw [begun] at handled
        dsimp only at handled
        rw [if_pos dirty, if_neg (by simp [free])] at handled
        split at handled
        case h_1 => exact (Result.returned.inj handled).1.symm
        case h_2 allowed => exact absurd (admits.mpr allowed) admitted
      have after (other : String) : next.version other =
          if other = call.name then some ((s.version call.name).getD 1) else s.version other := by
        rw [released, version_releaseWrite, version_acquireWrite, versions]
      have name : call.name = Call.name ⟨kind, req, found.filename, client.mode⟩ := by rw [made]
      obtain ⟨locked, acquired⟩ := acquireWrite_eq { s with table := table } call.name
      obtain ⟨unlocked, freed⟩ := releaseWrite_eq { s with table := locked } call.name
      rw [acquired, freed] at released
      constructor
      · rintro ⟨same, _⟩
        refine ⟨admitted, fun other state open_ known => ?_⟩
        obtain rfl : found = other := Option.some.inj (present.symm.trans open_)
        obtain rfl : client = state := Option.some.inj (registered.symm.trans known)
        have kept := same.versions call.name
        rw [after, if_pos rfl] at kept
        exact ⟨_, name ▸ kept.symm⟩
      · rintro ⟨_, listed⟩
        obtain ⟨version, held⟩ := listed found client present registered
        rw [← name] at held
        refine ⟨⟨by rw [released], by rw [released], by rw [released], fun other => ?_, by rw [released]⟩,
          neverApplied_of_log s next (by rw [released])⟩
        rw [after, held]
        split_ifs with own
        · rw [own, held, Option.getD_some]
        · rfl

end Server

def staleClose : DataRequest := ⟨"r2", 0, true, 5, [50, 10], "c"⟩

def Result.fails : Result → Bool
  | .returned _ (.error _) _ => true
  | _ => false

theorem stale_close_without_effect :
    ∃ next status sent, firstOpened.handleCall .close {} staleClose = .returned next (.error status) sent ∧
      firstOpened.Unaffected next ∧ firstOpened.NeverApplied next := by
  have ends : ∃ next status sent,
      firstOpened.handleCall .close {} staleClose = .returned next (.error status) sent := by
    have failed : (firstOpened.handleCall .close {} staleClose).fails = true := by decide +kernel
    unfold Result.fails at failed
    split at failed
    case h_1 next status sent handled => exact ⟨next, status, sent, handled⟩
    case h_2 => cases failed
  obtain ⟨next, status, sent, handled⟩ := ends
  have opened : (firstOpened.files.lookup 0).map FileMeta.filename = some "output/a" := by decide +kernel
  have version : firstOpened.version (normalizeQuiet "output/a") = some 0 := by decide +kernel
  have held (found : FileMeta) (client : ClientState) (present : firstOpened.files.lookup 0 = some found) :
      firstOpened.version (Call.name ⟨.close, staleClose, found.filename, client.mode⟩) = some 0 := by
    rw [present, Option.map_some, Option.some.injEq] at opened
    rw [Call.name, opened]
    exact version
  refine ⟨next, status, sent, handled, (Server.failed_call_without_effect_iff .close {} firstOpened next staleClose
    status sent (by decide +kernel) rfl handled).mpr ⟨?_, fun found client present _ => ⟨0, held found client present⟩⟩⟩
  rintro ⟨found, client, present, _, _, same⟩
  rw [held found client present] at same
  revert same
  decide

def bothCreated : Server :=
  (Transition.run serveStep firstPrimary
    [⟨{}, .create ⟨"r1", "output/a", "c", .write⟩⟩, ⟨{}, .create ⟨"r2", "output/b", "c", .write⟩⟩]).getD firstPrimary

def closeUnreplicated : Delivery := ⟨{}, .close ⟨"r3", 0, true, 0, [50, 10], "c"⟩⟩

def closeOther : Delivery :=
  ⟨{ answers := [("2", true), ("3", true)] }, .close ⟨"r4", 1, true, 0, [51, 10], "c"⟩⟩

-- The entry stays in the log; the next commit, of another file, applies it.
theorem failed_close_applied_later :
    (match bothCreated.serve closeUnreplicated.env closeUnreplicated.rpc with
      | .returned next answer _ => some (answer, bothCreated.log.length, next.log.length)
      | _ => none) = some (.error ⟨.unavailable, "failed to reach majority"⟩, 0, 1) ∧
    bothCreated.bytes "output/a" = some [] ∧
    (Transition.run serveStep bothCreated [closeUnreplicated, closeOther]).map (fun s => s.bytes "output/a") =
      some (some [50, 10]) := by
  refine ⟨by decide +kernel, by decide +kernel, by decide +kernel⟩

end Ikkat
