import Ikkat.Snapshot
import Ikkat.Versions

set_option autoImplicit false

namespace Ikkat

structure CommitRecord where
  slot : Nat
  name : String
  index : Nat
  primes : FilePrimeSet

structure Recording where
  snapshot : GlobalSnapshot
  todo : List String

structure Ledger where
  node : Node
  commits : List CommitRecord
  recording : Option Recording

inductive LedgerAction where
  | begin (slot : Nat) (now : Time) (req : DataRequest)
  | handler (slot : Nat) (action : HandlerStep)
  | record (now : Time) (snapshotID : String)
  | file (name : String)
  | unlock

-- The version of a file is raised under the mutex of its entry alone.
def HandlerStep.locksServer : HandlerStep → Bool
  | .copy _ | .append _ | .commit _ | .prime _ => true
  | _ => false

def Handler.produced (h : Handler) : Option Int32 :=
  match h.stage with
  | .ended (.ok response) _ => response.version
  | _ => none

def Handler.installed (h : Handler) : Bool :=
  match h.stage with
  | .primed _ | .ended (.ok _) _ => true
  | _ => false

namespace Ledger

def start (s : Server) : Ledger := ⟨.start s, [], none⟩

def committing (t : Ledger) (slot : Nat) : HandlerStep → List CommitRecord
  | .commit _ =>
      match t.node.handlers slot with
      | some ⟨call, .waiting primes entry _ _ _⟩ => [⟨slot, call.name, entry.index.toNat, primes⟩]
      | _ => []
  | _ => []

def step [LogCodec] (t : Ledger) : LedgerAction → Option Ledger
  | .begin slot now req =>
      if t.recording.isNone ∧ req.dirty then
        (t.node.begin slot .close now req).map fun node => { t with node := node }
      else none
  | .handler slot action =>
      if t.recording.isSome ∧ action.locksServer then none
      else
        (t.node.handlerStep slot action).map fun node =>
          { t with node := node, commits := t.commits ++ t.committing slot action }
  | .record now snapshotID =>
      let s := t.node.server
      if t.recording.isNone ∧ s.role = .primary then
        some { t with recording := some ⟨{ s.initiatedSnapshot now snapshotID with files := [] }, s.table.keys⟩ }
      else none
  | .file name => do
      let s := t.node.server
      let recording ← t.recording
      if name ∈ recording.todo then
        let info : SnapshotFileInfo := ⟨name, s.entryVersion name, s.recordedPrimes name, s.commitIndex⟩
        some { t with
          recording := some ⟨{ recording.snapshot with files := recording.snapshot.files ++ [info] },
            recording.todo.erase name⟩ }
      else none
  | .unlock => do
      let recording ← t.recording
      if recording.todo = [] then some { t with recording := none } else none

def produced (t : Ledger) (slot : Nat) : Option Int32 :=
  (t.node.handlers slot).bind Handler.produced

def installed (t : Ledger) (slot : Nat) : Bool :=
  (t.node.handlers slot).any Handler.installed

def ofName (t : Ledger) (name : String) : List CommitRecord :=
  t.commits.filter fun record => record.name = name

def reflected (t : Ledger) : List CommitRecord :=
  t.commits.filter fun record => (t.produced record.slot).isSome

def lastReflected (t : Ledger) (name : String) : Option CommitRecord :=
  ((t.ofName name).filter fun record => (t.produced record.slot).isSome).getLast?

structure OneCommitted (s : Server) (t : Ledger) (snap : GlobalSnapshot) : Prop where
  files : ∀ info ∈ snap.files, match t.lastReflected info.filename with
    | some record => t.produced record.slot = some info.version ∧ info.primeSet = record.primes.elems
    | none => info.version = s.base info.filename ∧ info.primeSet = s.recordedPrimes info.filename
  commitIndex : snap.commitIndex = (t.reflected.getLast?.map CommitRecord.index).getD s.commitIndex

def Calm (t : Ledger) : LedgerAction → Prop
  | .begin _ _ req => ∀ found, t.node.server.files.lookup req.fd = some found →
      normalizeQuiet found.filename = found.filename
  | .record _ _ => ∀ slot h, t.node.handlers slot = some h → h.stage.pending = false
  | _ => True

end Ledger

inductive Publishes (s : Server) (h : Handler) : HandlerStep → Server → Stage → Prop where
  | commit (io : Nat → ApplyIO) (primes : FilePrimeSet) (entry : LogEntry) (majority : Nat)
      (awaiting acks : List String) (next : Server) (before : h.stage = .waiting primes entry majority awaiting acks)
      (filesPrimes : next.filesPrimes = s.filesPrimes) (commitIndex : next.commitIndex = entry.index.toNat) :
      Publishes s h (.commit io) next (.committed primes entry s.peerIDs)
  | prime (env : Env) (primes : FilePrimeSet) (entry : LogEntry) (unsent : List String) (next : Server)
      (before : h.stage = .committed primes entry unsent)
      (filesPrimes : next.filesPrimes = s.filesPrimes.insert h.call.filename primes)
      (commitIndex : next.commitIndex = s.commitIndex) : Publishes s h (.prime env) next (.primed entry)
  | other (action : HandlerStep) (next : Server) (stage : Stage) (commits : ∀ io, action ≠ .commit io)
      (unprimed : ∀ entry, stage = .primed entry → h.stage = .primed entry)
      (committed : ∀ primes entry unsent, stage = .committed primes entry unsent →
        ∃ earlier, h.stage = .committed primes entry earlier)
      (failed : ∀ status entry, stage = .ended (.error status) entry → h.stage.pending = false)
      (filesPrimes : next.filesPrimes = s.filesPrimes) (commitIndex : next.commitIndex = s.commitIndex) :
      Publishes s h action next stage

theorem Handler.step_publishes [LogCodec] {s next : Server} {h : Handler} {action : HandlerStep} {stage : Stage}
    (close : h.call.kind = .close) (stepped : h.step s action = some (next, stage)) :
    Publishes s h action next stage := by
  have taken := Handler.step_takes stepped
  obtain ⟨call, before⟩ := h
  dsimp only at close taken
  have finished (env : Env) : (s.finishCall env call).1.filesPrimes = s.filesPrimes ∧
      (s.finishCall env call).1.commitIndex = s.commitIndex := by
    obtain ⟨_, _, _, _, same⟩ := s.finishCall_eq env call
    rw [same]
    exact ⟨rfl, rfl⟩
  cases taken with
  | clean env | finish env =>
    exact .other _ _ _ (by simp) (by simp) (by simp) (by simp) (finished env).1 (finished env).2
  | refuse | unlogged | timeout => exact .other _ _ _ (by simp) (by simp) (by simp) (fun _ _ _ => rfl) rfl rfl
  | commit => exact .commit _ _ _ _ _ _ _ rfl rfl rfl
  | unprimed env primes entry status tree filesPrimes updated =>
    simp only [Server.updatePrimes, close, Prod.mk.injEq, reduceCtorEq, and_false] at updated
  | prime env primes entry tree filesPrimes updated =>
    have primed : Call.primeKey call = call.filename := by rw [Call.primeKey, close]
    simp only [Server.updatePrimes, close, primed] at updated
    exact .prime env primes entry [] _ rfl (congrArg (fun done => Server.filesPrimes done.1) updated).symm rfl
  | _ => exact .other _ _ _ (by simp) (by simp) (by simp) (by simp) rfl rfl

theorem getLast?_filter {α : Type} (items : List α) (keep : α → Bool) (item : α) (last : items.getLast? = some item)
    (holds : keep item = true) : (items.filter keep).getLast? = some item := by
  obtain ⟨front, rfl⟩ := List.getLast?_eq_some_iff.mp last
  simp [holds]

namespace Ledger

variable {s : Server} {t next : Ledger}

def lastInstalled (t : Ledger) (name : String) : Option CommitRecord :=
  ((t.ofName name).filter fun record => t.installed record.slot).getLast?

structure Accounted (s : Server) (t : Ledger) : Prop where
  sole : SoleWriters (·.kind = .close) t.node
  listed : ∀ record ∈ t.commits, ∃ h, t.node.handlers record.slot = some h ∧ h.call.name = record.name ∧
    (h.stage.pending = true ∨ h.produced.isSome = true)
  window : ∀ slot h, t.node.handlers slot = some h → h.stage.pending = true →
    ∃ record, (t.ofName h.call.name).getLast? = some record ∧ record.slot = slot ∧
      ∀ primes entry unsent, h.stage = .committed primes entry unsent → record.primes = primes
  version : ∀ name, t.node.server.base name =
    (t.lastReflected name).elim (s.base name) fun record => (t.produced record.slot).getD 0
  primes : ∀ name, t.node.server.filesPrimes.lookup name =
    (t.lastInstalled name).elim (s.filesPrimes.lookup name) fun record => some record.primes
  commitIndex : t.node.server.commitIndex = (t.commits.getLast?.map CommitRecord.index).getD s.commitIndex
  calm : ∀ recording, t.recording = some recording →
    (∀ slot h, t.node.handlers slot = some h → h.stage.pending = false) ∧
      recording.snapshot.commitIndex = t.node.server.commitIndex ∧
      (∀ name ∈ recording.todo, (t.node.server.table.lookup name).isSome = true) ∧
      ∀ info ∈ recording.snapshot.files, info.version = t.node.server.base info.filename ∧
        info.primeSet = t.node.server.recordedPrimes info.filename

theorem views_congr (commits : next.commits = t.commits)
    (same : ∀ record ∈ t.commits, next.produced record.slot = t.produced record.slot ∧
      next.installed record.slot = t.installed record.slot) (name : String) :
    next.lastReflected name = t.lastReflected name ∧ next.lastInstalled name = t.lastInstalled name := by
  have inside (record : CommitRecord) (member : record ∈ t.ofName name) : record ∈ t.commits :=
    List.mem_of_mem_filter member
  have named : next.ofName name = t.ofName name := by rw [ofName, ofName, commits]
  constructor
  · rw [lastReflected, named]
    exact congrArg _ (List.filter_congr fun record member => by rw [(same record (inside record member)).1])
  · rw [lastInstalled, named]
    exact congrArg _ (List.filter_congr fun record member => by rw [(same record (inside record member)).2])

variable {name : String} {before after server : Server} {slot : Nat} {h : Handler} {stage : Stage}

theorem reflected_produced {record : CommitRecord} (last : t.lastReflected name = some record) :
    record ∈ t.commits := by
  have member := List.mem_of_getLast? last
  exact List.mem_of_mem_filter (List.mem_of_mem_filter member)

theorem recordedPrimes_congr (same : after.filesPrimes = before.filesPrimes) (name : String) :
    after.recordedPrimes name = before.recordedPrimes name := by
  rw [Server.recordedPrimes, Server.recordedPrimes, same]

theorem Accounted.quiet (accounted : Accounted s t) (sole : SoleWriters (·.kind = .close) next.node)
    (commits : next.commits = t.commits) (recording : next.recording = t.recording)
    (same : ∀ record ∈ t.commits, next.produced record.slot = t.produced record.slot ∧
      next.installed record.slot = t.installed record.slot)
    (kept : ∀ slot h, t.node.handlers slot = some h → (h.stage.pending = true ∨ h.produced.isSome = true) →
      ∃ h', next.node.handlers slot = some h' ∧ h'.call = h.call ∧ (h'.stage.pending = true ∨ h'.produced.isSome = true))
    (old : ∀ slot h', next.node.handlers slot = some h' → h'.stage.pending = true →
      ∃ h, t.node.handlers slot = some h ∧ h'.call = h.call ∧ h.stage.pending = true ∧
        ∀ primes entry unsent, h'.stage = .committed primes entry unsent →
          ∃ earlier, h.stage = .committed primes entry earlier)
    (entries : ∀ name, next.node.server.base name = t.node.server.base name ∧
      ((t.node.server.table.lookup name).isSome = true → (next.node.server.table.lookup name).isSome = true))
    (filesPrimes : next.node.server.filesPrimes = t.node.server.filesPrimes)
    (commitIndex : next.node.server.commitIndex = t.node.server.commitIndex) : Accounted s next where
  sole := sole
  listed record member := by
    rw [commits] at member
    obtain ⟨h, here, name, standing⟩ := accounted.listed record member
    obtain ⟨h', there, call, later⟩ := kept record.slot h here standing
    exact ⟨h', there, by rw [call, name], later⟩
  window slot h' there pending := by
    obtain ⟨h, here, call, before, committed⟩ := old slot h' there pending
    obtain ⟨record, last, own, set⟩ := accounted.window slot h here before
    refine ⟨record, by rw [ofName, commits, call]; exact last, own, fun primes entry unsent stage => ?_⟩
    obtain ⟨earlier, was⟩ := committed primes entry unsent stage
    exact set primes entry earlier was
  version name := by
    rw [(entries name).1, accounted.version, (views_congr commits same name).1]
    cases last : t.lastReflected name with
    | none => rfl
    | some record => simp only [Option.elim_some, (same record (reflected_produced last)).1]
  primes name := by rw [filesPrimes, accounted.primes, (views_congr commits same name).2]
  commitIndex := by rw [commitIndex, accounted.commitIndex, commits]
  calm found there := by
    rw [recording] at there
    obtain ⟨none_pending, index, todo, files⟩ := accounted.calm found there
    refine ⟨fun slot h' here => ?_, by rw [index, commitIndex], fun name member => (entries name).2 (todo name member),
      fun info member => ?_⟩
    · by_contra pending
      obtain ⟨h, was, _, before, _⟩ := old slot h' here (by simpa using pending)
      rw [none_pending slot h was] at before
      cases before
    · rw [(entries info.filename).1, recordedPrimes_congr filesPrimes]
      exact files info member

def moved (t : Ledger) (slot : Nat) (h : Handler) (server : Server) (added : List CommitRecord) : Ledger :=
  { t with node := ⟨server, Function.update t.node.handlers slot (some h)⟩, commits := t.commits ++ added }

section Moved

variable (slot : Nat) (h : Handler) (server : Server) (added : List CommitRecord)

@[simp] theorem handlers_moved :
    (t.moved slot h server added).node.handlers = Function.update t.node.handlers slot (some h) := rfl

@[simp] theorem server_moved : (t.moved slot h server added).node.server = server := rfl

theorem produced_moved (other : Nat) :
    (t.moved slot h server added).produced other = if other = slot then h.produced else t.produced other := by
  rw [produced, handlers_moved, Function.update_apply]
  split_ifs <;> rfl

theorem installed_moved (other : Nat) :
    (t.moved slot h server added).installed other = if other = slot then h.installed else t.installed other := by
  rw [installed, handlers_moved, Function.update_apply]
  split_ifs <;> rfl

theorem handler_moved {other : Nat} {found : Handler}
    (there : (t.moved slot h server added).node.handlers other = some found) :
    other = slot ∧ found = h ∨ other ≠ slot ∧ t.node.handlers other = some found :=
  update_cases there

theorem handler_stays {other : Nat} {found : Handler} (different : other ≠ slot)
    (there : t.node.handlers other = some found) : (t.moved slot h server added).node.handlers other = some found := by
  rw [handlers_moved, Function.update_of_ne different, there]

end Moved

theorem Accounted.unlisted (accounted : Accounted s t) (slot : Nat) (h : Handler)
    (here : t.node.handlers slot = some h) (early : h.stage.pending = false) (open_ : h.produced = none)
    (record : CommitRecord) (member : record ∈ t.commits) : record.slot ≠ slot := by
  rintro rfl
  obtain ⟨found, there, _, standing⟩ := accounted.listed record member
  obtain rfl := Option.some.inj (here.symm.trans there)
  rcases standing with pending | produced
  · rw [early] at pending
    cases pending
  · rw [open_] at produced
    cases produced

theorem produced_inside (h : Handler) (inside : h.stage.inside = true) : h.produced = none := by
  unfold Handler.produced
  split
  case h_1 stage =>
    rw [stage] at inside
    cases inside
  case h_2 => rfl

theorem Accounted.before_commit (accounted : Accounted s t)
    (here : t.node.handlers slot = some h) (early : h.stage.pending = false) (open_ : h.produced = none)
    (still : stage.pending = false) (sole : SoleWriters (·.kind = .close) (t.moved slot { h with stage := stage } server []).node)
    (entries : ∀ name, server.base name = t.node.server.base name ∧
      ((t.node.server.table.lookup name).isSome = true → (server.table.lookup name).isSome = true))
    (filesPrimes : server.filesPrimes = t.node.server.filesPrimes)
    (commitIndex : server.commitIndex = t.node.server.commitIndex) :
    Accounted s (t.moved slot { h with stage := stage } server []) := by
  have unlisted := accounted.unlisted slot h here early open_
  refine accounted.quiet sole (List.append_nil _) rfl (fun record member => ?_) (fun other found there standing => ?_)
    (fun other found there pending => ?_) entries filesPrimes commitIndex
  · rw [produced_moved, installed_moved, if_neg (unlisted record member), if_neg (unlisted record member)]
    exact ⟨rfl, rfl⟩
  · have different : other ≠ slot := by
      rintro rfl
      obtain rfl := Option.some.inj (here.symm.trans there)
      simp [early, open_] at standing
    exact ⟨found, handler_stays slot _ server [] different there, rfl, standing⟩
  · rcases handler_moved slot _ server [] there with ⟨_, rfl⟩ | ⟨_, was⟩
    · rw [still] at pending
      cases pending
    · exact ⟨found, was, rfl, pending, fun primes entry unsent stage => ⟨unsent, stage⟩⟩

theorem Accounted.announcing (accounted : Accounted s t)
    (here : t.node.handlers slot = some h) (before : h.stage.pending = true) (after : stage.pending = true)
    (unprimed : ∀ entry, stage = .primed entry → h.stage = .primed entry)
    (committed : ∀ primes entry unsent, stage = .committed primes entry unsent →
      ∃ earlier, h.stage = .committed primes entry earlier)
    (sole : SoleWriters (·.kind = .close) (t.moved slot { h with stage := stage } server []).node)
    (entries : ∀ name, server.base name = t.node.server.base name ∧
      ((t.node.server.table.lookup name).isSome = true → (server.table.lookup name).isSome = true))
    (filesPrimes : server.filesPrimes = t.node.server.filesPrimes)
    (commitIndex : server.commitIndex = t.node.server.commitIndex) :
    Accounted s (t.moved slot { h with stage := stage } server []) := by
  have produced : Handler.produced { h with stage := stage } = none :=
    produced_inside _ (Stage.inside_of_pending after)
  have installed : Handler.installed { h with stage := stage } = h.installed := by
    unfold Handler.installed
    cases stage with
    | primed entry => rw [unprimed entry rfl]
    | committed primes entry unsent =>
      obtain ⟨earlier, was⟩ := committed primes entry unsent rfl
      rw [was]
    | _ => cases after
  refine accounted.quiet sole (List.append_nil _) rfl (fun record member => ?_) (fun other found there standing => ?_)
    (fun other found there pending => ?_) entries filesPrimes commitIndex
  · rw [produced_moved, installed_moved, produced, installed]
    split_ifs with own
    · rw [own, Ledger.produced, Ledger.installed, here]
      exact ⟨(produced_inside h (Stage.inside_of_pending before)).symm, rfl⟩
    · exact ⟨rfl, rfl⟩
  · rcases eq_or_ne other slot with rfl | different
    · obtain rfl := Option.some.inj (here.symm.trans there)
      exact ⟨_, Function.update_self .., rfl, .inl after⟩
    · exact ⟨found, handler_stays slot _ server [] different there, rfl, standing⟩
  · rcases handler_moved slot _ server [] there with ⟨rfl, rfl⟩ | ⟨_, was⟩
    · exact ⟨h, here, rfl, before, committed⟩
    · exact ⟨found, was, rfl, pending, fun primes entry unsent stage => ⟨unsent, stage⟩⟩

theorem ofName_moved (slot : Nat) (h : Handler) (server : Server) (added : List CommitRecord) (name : String) :
    (t.moved slot h server added).ofName name = t.ofName name ++ added.filter fun record => record.name = name :=
  List.filter_append ..

theorem Accounted.commits (accounted : Accounted s t) (slot : Nat) (h : Handler) (server : Server)
    (primes : FilePrimeSet) (entry : LogEntry) (unsent : List String) (here : t.node.handlers slot = some h)
    (early : h.stage.pending = false) (inside : h.stage.inside = true) (free : t.recording = none)
    (sole : SoleWriters (·.kind = .close) (t.moved slot { h with stage := .committed primes entry unsent } server []).node)
    (table : server.table = t.node.server.table) (filesPrimes : server.filesPrimes = t.node.server.filesPrimes)
    (commitIndex : server.commitIndex = entry.index.toNat) :
    Accounted s (t.moved slot { h with stage := .committed primes entry unsent } server
      [⟨slot, h.call.name, entry.index.toNat, primes⟩]) := by
  have unlisted := accounted.unlisted slot h here early (produced_inside h inside)
  -- The new commit shows in neither view yet, and leaves the standing of the others alone.
  have views (name : String) :
      (t.moved slot { h with stage := .committed primes entry unsent } server
        [⟨slot, h.call.name, entry.index.toNat, primes⟩]).lastReflected name = t.lastReflected name ∧
      (t.moved slot { h with stage := .committed primes entry unsent } server
        [⟨slot, h.call.name, entry.index.toNat, primes⟩]).lastInstalled name = t.lastInstalled name := by
    have other (record : CommitRecord) (member : record ∈ t.ofName name) : record.slot ≠ slot :=
      unlisted record (List.mem_of_mem_filter member)
    constructor
    · rw [lastReflected, ofName_moved, List.filter_append]
      refine congrArg _ ((congrArg₂ _ (List.filter_congr fun record member => ?_) ?_).trans (List.append_nil _))
      · rw [produced_moved, if_neg (other record member)]
      · refine List.filter_eq_nil_iff.mpr fun record member => ?_
        obtain rfl := List.mem_singleton.mp (List.mem_of_mem_filter member)
        rw [produced_moved]
        simp [Handler.produced]
    · rw [lastInstalled, ofName_moved, List.filter_append]
      refine congrArg _ ((congrArg₂ _ (List.filter_congr fun record member => ?_) ?_).trans (List.append_nil _))
      · rw [installed_moved, if_neg (other record member)]
      · refine List.filter_eq_nil_iff.mpr fun record member => ?_
        obtain rfl := List.mem_singleton.mp (List.mem_of_mem_filter member)
        rw [installed_moved]
        simp [Handler.installed]
  constructor
  case sole => exact sole
  case listed =>
    intro record member
    rcases List.mem_append.mp member with earlier | new
    · obtain ⟨found, there, name, standing⟩ := accounted.listed record earlier
      exact ⟨found, handler_stays slot _ server _ (unlisted record earlier) there, name, standing⟩
    · obtain rfl := List.mem_singleton.mp new
      exact ⟨_, Function.update_self .., rfl, .inl rfl⟩
  case window =>
    intro other found there pending
    rcases handler_moved slot _ server _ there with ⟨rfl, rfl⟩ | ⟨different, was⟩
    · refine ⟨⟨other, h.call.name, entry.index.toNat, primes⟩, ?_, rfl, fun _ _ _ stage => ?_⟩
      · rw [ofName_moved]
        simp
      · cases stage
        rfl
    · have apart : h.call.name ≠ found.call.name := fun same => different
        (accounted.sole.alone slot h other found here inside was (Stage.inside_of_pending pending) same.symm).symm
      obtain ⟨record, last, own, set⟩ := accounted.window other found was pending
      refine ⟨record, ?_, own, set⟩
      rw [ofName_moved, List.filter_singleton, decide_eq_false apart]
      simpa using last
  case version =>
    intro name
    rw [server_moved, t.node.server.base_of_lookup server name (by rw [table]), accounted.version, (views name).1]
    cases last : t.lastReflected name with
    | none => rfl
    | some record =>
      rw [Option.elim_some, Option.elim_some, produced_moved,
        if_neg (unlisted record (reflected_produced last))]
  case primes =>
    intro name
    rw [server_moved, filesPrimes, accounted.primes, (views name).2]
  case commitIndex =>
    rw [server_moved, commitIndex, moved, List.getLast?_append]
    rfl
  case calm =>
    intro recording there
    rw [moved, free] at there
    cases there

theorem Accounted.apart (accounted : Accounted s t) (slot : Nat) (h : Handler) (here : t.node.handlers slot = some h)
    (name : String) (different : name ≠ h.call.name) (record : CommitRecord) (member : record ∈ t.ofName name) :
    record.slot ≠ slot := by
  rintro rfl
  obtain ⟨inside, named⟩ := List.mem_filter.mp member
  obtain ⟨found, there, own, _⟩ := accounted.listed record inside
  obtain rfl := Option.some.inj (here.symm.trans there)
  exact different (by rw [own, of_decide_eq_true named])

theorem ofName_still (slot : Nat) (h : Handler) (server : Server) (name : String) :
    (t.moved slot h server []).ofName name = t.ofName name := by
  rw [ofName_moved, List.filter_nil, List.append_nil]

theorem Accounted.views_apart (accounted : Accounted s t) (h' : Handler) (server : Server)
    (here : t.node.handlers slot = some h) (different : name ≠ h.call.name) :
    (t.moved slot h' server []).lastReflected name = t.lastReflected name ∧
      (t.moved slot h' server []).lastInstalled name = t.lastInstalled name := by
  have other := accounted.apart slot h here name different
  constructor
  · rw [lastReflected, ofName_still]
    exact congrArg _ (List.filter_congr fun record member => by rw [produced_moved, if_neg (other record member)])
  · rw [lastInstalled, ofName_still]
    exact congrArg _ (List.filter_congr fun record member => by rw [installed_moved, if_neg (other record member)])

theorem Accounted.elsewhere (accounted : Accounted s t) (slot : Nat) (h h' : Handler) (server : Server)
    (here : t.node.handlers slot = some h) (name : String) (different : name ≠ h.call.name) :
    ((t.moved slot h' server []).lastReflected name).elim (s.base name)
        (fun record => ((t.moved slot h' server []).produced record.slot).getD 0) =
      (t.lastReflected name).elim (s.base name) fun record => (t.produced record.slot).getD 0 := by
  rw [(accounted.views_apart h' server here different).1]
  cases last : t.lastReflected name with
  | none => rfl
  | some record =>
    have member : record ∈ t.ofName name := List.mem_of_mem_filter (List.mem_of_getLast? last)
    rw [Option.elim_some, Option.elim_some, produced_moved,
      if_neg (accounted.apart slot h here name different record member)]

theorem Accounted.listed_moved (accounted : Accounted s t) (server : Server) (here : t.node.handlers slot = some h)
    (standing : stage.pending = true ∨ (Handler.produced { h with stage := stage }).isSome = true)
    (record : CommitRecord) (member : record ∈ (t.moved slot { h with stage := stage } server []).commits) :
    ∃ found, (t.moved slot { h with stage := stage } server []).node.handlers record.slot = some found ∧
      found.call.name = record.name ∧ (found.stage.pending = true ∨ found.produced.isSome = true) := by
  rw [moved, List.append_nil] at member
  obtain ⟨found, there, name, before⟩ := accounted.listed record member
  rcases eq_or_ne record.slot slot with own | different
  · rw [own] at there ⊢
    obtain rfl := Option.some.inj (here.symm.trans there)
    exact ⟨_, Function.update_self .., name, standing⟩
  · exact ⟨found, handler_stays slot _ server [] different there, name, before⟩

theorem Accounted.installs (accounted : Accounted s t)
    {primes : FilePrimeSet} {entry : LogEntry} {unsent : List String} (here : t.node.handlers slot = some h)
    (before : h.stage = .committed primes entry unsent) (free : t.recording = none)
    (sole : SoleWriters (·.kind = .close) (t.moved slot { h with stage := .primed entry } server []).node)
    (table : server.table = t.node.server.table)
    (filesPrimes : server.filesPrimes = t.node.server.filesPrimes.insert h.call.filename primes)
    (commitIndex : server.commitIndex = t.node.server.commitIndex) :
    Accounted s (t.moved slot { h with stage := .primed entry } server []) := by
  have named := (accounted.sole.calls slot h here).2.2
  obtain ⟨record, last, own, set⟩ := accounted.window slot h here (by rw [before]; rfl)
  constructor
  case sole => exact sole
  case listed => exact accounted.listed_moved server here (.inl rfl)
  case window =>
    intro other found there pending
    rw [ofName_still]
    rcases handler_moved slot _ server [] there with ⟨rfl, rfl⟩ | ⟨_, was⟩
    · exact ⟨record, last, own, nofun⟩
    · exact accounted.window other found was pending
  case version =>
    intro name
    rw [server_moved, t.node.server.base_of_lookup server name (by rw [table]), accounted.version]
    have same (record : CommitRecord) : (t.moved slot { h with stage := .primed entry } server []).produced record.slot =
        t.produced record.slot := by
      rw [produced_moved]
      split_ifs with mine
      · rw [mine, Ledger.produced, here]
        exact (produced_inside h (by rw [before]; rfl)).symm
      · rfl
    rw [lastReflected, lastReflected, ofName_still]
    simp only [same]
  case primes =>
    intro name
    rw [server_moved, filesPrimes]
    by_cases mine : name = h.call.name
    · have shown : (t.moved slot { h with stage := .primed entry } server []).lastInstalled name = some record := by
        rw [lastInstalled, ofName_still, mine]
        exact getLast?_filter _ _ record last (by rw [installed_moved, if_pos own]; rfl)
      rw [shown, Option.elim_some, set primes entry unsent before, mine, named, AList.lookup_insert]
    · rw [(accounted.views_apart _ server here mine).2, ← accounted.primes]
      exact AList.lookup_insert_ne (named ▸ mine)
  case commitIndex => rw [server_moved, commitIndex, accounted.commitIndex, moved, List.append_nil]
  case calm =>
    intro recording there
    rw [moved, free] at there
    cases there

theorem Accounted.finishes (accounted : Accounted s t) (slot : Nat) (h : Handler) (server : Server)
    (response : Response) (entry : LogEntry) (here : t.node.handlers slot = some h) (before : h.stage = .primed entry)
    (sole : SoleWriters (·.kind = .close) (t.moved slot { h with stage := .ended (.ok response) (some entry) } server []).node)
    (version : ∀ found, t.node.server.table.lookup h.call.name = some found →
      response.version = some (found.version + 1))
    (table : ∀ other, server.table.lookup other = if other = h.call.name then
      (t.node.server.table.lookup other).map fun found => { found with version := found.version + 1, activeWriter := false }
      else t.node.server.table.lookup other) (filesPrimes : server.filesPrimes = t.node.server.filesPrimes)
    (commitIndex : server.commitIndex = t.node.server.commitIndex) :
    Accounted s (t.moved slot { h with stage := .ended (.ok response) (some entry) } server []) := by
  have pending : h.stage.pending = true := by rw [before]; rfl
  obtain ⟨record, last, own, _⟩ := accounted.window slot h here pending
  obtain ⟨found, present, _⟩ := accounted.sole.held slot h here (Stage.inside_of_pending pending)
  have produced : Handler.produced { h with stage := .ended (.ok response) (some entry) } = some (found.version + 1) :=
    version found present
  constructor
  case sole => exact sole
  case listed => exact accounted.listed_moved server here (.inr (by rw [produced]; rfl))
  case window =>
    intro other k there late
    rw [ofName_still]
    rcases handler_moved slot _ server [] there with ⟨rfl, rfl⟩ | ⟨_, was⟩
    · cases late
    · exact accounted.window other k was late
  case version =>
    intro name
    by_cases mine : name = h.call.name
    · have shown : (t.moved slot { h with stage := .ended (.ok response) (some entry) } server []).lastReflected name =
          some record := by
        rw [lastReflected, ofName_still, mine]
        exact getLast?_filter _ _ record last (by rw [produced_moved, if_pos own, produced]; rfl)
      have raised : server.base name = found.version + 1 :=
        server.base_entry name { found with version := found.version + 1, activeWriter := false }
          (by rw [table, if_pos mine, mine, present, Option.map_some])
      rw [shown, Option.elim_some, produced_moved, if_pos own, produced, Option.getD_some, server_moved, raised]
    · rw [accounted.elsewhere slot h _ server here name mine, ← accounted.version]
      exact t.node.server.base_of_lookup server name (by rw [table, if_neg mine])
  case primes =>
    intro name
    have same (record : CommitRecord) :
        (t.moved slot { h with stage := .ended (.ok response) (some entry) } server []).installed record.slot =
          t.installed record.slot := by
      rw [installed_moved]
      split_ifs with mine
      · rw [mine, Ledger.installed, here, Option.any_some, Handler.installed, Handler.installed, before]
      · rfl
    rw [server_moved, filesPrimes, accounted.primes, lastInstalled, lastInstalled, ofName_still]
    simp only [same]
  case commitIndex => rw [server_moved, commitIndex, accounted.commitIndex, moved, List.append_nil]
  case calm =>
    intro recording there
    have calm := (accounted.calm recording there).1 slot h here
    rw [pending] at calm
    cases calm

theorem Accounted.handler [LogCodec] (accounted : Accounted s t) (slot : Nat) (h : Handler) (action : HandlerStep)
    (server : Server) (stage : Stage) (here : t.node.handlers slot = some h)
    (free : action.locksServer = true → t.recording = none)
    (stepped : h.step t.node.server action = some (server, stage)) :
    Accounted s (t.moved slot { h with stage := stage } server (t.committing slot action)) := by
  obtain ⟨close, dirty, _⟩ := accounted.sole.calls slot h here
  have moves := h.step_moves t.node.server server action stage dirty stepped
  have sole := accounted.sole.moved slot h action server stage here moves
  have silent (quiet : ∀ io, action ≠ .commit io) : t.committing slot action = [] := by
    unfold committing
    split
    case h_1 io => exact (quiet io rfl).elim
    case h_2 => rfl
  cases Handler.step_publishes close stepped with
  | commit io primes entry majority awaiting acks _ before filesPrimes commitIndex =>
    have listed : t.committing slot (.commit io) = [⟨slot, h.call.name, entry.index.toNat, primes⟩] := by
      obtain ⟨call, stage⟩ := h
      cases before
      simp only [committing, here]
    have table : server.table = t.node.server.table := by
      cases moves with
      | stay _ _ _ _ _ _ _ table => exact table
      | commit _ _ _ _ _ _ _ table => exact table
    rw [listed]
    exact accounted.commits slot h server primes entry _ here (by rw [before]; rfl) (by rw [before]; rfl) (free rfl)
      sole table filesPrimes commitIndex
  | prime env primes entry unsent _ before filesPrimes commitIndex =>
    have table : server.table = t.node.server.table := by
      cases moves with
      | stay _ _ _ _ _ _ _ table => exact table
    exact accounted.installs here before (free rfl) sole table filesPrimes
      commitIndex
  | other _ _ _ quiet unprimed committed failed filesPrimes commitIndex =>
    rw [silent quiet]
    have entries (unfinished : ∀ response entry, stage ≠ .ended (.ok response) entry) (name : String) :=
      moves.base name fun _ => unfinished
    cases moves with
    | enter _ _ before | refuse _ _ before =>
      exact accounted.before_commit here (by rw [before]; rfl) (by rw [Handler.produced, before]) rfl sole
        (entries (by simp)) filesPrimes commitIndex
    | stay _ _ _ before after same =>
      have unended (response : Response) (entry : Option LogEntry) : stage ≠ .ended (.ok response) entry := by
        rintro rfl
        cases after
      cases late : h.stage.pending with
      | false =>
        exact accounted.before_commit here late (produced_inside h before) (same.trans late) sole (entries unended)
          filesPrimes commitIndex
      | true =>
        exact accounted.announcing here late (same.trans late) unprimed committed sole (entries unended) filesPrimes
          commitIndex
    | commit io => exact (quiet io rfl).elim
    | fail _ _ status entry before =>
      exact accounted.before_commit here (failed status entry rfl) (produced_inside h before) rfl sole
        (entries (by simp)) filesPrimes commitIndex
    | finish env _ response entry before version table =>
      exact accounted.finishes slot h server response entry here before sole version table filesPrimes commitIndex

theorem Accounted.begin (accounted : Accounted s t) (slot : Nat) (now : Time) (req : DataRequest) (node : Node)
    (dirty : req.dirty = true)
    (quiet : ∀ found, t.node.server.files.lookup req.fd = some found → normalizeQuiet found.filename = found.filename)
    (begun : t.node.begin slot .close now req = some node) : Accounted s { t with node := node } := by
  have sole := accounted.sole.begins dirty quiet (fun _ _ => rfl) begun
  rcases begin_opens begun with rfl | ⟨found, mode, absent, present, rfl⟩
  · exact accounted
  obtain ⟨table, same⟩ := t.node.server.getFileEntry_eq (Call.name ⟨.close, req, found.filename, mode⟩)
  have unlisted (record : CommitRecord) (member : record ∈ t.commits) : record.slot ≠ slot := by
    rintro rfl
    obtain ⟨h, there, _⟩ := accounted.listed record member
    rw [absent] at there
    cases there
  have moved : Accounted s (t.moved slot ⟨⟨.close, req, found.filename, mode⟩, .opened⟩
      (t.node.server.getFileEntry (Call.name ⟨.close, req, found.filename, mode⟩)).1 []) :=
    accounted.quiet sole (List.append_nil _) rfl
    (fun record member => by
      rw [produced_moved, installed_moved, if_neg (unlisted record member), if_neg (unlisted record member)]
      exact ⟨rfl, rfl⟩)
    (fun other h there standing => by
      have different : other ≠ slot := by
        rintro rfl
        rw [absent] at there
        cases there
      exact ⟨h, handler_stays slot _ _ [] different there, rfl, standing⟩)
    (fun other h there pending => by
      rcases handler_moved slot _ _ [] there with ⟨_, rfl⟩ | ⟨_, was⟩
      · cases pending
      · exact ⟨h, was, rfl, pending, fun primes entry unsent stage => ⟨unsent, stage⟩⟩)
    (fun name => ⟨t.node.server.base_getFileEntry _ name, fun there => by
      obtain ⟨entry, looked⟩ := Option.isSome_iff_exists.mp there
      obtain ⟨after, shown, _⟩ := t.node.server.lookup_getFileEntry _ name entry looked
      rw [server_moved, shown]
      rfl⟩) (by rw [server_moved, same]) (by rw [server_moved, same])
  rw [Ledger.moved, List.append_nil] at moved
  exact moved

theorem Accounted.records (accounted : Accounted s t) (recording : Option Recording)
    (calm : ∀ found, recording = some found →
      (∀ slot h, t.node.handlers slot = some h → h.stage.pending = false) ∧
        found.snapshot.commitIndex = t.node.server.commitIndex ∧
        (∀ name ∈ found.todo, (t.node.server.table.lookup name).isSome = true) ∧
        ∀ info ∈ found.snapshot.files, info.version = t.node.server.base info.filename ∧
          info.primeSet = t.node.server.recordedPrimes info.filename) :
    Accounted s { t with recording := recording } where
  sole := accounted.sole
  listed := accounted.listed
  window := accounted.window
  version := accounted.version
  primes := accounted.primes
  commitIndex := accounted.commitIndex
  calm := calm

theorem Accounted.step [LogCodec] (action : LedgerAction) (accounted : Accounted s t) (calm : t.Calm action)
    (moved : t.step action = some next) : Accounted s next := by
  cases action with
  | begin slot now req =>
    simp only [Ledger.step, Option.ite_none_right_eq_some, Option.map_eq_some_iff] at moved
    obtain ⟨⟨_, dirty⟩, node, begun, rfl⟩ := moved
    exact accounted.begin slot now req node dirty calm begun
  | handler slot action =>
    simp only [Ledger.step, Option.ite_none_left_eq_some, Option.map_eq_some_iff] at moved
    obtain ⟨able, node, stepped, rfl⟩ := moved
    obtain ⟨h, server, stage, here, progress, _, rfl⟩ := Node.handlerStep_cases stepped
    refine accounted.handler slot h action server stage here (fun locks => ?_) progress
    cases idle : t.recording with
    | none => rfl
    | some recording => exact absurd ⟨by rw [idle]; rfl, locks⟩ able
  | record now snapshotID =>
    simp only [Ledger.step, Option.ite_none_right_eq_some, Option.some.injEq] at moved
    obtain ⟨_, rfl⟩ := moved
    refine accounted.records _ fun found same => ?_
    cases same
    refine ⟨calm, rfl, fun name member => ?_, by simp⟩
    exact AList.lookup_isSome.mpr (AList.mem_keys.mpr member)
  | file name =>
    simp only [Ledger.step, Option.bind_eq_bind, Option.bind_eq_some_iff, Option.ite_none_right_eq_some,
      Option.some.injEq] at moved
    obtain ⟨recording, there, member, rfl⟩ := moved
    obtain ⟨quiet, index, todo, files⟩ := accounted.calm recording there
    refine accounted.records _ fun found same => ?_
    cases same
    refine ⟨quiet, index, fun other later => todo other (List.mem_of_mem_erase later), fun info visited => ?_⟩
    rcases List.mem_append.mp visited with earlier | new
    · exact files info earlier
    · obtain rfl := List.mem_singleton.mp new
      obtain ⟨entry, present⟩ := Option.isSome_iff_exists.mp (todo name member)
      refine ⟨?_, rfl⟩
      rw [t.node.server.base_entry name entry present, Server.entryVersion, present]
  | unlock =>
    simp only [Ledger.step, Option.bind_eq_bind, Option.bind_eq_some_iff, Option.ite_none_right_eq_some,
      Option.some.injEq] at moved
    obtain ⟨_, _, _, rfl⟩ := moved
    exact accounted.records none (by simp)

theorem start_accounted (s : Server) : Accounted s (start s) where
  sole := ⟨fun _ _ here => (by cases here), fun _ _ here => (by cases here), fun _ _ _ _ here => (by cases here)⟩
  listed _ member := by cases member
  window _ _ here := by cases here
  version _ := rfl
  primes _ := rfl
  commitIndex := rfl
  calm _ there := by cases there

theorem Accounted.oneCommitted (accounted : Accounted s t) {recording : Recording}
    (there : t.recording = some recording) : t.OneCommitted s recording.snapshot := by
  obtain ⟨quiet, index, _, files⟩ := accounted.calm recording there
  -- With no Close in its window every commit has its version and its set in place.
  have through (record : CommitRecord) (member : record ∈ t.commits) :
      (t.produced record.slot).isSome = true ∧ t.installed record.slot = true := by
    obtain ⟨h, here, _, standing⟩ := accounted.listed record member
    rcases standing with pending | produced
    · rw [quiet record.slot h here] at pending
      cases pending
    · rw [Ledger.produced, Ledger.installed, here]
      refine ⟨produced, ?_⟩
      unfold Handler.produced at produced
      split at produced
      case h_1 stage => rw [Option.any_some, Handler.installed, stage]
      case h_2 => cases produced
  have named (name : String) (record : CommitRecord) (member : record ∈ t.ofName name) :=
    through record (List.mem_of_mem_filter member)
  have same (name : String) : t.lastInstalled name = t.lastReflected name := by
    exact congrArg _ (List.filter_congr fun record member => by rw [(named name record member).1, (named name record member).2])
  constructor
  case files =>
    intro info member
    obtain ⟨version, set⟩ := files info member
    have primes := accounted.primes info.filename
    rw [same] at primes
    rw [accounted.version] at version
    cases last : t.lastReflected info.filename with
    | none =>
      rw [last] at version primes
      exact ⟨version, by rw [set, Server.recordedPrimes, Server.recordedPrimes, primes, Option.elim_none]⟩
    | some record =>
      rw [last] at version primes
      obtain ⟨number, shown⟩ := Option.isSome_iff_exists.mp (through record (reflected_produced last)).1
      rw [Option.elim_some, shown, Option.getD_some] at version
      exact ⟨by rw [shown, version], by rw [set, Server.recordedPrimes, primes, Option.elim_some]⟩
  case commitIndex =>
    have all : t.reflected = t.commits := List.filter_eq_self.mpr fun record member => (through record member).1
    rw [index, accounted.commitIndex, all]

theorem record_files [LogCodec] (names : List String) (snapshot : GlobalSnapshot)
    (there : t.recording = some ⟨snapshot, names⟩) :
    Transition.run step t (names.map .file) = some { t with
      recording := some ⟨{ snapshot with files := snapshot.files ++ names.map fun name =>
        ⟨name, t.node.server.entryVersion name, t.node.server.recordedPrimes name, t.node.server.commitIndex⟩ }, []⟩ } := by
  induction names generalizing t snapshot with
  | nil =>
    rw [List.map_nil, Transition.run_nil, List.map_nil, List.append_nil, ← there]
  | cons name rest ih =>
    rw [List.map_cons, Transition.run_cons]
    have later := @ih { t with
      recording := some ⟨{ snapshot with files := snapshot.files ++ [⟨name, t.node.server.entryVersion name,
        t.node.server.recordedPrimes name, t.node.server.commitIndex⟩] }, rest⟩ } _ rfl
    refine ⟨_, ?_, later.trans ?_⟩
    · simp only [step, there, Option.bind_eq_bind, Option.bind_some, List.mem_cons_self, if_pos, List.erase_cons_head]
    · simp [List.append_assoc]

theorem record_alone [LogCodec] (t : Ledger) (now : Time) (snapshotID : String) (idle : t.recording = none)
    (leads : t.node.server.role = .primary) :
    Transition.run step t (.record now snapshotID :: t.node.server.table.keys.map .file) =
      some { t with recording := some ⟨t.node.server.initiatedSnapshot now snapshotID, []⟩ } := by
  have files := @record_files { t with
    recording := some ⟨{ t.node.server.initiatedSnapshot now snapshotID with files := [] }, t.node.server.table.keys⟩ }
    _ _ _ rfl
  refine (Transition.run_cons ..).mpr ⟨_, ?_, files.trans ?_⟩
  · rw [step, if_pos ⟨by rw [idle]; rfl, leads⟩]
  · have visited : (t.node.server.table.keys.map fun name => (⟨name, t.node.server.entryVersion name,
        t.node.server.recordedPrimes name, t.node.server.commitIndex⟩ : SnapshotFileInfo)) =
        t.node.server.snapshotFiles t.node.server.recordedPrimes := by
      rw [AList.keys, List.keys, List.map_map]
      refine List.map_congr_left fun item member => ?_
      have present := AList.mem_lookup_iff.mpr member
      simp only [Function.comp_apply, Server.entryVersion, Option.mem_def.mp present]
    simp only [visited]
    rfl

theorem firstOpened_recorded : ∃ final, Transition.run step (.start firstOpened)
      (.record 0 "s" :: firstOpened.table.keys.map .file) = some final ∧
    final.recording = some ⟨firstOpened.initiatedSnapshot 0 "s", []⟩ :=
  ⟨_, record_alone (.start firstOpened) 0 "s" rfl (by decide +kernel), rfl⟩

end Ledger

theorem recorded_state_is_one_committed [LogCodec] (s : Server) (actions : List LedgerAction) (final : Ledger)
    (calm : Transition.Meets Ledger.step Ledger.Calm (.start s) actions)
    (reached : Transition.run Ledger.step (.start s) actions = some final) (recording : Recording)
    (there : final.recording = some recording) : final.OneCommitted s recording.snapshot :=
  (Transition.run_invariant Ledger.Calm (Ledger.Accounted s)
    (fun _ action _ accounted calm moved => accounted.step action calm moved) (.start s) (Ledger.start_accounted s)
    actions calm reached).oneCommitted there

def snapshotAfterClose : List LedgerAction :=
  .begin 0 0 closeRequest :: closeSteps.map (.handler 0) ++ [.record 0 "s", .file "output/a"]

def snapshotInWindow : List LedgerAction :=
  .begin 0 0 closeRequest :: (closeSteps.take 8).map (.handler 0) ++ [.record 0 "s", .file "output/a"]

def calmLedger (t : Ledger) : LedgerAction → Bool
  | .begin slot _ req => slot = 0 && (t.node.server.files.lookup req.fd).all fun found =>
      normalizeQuiet found.filename = found.filename
  | .handler slot _ => slot = 0
  | .record _ _ => (t.node.handlers 0).all fun h => !h.stage.pending
  | _ => true

variable {action : LedgerAction} {t : Ledger}

theorem calmLedger_only (next : Ledger) (checked : calmLedger t action = true)
    (only : ∀ slot, slot ≠ 0 → t.node.handlers slot = none) (moved : t.step action = some next) (slot : Nat)
    (other : slot ≠ 0) : next.node.handlers slot = none := by
  cases action with
  | begin own now req =>
    simp only [calmLedger, Bool.and_eq_true, decide_eq_true_eq] at checked
    simp only [Ledger.step, Option.ite_none_right_eq_some, Option.map_eq_some_iff] at moved
    obtain ⟨_, node, begun, rfl⟩ := moved
    rcases begin_opens begun with rfl | ⟨_, _, _, _, rfl⟩
    · exact only slot other
    · exact (Function.update_of_ne (checked.1 ▸ other) ..).trans (only slot other)
  | handler own action =>
    simp only [calmLedger, decide_eq_true_eq] at checked
    simp only [Ledger.step, Option.ite_none_left_eq_some, Option.map_eq_some_iff] at moved
    obtain ⟨_, node, stepped, rfl⟩ := moved
    obtain ⟨_, _, _, _, _, _, rfl⟩ := Node.handlerStep_cases stepped
    exact (Function.update_of_ne (checked ▸ other) ..).trans (only slot other)
  | record =>
    simp only [Ledger.step, Option.ite_none_right_eq_some, Option.some.injEq] at moved
    exact moved.2 ▸ only slot other
  | file name | unlock =>
    simp only [Ledger.step, Option.bind_eq_bind, Option.bind_eq_some_iff, Option.ite_none_right_eq_some,
      Option.some.injEq] at moved
    obtain ⟨_, _, _, rfl⟩ := moved
    exact only slot other

theorem calmLedger_calm (checked : calmLedger t action = true)
    (only : ∀ slot, slot ≠ 0 → t.node.handlers slot = none) : t.Calm action := by
  cases action with
  | begin own now req =>
    intro found present
    simp only [calmLedger, present, Option.all_some, Bool.and_eq_true, decide_eq_true_eq] at checked
    exact checked.2
  | record now snapshotID =>
    intro slot h here
    rcases eq_or_ne slot 0 with rfl | other
    · simpa [calmLedger, here] using checked
    · rw [only slot other] at here
      cases here
  | _ => trivial

theorem Ledger.meets_calm {actions : List LedgerAction} (only : ∀ slot, slot ≠ 0 → t.node.handlers slot = none)
    (checked : Transition.check Ledger.step calmLedger t actions = true) :
    Transition.Meets Ledger.step Ledger.Calm t actions := by
  refine Transition.meets_along _ calmLedger (fun t => ∀ slot, slot ≠ 0 → t.node.handlers slot = none) t actions ?_ ?_
    only checked
  · exact fun t next action _ only checked moved => calmLedger_only next checked only moved
  · exact fun t action _ only checked => calmLedger_calm checked only

theorem snapshotAfterClose_committed :
    ∃ final recording, Transition.run Ledger.step (.start firstOpened) snapshotAfterClose = some final ∧
      final.recording = some recording ∧ final.OneCommitted firstOpened recording.snapshot ∧
      recording.snapshot.commitIndex = 1 ∧ recording.snapshot.files = [⟨"output/a", 1, [2], 1⟩] := by
  have outcome : ((Transition.run Ledger.step (.start firstOpened) snapshotAfterClose).bind Ledger.recording).map
      (fun recording => (recording.snapshot.commitIndex, recording.snapshot.files)) =
        some (1, [⟨"output/a", 1, [2], 1⟩]) := by decide +kernel
  obtain ⟨recording, found, facts⟩ := Option.map_eq_some_iff.mp outcome
  obtain ⟨final, reached, there⟩ := Option.bind_eq_some_iff.mp found
  have checked : Transition.check Ledger.step calmLedger (.start firstOpened) snapshotAfterClose = true := by
    decide +kernel
  have calm := Ledger.meets_calm (fun _ _ => rfl) checked
  exact ⟨final, recording, reached, there,
    recorded_state_is_one_committed firstOpened snapshotAfterClose final calm reached recording there,
    congrArg Prod.fst facts, congrArg Prod.snd facts⟩

-- The snapshot has the commit index of the Close and the version and the set from before it.
theorem snapshot_between_commit_and_set :
    ∃ final recording, Transition.run Ledger.step (.start firstOpened) snapshotInWindow = some final ∧
      final.recording = some recording ∧ recording.todo = [] ∧ recording.snapshot.commitIndex = 1 ∧
      recording.snapshot.files = [⟨"output/a", 0, [], 1⟩] ∧ ¬final.OneCommitted firstOpened recording.snapshot := by
  have outcome : (Transition.run Ledger.step (.start firstOpened) snapshotInWindow).bind (fun final =>
      final.recording.map fun recording => (recording.todo, recording.snapshot.commitIndex, recording.snapshot.files,
        final.reflected.length)) = some ([], 1, [⟨"output/a", 0, [], 1⟩], 0) := by decide +kernel
  obtain ⟨final, reached, found⟩ := Option.bind_eq_some_iff.mp outcome
  obtain ⟨recording, there, facts⟩ := Option.map_eq_some_iff.mp found
  simp only [Prod.mk.injEq] at facts
  obtain ⟨todo, index, files, none_reflected⟩ := facts
  refine ⟨final, recording, reached, there, todo, index, files, fun one => ?_⟩
  have start : firstOpened.commitIndex = 0 := by decide +kernel
  have shown := one.commitIndex
  rw [List.length_eq_zero_iff.mp none_reflected, index] at shown
  simp [start] at shown

end Ikkat
