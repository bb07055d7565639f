import Ikkat.FailedWrites
import Ikkat.Retries

set_option autoImplicit false

namespace Ikkat

variable {h : Handler} {action : HandlerStep} {slot : Nat} {s next : Server} {stage : Stage}

def Stage.inside : Stage → Bool
  | .opened | .ended _ _ => false
  | _ => true

def Stage.pending : Stage → Bool
  | .committed _ _ _ | .primed _ => true
  | _ => false

def Response.version : Response → Option Int32
  | .opened response => some response.version
  | .closed response => some response.version
  | .written response => some response.version
  | .deleted _ => none

namespace Server

theorem finishCall_version (env : Env) (s : Server) {call : Call} (dirty : call.req.dirty = true) (entry : FileEntry)
    (present : s.table.lookup call.name = some entry) :
    (s.finishCall env call).2.version = some (entry.version + 1) := by
  have raised : (s.bumpVersion env call).entryVersion call.name = entry.version + 1 := by
    have found := s.lookup_setEntry call.name call.name fun entry => { entry with version := entry.version + 1 }
    rw [if_pos rfl, present] at found
    have bumped : (s.bumpVersion env call).table.lookup call.name = some { entry with version := entry.version + 1 } := by
      rw [bumpVersion, if_pos dirty]
      exact found
    rw [entryVersion, bumped]
  unfold finishCall Call.response
  dsimp only
  rw [raised]
  cases call.kind <;> rfl

end Server

inductive Moves (s : Server) (h : Handler) : HandlerStep → Server → Stage → Prop where
  | enter (next : Server) (entry : FileEntry) (before : h.stage = .opened)
      (present : s.table.lookup h.call.name = some entry) (free : entry.activeWriter = false)
      (version : h.call.req.version = entry.version)
      (table : ∀ other, next.table.lookup other = if other = h.call.name then some { entry with activeWriter := true }
        else s.table.lookup other) : Moves s h .acquire next .locked
  | refuse (next : Server) (status : Status) (before : h.stage = .opened)
      (table : ∀ other, next.table.lookup other = s.table.lookup other) :
      Moves s h .acquire next (.ended (.error status) none)
  | stay (action : HandlerStep) (next : Server) (stage : Stage) (before : h.stage.inside = true)
      (after : stage.inside = true) (same : stage.pending = h.stage.pending) (other : ∀ io, action ≠ .commit io)
      (table : next.table = s.table) : Moves s h action next stage
  | commit (io : Nat → ApplyIO) (next : Server) (stage : Stage) (before : h.stage.inside = true)
      (early : h.stage.pending = false) (after : stage.inside = true) (late : stage.pending = true)
      (table : next.table = s.table) : Moves s h (.commit io) next stage
  | fail (action : HandlerStep) (next : Server) (status : Status) (entry : Option LogEntry)
      (before : h.stage.inside = true) (other : ∀ io, action ≠ .commit io)
      (table : ∀ other, next.table.lookup other = if other = h.call.name then
        (s.table.lookup other).map fun entry => { entry with activeWriter := false } else s.table.lookup other) :
      Moves s h action next (.ended (.error status) entry)
  | finish (env : Env) (next : Server) (response : Response) (entry : LogEntry) (before : h.stage = .primed entry)
      (version : ∀ entry, s.table.lookup h.call.name = some entry → response.version = some (entry.version + 1))
      (table : ∀ other, next.table.lookup other = if other = h.call.name then
        (s.table.lookup other).map fun entry => { entry with version := entry.version + 1, activeWriter := false }
        else s.table.lookup other) :
      Moves s h (.finish env) next (.ended (.ok response) (some entry))

theorem Handler.step_moves [LogCodec] (s next : Server) (h : Handler) (action : HandlerStep) (stage : Stage)
    (dirty : h.call.req.dirty = true) (stepped : h.step s action = some (next, stage)) :
    Moves s h action next stage := by
  have taken := Handler.step_takes stepped
  obtain ⟨call, before⟩ := h
  have freed (other : String) : (s.releaseWrite call.name).table.lookup other = if other = call.name then
      (s.table.lookup other).map fun entry => { entry with activeWriter := false } else s.table.lookup other :=
    s.lookup_setEntry call.name other _
  have held (free : s.canWrite call.name = true) : ∃ entry, s.table.lookup call.name = some entry ∧
      entry.activeWriter = false ∧ ∀ other, (s.acquireWrite call.name).table.lookup other =
        if other = call.name then some { entry with activeWriter := true } else s.table.lookup other := by
    unfold Server.canWrite at free
    split at free
    case h_1 => cases free
    case h_2 entry found =>
      simp only [FileEntry.canWrite, Bool.and_eq_true, Bool.not_eq_true'] at free
      refine ⟨entry, found, free.1, fun other => ?_⟩
      rw [Server.acquireWrite, s.lookup_setEntry]
      split_ifs with same
      · rw [same, found, Option.map_some]
      · rfl
  cases taken with
  | refuse status _ free refused =>
    obtain ⟨entry, present, idle, acquired⟩ := held free
    refine .refuse _ status rfl fun other => ?_
    rw [Server.releaseWrite, Server.lookup_setEntry, acquired]
    split_ifs with same
    · rw [same, present, Option.map_some, ← idle]
    · rfl
  | enter _ free allowed =>
    obtain ⟨entry, present, idle, acquired⟩ := held free
    refine .enter _ entry rfl present idle ?_ acquired
    have version : (s.acquireWrite call.name).entryVersion call.name = entry.version := by
      rw [Server.entryVersion, acquired, if_pos rfl]
    unfold Server.refusal at allowed
    split_ifs at allowed with mode conflict
    rw [← version]
    exact not_not.mp conflict
  | clean _ clean => cases dirty.symm.trans clean
  | unlogged | timeout | unprimed => exact .fail _ _ _ _ rfl (by simp) freed
  | commit => exact .commit _ _ _ rfl rfl rfl rfl rfl
  | finish env entry =>
    refine .finish env _ _ entry rfl (s.finishCall_version env dirty) fun other => ?_
    rw [Server.releaseWrite, Server.lookup_setEntry, s.lookup_finishCall env dirty]
    split_ifs
    · rw [Option.map_map]
      rfl
    · rfl
  | _ => exact .stay _ _ _ rfl rfl rfl (by simp) rfl

structure Chronicle where
  node : Node
  commits : List Nat

namespace Node

def succeeded (n : Node) (name : String) (slot : Nat) : Bool :=
  match n.handlers slot with
  | some ⟨call, .ended (.ok _) _⟩ => call.filename = name
  | _ => false

end Node

namespace Chronicle

def committing (t : Chronicle) (name : String) : NodeAction → List Nat
  | .handler slot (.commit _) =>
      match t.node.handlers slot with
      | some h => if h.call.filename = name then [slot] else []
      | none => []
  | _ => []

def step [LogCodec] (name : String) (t : Chronicle) (action : NodeAction) : Option Chronicle :=
  (t.node.step action).map fun node => ⟨node, t.commits ++ t.committing name action⟩

def order (t : Chronicle) (name : String) : List Nat := t.commits.filter (t.node.succeeded name)

end Chronicle

namespace Server

def base (s : Server) (name : String) : Int32 := (s.version name).getD 1

theorem base_of_lookup (s next : Server) (name : String)
    (same : next.table.lookup name = s.table.lookup name) : next.base name = s.base name := by
  unfold base version
  rw [same]

theorem base_entry (s : Server) (name : String) (entry : FileEntry) (present : s.table.lookup name = some entry) :
    s.base name = entry.version := by
  unfold base version
  rw [present]
  rfl

theorem lookup_getFileEntry (s : Server) (name other : String) (entry : FileEntry)
    (present : s.table.lookup other = some entry) :
    ∃ same, (s.getFileEntry name).1.table.lookup other = some same ∧ same.activeWriter = entry.activeWriter ∧
      same.version = entry.version := by
  rw [getFileEntry_table, getFileEntry_entry]
  split_ifs with own
  · subst own
    rw [present]
    exact ⟨_, rfl, rfl, rfl⟩
  · exact ⟨entry, present, rfl, rfl⟩

theorem base_getFileEntry (s : Server) (name other : String) : (s.getFileEntry name).1.base other = s.base other := by
  unfold base
  rw [version_getFileEntry]
  split_ifs with own
  · rw [own, Option.getD_some]
  · rfl

end Server

def Stage.passed : Stage → Bool
  | .committed _ _ _ | .primed _ | .ended _ _ => true
  | _ => false

theorem Stage.passed_of_pending (pending : stage.pending = true) : stage.passed = true := by
  cases stage <;> first | rfl | cases pending

theorem Stage.inside_of_pending (pending : stage.pending = true) : stage.inside = true := by
  cases stage <;> first | rfl | cases pending

theorem Moves.running
    (moves : Moves s h action next stage) (answer : Except Status Response) (entry : Option LogEntry) :
    h.stage ≠ .ended answer entry := by
  intro ended
  have opened : h.stage ≠ .opened := by simp [ended]
  have outside : h.stage.inside ≠ true := by simp [ended, Stage.inside]
  cases moves with
  | enter _ _ before | refuse _ _ before => exact opened before
  | stay _ _ _ before | commit _ _ _ before | fail _ _ _ _ before => exact outside before
  | finish _ _ _ _ before => simp [ended] at before

theorem Moves.passes (moves : Moves s h action next stage) (passed : h.stage.passed = true) : stage.passed = true := by
  cases moves with
  | enter _ _ before =>
    rw [before] at passed
    cases passed
  | refuse => rfl
  | stay _ _ _ before _ same =>
    have pending : h.stage.pending = true := by
      revert passed before
      cases h.stage <;> simp [Stage.passed, Stage.inside, Stage.pending]
    exact Stage.passed_of_pending (same.trans pending)
  | commit _ _ _ _ _ _ late => exact Stage.passed_of_pending late
  | fail => rfl
  | finish => rfl

theorem Moves.base (moves : Moves s h action next stage) (other : String)
    (unfinished : other = h.call.name → ∀ response entry, stage ≠ .ended (.ok response) entry) :
    next.base other = s.base other ∧
      ((s.table.lookup other).isSome = true → (next.table.lookup other).isSome = true) := by
  unfold Server.base Server.version
  cases moves with
  | enter _ entry _ present _ _ table =>
    rw [table]
    split_ifs with own
    · rw [own, present]
      exact ⟨rfl, id⟩
    · exact ⟨rfl, id⟩
  | refuse _ _ _ table | stay _ _ _ _ _ _ _ table | commit _ _ _ _ _ _ _ table =>
    rw [table]
    exact ⟨rfl, id⟩
  | fail _ _ _ _ _ _ table =>
    rw [table]
    split_ifs
    · cases s.table.lookup other <;> exact ⟨rfl, id⟩
    · exact ⟨rfl, id⟩
  | finish _ _ _ _ _ _ table =>
    rw [table, if_neg fun own => unfinished own _ _ rfl]
    exact ⟨rfl, id⟩

structure SoleWriters (allowed : Call → Prop) (n : Node) : Prop where
  calls : ∀ slot h, n.handlers slot = some h →
    allowed h.call ∧ h.call.req.dirty = true ∧ h.call.name = h.call.filename
  held : ∀ slot h, n.handlers slot = some h → h.stage.inside = true → ∃ entry,
    n.server.table.lookup h.call.name = some entry ∧ entry.activeWriter = true ∧ h.call.req.version = entry.version
  alone : ∀ slot h other h', n.handlers slot = some h → h.stage.inside = true → n.handlers other = some h' →
    h'.stage.inside = true → h'.call.name = h.call.name → slot = other

theorem begin_opens {n next : Node} {kind : Kind} {now : Time} {req : DataRequest}
    (begun : n.begin slot kind now req = some next) :
    next = n ∨ ∃ found mode, n.handlers slot = none ∧ n.server.files.lookup req.fd = some found ∧
      next = ⟨(n.server.getFileEntry (Call.name ⟨kind, req, found.filename, mode⟩)).1,
        Function.update n.handlers slot (some ⟨⟨kind, req, found.filename, mode⟩, .opened⟩)⟩ := by
  unfold Node.begin at begun
  split_ifs at begun with taken
  split at begun
  case h_1 result ended =>
    obtain ⟨s, answer, sent, rfl, rfl⟩ := Node.handle_returned begun
    obtain ⟨rfl, _⟩ := Server.beginCall_ended ended
    exact .inl rfl
  case h_2 s call opened =>
    cases begun
    obtain ⟨found, client, _, _, present, _, rfl, _⟩ := Server.beginCall_opened kind now n.server s req call opened
    exact .inr ⟨found, client.mode, by simpa using taken, present, by rw [Server.beginCall_entry opened]⟩

namespace SoleWriters

variable {allowed : Call → Prop} {n : Node}

theorem outside (sole : SoleWriters allowed n) (slot : Nat) (h : Handler) (server : Server)
    (call : allowed h.call ∧ h.call.req.dirty = true ∧ h.call.name = h.call.filename)
    (out : h.stage.inside = false) (held : ∀ other k, other ≠ slot → n.handlers other = some k → k.stage.inside = true →
      ∃ entry, server.table.lookup k.call.name = some entry ∧ entry.activeWriter = true ∧
        k.call.req.version = entry.version) :
    SoleWriters allowed ⟨server, Function.update n.handlers slot (some h)⟩ where
  calls other found here := by
    rcases update_cases here with ⟨_, rfl⟩ | ⟨_, there⟩
    · exact call
    · exact sole.calls other found there
  held other found here inside := by
    rcases update_cases here with ⟨_, rfl⟩ | ⟨different, there⟩
    · rw [out] at inside
      cases inside
    · exact held other found different there inside
  alone first found second k here inside there within same := by
    rcases update_cases here with ⟨_, rfl⟩ | ⟨_, old⟩
    · rw [out] at inside
      cases inside
    · rcases update_cases there with ⟨_, rfl⟩ | ⟨_, older⟩
      · rw [out] at within
        cases within
      · exact sole.alone first found second k old inside older within same

theorem inside_stays (sole : SoleWriters allowed n) {slot : Nat} {h : Handler} {server : Server} (stage : Stage)
    (here : n.handlers slot = some h) (inside : h.stage.inside = true) (table : server.table = n.server.table) :
    SoleWriters allowed ⟨server, Function.update n.handlers slot (some { h with stage := stage })⟩ where
  calls other found there := by
    rcases update_cases there with ⟨_, rfl⟩ | ⟨_, old⟩
    · exact sole.calls slot h here
    · exact sole.calls other found old
  held other found there within := by
    rw [table]
    rcases update_cases there with ⟨_, rfl⟩ | ⟨_, old⟩
    · exact sole.held slot h here inside
    · exact sole.held other found old within
  alone first found second k there within also also' same := by
    rcases update_cases there with ⟨rfl, rfl⟩ | ⟨_, old⟩
    · rcases update_cases also with ⟨rfl, _⟩ | ⟨_, older⟩
      · rfl
      · exact sole.alone first h second k here inside older also' same
    · rcases update_cases also with ⟨rfl, rfl⟩ | ⟨_, older⟩
      · exact sole.alone first found second h old within here inside same
      · exact sole.alone first found second k old within older also' same

theorem enters (sole : SoleWriters allowed n) (slot : Nat) (h : Handler) (server : Server) (entry : FileEntry)
    (here : n.handlers slot = some h) (present : n.server.table.lookup h.call.name = some entry)
    (free : entry.activeWriter = false) (version : h.call.req.version = entry.version)
    (table : ∀ other, server.table.lookup other = if other = h.call.name then some { entry with activeWriter := true }
      else n.server.table.lookup other) :
    SoleWriters allowed ⟨server, Function.update n.handlers slot (some { h with stage := .locked })⟩ := by
  have nobody (other : Nat) (k : Handler) (there : n.handlers other = some k) (inside : k.stage.inside = true) :
      k.call.name ≠ h.call.name := by
    intro same
    obtain ⟨found, looked, active, _⟩ := sole.held other k there inside
    rw [same, present, Option.some.injEq] at looked
    rw [← looked, free] at active
    cases active
  constructor
  case calls =>
    intro other found there
    rcases update_cases there with ⟨_, rfl⟩ | ⟨_, old⟩
    · exact sole.calls slot h here
    · exact sole.calls other found old
  case held =>
    intro other found there inside
    rcases update_cases there with ⟨_, rfl⟩ | ⟨_, old⟩
    · exact ⟨_, (table _).trans (if_pos rfl), rfl, version⟩
    · rw [table, if_neg (nobody other found old inside)]
      exact sole.held other found old inside
  case alone =>
    intro first found second k there inside also within same
    rcases update_cases there with ⟨rfl, rfl⟩ | ⟨_, old⟩
    · rcases update_cases also with ⟨rfl, _⟩ | ⟨_, older⟩
      · rfl
      · exact absurd same (nobody second k older within)
    · rcases update_cases also with ⟨_, rfl⟩ | ⟨_, older⟩
      · exact absurd same.symm (nobody first found old inside)
      · exact sole.alone first found second k old inside older within same

theorem moved (sole : SoleWriters allowed n) (slot : Nat) (h : Handler) (action : HandlerStep) (server : Server)
    (stage : Stage) (here : n.handlers slot = some h) (moves : Moves n.server h action server stage) :
    SoleWriters allowed ⟨server, Function.update n.handlers slot (some { h with stage := stage })⟩ := by
  have call := sole.calls slot h here
  have leaves (inside : h.stage.inside = true) (other : Nat) (k : Handler) (different : other ≠ slot)
      (there : n.handlers other = some k) (within : k.stage.inside = true)
      (table : ∀ name, name ≠ h.call.name → server.table.lookup name = n.server.table.lookup name) :
      ∃ entry, server.table.lookup k.call.name = some entry ∧ entry.activeWriter = true ∧
        k.call.req.version = entry.version := by
    have apart : k.call.name ≠ h.call.name := fun same =>
      different (sole.alone slot h other k here inside there within same).symm
    rw [table _ apart]
    exact sole.held other k there within
  cases moves with
  | enter _ entry _ present free version table => exact sole.enters slot h server entry here present free version table
  | refuse _ _ _ table =>
    refine sole.outside slot _ server call rfl fun other k _ there within => ?_
    rw [table]
    exact sole.held other k there within
  | stay _ _ _ before _ _ _ table | commit _ _ _ before _ _ _ table => exact sole.inside_stays stage here before table
  | fail _ _ _ _ before _ table =>
    exact sole.outside slot _ server call rfl fun other k different there within =>
      leaves before other k different there within fun name apart => by rw [table, if_neg apart]
  | finish _ _ _ _ before _ table =>
    exact sole.outside slot _ server call rfl fun other k different there within =>
      leaves (by rw [before]; rfl) other k different there within fun name apart => by rw [table, if_neg apart]

theorem begins (sole : SoleWriters allowed n) {slot : Nat} {next : Node} {kind : Kind} {now : Time} {req : DataRequest}
    (dirty : req.dirty = true) (quiet : ∀ found, n.server.files.lookup req.fd = some found →
      normalizeQuiet found.filename = found.filename)
    (fits : ∀ filename mode, allowed ⟨kind, req, filename, mode⟩)
    (begun : n.begin slot kind now req = some next) : SoleWriters allowed next := by
  rcases begin_opens begun with rfl | ⟨found, mode, _, present, rfl⟩
  · exact sole
  · have named : Call.name ⟨kind, req, found.filename, mode⟩ = found.filename := by
      cases kind
      · exact quiet found present
      · rfl
    refine sole.outside slot _ _ ⟨fits found.filename mode, dirty, named⟩ rfl fun other k _ there inside => ?_
    obtain ⟨entry, looked, active, version⟩ := sole.held other k there inside
    obtain ⟨after, shown, writes, number⟩ := n.server.lookup_getFileEntry _ _ entry looked
    exact ⟨after, shown, writes.trans active, version.trans number.symm⟩

end SoleWriters

structure Versioned (name : String) (start : Int32) (t : Chronicle) : Prop where
  sole : SoleWriters (fun _ => True) t.node
  last : ∀ slot h, t.node.handlers slot = some h → h.call.filename = name → h.stage.pending = true →
    t.commits.getLast? = some slot
  passed : ∀ slot ∈ t.commits, ∃ h, t.node.handlers slot = some h ∧ h.call.filename = name ∧ h.stage.passed = true
  nodup : t.commits.Nodup
  count : (t.node.server.base name).toInt = start.toInt + (t.order name).length
  values : ∀ (position : Nat) slot, (t.order name)[position]? = some slot → ∃ h response entry version,
    t.node.handlers slot = some h ∧ h.stage = .ended (.ok response) entry ∧ response.version = some version ∧
      h.call.req.version.toInt = start.toInt + position ∧ version.toInt = start.toInt + position + 1
  complete : ∀ slot, t.node.succeeded name slot = true → slot ∈ t.commits

def SingleNamed (name : String) (t : Chronicle) (action : NodeAction) : Prop :=
  (t.node.server.base name).toInt < 2 ^ 31 - 1 ∧
    match action with
    | .begin _ _ _ req => req.dirty = true ∧ ∀ found, t.node.server.files.lookup req.fd = some found →
        normalizeQuiet found.filename = found.filename
    | .handler _ _ => True
    | _ => False

namespace Chronicle

variable (name : String) (start : Int32) (t : Chronicle)

theorem succeeded_update (n : Node) (server : Server) (slot other : Nat) (h : Handler) :
    Node.succeeded ⟨server, Function.update n.handlers slot (some h)⟩ name other =
      if other = slot then Node.succeeded ⟨server, fun _ => some h⟩ name other else n.succeeded name other := by
  unfold Node.succeeded
  dsimp only
  rw [Function.update_apply]
  split_ifs <;> rfl

theorem not_succeeded {n : Node} (slot : Nat) (here : n.handlers slot = some h)
    (fails : h.call.filename = name → ∀ response entry, h.stage ≠ .ended (.ok response) entry) :
    n.succeeded name slot = false := by
  unfold Node.succeeded
  rw [here]
  split
  case h_1 call response entry same =>
    cases same
    rw [decide_eq_false_iff_not]
    exact fun own => fails own response entry rfl
  case h_2 => rfl

theorem versioned_quiet (versioned : Versioned name start t) (slot : Nat) (server : Server) (added : List Nat)
    (sole : SoleWriters (fun _ => True) ⟨server, Function.update t.node.handlers slot (some h)⟩)
    (commits : added = [] ∨ added = [slot] ∧ h.call.filename = name ∧ h.stage.pending = true ∧
      ∀ old, t.node.handlers slot = some old → old.stage.passed = false)
    (before : t.node.handlers slot = none ∧ h.stage = .opened ∨ ∃ old, t.node.handlers slot = some old ∧
      h.call = old.call ∧ (∀ answer entry, old.stage ≠ .ended answer entry) ∧
      (old.stage.passed = true → h.stage.passed = true) ∧
      (h.stage.pending = true → h.call.filename = name → old.stage.pending = true ∨ added = [slot]))
    (fails : h.call.filename = name → ∀ response entry, h.stage ≠ .ended (.ok response) entry)
    (base : server.base name = t.node.server.base name) :
    Versioned name start ⟨⟨server, Function.update t.node.handlers slot (some h)⟩, t.commits ++ added⟩ := by
  have there (other : Nat) (different : other ≠ slot) :
      Function.update t.node.handlers slot (some h) other = t.node.handlers other := Function.update_of_ne different ..
  have here : Function.update t.node.handlers slot (some h) slot = some h := Function.update_self ..
  have lost : t.node.succeeded name slot = false := by
    rcases before with ⟨absent, _⟩ | ⟨old, present, _, running, _⟩
    · unfold Node.succeeded
      rw [absent]
    · exact not_succeeded name slot present fun _ response entry => running _ entry
  have same (other : Nat) : Node.succeeded ⟨server, Function.update t.node.handlers slot (some h)⟩ name other =
      t.node.succeeded name other := by
    rw [succeeded_update]
    split_ifs with equal
    · rw [equal, lost]
      exact not_succeeded name slot rfl fails
    · rfl
  have order : Chronicle.order ⟨⟨server, Function.update t.node.handlers slot (some h)⟩, t.commits ++ added⟩ name =
      t.order name := by
    unfold Chronicle.order
    rw [List.filter_append, List.filter_congr fun other _ => same other, List.filter_congr fun other _ => same other]
    rcases commits with rfl | ⟨rfl, _⟩
    · rw [List.filter_nil, List.append_nil]
    · rw [List.filter_singleton, lost]
      exact List.append_nil _
  refine ⟨sole, fun other h' found file waiting => ?_, fun other listed => ?_, ?_, by rw [order, base, versioned.count],
    fun position other listed => ?_, fun other success => ?_⟩
  · rcases commits with rfl | ⟨rfl, own_file, committed, _⟩
    · rw [List.append_nil]
      rcases update_cases found with ⟨rfl, rfl⟩ | ⟨_, old⟩
      · rcases before with ⟨_, opened⟩ | ⟨old, present, call, _, _, pending⟩
        · rw [opened] at waiting
          cases waiting
        · exact versioned.last other old present (call ▸ file) ((pending waiting file).resolve_right (by simp))
      · exact versioned.last other h' old file waiting
    · have name_eq : h'.call.name = h.call.name := by
        rw [(sole.calls other h' found).2.2, (sole.calls slot h here).2.2, file, own_file]
      rw [← sole.alone slot h other h' here (Stage.inside_of_pending committed) found (Stage.inside_of_pending waiting)
        name_eq]
      exact List.getLast?_concat
  · rcases List.mem_append.mp listed with listed | new
    case inr =>
      rcases commits with rfl | ⟨rfl, file, committed, _⟩
      · cases new
      · obtain rfl := List.mem_singleton.mp new
        exact ⟨h, here, file, Stage.passed_of_pending committed⟩
    obtain ⟨h', found, file, passed⟩ := versioned.passed other listed
    by_cases equal : other = slot
    · subst equal
      rcases before with ⟨absent, _⟩ | ⟨old, present, call, _, passes, _⟩
      · rw [absent] at found
        cases found
      · obtain rfl := Option.some.inj (present.symm.trans found)
        exact ⟨h, here, call ▸ file, passes passed⟩
    · exact ⟨h', (there other equal).trans found, file, passed⟩
  · rcases commits with rfl | ⟨rfl, _, _, early⟩
    · rw [List.append_nil]
      exact versioned.nodup
    · refine List.nodup_append.mpr ⟨versioned.nodup, List.nodup_singleton slot, fun other listed new single same => ?_⟩
      obtain ⟨h', found, _, passed⟩ := versioned.passed other listed
      rw [same, List.mem_singleton.mp single] at found
      rw [early h' found] at passed
      cases passed
  · rw [order] at listed
    obtain ⟨h', response, entry, version, found, ended, facts⟩ := versioned.values position other listed
    refine ⟨h', response, entry, version, ?_, ended, facts⟩
    refine (there other ?_).trans found
    rintro rfl
    have success := (List.mem_filter.mp (List.mem_of_getElem? listed)).2
    rw [lost] at success
    cases success
  · rw [same] at success
    exact List.mem_append_left _ (versioned.complete other success)

theorem versioned_begin (versioned : Versioned name start t) {next : Node} {kind : Kind} {now : Time}
    {req : DataRequest} (dirty : req.dirty = true)
    (quiet : ∀ found, t.node.server.files.lookup req.fd = some found → normalizeQuiet found.filename = found.filename)
    (begun : t.node.begin slot kind now req = some next) : Versioned name start ⟨next, t.commits⟩ := by
  have sole := versioned.sole.begins dirty quiet (fun _ _ => trivial) begun
  rcases begin_opens begun with rfl | ⟨found, mode, absent, present, rfl⟩
  · exact versioned
  · rw [← t.commits.append_nil]
    exact versioned_quiet name start t versioned slot _ [] sole (.inl rfl) (.inl ⟨absent, rfl⟩) (by simp)
      (t.node.server.base_getFileEntry _ name)

theorem versioned_finish (versioned : Versioned name start t) (slot : Nat) (h : Handler) (server : Server)
    (response : Response) (entry : LogEntry) (here : t.node.handlers slot = some h) (file : h.call.filename = name)
    (small : (t.node.server.base name).toInt < 2 ^ 31 - 1) (before : h.stage = .primed entry)
    (sole : SoleWriters (fun _ => True)
      ⟨server, Function.update t.node.handlers slot (some { h with stage := .ended (.ok response) (some entry) })⟩)
    (version : ∀ entry, t.node.server.table.lookup h.call.name = some entry →
      response.version = some (entry.version + 1))
    (table : ∀ other, server.table.lookup other = if other = h.call.name then
      (t.node.server.table.lookup other).map fun entry => { entry with version := entry.version + 1, activeWriter := false }
      else t.node.server.table.lookup other) :
    Versioned name start
      ⟨⟨server, Function.update t.node.handlers slot (some { h with stage := .ended (.ok response) (some entry) })⟩,
        t.commits⟩ := by
  have own : h.call.name = name := (versioned.sole.calls slot h here).2.2.trans file
  have pending : h.stage.pending = true := by rw [before]; rfl
  obtain ⟨held, present, _, checked⟩ := versioned.sole.held slot h here (Stage.inside_of_pending pending)
  rw [own] at version table present
  have mine := table name
  rw [if_pos rfl, present] at mine
  have old := t.node.server.base_entry name held present
  have raised : (held.version + 1).toInt = held.version.toInt + 1 := by
    rw [old] at small
    have low := Int32.le_toInt held.version
    have one : (1 : Int32).toInt = 1 := by decide
    rw [Int32.toInt_add]
    exact Int.bmod_eq_of_le (by omega) (by omega)
  obtain ⟨earlier, commits⟩ := List.getLast?_eq_some_iff.mp (versioned.last slot h here file pending)
  have there (other : Nat) (different : other ≠ slot) (after : Handler) :
      Function.update t.node.handlers slot (some after) other = t.node.handlers other :=
    Function.update_of_ne different ..
  have fresh : slot ∉ earlier := by
    have nodup := versioned.nodup
    rw [commits] at nodup
    exact fun listed => (List.nodup_append.mp nodup).2.2 slot listed slot (by simp) rfl
  have lost : t.node.succeeded name slot = false :=
    not_succeeded name slot here fun _ response entry ended => by simp [before] at ended
  have before_order : t.order name = earlier.filter (t.node.succeeded name) := by
    rw [Chronicle.order, commits, List.filter_append, List.filter_singleton, lost]
    exact List.append_nil _
  generalize at_ : ({ h with stage := .ended (.ok response) (some entry) } : Handler) = after at sole ⊢
  have won : Node.succeeded ⟨server, Function.update t.node.handlers slot (some after)⟩ name slot = true := by
    rw [← at_]
    simpa [Node.succeeded] using file
  have kept (other : Nat) (different : other ≠ slot) :
      Node.succeeded ⟨server, Function.update t.node.handlers slot (some after)⟩ name other =
        t.node.succeeded name other := by
    rw [succeeded_update, if_neg different]
  have order : Chronicle.order ⟨⟨server, Function.update t.node.handlers slot (some after)⟩, t.commits⟩ name =
      t.order name ++ [slot] := by
    rw [before_order]
    unfold Chronicle.order
    rw [commits, List.filter_append, List.filter_singleton, won,
      List.filter_congr fun other listed => kept other fun same => fresh (same ▸ listed)]
    rfl
  have self : Function.update t.node.handlers slot (some after) slot = some after := Function.update_self ..
  have ended : after.stage = .ended (.ok response) (some entry) := by rw [← at_]
  have call : after.call = h.call := by rw [← at_]
  have number := versioned.count
  refine ⟨sole, fun other h' found same waiting => ?_, fun other listed => ?_, versioned.nodup, ?_,
    fun position other listed => ?_, fun other success => ?_⟩
  · rcases update_cases found with ⟨rfl, rfl⟩ | ⟨_, old⟩
    · rw [ended] at waiting
      cases waiting
    · exact versioned.last other h' old same waiting
  · obtain ⟨h', found, same, passed⟩ := versioned.passed other listed
    by_cases equal : other = slot
    · subst equal
      exact ⟨after, self, call ▸ file, by rw [ended]; rfl⟩
    · exact ⟨h', (there other equal after).trans found, same, passed⟩
  · rw [order, List.length_append, List.length_singleton]
    rw [server.base_entry name _ mine]
    rw [old] at number
    dsimp only
    omega
  · rw [order] at listed
    rcases Nat.lt_or_ge position (t.order name).length with before | last
    · rw [List.getElem?_append_left before] at listed
      obtain ⟨h', response, entry, version, found, facts⟩ := versioned.values position other listed
      refine ⟨h', response, entry, version, (there other ?_ after).trans found, facts⟩
      rintro rfl
      have success := (List.mem_filter.mp (List.mem_of_getElem? listed)).2
      rw [lost] at success
      cases success
    · obtain ⟨exact_, single⟩ : position = (t.order name).length ∧ slot = other := by
        rw [List.getElem?_append_right last] at listed
        have small : position - (t.order name).length < 1 := (List.getElem?_eq_some_iff.mp listed).1
        have zero : position - (t.order name).length = 0 := by omega
        rw [zero] at listed
        exact ⟨by omega, Option.some.inj listed⟩
      subst single
      rw [old] at number
      refine ⟨after, response, some entry, held.version + 1, self, ended, version held present, ?_, ?_⟩
      · rw [call, checked, number, exact_]
      · rw [raised, number, exact_]
  · by_cases equal : other = slot
    · rw [equal, commits]
      simp
    · rw [kept other equal] at success
      exact versioned.complete other success

theorem committing_moves {server : Server} (here : t.node.handlers slot = some h)
    (moves : Moves t.node.server h action server stage) :
    t.committing name (.handler slot action) = [] ∧
        (stage.pending = true → h.call.filename = name → h.stage.pending = true) ∨
      t.committing name (.handler slot action) = [slot] ∧ h.call.filename = name ∧ stage.pending = true ∧
        h.stage.passed = false := by
  have quiet (other : ∀ io, action ≠ .commit io) : t.committing name (.handler slot action) = [] := by
    unfold committing
    split
    case h_1 same =>
      cases same
      exact absurd rfl (other _)
    case h_2 => rfl
  cases moves with
  | enter | refuse => exact .inl ⟨rfl, by rintro ⟨⟩⟩
  | stay _ _ _ _ _ same other => exact .inl ⟨quiet other, fun pending _ => same.symm.trans pending⟩
  | fail _ _ _ _ _ other => exact .inl ⟨quiet other, by rintro ⟨⟩⟩
  | finish => exact .inl ⟨rfl, by rintro ⟨⟩⟩
  | commit io _ _ before early after late =>
    simp only [committing, here]
    split_ifs with file
    · refine .inr ⟨rfl, file, late, ?_⟩
      revert before early
      cases h.stage <;> simp [Stage.passed, Stage.inside, Stage.pending]
    · exact .inl ⟨rfl, fun _ own => absurd own file⟩

theorem versioned_handler (versioned : Versioned name start t) {server : Server} (here : t.node.handlers slot = some h)
    (small : (t.node.server.base name).toInt < 2 ^ 31 - 1) (moves : Moves t.node.server h action server stage) :
    Versioned name start ⟨⟨server, Function.update t.node.handlers slot (some { h with stage := stage })⟩,
      t.commits ++ t.committing name (.handler slot action)⟩ := by
  have sole := versioned.sole.moved slot h action server stage here moves
  by_cases won : h.call.filename = name ∧ ∃ response entry, stage = .ended (.ok response) entry
  · obtain ⟨file, response, entry, rfl⟩ := won
    cases moves with
    | stay _ _ _ _ after => cases after
    | commit _ _ _ _ _ after => cases after
    | finish env _ _ entry before version table =>
      rw [show t.committing name (.handler slot (.finish env)) = [] from rfl, List.append_nil]
      exact versioned_finish name start t versioned slot h server response entry here file small before sole version table
  · have base := moves.base name fun own response entry ended =>
      won ⟨(versioned.sole.calls slot h here).2.2.symm.trans own.symm, response, entry, ended⟩
    have listed := committing_moves name t here moves
    refine versioned_quiet name start t versioned slot server _ sole ?_
      (.inr ⟨h, here, rfl, moves.running, moves.passes, fun pending file => ?_⟩)
      (fun file response entry ended => won ⟨file, response, entry, ended⟩) base.1
    · rcases listed with ⟨none, _⟩ | ⟨one, file, late, early⟩
      · exact .inl none
      · refine .inr ⟨one, file, late, fun old present => ?_⟩
        obtain rfl := Option.some.inj (here.symm.trans present)
        exact early
    · rcases listed with ⟨_, still⟩ | ⟨one, _⟩
      · exact .inl (still pending file)
      · exact .inr one

theorem versioned_start (s : Server) : Versioned name (s.base name) ⟨.start s, []⟩ where
  sole := ⟨fun _ _ here => (by cases here), fun _ _ here => (by cases here), fun _ _ _ _ here => (by cases here)⟩
  last _ _ here := by cases here
  passed _ listed := by cases listed
  nodup := List.nodup_nil
  count := (Int.add_zero _).symm
  values _ _ listed := by cases listed
  complete _ success := by cases success

variable [LogCodec]

theorem versioned_step (next : Chronicle) (action : NodeAction) (versioned : Versioned name start t)
    (single : SingleNamed name t action) (stepped : t.step name action = some next) : Versioned name start next := by
  obtain ⟨node, moved, rfl⟩ := Option.map_eq_some_iff.mp stepped
  obtain ⟨small, allowed⟩ := single
  cases action with
  | begin slot kind now req =>
    have nothing : t.committing name (.begin slot kind now req) = [] := rfl
    rw [nothing, List.append_nil]
    exact versioned_begin name start t versioned allowed.1 allowed.2 moved
  | handler slot action =>
    obtain ⟨h, server, stage, here, progress, _, rfl⟩ := Node.handlerStep_cases moved
    have moves := h.step_moves t.node.server server action stage (versioned.sole.calls slot h here).2.1 progress
    exact versioned_handler name start t versioned here small moves
  | _ => exact allowed.elim

end Chronicle

theorem successful_calls_versions [LogCodec] (name : String) (s : Server) (actions : List NodeAction) (final : Chronicle)
    (single : Transition.Meets (Chronicle.step name) (SingleNamed name) ⟨.start s, []⟩ actions)
    (reached : Transition.run (Chronicle.step name) ⟨.start s, []⟩ actions = some final) :
    (∀ (position : Nat) slot, (final.order name)[position]? = some slot → ∃ h response entry version,
      final.node.handlers slot = some h ∧ h.stage = .ended (.ok response) entry ∧ response.version = some version ∧
        h.call.req.version.toInt = (s.base name).toInt + position ∧
        version.toInt = (s.base name).toInt + position + 1) ∧
      (∀ slot, final.node.succeeded name slot = true → slot ∈ final.order name) ∧
      ∀ first second h h', final.node.handlers first = some h → final.node.handlers second = some h' →
        final.node.succeeded name first = true → final.node.succeeded name second = true →
        h.call.req.version = h'.call.req.version → first = second := by
  have versioned := Transition.run_invariant (SingleNamed name) (Versioned name (s.base name))
    (fun t action next => Chronicle.versioned_step name (s.base name) t next action) _
    (Chronicle.versioned_start name s) actions single reached
  have listed (slot : Nat) (success : final.node.succeeded name slot = true) : slot ∈ final.order name :=
    List.mem_filter.mpr ⟨versioned.complete slot success, success⟩
  refine ⟨versioned.values, listed, fun first second h h' here there won also same => ?_⟩
  obtain ⟨i, found⟩ := List.mem_iff_getElem?.mp (listed first won)
  obtain ⟨j, other⟩ := List.mem_iff_getElem?.mp (listed second also)
  obtain ⟨h₁, _, _, _, here₁, _, _, base₁, _⟩ := versioned.values i first found
  obtain ⟨h₂, _, _, _, here₂, _, _, base₂, _⟩ := versioned.values j second other
  obtain rfl := Option.some.inj (here.symm.trans here₁)
  obtain rfl := Option.some.inj (there.symm.trans here₂)
  obtain rfl : i = j := by
    rw [same] at base₁
    omega
  exact Option.some.inj (found.symm.trans other)

def writeSteps : List HandlerStep :=
  [.acquire, .copy .stored, .index, .append .done, .send, .count, .commit fun _ => .ok, .notify "2", .notify "3",
    .prime {}, .finish {}]

def versionRun : List NodeAction :=
  [.begin 0 .close 0 closeRequest, .begin 1 .write 0 ⟨"r3", 0, true, 0, [51, 10], "c"⟩,
    .begin 2 .write 0 ⟨"r4", 0, true, 1, [53, 10], "c"⟩] ++
    closeSteps.map (.handler 0) ++ [.handler 1 .acquire] ++ writeSteps.map (.handler 2)

def singleNamed (t : Chronicle) (action : NodeAction) : Bool :=
  decide ((t.node.server.base "output/a").toInt < 2 ^ 31 - 1) &&
    match action with
    | .begin _ _ _ req => req.dirty && (t.node.server.files.lookup req.fd).all fun found =>
        normalizeQuiet found.filename = found.filename
    | .handler _ _ => true
    | _ => false

theorem singleNamed_sound {t : Chronicle} {action : NodeAction} (checked : singleNamed t action = true) :
    SingleNamed "output/a" t action := by
  unfold singleNamed at checked
  rw [Bool.and_eq_true, decide_eq_true_eq] at checked
  refine ⟨checked.1, ?_⟩
  cases action with
  | begin slot kind now req =>
    obtain ⟨dirty, all⟩ := Bool.and_eq_true_iff.mp checked.2
    refine ⟨dirty, fun found present => ?_⟩
    rw [present, Option.all_some, decide_eq_true_eq] at all
    exact all
  | handler => trivial
  | _ => cases checked.2

theorem versionRun_consecutive :
    ∃ final, Transition.run (Chronicle.step "output/a") ⟨.start firstOpened, []⟩ versionRun = some final ∧
      final.order "output/a" = [0, 2] ∧ final.node.answer 1 = some (.error ⟨.aborted, "conflict"⟩) ∧
      ∃ h response entry version, final.node.handlers 2 = some h ∧ h.stage = .ended (.ok response) entry ∧
        response.version = some version ∧ version.toInt = 2 := by
  have outcome : (Transition.run (Chronicle.step "output/a") ⟨.start firstOpened, []⟩ versionRun).map
      (fun t => (t.order "output/a", t.node.answer 1)) = some ([0, 2], some (.error ⟨.aborted, "conflict"⟩)) ∧
      Transition.check (Chronicle.step "output/a") singleNamed ⟨.start firstOpened, []⟩ versionRun = true := by
    decide +kernel
  obtain ⟨outcome, checked⟩ := outcome
  obtain ⟨final, reached, facts⟩ := Option.map_eq_some_iff.mp outcome
  obtain ⟨order, refused⟩ := Prod.mk.inj facts
  have single : Transition.Meets (Chronicle.step "output/a") (SingleNamed "output/a") ⟨.start firstOpened, []⟩
      versionRun :=
    Transition.meets_of_check _ _ singleNamed (fun t action _ here => singleNamed_sound here) checked
  refine ⟨final, reached, order, refused, ?_⟩
  obtain ⟨h, response, entry, version, here, ended, returned, _, number⟩ :=
    (successful_calls_versions "output/a" firstOpened versionRun final single reached).1 1 2 (by rw [order]; rfl)
  refine ⟨h, response, entry, version, here, ended, returned, number.trans ?_⟩
  decide +kernel

-- Close and Write look the file up under two names, so that both accept version 1.
theorem base_version_used_twice :
    ∃ n, Transition.run Node.step (.start firstPrimary)
        ([.create {} ⟨"r1", "output/x/. ", "c", .write⟩, .begin 0 .write 0 ⟨"r2", 0, true, 0, [50, 10], "c"⟩] ++
          writeSteps.map (.handler 0) ++ [.begin 1 .write 0 ⟨"r3", 0, true, 1, [51, 10], "c"⟩] ++
          writeSteps.map (.handler 1) ++ [.begin 2 .close 0 ⟨"r4", 0, true, 1, [53, 10], "c"⟩] ++
          closeSteps.map (.handler 2)) = some n ∧
      n.answer 0 = some (.ok (.written ⟨"write successful", 1⟩)) ∧
      n.answer 1 = some (.ok (.written ⟨"write successful", 2⟩)) ∧
      n.answer 2 = some (.ok (.closed ⟨"closed", 2⟩)) := by
  have outcome : (Transition.run Node.step (.start firstPrimary)
      ([.create {} ⟨"r1", "output/x/. ", "c", .write⟩, .begin 0 .write 0 ⟨"r2", 0, true, 0, [50, 10], "c"⟩] ++
        writeSteps.map (.handler 0) ++ [.begin 1 .write 0 ⟨"r3", 0, true, 1, [51, 10], "c"⟩] ++
        writeSteps.map (.handler 1) ++ [.begin 2 .close 0 ⟨"r4", 0, true, 1, [53, 10], "c"⟩] ++
        closeSteps.map (.handler 2))).map (fun n => (n.answer 0, n.answer 1, n.answer 2)) =
      some (some (.ok (.written ⟨"write successful", 1⟩)), some (.ok (.written ⟨"write successful", 2⟩)),
        some (.ok (.closed ⟨"closed", 2⟩))) := by decide +kernel
  obtain ⟨n, reached, answers⟩ := Option.map_eq_some_iff.mp outcome
  simp only [Prod.mk.injEq] at answers
  exact ⟨n, reached, answers⟩

end Ikkat
