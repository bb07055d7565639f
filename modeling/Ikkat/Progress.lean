import Ikkat.Versions

set_option autoImplicit false

namespace Ikkat

variable {call : Call} {h : Handler} {action : HandlerStep} {entry : LogEntry} {slot : Nat} {n : Node}
variable {s next : Server} {stage : Stage}

def Stage.uncommitted : Stage → Option LogEntry
  | .indexed _ entry => some entry
  | .logged _ entry => some entry
  | .sent _ entry _ => some entry
  | .waiting _ entry _ _ _ => some entry
  | _ => none

section Step

variable [LogCodec]

-- An index comes from the length of the log; from then on a handler keeps its entry.
theorem Handler.step_uncommitted
    (stepped : h.step s action = some (next, stage)) (flying : stage.uncommitted = some entry) :
    (next = s ∧ entry.index = s.log.length + 1) ∨
      (h.stage.uncommitted = some entry ∧ ∀ primes, stage ≠ .indexed primes entry) := by
  have taken := Handler.step_takes stepped
  obtain ⟨call, before⟩ := h
  cases taken with
  | index =>
    cases flying
    exact .inl ⟨rfl, rfl⟩
  | append | send | count | ack => exact .inr ⟨flying, by simp⟩
  | _ => cases flying

end Step

structure Stage.Timely (s : Server) (stage : Stage) : Prop where
  ahead : ∀ entry, stage.uncommitted = some entry → (s.commitIndex : Int) ≤ entry.index
  inside : ∀ entry, stage.entry = some entry → entry.index ≤ s.log.length
  indexed : ∀ primes entry, stage = .indexed primes entry → entry.index ≤ s.log.length + 1

theorem Stage.Timely.later (timely : stage.Timely s) (grown : s.log.length ≤ next.log.length)
    (ahead : ∀ entry, stage.uncommitted = some entry → (next.commitIndex : Int) ≤ entry.index) :
    stage.Timely next where
  ahead := ahead
  inside entry logged := by
    have before := timely.inside entry logged
    omega
  indexed primes entry read := by
    have before := timely.indexed primes entry read
    omega

theorem KeepsLog.timely (keeps : KeepsLog s next) (timely : stage.Timely s) :
    stage.Timely next :=
  timely.later (by rw [keeps.log]) (by rw [keeps.commitIndex]; exact timely.ahead)

namespace Node

structure Progressing (n : Node) : Prop where
  applied : n.server.lastApplied ≤ n.server.commitIndex
  within : n.server.commitIndex ≤ n.server.log.length
  timely : ∀ slot h, n.handlers slot = some h → h.stage.Timely n.server

def LowestFirst (n : Node) : NodeAction → Prop
  | .handler slot (.commit _) => ∀ h entry, n.handlers slot = some h → h.stage.uncommitted = some entry →
      ∀ other h' later, n.handlers other = some h' → h'.stage.uncommitted = some later → entry.index ≤ later.index
  | .handler _ _ | .begin _ _ _ _ | .create _ _ | .openFile _ _ => True
  | _ => False

theorem Progressing.server (progressing : n.Progressing) (s : Server) (keeps : KeepsLog n.server s) :
    ({ n with server := s } : Node).Progressing where
  applied := by rw [keeps.lastApplied, keeps.commitIndex]; exact progressing.applied
  within := by rw [keeps.log, keeps.commitIndex]; exact progressing.within
  timely slot h here := keeps.timely (progressing.timely slot h here)

theorem Progressing.update (progressing : (⟨s, n.handlers⟩ : Node).Progressing) (slot : Nat)
    (h : Handler) (own : h.stage.Timely s) : (⟨s, Function.update n.handlers slot (some h)⟩ : Node).Progressing where
  applied := progressing.applied
  within := progressing.within
  timely other h' here := by
    dsimp only at here
    rw [Function.update_apply] at here
    split_ifs at here
    · cases here
      exact own
    · exact progressing.timely other h' here

section Run

theorem progressing_effect (progressing : n.Progressing) {server : Server} (here : n.handlers slot = some h)
    (lowest : n.LowestFirst (.handler slot action)) (effect : HandlerEffect n.server h action server stage) :
    (⟨server, n.handlers⟩ : Node).Progressing ∧ n.server.commitIndex ≤ server.commitIndex := by
  have still (keeps : KeepsLog n.server server) :
      (⟨server, n.handlers⟩ : Node).Progressing ∧ n.server.commitIndex ≤ server.commitIndex :=
    ⟨progressing.server server keeps, Nat.le_of_eq keeps.commitIndex.symm⟩
  cases effect with
  | append persist primes entry table logFile _ before after =>
    have grown : n.server.log.length ≤ (n.server.log ++ [entry]).length := by simp
    exact ⟨⟨progressing.applied, Nat.le_trans progressing.within grown, fun other h' there =>
      (progressing.timely other h' there).later grown (progressing.timely other h' there).ahead⟩, le_rfl⟩
  | commit io primes entry majority awaiting acks before reached =>
    have own := progressing.timely slot h here
    have raised := own.ahead entry (by rw [before]; rfl)
    have logged := own.inside entry (by rw [before]; rfl)
    have applied := progressing.applied
    refine ⟨⟨?_, ?_, fun other h' there => ?_⟩, ?_⟩
    · change max n.server.lastApplied (min entry.index.toNat n.server.log.length) ≤ entry.index.toNat
      omega
    · change entry.index.toNat ≤ n.server.log.length
      omega
    · refine (progressing.timely other h' there).later le_rfl fun later flying => ?_
      have order := lowest h entry here (by rw [before]; rfl) other h' later there flying
      change (entry.index.toNat : Int) ≤ later.index
      omega
    · change n.server.commitIndex ≤ entry.index.toNat
      omega
  | send | count | ack => exact still ⟨rfl, rfl, rfl, rfl, rfl⟩
  | quiet action next stage quiet | finish env next stage quiet => exact still quiet.keeps.toKeepsLog

theorem entry_effect (progressing : n.Progressing) {server : Server} (here : n.handlers slot = some h)
    (effect : HandlerEffect n.server h action server stage) (logged : stage.entry = some entry) :
    h.stage.entry = some entry ∨ entry.index ≤ server.log.length := by
  cases effect with
  | append persist primes read table logFile _ before after =>
    have bound := (progressing.timely slot h here).indexed primes read before
    obtain rfl : read = entry := by
      rcases after with rfl | ⟨_, rfl⟩ <;> exact Option.some.inj logged
    right
    simpa using bound
  | send _ _ before | count _ _ _ before | ack _ _ _ _ _ _ _ before | commit _ _ _ _ _ _ before =>
    exact .inl (by rw [before]; exact logged)
  | quiet _ _ _ quiet | finish _ _ _ quiet => exact .inl (quiet.entry ▸ logged)

variable [LogCodec]

theorem progressing_handler {next : Node} (progressing : n.Progressing)
    (lowest : n.LowestFirst (.handler slot action)) (stepped : n.handlerStep slot action = some next) :
    next.Progressing ∧ n.server.commitIndex ≤ next.server.commitIndex := by
  obtain ⟨h, server, stage, here, moved, effect, rfl⟩ := handlerStep_cases stepped
  obtain ⟨others, raised⟩ := progressing_effect progressing here lowest effect
  have kept := others.timely slot h here
  refine ⟨others.update slot _ ⟨fun entry flying => ?_, fun entry logged => ?_, fun primes entry read => ?_⟩, raised⟩
  · rcases Handler.step_uncommitted moved flying with ⟨rfl, index⟩ | ⟨before, _⟩
    · have bound := progressing.within
      omega
    · exact kept.ahead entry before
  · exact (entry_effect progressing here effect logged).elim (kept.inside entry) id
  · have flying : stage.uncommitted = some entry := by
      rw [show stage = .indexed primes entry from read]
      rfl
    rcases Handler.step_uncommitted moved flying with ⟨rfl, index⟩ | ⟨_, fresh⟩
    · omega
    · exact absurd read (fresh primes)

theorem progressing_step {next : Node} (progressing : n.Progressing) {action : NodeAction}
    (lowest : n.LowestFirst action) (stepped : n.step action = some next) :
    next.Progressing ∧ n.server.commitIndex ≤ next.server.commitIndex := by
  have still (s : Server) (keeps : KeepsLog n.server s) :
      ({ n with server := s } : Node).Progressing ∧ n.server.commitIndex ≤ s.commitIndex :=
    ⟨progressing.server s keeps, Nat.le_of_eq keeps.commitIndex.symm⟩
  cases action with
  | create env req =>
    obtain ⟨s, answer, sent, handled, rfl⟩ := handle_returned stepped
    exact still s (Server.create_keeps handled).toKeepsLog
  | openFile env req =>
    obtain ⟨s, answer, sent, handled, rfl⟩ := handle_returned stepped
    exact still s (Server.openFile_keeps handled).toKeepsLog
  | begin slot kind now req =>
    rcases begin_cases n next slot kind now req stepped with rfl | ⟨found, mode, table, _, _, rfl⟩
    · exact ⟨progressing, le_rfl⟩
    · obtain ⟨opened, same⟩ := still { n.server with table := table } ⟨rfl, rfl, rfl, rfl, rfl⟩
      exact ⟨opened.update slot _ ⟨by simp [Stage.uncommitted], by simp [Stage.entry], by simp⟩, same⟩
  | handler slot action => exact progressing_handler progressing lowest stepped
  | _ => exact lowest.elim

end Run

end Node

theorem commit_index_monotone [LogCodec] (s : Server) (applied : s.lastApplied ≤ s.commitIndex)
    (within : s.commitIndex ≤ s.log.length) (earlier later : List NodeAction) (middle final : Node)
    (lowest : Transition.Meets Node.step Node.LowestFirst (.start s) (earlier ++ later))
    (reached : Transition.run Node.step (.start s) earlier = some middle)
    (finished : Transition.run Node.step middle later = some final) :
    middle.server.commitIndex ≤ final.server.commitIndex ∧
      final.server.lastApplied ≤ final.server.commitIndex ∧
      final.server.commitIndex ≤ final.server.log.length := by
  obtain ⟨first, second⟩ := (Transition.meets_append _ _ earlier later reached).mp lowest
  have start : (Node.start s).Progressing := ⟨applied, within, by simp [Node.start]⟩
  have halfway := Transition.run_invariant Node.LowestFirst Node.Progressing
    (fun n action next progressing lowest stepped => (Node.progressing_step progressing lowest stepped).1)
    _ start earlier first reached
  obtain ⟨progressing, grown⟩ := Transition.run_invariant Node.LowestFirst
    (fun n => n.Progressing ∧ middle.server.commitIndex ≤ n.server.commitIndex)
    (fun n action next so_far lowest stepped =>
      have moved := Node.progressing_step so_far.1 lowest stepped
      ⟨moved.1, Nat.le_trans so_far.2 moved.2⟩)
    middle ⟨halfway, le_rfl⟩ later second finished
  exact ⟨grown, progressing.applied, progressing.within⟩

def twoReady : List NodeAction :=
  [.create {} ⟨"r1", "output/a", "c", .write⟩, .create {} ⟨"r2", "output/b", "d", .write⟩,
    .begin 0 .close 0 ⟨"r3", 0, true, 0, [50, 10], "c"⟩, .begin 1 .close 0 ⟨"r4", 1, true, 0, [51, 10], "d"⟩] ++
    (closeSteps.take 7).map (.handler 0) ++ (closeSteps.take 7).map (.handler 1)

def commitStep (slot : Nat) : NodeAction := .handler slot (.commit fun _ => .ok)

def lowestOfTwo (n : Node) : NodeAction → Bool
  | .handler slot (.commit _) => ((n.handlers slot).bind fun h => h.stage.uncommitted).all fun entry =>
      [0, 1].all fun other => ((n.handlers other).bind fun h => h.stage.uncommitted).all fun later =>
        entry.index ≤ later.index
  | .begin slot _ _ _ => slot < 2
  | .handler _ _ | .create _ _ | .openFile _ _ => true
  | _ => false

theorem lowestOfTwo_lowest {action : NodeAction} (few : ∀ slot, 2 ≤ slot → n.handlers slot = none)
    (checked : lowestOfTwo n action = true) : n.LowestFirst action := by
  cases action with
  | handler slot action =>
    cases action with
    | commit io =>
      intro h entry here flying other h' later there beyond
      simp only [lowestOfTwo, here, Option.bind_some, flying, Option.all_some, List.all_cons, List.all_nil,
        Bool.and_true, Bool.and_eq_true] at checked
      match other with
      | 0 => simpa [there, beyond] using checked.1
      | 1 => simpa [there, beyond] using checked.2
      | other + 2 => simp [few (other + 2) (by omega)] at there
    | _ => trivial
  | _ => trivial

theorem lowestOfTwo_few {next : Node} {action : NodeAction} (few : ∀ slot, 2 ≤ slot → n.handlers slot = none)
    (checked : lowestOfTwo n action = true) (stepped : n.step action = some next) (slot : Nat) (large : 2 ≤ slot) :
    next.handlers slot = none := by
  cases action with
  | create | openFile =>
    obtain ⟨_, _, _, _, rfl⟩ := Node.handle_returned stepped
    exact few slot large
  | begin own kind now req =>
    have small : own < 2 := of_decide_eq_true checked
    rcases Node.begin_cases n next own kind now req stepped with rfl | ⟨_, _, _, _, _, rfl⟩
    · exact few slot large
    · exact (Function.update_of_ne (by omega) ..).trans (few slot large)
  | handler own action =>
    obtain ⟨h, _, _, here, _, _, rfl⟩ := Node.handlerStep_cases stepped
    have small : slot ≠ own := by
      rintro rfl
      simp [few slot large] at here
    exact (Function.update_of_ne small ..).trans (few slot large)
  | _ => cases checked

theorem commits_in_order_monotone :
    ∃ middle final, Transition.run Node.step (.start firstPrimary) (twoReady ++ [commitStep 0]) = some middle ∧
      Transition.run Node.step middle [commitStep 1] = some final ∧
      middle.server.commitIndex = 1 ∧ final.server.commitIndex = 2 ∧
      middle.server.commitIndex ≤ final.server.commitIndex ∧
      final.server.lastApplied ≤ final.server.commitIndex ∧
      final.server.commitIndex ≤ final.server.log.length := by
  have outcome : (Transition.run Node.step (.start firstPrimary) (twoReady ++ [commitStep 0])).bind (fun middle =>
      (Transition.run Node.step middle [commitStep 1]).map fun final =>
        (middle.server.commitIndex, final.server.commitIndex)) = some (1, 2) ∧
      Transition.check Node.step lowestOfTwo (.start firstPrimary) (twoReady ++ [commitStep 0] ++ [commitStep 1]) =
        true := by decide +kernel
  obtain ⟨outcome, checked⟩ := outcome
  obtain ⟨middle, reached, rest⟩ := Option.bind_eq_some_iff.mp outcome
  obtain ⟨final, finished, facts⟩ := Option.map_eq_some_iff.mp rest
  obtain ⟨before, after⟩ := Prod.mk.inj facts
  have lowest : Transition.Meets Node.step Node.LowestFirst (.start firstPrimary)
      (twoReady ++ [commitStep 0] ++ [commitStep 1]) :=
    Transition.meets_along _ lowestOfTwo (fun n => ∀ slot, 2 ≤ slot → n.handlers slot = none) _ _
      (fun n next action _ few checked stepped => lowestOfTwo_few few checked stepped)
      (fun n action _ few checked => lowestOfTwo_lowest few checked) (fun _ _ => rfl) checked
  exact ⟨middle, final, reached, finished, before, after,
    commit_index_monotone firstPrimary (by decide +kernel) (by decide +kernel) _ _ middle final lowest reached
      finished⟩

-- The second handler gets its majority first.
theorem commit_index_falls :
    ∃ middle final, Transition.run Node.step (.start firstPrimary) (twoReady ++ [commitStep 1]) = some middle ∧
      Transition.run Node.step middle [commitStep 0] = some final ∧
      middle.server.commitIndex = 2 ∧ final.server.commitIndex = 1 ∧ final.server.lastApplied = 2 := by
  have outcome : (Transition.run Node.step (.start firstPrimary) (twoReady ++ [commitStep 1])).bind (fun middle =>
      (Transition.run Node.step middle [commitStep 0]).map fun final =>
        (middle.server.commitIndex, final.server.commitIndex, final.server.lastApplied)) = some (2, 1, 2) := by
    decide +kernel
  obtain ⟨middle, reached, rest⟩ := Option.bind_eq_some_iff.mp outcome
  obtain ⟨final, finished, facts⟩ := Option.map_eq_some_iff.mp rest
  simp only [Prod.mk.injEq] at facts
  exact ⟨middle, final, reached, finished, facts⟩

end Ikkat
