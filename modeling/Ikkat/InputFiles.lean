import Mathlib.Data.List.DropRight
import Ikkat.Containment
import Ikkat.Handlers
import Ikkat.Rpc

set_option autoImplicit false

namespace Ikkat

variable {call : Call} {env : Env} {answer : Except Status Response} {req : FileRequest}
variable {sent : List AppendEntriesRequest} {region : Path → Prop} {s next : Server} {safe name : String}
variable {before after : Tree}

theorem trimRight_trimRight (name : String) : trimRight (trimRight name) = trimRight name := by
  simp [trimRight, List.dropWhile_idempotent]

theorem trimRight_head (name : String) (first : Char) (rest : List Char)
    (text : (trimRight name).toList = first :: rest) : ∃ more, name.toList = first :: more := by
  have front : (trimRight name).toList <+: name.toList := by
    rw [trimRight, String.toList_ofList]
    exact List.rdropWhile_prefix isSpace name.toList
  obtain ⟨cut, whole⟩ := front
  exact ⟨rest ++ cut, by rw [← whole, text, List.cons_append]⟩

theorem trimLeft_visible (name : String) (first : Char) (rest : List Char) (text : name.toList = first :: rest)
    (visible : isSpace first = false) : trimLeft name = name := by
  apply String.toList_injective
  simp [trimLeft, text, visible]

theorem trimSpace_trimSpace (name : String) : trimSpace (trimSpace name) = trimSpace name := by
  have left : trimLeft (trimSpace name) = trimSpace name := by
    rw [trimSpace_eq]
    cases text : (trimRight (trimLeft name)).toList with
    | nil =>
      have empty : trimRight (trimLeft name) = "" := String.toList_injective text
      rw [empty]
      decide
    | cons first rest =>
      obtain ⟨more, shown⟩ := trimRight_head _ first rest text
      refine trimLeft_visible _ first rest text ?_
      rw [trimLeft, String.toList_ofList] at shown
      have visible := List.head?_dropWhile_not isSpace name.toList
      rw [shown] at visible
      simpa using visible
  rw [trimSpace_eq (trimSpace name), left, trimSpace_eq, trimRight_trimRight]

def Tame (filename : String) : Prop := ∀ part ∈ clean filename, Ordinary (trimSpace part)

instance (filename : String) : Decidable (Tame filename) :=
  inferInstanceAs (Decidable (∀ part ∈ clean filename, _ ≠ "" ∧ _ ≠ "." ∧ _ ≠ ".."))

theorem ordinary_trimLeft {part : String} (ordinary : Ordinary (trimSpace part)) : Ordinary (trimLeft part) := by
  rw [trimSpace_eq] at ordinary
  refine ⟨fun same => ordinary.1 ?_, fun same => ordinary.2.1 ?_, fun same => ordinary.2.2 ?_⟩
  all_goals
    rw [same]
    decide

theorem ordinary_trimRight (part : String) (ordinary : Ordinary (trimSpace part)) : Ordinary (trimRight part) := by
  have dotted (rest : List Char) (text : (trimRight part).toList = '.' :: rest) :
      trimSpace part = trimRight part := by
    obtain ⟨more, shown⟩ := trimRight_head part '.' rest text
    rw [trimSpace_eq, trimLeft_visible part '.' more shown (by decide)]
  refine ⟨fun same => ordinary.1 ?_, fun same => ordinary.2.1 ?_, fun same => ordinary.2.2 ?_⟩
  · have blank : ∀ c ∈ part.toList, isSpace c = true := by
      have empty := congrArg String.toList same
      rw [trimRight, String.toList_ofList] at empty
      exact List.rdropWhile_eq_nil_iff.mp empty
    have nothing : trimLeft part = "" := by
      simpa [trimLeft] using blank
    rw [trimSpace_eq, nothing]
    decide
  · rw [dotted [] (by rw [same]; decide), same]
  · rw [dotted ['.'] (by rw [same]; decide), same]

theorem normalize_tame {p : String} (tame : Tame p) (normalized : normalize p = some safe) :
    safe = "." ∨ Plain safe ∧ trimSpace safe = safe := by
  obtain ⟨accepted, sanitized, rfl⟩ := Option.map_eq_some_iff.mp normalized
  rcases sanitizePath_some sanitized with ⟨_, rfl⟩ | ⟨filled, split, plain⟩
  · exact .inl (by decide)
  · right
    have components : Plain (trimSpace accepted) := by
      unfold Tame at tame
      rw [← split] at tame
      unfold Plain
      rcases parts_cases accepted with ⟨noSlash, whole⟩ | ⟨first, middle, last, whole⟩
      · rw [parts_single (trimSpace_noSlash accepted noSlash)]
        simpa using tame accepted (by simp [whole])
      · rw [parts_trimSpace whole]
        intro part inside
        rw [List.mem_cons, List.mem_append, List.mem_singleton] at inside
        rcases inside with rfl | inner | rfl
        · exact ordinary_trimLeft (tame first (by simp [whole]))
        · exact plain part (by simp [whole, inner])
        · exact ordinary_trimRight last (tame last (by simp [whole]))
    rw [trimSlash_relative _ (plain_not_abs components)]
    exact ⟨components, trimSpace_trimSpace accepted⟩

def IsInput (rootDir : String) (path : Path) : Prop :=
  ∃ rest, rest ≠ [] ∧ path = join rootDir "input" ++ rest

theorem isInput_below (rootDir : String) (below : Path) :
    IsInput rootDir (clean rootDir ++ below) ↔ ∃ rest, rest ≠ [] ∧ below = "input" :: rest := by
  have dir : join rootDir "input" = clean rootDir ++ ["input"] := join_plain rootDir "input" (by decide)
  unfold IsInput
  simp only [dir, List.append_assoc, List.append_cancel_left_eq, List.singleton_append]

def Harmless (name : String) : Prop :=
  name = "" ∨ name = "." ∨ Plain name ∧ trimSpace name = name ∧ hasPrefix "input/" name = false

theorem harmless_tame {p : String} (tame : Tame p) (normalized : normalize p = some safe)
    (output : hasPrefix "input/" safe = false) : Harmless safe := by
  rcases normalize_tame tame normalized with here | ⟨plain, trimmed⟩
  · exact .inr (.inl here)
  · exact .inr (.inr ⟨plain, trimmed, output⟩)

theorem harmless_normalizeQuiet (harmless : Harmless name) : Harmless (normalizeQuiet name) := by
  rcases harmless with rfl | rfl | ⟨plain, trimmed, output⟩
  · exact .inr (.inl (by decide))
  · exact .inr (.inl (by decide))
  · have relative := plain_not_abs plain
    unfold normalizeQuiet sanitizePath
    rw [pathText_plain plain]
    dsimp only
    split_ifs
    · exact .inl (by decide)
    · rw [Option.getD_some, trimmed, trimSlash_relative name relative]
      exact .inr (.inr ⟨plain, trimmed, output⟩)

theorem input_suffix {below : Path} (last : String) (filled : below ≠ [])
    (input : ∃ rest, rest ≠ [] ∧ below.dropLast ++ [last] = "input" :: rest) :
    ∃ rest, rest ≠ [] ∧ below = "input" :: rest := by
  obtain ⟨rest, more, same⟩ := input
  have whole := List.dropLast_append_getLast filled
  cases front : below.dropLast with
  | nil =>
    rw [front, List.nil_append, List.cons.injEq] at same
    exact absurd same.2.symm more
  | cons first middle =>
    rw [front, List.cons_append, List.cons.injEq] at same
    rw [front, same.1] at whole
    exact ⟨_, by simp, whole.symm⟩

theorem plain_not_input (output : hasPrefix "input/" name = false) :
    ¬ ∃ rest, rest ≠ [] ∧ parts name = "input" :: rest := by
  rintro ⟨rest, more, split⟩
  obtain ⟨front, back, rfl, head, _⟩ := parts_split name ["input"] rest split (by simp) more
  obtain rfl : front = "input" := parts_injective head
  simp [hasPrefix] at output

theorem harmless_apart (rootDir : String) (harmless : Harmless name) :
    ¬ IsInput rootDir (join rootDir name) ∧ ¬ IsInput rootDir (join rootDir (name ++ ".meta")) ∧
      ¬ IsInput rootDir (withSuffix (join rootDir name) ".tmp") := by
  -- The directory itself, under one of the two names for it.
  have here (name : String) (relative : isAbs name = false) (empty : clean name = [])
      (plain : Plain (name ++ ".meta")) (single : (parts (name ++ ".meta")).length = 1) :
      ¬ IsInput rootDir (join rootDir name) ∧ ¬ IsInput rootDir (join rootDir (name ++ ".meta")) ∧
        ¬ IsInput rootDir (withSuffix (join rootDir name) ".tmp") := by
    have root : join rootDir name = clean rootDir := by
      rw [join_below rootDir relative (by simp [empty]), empty, List.append_nil]
    have deep (path : Path) (input : IsInput rootDir path) : (clean rootDir).length + 2 ≤ path.length := by
      obtain ⟨rest, more, rfl⟩ := input
      rw [join_plain rootDir "input" (by decide), List.append_assoc, List.length_append, List.length_append,
        show (parts "input").length = 1 by decide]
      have := List.length_pos_of_ne_nil more
      omega
    refine ⟨fun input => ?_, fun input => ?_, fun input => ?_⟩
    · have := deep _ input
      rw [root] at this
      omega
    · have := deep _ input
      rw [join_plain rootDir _ plain, List.length_append] at this
      omega
    · have long := deep _ input
      rw [root] at long
      cases path : clean rootDir with
      | nil => simp [path, withSuffix] at long
      | cons first rest =>
        rw [path] at long
        simp only [withSuffix, List.length_append, List.length_dropLast, List.length_cons, List.length_nil] at long
        omega
  rcases harmless with rfl | rfl | ⟨plain, _, output⟩
  · exact here "" (by decide) (by decide) (by decide) (by decide)
  · exact here "." (by decide) (by decide) (by decide) (by decide)
  · have outside := plain_not_input output
    have filled := parts_nonempty name
    have longer (last : String) (input : IsInput rootDir (clean rootDir ++ ((parts name).dropLast ++ [last]))) :
        False := outside (input_suffix last filled ((isInput_below rootDir _).mp input))
    rw [join_plain rootDir name plain, isInput_below,
      join_plain rootDir _ (plain_suffix ".meta" plain (by decide) (by decide)),
      parts_suffix name ".meta" (by decide), withSuffix_append _ _ _ filled]
    exact ⟨outside, longer _, longer _⟩

def Spares (region : Path → Prop) (before after : Tree) : Prop :=
  ∀ path content, region path → before.find path = some (.file content) → after.find path = some (.file content)

theorem Spares.refl (tree : Tree) : Spares region tree tree := fun _ _ _ holds => holds

theorem Spares.trans {middle : Tree} (first : Spares region before middle)
    (second : Spares region middle after) : Spares region before after :=
  fun path content inside holds => second path content inside (first path content inside holds)

def Untouched (region : Path → Prop) (before after : Tree) : Prop :=
  ∀ path content, region path → (after.find path = some (.file content) ↔ before.find path = some (.file content))

namespace Untouched

variable {region : Path → Prop}

theorem spares (untouched : Untouched region before after) : Spares region before after :=
  fun path content inside holds => (untouched path content inside).mpr holds

theorem refl (tree : Tree) : Untouched region tree tree := fun _ _ _ => Iff.rfl

theorem trans {middle : Tree} (first : Untouched region before middle)
    (second : Untouched region middle after) : Untouched region before after :=
  fun path content inside => (second path content inside).trans (first path content inside)

theorem writeFile (before after : Tree) (path : Path) (content : Bytes) (outside : ¬ region path)
    (written : before.writeFile path content = some after) : Untouched region before after := by
  intro target held inside
  have other : target ≠ path := fun same => outside (same ▸ inside)
  rw [FileTree.Tree.find_writeFile target written, if_neg other]

theorem writeFile_getD (tree : Tree) {path : Path} (content : Bytes) (outside : ¬ region path) :
    Untouched region tree ((tree.writeFile path content).getD tree) := by
  cases written : tree.writeFile path content with
  | none => exact refl tree
  | some after => exact writeFile tree after path content outside written

theorem remove (before after : Tree) (path : Path) (outside : ¬ region path)
    (removed : before.remove path = some after) : Untouched region before after := by
  intro target held inside
  have other : target ≠ path := fun same => outside (same ▸ inside)
  rw [FileTree.Tree.find_remove target removed, if_neg other]

theorem osCreate (before after : Tree) (path : Path) (outside : ¬ region path)
    (created : osCreate before path = some after) : Untouched region before after := by
  unfold Ikkat.osCreate at created
  split at created
  · exact writeFile before after path [] outside created
  · obtain rfl := Option.some.inj created
    exact refl before
  · cases created

theorem osAppend (tree : Tree) (path : Path) (data : Bytes) (outside : ¬ region path) :
    Untouched region tree (Server.osAppend tree path data) := by
  unfold Server.osAppend
  split
  · exact writeFile_getD tree _ outside
  · exact refl tree

theorem applyAll (io : Nat → ApplyIO) (rootDir : String) (position : Nat) (entries : List LogEntry) (tree : Tree)
    (outside : ∀ entry ∈ entries, ¬ region (join rootDir entry.filename)) :
    Untouched region tree (applyAll io rootDir position entries tree) := by
  intro path content inside
  refine applyAll_other io rootDir position entries tree path content ?_
  exact fun entry listed same => outside entry listed (same ▸ inside)

end Untouched

namespace Server

theorem appendUnique_untouched (env : Env) {filename : String}
    (unique : List UInt64) (full : ¬ region (s.path filename)) (tmp : ¬ region (withSuffix (s.path filename) ".tmp")) :
    Untouched region s.tree (s.appendUnique env filename unique).1.tree := by
  unfold appendUnique
  dsimp only
  split
  case h_1 => exact .refl _
  case h_2 opened opens =>
    have started : Untouched region s.tree opened := by
      split_ifs at opens
      exact .writeFile _ _ _ _ tmp opens
    generalize (if unique = [] then [] else copied env.tmpWrite (renderNumbers unique)) = lines
    have filled := started.trans (.writeFile_getD opened lines tmp)
    split
    · exact filled
    · split
      · exact filled
      · split
        case h_1 => exact filled
        case h_2 created creates =>
          have grown : Untouched region s.tree (osAppend created (s.path filename) (copied env.copy lines)) := by
            split_ifs at creates
            exact (filled.trans (.osCreate _ _ _ full creates)).trans (.osAppend _ _ _ full)
          split_ifs
          · exact grown
          · dsimp only
            cases removed : (osAppend created (s.path filename) (copied env.copy lines)).remove
                (withSuffix (s.path filename) ".tmp") with
            | none => exact grown
            | some left => exact grown.trans (.remove _ _ _ tmp removed)
          · exact grown

theorem updatePrimes_untouched (env : Env) (primes : FilePrimeSet)
    (full : ¬ region (s.path call.filename)) (tmp : ¬ region (withSuffix (s.path call.filename) ".tmp")) :
    Untouched region s.tree (s.updatePrimes env call primes).1.tree := by
  have appended := appendUnique_untouched env (s.tempPrimeSet call).1 full tmp
  unfold updatePrimes
  split
  · exact .refl _
  · dsimp only
    split
    · exact appended
    · exact appended

theorem finishCall_untouched (region : Path → Prop) (env : Env) (s : Server) (call : Call)
    (outside : ¬ region (s.path (call.name ++ ".meta"))) :
    Untouched region s.tree (s.finishCall env call).1.tree := by
  intro path content inside
  have other : path ≠ s.path (call.name ++ ".meta") := fun same => outside (same ▸ inside)
  rw [s.finishCall_tree env call path other]

theorem input_not_output (name : String) (input : hasPrefix "input/" name = true) :
    (hasPrefix "output/" name || hasPrefix "output\\" name) = false := by
  unfold hasPrefix at *
  cases text : name.toList with
  | nil => simp [text] at input
  | cons first rest =>
    obtain rfl : first = 'i' := by
      rw [text] at input
      simp only [String.reduceToList, List.isPrefixOf_cons_cons, Bool.and_eq_true, beq_iff_eq] at input
      exact input.1.symm
    rfl

theorem create_refused {req : CreateRequest} (named : normalize req.filename = some safe)
    (other : (hasPrefix "output/" safe || hasPrefix "output\\" safe) = false)
    (handled : s.create env req = .returned next answer sent) : next = s := by
  cases handled ▸ s.create_exit env req with
  | dismissed why => exact why.same.1
  | unnamed | barred => rfl
  | failed also _ _ _ named' output | created also _ _ named' output =>
    obtain rfl := Option.some.inj (named'.symm.trans named)
    cases output.symm.trans other

theorem delete_refused {req : DeleteRequest}
    (named : normalize req.filename = some safe) (input : hasPrefix "input/" safe = true)
    (handled : s.delete env req = .returned next answer sent) : next = s := by
  cases handled ▸ s.delete_exit env req with
  | dismissed why => exact why.same.1
  | unnamed | input | directory | busy => rfl
  | gone also _ named' output =>
    obtain rfl := Option.some.inj (named'.symm.trans named)
    cases output.symm.trans input
  | failed also entry claim | removed also entry _ claim =>
    obtain rfl := Option.some.inj (claim.named.symm.trans named)
    cases claim.output.symm.trans input

theorem openFile_writable (handled : s.openFile env req = .returned next answer sent) (fd : Int32) (found : FileMeta)
    (present : next.files.lookup fd = some found) :
    s.files.lookup fd = some found ∨
      ∃ safe, normalize req.filename = some safe ∧ found.filename = safe ∧
        ∀ client state, found.clients.lookup client = some state → state.mode = .write →
          hasPrefix "input/" safe = false := by
  cases handled ▸ s.openFile_exit env req with
  | dismissed why => exact .inl (why.same.1 ▸ present)
  | unnamed | failed => exact .inl present
  | opened safe _ _ named _ regular =>
    refine (opened_insert present).symm.imp_right fun own => ⟨safe, named, by rw [own], fun client state registered write => ?_⟩
    rw [own] at registered
    exact (regular (registered_mode registered ▸ write)).1

structure Guarded (s : Server) : Prop where
  log : ∀ entry ∈ s.log, ¬ IsInput s.rootDir (s.path entry.filename)
  opened : ∀ fd found client state, s.files.lookup fd = some found →
    found.clients.lookup client = some state → state.mode = .write → Harmless found.filename

structure Guards (s next : Server) : Prop where
  rootDir : next.rootDir = s.rootDir
  spares : s.Guarded → Spares (IsInput s.rootDir) s.tree next.tree
  guarded : s.Guarded → next.Guarded

theorem Guards.refl (s : Server) : s.Guards s := ⟨rfl, fun _ => .refl _, fun guarded => guarded⟩

theorem Guards.trans {middle : Server} (first : s.Guards middle) (second : middle.Guards next) :
    s.Guards next where
  rootDir := second.rootDir.trans first.rootDir
  spares guarded := (first.spares guarded).trans (first.rootDir ▸ second.spares (first.guarded guarded))
  guarded guarded := second.guarded (first.guarded guarded)

theorem guards_create {req : CreateRequest} (tame : Tame req.filename)
    (handled : s.create env req = .returned next answer sent) : s.Guards next := by
  rcases create_cases handled with rfl | ⟨safe, named, effect⟩
  · exact .refl next
  · have files := createEffect_files effect
    have output : (∃ fd found, next.files.lookup fd = some found ∧ s.files.lookup fd ≠ some found) →
        hasPrefix "input/" safe = false := by
      rintro ⟨fd, found, new, missing⟩
      by_contra input
      have other := input_not_output safe (by simpa using input)
      rw [create_refused named other handled] at new
      exact missing new
    obtain ⟨table, requests, openMap, nextFD, metas, tree, rfl, effect⟩ := effect
    refine ⟨rfl, fun _ path content _ holds => ?_, fun guarded => ⟨guarded.log, ?_⟩⟩
    · rcases effect with ⟨same, _⟩ | ⟨⟨absent, adds⟩, _⟩
      · exact (same path content).mpr holds
      · refine (adds path content).mpr ?_
        rw [if_neg]
        · exact holds
        · rintro rfl
          rw [absent] at holds
          cases holds
    · intro fd found client state present registered write
      by_cases old : s.files.lookup fd = some found
      · exact guarded.opened fd found client state old registered write
      · rw [(files fd found present).resolve_right old]
        exact harmless_tame tame named (output ⟨fd, found, present, old⟩)

theorem guards_open (tame : Tame req.filename)
    (handled : s.openFile env req = .returned next answer sent) : s.Guards next := by
  have files := openFile_writable handled
  rcases openFile_cases handled with rfl | ⟨_, _, effect⟩
  · exact .refl next
  · obtain ⟨table, requests, openMap, nextFD, metas, rfl, _⟩ := effect
    refine ⟨rfl, fun _ => .refl _, fun guarded => ⟨guarded.log, ?_⟩⟩
    intro fd found client state present registered write
    rcases files fd found present with old | ⟨safe, named, rfl, output⟩
    · exact guarded.opened fd found client state old registered write
    · exact harmless_tame tame named (output client state registered write)

theorem guards_delete {req : DeleteRequest} (tame : Tame req.filename)
    (handled : s.delete env req = .returned next answer sent) : s.Guards next := by
  obtain ⟨table, requests, filesPrimes, tree, made, effect⟩ := delete_cases handled
  have spares : Spares (IsInput s.rootDir) s.tree next.tree := by
    rcases effect with same | ⟨safe, _, named, _, removed⟩
    · rw [made, same]
      exact .refl _
    · cases input : hasPrefix "input/" safe with
      | true =>
        rw [delete_refused named input handled]
        exact .refl _
      | false =>
        rw [made]
        have outside := (harmless_apart s.rootDir (harmless_tame tame named input)).1
        exact (Untouched.remove _ _ _ outside removed).spares
  refine ⟨by rw [made], fun _ => spares, fun guarded => ?_⟩
  rw [made]
  exact ⟨guarded.log, guarded.opened⟩

theorem guards_table (s : Server) (table : Map String FileEntry) : s.Guards { s with table := table } :=
  ⟨rfl, fun _ => .refl _, fun guarded => ⟨guarded.log, guarded.opened⟩⟩

theorem guards_release (s : Server) (name : String) : s.Guards (s.releaseWrite name) := by
  obtain ⟨table, same⟩ := s.releaseWrite_eq name
  rw [same]
  exact guards_table s table

theorem guards_finishCall (env : Env) (s : Server)
    (harmless : call.req.dirty = true → Harmless call.name) : s.Guards (s.finishCall env call).1 := by
  have keeps := s.finishCall_keeps env call
  refine ⟨keeps.rootDir, fun _ => ?_, fun guarded => ⟨?_, ?_⟩⟩
  · cases dirty : call.req.dirty with
    | false =>
      rw [finishCall_clean env s call dirty]
      exact .refl _
    | true => exact (finishCall_untouched _ env s call (harmless_apart s.rootDir (harmless dirty)).2.1).spares
  · intro entry listed
    rw [path, keeps.rootDir]
    exact guarded.log entry (keeps.log ▸ listed)
  · intro fd found client state present registered write
    obtain ⟨old, before, named, kept⟩ := s.finishCall_clients env call fd found present
    rw [named]
    exact guarded.opened fd old client state before (kept client state registered) write

theorem guards_commitEntry (io : Nat → ApplyIO) (s : Server) (entry : LogEntry) :
    s.Guards (s.commitEntry io entry) := by
  rw [commitEntry_eq]
  refine ⟨rfl, fun guarded => ?_, fun guarded => ⟨guarded.log, guarded.opened⟩⟩
  refine (Untouched.applyAll _ _ _ _ _ fun applied listed => ?_).spares
  exact guarded.log applied (List.mem_of_mem_take (List.mem_of_mem_drop listed))

theorem guards_updatePrimes (env : Env) (s : Server) (primes : FilePrimeSet)
    (harmless : Harmless call.filename) : s.Guards (s.updatePrimes env call primes).1 := by
  obtain ⟨full, _, tmp⟩ := harmless_apart s.rootDir harmless
  have spares := (updatePrimes_untouched env primes full tmp).spares
  obtain ⟨tree, filesPrimes, same⟩ := s.updatePrimes_eq env call primes
  rw [same] at spares ⊢
  exact ⟨rfl, fun _ => spares, fun guarded => ⟨guarded.log, guarded.opened⟩⟩

variable [LogCodec]

theorem guards_commitCall (env : Env) (s : Server) (filename : Harmless call.filename)
    (name : Harmless call.name) : s.Guards (s.commitCall env call).1 := by
  obtain ⟨logFile, _, outcome⟩ := commitCall_cases env s call
  have logged : s.Guards { s with
      log := s.log ++ [s.logEntry call (s.content env.range call) s.log.length], logFile := logFile } := by
    refine ⟨rfl, fun _ => .refl _, fun guarded => ⟨?_, guarded.opened⟩⟩
    intro entry listed
    rcases List.mem_append.mp listed with before | own
    · exact guarded.log entry before
    · rw [List.mem_singleton.mp own]
      exact (harmless_apart s.rootDir name).1
  rcases outcome with ⟨_, same, _⟩ | ⟨_, same, _⟩
  · rw [same]
    exact logged
  · rw [same]
    exact (logged.trans (guards_commitEntry ..)).trans (guards_updatePrimes _ _ _ filename)

theorem guards_handleCall {kind : Kind} {req : DataRequest} (guarded : s.Guarded)
    (handled : s.handleCall kind env req = .returned next answer sent) : s.Guards next := by
  rcases handleCall_cases handled with
    ⟨table, rfl⟩ | ⟨opened, call, begun, clean, rfl⟩ | ⟨ready, call, enters, rfl⟩
  · exact guards_table s table
  · obtain ⟨found, client, table, _, _, _, rfl, rfl⟩ := beginCall_opened kind env.start s opened req call begun
    refine (guards_table s table).trans (guards_finishCall env _ fun dirty => ?_)
    rw [clean] at dirty
    cases dirty
  · obtain ⟨found, client, table, _, present, registered, mode, _, rfl, rfl⟩ :=
      enters_eq kind env s ready req call enters
    have harmless := guarded.opened req.fd found req.clientID client present registered mode
    have named : Harmless (Call.name ⟨kind, req, found.filename, client.mode⟩) := by
      cases kind with
      | close => exact harmless_normalizeQuiet harmless
      | write => exact harmless
    have committed := (guards_table s table).trans
      (guards_commitCall env { s with table := table } harmless named)
    refine .trans ?_ (guards_release _ _)
    split_ifs
    · exact committed.trans (guards_finishCall env _ fun _ => named)
    · exact committed

end Server

def Rpc.Tame : Rpc → Prop
  | .create req => Ikkat.Tame req.filename
  | .openFile req => Ikkat.Tame req.filename
  | .delete req => Ikkat.Tame req.filename
  | _ => True

theorem guards_serveStep [LogCodec] {delivery : Delivery} (guarded : s.Guarded)
    (tame : delivery.rpc.Tame) (stepped : serveStep s delivery = some next) : s.Guards next := by
  obtain ⟨answer, sent, handled⟩ := serveStep_returned stepped
  obtain ⟨env, rpc⟩ := delivery
  cases rpc with
  | create req => exact Server.guards_create tame handled
  | openFile req => exact Server.guards_open tame handled
  | close req | write req => exact Server.guards_handleCall guarded handled
  | delete req => exact Server.guards_delete tame handled

theorem input_files_read_only [LogCodec] (s : Server) (guarded : s.Guarded) (deliveries : List Delivery)
    (tame : ∀ delivery ∈ deliveries, delivery.rpc.Tame) (final : Server)
    (reached : Transition.run serveStep s deliveries = some final) (path : Path) (content : Bytes)
    (input : IsInput s.rootDir path) (holds : s.tree.find path = some (.file content)) :
    final.tree.find path = some (.file content) := by
  induction deliveries generalizing s with
  | nil =>
    obtain rfl := Option.some.inj reached
    exact holds
  | cons delivery rest ih =>
    obtain ⟨next, stepped, later⟩ := (Transition.run_cons ..).mp reached
    have guards := guards_serveStep guarded (tame delivery (by simp)) stepped
    refine ih next (guards.guarded guarded) (fun other inside => tame other (by simp [inside])) later
      (guards.rootDir ▸ input) ?_
    exact guards.spares guarded path content input holds

def inputOne : Server :=
  { firstPrimary with
    tree := (firstPrimary.tree.writeFile ["storage", "input", "x"] [50, 10]).getD firstPrimary.tree }

theorem inputOne_guarded : inputOne.Guarded := by
  have log : inputOne.log = [] := by decide +kernel
  refine ⟨by simp [log], fun fd found client state present => ?_⟩
  cases present

def openAs (requestId filename : String) (mode : FileMode) : Delivery :=
  ⟨{}, .openFile ⟨requestId, filename, mode, "c"⟩⟩

def closeThree : Delivery :=
  ⟨{ answers := [("2", true), ("3", true)] }, .close ⟨"r2", 0, true, 1, [51, 10], "c"⟩⟩

theorem input_file_read_only_one :
    ∃ final, Transition.run serveStep inputOne [openAs "r1" "input/x" .write, openAs "r2" "./input//x" .read] =
        some final ∧ final.tree.find ["storage", "input", "x"] = some (.file [50, 10]) := by
  have ends : (Transition.run serveStep inputOne
      [openAs "r1" "input/x" .write, openAs "r2" "./input//x" .read]).isSome := by decide +kernel
  obtain ⟨final, reached⟩ := Option.isSome_iff_exists.mp ends
  have tame : ∀ delivery ∈ [openAs "r1" "input/x" .write, openAs "r2" "./input//x" .read],
      delivery.rpc.Tame := by
    intro delivery member
    rcases List.mem_pair.mp member with rfl | rfl
    · change Tame "input/x"
      decide
    · change Tame "./input//x"
      decide
  exact ⟨final, reached, input_files_read_only inputOne inputOne_guarded _ tame final reached
    ["storage", "input", "x"] [50, 10] ⟨["x"], by decide, by decide⟩ (by decide +kernel)⟩

-- The blank hides the first component from the cleaning; the trimmed name starts with a dot.
theorem dotted_name_reaches_input_file :
    inputOne.Guarded ∧ IsInput inputOne.rootDir ["storage", "input", "x"] ∧
      inputOne.tree.find ["storage", "input", "x"] = some (.file [50, 10]) ∧
      (Transition.run serveStep inputOne [openAs "r1" " ./input/x" .write, closeThree]).map
          (fun s => s.tree.find ["storage", "input", "x"]) = some (some (.file [51, 10])) ∧
      (Transition.run serveStep inputOne
          [openAs "r1" " ./input/x" .write, ⟨{}, .delete ⟨"r2", " ./input/x"⟩⟩]).map
          (fun s => s.tree.find ["storage", "input", "x"]) = some none :=
  ⟨inputOne_guarded, ⟨["x"], by decide, by decide⟩, by decide +kernel, by decide +kernel, by decide +kernel⟩

end Ikkat
