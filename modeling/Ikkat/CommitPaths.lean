import Ikkat.Captured
import Ikkat.Coherence

set_option autoImplicit false

namespace Ikkat

variable {data : Bytes} {primes : FilePrimeSet}

def Terminated (data : Bytes) : Prop := data = [] ∨ ∃ body, data = body ++ [newline]

theorem parseNumbers_terminated (rest : Bytes) (terminated : Terminated data) :
    parseNumbers (data ++ rest) = parseNumbers data ++ parseNumbers rest := by
  rcases terminated with rfl | ⟨body, rfl⟩
  · rfl
  · rw [List.append_assoc, List.singleton_append, parseNumbers_line]

theorem exact_of_appended (terminated : Terminated data)
    (listed : Exact (data ++ renderNumbers (filterUniquePrimes (parseNumbers data) primes).1)
      (filterUniquePrimes (parseNumbers data) primes).2) : Exact data primes := by
  have text := parseNumbers_terminated (renderNumbers (filterUniquePrimes (parseNumbers data) primes).1) terminated
  rw [parseNumbers_renderNumbers] at text
  obtain ⟨once, members⟩ := listed
  rw [text] at once members
  obtain ⟨single, _, apart⟩ := List.nodup_append.mp once
  have known (number : UInt64) (member : number ∈ parseNumbers data) : number ∈ primes := by
    by_contra fresh
    exact apart number member number ((mem_filterUniquePrimes ..).mpr ⟨member, fresh⟩) rfl
  rw [filterUniquePrimes_known _ known, List.append_nil] at members
  exact ⟨single, members⟩

theorem appended_of_exact (listed : Exact data primes) :
    Exact (data ++ renderNumbers (filterUniquePrimes (parseNumbers data) primes).1)
      (filterUniquePrimes (parseNumbers data) primes).2 := by
  rw [filterUniquePrimes_known _ fun number => (listed.2 number).mp]
  simpa [renderNumbers] using listed

namespace Server

theorem appendUnique_passed {env : Env} {s : Server} {filename : String} {unique : List UInt64}
    (passed : (s.appendUnique env filename unique).2 = none) :
    ∃ opened created grown, s.tree.writeFile (withSuffix (s.path filename) ".tmp") [] = some opened ∧
      osCreate ((opened.writeFile (withSuffix (s.path filename) ".tmp") (renderNumbers unique)).getD opened)
        (s.path filename) = some created ∧
      grown = osAppend created (s.path filename) (renderNumbers unique) ∧
      (s.appendUnique env filename unique).1.tree =
        if env.remove then (grown.remove (withSuffix (s.path filename) ".tmp")).getD grown else grown := by
  revert passed
  unfold appendUnique
  dsimp only
  split
  case h_1 => exact fun failed => by cases failed
  case h_2 opened opens =>
    have made : s.tree.writeFile (withSuffix (s.path filename) ".tmp") [] = some opened := by
      split_ifs at opens
      exact opens
    split
    case isTrue => exact fun failed => by cases failed
    case isFalse whole =>
      have lines : (if unique = [] then [] else copied env.tmpWrite (renderNumbers unique)) = renderNumbers unique := by
        split_ifs with none
        · simp [none, renderNumbers]
        · have done : env.tmpWrite = .done := by
            by_contra cut
            exact whole ⟨none, cut⟩
          rw [done, copied]
      rw [lines]
      split
      case isTrue => exact fun failed => by cases failed
      case isFalse =>
        split
        case h_1 => exact fun failed => by cases failed
        case h_2 created creates =>
          split
          case isTrue => exact fun failed => by cases failed
          case isFalse copies =>
            have done : env.copy = .done := by simpa using copies
            have created' := creates
            split_ifs at created'
            intro _
            refine ⟨opened, created, _, made, created', rfl, ?_⟩
            rw [done, copied]
            split <;> rfl

section Passed

variable {env : Env} {s : Server} {filename : String} {unique : List UInt64}
  (passed : (s.appendUnique env filename unique).2 = none)

include passed

theorem appendUnique_text {old : Bytes} (present : s.tree.find (s.path filename) = some (.file old)) :
    (s.appendUnique env filename unique).1.tree.find (s.path filename) = some (.file (old ++ renderNumbers unique)) := by
  have apart : s.path filename ≠ withSuffix (s.path filename) ".tmp" := (withSuffix_tmp_ne _).symm
  obtain ⟨opened, created, grown, opens, creates, rfl, left⟩ := appendUnique_passed passed
  have filled : ((opened.writeFile (withSuffix (s.path filename) ".tmp") (renderNumbers unique)).getD
      opened).find (s.path filename) = some (.file old) := by
    have before : opened.find (s.path filename) = some (.file old) := by
      rw [FileTree.Tree.find_writeFile _ opens, if_neg apart, present]
    cases made : opened.writeFile (withSuffix (s.path filename) ".tmp") (renderNumbers unique) with
    | none => exact before
    | some next => rw [Option.getD_some, FileTree.Tree.find_writeFile _ made, if_neg apart, before]
  have here : created.find (s.path filename) = some (.file old) := by
    unfold osCreate at creates
    rw [filled] at creates
    rw [← Option.some.inj creates, filled]
  have appended : (osAppend created (s.path filename) (renderNumbers unique)).find (s.path filename) =
      some (.file (old ++ renderNumbers unique)) := by
    obtain ⟨next, made⟩ := created.writeFile_over _ old (old ++ renderNumbers unique) here
    rw [osAppend, here]
    dsimp only
    rw [made, Option.getD_some, FileTree.Tree.find_writeFile _ made, if_pos rfl]
  rw [left]
  split_ifs
  · cases gone : (osAppend created (s.path filename) (renderNumbers unique)).remove
        (withSuffix (s.path filename) ".tmp") with
    | none => exact appended
    | some after => rw [Option.getD_some, FileTree.Tree.find_remove _ gone, if_neg apart, appended]
  · exact appended

theorem appendUnique_tmp : (s.appendUnique env filename unique).1.tree.find (withSuffix (s.path filename) ".tmp") =
    if env.remove then none else some (.file (renderNumbers unique)) := by
  have apart : withSuffix (s.path filename) ".tmp" ≠ s.path filename := withSuffix_tmp_ne _
  obtain ⟨opened, created, grown, opens, creates, made, left⟩ := appendUnique_passed passed
  have filled : ((opened.writeFile (withSuffix (s.path filename) ".tmp") (renderNumbers unique)).getD
      opened).find (withSuffix (s.path filename) ".tmp") = some (.file (renderNumbers unique)) := by
    obtain ⟨next, written⟩ := opened.writeFile_over (withSuffix (s.path filename) ".tmp") [] (renderNumbers unique)
      (by rw [FileTree.Tree.find_writeFile _ opens, if_pos rfl])
    rw [written, Option.getD_some, FileTree.Tree.find_writeFile _ written, if_pos rfl]
  have still : grown.find (withSuffix (s.path filename) ".tmp") = some (.file (renderNumbers unique)) := by
    have untouched : Untouched (· = withSuffix (s.path filename) ".tmp")
        ((opened.writeFile (withSuffix (s.path filename) ".tmp") (renderNumbers unique)).getD opened) grown := by
      rw [made]
      exact (Untouched.osCreate _ created (s.path filename) apart.symm creates).trans
        (.osAppend created (s.path filename) _ apart.symm)
    exact (untouched _ _ rfl).mpr filled
  rw [left]
  split_ifs
  · obtain ⟨after, gone⟩ := FileTree.Tree.remove_file still
    rw [gone, Option.getD_some, FileTree.Tree.find_remove _ gone, if_pos rfl]
  · exact still

end Passed

def leftText (kind : Kind) (range : RangeOrder) (data : Bytes) (merged : List UInt64 × FilePrimeSet) : Bytes :=
  match kind with
  | .close => range.render merged.2
  | .write => data ++ renderNumbers merged.1

structure Leaves (next : Server) (name : String) (content : Bytes) (primes : FilePrimeSet) (version : Int32) : Prop where
  bytes : next.bytes name = some content
  primes : next.primeSet name = primes
  version : next.version name = some version

theorem committed_leaves (files : CanonicalNames) (env : Env) (s : Server) (call : Call)
    (member : call.filename ∈ files.names) (works : ∀ position, env.apply position = .ok)
    (caughtUp : s.lastApplied = s.log.length) (old : Bytes) (regular : s.bytes call.filename = some old)
    (logFile : Bytes) (finished : (committed env s call logFile).2 = none) :
    (committed env s call logFile).1.bytes call.filename =
        some (leftText call.kind env.range call.req.data (s.tempPrimeSet call)) ∧
      (committed env s call logFile).1.primeSet call.filename = (s.tempPrimeSet call).2 := by
  obtain ⟨named, keyed⟩ := files.call_name call member
  let entry := s.logEntry call (s.content env.range call) s.log.length
  have applied : (applyTree .ok s.rootDir entry s.tree).find (s.path call.filename) =
      some (.file (s.content env.range call)) := by
    have path : s.path call.filename = join s.rootDir entry.filename := congrArg (join s.rootDir) named.symm
    rw [bytes_eq, path] at regular
    rw [path]
    exact applyTree_written s.rootDir s.tree old rfl regular
  have kind : call.kind = .close ∨ call.kind = .write := by cases call.kind <;> simp
  rcases kind with close | write
  · rw [committed_close env s caughtUp call close logFile, works]
    refine ⟨(bytes_eq ..).mpr ?_, ?_⟩
    · rw [close]
      rw [content, close] at applied
      exact applied
    · simp [primeSet, keyed]
  · unfold committed at finished ⊢
    dsimp only at finished ⊢
    rw [commitEntry_alone env.apply caughtUp _ logFile rfl, works] at finished ⊢
    generalize ready : { s with
        log := s.log ++ [s.logEntry call (s.content env.range call) s.log.length]
        logFile := logFile
        commitIndex := s.log.length + 1
        lastApplied := s.log.length + 1
        tree := applyTree .ok s.rootDir (s.logEntry call (s.content env.range call) s.log.length) s.tree } = after
      at finished ⊢
    have here : after.tree.find (after.path call.filename) = some (.file call.req.data) := by
      rw [content, write] at applied
      rw [← ready]
      exact applied
    have temp : after.tempPrimeSet call = s.tempPrimeSet call := by rw [← ready]; rfl
    obtain ⟨tree, same⟩ := after.appendUnique_eq env call.filename (after.tempPrimeSet call).1
    rw [after.updatePrimes_write env _ write] at finished ⊢
    cases passed : (after.appendUnique env call.filename (after.tempPrimeSet call).1).2 with
    | some status => rw [passed] at finished; cases finished
    | none =>
      have text := appendUnique_text passed here
      rw [same] at text ⊢
      refine ⟨(bytes_eq ..).mpr ?_, ?_⟩
      · rw [write, ← temp]
        exact text
      · simp [primeSet, setPrimes, keyed, temp]

theorem finishCall_file (files : CanonicalNames) (env : Env) (s : Server) (call : Call)
    (member : call.filename ∈ files.names) : (s.finishCall env call).1.bytes call.filename = s.bytes call.filename ∧
      (s.finishCall env call).1.primeSet call.filename = s.primeSet call.filename := by
  obtain ⟨table, tree, descriptors, requests, same⟩ := s.finishCall_eq env call
  refine ⟨bytes_of_files s _ (by rw [same]) call.filename fun content => ?_, by rw [same]; rfl⟩
  rw [finishCall_tree env s call _]
  rw [(files.call_name call member).1]
  exact files.meta_apart s.rootDir call.filename call.filename member member

section Calls

variable [LogCodec] (files : CanonicalNames) (env : Env) (s next : Server) (req : DataRequest)
  (response : Response) (sent : List AppendEntriesRequest) (found : FileMeta)
  (uncached : s.cached req.requestId env.start = none) (opened : s.files.lookup req.fd = some found)
  (member : found.filename ∈ files.names)

include uncached opened member

theorem dirtyCall_leaves (kind : Kind) (handled : s.handleCall kind env req = .returned next (.ok response) sent)
    (dirty : req.dirty = true) (works : ∀ position, env.apply position = .ok)
    (caughtUp : s.lastApplied = s.log.length) (old : Bytes) (regular : s.bytes found.filename = some old) :
    next.Leaves found.filename
      (leftText kind env.range req.data (filterUniquePrimes (parseNumbers req.data) (s.primeSet found.filename)))
      (filterUniquePrimes (parseNumbers req.data) (s.primeSet found.filename)).2
      ((s.version found.filename).getD 1 + 1) := by
  cases handleCall_outcome kind env s next req _ sent (cachedCall_fresh kind uncached) handled with
  | clean call table response begun still => rw [dirty] at still; cases still
  | done call ready logFile response enters replicated persisted finished made =>
    obtain ⟨other, client, table, _, there, _, mode, _, rfl, rfl⟩ := enters_eq kind env s ready req call enters
    obtain rfl : found = other := Option.some.inj (opened.symm.trans there)
    obtain ⟨named, keyed⟩ := files.call_name ⟨kind, req, found.filename, client.mode⟩ member
    obtain ⟨text, primes⟩ := committed_leaves files env { s with table := table }
      ⟨kind, req, found.filename, client.mode⟩ member works caughtUp old regular logFile finished
    rw [tempPrimeSet, keyed] at text primes
    have versions : (committed env { s with table := table } ⟨kind, req, found.filename, client.mode⟩
        logFile).1.version found.filename = some ((s.version found.filename).getD 1) := by
      obtain ⟨opened, begun, _, _, same, _⟩ := enters
      rw [committed_version, same, version_acquireWrite, beginCall_version kind env.start s opened req _ begun, named,
        if_pos rfl]
    obtain ⟨sameText, samePrimes⟩ := finishCall_file files env (committed env { s with table := table }
      ⟨kind, req, found.filename, client.mode⟩ logFile).1 ⟨kind, req, found.filename, client.mode⟩ member
    obtain ⟨released, free⟩ := releaseWrite_eq ((committed env { s with table := table }
      ⟨kind, req, found.filename, client.mode⟩ logFile).1.finishCall env ⟨kind, req, found.filename, client.mode⟩).1
      (Call.name ⟨kind, req, found.filename, client.mode⟩)
    rw [made]
    refine ⟨?_, ?_, ?_⟩
    · rw [free]
      exact sameText.trans text
    · rw [free]
      exact samePrimes.trans primes
    · rw [version_releaseWrite, version_finishCall env _ _ dirty, named, if_pos rfl, versions]
      rfl

theorem cleanClose_leaves (handled : s.handleCall .close env req = .returned next (.ok response) sent)
    (clean : req.dirty = false) (content : Bytes) (primes : FilePrimeSet) (version : Int32)
    (left : s.Leaves found.filename content primes version) : next.Leaves found.filename content primes version := by
  cases handleCall_outcome .close env s next req _ sent (cachedCall_fresh .close uncached) handled with
  | done call ready logFile response enters =>
    obtain ⟨_, _, _, _, _, _, _, dirty, _⟩ := enters_eq .close env s ready req call enters
    rw [clean] at dirty
    cases dirty
  | clean call table response begun still listed made =>
    obtain ⟨other, client, _, _, there, _, rfl, _⟩ := beginCall_opened .close env.start s _ req call begun
    obtain rfl : found = other := Option.some.inj (opened.symm.trans there)
    obtain ⟨named, _⟩ := files.call_name ⟨.close, req, found.filename, client.mode⟩ member
    obtain ⟨sameText, samePrimes⟩ := finishCall_file files env { s with table := table }
      ⟨.close, req, found.filename, client.mode⟩ member
    have versions := beginCall_version .close env.start s _ req _ begun found.filename
    rw [named, if_pos rfl, left.version] at versions
    rw [made]
    refine ⟨sameText.trans left.bytes, samePrimes.trans left.primes, ?_⟩
    rw [Server.version, finishCall_table_eq, bumpVersion, if_neg (by simp [clean])]
    exact versions

end Calls

def Agree (left right : Server) (name : String) : Prop :=
  ∃ one other, left.bytes name = some one ∧ right.bytes name = some other ∧ (parseNumbers one).Nodup ∧
    (parseNumbers other).Nodup ∧ (∀ number, number ∈ parseNumbers one ↔ number ∈ parseNumbers other) ∧
    left.primeSet name = right.primeSet name ∧ left.version name = right.version name

theorem agree_iff_exact {left right : Server} {name : String} {content : Bytes} {range : RangeOrder}
    {version : Int32} (one : left.Leaves name content primes version)
    (other : right.Leaves name (range.render primes) primes version) : Agree left right name ↔ Exact content primes := by
  obtain ⟨once, members⟩ := exact_render range primes
  constructor
  · rintro ⟨text, rendered, here, there, single, _, same, _⟩
    obtain rfl : content = text := Option.some.inj (one.bytes.symm.trans here)
    obtain rfl : range.render primes = rendered := Option.some.inj (other.bytes.symm.trans there)
    exact ⟨single, fun number => (same number).trans (members number)⟩
  · rintro ⟨single, listed⟩
    exact ⟨content, range.render primes, one.bytes, other.bytes, single, once,
      fun number => (listed number).trans (members number).symm, one.primes.trans other.primes.symm,
      one.version.trans other.version.symm⟩

end Server

def CanonicalNames.single (name : String) (output : hasPrefix "output/" name = true)
    (normal : normalize name = some name) : CanonicalNames where
  names := {name}
  output := by rintro _ rfl; exact output
  normal := by rintro _ rfl; exact normal
  noMeta := by
    rintro _ rfl same
    have lengths := congrArg String.length (show _ ++ ".meta" = _ from same)
    rw [String.length_append] at lengths
    have long : String.length ".meta" = 5 := by decide
    omega

section Paths

variable [LogCodec] (s written left right : Server) (found : FileMeta) (fd version : Int32) (clientID : String)
  (data : Bytes)

theorem write_close_agrees_with_close (opened : s.files.lookup fd = some found)
    (output : hasPrefix "output/" found.filename = true) (normal : normalize found.filename = some found.filename)
    (caughtUp : s.lastApplied = s.log.length) (old : Bytes) (regular : s.bytes found.filename = some old)
    (writeEnv closeEnv dirtyEnv : Env) (writes : ∀ position, writeEnv.apply position = .ok)
    (closes : ∀ position, dirtyEnv.apply position = .ok) (writeID closeID dirtyID : String)
    (writeNew : s.cached writeID writeEnv.start = none) (closeNew : written.cached closeID closeEnv.start = none)
    (dirtyNew : s.cached dirtyID dirtyEnv.start = none) (wrote closed dirtied : Response)
    (sent quiet all : List AppendEntriesRequest) (closeVersion : Int32) (closeData : Bytes)
    (write : s.write writeEnv ⟨writeID, fd, true, version, data, clientID⟩ = .returned written (.ok wrote) sent)
    (close : written.close closeEnv ⟨closeID, fd, false, closeVersion, closeData, clientID⟩ =
      .returned left (.ok closed) quiet)
    (dirtyClose : s.close dirtyEnv ⟨dirtyID, fd, true, version, data, clientID⟩ = .returned right (.ok dirtied) all) :
    left.primeSet found.filename = right.primeSet found.filename ∧
      left.version found.filename = right.version found.filename ∧
      (Exact data (s.primeSet found.filename) → Server.Agree left right found.filename) ∧
      (Terminated data → Server.Agree left right found.filename → Exact data (s.primeSet found.filename)) := by
  let files := CanonicalNames.single found.filename output normal
  have member : found.filename ∈ files.names := rfl
  have one := Server.dirtyCall_leaves files writeEnv s written ⟨writeID, fd, true, version, data, clientID⟩ wrote sent
    found writeNew opened member .write write rfl writes caughtUp old regular
  have other := Server.dirtyCall_leaves files dirtyEnv s right ⟨dirtyID, fd, true, version, data, clientID⟩ dirtied all
    found dirtyNew opened member .close dirtyClose rfl closes caughtUp old regular
  have still : written.files.lookup fd = some found := by
    obtain ⟨_, _, _, _, _, same⟩ := Server.handleCall_descriptors writeEnv s written wrote sent
      writeNew write
    rw [same]
    exact opened
  have ended := Server.cleanClose_leaves files closeEnv written left
    ⟨closeID, fd, false, closeVersion, closeData, clientID⟩ closed quiet found closeNew still member close rfl _ _ _ one
  have agree := Server.agree_iff_exact ended other
  refine ⟨ended.primes.trans other.primes.symm, ended.version.trans other.version.symm, ?_, ?_⟩
  · exact fun listed => agree.mpr (appended_of_exact listed)
  · exact fun terminated same => exact_of_appended terminated (agree.mp same)

end Paths

def twoAnswers : Env := { answers := [("2", true), ("3", true)] }

def bothPaths (s : Server) (version : Int32) (data : Bytes) : Option (Server × Server × Server) :=
  (s.write twoAnswers ⟨"w", 0, true, version, data, "c"⟩).answered.bind fun written =>
    (written.close twoAnswers ⟨"x", 0, false, version, [], "c"⟩).answered.bind fun left =>
      (s.close twoAnswers ⟨"y", 0, true, version, data, "c"⟩).answered.map fun right => (written, left, right)

theorem bothPaths_calls {s written left right : Server} {version : Int32}
    (taken : bothPaths s version data = some (written, left, right)) :
    (∃ wrote sent, s.write twoAnswers ⟨"w", 0, true, version, data, "c"⟩ = .returned written (.ok wrote) sent) ∧
      (∃ closed sent, written.close twoAnswers ⟨"x", 0, false, version, [], "c"⟩ = .returned left (.ok closed) sent) ∧
      ∃ dirtied sent, s.close twoAnswers ⟨"y", 0, true, version, data, "c"⟩ = .returned right (.ok dirtied) sent := by
  obtain ⟨one, first, rest⟩ := Option.bind_eq_some_iff.mp taken
  obtain ⟨two, second, last⟩ := Option.bind_eq_some_iff.mp rest
  obtain ⟨three, third, same⟩ := Option.map_eq_some_iff.mp last
  cases same
  exact ⟨Result.answered_eq first, Result.answered_eq second, Result.answered_eq third⟩

def onceWritten : Server :=
  ((firstOpened.write twoAnswers ⟨"r2", 0, true, 0, [50, 10], "c"⟩).answered).getD firstOpened

theorem listed_data_agrees :
    ∃ written left right, bothPaths onceWritten 1 [50, 10] = some (written, left, right) ∧
      onceWritten.bytes "output/a" = some [50, 10, 50, 10] ∧
      Exact [50, 10] (onceWritten.primeSet "output/a") ∧ Server.Agree left right "output/a" := by
  have outcome : (bothPaths onceWritten 1 [50, 10]).map (fun paths => (paths.1.cached "x" 0).isNone) = some true ∧
      (onceWritten.files.lookup 0).map FileMeta.filename = some "output/a" ∧
      onceWritten.bytes "output/a" = some [50, 10, 50, 10] ∧ onceWritten.primeSet "output/a" = ⟨[2], by decide⟩ ∧
      onceWritten.lastApplied = onceWritten.log.length ∧ onceWritten.cached "w" 0 = none ∧
      onceWritten.cached "y" 0 = none := by decide +kernel
  obtain ⟨both, opened, text, primes, caughtUp, first, third⟩ := outcome
  obtain ⟨⟨written, left, right⟩, taken, uncached⟩ := Option.map_eq_some_iff.mp both
  obtain ⟨⟨wrote, sent, write⟩, ⟨closed, quiet, close⟩, dirtied, all, dirtyClose⟩ :=
    bothPaths_calls taken
  obtain ⟨found, present, named⟩ := Option.map_eq_some_iff.mp opened
  have listed : Exact [50, 10] (onceWritten.primeSet "output/a") := by
    rw [primes]
    have numbers : parseNumbers [50, 10] = [2] := by decide
    exact ⟨by rw [numbers]; decide, fun number => by rw [numbers]; rfl⟩
  have agrees := (write_close_agrees_with_close onceWritten written left right found 0 1 "c" [50, 10] present
    (by rw [named]; decide) (by rw [named]; decide) caughtUp _ (by rw [named]; exact text) twoAnswers
    twoAnswers twoAnswers (fun _ => rfl) (fun _ => rfl) "w" "x" "y" first
    (Option.isNone_iff_eq_none.mp uncached) third wrote closed dirtied sent quiet all 1 [] write close
    dirtyClose).2.2.1 (by rw [named]; exact listed)
  rw [named] at agrees
  exact ⟨written, left, right, taken, text, listed, agrees⟩

-- A new number is in the data of the log entry and once more among the numbers that Write appends.
theorem new_number_written_twice :
    ∃ written left right, bothPaths firstOpened 0 [50, 10] = some (written, left, right) ∧
      firstOpened.role = .primary ∧ firstOpened.lastApplied = firstOpened.log.length ∧
      left.bytes "output/a" = some [50, 10, 50, 10] ∧ right.bytes "output/a" = some [50, 10] ∧
      ¬ Server.Agree left right "output/a" := by
  have outcome : firstOpened.role = .primary ∧ firstOpened.lastApplied = firstOpened.log.length ∧
      (bothPaths firstOpened 0 [50, 10]).map
        (fun paths => (paths.2.1.bytes "output/a", paths.2.2.bytes "output/a")) =
          some (some [50, 10, 50, 10], some [50, 10]) := by decide +kernel
  obtain ⟨primary, caughtUp, both⟩ := outcome
  obtain ⟨⟨written, left, right⟩, taken, files⟩ := Option.map_eq_some_iff.mp both
  obtain ⟨one, other⟩ := Prod.mk.inj files
  refine ⟨written, left, right, taken, primary, caughtUp, one, other, ?_⟩
  rintro ⟨text, _, here, _, once, _⟩
  obtain rfl := Option.some.inj (one.symm.trans here)
  revert once
  decide

end Ikkat
