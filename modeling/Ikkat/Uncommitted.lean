import Ikkat.LocalFiles

set_option autoImplicit false

namespace Ikkat

variable {content : Bytes} {entry : CacheEntry} {who name : String}

namespace Seat

variable {World : Type} (net : Net World) (io : LocalIO)

def Holds (seat : Seat World) (name : String) (entry : CacheEntry) (content : Bytes) : Prop :=
  seat.client.cache.lookup name = some entry ∧ seat.disk.find entry.localPath = some (.file content)

theorem writeLocal_holds (change : Tree → Path → Tree × Bool) (works : ∀ disk path, (change disk path).2 = true →
      ∃ content, (change disk path).1.find path = some (.file content))
    (name : String) (seat : Seat World) (succeeded : (seat.writeLocal io change name).2 = .ok ()) :
    ∃ entry content, (seat.writeLocal io change name).1.Holds name entry content ∧ entry.dirty = true := by
  unfold writeLocal at succeeded ⊢
  split at succeeded
  case h_1 => cases succeeded
  case h_2 entry held =>
    split at succeeded
    case isTrue => cases succeeded
    case isFalse writable =>
      split at succeeded
      case h_1 => cases succeeded
      case h_2 disk changed =>
        obtain ⟨content, file⟩ := works seat.disk entry.localPath (by rw [changed])
        rw [changed] at file
        rw [if_neg writable]
        exact ⟨{ entry with dirty := true, valid := false }, content, ⟨AList.lookup_insert _, file⟩, rfl⟩

section Own

variable {seat : Seat World} {name : String} {entry : CacheEntry} {content : Bytes}
  (holds : seat.Holds name entry content) (dirty : entry.dirty = true)

include holds

theorem holds_untouched {disk : Tree} (lru : List String) (address : String) (world : World)
    (untouched : Untouched (· = entry.localPath) seat.disk disk) :
    Holds ⟨{ seat.client with lru := lru, address := address }, disk, world⟩ name entry content :=
  ⟨holds.1, (untouched _ content rfl).mpr holds.2⟩

theorem holds_writeLocal (change : Tree → Path → Tree × Bool) (fails : (change seat.disk entry.localPath).2 = false →
      (change seat.disk entry.localPath).1.find entry.localPath = some (.file content))
    (failed : ∀ answer, (seat.writeLocal io change name).2 ≠ .ok answer) :
    (seat.writeLocal io change name).1.Holds name entry content := by
  unfold writeLocal at failed ⊢
  rw [holds.1] at failed ⊢
  dsimp only at failed ⊢
  split
  case isTrue => exact holds
  case isFalse writable =>
    rw [if_neg writable] at failed
    split
    case h_1 disk changed =>
      rw [changed] at fails
      exact ⟨holds.1, fails rfl⟩
    case h_2 disk changed =>
      rw [changed] at failed
      exact (failed () rfl).elim

theorem holds_writeFile (data : Bytes) (whole : ∀ count, io.write ≠ .cut count)
    (failed : ∀ answer, (seat.writeFile io name data).2 ≠ .ok answer) :
    (seat.writeFile io name data).1.Holds name entry content := by
  refine holds_writeLocal io holds _ (fun unwritten => ?_) failed
  cases outcome : io.write with
  | refused => exact holds.2
  | cut count => exact absurd outcome (whole count)
  | done =>
    obtain ⟨next, written⟩ := seat.disk.writeFile_over entry.localPath content data holds.2
    simp [outcome, osWriteFile, written] at unwritten

theorem holds_appendFile (data : Bytes) (whole : ∀ count, io.write ≠ .cut count)
    (failed : ∀ answer, (seat.appendFile io name data).2 ≠ .ok answer) :
    (seat.appendFile io name data).1.Holds name entry content := by
  refine holds_writeLocal io holds _ (fun unwritten => ?_) failed
  unfold osAppendFile at unwritten ⊢
  rw [holds.2] at unwritten ⊢
  cases outcome : io.write with
  | cut count => exact absurd outcome (whole count)
  | done => simp [outcome] at unwritten
  | refused =>
    obtain ⟨next, written⟩ := seat.disk.writeFile_over entry.localPath content (content ++ []) holds.2
    dsimp only [Server.copied]
    rw [written, Option.getD_some, FileTree.Tree.find_writeFile _ written, if_pos rfl, List.append_nil]

variable (requestId clientID : String)

theorem holds_read (same : ∀ chunks,
    (net.read seat.client.address seat.world ⟨name, clientID⟩).2 = .ok (chunks, none) → chunks.flatten = content) :
    (seat.read net io name clientID).1.Holds name entry content ∧
      ∀ data, (seat.read net io name clientID).2 = .ok data → data = content := by
  have tmp : ¬ withSuffix entry.localPath ".tmp" = entry.localPath := withSuffix_tmp_ne _
  have told (disk : Tree) (data : Bytes) (file : disk.find entry.localPath = some (.file content))
      (read : osReadFile io.readFile disk entry.localPath = some data) : data = content := by
    unfold osReadFile at read
    rw [file] at read
    split_ifs at read
    exact (Option.some.inj read).symm
  unfold read
  rw [holds.1]
  dsimp only
  split
  case isTrue =>
    unfold readFile
    rw [holds.1, if_neg (by simp)]
    split
    case h_1 => exact ⟨holds, by rintro _ ⟨⟩⟩
    case h_2 data read =>
      refine ⟨holds, ?_⟩
      rintro _ ⟨⟩
      exact told _ _ holds.2 read
  case isFalse =>
    split
    case h_1 => exact ⟨holds, by rintro _ ⟨⟩⟩
    case h_2 disk truncated =>
      have emptied := osTruncate_untouched (· = entry.localPath) _ _ _ _ tmp truncated
      split
      case h_1 world err answered => exact ⟨holds_untouched holds _ _ _ emptied, by rintro _ ⟨⟩⟩
      case h_2 world chunks ended answered =>
        rw [answered] at same
        have written := emptied.trans (.writeFile_getD disk
          (Server.copied io.write chunks.flatten) tmp)
        unfold fetch
        dsimp only
        split
        case isTrue =>
          exact ⟨holds_untouched holds _ _ _ (written.trans (osRemove_untouched _ _ _ _ tmp)), by rintro _ ⟨⟩⟩
        case isFalse done =>
          split
          case h_1 =>
            exact ⟨holds_untouched holds _ _ _ (written.trans (osRemove_untouched _ _ _ _ tmp)), by rintro _ ⟨⟩⟩
          case h_2 =>
            split
            case h_1 => exact ⟨holds_untouched holds _ _ _ written, by rintro _ ⟨⟩⟩
            case h_2 moved renamed =>
              have file : moved.find entry.localPath = some (.file content) := by
                rw [show io.write = .done from not_not.mp done] at renamed
                rw [← same chunks rfl]
                exact osRename_find _ tmp (osTruncate_over _ truncated) renamed
              split
              case h_1 => exact ⟨⟨holds.1, file⟩, by rintro _ ⟨⟩⟩
              case h_2 data read =>
                refine ⟨⟨holds.1, file⟩, ?_⟩
                rintro _ ⟨⟩
                exact told _ _ file read

theorem Holds.settle {Reply : Type} (send : String → World → World × Except Failure Reply)
    (finish : Client → Reply → Client) (failed : ∀ answer, (settle finish (seat.sent net send)).2 ≠ .ok answer) :
    (Seat.settle finish (seat.sent net send)).1.Holds name entry content := by
  obtain ⟨address, world, kept⟩ := seat.sent_eq net send
  rcases answered : seat.sent net send with ⟨next, err | resp⟩
  · rw [answered] at kept
    rw [show next = _ from kept]
    exact holds
  · rw [answered] at failed
    exact (failed () rfl).elim

include dirty

theorem holds_create
    (room : ∀ other found, seat.client.victim = some (other, found) → found.localPath ≠ entry.localPath)
    (refuses : ∀ address world req, ∃ err, (net.create address world req).2 = .error err) :
    (seat.create net io requestId name clientID).1.Holds name entry content := by
  have roomed : (seat.makeRoom io).1.Holds name entry content :=
    ⟨makeRoom_dirty io holds.1 dirty,
      (seat.makeRoom_untouched io (· = entry.localPath) room _ content rfl).mpr holds.2⟩
  unfold create
  split
  case h_1 left err same =>
    rw [same] at roomed
    exact roomed
  case h_2 left same =>
    rw [same] at roomed
    let send := fun address world => net.create address world ⟨requestId, name, clientID, .read⟩
    obtain ⟨address, world, kept⟩ := left.retried_eq net send (maxTries - 1)
    have failed := left.retried_refused net send (fun address world => refuses address world _) (maxTries - 1)
    dsimp only
    split
    case h_1 next err answered =>
      rw [answered] at kept
      rw [show next = _ from kept]
      exact roomed
    case h_2 next resp answered =>
      obtain ⟨err, wrong⟩ := failed
      rw [answered] at wrong
      cases wrong

theorem holds_openFile (mode : FileMode) :
    (seat.openFile net io ⟨requestId, name, mode, clientID⟩).1.Holds name entry content := by
  unfold openFile
  rw [holds.1]
  dsimp only
  rw [if_pos dirty]
  exact holds

omit dirty in
theorem holds_commit (failed : ∀ answer, (seat.commit net io requestId name clientID).2 ≠ .ok answer) :
    (seat.commit net io requestId name clientID).1.Holds name entry content := by
  rcases seat.commit_cases net io requestId name clientID with ⟨answer, same, _⟩ | ⟨found, req, _, _, _, _, same⟩
  · rw [same]
    exact holds
  · rw [same] at failed ⊢
    exact holds.settle net _ _ failed

omit dirty in
theorem holds_close (failed : ∀ answer, (seat.close net io requestId name clientID).2 ≠ .ok answer) :
    (seat.close net io requestId name clientID).1.Holds name entry content := by
  rcases seat.close_cases net io requestId name clientID with ⟨err, same, _⟩ | ⟨found, req, _, _, same⟩
  · rw [same]
    exact holds
  · rw [same] at failed ⊢
    exact holds.settle net _ _ failed

theorem holds_delete : (seat.delete net io requestId name).1.Holds name entry content := by
  unfold delete forget
  rw [holds.1]
  dsimp only
  rw [if_pos dirty]
  exact holds

end Own

end Seat

def ClientCall.settles : ClientCall → Bool
  | .writeFile _ _ | .appendFile _ _ | .commit _ _ | .close _ _ => true
  | _ => false

namespace Turn

variable {World : Type}

def Gentle (d : Desk World) (t : Turn World) : Prop :=
  match t.call with
  | .create _ _ => ∀ address world req, ∃ err, (t.net.create address world req).2 = .error err
  | .read name => ∀ chunks, (t.net.read (d.clients t.who).address d.world ⟨name, t.who⟩).2 = .ok (chunks, none) →
      d.disk.find ((d.clients t.who).localPath name) = some (.file chunks.flatten)
  | .writeFile _ _ | .appendFile _ _ => ∀ count, t.io.write ≠ .cut count
  | _ => True

structure Sparing (who name : String) (d : Desk World) (t : Turn World) : Prop where
  room : ∀ other entry, (d.clients t.who).victim = some (other, entry) →
    entry.localPath ≠ (d.clients who).localPath name
  own : t.who = who ∧ t.call.name = name → t.Gentle d
  other : ¬ (t.who = who ∧ t.call.name = name) →
    (d.clients who).localPath name ≠ (d.clients t.who).localPath t.call.name ∧
      (d.clients who).localPath name ≠ withSuffix ((d.clients t.who).localPath t.call.name) ".tmp"

def Settles (who name : String) (d : Desk World) (t : Turn World) : Prop :=
  t.who = who ∧ t.call.name = name ∧ t.call.settles = true ∧ ∃ answer, (d.turn t).2 = .ok answer

end Turn

namespace Desk

variable {World : Type}

def Holds (d : Desk World) (who name : String) (entry : CacheEntry) (content : Bytes) : Prop :=
  (d.seat who).Holds name entry content

theorem stream_sent (d : Desk World) (content : Bytes) (path : Path)
    (reply : Except Failure (List Bytes × Option Failure)) (held : d.disk.find path = some (.file content))
    (gentle : ∀ chunks, reply = .ok (chunks, none) → d.disk.find path = some (.file chunks.flatten))
    (chunks : List Bytes) (answered : reply = .ok (chunks, none)) : chunks.flatten = content := by
  have same := (gentle chunks answered).symm.trans held
  simpa using same

theorem holds_own {d : Desk World} {t : Turn World} (placed : d.Placed)
    (holds : d.Holds t.who t.call.name entry content) (dirty : entry.dirty = true)
    (room : ∀ other found, (d.clients t.who).victim = some (other, found) →
      found.localPath ≠ (d.clients t.who).localPath t.call.name) (gentle : t.Gentle d)
    (unsettled : ¬ t.Settles t.who t.call.name d) : (d.turn t).1.Holds t.who t.call.name entry content := by
  have path : entry.localPath = (d.clients t.who).localPath t.call.name := placed t.who _ entry holds.1
  have failed (settles : t.call.settles = true) (answer : ClientAnswer) :
      ((d.seat t.who).perform t.net t.io t.who t.call).2 ≠ .ok answer :=
    fun done => unsettled ⟨rfl, rfl, settles, answer, done⟩
  have refused (result : Except Failure Unit) (wrong : ∀ answer, result.map (fun _ => ClientAnswer.done) ≠ .ok answer)
      (answer : Unit) : result ≠ .ok answer := fun done => wrong .done (by rw [done]; rfl)
  unfold Holds at holds ⊢
  rw [seat_turn_self]
  obtain ⟨who, call, net, io⟩ := t
  cases call with
  | create requestId name => exact Seat.holds_create net io holds dirty requestId who (by rw [path]; exact room) gentle
  | openFile requestId name mode => exact Seat.holds_openFile net io holds dirty requestId who mode
  | read name => exact (Seat.holds_read net io holds who (d.stream_sent content _ _ (path ▸ holds.2) gentle)).1
  | writeFile name data => exact Seat.holds_writeFile io holds data gentle (refused _ (failed rfl))
  | appendFile name data => exact Seat.holds_appendFile io holds data gentle (refused _ (failed rfl))
  | commit requestId name => exact Seat.holds_commit net io holds requestId who (refused _ (failed rfl))
  | close requestId name => exact Seat.holds_close net io holds requestId who (refused _ (failed rfl))
  | delete requestId name => exact Seat.holds_delete net io holds dirty requestId

theorem holds_other {d : Desk World} {t : Turn World}
    (placed : d.Placed) (holds : d.Holds who name entry content) (dirty : entry.dirty = true)
    (room : ∀ other found, (d.clients t.who).victim = some (other, found) →
      found.localPath ≠ (d.clients who).localPath name) (elsewhere : ¬ (t.who = who ∧ t.call.name = name))
    (apart : (d.clients who).localPath name ≠ (d.clients t.who).localPath t.call.name ∧
      (d.clients who).localPath name ≠ withSuffix ((d.clients t.who).localPath t.call.name) ".tmp") :
    (d.turn t).1.Holds who name entry content := by
  have path : entry.localPath = (d.clients who).localPath name := placed who _ entry holds.1
  have acts : Acts t.call.name (· ≠ (d.clients who).localPath name) (d.seat t.who) _ :=
    Seat.acts_perform t.net t.io t.who t.call (d.seat t.who) room
  have file : (d.turn t).1.disk.find entry.localPath = some (.file content) := by
    refine (acts.disk (placed t.who) _ content ?_).mpr holds.2
    rw [path]
    exact ⟨fun away => away rfl, apart⟩
  refine ⟨?_, file⟩
  by_cases same : t.who = who
  · subst same
    rw [seat_turn_self]
    exact acts.others name entry (fun own => elsewhere ⟨rfl, own.symm⟩) holds.1 dirty
  · change (Function.update d.clients t.who _ who).cache.lookup name = _
    rw [Function.update_of_ne (Ne.symm same)]
    exact holds.1

theorem holds_turn {d : Desk World} {t : Turn World}
    (placed : d.Placed) (holds : d.Holds who name entry content) (dirty : entry.dirty = true)
    (sparing : t.Sparing who name d) (unsettled : ¬ t.Settles who name d) :
    (d.turn t).1.Holds who name entry content := by
  by_cases own : t.who = who ∧ t.call.name = name
  · have gentle := sparing.own own
    obtain ⟨rfl, rfl⟩ := own
    exact holds_own placed holds dirty sparing.room gentle unsettled
  · exact holds_other placed holds dirty sparing.room own (sparing.other own)

theorem holds_written {d : Desk World} {t : Turn World}
    (writes : ∃ data, t.call = .writeFile t.call.name data ∨ t.call = .appendFile t.call.name data)
    {answer : ClientAnswer} (succeeded : (d.turn t).2 = .ok answer) :
    ∃ entry content, (d.turn t).1.Holds t.who t.call.name entry content ∧ entry.dirty = true := by
  have done (result : Except Failure Unit) (mapped : result.map (fun _ => ClientAnswer.done) = .ok answer) :
      result = .ok () := by
    cases result with
    | error err => cases mapped
    | ok _ => rfl
  unfold Holds
  rw [seat_turn_self]
  change ((d.seat t.who).perform t.net t.io t.who t.call).2 = _ at succeeded
  obtain ⟨data, same | same⟩ := writes
  · rw [same] at succeeded ⊢
    refine Seat.writeLocal_holds t.io (fun disk path => osWriteFile t.io.write disk path data)
      (fun disk path written => ⟨data, ?_⟩) t.call.name (d.seat t.who) (done _ succeeded)
    unfold osWriteFile at written ⊢
    split at written
    case h_1 => cases written
    case h_2 =>
      split at written
      case h_1 next wrote => rw [FileTree.Tree.find_writeFile path wrote, if_pos rfl]
      case h_2 => cases written
    case h_3 => cases written
  · rw [same] at succeeded ⊢
    refine Seat.writeLocal_holds t.io (fun disk path => osAppendFile t.io.write disk path data)
      (fun disk path written => ?_) t.call.name (d.seat t.who) (done _ succeeded)
    unfold osAppendFile at written ⊢
    split at written
    case h_1 old file =>
      obtain ⟨next, wrote⟩ := disk.writeFile_over path old (old ++ Server.copied t.io.write data) file
      exact ⟨_, by rw [wrote, Option.getD_some, FileTree.Tree.find_writeFile path wrote, if_pos rfl]⟩
    case h_2 => cases written

theorem holds_run {d final : Desk World} {turns : List (Turn World)}
    (placed : d.Placed) (holds : d.Holds who name entry content) (dirty : entry.dirty = true)
    (sparing : Transition.Meets step (fun d t => t.Sparing who name d ∧ ¬ t.Settles who name d) d turns)
    (reached : Transition.run step d turns = some final) : final.Placed ∧ final.Holds who name entry content := by
  refine Transition.run_invariant (fun d t => t.Sparing who name d ∧ ¬ t.Settles who name d)
    (fun d => d.Placed ∧ d.Holds who name entry content) ?_ d ⟨placed, holds⟩ turns sparing reached
  rintro d t next ⟨placed, holds⟩ ⟨spares, unsettled⟩ stepped
  obtain rfl := Option.some.inj stepped
  exact ⟨d.placed_turn t placed, holds_turn placed holds dirty spares unsettled⟩

end Desk

theorem uncommitted_writes_kept {World : Type} (disk : Tree) (cacheDir address : String → String) (world : World)
    (before after : List (Turn World)) (write : Turn World) (d final : Desk World) (name : String)
    (reached : Transition.run Desk.step (.start disk cacheDir address world) before = some d)
    (writes : ∃ data, write.call = .writeFile name data ∨ write.call = .appendFile name data) (answer : ClientAnswer)
    (succeeded : (d.turn write).2 = .ok answer)
    (sparing : Transition.Meets Desk.step (fun d t => t.Sparing write.who name d ∧ ¬ t.Settles write.who name d)
      (d.turn write).1 after)
    (later : Transition.run Desk.step (d.turn write).1 after = some final) :
    ∃ entry content, (d.turn write).1.Holds write.who name entry content ∧ entry.dirty = true ∧
      final.Holds write.who name entry content ∧
      ∀ t data, t.who = write.who → t.call = .read name → t.Sparing write.who name final →
        (final.turn t).2 = .ok (.data data) → data = content := by
  have placed := Desk.placed_run disk cacheDir address world before d reached
  obtain rfl : write.call.name = name := by
    obtain ⟨data, same | same⟩ := writes <;> rw [same] <;> rfl
  obtain ⟨entry, content, holds, dirty⟩ := Desk.holds_written writes succeeded
  obtain ⟨stillPlaced, still⟩ := Desk.holds_run (d.placed_turn write placed)
    holds dirty sparing later
  refine ⟨entry, content, holds, dirty, still, fun t data own read spares returned => ?_⟩
  obtain ⟨who, call, net, io⟩ := t
  subst own read
  have path : entry.localPath = (final.clients write.who).localPath write.call.name := stillPlaced _ _ entry still.1
  have gentle := spares.own ⟨rfl, rfl⟩
  refine (Seat.holds_read net io still write.who
    (final.stream_sent content _ _ (path ▸ still.2) gentle)).2 data ?_
  change ((final.seat write.who).read net io write.call.name write.who).2.map ClientAnswer.data = _ at returned
  cases outcome : ((final.seat write.who).read net io write.call.name write.who).2 with
  | error err => rw [outcome] at returned; cases returned
  | ok found => rw [outcome] at returned; cases returned; rfl

def fixedServer (content : Bytes) : Net Unit where
  create _ world _ := (world, .error (.status ⟨.alreadyExists, "file exists"⟩))
  openFile _ world _ := (world, .ok ⟨1, 1, "file opened"⟩)
  close _ world _ := (world, .error (.status ⟨.aborted, "conflict"⟩))
  write _ world _ := (world, .error (.status ⟨.aborted, "conflict"⟩))
  delete _ world _ := (world, .error (.status ⟨.notFound, "file not found"⟩))
  testAuth _ world _ := (world, .ok 1)
  read _ world _ := (world, .ok ([content], none))
  connect world _ := (world, none)

def soleDesk : Desk Unit := .start .empty (fun who => who) (fun _ => "localhost:5001") ()

def clientTurn (content : Bytes) (call : ClientCall) : Turn Unit := ⟨"c", call, fixedServer content, {}⟩

def openForWrite (content : Bytes) : Turn Unit := clientTurn content (.openFile "r1" "output/a" .write)

def writeTwo (content : Bytes) : Turn Unit := clientTurn content (.writeFile "output/a" [50, 10])

def retryTurns : List (Turn Unit) :=
  [clientTurn [50, 10] (.commit "r2" "output/a"), clientTurn [50, 10] (.create "r3" "output/a"),
    clientTurn [50, 10] (.read "output/a"), clientTurn [50, 10] (.openFile "r4" "output/b" .read)]

def keepsTwo (d : Desk Unit) (t : Turn Unit) : Bool :=
  decide ((d.clients "c").victim = none ∧ (d.clients "c").cacheDir = "c" ∧
    d.disk.find (join "c" "output/a") = some (.file [50, 10])) && !(t.call.settles && (d.turn t).2.toOption.isSome)

theorem keepsTwo_sparing (d : Desk Unit) (t : Turn Unit) (member : t ∈ retryTurns) (checked : keepsTwo d t = true) :
    t.Sparing "c" "output/a" d ∧ ¬ t.Settles "c" "output/a" d := by
  obtain ⟨state, fails⟩ := Bool.and_eq_true_iff.mp checked
  obtain ⟨room, dir, file⟩ := of_decide_eq_true state
  have path (name : String) : (d.clients "c").localPath name = join "c" name := by rw [Client.localPath, dir]
  have unsettled : ¬ t.Settles "c" "output/a" d := by
    rintro ⟨_, _, settles, answer, done⟩
    rw [settles, done] at fails
    cases fails
  have who : t.who = "c" := by
    simp only [retryTurns, List.mem_cons, List.not_mem_nil, or_false] at member
    rcases member with rfl | rfl | rfl | rfl <;> rfl
  refine ⟨⟨fun other entry evicts => ?_, fun own => ?_, fun away => ?_⟩, unsettled⟩
  · rw [who, room] at evicts
    cases evicts
  · unfold Turn.Gentle
    simp only [retryTurns, List.mem_cons, List.not_mem_nil, or_false] at member
    rcases member with rfl | rfl | rfl | rfl
    · trivial
    · exact fun _ _ _ => ⟨_, rfl⟩
    · intro chunks sent
      obtain rfl : [[50, 10]] = chunks := (Prod.mk.inj (Except.ok.inj sent)).1
      exact (path "output/a") ▸ file
    · trivial
  · rw [who, path, path]
    simp only [retryTurns, List.mem_cons, List.not_mem_nil, or_false] at member
    rcases member with rfl | rfl | rfl | rfl
    · exact absurd ⟨rfl, rfl⟩ away
    · exact absurd ⟨rfl, rfl⟩ away
    · exact absurd ⟨rfl, rfl⟩ away
    · decide

theorem retryTurns_keep_write :
    ∃ d final entry content, Transition.run Desk.step soleDesk [openForWrite [50, 10]] = some d ∧
      Transition.run Desk.step (d.turn (writeTwo [50, 10])).1 retryTurns = some final ∧ entry.dirty = true ∧
      (d.turn (writeTwo [50, 10])).1.Holds "c" "output/a" entry content ∧ final.Holds "c" "output/a" entry content := by
  obtain ⟨d, reached⟩ : ∃ d, Transition.run Desk.step soleDesk [openForWrite [50, 10]] = some d := ⟨_, rfl⟩
  have started : d = (soleDesk.turn (openForWrite [50, 10])).1 := (Option.some.inj reached).symm
  obtain ⟨final, later⟩ : ∃ final, Transition.run Desk.step (d.turn (writeTwo [50, 10])).1 retryTurns = some final :=
    ⟨_, rfl⟩
  have sparing : Transition.Meets Desk.step (fun d t => t.Sparing "c" "output/a" d ∧ ¬ t.Settles "c" "output/a" d)
      (d.turn (writeTwo [50, 10])).1 retryTurns := by
    refine Transition.meets_of_check _ _ keepsTwo keepsTwo_sparing ?_
    rw [started]
    decide +kernel
  obtain ⟨entry, content, held, dirty, still, _⟩ := uncommitted_writes_kept .empty (fun who => who)
    (fun _ => "localhost:5001") () [openForWrite [50, 10]] retryTurns (writeTwo [50, 10]) d final "output/a" reached
    ⟨[50, 10], .inl rfl⟩ .done (by rw [started]; decide +kernel) sparing later
  exact ⟨d, final, entry, content, reached, later, dirty, held, still⟩

-- The local file is behind a dirty entry that is not valid, so Read fetches the server's.
theorem read_overwrites_uncommitted :
    ∃ d, Transition.run Desk.step soleDesk [openForWrite [51, 10]] = some d ∧
      (d.turn (writeTwo [51, 10])).2 = .ok .done ∧
      ((d.turn (writeTwo [51, 10])).1.disk.find (join "c" "output/a") = some (.file [50, 10])) ∧
      let after := (d.turn (writeTwo [51, 10])).1.turn (clientTurn [51, 10] (.read "output/a"))
      after.2 = .ok (.data [51, 10]) ∧ after.1.disk.find (join "c" "output/a") = some (.file [51, 10]) ∧
        ((after.1.clients "c").cache.lookup "output/a").map CacheEntry.dirty = some true := by
  refine ⟨_, rfl, ?_⟩
  decide +kernel

end Ikkat
