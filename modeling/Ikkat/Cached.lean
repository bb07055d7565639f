import Ikkat.LocalFiles
import Ikkat.Shared.Recency

set_option autoImplicit false

namespace Ikkat

variable {Reply : Type}

structure Client.Tidy (touched : List String) (c : Client) : Prop where
  bounded : c.cache.entries.length ≤ maxCacheEntries
  listed : ∀ name ∈ c.cache, name ∈ c.lru
  recent : Recency.Sorted touched c.lru

namespace Client.Tidy

variable {touched : List String} {c : Client}

theorem of_same (tidy : c.Tidy touched) (after : Client) (cache : after.cache = c.cache) (lru : after.lru = c.lru) :
    after.Tidy touched :=
  ⟨cache ▸ tidy.bounded, cache ▸ lru ▸ tidy.listed, lru ▸ tidy.recent⟩

theorem touchLRU (tidy : c.Tidy touched) (name : String) : (c.touchLRU name).Tidy (name :: touched) where
  bounded := tidy.bounded
  listed other cached := Recency.mem_touch_of_mem name (tidy.listed other cached)
  recent := tidy.recent.touch name

theorem insert (tidy : c.Tidy touched) (name : String) (entry : CacheEntry)
    (room : name ∈ c.cache ∨ c.cache.entries.length < maxCacheEntries) {uses lru : List String}
    (recent : Recency.Sorted uses lru) (own : name ∈ lru) (kept : ∀ other ∈ c.lru, other ∈ lru) :
    ({ c with cache := c.cache.insert name entry, lru := lru } : Client).Tidy uses where
  bounded := by
    by_cases present : name ∈ c.cache
    · rw [Map.length_insert_old _ _ _ present]
      exact tidy.bounded
    · rw [Map.length_insert_new _ _ _ present]
      exact room.resolve_left present
  listed other cached := by
    rcases (AList.mem_insert _).mp cached with same | before
    · exact same ▸ own
    · exact kept other (tidy.listed other before)
  recent := recent

theorem setEntry (tidy : c.Tidy touched) (name : String) (entry : CacheEntry) (present : name ∈ c.cache) :
    (c.setEntry name entry).Tidy touched :=
  tidy.insert name entry (.inl present) tidy.recent (tidy.listed name present) fun _ listed => listed

theorem enter (tidy : c.Tidy touched) (name : String) (entry : CacheEntry)
    (room : name ∈ c.cache ∨ c.cache.entries.length < maxCacheEntries) :
    ((c.setEntry name entry).touchLRU name).Tidy (name :: touched) :=
  tidy.insert name entry room (tidy.recent.touch name) (Recency.mem_touch c.lru name) fun _ listed =>
    Recency.mem_touch_of_mem name listed

theorem eraseEntry (tidy : c.Tidy touched) (name : String) :
    ({ c with cache := c.cache.erase name } : Client).Tidy touched where
  bounded := (List.kerase_sublist name c.cache.entries).length_le.trans tidy.bounded
  listed other cached := tidy.listed other (AList.mem_erase.mp cached).2
  recent := tidy.recent

theorem eraseName (tidy : c.Tidy touched) (name : String) (absent : name ∉ c.cache) :
    ({ c with lru := c.lru.erase name } : Client).Tidy touched where
  bounded := tidy.bounded
  listed other cached := by
    have different : other ≠ name := by
      rintro rfl
      exact absent cached
    exact (List.mem_erase_of_ne different).mpr (tidy.listed other cached)
  recent := tidy.recent.sublist _ List.erase_sublist

theorem evict (tidy : c.Tidy touched) (name : String) :
    ({ c with cache := c.cache.erase name, lru := c.lru.erase name } : Client).Tidy touched :=
  (tidy.eraseEntry name).eraseName name fun cached => (AList.mem_erase.mp cached).1 rfl

end Client.Tidy

namespace Seat

variable {World : Type} (net : Net World) (io : LocalIO) {touched : List String}

-- Whether the call comes to touchLRU. An Open of an entry that the server confirms gets there before its own request is
-- answered, the other calls only on success.
def touches (clientID : String) (seat : Seat World) (call : ClientCall) : Bool :=
  match call with
  | .commit _ _ => false
  | .delete _ _ => false
  | .openFile requestId filename mode =>
      match seat.client.cache.lookup filename with
      | none => (seat.perform net io clientID call).2.isOk
      | some entry =>
          if entry.dirty then false
          else
            match seat.testAuth net filename (maxTries - 1) with
            | (_, .error _) => false
            | (seat, .ok version) =>
                if entry.version = version then
                  if !entry.closed ∧ entry.mode ≠ mode ∧ entry.mode = .read then false else true
                else (seat.openRemote net io ⟨requestId, filename, mode, clientID⟩).2.isOk
  | call => (seat.perform net io clientID call).2.isOk

def touching (reached : Bool) (name : String) (touched : List String) : List String :=
  if reached then name :: touched else touched

def Touched {Reply : Type} (touched : List String) (name : String) (done : Seat World × Except Failure Reply) : Prop :=
  done.1.client.Tidy (touching done.2.isOk name touched)

theorem Touched.mapped {Answer : Type} (wrap : Reply → Answer) {name : String}
    {done : Seat World × Except Failure Reply} (kept : Touched touched name done) :
    Touched touched name (done.map id (Except.map wrap)) := by
  obtain ⟨seat, answer⟩ := done
  cases answer <;> exact kept

variable {failed : Option Failure}

theorem makeRoom_tidy {seat roomed : Seat World} (tidy : seat.client.Tidy touched)
    (made : seat.makeRoom io = (roomed, failed)) :
    roomed.client.Tidy touched ∧ (failed = none → roomed.client.cache.entries.length < maxCacheEntries) := by
  unfold makeRoom evictFromCache at made
  split at made
  case isTrue full =>
    split at made
    case h_1 =>
      cases made
      exact ⟨tidy, by simp⟩
    case h_2 name entry evicts =>
      cases made
      obtain ⟨_, _, _, present, _⟩ := Client.evictee_first evicts
      have shorter := Map.length_erase seat.client.cache name (AList.lookup_isSome.mp (by simp [present]))
      refine ⟨tidy.evict name, fun _ => ?_⟩
      have bounded := tidy.bounded
      change (seat.client.cache.erase name).entries.length < _
      omega
  case isFalse short =>
    cases made
    exact ⟨tidy, fun _ => Nat.lt_of_not_le short⟩

theorem asked_tidy {seat asked : Seat World} {answer : Except Failure Reply} (tidy : seat.client.Tidy touched)
    {sent : Seat World × Except Failure Reply} (same : ∃ address world, sent.1 =
      { seat with client := { seat.client with address := address }, world := world }) (done : sent = (asked, answer)) :
    asked.client.Tidy touched ∧ asked.client.cache = seat.client.cache := by
  obtain ⟨address, world, same⟩ := same
  obtain rfl : asked = _ := (congrArg Prod.fst done).symm.trans same
  exact ⟨tidy.of_same _ rfl rfl, rfl⟩

variable (requestId name clientID : String) (req : FileRequest) (entry : CacheEntry)

theorem enter_tidy (seat : Seat World) (tidy : seat.client.Tidy touched)
    (room : name ∈ seat.client.cache ∨ seat.client.cache.entries.length < maxCacheEntries) :
    Touched touched name (seat.enter io name entry) := by
  rcases seat.enter_cases io name entry with ⟨disk, err, done, -⟩ | ⟨disk, done, -⟩
  · rw [done]
    exact tidy
  · rw [done]
    exact tidy.enter name entry room

theorem create_tidy (seat : Seat World) (tidy : seat.client.Tidy touched) :
    Touched touched name (seat.create net io requestId name clientID) := by
  unfold create
  split
  case h_1 roomed err made => exact (makeRoom_tidy io tidy made).1
  case h_2 roomed made =>
    obtain ⟨tidy, short⟩ := makeRoom_tidy io tidy made
    dsimp only
    split
    case h_1 asked err answered => exact (asked_tidy tidy (retried_eq ..) answered).1
    case h_2 asked resp answered =>
      obtain ⟨tidy, same⟩ := asked_tidy tidy (retried_eq ..) answered
      exact asked.enter_tidy io name _ tidy (.inr (same ▸ short rfl))

theorem openRemote_tidy {seat : Seat World} (tidy : seat.client.Tidy touched)
    (room : req.filename ∈ seat.client.cache ∨ seat.client.cache.entries.length < maxCacheEntries) :
    Touched touched req.filename (seat.openRemote net io req) := by
  unfold openRemote
  split
  case h_1 asked err answered => exact (asked_tidy tidy (retried_eq ..) answered).1
  case h_2 asked resp answered =>
    obtain ⟨tidy, same⟩ := asked_tidy tidy (retried_eq ..) answered
    exact asked.enter_tidy io req.filename _ tidy (same ▸ room)

theorem openCached_tidy (seat : Seat World) (tidy : seat.client.Tidy touched)
    (present : req.filename ∈ seat.client.cache) :
    (seat.openCached net req entry).1.client.Tidy (req.filename :: touched) := by
  have first (changed : CacheEntry) := (tidy.touchLRU req.filename).setEntry req.filename changed present
  unfold openCached
  dsimp only
  split
  · exact first _
  · exact (first _).setEntry req.filename _ ((AList.mem_insert _).mpr (.inl rfl))

theorem openFile_tidy_new (seat : Seat World) (tidy : seat.client.Tidy touched)
    (absent : seat.client.cache.lookup req.filename = none) :
    Touched touched req.filename (seat.openFile net io req) := by
  unfold openFile
  rw [absent]
  dsimp only
  split
  case h_1 roomed err made => exact (makeRoom_tidy io tidy made).1
  case h_2 roomed made =>
    obtain ⟨tidy, short⟩ := makeRoom_tidy io tidy made
    exact openRemote_tidy net io req tidy (.inr (short rfl))

theorem openFile_tidy (mode : FileMode) (seat : Seat World)
    (tidy : seat.client.Tidy touched) :
    (seat.openFile net io ⟨requestId, name, mode, clientID⟩).1.client.Tidy
      (touching (seat.touches net io clientID (.openFile requestId name mode)) name touched) := by
  cases held : seat.client.cache.lookup name with
  | none =>
    have done := seat.openFile_tidy_new net io ⟨requestId, name, mode, clientID⟩ tidy held
    unfold touches
    dsimp only
    rw [held]
    exact done.mapped ClientAnswer.entry
  | some entry =>
    have present : name ∈ seat.client.cache := AList.lookup_isSome.mp (by simp [held])
    obtain ⟨world, same⟩ := seat.testAuth_eq net name (maxTries - 1)
    have asked : ({ seat with world := world } : Seat World).client.Tidy touched := tidy
    unfold touches openFile
    dsimp only
    rw [held]
    dsimp only
    split
    case isTrue => exact tidy
    case isFalse =>
      cases answered : seat.testAuth net name (maxTries - 1) with
      | mk next answer =>
        rw [answered] at same
        obtain rfl : next = _ := same
        cases answer with
        | error err => exact asked
        | ok version =>
          dsimp only
          split
          case isTrue =>
            split
            case isTrue => exact asked
            case isFalse => exact openCached_tidy net ⟨requestId, name, mode, clientID⟩ entry _ asked present
          case isFalse => exact openRemote_tidy net io ⟨requestId, name, mode, clientID⟩ asked (.inl present)

theorem readFile_tidy (path : Path) (seat : Seat World) (tidy : seat.client.Tidy touched) :
    Touched touched name (seat.readFile io name path) := by
  unfold readFile
  split
  case isTrue => exact tidy
  case isFalse =>
    split
    case h_1 => exact tidy
    case h_2 => exact tidy.touchLRU name

theorem fetch_tidy (tmp : Path) (chunks : List Bytes) (ended : Option Failure)
    {seat : Seat World} (tidy : seat.client.Tidy touched) :
    Touched touched name (fetch io name entry tmp chunks ended seat) := by
  unfold fetch
  dsimp only
  split
  case isTrue => exact tidy
  case isFalse =>
    split
    case h_1 => exact tidy
    case h_2 =>
      split
      case h_1 => exact tidy
      case h_2 =>
        split
        case h_1 => exact tidy
        case h_2 => exact tidy.touchLRU name

theorem read_tidy (seat : Seat World) (tidy : seat.client.Tidy touched) :
    Touched touched name (seat.read net io name clientID) := by
  unfold read
  split
  case h_1 => exact tidy
  case h_2 entry held =>
    split
    case isTrue => exact seat.readFile_tidy io name entry.localPath tidy
    case isFalse =>
      dsimp only
      split
      case h_1 => exact tidy
      case h_2 =>
        split
        case h_1 => exact tidy
        case h_2 => exact fetch_tidy io name entry _ _ _ tidy

theorem writeLocal_tidy (change : Tree → Path → Tree × Bool) (name : String) (seat : Seat World)
    (tidy : seat.client.Tidy touched) : Touched touched name (seat.writeLocal io change name) := by
  unfold writeLocal
  split
  case h_1 => exact tidy
  case h_2 entry held =>
    split
    case isTrue => exact tidy
    case isFalse =>
      split
      case h_1 => exact tidy
      case h_2 => exact tidy.enter name _ (.inl (AList.lookup_isSome.mp (by simp [held])))

theorem commit_tidy (seat : Seat World) (tidy : seat.client.Tidy touched) :
    (seat.commit net io requestId name clientID).1.client.Tidy touched := by
  rcases seat.commit_cases net io requestId name clientID with ⟨answer, same, _⟩ | ⟨entry, req, held, _, _, _, same⟩
  · rw [same]
    exact tidy
  · have present : name ∈ seat.client.cache := AList.lookup_isSome.mp (by simp [held])
    rw [same]
    rcases answered : seat.sent net fun address world => net.write address world req with ⟨asked, err | resp⟩
    · exact (asked_tidy tidy (sent_eq ..) answered).1
    · obtain ⟨tidy, same⟩ := asked_tidy tidy (sent_eq ..) answered
      exact tidy.setEntry name _ (same ▸ present)

theorem close_tidy (seat : Seat World) (tidy : seat.client.Tidy touched) :
    Touched touched name (seat.close net io requestId name clientID) := by
  rcases seat.close_cases net io requestId name clientID with ⟨err, same, _⟩ | ⟨entry, req, held, _, same⟩
  · rw [same]
    exact tidy
  · have present : name ∈ seat.client.cache := AList.lookup_isSome.mp (by simp [held])
    rw [same]
    rcases answered : seat.sent net fun address world => net.close address world req with ⟨asked, err | resp⟩
    · exact (asked_tidy tidy (sent_eq ..) answered).1
    · obtain ⟨tidy, same⟩ := asked_tidy tidy (sent_eq ..) answered
      exact tidy.enter name _ (.inl (same ▸ present))

theorem forget_tidy {name : String} {seat left : Seat World}
    (tidy : seat.client.Tidy touched) (done : seat.forget io name = (left, failed)) :
    left.client.Tidy touched ∧ (failed = none → name ∉ left.client.cache) := by
  rcases seat.forget_cases io name with ⟨failure, same, absent⟩ | ⟨disk, same⟩
  · obtain ⟨rfl, rfl⟩ := Prod.mk.inj (done.symm.trans same)
    exact ⟨tidy, fun none => AList.lookup_eq_none.mp (absent none)⟩
  · obtain ⟨rfl, rfl⟩ := Prod.mk.inj (done.symm.trans same)
    exact ⟨tidy.eraseEntry name, fun _ cached => (AList.mem_erase.mp cached).1 rfl⟩

theorem delete_tidy (seat : Seat World) (tidy : seat.client.Tidy touched) :
    (seat.delete net io requestId name).1.client.Tidy touched := by
  unfold delete
  split
  case h_1 left err done => exact (forget_tidy io tidy done).1
  case h_2 left done =>
    obtain ⟨tidy, absent⟩ := forget_tidy io tidy done
    split
    case h_1 asked err answered => exact (asked_tidy tidy (sent_eq ..) answered).1
    case h_2 asked resp answered =>
      obtain ⟨tidy, same⟩ := asked_tidy tidy (sent_eq ..) answered
      exact tidy.eraseName name (same ▸ absent rfl)

theorem perform_tidy (call : ClientCall) (seat : Seat World) (tidy : seat.client.Tidy touched) :
    (seat.perform net io clientID call).1.client.Tidy
      (touching (seat.touches net io clientID call) call.name touched) := by
  cases call with
  | create requestId name => exact (seat.create_tidy net io requestId name clientID tidy).mapped _
  | openFile requestId name mode => exact seat.openFile_tidy net io requestId name clientID mode tidy
  | read name => exact (seat.read_tidy net io name clientID tidy).mapped _
  | writeFile name data => exact (seat.writeLocal_tidy io _ name tidy).mapped _
  | appendFile name data => exact (seat.writeLocal_tidy io _ name tidy).mapped _
  | commit requestId name => exact seat.commit_tidy net io requestId name clientID tidy
  | close requestId name => exact (seat.close_tidy net io requestId name clientID tidy).mapped _
  | delete requestId name => exact seat.delete_tidy net io requestId name tidy

def EvictsFirst (before after : Seat World) : Prop :=
  ∃ earlier name later entry, before.client.lru = earlier ++ name :: later ∧
    before.client.cache.lookup name = some entry ∧ entry.Idle ∧
    (∀ other ∈ earlier, ∀ held, before.client.cache.lookup other = some held → ¬ held.Idle) ∧
    after.client = { before.client with cache := before.client.cache.erase name, lru := earlier ++ later }

theorem evictFromCache_first {seat after : Seat World} (evicted : seat.evictFromCache io = (after, none)) :
    seat.EvictsFirst after := by
  unfold evictFromCache at evicted
  split at evicted
  case h_1 => cases evicted
  case h_2 name entry evicts =>
    cases evicted
    obtain ⟨earlier, later, order, present, idle, passed⟩ := Client.evictee_first evicts
    have first : name ∉ earlier := fun before => passed name before entry present idle
    refine ⟨earlier, name, later, entry, order, present, idle, passed, ?_⟩
    rw [order, List.erase_append_right _ first, List.erase_cons_head]

end Seat

namespace Desk

variable {World : Type}

def touched (who : String) : Desk World → List (Turn World) → List String → List String
  | _, [], before => before
  | d, t :: rest, before =>
      touched who (d.turn t).1 rest <|
        if t.who = who then Seat.touching ((d.seat who).touches t.net t.io who t.call) t.call.name before else before

theorem tidy_turn {d : Desk World} (t : Turn World) {who : String} {before : List String}
    (tidy : (d.clients who).Tidy before) :
    ((d.turn t).1.clients who).Tidy (if t.who = who then
      Seat.touching ((d.seat who).touches t.net t.io who t.call) t.call.name before else before) := by
  unfold turn
  dsimp only
  by_cases own : t.who = who
  · subst own
    rw [Function.update_self, if_pos rfl]
    exact (d.seat t.who).perform_tidy t.net t.io t.who t.call tidy
  · rw [Function.update_of_ne (Ne.symm own), if_neg own]
    exact tidy

theorem tidy_run {who : String} (turns : List (Turn World)) (d : Desk World) {final : Desk World} (before : List String)
    (tidy : (d.clients who).Tidy before) (reached : Transition.run step d turns = some final) :
    (final.clients who).Tidy (d.touched who turns before) := by
  induction turns generalizing d before with
  | nil =>
    obtain rfl := Option.some.inj reached
    exact tidy
  | cons t rest ih =>
    obtain ⟨next, stepped, later⟩ := (Transition.run_cons ..).mp reached
    obtain rfl := Option.some.inj stepped
    exact ih _ _ (tidy_turn t tidy) later

theorem cache_represented (disk : Tree) (cacheDir address : String → String) (world : World)
    (turns : List (Turn World)) (final : Desk World)
    (reached : Transition.run step (start disk cacheDir address world) turns = some final) (who : String) :
    let client := final.clients who
    let touched := (start disk cacheDir address world).touched who turns []
    client.cache.entries.length ≤ maxCacheEntries ∧ client.lru.Nodup ∧ (∀ name ∈ client.cache, name ∈ client.lru) ∧
      (∀ name ∈ client.lru, name ∈ touched) ∧
      client.lru.Pairwise (fun earlier later => touched.idxOf later < touched.idxOf earlier) ∧
      ∀ io after, (final.seat who).evictFromCache io = (after, none) → (final.seat who).EvictsFirst after := by
  have empty : ((start disk cacheDir address world).clients who).Tidy [] :=
    ⟨Nat.zero_le _, fun name cached => absurd cached (AList.notMem_empty name), Recency.sorted_nil⟩
  have tidy := tidy_run turns _ [] empty reached
  exact ⟨tidy.bounded, tidy.recent.distinct, tidy.listed, tidy.recent.used, tidy.recent.ordered,
    fun io after evicted => Seat.evictFromCache_first io evicted⟩

end Desk

def agreeable : Net Unit where
  create _ world _ := (world, .ok ⟨1, 1, "created"⟩)
  openFile _ world _ := (world, .ok ⟨1, 1, "file opened"⟩)
  close _ world _ := (world, .ok ⟨"closed", 1⟩)
  write _ world _ := (world, .ok ⟨"write successful", 1⟩)
  delete _ world _ := (world, .ok ⟨"File is deleted"⟩)
  testAuth _ world _ := (world, .ok 1)
  read _ world _ := (world, .ok ([], none))
  connect world _ := (world, none)

def agreeableDesk : Desk Unit := .start .empty (fun who => who) (fun _ => "localhost:5001") ()

def threeOpened : List (Turn Unit) :=
  [⟨"c", .openFile "r1" "a" .read, agreeable, {}⟩, ⟨"c", .openFile "r2" "b" .read, agreeable, {}⟩,
    ⟨"c", .close "r3" "b", agreeable, {}⟩, ⟨"c", .openFile "r4" "d" .read, agreeable, {}⟩]

theorem threeOpened_represented :
    ∃ final after, Transition.run Desk.step agreeableDesk threeOpened = some final ∧
      (final.clients "c").lru = ["a", "b", "d"] ∧ (final.seat "c").evictFromCache {} = (after, none) ∧
      (final.seat "c").EvictsFirst after ∧ after.client.lru = ["a", "d"] := by
  have outcome : (Transition.run Desk.step agreeableDesk threeOpened).map (fun final =>
      ((final.clients "c").lru, ((final.seat "c").evictFromCache {}).2,
        ((final.seat "c").evictFromCache {}).1.client.lru)) = some (["a", "b", "d"], none, ["a", "d"]) := by
    decide +kernel
  obtain ⟨final, reached, seen⟩ := Option.map_eq_some_iff.mp outcome
  obtain ⟨listed, rest⟩ := Prod.mk.inj seen
  obtain ⟨evicted, left⟩ := Prod.mk.inj rest
  have done : (final.seat "c").evictFromCache {} = (((final.seat "c").evictFromCache {}).1, none) := Prod.ext rfl evicted
  have represented := Desk.cache_represented _ _ _ _ threeOpened final reached "c"
  exact ⟨final, _, reached, listed, done, represented.2.2.2.2.2 {} _ done, left⟩

end Ikkat
