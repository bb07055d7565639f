import Ikkat.Client
import Ikkat.InputFiles

set_option autoImplicit false

namespace Ikkat

variable {works : Bool} {entry : CacheEntry} {path : Path} {region : Path → Prop} {name : String}
variable {before after : Tree} {Reply : Type}

theorem withSuffix_tmp_ne (path : Path) : withSuffix path ".tmp" ≠ path := by
  intro same
  cases path using List.reverseRecOn with
  | nil => cases same
  | append_singleton above last =>
    rw [withSuffix_append above [last] ".tmp" (by simp)] at same
    simp at same

theorem osTruncate_untouched (region : Path → Prop) (works : Bool) (before after : Tree) (path : Path)
    (outside : ¬ region path) (truncated : osTruncate works before path = some after) :
    Untouched region before after := by
  unfold osTruncate at truncated
  split_ifs at truncated
  exact .writeFile _ _ _ _ outside truncated

theorem osRemove_untouched (region : Path → Prop) (works : Bool) (tree : Tree) (path : Path)
    (outside : ¬ region path) : Untouched region tree ((osRemove works tree path).getD tree) := by
  unfold osRemove
  split_ifs
  · cases removed : tree.remove path with
    | none => exact .refl tree
    | some left => exact .remove _ _ _ outside removed
  · exact .refl tree

variable {source target : Path}

theorem osRename_untouched
    (left : ¬ region source) (taken : ¬ region target) (renamed : osRename works before source target = some after) :
    Untouched region before after := by
  unfold osRename at renamed
  split at renamed
  case h_1 content _ =>
    split_ifs at renamed
    obtain ⟨moved, written, removed⟩ := Option.bind_eq_some_iff.mp renamed
    exact (Untouched.writeFile _ _ _ _ taken written).trans (.remove _ _ _ left removed)
  case h_2 => cases renamed

theorem osRename_find (content : Bytes) (apart : source ≠ target) (held : before.find source = some (.file content))
    (renamed : osRename works before source target = some after) : after.find target = some (.file content) := by
  unfold osRename at renamed
  rw [held] at renamed
  split_ifs at renamed
  obtain ⟨moved, written, removed⟩ := Option.bind_eq_some_iff.mp renamed
  rw [FileTree.Tree.find_remove target removed, if_neg apart.symm,
    FileTree.Tree.find_writeFile target written, if_pos rfl]

theorem osTruncate_find
    (truncated : osTruncate works before path = some after) : after.find path = some (.file []) := by
  unfold osTruncate at truncated
  split_ifs at truncated
  rw [FileTree.Tree.find_writeFile path truncated, if_pos rfl]

theorem osTruncate_over (data : Bytes) (truncated : osTruncate works before path = some after) :
    ((after.writeFile path data).getD after).find path = some (.file data) := by
  obtain ⟨next, written⟩ := after.writeFile_over path [] data (osTruncate_find truncated)
  rw [written, Option.getD_some, FileTree.Tree.find_writeFile path written, if_pos rfl]

theorem osWriteFile_untouched (outcome : Outcome) (tree : Tree) (data : Bytes)
    (outside : ¬ region path) : Untouched region tree (osWriteFile outcome tree path data).1 := by
  intro target content inside
  rw [osWriteFile_other outcome tree path target data fun same => outside (same ▸ inside)]

theorem osAppendFile_untouched (outcome : Outcome) (tree : Tree) (data : Bytes)
    (outside : ¬ region path) : Untouched region tree (osAppendFile outcome tree path data).1 := by
  unfold osAppendFile
  split
  · exact .writeFile_getD _ _ outside
  · exact .refl tree

structure CacheEntry.Idle (entry : CacheEntry) : Prop where
  closed : entry.closed = true
  clean : entry.dirty = false
  fd : entry.fd = 0

theorem CacheEntry.idle_iff (entry : CacheEntry) :
    (entry.closed && !entry.dirty && entry.fd == 0) = true ↔ entry.Idle := by
  simp only [Bool.and_eq_true, Bool.not_eq_true', beq_iff_eq]
  constructor
  · rintro ⟨⟨closed, clean⟩, fd⟩
    exact ⟨closed, clean, fd⟩
  · intro idle
    exact ⟨⟨idle.closed, idle.clean⟩, idle.fd⟩

namespace Client

def victim (c : Client) : Option (String × CacheEntry) :=
  if maxCacheEntries ≤ c.cache.entries.length then c.evictee else none

def Placed (c : Client) : Prop :=
  ∀ name entry, c.cache.lookup name = some entry → entry.localPath = c.localPath name

def Beside (c : Client) (name : String) (given : Path → Prop) (path : Path) : Prop :=
  ¬ given path ∧ path ≠ c.localPath name ∧ path ≠ withSuffix (c.localPath name) ".tmp"

theorem evictee_first {c : Client} (evicts : c.evictee = some (name, entry)) :
    ∃ earlier later, c.lru = earlier ++ name :: later ∧ c.cache.lookup name = some entry ∧ entry.Idle ∧
      ∀ other ∈ earlier, ∀ held, c.cache.lookup other = some held → ¬ held.Idle := by
  obtain ⟨earlier, chosen, later, split, taken, passed⟩ := List.findSome?_eq_some_iff.mp evicts
  cases present : c.cache.lookup chosen with
  | none =>
    rw [present] at taken
    cases taken
  | some found =>
    rw [present] at taken
    dsimp only at taken
    split_ifs at taken with idle
    cases taken
    refine ⟨earlier, later, split, present, (CacheEntry.idle_iff entry).mp idle, fun other before held there idle => ?_⟩
    have skipped := passed other before
    rw [there] at skipped
    dsimp only at skipped
    rw [if_pos ((CacheEntry.idle_iff held).mpr idle)] at skipped
    cases skipped

theorem victim_entry {c : Client} (evicts : c.victim = some (name, entry)) :
    c.cache.lookup name = some entry ∧ entry.dirty = false ∧ entry.closed = true := by
  unfold victim at evicts
  split_ifs at evicts
  obtain ⟨_, _, _, present, idle, _⟩ := evictee_first evicts
  exact ⟨present, idle.clean, idle.closed⟩

end Client

structure Acts {World : Type} (name : String) (given : Path → Prop) (before after : Seat World) : Prop where
  cacheDir : after.client.cacheDir = before.client.cacheDir
  others : ∀ other entry, other ≠ name → before.client.cache.lookup other = some entry → entry.dirty = true →
    after.client.cache.lookup other = some entry
  older : ∀ other entry, other ≠ name → after.client.cache.lookup other = some entry →
    before.client.cache.lookup other = some entry
  placed : before.client.Placed → after.client.Placed
  disk : before.client.Placed → Untouched (before.client.Beside name given) before.disk after.disk

namespace Acts

variable {World : Type} {name : String} {given : Path → Prop} {before middle after : Seat World}

theorem refl (name : String) (given : Path → Prop) (seat : Seat World) : Acts name given seat seat :=
  ⟨rfl, fun _ _ _ held _ => held, fun _ _ _ held => held, fun placed => placed, fun _ => .refl _⟩

theorem trans (first : Acts name given before middle) (second : Acts name given middle after) :
    Acts name given before after where
  cacheDir := second.cacheDir.trans first.cacheDir
  others other entry different held dirty :=
    second.others other entry different (first.others other entry different held dirty) dirty
  older other entry different held := first.older other entry different (second.older other entry different held)
  placed placed := second.placed (first.placed placed)
  disk placed := by
    have later := second.disk (first.placed placed)
    unfold Client.Beside Client.localPath at later
    rw [first.cacheDir] at later
    exact (first.disk placed).trans later

theorem elsewhere (seat : Seat World) (address : String) (world : World) :
    Acts name given seat { seat with client := { seat.client with address := address }, world := world } :=
  ⟨rfl, fun _ _ _ held _ => held, fun _ _ _ held => held, fun placed => placed, fun _ => .refl _⟩

theorem own (seat : Seat World) (disk : Tree) (entry : CacheEntry) (lru : List String) (world : World)
    (path : seat.client.Placed → entry.localPath = seat.client.localPath name)
    (changed : seat.client.Placed → Untouched (seat.client.Beside name given) seat.disk disk) :
    Acts name given seat
      ⟨{ seat.client with cache := seat.client.cache.insert name entry, lru := lru }, disk, world⟩ where
  cacheDir := rfl
  others other _ different held _ := (AList.lookup_insert_ne different).trans held
  older other _ different held := (AList.lookup_insert_ne different).symm.trans held
  placed placed other held present := by
    by_cases same : other = name
    · subst same
      rw [AList.lookup_insert] at present
      cases present
      exact path placed
    · rw [AList.lookup_insert_ne same] at present
      exact placed other held present
  disk := changed

theorem files (seat : Seat World) (disk : Tree) (lru : List String) (world : World)
    (changed : seat.client.Placed → Untouched (seat.client.Beside name given) seat.disk disk) :
    Acts name given seat ⟨{ seat.client with lru := lru }, disk, world⟩ :=
  ⟨rfl, fun _ _ _ held _ => held, fun _ _ _ held => held, fun placed => placed, changed⟩

end Acts

namespace Seat

variable {World : Type} (net : Net World) (io : LocalIO) {given : Path → Prop}

theorem retried_eq (send : String → World → World × Except Failure Reply) (further : Nat)
    (seat : Seat World) : ∃ address world, (seat.retried net send further).1 =
      { seat with client := { seat.client with address := address }, world := world } := by
  induction further generalizing seat with
  | zero =>
    unfold retried
    split
    · exact ⟨_, _, rfl⟩
    · split
      · exact ⟨_, _, rfl⟩
      · split <;> exact ⟨_, _, rfl⟩
  | succ further ih =>
    unfold retried
    split
    · exact ⟨_, _, rfl⟩
    · split
      · exact ih _
      · split
        · exact ⟨_, _, rfl⟩
        · exact ih _

theorem retried_refused (send : String → World → World × Except Failure Reply)
    (refuses : ∀ address world, ∃ err, (send address world).2 = .error err) (further : Nat) (seat : Seat World) :
    ∃ err, (seat.retried net send further).2 = .error err := by
  induction further generalizing seat with
  | zero =>
    unfold retried
    split
    case h_1 world reply answered =>
      obtain ⟨err, wrong⟩ := refuses seat.client.address seat.world
      rw [answered] at wrong
      cases wrong
    case h_2 => split <;> [exact ⟨_, rfl⟩; (split <;> exact ⟨_, rfl⟩)]
  | succ further ih =>
    unfold retried
    split
    case h_1 world reply answered =>
      obtain ⟨err, wrong⟩ := refuses seat.client.address seat.world
      rw [answered] at wrong
      cases wrong
    case h_2 =>
      split
      · exact ih _
      · split
        · exact ⟨_, rfl⟩
        · exact ih _

theorem sent_eq (send : String → World → World × Except Failure Reply) (seat : Seat World) :
    ∃ address world, (seat.sent net send).1 =
      { seat with client := { seat.client with address := address }, world := world } := by
  unfold sent
  split
  · exact ⟨_, _, rfl⟩
  · split
    · exact ⟨_, _, rfl⟩
    · split <;> exact ⟨_, _, rfl⟩

theorem testAuth_eq (filename : String) (further : Nat) (seat : Seat World) :
    ∃ world, (seat.testAuth net filename further).1 = { seat with world := world } := by
  induction further generalizing seat with
  | zero =>
    unfold testAuth
    split
    · exact ⟨_, rfl⟩
    · split <;> first | exact ⟨_, rfl⟩ | contradiction
  | succ further ih =>
    unfold testAuth
    split
    · exact ⟨_, rfl⟩
    · split
      case h_1 counted =>
        obtain rfl := Nat.succ.inj counted
        exact ih _
      case h_2 => exact ⟨_, rfl⟩

theorem acts_retried (name : String) (send : String → World → World × Except Failure Reply)
    (further : Nat) (seat : Seat World) : Acts name given seat (seat.retried net send further).1 := by
  obtain ⟨address, world, same⟩ := seat.retried_eq net send further
  rw [same]
  exact .elsewhere ..

theorem acts_sent (name : String) (send : String → World → World × Except Failure Reply)
    (seat : Seat World) : Acts name given seat (seat.sent net send).1 := by
  obtain ⟨address, world, same⟩ := seat.sent_eq net send
  rw [same]
  exact .elsewhere ..

theorem makeRoom_cases (seat : Seat World) :
    (∃ failed, seat.makeRoom io = (seat, failed)) ∨ ∃ name entry, seat.client.victim = some (name, entry) ∧
      seat.makeRoom io = ({ seat with
        disk := (osRemove io.remove seat.disk entry.localPath).getD seat.disk
        client := { seat.client with
          cache := seat.client.cache.erase name
          lru := seat.client.lru.erase name } }, none) := by
  unfold makeRoom evictFromCache Client.victim
  split_ifs with full
  · split
    case h_1 => exact .inl ⟨_, rfl⟩
    case h_2 name entry evicts => exact .inr ⟨name, entry, evicts, rfl⟩
  · exact .inl ⟨_, rfl⟩

theorem makeRoom_dirty {seat : Seat World}
    (held : seat.client.cache.lookup name = some entry) (dirty : entry.dirty = true) :
    (seat.makeRoom io).1.client.cache.lookup name = some entry := by
  rcases seat.makeRoom_cases io with ⟨failed, same⟩ | ⟨other, found, evicts, same⟩
  · rw [same]
    exact held
  · obtain ⟨present, clean, _⟩ := Client.victim_entry evicts
    have different : name ≠ other := by
      rintro rfl
      obtain rfl : found = entry := Option.some.inj (present.symm.trans held)
      rw [clean] at dirty
      cases dirty
    rw [same]
    exact (AList.lookup_erase_ne different).trans held

theorem makeRoom_older (seat : Seat World) (held : (seat.makeRoom io).1.client.cache.lookup name = some entry) :
    seat.client.cache.lookup name = some entry := by
  rcases seat.makeRoom_cases io with ⟨_, same⟩ | ⟨other, _, _, same⟩
  · rwa [same] at held
  · rw [same] at held
    exact Map.lookup_of_erase _ other held

theorem makeRoom_untouched (region : Path → Prop) (seat : Seat World)
    (outside : ∀ name entry, seat.client.victim = some (name, entry) → ¬ region entry.localPath) :
    Untouched region seat.disk (seat.makeRoom io).1.disk := by
  rcases seat.makeRoom_cases io with ⟨failed, same⟩ | ⟨name, entry, evicts, same⟩
  · rw [same]
    exact .refl _
  · rw [same]
    exact osRemove_untouched _ _ _ _ (outside name entry evicts)

theorem acts_makeRoom (name : String) (seat : Seat World)
    (gives : ∀ other entry, seat.client.victim = some (other, entry) → given entry.localPath) :
    Acts name given seat (seat.makeRoom io).1 where
  cacheDir := by rcases seat.makeRoom_cases io with ⟨_, same⟩ | ⟨_, _, _, same⟩ <;> rw [same]
  others other entry _ held dirty := makeRoom_dirty io held dirty
  older other entry _ held := seat.makeRoom_older io held
  placed placed kept found present := by
    have path := placed kept found (seat.makeRoom_older io present)
    rcases seat.makeRoom_cases io with ⟨_, same⟩ | ⟨_, _, _, same⟩ <;> rw [same] <;> exact path
  disk _ := seat.makeRoom_untouched io _ fun other entry evicts outside => outside.1 (gives other entry evicts)

theorem mkdir_sameFiles (path : Path) (disk : Tree) :
    SameFiles disk (if io.mkdir then (disk.mkdirAll path).getD disk else disk) := by
  split_ifs
  · cases dirs : disk.mkdirAll path with
    | none => exact fun _ _ => Iff.rfl
    | some made => exact mkdirAll_sameFiles dirs
  · exact fun _ _ => Iff.rfl

theorem enter_cases (name : String) (entry : CacheEntry) (seat : Seat World) :
    (∃ disk err, seat.enter io name entry = ({ seat with disk := disk }, .error err) ∧ SameFiles seat.disk disk) ∨
      ∃ disk, seat.enter io name entry =
          ({ seat with disk := disk, client := (seat.client.setEntry name entry).touchLRU name }, .ok entry) ∧
        disk.find entry.localPath = some (.file []) := by
  unfold enter
  dsimp only
  split
  case h_1 => exact .inl ⟨_, _, rfl, mkdir_sameFiles io _ _⟩
  case h_2 disk truncated =>
    exact .inr ⟨disk, rfl, osTruncate_find truncated⟩

theorem acts_enter (name : String) (seat : Seat World)
    (path : entry.localPath = seat.client.localPath name) : Acts name given seat (seat.enter io name entry).1 := by
  have made : Untouched (seat.client.Beside name given) seat.disk
      (if io.mkdir then (seat.disk.mkdirAll entry.localPath.dropLast).getD seat.disk else seat.disk) :=
    fun target content _ => mkdir_sameFiles io _ _ target content
  unfold enter
  dsimp only
  split
  case h_1 => exact .files seat _ _ _ fun _ => made
  case h_2 disk truncated =>
    refine .own seat disk entry _ _ (fun _ => path) fun _ => made.trans ?_
    exact osTruncate_untouched _ _ _ _ _ (fun outside => outside.2.1 path) truncated

theorem forget_cases (name : String) (seat : Seat World) :
    (∃ failed, seat.forget io name = (seat, failed) ∧ (failed = none → seat.client.cache.lookup name = none)) ∨
      ∃ disk, seat.forget io name = ({ seat with
        disk := disk
        client := { seat.client with cache := seat.client.cache.erase name } }, none) := by
  unfold forget
  split
  case h_1 absent => exact .inl ⟨none, rfl, fun _ => absent⟩
  case h_2 entry found =>
    split
    case isTrue => exact .inl ⟨_, rfl, by simp⟩
    case isFalse =>
      split
      case h_1 disk _ => exact .inr ⟨disk, rfl⟩
      case h_2 =>
        split
        case isTrue => exact .inr ⟨seat.disk, rfl⟩
        case isFalse => exact .inl ⟨_, rfl, by simp⟩

variable (requestId : String)

theorem acts_create (name clientID : String) {seat : Seat World}
    (gives : ∀ other entry, seat.client.victim = some (other, entry) → given entry.localPath) :
    Acts name given seat (seat.create net io requestId name clientID).1 := by
  have room := acts_makeRoom io name seat gives
  unfold create
  split
  case h_1 roomed err same =>
    rw [same] at room
    exact room
  case h_2 roomed same =>
    rw [same] at room
    have asked : Acts name given roomed _ := acts_retried net name
      (fun address world => net.create address world ⟨requestId, name, clientID, .read⟩) (maxTries - 1) roomed
    dsimp only
    split
    case h_1 next err same =>
      rw [same] at asked
      exact room.trans asked
    case h_2 next resp same =>
      rw [same] at asked
      exact (room.trans asked).trans (acts_enter io name next rfl)

theorem acts_openRemote (req : FileRequest) (seat : Seat World) :
    Acts req.filename given seat (seat.openRemote net io req).1 := by
  have asked : Acts req.filename given seat _ := acts_retried net req.filename
    (fun address world => net.openFile address world req) (maxTries - 1) seat
  unfold openRemote
  split
  case h_1 next err same =>
    rw [same] at asked
    exact asked
  case h_2 next resp same =>
    rw [same] at asked
    exact asked.trans (acts_enter io req.filename next rfl)

theorem acts_openCached {req : FileRequest} {seat : Seat World}
    (held : seat.client.cache.lookup req.filename = some entry) :
    Acts req.filename given seat (seat.openCached net req entry).1 := by
  unfold openCached
  dsimp only
  split
  · exact .own seat _ _ _ _ (fun placed => placed _ entry held) fun _ => .refl _
  · refine .trans (.own seat seat.disk { entry with valid := true, mode := req.mode }
      (seat.client.touchLRU req.filename).lru seat.world (fun placed => placed _ entry held) fun _ => .refl _) ?_
    exact .own _ _ _ _ _ (fun placed => placed _ { entry with valid := true, mode := req.mode } (AList.lookup_insert _))
      fun _ => .refl _

theorem acts_openFile (req : FileRequest) {seat : Seat World}
    (gives : ∀ other entry, seat.client.victim = some (other, entry) → given entry.localPath) :
    Acts req.filename given seat (seat.openFile net io req).1 := by
  unfold openFile
  split
  case h_1 entry held =>
    split
    case isTrue => exact .refl ..
    case isFalse =>
      obtain ⟨world, asked⟩ := seat.testAuth_eq net req.filename (maxTries - 1)
      have seen : Acts req.filename given seat { seat with world := world } := .elsewhere seat seat.client.address world
      split
      case h_1 next err same =>
        rw [same] at asked
        rw [show next = _ from asked]
        exact seen
      case h_2 next version same =>
        rw [same] at asked
        obtain rfl : next = _ := asked
        split_ifs
        · exact seen
        · exact seen.trans (acts_openCached net held)
        · exact seen.trans (acts_openRemote net io req _)
  case h_2 =>
    have room := acts_makeRoom io req.filename seat gives
    split
    case h_1 roomed err same =>
      rw [same] at room
      exact room
    case h_2 roomed same =>
      rw [same] at room
      exact room.trans (acts_openRemote net io req roomed)

theorem acts_readFile (name : String) (path : Path) (seat : Seat World) :
    Acts name given seat (seat.readFile io name path).1 := by
  unfold readFile
  split_ifs
  · exact .refl ..
  · split
    · exact .refl ..
    · exact .files seat _ _ _ fun _ => .refl _

theorem acts_fetch (chunks : List Bytes) (ended : Option Failure)
    {seat : Seat World} (held : seat.client.cache.lookup name = some entry) :
    Acts name given seat (fetch io name entry (withSuffix entry.localPath ".tmp") chunks ended seat).1 := by
  have region (placed : seat.client.Placed) : entry.localPath = seat.client.localPath name := placed _ _ held
  have written (placed : seat.client.Placed) : Untouched (seat.client.Beside name given) seat.disk
      ((seat.disk.writeFile (withSuffix entry.localPath ".tmp") (Server.copied io.write chunks.flatten)).getD
        seat.disk) :=
    .writeFile_getD _ _ fun outside => outside.2.2 (by rw [region placed])
  unfold fetch
  dsimp only
  generalize (seat.disk.writeFile (withSuffix entry.localPath ".tmp") (Server.copied io.write chunks.flatten)).getD
    seat.disk = disk at written ⊢
  have discarded (placed : seat.client.Placed) := (written placed).trans (osRemove_untouched _ io.remove disk
    (withSuffix entry.localPath ".tmp") fun outside => outside.2.2 (by rw [region placed]))
  split_ifs
  · exact .files seat _ _ _ discarded
  · split
    · exact .files seat _ _ _ discarded
    · split
      case h_1 => exact .files seat _ _ _ written
      case h_2 moved renamed =>
        have replaced (placed : seat.client.Placed) := (written placed).trans (osRename_untouched
          (fun outside => outside.2.2 (by rw [region placed])) (fun outside => outside.2.1 (region placed)) renamed)
        split
        · exact .files seat _ _ _ replaced
        · exact .files seat _ _ _ replaced

theorem acts_read (name clientID : String) (seat : Seat World) :
    Acts name given seat (seat.read net io name clientID).1 := by
  unfold read
  split
  case h_1 => exact .refl ..
  case h_2 entry held =>
    split_ifs
    · exact acts_readFile io name entry.localPath seat
    · dsimp only
      split
      case h_1 => exact .refl ..
      case h_2 disk truncated =>
        have emptied : ∀ world, Acts name given seat { seat with disk := disk, world := world } := fun world =>
          .files seat disk seat.client.lru world fun placed => osTruncate_untouched _ _ _ _ _
            (fun outside => outside.2.2 (by rw [placed _ _ held])) truncated
        split
        case h_1 => exact emptied _
        case h_2 => exact (emptied _).trans (acts_fetch io _ _ held)

theorem acts_writeLocal {change : Tree → Path → Tree × Bool}
    (touches : ∀ region tree path, ¬ region path → Untouched region tree (change tree path).1) (name : String)
    (seat : Seat World) : Acts name given seat (seat.writeLocal io change name).1 := by
  unfold writeLocal
  split
  case h_1 => exact .refl ..
  case h_2 entry held =>
    split_ifs
    · exact .refl ..
    · have changed (placed : seat.client.Placed) := touches (seat.client.Beside name given) seat.disk
        entry.localPath fun outside => outside.2.1 (placed _ _ held)
      split
      case h_1 disk same =>
        rw [same] at changed
        exact .files seat disk _ _ changed
      case h_2 disk same =>
        rw [same] at changed
        exact .own seat disk _ _ _ (fun placed => placed _ entry held) changed

def settle (finish : Client → Reply → Client) : Seat World × Except Failure Reply → Seat World × Except Failure Unit
  | (seat, .error err) => (seat, .error err)
  | (seat, .ok reply) => ({ seat with client := finish seat.client reply }, .ok ())

theorem commit_cases (name clientID : String) (seat : Seat World) :
    (∃ answer, seat.commit net io requestId name clientID = (seat, answer) ∧
        (answer = .ok () → (seat.client.cache.lookup name).any (·.dirty) = false) ∧
        ∀ entry req, seat.client.cache.lookup name = some entry → entry.closed = false → entry.dirty = true →
          seat.dataRequest io requestId clientID entry ≠ some req) ∨
      ∃ entry req, seat.client.cache.lookup name = some entry ∧ entry.closed = false ∧ entry.dirty = true ∧
        seat.dataRequest io requestId clientID entry = some req ∧
        seat.commit net io requestId name clientID =
          settle (fun client resp => client.setEntry name { entry with version := resp.version, dirty := false })
            (seat.sent net fun address world => net.write address world req) := by
  unfold commit
  cases held : seat.client.cache.lookup name with
  | none => exact .inl ⟨_, rfl, by simp, by simp⟩
  | some entry =>
    dsimp only
    split_ifs with shut clean
    · exact .inl ⟨_, rfl, by simp, by rintro _ req ⟨⟩; simp_all⟩
    · exact .inl ⟨_, rfl, by simp_all, by rintro _ req ⟨⟩; simp_all⟩
    · cases made : seat.dataRequest io requestId clientID entry with
      | none => exact .inl ⟨_, rfl, by simp, by rintro _ req ⟨⟩; simp_all⟩
      | some req =>
        refine .inr ⟨entry, req, rfl, by simpa using shut, by simpa using clean, made, ?_⟩
        dsimp only
        rcases seat.sent net fun address world => net.write address world req with ⟨next, err | resp⟩ <;> rfl

theorem close_cases (name clientID : String) (seat : Seat World) :
    (∃ err, seat.close net io requestId name clientID = (seat, .error err) ∧
        ∀ entry req, seat.client.cache.lookup name = some entry →
          seat.dataRequest io requestId clientID entry ≠ some req) ∨
      ∃ entry req, seat.client.cache.lookup name = some entry ∧
        seat.dataRequest io requestId clientID entry = some req ∧
        seat.close net io requestId name clientID =
          settle (fun client resp => (client.setEntry name
              { entry with version := resp.version, dirty := false, closed := true, fd := 0 }).touchLRU name)
            (seat.sent net fun address world => net.close address world req) := by
  unfold close
  cases held : seat.client.cache.lookup name with
  | none => exact .inl ⟨_, rfl, by simp⟩
  | some entry =>
    dsimp only
    cases made : seat.dataRequest io requestId clientID entry with
    | none => exact .inl ⟨_, rfl, by rintro _ req ⟨⟩; simp_all⟩
    | some req =>
      refine .inr ⟨entry, req, rfl, made, ?_⟩
      dsimp only
      rcases seat.sent net fun address world => net.close address world req with ⟨next, err | resp⟩ <;> rfl

theorem delete_forgotten {name : String} {seat left : Seat World} (forgot : seat.forget io name = (left, none)) :
    seat.delete net io requestId name = settle (fun client _ => { client with lru := client.lru.erase name })
      (left.sent net fun address world => net.delete address world ⟨requestId, name⟩) := by
  unfold delete
  rw [forgot]
  dsimp only
  rcases left.sent net fun address world => net.delete address world ⟨requestId, name⟩ with ⟨next, err | resp⟩ <;> rfl

theorem delete_kept {name : String} {seat left : Seat World} {err : Failure}
    (kept : seat.forget io name = (left, some err)) : seat.delete net io requestId name = (left, .error err) := by
  unfold delete
  rw [kept]

theorem acts_settle (name : String) (send : String → World → World × Except Failure Reply) (finish : Client → Reply → Client)
    (seat : Seat World) (own : ∀ (address : String) (world : World) (reply : Reply),
      Acts name given ⟨{ seat.client with address := address }, seat.disk, world⟩
        ⟨finish { seat.client with address := address } reply, seat.disk, world⟩) :
    Acts name given seat (settle finish (seat.sent net send)).1 := by
  have asked : Acts name given seat _ := acts_sent net name send seat
  obtain ⟨address, world, kept⟩ := seat.sent_eq net send
  rcases answered : seat.sent net send with ⟨next, err | reply⟩
  · rw [answered] at asked
    exact asked
  · rw [answered] at asked kept
    obtain rfl : next = _ := kept
    exact asked.trans (own address world reply)

theorem acts_commit (name clientID : String) (seat : Seat World) :
    Acts name given seat (seat.commit net io requestId name clientID).1 := by
  rcases seat.commit_cases net io requestId name clientID with ⟨answer, same, _⟩ | ⟨entry, req, held, _, _, _, same⟩
  · rw [same]
    exact .refl ..
  · rw [same]
    exact acts_settle _ _ _ _ _ fun _ _ _ => .own _ _ _ _ _ (fun placed => placed _ entry held) fun _ => .refl _

theorem acts_close (name clientID : String) (seat : Seat World) :
    Acts name given seat (seat.close net io requestId name clientID).1 := by
  rcases seat.close_cases net io requestId name clientID with ⟨err, same, _⟩ | ⟨entry, req, held, _, same⟩
  · rw [same]
    exact .refl ..
  · rw [same]
    exact acts_settle _ _ _ _ _ fun _ _ _ => .own _ _ _ _ _ (fun placed => placed _ entry held) fun _ => .refl _

theorem acts_delete (name : String) (seat : Seat World) :
    Acts name given seat (seat.delete net io requestId name).1 := by
  have forgotten : Acts name given seat (seat.forget io name).1 := by
    have erased (disk : Tree) (changed : seat.client.Placed → Untouched (seat.client.Beside name given) seat.disk disk) :
        Acts name given seat { seat with
          disk := disk
          client := { seat.client with cache := seat.client.cache.erase name } } := by
      refine ⟨rfl, fun other entry different held _ => (AList.lookup_erase_ne different).trans held,
        fun other entry different held => (AList.lookup_erase_ne different).symm.trans held,
        fun placed other entry held => placed other entry (Map.lookup_of_erase _ name held), changed⟩
    unfold forget
    split
    case h_1 => exact .refl ..
    case h_2 entry held =>
      split
      case isTrue => exact .refl ..
      case isFalse =>
        split
        case h_1 disk removed =>
          refine erased disk fun placed => ?_
          have touched := osRemove_untouched (seat.client.Beside name given) io.remove seat.disk entry.localPath
            fun outside => outside.2.1 (placed _ entry held)
          rwa [removed] at touched
        case h_2 =>
          split_ifs
          · exact erased seat.disk fun _ => .refl _
          · exact .refl ..
  rcases forgot : seat.forget io name with ⟨left, failed⟩
  rw [forgot] at forgotten
  cases failed with
  | some err =>
    rw [delete_kept net io requestId forgot]
    exact forgotten
  | none =>
    rw [delete_forgotten net io requestId forgot]
    exact forgotten.trans (acts_settle _ _ _ _ _ fun _ _ _ => .files _ _ _ _ fun _ => .refl _)

theorem acts_perform (clientID : String) (call : ClientCall) (seat : Seat World)
    (gives : ∀ other entry, seat.client.victim = some (other, entry) → given entry.localPath) :
    Acts call.name given seat (seat.perform net io clientID call).1 := by
  cases call with
  | create requestId name => exact acts_create net io requestId name clientID gives
  | openFile requestId name mode => exact acts_openFile net io ⟨requestId, name, mode, clientID⟩ gives
  | read name => exact acts_read net io name clientID seat
  | writeFile name data =>
    exact acts_writeLocal io (fun _ _ _ outside => osWriteFile_untouched _ _ _ outside) name seat
  | appendFile name data =>
    exact acts_writeLocal io (fun _ _ _ outside => osAppendFile_untouched _ _ _ outside) name seat
  | commit requestId name => exact acts_commit net io requestId name clientID seat
  | close requestId name => exact acts_close net io requestId name clientID seat
  | delete requestId name => exact acts_delete net io requestId name seat

end Seat

namespace Desk

variable {World : Type}

def Placed (d : Desk World) : Prop := ∀ who, (d.clients who).Placed

theorem placed_turn (d : Desk World) (t : Turn World) (placed : d.Placed) : (d.turn t).1.Placed := by
  intro who
  have acts : Acts t.call.name (fun _ => True) (d.seat t.who) _ :=
    Seat.acts_perform t.net t.io t.who t.call (d.seat t.who) fun _ _ _ => trivial
  unfold turn
  dsimp only
  by_cases own : who = t.who
  · subst own
    rw [Function.update_self]
    exact acts.placed (placed t.who)
  · rw [Function.update_of_ne own]
    exact placed who

theorem placed_run (disk : Tree) (cacheDir address : String → String) (world : World) (turns : List (Turn World))
    (final : Desk World) (reached : Transition.run step (start disk cacheDir address world) turns = some final) :
    final.Placed := by
  refine Transition.run_invariant (fun _ _ => True) Placed ?_ _ ?_ turns
    (Transition.meets_any ..) reached
  · rintro d t next placed - stepped
    obtain rfl := Option.some.inj stepped
    exact d.placed_turn t placed
  · intro who name entry held
    cases held

theorem seat_turn_self (d : Desk World) (t : Turn World) :
    (d.turn t).1.seat t.who = ((d.seat t.who).perform t.net t.io t.who t.call).1 := by
  simp [turn, seat]

end Desk

end Ikkat
