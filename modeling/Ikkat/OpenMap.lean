import Ikkat.Cleanup
import Ikkat.Slots

set_option autoImplicit false

namespace Ikkat

variable {found : FileMeta} {fd : Int32} {s next : Server} {who name : String}

namespace Server

def Holds (s : Server) (who name : String) (fd : Int32) : Prop := s.Registers (fun filename _ => filename = name) who fd

structure MapsOpen (s : Server) : Prop where
  listed : ∀ who name, (⟨who, name⟩ : FileKey) ∈ s.openMap ↔ ∃ fd, s.Holds who name fd
  points : ∀ who name fd, s.openMap.lookup ⟨who, name⟩ = some fd → s.Holds who name fd

theorem MapsOpen.lookup (maps : s.MapsOpen)
    (holds : s.Holds who name fd) : ∃ known, s.openMap.lookup ⟨who, name⟩ = some known :=
  Option.isSome_iff_exists.mp (AList.lookup_isSome.mpr ((maps.listed who name).mpr ⟨fd, holds⟩))

theorem MapsOpen.of_points (points : ∀ who name fd, s.openMap.lookup ⟨who, name⟩ = some fd →
      s.Holds who name fd)
    (held : ∀ who name fd, s.Holds who name fd → ∃ known, s.openMap.lookup ⟨who, name⟩ = some known) : s.MapsOpen := by
  refine ⟨fun who name => ⟨fun inside => ?_, ?_⟩, points⟩
  · obtain ⟨fd, known⟩ := Option.isSome_iff_exists.mp (AList.lookup_isSome.mpr inside)
    exact ⟨fd, points who name fd known⟩
  · rintro ⟨fd, holds⟩
    exact AList.lookup_isSome.mp (Option.isSome_iff_exists.mpr (held who name fd holds))

theorem holds_name {other target : String} (holds : s.Holds who name fd)
    (same : s.Holds other target fd) : name = target := by
  obtain ⟨found, _, present, _, named⟩ := holds
  obtain ⟨known, _, listed, _, called⟩ := same
  rw [present, Option.some.injEq] at listed
  rw [← named, ← called, listed]

theorem MapsOpen.renewed (maps : s.MapsOpen)
    (holds : ∀ who name fd, next.Holds who name fd ↔ s.Holds who name fd) (openMap : next.openMap = s.openMap) :
    next.MapsOpen := by
  refine ⟨fun who name => ?_, fun who name fd known => ?_⟩
  · rw [openMap, maps.listed]
    exact exists_congr fun fd => (holds who name fd).symm
  · rw [openMap] at known
    exact (holds who name fd).mpr (maps.points who name fd known)

theorem MapsOpen.of_same (maps : s.MapsOpen) (files : next.files = s.files)
    (openMap : next.openMap = s.openMap) : next.MapsOpen := by
  refine maps.renewed (fun who name fd => ?_) openMap
  unfold Holds Registers
  rw [files]

theorem MapsOpen.granted (maps : s.MapsOpen)
    {client : ClientState} (absent : fd ∉ s.files) (files : next.files = s.files.insert fd found)
    (clients : found.clients = (∅ : Map String ClientState).insert who client) (named : found.filename = name)
    (openMap : next.openMap = s.openMap.insert ⟨who, name⟩ fd) : next.MapsOpen := by
  have holds (other target : String) (known : Int32) : next.Holds other target known ↔
      s.Holds other target known ∨ other = who ∧ known = fd ∧ found.filename = target :=
    registers_granted (fun filename _ => filename = target) absent files clients other known
  refine .of_points (fun other target known mapped => ?_) fun other target known held => ?_
  · rw [openMap] at mapped
    by_cases own : (⟨other, target⟩ : FileKey) = ⟨who, name⟩
    · cases own
      rw [AList.lookup_insert, Option.some.injEq] at mapped
      exact (holds _ _ _).mpr (.inr ⟨rfl, mapped.symm, named⟩)
    · rw [AList.lookup_insert_ne own] at mapped
      exact (holds _ _ _).mpr (.inl (maps.points other target known mapped))
  · rw [openMap]
    by_cases own : (⟨other, target⟩ : FileKey) = ⟨who, name⟩
    · exact ⟨fd, by rw [own, AList.lookup_insert]⟩
    · rw [AList.lookup_insert_ne own]
      rcases (holds _ _ _).mp held with old | ⟨rfl, _, called⟩
      · exact maps.lookup old
      · exact absurd (by rw [← named, ← called]) own

theorem MapsOpen.lost_iff (maps : s.MapsOpen) (Gone : String → String → Int32 → Prop) (Erased : String → String → Prop)
    (holds : ∀ who name fd, next.Holds who name fd ↔ s.Holds who name fd ∧ ¬ Gone who name fd)
    (erased : ∀ who name, Erased who name → next.openMap.lookup ⟨who, name⟩ = none)
    (kept : ∀ who name, ¬ Erased who name → next.openMap.lookup ⟨who, name⟩ = s.openMap.lookup ⟨who, name⟩) :
    next.MapsOpen ↔ ∀ who name, (Erased who name → ∀ fd, s.Holds who name fd → Gone who name fd) ∧
      (¬ Erased who name → ∀ fd, s.openMap.lookup ⟨who, name⟩ = some fd → ¬ Gone who name fd) := by
  constructor
  · intro after who name
    refine ⟨fun goes fd held => ?_, fun stays fd known => ?_⟩
    · by_contra left
      obtain ⟨known, mapped⟩ := after.lookup ((holds who name fd).mpr ⟨held, left⟩)
      rw [erased who name goes] at mapped
      cases mapped
    · rw [← kept who name stays] at known
      exact ((holds who name fd).mp (after.points who name fd known)).2
  · intro exactly
    refine .of_points (fun who name fd known => ?_) fun who name fd held => ?_
    · have stays : ¬ Erased who name := by
        intro goes
        rw [erased who name goes] at known
        cases known
      rw [kept who name stays] at known
      exact (holds who name fd).mpr ⟨maps.points who name fd known, (exactly who name).2 stays fd known⟩
    · obtain ⟨old, left⟩ := (holds who name fd).mp held
      have stays : ¬ Erased who name := fun goes => left ((exactly who name).1 goes fd old)
      rw [kept who name stays]
      exact maps.lookup old

theorem MapsOpen.dropped_iff (maps : s.MapsOpen) (present : s.files.lookup fd = some found)
    (files : next.files = s.files.insert fd { found with clients := found.clients.erase who })
    (openMap : next.openMap = s.openMap) :
    next.MapsOpen ↔ ∀ name, s.openMap.lookup ⟨who, name⟩ ≠ some fd := by
  rw [maps.lost_iff (fun other _ target => other = who ∧ target = fd) (fun _ _ => False)
    (fun other name target => registers_dropped (fun filename _ => filename = name) present files other target)
    (fun _ _ never => never.elim) (fun _ _ _ => by rw [openMap])]
  constructor
  · intro exactly name known
    exact (exactly who name).2 not_false fd known ⟨rfl, rfl⟩
  · intro unmapped other name
    refine ⟨False.elim, ?_⟩
    rintro - target known ⟨rfl, rfl⟩
    exact unmapped name known

theorem MapsOpen.expired_iff (maps : s.MapsOpen)
    (mapped : s.openMap.lookup ⟨who, name⟩ = some fd) (present : s.files.lookup fd = some found)
    (files : next.files = s.files.insert fd { found with clients := found.clients.erase who })
    (openMap : next.openMap = s.openMap.erase ⟨who, name⟩) :
    next.MapsOpen ↔ ∀ other, s.Holds who name other → other = fd := by
  rw [maps.lost_iff (fun other _ target => other = who ∧ target = fd) (fun other target => other = who ∧ target = name)
    (fun other name target => registers_dropped (fun filename _ => filename = name) present files other target)]
  · constructor
    · intro exactly other held
      exact ((exactly who name).1 ⟨rfl, rfl⟩ other held).2
    · intro only other target
      refine ⟨?_, ?_⟩
      · rintro ⟨rfl, rfl⟩ known held
        exact ⟨rfl, only known held⟩
      · rintro stays known listed ⟨rfl, rfl⟩
        exact stays ⟨rfl, holds_name (maps.points _ _ _ listed) (maps.points _ _ _ mapped)⟩
  · rintro other target ⟨rfl, rfl⟩
    rw [openMap, AList.lookup_erase]
  · intro other target stays
    rw [openMap, AList.lookup_erase_ne]
    rintro ⟨⟩
    exact stays ⟨rfl, rfl⟩

theorem registers_at (fits : String → ClientState → Prop) (present : s.files.lookup fd = some found) :
    s.Registers fits who fd ↔ ∃ client, found.clients.lookup who = some client ∧ fits found.filename client := by
  unfold Registers
  simp [present]

def Expired (s : Server) (now : Time) (who name : String) (fd : Int32) : Prop :=
  s.Registers (fun filename client => filename = name ∧ now - client.lastSeen > leaseTimeout) who fd

section Round

variable (now : Time)

theorem lookup_erased {Key Value Item : Type} [DecidableEq Key] (key : Item → Key) (items : List Item)
    (map : Map Key Value) (target : Key) : (items.foldl (fun map item => map.erase (key item)) map).lookup target =
      if target ∈ items.map key then none else map.lookup target := by
  induction items generalizing map with
  | nil => simp
  | cons item rest ih =>
    rw [List.foldl_cons, ih]
    by_cases same : target = key item
    · subst same
      simp
    · simp [same]

theorem mem_expiredLeases (found : FileMeta) (lease : ExpiredLease) :
    lease ∈ expiredLeases now found ↔ ∃ client, found.clients.lookup lease.clientID = some client ∧
      now - client.lastSeen > leaseTimeout ∧ lease = ⟨lease.clientID, found.filename, client.mode⟩ := by
  unfold expiredLeases
  rw [List.mem_filterMap]
  constructor
  · rintro ⟨⟨who, client⟩, listed, noted⟩
    split_ifs at noted with old
    cases noted
    exact ⟨client, AList.mem_lookup_iff.mpr listed, old, rfl⟩
  · rintro ⟨client, listed, old, same⟩
    refine ⟨⟨lease.clientID, client⟩, AList.mem_lookup_iff.mp listed, ?_⟩
    rw [if_pos old, ← same]

theorem lookup_unexpired (found : FileMeta) (who : String) (client : ClientState) :
    ((expiredLeases now found).foldl (fun clients lease => clients.erase lease.clientID) found.clients).lookup who =
        some client ↔
      found.clients.lookup who = some client ∧ ¬ now - client.lastSeen > leaseTimeout := by
  rw [lookup_erased ExpiredLease.clientID]
  have gone : who ∈ (expiredLeases now found).map ExpiredLease.clientID ↔
      ∃ client, found.clients.lookup who = some client ∧ now - client.lastSeen > leaseTimeout := by
    rw [List.mem_map]
    constructor
    · rintro ⟨lease, listed, rfl⟩
      obtain ⟨client, registered, old, _⟩ := (mem_expiredLeases now found lease).mp listed
      exact ⟨client, registered, old⟩
    · rintro ⟨client, registered, old⟩
      exact ⟨⟨who, found.filename, client.mode⟩, (mem_expiredLeases now found _).mpr ⟨client, registered, old, rfl⟩,
        rfl⟩
  split_ifs with expired
  · obtain ⟨known, registered, old⟩ := gone.mp expired
    rw [registered, Option.some.injEq]
    refine ⟨by simp, ?_⟩
    rintro ⟨rfl, fresh⟩
    exact absurd old fresh
  · exact ⟨fun listed => ⟨listed, fun old => expired (gone.mpr ⟨client, listed, old⟩)⟩, And.left⟩

theorem mem_expiredKeys (found : FileMeta) (who name : String) :
    (⟨who, name⟩ : FileKey) ∈ (expiredLeases now found).map (fun lease => ⟨lease.clientID, lease.filename⟩) ↔
      ∃ client, found.clients.lookup who = some client ∧ found.filename = name ∧
        now - client.lastSeen > leaseTimeout := by
  rw [List.mem_map]
  constructor
  · rintro ⟨lease, gone, same⟩
    obtain ⟨client, registered, old, noted⟩ := (mem_expiredLeases now found lease).mp gone
    rw [noted] at same registered
    cases same
    exact ⟨client, registered, rfl, old⟩
  · rintro ⟨client, registered, rfl, old⟩
    exact ⟨⟨who, found.filename, client.mode⟩, (mem_expiredLeases now found _).mpr ⟨client, registered, old, rfl⟩, rfl⟩

theorem expireFile_registers (round : Server × List ExpiredLease) (fd : Int32) (fits : String → ClientState → Prop)
    (who : String) (target : Int32) : (expireFile now round fd).1.Registers fits who target ↔
      round.1.Registers (fun filename client => fits filename client ∧
        ¬ (target = fd ∧ now - client.lastSeen > leaseTimeout)) who target := by
  unfold expireFile
  split
  case h_1 missing =>
    unfold Registers
    by_cases same : target = fd
    · subst same
      simp [missing]
    · simp [same]
  case h_2 found present =>
    by_cases same : target = fd
    · subst same
      rw [registers_at _ present, registers_at _ (AList.lookup_insert _)]
      refine exists_congr fun client => ?_
      rw [lookup_unexpired]
      tauto
    · unfold Registers
      simp [same]

theorem expireFile_openMap (round : Server × List ExpiredLease) (fd : Int32) (who name : String) :
    (round.1.Expired now who name fd → (expireFile now round fd).1.openMap.lookup ⟨who, name⟩ = none) ∧
      (¬ round.1.Expired now who name fd →
        (expireFile now round fd).1.openMap.lookup ⟨who, name⟩ = round.1.openMap.lookup ⟨who, name⟩) := by
  unfold expireFile Expired
  split
  case h_1 missing => simp [missing, Registers]
  case h_2 found present =>
    rw [registers_at _ present, ← mem_expiredKeys]
    rw [lookup_erased fun lease : ExpiredLease => (⟨lease.clientID, lease.filename⟩ : FileKey)]
    exact ⟨fun expired => if_pos expired, fun fresh => if_neg fresh⟩

theorem expireFile_numbered {round : Server × List ExpiredLease} (fd : Int32) (numbered : round.1.Numbered) :
    (expireFile now round fd).1.Numbered := by
  unfold expireFile
  split
  case h_1 => exact numbered
  case h_2 found present => exact numbered.replaced (AList.lookup_isSome.mp (by rw [present]; rfl)) rfl rfl

theorem expireFile_expired (round : Server × List ExpiredLease) (fd : Int32) (who name : String) (target : Int32) :
    (expireFile now round fd).1.Expired now who name target ↔
      round.1.Expired now who name target ∧ target ≠ fd := by
  unfold Expired
  rw [expireFile_registers]
  constructor
  · rintro ⟨found, client, present, registered, ⟨named, old⟩, spared⟩
    exact ⟨⟨found, client, present, registered, named, old⟩, fun own => spared ⟨own, old⟩⟩
  · rintro ⟨⟨found, client, present, registered, named, old⟩, other⟩
    exact ⟨found, client, present, registered, ⟨named, old⟩, fun own => other own.1⟩

theorem expireFiles_registers (fds : List Int32) (round : Server × List ExpiredLease)
    (fits : String → ClientState → Prop) (who : String) (target : Int32) :
    (fds.foldl (expireFile now) round).1.Registers fits who target ↔
      round.1.Registers (fun filename client => fits filename client ∧
        ¬ (target ∈ fds ∧ now - client.lastSeen > leaseTimeout)) who target := by
  induction fds generalizing round with
  | nil => simp
  | cons fd rest ih =>
    rw [List.foldl_cons, ih, expireFile_registers]
    refine exists_congr fun found => exists_congr fun client => ?_
    rw [List.mem_cons]
    tauto

theorem expireFiles_openMap (fds : List Int32) (round : Server × List ExpiredLease) (who name : String) :
    ((∃ fd ∈ fds, round.1.Expired now who name fd) →
        (fds.foldl (expireFile now) round).1.openMap.lookup ⟨who, name⟩ = none) ∧
      ((¬ ∃ fd ∈ fds, round.1.Expired now who name fd) →
        (fds.foldl (expireFile now) round).1.openMap.lookup ⟨who, name⟩ = round.1.openMap.lookup ⟨who, name⟩) := by
  induction fds generalizing round with
  | nil => simp
  | cons fd rest ih =>
    obtain ⟨erased, kept⟩ := expireFile_openMap now round fd who name
    obtain ⟨gone, stays⟩ := ih (expireFile now round fd)
    have left := expireFile_expired now round fd who name
    rw [List.foldl_cons]
    constructor
    · rintro ⟨other, listed, expired⟩
      by_cases later : ∃ fd' ∈ rest, (expireFile now round fd).1.Expired now who name fd'
      · exact gone later
      · rw [stays later]
        apply erased
        by_contra fresh
        have different : other ≠ fd := by
          rintro rfl
          exact fresh expired
        exact later ⟨other, (List.mem_cons.mp listed).resolve_left different, (left other).mpr ⟨expired, different⟩⟩
    · intro fresh
      rw [stays, kept]
      · exact fun expired => fresh ⟨fd, List.mem_cons_self, expired⟩
      · rintro ⟨other, listed, expired⟩
        exact fresh ⟨other, List.mem_cons_of_mem _ listed, ((left other).mp expired).1⟩

theorem expireFiles_numbered (fds : List Int32) (round : Server × List ExpiredLease) (numbered : round.1.Numbered) :
    (fds.foldl (expireFile now) round).1.Numbered := by
  induction fds generalizing round with
  | nil => exact numbered
  | cons fd rest ih => exact ih _ (expireFile_numbered now fd numbered)

theorem holds_cleaned (s : Server) (who name : String) (fd : Int32) :
    (s.files.keys.foldl (expireFile now) (s, [])).1.Holds who name fd ↔
      s.Holds who name fd ∧ ¬ s.Expired now who name fd := by
  refine (expireFiles_registers now s.files.keys (s, []) (fun filename _ => filename = name) who fd).trans ?_
  constructor
  · rintro ⟨found, client, present, registered, named, spared⟩
    refine ⟨⟨found, client, present, registered, named⟩, ?_⟩
    rintro ⟨known, state, listed, entered, _, old⟩
    rw [present, Option.some.injEq] at listed
    subst listed
    rw [registered, Option.some.injEq] at entered
    subst entered
    exact spared ⟨AList.mem_keys.mp (AList.lookup_isSome.mp (by rw [present]; rfl)), old⟩
  · rintro ⟨⟨found, client, present, registered, named⟩, fresh⟩
    exact ⟨found, client, present, registered, named, fun gone =>
      fresh ⟨found, client, present, registered, named, gone.2⟩⟩

theorem MapsOpen.cleaned_iff (maps : s.MapsOpen) :
    (s.cleanupLeases now).MapsOpen ↔ ∀ who name fd, s.Expired now who name fd →
      ∀ other, s.Holds who name other → s.Expired now who name other := by
  obtain ⟨table, cleaned⟩ := cleanupLeases_eq now s
  have somewhere (who name : String) (fd : Int32) (expired : s.Expired now who name fd) : fd ∈ s.files.keys := by
    obtain ⟨_, _, present, _⟩ := expired
    exact AList.mem_keys.mp (AList.lookup_isSome.mp (by rw [present]; rfl))
  have locked : (s.cleanupLeases now).MapsOpen ↔ (s.files.keys.foldl (expireFile now) (s, [])).1.MapsOpen :=
    ⟨fun after => after.of_same (by rw [cleaned]) (by rw [cleaned]), fun before => before.of_same (by rw [cleaned])
      (by rw [cleaned])⟩
  rw [locked, maps.lost_iff (s.Expired now) (fun who name => ∃ fd, s.Expired now who name fd) (holds_cleaned now s)]
  · constructor
    · intro exactly who name fd expired
      exact (exactly who name).1 ⟨fd, expired⟩
    · intro together who name
      refine ⟨?_, fun none fd _ expired => none ⟨fd, expired⟩⟩
      rintro ⟨fd, expired⟩
      exact together who name fd expired
  · rintro who name ⟨fd, expired⟩
    exact (expireFiles_openMap now s.files.keys (s, []) who name).1 ⟨fd, somewhere who name fd expired, expired⟩
  · intro who name fresh
    refine (expireFiles_openMap now s.files.keys (s, []) who name).2 ?_
    rintro ⟨fd, _, expired⟩
    exact fresh ⟨fd, expired⟩

theorem cleanupLeases_numbered (numbered : s.Numbered) : (s.cleanupLeases now).Numbered := by
  obtain ⟨table, cleaned⟩ := cleanupLeases_eq now s
  have counted := expireFiles_numbered now s.files.keys (s, []) numbered
  rw [cleaned]
  exact ⟨counted.below, counted.count, counted.limit⟩

end Round

def lookupRefusals : List Status :=
  [⟨.permissionDenied, "file not opened by client"⟩, ⟨.internal, "file metadata missing"⟩,
    ⟨.permissionDenied, "client not registered"⟩]

def AdmitsHolders (s : Server) : Prop :=
  ∀ io req safe, s.notLeader = none → normalize req.filename = some safe →
    ((∀ status ∈ lookupRefusals, (s.read io req).2.2 ≠ some status) ↔ ∃ fd, s.Holds req.clientID safe fd)

def LeaseLost (s : Server) (io : ReadAnswers) (req : ReadRequest) (safe : String) (fd : Int32) : Prop :=
  s.notLeader = none ∧ normalize req.filename = some safe ∧ s.openMap.lookup ⟨req.clientID, safe⟩ = some fd ∧
    s.Registers (fun _ client => (client.mode = .read ∨ client.mode = .write ∨ client.mode = .other 2) ∧
      io.now - client.lastSeen > leaseTimeout) req.clientID fd

section Read

variable (io : ReadAnswers) (s : Server) (req : ReadRequest)

theorem read_lost {safe : String} (lost : s.LeaseLost io req safe fd) :
    ∃ found, s.files.lookup fd = some found ∧ (s.read io req).1 = { s with
      openMap := s.openMap.erase ⟨req.clientID, safe⟩
      files := s.files.insert fd { found with clients := found.clients.erase req.clientID } } := by
  obtain ⟨leader, named, mapped, found, client, present, registered, reads, old⟩ := lost
  have allowed : ¬ (client.mode ≠ .read ∧ client.mode ≠ .write ∧ client.mode ≠ .other 2) := by tauto
  refine ⟨found, present, ?_⟩
  unfold read
  simp only [leader, named, mapped, present, registered, if_neg allowed, if_pos old]

theorem read_kept (kept : ∀ safe fd, ¬ s.LeaseLost io req safe fd) :
    (s.read io req).1 = s ∨ ∃ fd found client, s.files.lookup fd = some found ∧
      found.clients.lookup req.clientID = some client ∧ (s.read io req).1 = { s with
        files := s.files.insert fd { found with
          clients := found.clients.insert req.clientID { client with lastSeen := io.now } } } := by
  unfold read
  split
  case h_1 => exact .inl rfl
  case h_2 leader =>
    split
    case h_1 => exact .inl rfl
    case h_2 safe named =>
      dsimp only
      split
      case h_1 => exact .inl rfl
      case h_2 fd mapped =>
        split
        case h_1 => exact .inl rfl
        case h_2 found present =>
          split
          case h_1 => exact .inl rfl
          case h_2 client registered =>
            split_ifs with denied old
            · exact .inl rfl
            · exact absurd ⟨leader, named, mapped, found, client, present, registered, by tauto, old⟩ (kept safe fd)
            · exact .inr ⟨fd, found, client, present, registered, rfl⟩
            · exact .inr ⟨fd, found, client, present, registered, rfl⟩

theorem MapsOpen.admits {s : Server} (maps : s.MapsOpen) : s.AdmitsHolders := by
  intro io req safe leader named
  cases mapped : s.openMap.lookup ⟨req.clientID, safe⟩ with
  | none =>
    have refused : (s.read io req).2.2 = some ⟨.permissionDenied, "file not opened by client"⟩ := by
      unfold read
      simp only [leader, named, mapped]
    refine ⟨fun admitted => absurd refused (admitted _ (by simp [lookupRefusals])), ?_⟩
    rintro ⟨fd, held⟩
    obtain ⟨known, listed⟩ := maps.lookup held
    cases mapped.symm.trans listed
  | some fd =>
    have held := maps.points req.clientID safe fd mapped
    refine ⟨fun _ => ⟨fd, held⟩, fun _ status listed => ?_⟩
    obtain ⟨found, client, present, registered, _⟩ := held
    unfold read streamChunks
    simp only [leader, named, mapped, present, registered]
    unfold lookupRefusals at listed
    split_ifs
    all_goals
      rintro ⟨⟩
      try simp at listed

end Read

theorem Numbered.of_same (numbered : s.Numbered) (count : next.nextFD = s.nextFD)
    (files : next.files = s.files) : next.Numbered := (Steady.of_files count files).numbered numbered

theorem MapsOpen.closed_iff (maps : s.MapsOpen) (numbered : s.Numbered) {call : Call}
    (count : next.nextFD = s.nextFD) (files : next.files = (s.dropClient call).files)
    (openMap : next.openMap = s.openMap) :
    next.Numbered ∧ (next.MapsOpen ↔
      (call.kind = .close → ∀ name, s.openMap.lookup ⟨call.req.clientID, name⟩ ≠ some call.req.fd)) := by
  unfold dropClient at files
  cases kind : call.kind with
  | write =>
    rw [kind] at files
    exact ⟨numbered.of_same count files, iff_of_true (maps.of_same files openMap) (by simp)⟩
  | close =>
    rw [kind] at files
    dsimp only at files
    split at files
    case h_1 missing =>
      refine ⟨numbered.of_same count files, iff_of_true (maps.of_same files openMap) fun _ name known => ?_⟩
      obtain ⟨_, _, present, _⟩ := maps.points _ _ _ known
      cases missing.symm.trans present
    case h_2 found present =>
      refine ⟨numbered.replaced (AList.lookup_isSome.mp (by rw [present]; rfl)) count files, ?_⟩
      rw [maps.dropped_iff present files openMap]
      exact ⟨fun unmapped _ => unmapped, fun unmapped => unmapped rfl⟩

theorem MapsOpen.read_iff (maps : s.MapsOpen) (numbered : s.Numbered) (io : ReadAnswers) (req : ReadRequest) :
    (s.read io req).1.Numbered ∧ ((s.read io req).1.MapsOpen ↔
      ∀ safe fd, s.LeaseLost io req safe fd → ∀ other, s.Holds req.clientID safe other → other = fd) := by
  by_cases lost : ∃ safe fd, s.LeaseLost io req safe fd
  · obtain ⟨safe, fd, lost⟩ := lost
    obtain ⟨found, present, made⟩ := read_lost io s req lost
    rw [made]
    refine ⟨numbered.replaced (AList.lookup_isSome.mp (by rw [present]; rfl)) rfl rfl,
      (maps.expired_iff lost.2.2.1 present rfl rfl).trans ⟨fun only name known other => ?_,
        fun only => only safe fd lost⟩⟩
    obtain ⟨_, named, mapped, _⟩ := lost
    obtain ⟨_, called, listed, _⟩ := other
    rw [named, Option.some.injEq] at called
    subst called
    rw [mapped, Option.some.injEq] at listed
    subst listed
    exact only
  · have kept : ∀ safe fd, ¬ s.LeaseLost io req safe fd := fun safe fd gone => lost ⟨safe, fd, gone⟩
    have vacuous : ∀ safe fd, s.LeaseLost io req safe fd → ∀ other, s.Holds req.clientID safe other → other = fd :=
      fun safe fd gone => absurd gone (kept safe fd)
    rcases read_kept io s req kept with same | ⟨fd, found, client, present, registered, made⟩
    · rw [same]
      exact ⟨numbered, iff_of_true maps vacuous⟩
    · rw [made]
      refine ⟨numbered.replaced (AList.lookup_isSome.mp (by rw [present]; rfl)) rfl rfl,
        iff_of_true (maps.renewed (fun who name target => ?_) rfl) vacuous⟩
      exact registers_renewed (fun filename _ => filename = name) present registered
        { client with lastSeen := io.now } Iff.rfl rfl who target

section Requests

variable (env : Env) (answer : Except Status Response) (sent : List AppendEntriesRequest)

theorem MapsOpen.created (maps : s.MapsOpen) (numbered : s.Numbered) (req : CreateRequest)
    (handled : s.create env req = .returned next answer sent) : next.MapsOpen ∧ next.Numbered := by
  cases handled ▸ s.create_exit env req with
  | dismissed why => exact why.same.1 ▸ ⟨maps, numbered⟩
  | unnamed | barred => exact ⟨maps, numbered⟩
  | failed => exact ⟨maps.of_same rfl rfl, numbered.of_same rfl rfl⟩
  | created _ _ new =>
    obtain ⟨counted, absent⟩ := numbered.grants (create_grants env s _ _ _ new.fresh handled)
    exact ⟨maps.granted absent rfl rfl rfl rfl, counted⟩

theorem MapsOpen.opened (maps : s.MapsOpen) (numbered : s.Numbered) (req : FileRequest)
    (handled : s.openFile env req = .returned next answer sent) : next.MapsOpen ∧ next.Numbered := by
  cases handled ▸ s.openFile_exit env req with
  | dismissed why => exact why.same.1 ▸ ⟨maps, numbered⟩
  | unnamed => exact ⟨maps, numbered⟩
  | failed => exact ⟨maps.of_same rfl rfl, numbered.of_same rfl rfl⟩
  | opened _ _ new =>
    obtain ⟨counted, absent⟩ := numbered.grants (openFile_grants env s _ _ _ req new.fresh handled)
    exact ⟨maps.granted absent rfl rfl rfl rfl, counted⟩

end Requests

end Server

inductive OpenAction where
  | create (env : Env) (req : CreateRequest)
  | openFile (env : Env) (req : FileRequest)
  | close (id : Nat) (now : Time) (req : DataRequest)
  | handler (id : Nat) (action : HandlerStep)
  | read (io : ReadAnswers) (req : ReadRequest)
  | delete (env : Env) (req : DeleteRequest)
  | cleanupLeases (now : Time)

namespace Node

def openStep [LogCodec] (n : Node) : OpenAction → Option Node
  | .create env req => n.step (.create env req)
  | .openFile env req => n.step (.openFile env req)
  | .close id now req => n.step (.begin id .close now req)
  | .handler id action => n.step (.handler id action)
  | .read io req => some { n with server := (n.server.read io req).1 }
  | .delete env req => n.handle (n.server.delete env req)
  | .cleanupLeases now => some { n with server := n.server.cleanupLeases now }

-- A Close ends with a descriptor that the open map does not name for the client, and a lease runs out on the last
-- descriptor of a file, or on all that the client has of it at once.
def Careful (n : Node) : OpenAction → Prop
  | .handler id (.finish _) => ∀ h, n.handlers id = some h → h.call.kind = .close →
      ∀ name, n.server.openMap.lookup ⟨h.call.req.clientID, name⟩ ≠ some h.call.req.fd
  | .read io req => ∀ safe fd, n.server.LeaseLost io req safe fd → ∀ other, n.server.Holds req.clientID safe other →
      other = fd
  | .cleanupLeases now => ∀ who name fd, n.server.Expired now who name fd →
      ∀ other, n.server.Holds who name other → n.server.Expired now who name other
  | _ => True

theorem openStep_maps [LogCodec] {n next : Node} (numbered : n.server.Numbered) (maps : n.server.MapsOpen)
    {action : OpenAction} (stepped : n.openStep action = some next) :
    next.server.Numbered ∧ (next.server.MapsOpen ↔ n.Careful action) := by
  cases action with
  | create env req =>
    obtain ⟨s, answer, sent, handled, rfl⟩ := handle_returned stepped
    obtain ⟨after, counted⟩ := maps.created env answer sent numbered req handled
    exact ⟨counted, iff_of_true after trivial⟩
  | openFile env req =>
    obtain ⟨s, answer, sent, handled, rfl⟩ := handle_returned stepped
    obtain ⟨after, counted⟩ := maps.opened env answer sent numbered req handled
    exact ⟨counted, iff_of_true after trivial⟩
  | close id now req =>
    rcases begin_cases n next id .close now req stepped with rfl | ⟨found, mode, table, _, _, rfl⟩
    · exact ⟨numbered, iff_of_true maps trivial⟩
    · exact ⟨numbered.of_same rfl rfl, iff_of_true (maps.of_same rfl rfl) trivial⟩
  | handler id action =>
    obtain ⟨h, server, stage, here, acted, _, rfl⟩ := handlerStep_cases stepped
    obtain ⟨count, openMap, ⟨quiet, files⟩ | ⟨⟨env, rfl⟩, files⟩⟩ := Handler.step_maps acted
    · refine ⟨numbered.of_same count files, iff_of_true (maps.of_same files openMap) ?_⟩
      cases action with
      | finish env => exact absurd rfl (quiet env)
      | _ => trivial
    · obtain ⟨counted, exactly⟩ := maps.closed_iff numbered count files openMap
      refine ⟨counted, exactly.trans ⟨fun closes other listed => ?_, fun careful => careful h here⟩⟩
      rw [here, Option.some.injEq] at listed
      exact listed ▸ closes
  | read io req =>
    cases stepped
    exact maps.read_iff numbered io req
  | delete env req =>
    obtain ⟨s, answer, sent, handled, rfl⟩ := handle_returned stepped
    obtain ⟨_, _, _, _, rfl, _⟩ := Server.delete_cases handled
    exact ⟨numbered.of_same rfl rfl, iff_of_true (maps.of_same rfl rfl) trivial⟩
  | cleanupLeases now =>
    cases stepped
    exact ⟨Server.cleanupLeases_numbered now numbered, maps.cleaned_iff now⟩

end Node

section Runs

variable [LogCodec]

omit [LogCodec] in
theorem start_mapsOpen (none : s.files = ∅) (unmapped : s.openMap = ∅) : s.MapsOpen := by
  refine .of_points (fun who name fd known => ?_) fun who name fd held => ?_
  · rw [unmapped] at known
    cases known
  · obtain ⟨_, _, present, _⟩ := held
    rw [none] at present
    cases present

theorem Server.open_map_exact_iff (s : Server) (none : s.files = ∅) (unmapped : s.openMap = ∅) (first : s.nextFD = 0)
    (actions : List OpenAction) (final : Node)
    (reached : Transition.run Node.openStep (.start s) actions = some final) :
    Transition.Everywhere Node.openStep (fun n => n.server.MapsOpen ∧ n.server.AdmitsHolders) (.start s) actions ↔
      Transition.Meets Node.openStep Node.Careful (.start s) actions := by
  have maps := start_mapsOpen none unmapped
  refine Transition.everywhere_iff_meets Node.Careful (fun n => n.server.Numbered)
    (fun n action next numbered holds _ stepped => ?_) (fun n action next numbered holds stepped => ?_) _
    (Books.start_kept none first).numbered ⟨maps, maps.admits⟩ actions reached
  · exact (Node.openStep_maps numbered holds.1 stepped).1
  · rw [← (Node.openStep_maps numbered holds.1 stepped).2]
    exact and_iff_left_of_imp fun after => after.admits

end Runs

def Server.fresh (s : Server) (now : Time) : Bool :=
  s.files.entries.all fun file => file.2.clients.entries.all fun client => now - client.2.lastSeen ≤ leaseTimeout

theorem Server.not_registers_old {now : Time} (fresh : s.fresh now = true)
    {fits : String → ClientState → Prop} (old : ∀ name client, fits name client → now - client.lastSeen > leaseTimeout)
    (who : String) (fd : Int32) : ¬ s.Registers fits who fd := by
  rintro ⟨found, client, present, registered, fitting⟩
  unfold Server.fresh at fresh
  simp only [List.all_eq_true, decide_eq_true_eq] at fresh
  have recent := fresh ⟨fd, found⟩ (AList.mem_lookup_iff.mp present) ⟨who, client⟩ (AList.mem_lookup_iff.mp registered)
  exact absurd (old _ _ fitting) (Nat.not_lt.mpr recent)

def Node.careful (n : Node) : OpenAction → Bool
  | .handler id (.finish _) => (n.handlers id).all fun h =>
      n.server.openMap.entries.all fun key => key.2 ≠ h.call.req.fd
  | .read io _ => n.server.fresh io.now
  | .cleanupLeases now => n.server.fresh now
  | _ => true

theorem Node.careful_sound {n : Node} {action : OpenAction} (checked : n.careful action = true) : n.Careful action := by
  cases action with
  | handler id action =>
    cases action with
    | finish env =>
      intro h here _ name known
      unfold Node.careful at checked
      simp only [here, Option.all_some, List.all_eq_true, decide_eq_true_eq] at checked
      exact checked ⟨_, _⟩ (AList.mem_lookup_iff.mp known) rfl
    | _ => trivial
  | read io req =>
    intro safe fd lost
    exact absurd lost.2.2.2 (Server.not_registers_old checked (fun _ _ fits => fits.2) _ _)
  | cleanupLeases now =>
    intro who name fd expired
    exact absurd expired (Server.not_registers_old checked (fun _ _ fits => fits.2) _ _)
  | _ => trivial

def closeOne (fd : Int32) : List OpenAction :=
  [.create {} ⟨"r1", "output/a", "c", .write⟩, .openFile {} ⟨"r2", "output/a", .read, "c"⟩,
    .close 0 0 ⟨"r3", fd, false, 0, [], "c"⟩, .handler 0 (.finish {})]

def readAgain : List OpenAction := [.read ⟨0, true, [], false, 0⟩ ⟨"output/a", "c"⟩, .cleanupLeases 0]

theorem first_descriptor_closed :
    ∃ final, Transition.run Node.openStep (.start firstPrimary) (closeOne 0 ++ readAgain) = some final ∧
      final.server.openMap.lookup ⟨"c", "output/a"⟩ = some 1 ∧
      Transition.Everywhere Node.openStep (fun n => n.server.MapsOpen ∧ n.server.AdmitsHolders) (.start firstPrimary)
        (closeOne 0 ++ readAgain) := by
  have outcome : (Transition.run Node.openStep (.start firstPrimary) (closeOne 0 ++ readAgain)).bind
      (fun n => n.server.openMap.lookup ⟨"c", "output/a"⟩) = some 1 := by decide +kernel
  obtain ⟨final, reached, mapped⟩ := Option.bind_eq_some_iff.mp outcome
  refine ⟨final, reached, mapped, (Server.open_map_exact_iff firstPrimary rfl rfl rfl _ final reached).mpr ?_⟩
  exact Transition.meets_of_check Node.openStep Node.Careful Node.careful
    (fun n action _ checked => Node.careful_sound checked) (by decide +kernel)

-- Close leaves the key in the open map, so that a Read looks for the client where it is no longer registered.
theorem closed_descriptor_still_mapped :
    firstPrimary.role = .primary ∧ firstPrimary.files = ∅ ∧ firstPrimary.openMap = ∅ ∧
      ∃ final, Transition.run Node.openStep (.start firstPrimary) (closeOne 1) = some final ∧
        final.server.openMap.lookup ⟨"c", "output/a"⟩ = some 1 ∧ ¬ final.server.Holds "c" "output/a" 1 ∧
        final.server.Holds "c" "output/a" 0 ∧
        (final.server.read ⟨0, true, [], false, 0⟩ ⟨"output/a", "c"⟩).2.2 =
          some ⟨.permissionDenied, "client not registered"⟩ := by
  have outcome : (Transition.run Node.openStep (.start firstPrimary) (closeOne 1)).map (fun n =>
        (n.server.openMap.lookup ⟨"c", "output/a"⟩,
          (n.server.files.lookup 1).map (fun found => (found.clients.lookup "c").isSome),
          (n.server.files.lookup 0).map (fun found => (found.filename, (found.clients.lookup "c").isSome)),
          (n.server.read ⟨0, true, [], false, 0⟩ ⟨"output/a", "c"⟩).2.2)) =
      some (some 1, some false, some ("output/a", true), some ⟨.permissionDenied, "client not registered"⟩) := by
    decide +kernel
  obtain ⟨final, reached, facts⟩ := Option.map_eq_some_iff.mp outcome
  simp only [Prod.mk.injEq] at facts
  obtain ⟨mapped, dropped, held, refused⟩ := facts
  refine ⟨by decide +kernel, rfl, rfl, final, reached, mapped, ?_, ?_, refused⟩
  · rintro ⟨found, client, present, registered, _⟩
    simp [present, registered] at dropped
  · obtain ⟨found, present, facts⟩ := Option.map_eq_some_iff.mp held
    simp only [Prod.mk.injEq] at facts
    obtain ⟨named, registered⟩ := facts
    obtain ⟨client, listed⟩ := Option.isSome_iff_exists.mp registered
    exact ⟨found, client, present, listed, named⟩

end Ikkat
