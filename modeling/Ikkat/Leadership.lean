import Mathlib.Data.String.Basic
import Ikkat.Shared.Least
import Ikkat.Election

set_option autoImplicit false

namespace Ikkat

def aliveIds (infos : List ServerInfo) : List String :=
  (infos.filter fun info => info.alive).map fun info => info.id

theorem electPrimary_eq (infos : List ServerInfo) :
    electPrimary infos = (aliveIds infos).foldl (Least.keep "") "" := by
  have from_ (leader : String) : infos.foldl (fun leader info =>
      if !info.alive then leader else if leader = "" ∨ info.id < leader then info.id else leader) leader =
        (aliveIds infos).foldl (Least.keep "") leader := by
    induction infos generalizing leader with
    | nil => rfl
    | cons info rest ih =>
      rw [List.foldl_cons, ih]
      cases alive : info.alive with
      | false => simp [aliveIds, alive]
      | true => simp [aliveIds, alive, Least.keep]
  exact from_ ""

theorem electPrimary_least (infos : List ServerInfo) (named : ∀ info ∈ infos, info.id ≠ "") :
    Least.Of "" (aliveIds infos) (electPrimary infos) := by
  have ids : ∀ id ∈ aliveIds infos, id ≠ "" := by
    intro id member
    obtain ⟨info, inside, rfl⟩ := List.mem_map.mp member
    exact named info (List.mem_filter.mp inside).1
  rw [electPrimary_eq]
  exact Least.of_foldl (aliveIds infos) ids (.inl ⟨rfl, rfl⟩)

theorem mem_aliveIds (infos : List ServerInfo) (id : String) :
    id ∈ aliveIds infos ↔ ∃ info ∈ infos, info.alive = true ∧ info.id = id := by
  simp [aliveIds, and_assoc]

-- The range loop meets the entries of the map in some order.
structure Ranged (servers : Map String ServerInfo) (order : List ServerInfo) : Prop where
  perm : order.Perm (servers.entries.map fun item => item.2)

def mark (servers : Map String ServerInfo) (key : String) : Option (String × Bool) :=
  (servers.lookup key).map fun info => (info.id, info.alive)

variable {servers : Map String ServerInfo} {order : List ServerInfo}

theorem Ranged.mem_iff (ranged : Ranged servers order)
    (info : ServerInfo) : info ∈ order ↔ ∃ key, servers.lookup key = some info := by
  rw [ranged.perm.mem_iff, List.mem_map]
  constructor
  · rintro ⟨⟨key, info⟩, member, rfl⟩
    exact ⟨key, AList.mem_lookup_iff.mpr member⟩
  · rintro ⟨key, held⟩
    exact ⟨⟨key, info⟩, AList.mem_lookup_iff.mp held, rfl⟩

theorem Ranged.alive_iff (ranged : Ranged servers order)
    (id : String) : id ∈ aliveIds order ↔ ∃ key, mark servers key = some (id, true) := by
  rw [mem_aliveIds]
  constructor
  · rintro ⟨info, member, alive, rfl⟩
    obtain ⟨key, held⟩ := (ranged.mem_iff info).mp member
    exact ⟨key, by rw [mark, held, Option.map_some, alive]⟩
  · rintro ⟨key, marked⟩
    obtain ⟨info, held, same⟩ := Option.map_eq_some_iff.mp marked
    obtain ⟨rfl, alive⟩ := Prod.mk.inj same
    exact ⟨info, (ranged.mem_iff info).mpr ⟨key, held⟩, alive, rfl⟩

theorem election_range_independent (servers : Map String ServerInfo) (order : List ServerInfo)
    (named : ∀ key id alive, mark servers key = some (id, alive) → id ≠ "") (ranged : Ranged servers order) :
    ((∃ key id, mark servers key = some (id, true)) →
      (∃ key, mark servers key = some (electPrimary order, true)) ∧
        ∀ key id, mark servers key = some (id, true) → electPrimary order ≤ id) ∧
    (electPrimary order = "" ↔ ∀ key id, mark servers key ≠ some (id, true)) ∧
    ∀ (view : Map String ServerInfo) (other : List ServerInfo), Ranged view other →
      (∀ key, mark view key = mark servers key) → electPrimary other = electPrimary order := by
  have ids (view : Map String ServerInfo) (other : List ServerInfo) (ranged : Ranged view other)
      (same : ∀ key, mark view key = mark servers key) : ∀ info ∈ other, info.id ≠ "" := by
    intro info member
    obtain ⟨key, held⟩ := (ranged.mem_iff info).mp member
    exact named key info.id info.alive (by rw [← same, mark, held, Option.map_some])
  have least := electPrimary_least order (ids servers order ranged fun _ => rfl)
  have present : ∀ id ∈ aliveIds order, id ≠ "" := by
    intro id member
    obtain ⟨key, marked⟩ := (ranged.alive_iff id).mp member
    exact named key id true marked
  refine ⟨?_, ?_, ?_⟩
  · rintro ⟨key, id, marked⟩
    have member := (ranged.alive_iff id).mpr ⟨key, marked⟩
    rcases least with ⟨none, _⟩ | ⟨chosen, lower⟩
    · rw [none] at member
      cases member
    · exact ⟨(ranged.alive_iff _).mp chosen,
        fun key id marked => lower id ((ranged.alive_iff id).mpr ⟨key, marked⟩)⟩
  · rw [Least.of_blank_iff present least, List.eq_nil_iff_forall_not_mem]
    constructor
    · exact fun none key id marked => none id ((ranged.alive_iff id).mpr ⟨key, marked⟩)
    · intro none id member
      obtain ⟨key, marked⟩ := (ranged.alive_iff id).mp member
      exact none key id marked
  · intro view other seen same
    refine Least.of_unique (fun id => ?_) (electPrimary_least other (ids view other seen same)) least
    rw [seen.alive_iff, ranged.alive_iff]
    simp only [same]

def startedServers : Map String ServerInfo :=
  ((∅ : Map String ServerInfo).insert "3" ⟨"3", "localhost:5003", 0, true⟩ |>.insert "2"
    ⟨"2", "localhost:5002", 0, true⟩).insert "1" ⟨"1", "localhost:5001", 0, false⟩

theorem election_started :
    electPrimary (startedServers.entries.map fun item => item.2) = "2" ∧
      electPrimary (startedServers.entries.map fun item => item.2).reverse =
        electPrimary (startedServers.entries.map fun item => item.2) := by
  refine ⟨by decide +kernel, ?_⟩
  refine (election_range_independent startedServers (startedServers.entries.map fun item => item.2) ?_ ⟨.refl _⟩).2.2
    startedServers _ ⟨List.reverse_perm _⟩ fun _ => rfl
  intro key id alive marked
  obtain ⟨info, held, same⟩ := Option.map_eq_some_iff.mp marked
  have all : ∀ item ∈ startedServers.entries, item.2.id ≠ "" := by decide +kernel
  have filled := all ⟨key, info⟩ (AList.mem_lookup_iff.mp held)
  rw [Prod.mk.injEq] at same
  exact same.1 ▸ filled

namespace Server

def followed (s : Server) : List String := if s.primaryID = "" then [] else [s.primaryID]

def heartbeats (s : Server) (beats : List (Time × Heartbeat)) : Server :=
  beats.foldl (fun s beat => (s.sendHeartbeat beat.1 beat.2).1) s

def senders (beats : List (Time × Heartbeat)) : List String := beats.map fun beat => beat.2.primaryId

variable (s : Server) (beats : List (Time × Heartbeat)) (now : Time)

theorem seen_named {beats : List (Time × Heartbeat)} (named : "" ∉ senders beats) (id : String)
    (member : id ∈ s.followed ++ senders beats) : id ≠ "" := by
  rcases List.mem_append.mp member with own | sent
  · unfold followed at own
    split_ifs at own with none
    · cases own
    · rw [List.mem_singleton.mp own]
      exact none
  · exact fun none => named (none ▸ sent)

theorem followed_least : Least.Of "" s.followed s.primaryID := by
  unfold followed
  split_ifs with none
  · exact .inl ⟨rfl, none⟩
  · exact .inr (by simp)

@[simp] theorem markAlive_primaryID (req : Heartbeat) : (s.markAlive req).primaryID = s.primaryID := by
  unfold markAlive
  split <;> rfl

theorem markAlive_alive (req : Heartbeat) (id : String) :
    ((s.markAlive req).servers.lookup id).map (fun info => info.alive) =
      if id = req.primaryId then some true else (s.servers.lookup id).map fun info => info.alive := by
  unfold markAlive
  split
  · split_ifs with own
    · rw [own, AList.lookup_insert, Option.map_some]
    · rw [AList.lookup_insert_ne own]
  · split_ifs with own
    · rw [own, AList.lookup_insert, Option.map_some]
    · rw [AList.lookup_insert_ne own]

theorem sendHeartbeat_primaryID (s : Server) (req : Heartbeat) :
    (s.sendHeartbeat now req).1.primaryID = Least.keep "" s.primaryID req.primaryId := by
  unfold sendHeartbeat Least.keep
  dsimp only
  rw [markAlive_primaryID]
  split_ifs with refused kept kept
  · exact (kept.elim refused.1 fun less => lt_asymm less refused.2).elim
  · rw [markAlive_primaryID]
  · rfl
  · -- The id is that of the leader.
    refine le_antisymm (not_lt.mp fun less => refused ⟨fun none => kept (.inl none), less⟩) (not_lt.mp fun less => ?_)
    exact kept (.inr less)

theorem sendHeartbeat_servers (s : Server) (req : Heartbeat) :
    (s.sendHeartbeat now req).1.servers = (s.markAlive req).servers := by
  unfold sendHeartbeat
  dsimp only
  split_ifs <;> rfl

theorem sendHeartbeat_accepted (s : Server) (req : Heartbeat) :
    (s.sendHeartbeat now req).2 = true ↔ ¬ (s.primaryID ≠ "" ∧ s.primaryID < req.primaryId) := by
  unfold sendHeartbeat
  dsimp only
  rw [markAlive_primaryID]
  split_ifs with refused
  · exact iff_of_false not_false (not_not.mpr refused)
  · exact iff_of_true rfl refused

theorem heartbeats_primaryID : (s.heartbeats beats).primaryID = (senders beats).foldl (Least.keep "") s.primaryID := by
  induction beats generalizing s with
  | nil => rfl
  | cons beat rest ih =>
    change (heartbeats _ rest).primaryID = _
    rw [ih, sendHeartbeat_primaryID]
    rfl

theorem heartbeats_alive (id : String) : ((s.heartbeats beats).servers.lookup id).map (fun info => info.alive) =
      if id ∈ senders beats then some true else (s.servers.lookup id).map fun info => info.alive := by
  induction beats generalizing s with
  | nil => rfl
  | cons beat rest ih =>
    change ((heartbeats _ rest).servers.lookup id).map _ = _
    rw [ih, sendHeartbeat_servers, markAlive_alive]
    rw [show senders (beat :: rest) = beat.2.primaryId :: senders rest from rfl]
    by_cases later : id ∈ senders rest
    · rw [if_pos later, if_pos (List.mem_cons_of_mem _ later)]
    · by_cases own : id = beat.2.primaryId
      · rw [if_neg later, if_pos own, if_pos (own ▸ List.mem_cons_self)]
      · rw [if_neg later, if_neg own, if_neg (List.not_mem_cons_of_ne_of_not_mem own later)]

theorem heartbeats_least (named : "" ∉ senders beats) :
    Least.Of "" (s.followed ++ senders beats) (s.heartbeats beats).primaryID := by
  rw [heartbeats_primaryID]
  exact Least.of_foldl (senders beats) (s.seen_named named) s.followed_least

theorem heartbeats_converge (s : Server) (beats : List (Time × Heartbeat)) (named : "" ∉ senders beats) :
    Least.Of "" (s.followed ++ senders beats) (s.heartbeats beats).primaryID ∧
    (∀ id ∈ senders beats, ((s.heartbeats beats).servers.lookup id).map (fun info => info.alive) = some true) ∧
    (∀ before now req after, beats = before ++ (now, req) :: after →
      (((s.heartbeats before).sendHeartbeat now req).2 = true ↔
        ∀ id ∈ s.followed ++ senders before, req.primaryId ≤ id)) ∧
    ∀ others : List (Time × Heartbeat), (others.map Prod.snd).Perm (beats.map Prod.snd) →
      (s.heartbeats others).primaryID = (s.heartbeats beats).primaryID ∧
        ∀ id, ((s.heartbeats others).servers.lookup id).map (fun info => info.alive) =
          ((s.heartbeats beats).servers.lookup id).map fun info => info.alive := by
  refine ⟨s.heartbeats_least beats named, ?_, ?_, ?_⟩
  · intro id member
    rw [heartbeats_alive, if_pos member]
  · rintro before now req after rfl
    rw [senders, List.map_append] at named
    have earlier : "" ∉ senders before := fun member => named (List.mem_append_left _ member)
    rw [sendHeartbeat_accepted,
      Least.of_le_iff (s.seen_named earlier) (s.heartbeats_least before earlier)]
  · intro others same
    have sent (id : String) : id ∈ senders others ↔ id ∈ senders beats := by
      have ids := same.map Heartbeat.primaryId
      simp only [List.map_map] at ids
      exact ids.mem_iff
    refine ⟨Least.of_unique (fun id => ?_)
      (s.heartbeats_least others fun none => named ((sent "").mp none)) (s.heartbeats_least beats named), fun id => ?_⟩
    · rw [List.mem_append, List.mem_append, sent]
    · rw [heartbeats_alive, heartbeats_alive]
      simp only [sent]

def threeBeats : List (Time × Heartbeat) := [(5, ⟨"3", 0⟩), (6, ⟨"1", 0⟩), (7, ⟨"0", 0⟩)]

theorem heartbeats_converge_three :
    ((blankServer "2").heartbeats threeBeats).primaryID = "0" ∧
      ((blankServer "2").heartbeats threeBeats.reverse).primaryID = "0" := by
  have ended : ((blankServer "2").heartbeats threeBeats).primaryID = "0" := by decide +kernel
  have same := ((blankServer "2").heartbeats_converge threeBeats (by decide +kernel)).2.2.2 threeBeats.reverse
    ((List.reverse_perm threeBeats).map Prod.snd)
  exact ⟨ended, same.1.trans ended⟩

end Server

end Ikkat
