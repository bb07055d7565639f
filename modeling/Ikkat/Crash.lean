import Ikkat.Applied
import Ikkat.Mirror

set_option autoImplicit false

namespace Ikkat

theorem crash_shows_last_logged [LogCodec] (n final : Node) (mirrored : n.server.Mirrored) (actions : List LifeAction)
    (mirroring : Transition.Meets Node.live Mirroring n actions)
    (reached : Transition.run Node.live n actions = some final)
    (apart : NonNested final.server.rootDir final.server.log)
    (succeed : WritesSucceed final.server.rootDir final.server.log final.server.tree) (config : Map String ServerInfo)
    (now : Time) (port name : String) :
    (final.server.restarted config (fun _ => .ok) now port).bytes name =
      ((lastWrite final.server.rootDir (final.server.path name) final.server.log).map LogEntry.content).or
        (final.server.bytes name) := by
  have kept := Transition.run_invariant Mirroring (fun n => n.server.Mirrored)
    (fun _ _ _ mirrored mirroring => mirrored_live mirrored mirroring) n mirrored actions mirroring reached
  generalize final.server = s at kept apart succeed
  obtain ⟨_, _, _, same⟩ := (newServer s.id s.rootDir config s.tree s.logFile).startServer_eq (fun _ => .ok) now port
  have replays (content : Bytes) : (s.restarted config (fun _ => .ok) now port).bytes name = some content ↔
      replayed s.rootDir s.log s.tree (s.path name) = some (.file content) := by
    rw [← find_applyAll 0 _ apart succeed, ← kept.recorded, Server.restarted, same, Server.bytes_eq]
    exact Server.makeDirs_sameFiles _ _ _
  ext content
  rw [replays, replayed]
  cases last : lastWrite s.rootDir (s.path name) s.log with
  | some entry => simp
  | none =>
    rw [Option.map_none, Option.none_or, Server.bytes_eq]
    dsimp only
    split_ifs with above
    · -- Where a write has made a directory there was no file.
      obtain ⟨entry, member, isWrite, runs⟩ := above
      simp [((writesSucceed_iff apart).mp succeed entry member isWrite).above _ runs content]
    · rfl

theorem crash_shows_uncommitted : ∃ final, Transition.run Node.live (.start (blankServer "2"))
      [.act (.appendEntries {} (sendAppendEntry "1" firstEntry 0))] = some final ∧ final.server.commitIndex = 0 ∧
    (final.server.restarted mainServers (fun _ => .ok) 0 "5002").bytes "output/a" = some firstEntry.content := by
  have shown := crash_shows_last_logged (.start (blankServer "2")) _ ⟨rfl, nofun⟩
    [.act (.appendEntries {} (sendAppendEntry "1" firstEntry 0))] ⟨⟨fun _ => rfl, by decide +kernel⟩, fun _ _ => trivial⟩ rfl
    (by unfold NonNested; decide +kernel) ⟨fun _ => Option.isSome_iff_exists.mp (by decide +kernel), trivial⟩ mainServers 0
    "5002" "output/a"
  exact ⟨_, rfl, rfl, shown.trans (by decide +kernel)⟩

end Ikkat
