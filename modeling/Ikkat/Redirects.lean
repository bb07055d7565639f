import Mathlib.Data.List.Infix
import Ikkat.Client
import Ikkat.Answers

set_option autoImplicit false

namespace Ikkat

variable {safe : String}

-- strings.Contains with "not leader".
def Mentions (text : List Char) : Prop := "not leader".toList <:+: text

instance (text : List Char) : Decidable (Mentions text) := inferInstanceAs (Decidable (_ <:+: _))

theorem mentions_iff (text : List Char) :
    (text.tails.any fun tail => "not leader".toList.isPrefixOf tail) = true ↔ Mentions text := by
  rw [List.any_eq_true, Mentions, List.infix_iff_prefix_suffix]
  constructor
  · rintro ⟨tail, inside, starts⟩
    exact ⟨tail, List.isPrefixOf_iff_prefix.mp starts, (List.mem_tails tail text).mp inside⟩
  · rintro ⟨tail, starts, ends⟩
    exact ⟨tail, (List.mem_tails tail text).mpr ends, List.isPrefixOf_iff_prefix.mpr starts⟩

-- No mention starts inside the header, whatever follows it.
def Blind (header : List Char) : Prop :=
  ∀ tail ∈ header.tails, tail = [] ∨ ¬ (tail <+: "not leader".toList ∨ "not leader".toList <+: tail)

instance (header : List Char) : Decidable (Blind header) := inferInstanceAs (Decidable (∀ _ ∈ _, _))

theorem mentions_append (header text : List Char) (blind : Blind header) :
    Mentions (header ++ text) ↔ Mentions text := by
  induction header with
  | nil => rw [List.nil_append]
  | cons c header ih =>
    have later : Blind header := fun tail inside => blind tail (by simp [inside])
    rw [List.cons_append, Mentions, List.infix_cons_iff]
    refine ⟨fun mentions => mentions.elim (fun starts => ?_) (ih later).mp, fun mentions => .inr ((ih later).mpr mentions)⟩
    have whole : c :: header <+: c :: (header ++ text) := List.prefix_append (c :: header) text
    have either := List.prefix_or_prefix_of_prefix starts whole
    exact absurd either.symm ((blind (c :: header) (by simp)).resolve_left (by simp))

theorem mentions_colon (front rest : List Char) :
    Mentions (front ++ ':' :: rest) ↔ Mentions front ∨ Mentions rest := by
  -- "not leader" has no colon, so no mention reaches over this one.
  have across (tail : List Char) : "not leader".toList <+: tail ++ ':' :: rest ↔ "not leader".toList <+: tail := by
    refine ⟨fun starts => ?_, fun starts => starts.trans (List.prefix_append ..)⟩
    rcases List.prefix_or_prefix_of_prefix starts (List.prefix_append tail (':' :: rest)) with inside | beyond
    · exact inside
    · obtain ⟨more, same⟩ := beyond
      obtain ⟨last, whole⟩ := starts
      cases more with
      | nil => exact ⟨[], by rw [← same, List.append_nil, List.append_nil]⟩
      | cons c more =>
        rw [← same, List.append_assoc, List.append_cancel_left_eq, List.cons_append] at whole
        obtain ⟨rfl, -⟩ := List.cons.inj whole
        exact absurd (same ▸ List.mem_append_right tail (List.mem_cons_self ..)) (by decide : ':' ∉ "not leader".toList)
  induction front with
  | nil =>
    have short : ¬ Mentions [] := by decide
    rw [List.nil_append, Mentions, List.infix_cons_iff]
    refine ⟨fun mentions => .inr (mentions.resolve_left fun starts => ?_),
      fun mentions => .inr (mentions.resolve_left short)⟩
    exact absurd ((across []).mp starts) (by decide)
  | cons c front ih =>
    rw [List.cons_append, Mentions, List.infix_cons_iff, Mentions, List.infix_cons_iff, or_assoc, ← List.cons_append,
      across (c :: front)]
    exact or_congr_right ih

-- os.PathError and its Error method.
structure PathError where
  op : String
  path : String
  err : String

def PathError.text (e : PathError) : String := e.op ++ " " ++ e.path ++ ": " ++ e.err

def PathError.Plain (e : PathError) : Prop := Blind (e.op ++ " ").toList ∧ ¬ Mentions e.err.toList

instance (e : PathError) : Decidable e.Plain := inferInstanceAs (Decidable (_ ∧ _))

theorem PathError.mentions_text {e : PathError} (plain : e.Plain) : Mentions e.text.toList ↔ Mentions e.path.toList := by
  have colon : e.text.toList = (e.op ++ " ").toList ++ (e.path.toList ++ ':' :: ' ' :: e.err.toList) := by
    simp [PathError.text]
  have space : Mentions (' ' :: e.err.toList) ↔ Mentions e.err.toList := mentions_append [' '] _ (by decide)
  rw [colon, mentions_append _ _ plain.1, mentions_colon]
  exact or_iff_left (mt space.mp plain.2)

theorem splitColon_ne_nil (text : List Char) : splitColon text ≠ [] := by
  fun_induction splitColon text with
  | case1 | case2 | case3 | case4 => simp

theorem splitColon_cons (c : Char) (tail : List Char) (other : ∀ rest, c = ':' → tail ≠ ' ' :: rest) :
    splitColon (c :: tail) = (splitColon tail).modifyHead (List.cons c) := by
  rw [splitColon]
  · split
    case h_1 none => exact absurd none (splitColon_ne_nil tail)
    case h_2 first more split => rw [split, List.modifyHead_cons]
  · exact other

theorem splitColon_append (front rest : List Char) :
    splitColon (front ++ ':' :: ' ' :: rest) = splitColon front ++ splitColon rest := by
  fun_induction splitColon front with
  | case1 => rfl
  | case2 tail ih => rw [List.cons_append, List.cons_append, splitColon, ih, List.cons_append]
  | case3 c tail other none ih => exact absurd none (splitColon_ne_nil tail)
  | case4 c tail other first more split ih =>
    rw [List.cons_append, splitColon_cons, ih, split]
    · rfl
    · -- A separator at `c` would be one in front of the seam.
      rintro after rfl same
      cases tail with
      | nil => simp at same
      | cons next tail =>
        obtain ⟨rfl, -⟩ := List.cons.inj same
        exact other tail rfl rfl

theorem splitColon_plain (text : List Char) (plain : ¬ [':', ' '] <:+: text) : splitColon text = [text] := by
  induction text with
  | nil => rfl
  | cons c tail ih =>
    have later : ¬ [':', ' '] <:+: tail := fun inside => plain (List.infix_cons inside)
    rw [splitColon_cons, ih later, List.modifyHead_cons]
    rintro rest rfl rfl
    exact plain ⟨[], rest, rfl⟩

def Code.header (code : Code) : List Char := ("rpc error: code = " ++ code.text ++ " desc = ").toList

theorem header_blind (code : Code) : Blind code.header := by
  cases code <;> decide +kernel

theorem extractLeaderAddr_status (code : Code) (message : String) :
    extractLeaderAddr (.status ⟨code, message⟩) =
      if Mentions message.toList then (splitColon (code.header ++ message.toList)).getLast?.map String.ofList
      else none := by
  have text : (Failure.text (.status ⟨code, message⟩)).toList = code.header ++ message.toList := by
    exact String.toList_append
  have parts : ¬ (splitColon (code.header ++ message.toList)).length < 2 := by
    have seam : code.header ++ message.toList =
        "rpc error".toList ++ ':' :: ' ' :: (("code = " ++ code.text ++ " desc = ").toList ++ message.toList) := by
      rw [Code.header, String.toList_append, String.toList_append, String.toList_append, String.toList_append]
      rfl
    have last := splitColon_ne_nil (("code = " ++ code.text ++ " desc = ").toList ++ message.toList)
    have first := splitColon_ne_nil "rpc error".toList
    rw [seam, splitColon_append, List.length_append]
    have := List.length_pos_of_ne_nil last
    have := List.length_pos_of_ne_nil first
    omega
  unfold extractLeaderAddr
  dsimp only
  rw [text, if_neg parts]
  by_cases mentions : Mentions message.toList
  · have found := (mentions_iff _).mpr ((mentions_append _ _ (header_blind code)).mpr mentions)
    rw [if_pos mentions, found]
    rfl
  · have absent := mt (mentions_iff _).mp (mt (mentions_append _ _ (header_blind code)).mp mentions)
    rw [if_neg mentions, Bool.not_eq_true _ |>.mp absent]
    rfl

theorem extractLeaderAddr_leader (code : Code) {address : String} (plain : ¬ ": ".toList <:+: address.toList) :
    extractLeaderAddr (.status ⟨code, "not leader: " ++ address⟩) = some address := by
  have mentions : Mentions ("not leader: " ++ address).toList := by
    rw [String.toList_append]
    exact ⟨[], ": ".toList ++ address.toList, by simp⟩
  have seam : code.header ++ ("not leader: " ++ address).toList =
      (code.header ++ "not leader".toList) ++ ':' :: ' ' :: address.toList := by
    simp
  rw [extractLeaderAddr_status, if_pos mentions, seam, splitColon_append, splitColon_plain _ plain]
  simp

def ownTexts : List String :=
  ["no leader elected yet", "leader info missing", "invalid path", "only output/", "file exists", "too many open files",
    "cannot delete input files", "cannot delete directory", "file is currently in use by another client",
    "input files are read-only", "input file not found", "output file not found", "file not open",
    "not opened in write mode", "conflict", "log persist failed", "failed to reach majority", "temp open failed",
    "write failed", "file not opened by client", "file metadata missing", "client not registered", "read not allowed",
    "lease expired", "seek failed", "stream send failed", "read failed", "file not found"]

inductive Told (reason : String) : String → Prop where
  | own (text : String) (known : text ∈ ownTexts) : Told reason text
  | bare : Told reason reason
  | introduced (start : String)
      (known : start ∈ ["failed to open tmp file: ", "failed to open destination: ", "copy failed: "]) :
      Told reason (start ++ reason)

theorem own_silent : ∀ text ∈ ownTexts, ¬ Mentions text.toList := by
  decide +kernel

theorem Told.silent {reason text : String} (told : Told reason text) (quiet : ¬ Mentions reason.toList) :
    ¬ Mentions text.toList := by
  cases told with
  | own _ known => exact own_silent text known
  | bare => exact quiet
  | introduced start known =>
    have blind : ∀ start ∈ ["failed to open tmp file: ", "failed to open destination: ", "copy failed: "],
        Blind start.toList := by decide +kernel
    rw [String.toList_append, mentions_append _ _ (blind start known)]
    exact quiet

namespace Server

variable (env : Env) (s next : Server) (status : Status) (sent : List AppendEntriesRequest)

theorem create_told {req : CreateRequest} (leads : s.notLeader = none)
    (handled : s.create env req = .returned next (.error status) sent) : Told env.reason status.message := by
  cases handled ▸ s.create_exit env req with
  | dismissed why =>
    cases why with
    | elsewhere _ follower => cases leads.symm.trans follower
  | unnamed | barred => exact .own _ (by decide)
  | failed _ _ _ _ _ _ _ told =>
    rcases told with rfl | rfl | ⟨rfl, _⟩
    · exact .bare
    · exact .own _ (by decide)
    · exact .own _ (by decide)

theorem openFile_told {req : FileRequest} (leads : s.notLeader = none)
    (handled : s.openFile env req = .returned next (.error status) sent) : Told env.reason status.message := by
  cases handled ▸ s.openFile_exit env req with
  | dismissed why =>
    cases why with
    | elsewhere _ follower => cases leads.symm.trans follower
  | unnamed => exact .own _ (by decide)
  | failed _ _ _ _ told => rcases told with rfl | rfl | rfl | ⟨rfl, _⟩ <;> exact .own _ (by decide)

theorem delete_told {req : DeleteRequest} (leads : s.notLeader = none)
    (handled : s.delete env req = .returned next (.error status) sent) : Told env.reason status.message := by
  cases handled ▸ s.delete_exit env req with
  | dismissed why =>
    cases why with
    | elsewhere _ follower => cases leads.symm.trans follower
  | unnamed | input | directory | busy => exact .own _ (by decide)
  | failed => exact .bare

theorem appendUnique_told {filename : String} {unique : List UInt64}
    (failed : (s.appendUnique env filename unique).2 = some status) : Told env.reason status.message := by
  unfold appendUnique at failed
  dsimp only at failed
  split at failed
  case h_1 =>
    cases failed
    exact .own _ (by decide)
  case h_2 =>
    split at failed
    case isTrue =>
      cases failed
      exact .own _ (by decide)
    case isFalse =>
      split at failed
      case isTrue =>
        cases failed
        exact .introduced "failed to open tmp file: " (by decide)
      case isFalse =>
        split at failed
        case h_1 =>
          cases failed
          exact .introduced "failed to open destination: " (by decide)
        case h_2 =>
          split at failed
          case isTrue =>
            cases failed
            exact .introduced "copy failed: " (by decide)
          case isFalse => split_ifs at failed

theorem refusal_told {call : Call} (refused : s.refusal call = some status) : Told env.reason status.message := by
  unfold refusal at refused
  split_ifs at refused
  · cases refused
    exact .own _ (by decide)
  · cases refused
    exact .own _ (by decide)

theorem beginCall_told {kind : Kind} {req : DataRequest} (leads : s.notLeader = none)
    (handled : s.beginCall kind env.start req = .ended (.returned next (.error status) sent)) :
    Told env.reason status.message := by
  unfold beginCall refuse at handled
  rw [leads] at handled
  dsimp only at handled
  split at handled
  case h_1 => cases handled
  case h_2 => cases handled
  case h_3 =>
    split at handled
    case h_1 =>
      cases handled
      exact .own _ (by decide)
    case h_2 => split at handled <;> cases handled

section Calls

variable [LogCodec]

theorem commitCall_told {call : Call} (failed : (s.commitCall env call).2.1 = some status) :
    Told env.reason status.message := by
  unfold commitCall updatePrimes at failed
  dsimp only at failed
  split_ifs at failed
  · cases failed
    exact .own _ (by decide)
  · cases failed
    exact .own _ (by decide)
  · split at failed
    · cases failed
    · split at failed
      case h_1 found =>
        cases failed
        exact appendUnique_told env _ status found
      case h_2 => cases failed

theorem handleCall_told {kind : Kind} {req : DataRequest} (leads : s.notLeader = none)
    (handled : s.handleCall kind env req = .returned next (.error status) sent) : Told env.reason status.message := by
  unfold handleCall at handled
  split at handled
  case h_1 result begun =>
    subst handled
    exact beginCall_told env s next status sent leads begun
  case h_2 opened call begun =>
    split_ifs at handled
    · dsimp only at handled
      split at handled
      case h_1 refused =>
        cases handled
        exact refusal_told env _ status refused
      case h_2 =>
        split at handled
        case h_1 failed =>
          cases handled
          exact commitCall_told env _ status failed
        case h_2 => cases handled
    · cases handled

theorem serve_told {rpc : Rpc} (leads : s.notLeader = none)
    (handled : s.serve env rpc = .returned next (.error status) sent) : Told env.reason status.message := by
  cases rpc with
  | create req => exact create_told env s next status sent leads handled
  | openFile req => exact openFile_told env s next status sent leads handled
  | close req | write req => exact handleCall_told env s next status sent leads handled
  | delete req => exact delete_told env s next status sent leads handled

end Calls

theorem read_told {io : ReadAnswers} {req : ReadRequest} {chunks : List Bytes} (leads : s.notLeader = none)
    (handled : s.read io req = (next, chunks, some status)) : status.message ∈ ownTexts := by
  unfold read streamChunks at handled
  rw [leads] at handled
  dsimp only at handled
  repeat' split at handled
  all_goals
    simp only [Prod.mk.injEq, Option.some.injEq, reduceCtorEq, and_false] at handled
    try
      rw [← handled.2.2]
      decide

theorem testAuth_told {filename : String} (leads : s.notLeader = none) (handled : s.testAuth filename = .error status) :
    status.message ∈ ownTexts := by
  unfold testAuth at handled
  rw [leads] at handled
  dsimp only at handled
  split at handled
  case h_1 =>
    cases handled
    decide
  case h_2 =>
    split at handled
    · cases handled
      decide
    · cases handled

theorem getLeader_told (handled : s.getLeader = .error status) : status.message ∈ ownTexts := by
  unfold getLeader at handled
  split_ifs at handled
  · cases handled
    decide
  · split at handled
    · cases handled
      decide
    · cases handled

def redirect (s : Server) : Option String :=
  if s.role = .primary ∨ s.primaryID = "" then none
  else (s.servers.lookup s.primaryID).map fun leader => leader.address

theorem redirect_primary (leads : s.notLeader = none) : s.redirect = none :=
  if_pos (.inl ((notLeader_eq_none s).mp leads))

theorem notLeader_told (refused : s.notLeader = some status) :
    s.redirect = none ∧ status.message ∈ ownTexts ∨
      ∃ address, s.redirect = some address ∧ status.message = "not leader: " ++ address := by
  unfold notLeader at refused
  unfold redirect
  split_ifs at refused with primary unknown
  · cases refused
    exact .inl ⟨if_pos (.inr unknown), by decide⟩
  · rw [if_neg (not_or.mpr ⟨primary, unknown⟩)]
    split at refused
    case h_1 absent =>
      cases refused
      exact .inl ⟨by rw [absent, Option.map_none], by decide⟩
    case h_2 leader found =>
      cases refused
      exact .inr ⟨leader.address, by rw [found, Option.map_some], rfl⟩

theorem serve_notLeader [LogCodec] (rpc : Rpc) (refused : s.notLeader = some status) :
    s.serve env rpc = .returned s (.error status) [] := by
  cases rpc with
  | create req => simp [serve, create, refused]
  | openFile req => simp [serve, openFile, refused]
  | close req => simp [serve, close, handleCall, beginCall, refused]
  | write req => simp [serve, write, handleCall, beginCall, refused]
  | delete req => simp [serve, delete, refused]

end Server

inductive Returns [LogCodec] (env : Env) (s : Server) : Option String → Status → Prop where
  | rpc (rpc : Rpc) (next : Server) (status : Status) (sent : List AppendEntriesRequest)
      (handled : s.serve env rpc = .returned next (.error status) sent) : Returns env s s.redirect status
  | read (io : ReadAnswers) (req : ReadRequest) (next : Server) (chunks : List Bytes) (status : Status)
      (handled : s.read io req = (next, chunks, some status)) : Returns env s s.redirect status
  | testAuth (filename : String) (status : Status) (handled : s.testAuth filename = .error status) :
      Returns env s s.redirect status
  | getLeader (status : Status) (handled : s.getLeader = .error status) : Returns env s none status

theorem Returns.told [LogCodec] {env : Env} {s : Server} {address : Option String} {status : Status}
    (returns : Returns env s address status) : address = none ∧ Told env.reason status.message ∨
      ∃ leader, address = some leader ∧ status.message = "not leader: " ++ leader := by
  have turnedDown (refused : s.notLeader = some status) : s.redirect = none ∧ Told env.reason status.message ∨
      ∃ leader, s.redirect = some leader ∧ status.message = "not leader: " ++ leader :=
    (s.notLeader_told status refused).imp_left fun own => ⟨own.1, .own _ own.2⟩
  cases returns with
  | rpc rpc next status sent handled =>
    cases leads : s.notLeader with
    | none => exact .inl ⟨s.redirect_primary leads, s.serve_told env next status sent leads handled⟩
    | some refused =>
      rw [s.serve_notLeader env refused rpc leads] at handled
      cases handled
      exact turnedDown leads
  | read io req next chunks status handled =>
    cases leads : s.notLeader with
    | none => exact .inl ⟨s.redirect_primary leads, .own _ (s.read_told next status leads handled)⟩
    | some refused =>
      rw [Server.read, leads] at handled
      cases handled
      exact turnedDown leads
  | testAuth filename status handled =>
    cases leads : s.notLeader with
    | none => exact .inl ⟨s.redirect_primary leads, .own _ (s.testAuth_told status leads handled)⟩
    | some refused =>
      rw [Server.testAuth, leads] at handled
      cases handled
      exact turnedDown leads
  | getLeader status handled => exact .inl ⟨rfl, .own _ (s.getLeader_told status handled)⟩

def lonePrimary : Server := { blankServer "1" with role := .primary }

theorem lonePrimary_hands_on [LogCodec] (reason : String) :
    lonePrimary.serve { mkdir := false, reason := reason } (.create ⟨"r", "output/a", "c", .read⟩) =
      .returned (((lonePrimary.getFileEntry "output/a").1.acquireWrite "output/a").releaseWrite "output/a")
        (.error ⟨.unknown, reason⟩) [] := by
  have start : lonePrimary.notLeader = none ∧ lonePrimary.cached "r" 0 = none ∧ normalize "output/a" = some "output/a" ∧
      (hasPrefix "output/" "output/a" || hasPrefix "output\\" "output/a") = true ∧
      (lonePrimary.getFileEntry "output/a").1.canWrite "output/a" = true := by decide +kernel
  unfold Server.serve Server.create
  dsimp only
  rw [start.1]
  dsimp only
  rw [start.2.1, start.2.2.1]
  dsimp only
  rw [start.2.2.2.1, start.2.2.2.2]
  rfl

theorem redirect_decoding_exact_iff [LogCodec] (reason : String) :
    ((∀ (env : Env) (s : Server) (address : Option String) (status : Status), env.reason = reason →
      Returns env s address status → (∀ leader, address = some leader → ¬ ": ".toList <:+: leader.toList) →
      extractLeaderAddr (.status status) = address) ↔ ¬ Mentions reason.toList) ∧
      ∀ error : PathError, error.Plain → reason = error.text → (Mentions reason.toList ↔ Mentions error.path.toList) := by
  refine ⟨?_, fun error plain same => same ▸ error.mentions_text plain⟩
  constructor
  · intro decodes mentions
    have handled := lonePrimary_hands_on reason
    have decoded := decodes { mkdir := false, reason := reason } lonePrimary none ⟨.unknown, reason⟩ rfl
      (.rpc _ _ _ [] handled) (by simp)
    rw [extractLeaderAddr_status, if_pos mentions, Option.map_eq_none_iff, List.getLast?_eq_none_iff] at decoded
    exact splitColon_ne_nil _ decoded
  · rintro quiet env s address ⟨code, message⟩ rfl returns plain
    rcases returns.told with ⟨rfl, told⟩ | ⟨leader, rfl, text⟩
    · rw [extractLeaderAddr_status, if_neg (told.silent quiet)]
    · obtain rfl : message = _ := text
      exact extractLeaderAddr_leader code (plain leader rfl)

def follower : Server := { blankServer "2" with primaryID := "1" }

theorem follower_redirects :
    extractLeaderAddr (.status ⟨.failedPrecondition, "not leader: localhost:5001"⟩) = some "localhost:5001" ∧
      Mentions (PathError.text ⟨"mkdir", "storage/output/not leader", "not a directory"⟩).toList := by
  have handled : follower.testAuth "output/a" = .error ⟨.failedPrecondition, "not leader: localhost:5001"⟩ ∧
      follower.redirect = some "localhost:5001" := by decide +kernel
  have returns : Returns {} follower follower.redirect ⟨.failedPrecondition, "not leader: localhost:5001"⟩ :=
    .testAuth "output/a" _ handled.1
  rw [handled.2] at returns
  refine ⟨(redirect_decoding_exact_iff "input/output error").1.mpr (by decide +kernel) {} follower _ _ rfl returns ?_,
    ((redirect_decoding_exact_iff _).2 ⟨"mkdir", "storage/output/not leader", "not a directory"⟩
      (by decide +kernel) rfl).mpr (by decide +kernel)⟩
  intro leader same
  obtain rfl := Option.some.inj same
  decide +kernel

-- "output/not leader" is a file, and the client asks for a file below it.
theorem file_below_not_leader : ∃ s next sent,
    (firstPrimary.create {} ⟨"r1", "output/not leader", "c", .read⟩).answered = some s ∧ s.redirect = none ∧
    s.create { reason := "mkdir storage/output/not leader: not a directory" } ⟨"r2", "output/not leader/x", "c", .read⟩ =
      .returned next (.error ⟨.unknown, "mkdir storage/output/not leader: not a directory"⟩) sent ∧
    extractLeaderAddr (.status ⟨.unknown, "mkdir storage/output/not leader: not a directory"⟩) =
      some "not a directory" := by
  have outcome : (firstPrimary.create {} ⟨"r1", "output/not leader", "c", .read⟩).answered.map (fun s =>
      (s.redirect, (s.create { reason := "mkdir storage/output/not leader: not a directory" }
        ⟨"r2", "output/not leader/x", "c", .read⟩).refusal.map Prod.snd)) =
      some (none, some ⟨.unknown, "mkdir storage/output/not leader: not a directory"⟩) ∧
      extractLeaderAddr (.status ⟨.unknown, "mkdir storage/output/not leader: not a directory"⟩) =
        some "not a directory" := by decide +kernel
  obtain ⟨s, answered, ends⟩ := Option.map_eq_some_iff.mp outcome.1
  obtain ⟨stays, refused⟩ := Prod.mk.inj ends
  obtain ⟨⟨next, status⟩, refusal, rfl⟩ := Option.map_eq_some_iff.mp refused
  obtain ⟨sent, handled⟩ := Result.refusal_eq refusal
  exact ⟨s, next, sent, answered, stays, handled, outcome.2⟩

end Ikkat
