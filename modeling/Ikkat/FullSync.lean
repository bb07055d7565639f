import Ikkat.Commits
import Ikkat.Election

set_option autoImplicit false

namespace Ikkat

variable {s next : Server}

namespace Server

def knows (s : Server) (filename : String) : Bool :=
  (s.table.lookup filename).any fun entry => (s.files.lookup entry.fd).isSome

theorem getOrCreateFileMeta_known {filename : String} (known : s.knows filename = true) :
    (s.getOrCreateFileMeta filename).1 = s := by
  unfold knows at known
  unfold getOrCreateFileMeta
  cases present : s.table.lookup filename with
  | none =>
    rw [present] at known
    cases known
  | some entry =>
    rw [present, Option.any_some] at known
    simp [known]

theorem getOrCreateFileMeta_unknown {filename : String} (unknown : s.knows filename = false) :
    s.getOrCreateFileMeta filename =
      ({ s with
        nextFD := s.nextFD + 1
        tree := (osCreate s.tree (s.path filename)).getD s.tree
        files := s.files.insert s.nextFD { file := s.path filename, filename := filename, version := 0, clients := ∅ }
        table := s.table.insert filename { fd := s.nextFD, cond := false, version := 0 } }, s.nextFD) := by
  unfold knows at unknown
  unfold getOrCreateFileMeta
  cases present : s.table.lookup filename with
  | none => rfl
  | some entry =>
    rw [present, Option.any_some] at unknown
    simp [unknown]

theorem setMetaVersion_open (s : Server) (fd version key : Int32) :
    ((s.setMetaVersion fd version).files.lookup key).isSome = (s.files.lookup key).isSome := by
  unfold setMetaVersion
  split
  case h_1 => rfl
  case h_2 found present =>
    by_cases same : key = fd
    · subst same
      rw [AList.lookup_insert, present]
      rfl
    · rw [AList.lookup_insert_ne same]

theorem osWriteFile_written {outcome : Outcome} {tree : Tree} {path : Path} (target : Path) {data : Bytes}
    (written : (osWriteFile outcome tree path data).2 = true) :
    (osWriteFile outcome tree path data).1.find target = if target = path then some (.file data) else tree.find target := by
  unfold osWriteFile at written ⊢
  split at written
  · cases written
  · split at written
    case h_1 next made => exact FileTree.Tree.find_writeFile target made
    case h_2 => cases written
  · cases written

section Files

variable (disk : DiskIO)

variable (position : Nat)

end Files

end Server

def firstWritten : Server :=
  match firstOpened.write {} ⟨"r2", 0, true, 0, [51, 10], "c"⟩ with
  | .returned s _ _ => s
  | _ => firstOpened

end Ikkat
