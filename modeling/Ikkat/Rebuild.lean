import Ikkat.Containment
import Ikkat.FullSync

set_option autoImplicit false

namespace Ikkat

namespace Server

-- A regular file below output/ under the name that Create stores for it, and its bytes. Other spellings that Create
-- takes over as they are (output/a/.) lead to the same file.
structure OutputFile (s : Server) (name : String) (data : Bytes) : Prop where
  normal : normalize name = some name
  below : ∃ first rest, clean name = "output" :: first :: rest
  lasting : hasSuffix ".tmp" name = false ∧ hasSuffix ".meta" name = false
  present : s.tree.find (s.path name) = some (.file data)

def SetsComplete (s : Server) : Prop :=
  ∀ name data, s.OutputFile name data → ∀ call : Call, call.filename = name →
    ∀ number, number ∈ s.primeSet call.primeKey ↔ number ∈ parseNumbers data

theorem rebuildPrimes_other (s : Server) {name key : String} (other : key ≠ name) :
    (s.rebuildPrimes name).filesPrimes.lookup key = s.filesPrimes.lookup key := by
  unfold rebuildPrimes
  split_ifs
  · rfl
  · rfl
  · split
    · rfl
    · exact AList.lookup_insert_ne other

-- ReadDir lists the entries of the root directory only.
theorem rebuildAllPrimeSets_other (s : Server) {key : String} (missed : key ∉ s.tree.names (clean s.rootDir)) :
    s.rebuildAllPrimeSets.primeSet key = s.primeSet key := by
  have all (names : List String) (s : Server) (missed : key ∉ names) :
      (names.foldl rebuildPrimes s).filesPrimes.lookup key = s.filesPrimes.lookup key := by
    induction names generalizing s with
    | nil => rfl
    | cons name rest ih =>
      rw [List.mem_cons, not_or] at missed
      rw [List.foldl_cons, ih _ missed.2, rebuildPrimes_other s missed.1]
  unfold rebuildAllPrimeSets primeSet
  split_ifs
  · rfl
  · split
    · rw [all _ s missed]
    · rfl

end Server

section Keys

variable {name first : String} {rest : Path}

theorem relative_of_below (below : clean name = "output" :: first :: rest) : isAbs name = false := by
  by_contra rooted
  rw [clean, if_pos (by simpa using rooted)] at below
  simp at below

theorem slash_of_parts (more : 2 ≤ (parts name).length) : '/' ∈ name.toList := by
  by_contra noSlash
  rw [parts_single noSlash] at more
  simp at more

theorem slash_of_below (below : clean name = "output" :: first :: rest) : '/' ∈ name.toList := by
  by_contra noSlash
  rw [clean, if_neg (by simp [relative_of_below below]), parts_single noSlash, List.foldl_cons,
    List.foldl_nil] at below
  unfold cleanStep at below
  split_ifs at below <;> simp at below

theorem slash_normalizeQuiet (below : clean name = "output" :: first :: rest) :
    '/' ∈ (normalizeQuiet name).toList := by
  have cleaned := cleaned_clean (relative_of_below below)
  rw [below] at cleaned
  obtain ⟨more, text⟩ := pathText_head cleaned
  have accepted : sanitizePath name = some (pathText (clean name)) := by
    rw [sanitizePath, if_neg (by simp [below, text, isAbs, hasPrefix])]
  have split : parts (pathText (clean name)) = "output" :: first :: rest := by
    rw [below, parts_pathText (by simp) cleaned]
  obtain ⟨middle, last, ends⟩ : ∃ middle last, first :: rest = middle ++ [last] :=
    ⟨_, _, (List.dropLast_append_getLast (List.cons_ne_nil first rest)).symm⟩
  have normalized := parts_normalized (ends ▸ split)
  rw [if_neg (by decide)] at normalized
  rw [normalizeQuiet, accepted]
  exact slash_of_parts (by simp [normalized])

theorem path_of_below (rootDir : String) (below : clean name = "output" :: first :: rest) :
    join rootDir name = clean rootDir ++ "output" :: first :: rest := by
  have relative := relative_of_below below
  have cleaned := cleaned_clean relative
  rw [← below]
  exact join_below rootDir relative (cleaned.front (by simp [below]))

theorem name_of_clean (normal : normalize name = some name) : trimSlash (trimSpace (pathText (clean name))) = name := by
  obtain ⟨safe, accepted, trimmed⟩ := Option.map_eq_some_iff.mp normal
  unfold sanitizePath at accepted
  dsimp only at accepted
  split_ifs at accepted
  rw [Option.some.inj accepted, trimmed]

theorem slash_primeKey (call : Call) (below : clean call.filename = "output" :: first :: rest) :
    '/' ∈ call.primeKey.toList := by
  unfold Call.primeKey
  cases call.kind with
  | close => exact slash_of_below below
  | write => exact slash_normalizeQuiet below

end Keys

theorem rebuilt_sets_complete_iff (s : Server)
    (components : ∀ name ∈ s.tree.names (clean s.rootDir), '/' ∉ name.toList) :
    (s.rebuildAllPrimeSets.SetsComplete ↔ s.SetsComplete) ∧
      ∀ call : Call, (∃ first rest, clean call.filename = "output" :: first :: rest) →
        s.rebuildAllPrimeSets.primeSet call.primeKey = s.primeSet call.primeKey := by
  have kept (call : Call) (inside : ∃ first rest, clean call.filename = "output" :: first :: rest) :
      s.rebuildAllPrimeSets.primeSet call.primeKey = s.primeSet call.primeKey := by
    obtain ⟨first, rest, below⟩ := inside
    exact s.rebuildAllPrimeSets_other fun listed => components _ listed (slash_primeKey call below)
  have files (name : String) (data : Bytes) : s.rebuildAllPrimeSets.OutputFile name data ↔ s.OutputFile name data := by
    obtain ⟨filesPrimes, same⟩ := s.rebuildAllPrimeSets_eq
    rw [same]
    exact ⟨fun ⟨normal, below, lasting, present⟩ => ⟨normal, below, lasting, present⟩,
      fun ⟨normal, below, lasting, present⟩ => ⟨normal, below, lasting, present⟩⟩
  refine ⟨?_, kept⟩
  constructor
  · intro complete name data file call named number
    rw [← kept call (named ▸ file.below)]
    exact complete name data ((files name data).mpr file) call named number
  · intro complete name data file call named number
    have before := (files name data).mp file
    rw [kept call (named ▸ before.below)]
    exact complete name data before call named number

-- A Write has left the number 3 in the file, twice, and in the set; the other file is the version of output/a.
theorem written_file_rebuilt : firstWritten.role = .primary ∧ firstWritten.OutputFile "output/a" [51, 10, 51, 10] ∧
    3 ∈ firstWritten.rebuildAllPrimeSets.primeSet "output/a" ∧ firstWritten.rebuildAllPrimeSets.SetsComplete := by
  have facts : firstWritten.role = .primary ∧
      firstWritten.tree.find (firstWritten.path "output/a") = some (.file [51, 10, 51, 10]) ∧
      (∀ name ∈ firstWritten.tree.names (clean firstWritten.rootDir), '/' ∉ name.toList) ∧
      firstWritten.rootDir = "storage" ∧ (firstWritten.primeSet "output/a").elems = [3] ∧
      ∀ item ∈ firstWritten.tree.nodes.entries, item.2 = .dir ∨ item.1 = ["storage", "output", "a.meta"] ∨
        item.1 = ["storage", "output", "a"] ∧ item.2 = .file [51, 10, 51, 10] := by decide +kernel
  obtain ⟨primary, present, components, root, kept, all⟩ := facts
  have members (number : UInt64) : number ∈ firstWritten.primeSet "output/a" ↔ number = 3 := by
    change number ∈ (firstWritten.primeSet "output/a").elems ↔ _
    rw [kept, List.mem_singleton]
  have numbers : parseNumbers [51, 10, 51, 10] = [3, 3] := by decide +kernel
  have file : firstWritten.OutputFile "output/a" [51, 10, 51, 10] :=
    ⟨by decide, ⟨"a", [], by decide⟩, by decide, present⟩
  obtain ⟨complete, same⟩ := rebuilt_sets_complete_iff firstWritten components
  refine ⟨primary, file, ?_, complete.mpr ?_⟩
  · have after := same ⟨.close, ⟨"r3", 0, true, 1, [], "c"⟩, "output/a", .write⟩ ⟨"a", [], by decide⟩
    rw [show firstWritten.rebuildAllPrimeSets.primeSet "output/a" = firstWritten.primeSet "output/a" from after]
    exact (members 3).mpr rfl
  · intro name data listed call named number
    obtain ⟨first, rest, below⟩ := listed.below
    have place : firstWritten.path name = "storage" :: "output" :: first :: rest := by
      rw [Server.path, path_of_below _ below, root]
      rfl
    have entry : firstWritten.tree.nodes.lookup (firstWritten.path name) = some (.file data) := by
      have found := listed.present
      rwa [FileTree.Tree.find, FileTree.find, if_neg (by simp [place])] at found
    rcases all _ (AList.mem_lookup_iff.mp entry) with dir | version | ⟨here, bytes⟩
    · cases dir
    · have text := name_of_clean listed.normal
      have only : first :: rest = ["a.meta"] := by simpa [place] using version
      rw [below, only] at text
      have lasting := listed.lasting.2
      rw [← text] at lasting
      exact absurd lasting (by decide)
    · have text := name_of_clean listed.normal
      have only : first :: rest = ["a"] := by simpa [place] using here
      rw [below, only] at text
      have plain : name = "output/a" := text.symm.trans (by decide)
      have key : call.primeKey = "output/a" := by
        rw [Call.primeKey, named, plain]
        cases call.kind <;> decide
      obtain rfl : data = [51, 10, 51, 10] := FileTree.Node.file.inj bytes
      rw [key, members, numbers]
      simp

def startedOver : Server :=
  (newServer "1" "storage" mainServers
    (applyTree .ok "storage" ⟨1, "WRITE", "output/a", [50, 10], 1⟩ .empty) []).startServer (fun _ => .ok) 0 "5001"

theorem output_file_not_rebuilt : startedOver.role = .primary ∧ startedOver.OutputFile "output/a" [50, 10] ∧
    parseNumbers [50, 10] = [2] ∧ 2 ∉ startedOver.rebuildAllPrimeSets.primeSet "output/a" ∧
    ¬ startedOver.rebuildAllPrimeSets.SetsComplete := by
  have file : startedOver.OutputFile "output/a" [50, 10] :=
    ⟨by decide, ⟨"a", [], by decide⟩, by decide, by decide +kernel⟩
  have numbers : parseNumbers [50, 10] = [2] := by decide +kernel
  have missing : 2 ∉ startedOver.rebuildAllPrimeSets.primeSet "output/a" := by
    have none_kept : (startedOver.rebuildAllPrimeSets.primeSet "output/a").elems = [] := by decide +kernel
    intro inside
    have absurdity : 2 ∈ (startedOver.rebuildAllPrimeSets.primeSet "output/a").elems := inside
    simp [none_kept] at absurdity
  refine ⟨by decide +kernel, file, numbers, missing, fun complete => missing ?_⟩
  have listed := complete "output/a" [50, 10] ⟨file.normal, file.below, file.lasting, by decide +kernel⟩
    ⟨.close, ⟨"r2", 0, true, 0, [], "c"⟩, "output/a", .write⟩ rfl 2
  exact listed.mpr (by simp [numbers])

end Ikkat
