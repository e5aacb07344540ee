import Ubl.Eventstore.Store
import Ubl.Lib.ExceptLemmas
import Ubl.Lib.Files
import Ubl.Lib.Hex
import Ubl.Lib.Path
import Ubl.Pipeline.AuditChip
import Ubl.Pipeline.Check

/-!
# `transition.rs`: ledger segments leave the disk

One loop checks a segment, archives or deletes it, and only then looks at the next.  A segment that
fails therefore fails after those before it have left: the files are all there again only where nothing
had left, or where the copy that a failed move leaves behind puts one back
(`allOrNothing_iff_holdsWhen`).

Files are named from the base directory.  The moves of the file system are those of `Files`, and each
may fail from outside at every turn (`SegmentIo`).
-/

namespace Ubl.Pipeline

open Eventstore (eqIgnoreAsciiCase)
open Files
open ExceptLemmas

/-! ## What a compaction meets -/

/-- The failures from outside at one turn of the loop. -/
structure SegmentIo where
  metadata : Option String
  read : Option String
  /-- The directories above the target, and how many were made before the failure. -/
  createParent : Option (String × ℕ)
  rename : Option String
  /-- The copy, and what of it stays. -/
  copy : Option (String × Option (List UInt8))
  remove : Option String

structure SegmentTurn where
  segment : SegmentSource
  io : SegmentIo

structure CompactEnv where
  /-- `UBL_LEDGER_BASE_DIR` -/
  ledgerBaseDir : Option String
  /-- The time as `%Y%m%dT%H%M%SZ`. -/
  timestamp : String
  createBase : Option String
  createArchive : Option (String × ℕ)
  sha256 : List UInt8 → List UInt8
  os : OsText

structure CompactFsResult where
  freedBytes : ℕ
  archivedFiles : ℕ
  deletedFiles : ℕ
deriving DecidableEq

/-! ## The compaction -/

def countNonEmptyLines (content : List UInt8) : ℕ :=
  ((content.splitOn 10).filter fun line => !line.isEmpty).length

/-- The names a path goes down by. -/
def segmentRelPath (raw : String) : Except PipelineError Path :=
  if UnixPath.isAbsolute raw then
    .error (.invalidChip ("segment path must be relative: " ++ raw))
  else
    let clean := (UnixPath.components raw).filter fun name => !(name == "" || name == ".")
    if ".." ∈ clean then
      .error (.invalidChip ("segment path contains invalid component: " ++ raw))
    else if clean = [] then .error (.invalidChip "segment path cannot be empty")
    else .ok clean

section Code

variable (env : CompactEnv)

def sha256Hex (bytes : List UInt8) : String := Hex.encode (env.sha256 bytes)

/-- A path as messages show it. -/
def display (rel : Path) : String :=
  UnixPath.join (env.ledgerBaseDir.getD "./data/ledger") ("/".intercalate rel)

/-- The checks of a segment: its path and its bytes. -/
def verifySegment (turn : SegmentTurn) (fs : FileTree) :
    Except PipelineError (Path × List UInt8) := do
  let rel ← segmentRelPath turn.segment.path
  match Files.metadata env.os turn.io.metadata rel fs with
  | .error e =>
    .error (.storageError ("compact segment metadata failed '" ++ display env rel ++ "': " ++ e))
  | .ok .directory =>
    .error (.invalidChip ("compact segment is not a file: " ++ display env rel))
  | .ok (.file content) =>
    match turn.io.read with
    | some e =>
      .error (.storageError ("compact segment read failed '" ++ display env rel ++ "': " ++ e))
    | none =>
      if ¬ eqIgnoreAsciiCase (sha256Hex env content) turn.segment.sha256 then
        .error (.invalidChip ("compact segment sha256 mismatch for '" ++ turn.segment.path ++
          "': expected " ++ turn.segment.sha256 ++ ", got " ++ sha256Hex env content))
      else if countNonEmptyLines content ≠ turn.segment.lines.toNat then
        .error (.invalidChip ("compact segment lines mismatch for '" ++ turn.segment.path ++
          "': expected " ++ toString turn.segment.lines ++ ", got " ++
          toString (countNonEmptyLines content)))
      else .ok (rel, content)

/-- The move of a file: a new path for it, or a copy there and the old one removed. -/
def moveFile (io : SegmentIo) (content : List UInt8) (p q : Path) (fs : FileTree) :
    Except String Unit × FileTree :=
  match Files.rename env.os io.rename content p q fs with
  | (.ok (), fs) => (.ok (), fs)
  | (.error _, fs) =>
    match Files.copy env.os io.copy content q fs with
    | (.error e, fs) => (.error e, fs)
    | (.ok (), fs) => Files.removeFile io.remove p fs

def archiveSegment (io : SegmentIo) (root rel : Path) (content : List UInt8) (fs : FileTree) :
    Except PipelineError Unit × FileTree :=
  let target := root ++ rel
  match Files.createDirAll env.os io.createParent target.dropLast fs with
  | (.error e, fs) =>
    (.error (.storageError ("compact archive parent create failed '" ++
      display env target.dropLast ++ "': " ++ e)), fs)
  | (.ok (), fs) =>
    match moveFile env io content rel target fs with
    | (.error e, fs) =>
      (.error (.storageError ("compact archive move failed '" ++ display env rel ++ "' -> '" ++
        display env target ++ "': " ++ e)), fs)
    | (.ok (), fs) => (.ok (), fs)

def deleteSegment (io : SegmentIo) (rel : Path) (fs : FileTree) :
    Except PipelineError Unit × FileTree :=
  match Files.removeFile io.remove rel fs with
  | (.error e, fs) =>
    (.error (.storageError ("compact delete failed '" ++ display env rel ++ "': " ++ e)), fs)
  | (.ok (), fs) => (.ok (), fs)

/-- What is done to a segment that passed the checks. -/
def dispatchSegment (archiveRoot : Option Path) (io : SegmentIo) (rel : Path)
    (content : List UInt8) (fs : FileTree) : Except PipelineError Unit × FileTree :=
  match archiveRoot with
  | some root => archiveSegment env io root rel content fs
  | none => deleteSegment env io rel fs

/-- `saturating_add` of `u64`. -/
def saturatingAdd (a b : ℕ) : ℕ := min (a + b) (2 ^ 64 - 1)

/-- One more file. -/
def CompactFsResult.count (archiveRoot : Option Path) (content : List UInt8)
    (result : CompactFsResult) : CompactFsResult :=
  match archiveRoot with
  | some _ => ⟨saturatingAdd result.freedBytes content.length, result.archivedFiles + 1,
      result.deletedFiles⟩
  | none => ⟨saturatingAdd result.freedBytes content.length, result.archivedFiles,
      result.deletedFiles + 1⟩

/-- A turn of the loop. -/
def compactSegment (archiveRoot : Option Path) (turn : SegmentTurn) (result : CompactFsResult)
    (fs : FileTree) : Except PipelineError CompactFsResult × FileTree :=
  match verifySegment env turn fs with
  | .error e => (.error e, fs)
  | .ok (rel, content) =>
    match dispatchSegment env archiveRoot turn.io rel content fs with
    | (.error e, fs) => (.error e, fs)
    | (.ok (), fs) => (.ok (result.count archiveRoot content), fs)

def compactSegments (archiveRoot : Option Path) :
    List SegmentTurn → CompactFsResult → FileTree →
      Except PipelineError CompactFsResult × FileTree
  | [], result, fs => (.ok result, fs)
  | turn :: turns, result, fs =>
    match compactSegment env archiveRoot turn result fs with
    | (.error e, fs) => (.error e, fs)
    | (.ok result, fs) => compactSegments archiveRoot turns result fs

def archiveDir : Path := ["archive", env.timestamp]

/-- The base directory, and that of the archive where the mode has one. -/
def prepareDirs (mode : String) (fs : FileTree) : Except PipelineError (Option Path) × FileTree :=
  match env.createBase with
  | some e => (.error (.storageError ("compact base dir create failed: " ++ e)), fs)
  | none =>
    if mode = "archive_then_delete" then
      match Files.createDirAll env.os env.createArchive (archiveDir env) fs with
      | (.error e, fs) => (.error (.storageError ("compact archive dir create failed: " ++ e)), fs)
      | (.ok (), fs) => (.ok (some (archiveDir env)), fs)
    else (.ok none, fs)

def executeFilesystemCompaction (mode : String) (turns : List SegmentTurn) (fs : FileTree) :
    Except PipelineError CompactFsResult × FileTree :=
  match prepareDirs env mode fs with
  | (.error e, fs) => (.error e, fs)
  | (.ok archiveRoot, fs) => compactSegments env archiveRoot turns ⟨0, 0, 0⟩ fs

end Code

/-! ## All or nothing -/

section Claims

variable (env : CompactEnv)

/-- The segment names a file with the checksum and the lines it declares. -/
def Declared (fs : FileTree) (turn : SegmentTurn) (content : List UInt8) : Prop :=
  ∃ rel, segmentRelPath turn.segment.path = .ok rel ∧ fileAt fs rel = some content ∧
    eqIgnoreAsciiCase (sha256Hex env content) turn.segment.sha256 ∧
    countNonEmptyLines content = turn.segment.lines.toNat

/-- The files that the segments name are where they were, with what they held. -/
def Kept (turns : List SegmentTurn) (fs fs' : FileTree) : Prop :=
  ∀ turn ∈ turns, ∀ rel content, segmentRelPath turn.segment.path = .ok rel →
    fileAt fs rel = some content → fileAt fs' rel = some content

def AllOrNothing (mode : String) (turns : List SegmentTurn) (fs : FileTree) : Prop :=
  match executeFilesystemCompaction env mode turns fs with
  | (.error _, fs') => Kept turns fs fs'
  | (.ok result, _) => ∃ contents, List.Forall₂ (Declared env fs) turns contents ∧
      result.freedBytes = (contents.map List.length).sum

/-! ### One turn -/

/-- What the checks ask of a segment, its path and its bytes. -/
structure Checked (fs : FileTree) (turn : SegmentTurn) (rel : Path) (content : List UInt8) :
    Prop where
  path : segmentRelPath turn.segment.path = .ok rel
  file : fileAt fs rel = some content
  metadata : turn.io.metadata = none
  read : turn.io.read = none
  sha256 : eqIgnoreAsciiCase (sha256Hex env content) turn.segment.sha256
  lines : countNonEmptyLines content = turn.segment.lines.toNat

/-- Where a file of the archive can be written. -/
def Writable (io : SegmentIo) (target : Path) (fs : FileTree) : Prop :=
  io.createParent = none ∧ Free fs target.dropLast ∧ ¬ isDirectory fs target

/-- Nothing stops a checked file on its way. -/
def MayLeave (archiveRoot : Option Path) (io : SegmentIo) (rel : Path) (fs : FileTree) : Prop :=
  match archiveRoot with
  | some root => Writable io (root ++ rel) fs ∧
      (io.rename = none ∨ io.copy = none ∧ io.remove = none)
  | none => io.remove = none

/-- A segment that its turn archives or deletes. -/
structure Clear (archiveRoot : Option Path) (fs : FileTree) (turn : SegmentTurn) (rel : Path)
    (content : List UInt8) : Prop where
  checked : Checked env fs turn rel content
  leaves : MayLeave archiveRoot turn.io rel fs

def Stuck (archiveRoot : Option Path) (fs : FileTree) (turn : SegmentTurn) : Prop :=
  ∀ rel content, ¬ Clear env archiveRoot fs turn rel content

/-- The file tree once a segment has left. -/
def taken (archiveRoot : Option Path) (rel : Path) (content : List UInt8) (fs : FileTree) :
    FileTree :=
  match archiveRoot with
  | some root => put (root ++ rel) content (remove rel (mkdirs (root ++ rel).dropLast fs))
  | none => remove rel fs

/-- What stays at the target of a move that fails. -/
def leftCopy (io : SegmentIo) (content : List UInt8) : Option (List UInt8) :=
  match io.rename, io.copy, io.remove with
  | some _, some (_, part), _ => part
  | some _, none, some _ => some content
  | _, _, _ => none

/-- The turn fails and leaves these bytes in the archive. -/
inductive LeavesCopy (archiveRoot : Option Path) (fs : FileTree) (turn : SegmentTurn) :
    Path → List UInt8 → Prop
  | intro {root rel content left} (hroot : archiveRoot = some root)
      (hchecked : Checked env fs turn rel content) (hto : Writable turn.io (root ++ rel) fs)
      (hleft : leftCopy turn.io content = some left) : LeavesCopy archiveRoot fs turn (root ++ rel) left

/-- The files after a turn that fails. -/
def Remains (archiveRoot : Option Path) (fs : FileTree) (turn : SegmentTurn) (fs' : FileTree) :
    Prop :=
  (∃ target left, LeavesCopy env archiveRoot fs turn target left ∧
      fileAt fs' = fileAt (put target left fs)) ∨
    (∀ target left, ¬ LeavesCopy env archiveRoot fs turn target left) ∧ fileAt fs' = fileAt fs

end Claims

section Turn

variable {env : CompactEnv} {archiveRoot : Option Path} {fs : FileTree} {turn : SegmentTurn}
  {rel p : Path} {content : List UInt8}

theorem verifySegment_of_checked (h : Checked env fs turn rel content) :
    verifySegment env turn fs = .ok (rel, content) := by
  have hfile : fs rel = some (.file content) := fileAt_eq_some.mp h.file
  simp [verifySegment, h.path, Files.metadata, h.metadata, hfile, h.read, h.sha256, h.lines]

theorem checked_of_verifySegment (h : verifySegment env turn fs = .ok (rel, content)) :
    Checked env fs turn rel content := by
  obtain ⟨rel', hpath, h⟩ := bind_eq_ok.mp h
  split at h
  · cases h
  · cases h
  · rename_i bytes hmeta
    split at h
    · cases h
    · rename_i hread
      simp only [ite_error_eq_ok, not_not, Except.ok.injEq, Prod.mk.injEq] at h
      obtain ⟨hsha, hlines, rfl, rfl⟩ := h
      unfold Files.metadata at hmeta
      split at hmeta
      · cases hmeta
      · rename_i hnone
        split at hmeta
        · cases hmeta
        · rename_i node hnode
          cases hmeta
          exact ⟨hpath, fileAt_eq_some.mpr hnode, hnone, hread, hsha, hlines⟩

theorem Checked.unique {rel' : Path} {content' : List UInt8} (h : Checked env fs turn rel content)
    (h' : Checked env fs turn rel' content') : rel = rel' ∧ content = content' := by
  obtain rfl : rel = rel' := Except.ok.inj (h.path.symm.trans h'.path)
  exact ⟨rfl, Option.some.inj (h.file.symm.trans h'.file)⟩

theorem LeavesCopy.unique {target target' : Path} {left left' : List UInt8}
    (h : LeavesCopy env archiveRoot fs turn target left)
    (h' : LeavesCopy env archiveRoot fs turn target' left') : target = target' ∧ left = left' := by
  obtain ⟨hroot, hchecked, -, hleft⟩ := h
  obtain ⟨hroot', hchecked', -, hleft'⟩ := h'
  obtain ⟨rfl, rfl⟩ := hchecked.unique hchecked'
  obtain rfl := Option.some.inj (hroot.symm.trans hroot')
  exact ⟨rfl, Option.some.inj (hleft.symm.trans hleft')⟩

theorem fileAt_taken : fileAt (taken archiveRoot rel content fs) p =
    if archiveRoot.map (· ++ rel) = some p then some content
    else if p = rel then none else fileAt fs p := by
  cases archiveRoot with
  | none => simp [taken, fileAt_remove]
  | some root =>
    simp only [taken, fileAt_put, fileAt_remove, fileAt_mkdirs, Option.map_some, Option.some_inj,
      eq_comm]

/-! ### What a turn does -/

section Dispatch

variable {io : SegmentIo} {q : Path}

theorem moveFile_ok (hdir : ¬ isDirectory fs q) (hne : p ≠ q)
    (h : io.rename = none ∨ io.copy = none ∧ io.remove = none) :
    moveFile env io content p q fs = (.ok (), put q content (remove p fs)) := by
  unfold moveFile
  cases hrename : io.rename with
  | none => simp [Files.rename, hdir]
  | some e =>
    obtain ⟨hcopy, hremove⟩ := h.resolve_left (by simp [hrename])
    simp [Files.rename, Files.copy, Files.removeFile, hdir, hcopy, hremove, remove_put_comm hne]

theorem not_prefix_dropLast {root : Path} (hroot : root ≠ []) :
    ¬ root ++ rel <+: (root ++ rel).dropLast := by
  intro hprefix
  have hlength := hprefix.length_le
  have hpos := List.length_pos_iff.mpr hroot
  simp only [List.length_dropLast, List.length_append] at hlength
  omega

theorem archiveSegment_ok {root : Path} (hroot : root ≠ [])
    (h : MayLeave (some root) io rel fs) :
    archiveSegment env io root rel content fs = (.ok (), taken (some root) rel content fs) := by
  obtain ⟨⟨hparent, hfree, hdir⟩, hmove⟩ := h
  have hdir' : ¬ isDirectory (mkdirs (root ++ rel).dropLast fs) (root ++ rel) := by
    rwa [isDirectory_mkdirs (not_prefix_dropLast hroot)]
  have hne : rel ≠ root ++ rel := fun heq => hroot (List.self_eq_append_left.mp heq)
  simp only [archiveSegment, hparent, createDirAll_of_free hfree, moveFile_ok hdir' hne hmove,
    taken]

/-- A move that fails; where its target can be written, only the copy tells that it was tried. -/
theorem moveFile_error (env : CompactEnv) (content : List UInt8) (p : Path)
    (hdir : ¬ isDirectory fs q)
    (h : ¬ (io.rename = none ∨ io.copy = none ∧ io.remove = none)) :
    ∃ e, moveFile env io content p q fs =
      (.error e, ((leftCopy io content).map fun left => put q left fs).getD fs) := by
  unfold moveFile leftCopy
  cases hrename : io.rename with
  | none => exact absurd (.inl hrename) h
  | some e =>
    cases hcopy : io.copy with
    | some fault =>
      obtain ⟨e', part⟩ := fault
      cases part <;> exact ⟨e', by simp [Files.rename, Files.copy, hdir]⟩
    | none =>
      cases hremove : io.remove with
      | none => exact absurd (.inr ⟨hcopy, hremove⟩) h
      | some e' => exact ⟨e', by simp [Files.rename, Files.copy, Files.removeFile, hdir]⟩

theorem moveFile_error_of_isDirectory (env : CompactEnv) (io : SegmentIo) (content : List UInt8)
    (p : Path) (hdir : isDirectory fs q) :
    ∃ e, moveFile env io content p q fs = (.error e, fs) := by
  unfold moveFile Files.rename Files.copy
  cases io.rename <;> simp [hdir]

end Dispatch

theorem not_leavesCopy {root : Path} {target : Path} {left : List UInt8}
    (hchecked : Checked env fs turn rel content)
    (h : ¬ (Writable turn.io (root ++ rel) fs ∧ leftCopy turn.io content ≠ none)) :
    ¬ LeavesCopy env (some root) fs turn target left := by
  rintro ⟨hroot, hchecked', hto, hleft⟩
  obtain ⟨rfl, rfl⟩ := hchecked.unique hchecked'
  obtain rfl := Option.some.inj hroot
  exact h ⟨hto, by simp [hleft]⟩

theorem archiveSegment_error {root : Path} (hroot : root ≠ [])
    (hchecked : Checked env fs turn rel content) (h : ¬ MayLeave (some root) turn.io rel fs) :
    ∃ e fs', archiveSegment env turn.io root rel content fs = (.error e, fs') ∧
      Remains env (some root) fs turn fs' := by
  by_cases hparent : turn.io.createParent = none ∧ Free fs (root ++ rel).dropLast
  · obtain ⟨hcreate, hfree⟩ := hparent
    simp only [archiveSegment, hcreate, createDirAll_of_free hfree]
    have hdirs : isDirectory (mkdirs (root ++ rel).dropLast fs) (root ++ rel) =
        isDirectory fs (root ++ rel) := isDirectory_mkdirs (not_prefix_dropLast hroot)
    by_cases hdir : isDirectory fs (root ++ rel)
    · obtain ⟨e, hmove⟩ := moveFile_error_of_isDirectory env turn.io content rel
        (hdirs.trans hdir)
      rw [hmove]
      exact ⟨_, _, rfl, .inr ⟨fun _ _ => not_leavesCopy hchecked fun hto => hto.1.2.2 hdir,
        fileAt_mkdirs _ fs⟩⟩
    · have hto : Writable turn.io (root ++ rel) fs := ⟨hcreate, hfree, hdir⟩
      obtain ⟨e, hmove⟩ := moveFile_error env content rel
        (hdirs ▸ hdir) fun hmove => h ⟨hto, hmove⟩
      rw [hmove]
      refine ⟨_, _, rfl, ?_⟩
      cases hleft : leftCopy turn.io content with
      | some left =>
        refine .inl ⟨_, left, ⟨rfl, hchecked, hto, hleft⟩, ?_⟩
        funext p
        simp [fileAt_put]
      | none =>
        exact .inr ⟨fun _ _ => not_leavesCopy hchecked fun hto => hto.2 hleft, fileAt_mkdirs _ fs⟩
  · obtain ⟨e, fs', herror, hfiles⟩ := createDirAll_error env.os hparent
    simp only [archiveSegment, herror]
    exact ⟨_, fs', rfl, .inr ⟨fun _ _ => not_leavesCopy hchecked fun hto =>
      hparent ⟨hto.1.1, hto.1.2.1⟩, hfiles⟩⟩

theorem dispatchSegment_ok (hroot : archiveRoot ≠ some []) (h : MayLeave archiveRoot turn.io rel fs) :
    dispatchSegment env archiveRoot turn.io rel content fs =
      (.ok (), taken archiveRoot rel content fs) := by
  cases archiveRoot with
  | some root => exact archiveSegment_ok (fun hnil => hroot (congrArg some hnil)) h
  | none =>
    have hremove : turn.io.remove = none := h
    simp [dispatchSegment, deleteSegment, Files.removeFile, hremove, taken]

theorem dispatchSegment_error (hroot : archiveRoot ≠ some [])
    (hchecked : Checked env fs turn rel content) (h : ¬ MayLeave archiveRoot turn.io rel fs) :
    ∃ e fs', dispatchSegment env archiveRoot turn.io rel content fs = (.error e, fs') ∧
      Remains env archiveRoot fs turn fs' := by
  cases archiveRoot with
  | some root => exact archiveSegment_error (fun hnil => hroot (congrArg some hnil)) hchecked h
  | none =>
    obtain ⟨e, hremove⟩ := Option.ne_none_iff_exists'.mp h
    simp only [dispatchSegment, deleteSegment, Files.removeFile, hremove]
    refine ⟨_, fs, rfl, .inr ⟨?_, rfl⟩⟩
    rintro target left ⟨hnone⟩
    cases hnone

theorem compactSegment_of_clear (hroot : archiveRoot ≠ some [])
    (h : Clear env archiveRoot fs turn rel content) (result : CompactFsResult) :
    compactSegment env archiveRoot turn result fs =
      (.ok (result.count archiveRoot content), taken archiveRoot rel content fs) := by
  simp only [compactSegment, verifySegment_of_checked h.checked,
    dispatchSegment_ok hroot h.leaves]

theorem compactSegment_of_stuck (hroot : archiveRoot ≠ some []) (h : Stuck env archiveRoot fs turn)
    (result : CompactFsResult) :
    ∃ e fs', compactSegment env archiveRoot turn result fs = (.error e, fs') ∧
      Remains env archiveRoot fs turn fs' := by
  unfold compactSegment
  cases hverify : verifySegment env turn fs with
  | error e =>
    refine ⟨e, fs, rfl, .inr ⟨?_, rfl⟩⟩
    rintro target left ⟨-, hchecked⟩
    rw [verifySegment_of_checked hchecked] at hverify
    cases hverify
  | ok checked =>
    obtain ⟨rel, content⟩ := checked
    have hchecked := checked_of_verifySegment hverify
    obtain ⟨e, fs', herror, hremains⟩ := dispatchSegment_error hroot hchecked
      fun hleaves => h rel content ⟨hchecked, hleaves⟩
    exact ⟨e, fs', by simp only [herror], hremains⟩

theorem LeavesCopy.stuck {target : Path} {left : List UInt8}
    (h : LeavesCopy env archiveRoot fs turn target left) : Stuck env archiveRoot fs turn := by
  obtain ⟨rfl, hchecked, -, hleft⟩ := h
  rintro rel' content' ⟨hchecked', -, hmove⟩
  unfold leftCopy at hleft
  rcases hmove with hrename | ⟨hcopy, hremove⟩
  · simp [hrename] at hleft
  · simp [hcopy, hremove] at hleft

end Turn

/-! ### A run -/

/-- Every segment has left at its turn. -/
inductive Cleared (env : CompactEnv) (archiveRoot : Option Path) :
    FileTree → List SegmentTurn → List (List UInt8) → FileTree → Prop
  | nil (fs : FileTree) : Cleared env archiveRoot fs [] [] fs
  | cons {fs fs' turn turns rel content contents} (h : Clear env archiveRoot fs turn rel content)
      (hrest : Cleared env archiveRoot (taken archiveRoot rel content fs) turns contents fs') :
      Cleared env archiveRoot fs (turn :: turns) (content :: contents) fs'

section Run

variable {env : CompactEnv} {archiveRoot : Option Path} {fs fs' : FileTree} {turn : SegmentTurn}
  {turns done rest : List SegmentTurn} {contents : List (List UInt8)}

theorem cleared_or_stuck (env : CompactEnv) (archiveRoot : Option Path) (turns : List SegmentTurn)
    (fs : FileTree) :
    (∃ contents fs', Cleared env archiveRoot fs turns contents fs') ∨
      ∃ done turn rest contents fs', turns = done ++ turn :: rest ∧
        Cleared env archiveRoot fs done contents fs' ∧ Stuck env archiveRoot fs' turn := by
  induction turns generalizing fs with
  | nil => exact .inl ⟨[], fs, .nil fs⟩
  | cons turn turns ih =>
    by_cases hstuck : Stuck env archiveRoot fs turn
    · exact .inr ⟨[], turn, turns, [], fs, rfl, .nil fs, hstuck⟩
    · obtain ⟨rel, content, hclear⟩ : ∃ rel content, Clear env archiveRoot fs turn rel content := by
        simpa [Stuck] using hstuck
      rcases ih (taken archiveRoot rel content fs) with
        ⟨contents, fs', hcleared⟩ | ⟨done, last, rest, contents, fs', rfl, hcleared, hlast⟩
      · exact .inl ⟨content :: contents, fs', .cons hclear hcleared⟩
      · exact .inr ⟨turn :: done, last, rest, content :: contents, fs', rfl,
          .cons hclear hcleared, hlast⟩

/-- The result that a run with these bytes counts. -/
def CompactFsResult.countAll (archiveRoot : Option Path) (contents : List (List UInt8))
    (result : CompactFsResult) : CompactFsResult :=
  contents.foldl (fun result content => result.count archiveRoot content) result

theorem compactSegments_append (hroot : archiveRoot ≠ some [])
    (h : Cleared env archiveRoot fs done contents fs') (rest : List SegmentTurn)
    (result : CompactFsResult) :
    compactSegments env archiveRoot (done ++ rest) result fs =
      compactSegments env archiveRoot rest (result.countAll archiveRoot contents) fs' := by
  induction h generalizing result with
  | nil fs => rfl
  | cons h _ ih =>
    rw [List.cons_append, compactSegments, compactSegment_of_clear hroot h]
    exact ih _

theorem compactSegments_of_cleared (hroot : archiveRoot ≠ some [])
    (h : Cleared env archiveRoot fs turns contents fs') (result : CompactFsResult) :
    compactSegments env archiveRoot turns result fs =
      (.ok (result.countAll archiveRoot contents), fs') := by
  have happend := compactSegments_append hroot h [] result
  rwa [List.append_nil] at happend

theorem compactSegments_of_stuck (hroot : archiveRoot ≠ some [])
    (h : Cleared env archiveRoot fs done contents fs') (hstuck : Stuck env archiveRoot fs' turn)
    (rest : List SegmentTurn) (result : CompactFsResult) :
    ∃ e fs'', compactSegments env archiveRoot (done ++ turn :: rest) result fs = (.error e, fs'') ∧
      Remains env archiveRoot fs' turn fs'' := by
  obtain ⟨e, fs'', herror, hremains⟩ :=
    compactSegment_of_stuck hroot hstuck (result.countAll archiveRoot contents)
  refine ⟨e, fs'', ?_, hremains⟩
  rw [compactSegments_append hroot h, compactSegments, herror]

theorem freedBytes_countAll (archiveRoot : Option Path) (contents : List (List UInt8))
    (result : CompactFsResult) (h : result.freedBytes ≤ 2 ^ 64 - 1) :
    (result.countAll archiveRoot contents).freedBytes =
      min (result.freedBytes + (contents.map List.length).sum) (2 ^ 64 - 1) := by
  induction contents generalizing result with
  | nil => simpa [CompactFsResult.countAll] using h
  | cons content contents ih =>
    have hcount : (result.count archiveRoot content).freedBytes =
        min (result.freedBytes + content.length) (2 ^ 64 - 1) := by
      cases archiveRoot <;> rfl
    have hle : (result.count archiveRoot content).freedBytes ≤ 2 ^ 64 - 1 := by
      rw [hcount]
      exact Nat.min_le_right _ _
    have hstep := ih _ hle
    rw [CompactFsResult.countAll] at hstep ⊢
    rw [List.foldl_cons, hstep, hcount, List.map_cons, List.sum_cons]
    omega

theorem fileAt_none_of_cleared {p : Path} (h : Cleared env archiveRoot fs turns contents fs')
    (hnone : fileAt fs p = none) (hto : ∀ turn ∈ turns, ∀ rel,
      segmentRelPath turn.segment.path = .ok rel → archiveRoot.map (· ++ rel) ≠ some p) :
    fileAt fs' p = none := by
  induction h with
  | nil fs => exact hnone
  | cons h _ ih =>
    refine ih ?_ fun turn hturn => hto turn (List.mem_cons_of_mem _ hturn)
    rw [fileAt_taken, if_neg (hto _ List.mem_cons_self _ h.checked.path)]
    split_ifs
    · rfl
    · exact hnone

/-- A path of the archive is longer than that of the segment it is for. -/
theorem length_lt_of_target {rel p : Path} (hroot : archiveRoot ≠ some [])
    (h : archiveRoot.map (· ++ rel) = some p) : rel.length < p.length := by
  obtain ⟨root, rfl, rfl⟩ := Option.map_eq_some_iff.mp h
  have hpos := List.length_pos_iff.mpr fun hnil => hroot (congrArg some hnil)
  rw [List.length_append]
  omega

/-- The segment with the shortest path was there from the start, and nothing comes back to its
place. -/
theorem exists_lost (hroot : archiveRoot ≠ some [])
    (h : Cleared env archiveRoot fs turns contents fs') (hne : turns ≠ []) :
    ∃ lost ∈ turns, ∃ rel content, segmentRelPath lost.segment.path = .ok rel ∧
      fileAt fs rel = some content ∧ fileAt fs' rel = none ∧
      ∀ turn ∈ turns, ∀ rel', segmentRelPath turn.segment.path = .ok rel' →
        rel.length ≤ rel'.length := by
  induction h with
  | nil fs => exact absurd rfl hne
  | @cons fs fs' turn turns rel content contents h hrest ih =>
    have hhere : fileAt (taken archiveRoot rel content fs) rel = none := by
      rw [fileAt_taken, if_neg fun htarget => (length_lt_of_target hroot htarget).ne rfl, if_pos rfl]
    -- the first is the shortest one
    have hfirst (hle : ∀ turn' ∈ turns, ∀ rel', segmentRelPath turn'.segment.path = .ok rel' →
        rel.length ≤ rel'.length) :
        ∃ lost ∈ turn :: turns, ∃ rel content, segmentRelPath lost.segment.path = .ok rel ∧
          fileAt fs rel = some content ∧ fileAt fs' rel = none ∧
          ∀ turn' ∈ turn :: turns, ∀ rel', segmentRelPath turn'.segment.path = .ok rel' →
            rel.length ≤ rel'.length := by
      refine ⟨turn, List.mem_cons_self, rel, content, h.checked.path, h.checked.file, ?_, ?_⟩
      · refine fileAt_none_of_cleared hrest hhere fun turn' hturn' rel' hrel' htarget => ?_
        have hlt := length_lt_of_target hroot htarget
        have := hle turn' hturn' rel' hrel'
        omega
      · intro turn' hturn' rel' hrel'
        rcases List.mem_cons.mp hturn' with rfl | hturn'
        · obtain rfl := Except.ok.inj (h.checked.path.symm.trans hrel')
          exact Nat.le_refl _
        · exact hle turn' hturn' rel' hrel'
    by_cases hnil : turns = []
    · subst hnil
      exact hfirst fun turn' hturn' => absurd hturn' List.not_mem_nil
    · obtain ⟨lost, hlost, rel', content', hpath, hfile, hgone, hle⟩ := ih hnil
      by_cases hshort : rel.length < rel'.length
      · exact hfirst fun turn' hturn' r hr => hshort.le.trans (hle turn' hturn' r hr)
      · refine ⟨lost, List.mem_cons_of_mem _ hlost, rel', content', hpath, ?_, hgone, ?_⟩
        · rw [fileAt_taken, if_neg fun htarget => hshort (length_lt_of_target hroot htarget)] at hfile
          split_ifs at hfile
          exact hfile
        · intro turn' hturn' r hr
          rcases List.mem_cons.mp hturn' with rfl | hturn'
          · obtain rfl := Except.ok.inj (h.checked.path.symm.trans hr)
            omega
          · exact hle turn' hturn' r hr

end Run

/-! ### The whole compaction -/

section Whole

def archiveRootOf (env : CompactEnv) (mode : String) : Option Path :=
  if mode = "archive_then_delete" then some (archiveDir env) else none

/-- The directories that the mode needs can be made. -/
def Prepared (env : CompactEnv) (mode : String) (fs : FileTree) : Prop :=
  env.createBase = none ∧
    (mode = "archive_then_delete" → env.createArchive = none ∧ Free fs (archiveDir env))

/-- The file tree in front of the first segment. -/
def atFirst (env : CompactEnv) (mode : String) (fs : FileTree) : FileTree :=
  if mode = "archive_then_delete" then mkdirs (archiveDir env) fs else fs

/-- When a compaction is all or nothing. -/
inductive HoldsWhen (env : CompactEnv) (mode : String) (turns : List SegmentTurn) (fs : FileTree) :
    Prop
  /-- A directory cannot be made. -/
  | unprepared (h : ¬ Prepared env mode fs)
  /-- The first segment fails, and what its copy leaves overwrites none of the listed files. -/
  | first {turn rest} (h : Prepared env mode fs) (hturns : turns = turn :: rest)
      (hstuck : Stuck env (archiveRootOf env mode) (atFirst env mode fs) turn)
      (hkept : ∀ target left,
        LeavesCopy env (archiveRootOf env mode) (atFirst env mode fs) turn target left →
          Kept turns fs (put target left fs))
  /-- Every segment can leave at its turn and could from the start, and the sizes fit 64 bits. -/
  | all {contents start fs'} (h : Prepared env mode fs)
      (hcleared : Cleared env (archiveRootOf env mode) (atFirst env mode fs) turns contents fs')
      (hstart : List.Forall₂ (Declared env fs) turns start)
      (hsizes : min (contents.map List.length).sum (2 ^ 64 - 1) = (start.map List.length).sum)
  /-- A later one fails, and its copy puts back the only file that is not there. -/
  | putBack {done turn rest contents fs' target left} (h : Prepared env mode fs)
      (hturns : turns = done ++ turn :: rest)
      (hcleared : Cleared env (archiveRootOf env mode) (atFirst env mode fs) done contents fs')
      (hcopy : LeavesCopy env (archiveRootOf env mode) fs' turn target left)
      (hback : ∃ lost ∈ done, segmentRelPath lost.segment.path = .ok target)
      (hkept : Kept turns fs (put target left fs'))

variable {env : CompactEnv} {mode : String} {turns : List SegmentTurn} {fs fs' : FileTree}

theorem archiveRootOf_ne : archiveRootOf env mode ≠ some [] := by
  unfold archiveRootOf archiveDir
  split_ifs <;> simp

@[simp] theorem fileAt_atFirst : fileAt (atFirst env mode fs) = fileAt fs := by
  unfold atFirst
  split_ifs
  · exact fileAt_mkdirs _ fs
  · rfl

theorem prepareDirs_ok (h : Prepared env mode fs) :
    prepareDirs env mode fs = (.ok (archiveRootOf env mode), atFirst env mode fs) := by
  obtain ⟨hbase, harchive⟩ := h
  unfold prepareDirs archiveRootOf atFirst
  rw [hbase]
  split_ifs with hmode
  · obtain ⟨hcreate, hfree⟩ := harchive hmode
    simp only [hcreate, createDirAll_of_free hfree]
  · rfl

theorem prepareDirs_error (h : ¬ Prepared env mode fs) :
    ∃ e fs', prepareDirs env mode fs = (.error e, fs') ∧ fileAt fs' = fileAt fs := by
  unfold prepareDirs
  cases hbase : env.createBase with
  | some e => exact ⟨_, fs, rfl, rfl⟩
  | none =>
    by_cases hmode : mode = "archive_then_delete"
    · obtain ⟨e, fs', herror, hfiles⟩ := createDirAll_error env.os
        fun harchive => h ⟨hbase, fun _ => harchive⟩
      simp only [if_pos hmode, herror]
      exact ⟨_, fs', rfl, hfiles⟩
    · exact absurd ⟨hbase, fun hmode' => absurd hmode' hmode⟩ h

theorem execute_of_unprepared (h : ¬ Prepared env mode fs) (turns : List SegmentTurn) :
    ∃ e fs', executeFilesystemCompaction env mode turns fs = (.error e, fs') ∧
      fileAt fs' = fileAt fs := by
  obtain ⟨e, fs', herror, hfiles⟩ := prepareDirs_error h
  exact ⟨e, fs', by simp only [executeFilesystemCompaction, herror], hfiles⟩

theorem execute_of_cleared {contents : List (List UInt8)} (h : Prepared env mode fs)
    (hcleared : Cleared env (archiveRootOf env mode) (atFirst env mode fs) turns contents fs') :
    ∃ result, executeFilesystemCompaction env mode turns fs = (.ok result, fs') ∧
      result.freedBytes = min (contents.map List.length).sum (2 ^ 64 - 1) := by
  have hfreed := freedBytes_countAll (archiveRootOf env mode) contents ⟨0, 0, 0⟩
    (Nat.zero_le _)
  rw [Nat.zero_add] at hfreed
  refine ⟨_, ?_, hfreed⟩
  simp only [executeFilesystemCompaction, prepareDirs_ok h,
    compactSegments_of_cleared archiveRootOf_ne hcleared]

theorem execute_of_stuck {done : List SegmentTurn} {turn : SegmentTurn}
    {contents : List (List UInt8)} (h : Prepared env mode fs)
    (hcleared : Cleared env (archiveRootOf env mode) (atFirst env mode fs) done contents fs')
    (hstuck : Stuck env (archiveRootOf env mode) fs' turn) (rest : List SegmentTurn) :
    ∃ e fs'', executeFilesystemCompaction env mode (done ++ turn :: rest) fs = (.error e, fs'') ∧
      Remains env (archiveRootOf env mode) fs' turn fs'' := by
  obtain ⟨e, fs'', herror, hremains⟩ :=
    compactSegments_of_stuck archiveRootOf_ne hcleared hstuck rest ⟨0, 0, 0⟩
  exact ⟨e, fs'', by simp only [executeFilesystemCompaction, prepareDirs_ok h, herror], hremains⟩

theorem kept_congr {files : FileTree} (h : fileAt fs' = fileAt files) :
    Kept turns fs fs' ↔ Kept turns fs files := by
  unfold Kept
  rw [h]

theorem kept_self (h : fileAt fs' = fileAt fs) : Kept turns fs fs' := by
  intro turn _ rel content _ hfile
  rw [h, hfile]

theorem kept_put_congr {files : FileTree} {target : Path} {left : List UInt8}
    (h : fileAt fs' = fileAt files) :
    Kept turns fs (put target left fs') ↔ Kept turns fs (put target left files) := by
  refine kept_congr ?_
  funext p
  rw [fileAt_put, fileAt_put, h]

theorem holdsWhen_of_allOrNothing (hall : AllOrNothing env mode turns fs) :
    HoldsWhen env mode turns fs := by
  unfold AllOrNothing at hall
  by_cases h : Prepared env mode fs
  swap
  · exact .unprepared h
  rcases cleared_or_stuck env (archiveRootOf env mode) turns (atFirst env mode fs) with
    ⟨contents, fs', hcleared⟩ | ⟨done, turn, rest, contents, fs', rfl, hcleared, hstuck⟩
  · obtain ⟨result, hrun, hfreed⟩ := execute_of_cleared h hcleared
    rw [hrun] at hall
    obtain ⟨start, hstart, hsum⟩ := hall
    exact .all h hcleared hstart (hfreed.symm.trans hsum)
  · obtain ⟨e, fs'', hrun, hremains⟩ := execute_of_stuck h hcleared hstuck rest
    rw [hrun] at hall
    cases done with
    | nil =>
      cases hcleared
      refine .first h rfl hstuck fun target left hcopy => ?_
      rcases hremains with ⟨target', left', hcopy', hfiles⟩ | ⟨hnone, -⟩
      · obtain ⟨rfl, rfl⟩ := hcopy.unique hcopy'
        exact (kept_put_congr fileAt_atFirst).mp ((kept_congr hfiles).mp hall)
      · exact absurd hcopy (hnone target left)
    | cons turn' done =>
      obtain ⟨lost, hlost, rel, content, hpath, hfile, hgone, -⟩ :=
        exists_lost archiveRootOf_ne hcleared (List.cons_ne_nil _ _)
      rw [fileAt_atFirst] at hfile
      have hthere := hall lost (List.mem_append_left _ hlost) rel content hpath hfile
      -- only a copy can have brought the file back
      rcases hremains with ⟨target, left, hcopy, hfiles⟩ | ⟨-, hfiles⟩
      · have hback : rel = target := by
          by_contra hne
          rw [hfiles, fileAt_put, if_neg hne, hgone] at hthere
          cases hthere
        subst hback
        exact .putBack h rfl hcleared hcopy ⟨lost, hlost, hpath⟩ ((kept_congr hfiles).mp hall)
      · rw [hfiles, hgone] at hthere
        cases hthere

theorem allOrNothing_of_holdsWhen (hholds : HoldsWhen env mode turns fs) :
    AllOrNothing env mode turns fs := by
  unfold AllOrNothing
  cases hholds with
  | unprepared h =>
    obtain ⟨e, fs', hrun, hfiles⟩ := execute_of_unprepared h turns
    rw [hrun]
    exact kept_self hfiles
  | first h hturns hstuck hkept =>
    subst hturns
    obtain ⟨e, fs'', hrun, hremains⟩ := execute_of_stuck h (.nil _) hstuck _
    rw [List.nil_append] at hrun
    rw [hrun]
    rcases hremains with ⟨target, left, hcopy, hfiles⟩ | ⟨-, hfiles⟩
    · exact (kept_congr hfiles).mpr ((kept_put_congr fileAt_atFirst).mpr (hkept target left hcopy))
    · exact kept_self (hfiles.trans fileAt_atFirst)
  | all h hcleared hstart hsizes =>
    obtain ⟨result, hrun, hfreed⟩ := execute_of_cleared h hcleared
    rw [hrun]
    exact ⟨_, hstart, hfreed.trans hsizes⟩
  | putBack h hturns hcleared hcopy _ hkept =>
    subst hturns
    obtain ⟨e, fs'', hrun, hremains⟩ := execute_of_stuck h hcleared hcopy.stuck _
    rw [hrun]
    rcases hremains with ⟨target', left', hcopy', hfiles⟩ | ⟨hnone, -⟩
    · obtain ⟨rfl, rfl⟩ := hcopy.unique hcopy'
      exact (kept_congr hfiles).mpr hkept
    · exact absurd hcopy (hnone _ _)

/-- A compaction is all or nothing where a directory cannot be made, where the first segment fails,
and where every segment can leave; else it is so only where a file is put back. -/
theorem allOrNothing_iff_holdsWhen (env : CompactEnv) (mode : String) (turns : List SegmentTurn)
    (fs : FileTree) : AllOrNothing env mode turns fs ↔ HoldsWhen env mode turns fs :=
  ⟨holdsWhen_of_allOrNothing, allOrNothing_of_holdsWhen⟩

/-- A run that fails and has lost a file. -/
theorem not_allOrNothing_of_lost {turn : SegmentTurn} {rel : Path} {content : List UInt8}
    {e : PipelineError} (hrun : (executeFilesystemCompaction env mode turns fs).map id
      (fun fs' => fileAt fs' rel) = (.error e, none)) (hturn : turn ∈ turns)
    (hpath : segmentRelPath turn.segment.path = .ok rel) (hfile : fileAt fs rel = some content) :
    ¬ AllOrNothing env mode turns fs := by
  unfold AllOrNothing
  generalize executeFilesystemCompaction env mode turns fs = outcome at *
  obtain ⟨outcome, fs'⟩ := outcome
  obtain ⟨rfl, hgone⟩ := Prod.mk.inj hrun
  intro hkept
  cases hgone.symm.trans (hkept turn hturn rel content hpath hfile)

/-- `a.ndjson` is as declared, and `b.ndjson` has one line fewer. -/
def twoSegments : List SegmentTurn :=
  let io : SegmentIo := ⟨none, none, none, none, none, none⟩
  [⟨⟨"a.ndjson", "87428fc522803d31065e7bce3cf03fe475096631e5e07bbd7a0fde60c4cf25c7", 1⟩, io⟩,
    ⟨⟨"b.ndjson", "0263829989b6fd954f72baaf2fc64bc2e2f01d692d4de72986ea808f6e99813f", 2⟩, io⟩]

def twoFiles : FileTree := fun p =>
  if p = [] then some .directory
  else if p = ["a.ndjson"] then some (.file [97, 10])
  else if p = ["b.ndjson"] then some (.file [98, 10])
  else none

/-- The digests are those of the two files. -/
def compactEnv : CompactEnv where
  ledgerBaseDir := none
  timestamp := "20240101T000000Z"
  createBase := none
  createArchive := none
  sha256 bytes :=
    if bytes = [97, 10] then
      [135, 66, 143, 197, 34, 128, 61, 49, 6, 94, 123, 206, 60, 240, 63, 228, 117, 9, 102, 49, 229,
        224, 123, 189, 122, 15, 222, 96, 196, 207, 37, 199]
    else
      [2, 99, 130, 153, 137, 182, 253, 149, 79, 114, 186, 175, 47, 198, 75, 194, 226, 240, 29, 105,
        45, 77, 231, 41, 134, 234, 128, 143, 110, 153, 129, 63]
  os := ⟨"No such file or directory (os error 2)", "File exists (os error 17)",
    "Not a directory (os error 20)", "Is a directory (os error 21)"⟩

theorem deleted_before_mismatch :
    ¬ ∀ env mode turns fs, AllOrNothing env mode turns fs := by
  intro hall
  have hrun : (executeFilesystemCompaction compactEnv "delete_with_rollup" twoSegments twoFiles).map
      id (fun fs' => fileAt fs' ["a.ndjson"]) =
        (.error (.invalidChip
          "compact segment lines mismatch for 'b.ndjson': expected 2, got 1"), none) := by
    decide +kernel
  obtain ⟨turn, hturn, hpath⟩ : ∃ turn ∈ twoSegments,
      segmentRelPath turn.segment.path = .ok ["a.ndjson"] :=
    ⟨_, List.mem_cons_self, by decide +kernel⟩
  have hfile : fileAt twoFiles ["a.ndjson"] = some [97, 10] := by decide
  have hlost : ¬ AllOrNothing compactEnv "delete_with_rollup" twoSegments twoFiles :=
    not_allOrNothing_of_lost hrun hturn hpath hfile
  exact hlost (hall _ _ _ _)

/-! ### Without an archive -/

/-- What a deletion asks of a segment before anything is deleted. -/
def Deletable (env : CompactEnv) (fs : FileTree) (turn : SegmentTurn) (content : List UInt8) : Prop :=
  ∃ rel, Checked env fs turn rel content ∧ turn.io.remove = none

theorem deletable_remove_iff {turn : SegmentTurn} {gone : Path} {content : List UInt8} :
    Deletable env (remove gone fs) turn content ↔
      segmentRelPath turn.segment.path ≠ .ok gone ∧ Deletable env fs turn content := by
  constructor
  · rintro ⟨rel, ⟨hpath, hfile, hmeta, hread, hsha, hlines⟩, hremove⟩
    rw [fileAt_remove] at hfile
    split_ifs at hfile with hgone
    refine ⟨?_, rel, ⟨hpath, hfile, hmeta, hread, hsha, hlines⟩, hremove⟩
    rw [hpath]
    exact fun heq => hgone (Except.ok.inj heq)
  · rintro ⟨hne, rel, ⟨hpath, hfile, hmeta, hread, hsha, hlines⟩, hremove⟩
    have hgone : rel ≠ gone := by
      rintro rfl
      exact hne hpath
    refine ⟨rel, ⟨hpath, ?_, hmeta, hread, hsha, hlines⟩, hremove⟩
    rw [fileAt_remove, if_neg hgone, hfile]

/-- Where files are only deleted, all can go when each could go first and none is listed twice. -/
theorem cleared_none_iff {contents : List (List UInt8)} :
    (∃ fs', Cleared env none fs turns contents fs') ↔
      List.Forall₂ (Deletable env fs) turns contents ∧
        (turns.map fun turn => segmentRelPath turn.segment.path).Nodup := by
  induction turns generalizing fs contents with
  | nil =>
    constructor
    · rintro ⟨fs', ⟨⟩⟩
      exact ⟨.nil, List.nodup_nil⟩
    · rintro ⟨⟨⟩, -⟩
      exact ⟨fs, .nil fs⟩
  | cons turn turns ih =>
    rw [List.map_cons, List.nodup_cons, List.mem_map]
    constructor
    · rintro ⟨fs', hcleared⟩
      cases hcleared with
      | @cons _ _ _ _ rel content contents h hrest =>
        obtain ⟨hall, hnodup⟩ := ih.mp ⟨fs', hrest⟩
        obtain ⟨hother, hall⟩ := (List.forall₂_and_left _ _).mp
          (hall.imp fun _ _ => deletable_remove_iff.mp)
        refine ⟨.cons ⟨rel, h.checked, h.leaves⟩ hall, ?_, hnodup⟩
        rintro ⟨turn', hturn', heq⟩
        exact hother turn' hturn' (heq.trans h.checked.path)
    · rintro ⟨hall, hnotMem, hnodup⟩
      cases hall with
      | @cons _ content _ contents h hrest =>
        obtain ⟨rel, hchecked, hremove⟩ := h
        have hother : ∀ turn' ∈ turns, segmentRelPath turn'.segment.path ≠ .ok rel :=
          fun turn' hturn' heq => hnotMem ⟨turn', hturn', heq.trans hchecked.path.symm⟩
        obtain ⟨fs', hcleared⟩ := ih.mpr
          ⟨((List.forall₂_and_left _ _).mpr ⟨hother, hrest⟩).imp fun _ _ => deletable_remove_iff.mpr,
            hnodup⟩
        exact ⟨fs', .cons ⟨hchecked, hremove⟩ hcleared⟩

theorem stuck_none_iff {turn : SegmentTurn} :
    Stuck env none fs turn ↔ ∀ content, ¬ Deletable env fs turn content := by
  constructor
  · rintro h content ⟨rel, hchecked, hremove⟩
    exact h rel content ⟨hchecked, hremove⟩
  · rintro h rel content ⟨hchecked, hremove⟩
    exact h content ⟨rel, hchecked, hremove⟩

/-- What was declared at the start is what is deleted. -/
theorem start_eq_of_deletable {contents start : List (List UInt8)}
    (h : List.Forall₂ (Deletable env fs) turns contents)
    (hstart : List.Forall₂ (Declared env fs) turns start) : start = contents := by
  induction h generalizing start with
  | nil =>
    cases hstart
    rfl
  | cons h _ ih =>
    cases hstart with
    | cons hdeclared hstart =>
      obtain ⟨rel, hchecked, -⟩ := h
      obtain ⟨rel', hpath, hfile, -⟩ := hdeclared
      obtain rfl := Except.ok.inj (hpath.symm.trans hchecked.path)
      rw [Option.some.inj (hfile.symm.trans hchecked.file), ih hstart]

theorem declared_of_deletable {turn : SegmentTurn} {content : List UInt8}
    (h : Deletable env fs turn content) : Declared env fs turn content := by
  obtain ⟨rel, hchecked, -⟩ := h
  exact ⟨rel, hchecked.path, hchecked.file, hchecked.sha256, hchecked.lines⟩

/-- A deletion is all or nothing where the first segment already fails, and where all are as declared
at the start, none is listed twice and the sizes fit 64 bits. -/
theorem allOrNothing_delete_iff (hmode : mode ≠ "archive_then_delete") :
    AllOrNothing env mode turns fs ↔ env.createBase ≠ none ∨
      (∃ turn rest, turns = turn :: rest ∧ ∀ content, ¬ Deletable env fs turn content) ∨
      ∃ contents, List.Forall₂ (Deletable env fs) turns contents ∧
        (turns.map fun turn => segmentRelPath turn.segment.path).Nodup ∧
        (contents.map List.length).sum < 2 ^ 64 := by
  have hroot : archiveRootOf env mode = none := if_neg hmode
  have hfirst : atFirst env mode fs = fs := if_neg hmode
  have hprepared : Prepared env mode fs ↔ env.createBase = none :=
    ⟨fun h => h.1, fun h => ⟨h, fun harchive => absurd harchive hmode⟩⟩
  have hnocopy {fs : FileTree} {turn : SegmentTurn} {target : Path} {left : List UInt8} :
      ¬ LeavesCopy env none fs turn target left := by
    rintro ⟨hnone⟩
    cases hnone
  constructor
  · intro hall
    cases holdsWhen_of_allOrNothing hall with
    | unprepared h => exact .inl fun hbase => h (hprepared.mpr hbase)
    | first h hturns hstuck _ =>
      rw [hroot, hfirst, stuck_none_iff] at hstuck
      exact .inr (.inl ⟨_, _, hturns, hstuck⟩)
    | all h hcleared hstart hsizes =>
      rw [hroot, hfirst] at hcleared
      obtain ⟨hdeletable, hnodup⟩ := cleared_none_iff.mp ⟨_, hcleared⟩
      rw [start_eq_of_deletable hdeletable hstart] at hsizes
      refine .inr (.inr ⟨_, hdeletable, hnodup, ?_⟩)
      omega
    | putBack h _ _ hcopy _ _ =>
      rw [hroot] at hcopy
      exact absurd hcopy hnocopy
  · intro hcases
    apply allOrNothing_of_holdsWhen
    by_cases hbase : env.createBase = none
    swap
    · exact .unprepared fun h => hbase h.1
    have h := hprepared.mpr hbase
    rcases hcases with hbase' | ⟨turn, rest, hturns, hstuck⟩ | ⟨contents, hall, hnodup, hsum⟩
    · exact absurd hbase hbase'
    · refine .first h hturns ?_ fun target left hcopy => ?_
      · rw [hroot, hfirst]
        exact stuck_none_iff.mpr hstuck
      · rw [hroot] at hcopy
        exact absurd hcopy hnocopy
    · obtain ⟨fs', hcleared⟩ := cleared_none_iff.mpr ⟨hall, hnodup⟩
      have hrun : Cleared env (archiveRootOf env mode) (atFirst env mode fs) turns contents fs' := by
        rw [hroot, hfirst]
        exact hcleared
      refine .all h hrun (hall.imp fun _ _ => declared_of_deletable) ?_
      omega

end Whole

end Ubl.Pipeline
