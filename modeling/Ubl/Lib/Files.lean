import Mathlib.Data.List.Infix
import Mathlib.Logic.Function.Basic

/-!
# Files below a directory

A file tree has a file or a directory at some of its paths; a path is the list of the names that lead
to it.  The operations answer as those of an operating system do, and each may also fail from outside,
with the text of the failure.  What they do to files is read off `fileAt`:

    fileAt (mkdirs dir fs) = fileAt fs                                    (fileAt_mkdirs)
    fileAt (put p bytes fs) q = if q = p then some bytes else fileAt fs q (fileAt_put)
-/

namespace Files

abbrev Path := List String

inductive Node where
  | file (bytes : List UInt8)
  | directory
deriving DecidableEq

abbrev FileTree := Path → Option Node

/-- What the operating system says where nothing fails from outside. -/
structure OsText where
  notFound : String
  fileExists : String
  notDirectory : String
  isDirectory : String

def fileAt (fs : FileTree) (p : Path) : Option (List UInt8) :=
  match fs p with
  | some (.file bytes) => some bytes
  | _ => none

def isDirectory (fs : FileTree) (p : Path) : Bool := fs p == some .directory

/-- Directories where there is nothing yet, along a path. -/
def mkdirs (dir : Path) (fs : FileTree) : FileTree := fun p =>
  if p ≠ [] ∧ p <+: dir ∧ fs p = none then some .directory else fs p

def put (p : Path) (bytes : List UInt8) (fs : FileTree) : FileTree :=
  Function.update fs p (some (.file bytes))

def remove (p : Path) (fs : FileTree) : FileTree := Function.update fs p none

/-! ## Operations -/

section Operations

variable (os : OsText)

/-- A directory and all above it; a failure from outside may come after some of them. -/
def createDirAll (fault : Option (String × ℕ)) (dir : Path) (fs : FileTree) :
    Except String Unit × FileTree :=
  match fault with
  | some (e, made) => (.error e, mkdirs (dir.take made) fs)
  | none =>
    if (fileAt fs dir).isSome then (.error os.fileExists, fs)
    else if dir.inits.any fun p => (fileAt fs p).isSome then (.error os.notDirectory, fs)
    else (.ok (), mkdirs dir fs)

/-- The node at a path. -/
def metadata (fault : Option String) (p : Path) (fs : FileTree) : Except String Node :=
  match fault with
  | some e => .error e
  | none =>
    match fs p with
    | none => .error os.notFound
    | some node => .ok node

/-- A file of these bytes gets another path. -/
def rename (fault : Option String) (bytes : List UInt8) (p q : Path) (fs : FileTree) :
    Except String Unit × FileTree :=
  match fault with
  | some e => (.error e, fs)
  | none =>
    if isDirectory fs q then (.error os.isDirectory, fs) else (.ok (), put q bytes (remove p fs))

/-- A file of these bytes at another path; a failure from outside may leave something there. -/
def copy (fault : Option (String × Option (List UInt8))) (bytes : List UInt8) (q : Path)
    (fs : FileTree) : Except String Unit × FileTree :=
  if isDirectory fs q then (.error ((fault.map Prod.fst).getD os.isDirectory), fs)
  else
    match fault with
    | some (e, none) => (.error e, fs)
    | some (e, some left) => (.error e, put q left fs)
    | none => (.ok (), put q bytes fs)

def removeFile (fault : Option String) (p : Path) (fs : FileTree) :
    Except String Unit × FileTree :=
  match fault with
  | some e => (.error e, fs)
  | none => (.ok (), remove p fs)

end Operations

/-! ## What they do to files -/

section Lemmas

variable {os : OsText} {fs : FileTree} {p q dir : Path} {bytes : List UInt8}

theorem fileAt_eq_some : fileAt fs p = some bytes ↔ fs p = some (.file bytes) := by
  unfold fileAt
  split <;> simp_all

@[simp] theorem fileAt_mkdirs (dir : Path) (fs : FileTree) : fileAt (mkdirs dir fs) = fileAt fs := by
  funext p
  unfold fileAt mkdirs
  split_ifs with h
  · rw [h.2.2]
  · rfl

theorem fileAt_put : fileAt (put p bytes fs) q = if q = p then some bytes else fileAt fs q := by
  unfold fileAt put Function.update
  split_ifs with h
  · subst h
    simp
  · simp

theorem fileAt_remove : fileAt (remove p fs) q = if q = p then none else fileAt fs q := by
  unfold fileAt remove Function.update
  split_ifs with h
  · subst h
    simp
  · simp

theorem remove_put_comm (h : p ≠ q) : remove p (put q bytes fs) = put q bytes (remove p fs) :=
  Function.update_comm h.symm _ _ fs

/-- No file stands on the way to a directory. -/
def Free (fs : FileTree) (dir : Path) : Prop := ∀ p, p <+: dir → fileAt fs p = none

theorem createDirAll_of_free (h : Free fs dir) :
    createDirAll os none dir fs = (.ok (), mkdirs dir fs) := by
  have hdir : (fileAt fs dir).isSome = false := by
    rw [h dir (List.prefix_refl dir)]
    rfl
  have hnone : dir.inits.any (fun p => (fileAt fs p).isSome) = false := by
    rw [List.any_eq_false]
    intro p hp
    rw [h p ((List.mem_inits p dir).mp hp)]
    simp
  simp [createDirAll, hdir, hnone]

/-- Directories that cannot be made; none is made where a file is. -/
theorem createDirAll_error {fault : Option (String × ℕ)} (os : OsText)
    (h : ¬ (fault = none ∧ Free fs dir)) :
    ∃ e fs', createDirAll os fault dir fs = (.error e, fs') ∧ fileAt fs' = fileAt fs := by
  unfold createDirAll
  cases fault with
  | some failure => exact ⟨_, _, rfl, fileAt_mkdirs _ fs⟩
  | none =>
    dsimp only
    split_ifs with hdir hany
    · exact ⟨_, fs, rfl, rfl⟩
    · exact ⟨_, fs, rfl, rfl⟩
    · refine absurd ⟨rfl, fun p hp => ?_⟩ h
      by_contra hfile
      exact hany (List.any_eq_true.mpr
        ⟨p, (List.mem_inits p dir).mpr hp, Option.isSome_iff_ne_none.mpr hfile⟩)

/-- Only what the directory is in is made. -/
theorem isDirectory_mkdirs (h : ¬ p <+: dir) : isDirectory (mkdirs dir fs) p = isDirectory fs p := by
  unfold isDirectory mkdirs
  rw [if_neg fun hmade => h hmade.2.1]

end Lemmas

end Files
