import Mathlib.Data.List.Basic

/-!
# Unix paths

A path is a text whose components stand between slashes.  It is resolved from a working directory
one component after the other: an empty one and `.` stay, `..` goes up, anything else goes down.
To join a name is to take one more step:

    resolve cwd (join base name) = step (resolve cwd base) name         (resolve_join)

A directory is the list of the names that lead to it from the root.
-/

namespace UnixPath

def isAbsolute (path : String) : Bool := path.toList.head? == some '/'

/-- An absolute path replaces the one it is joined to. -/
def join (base path : String) : String :=
  if isAbsolute path then path
  else if base.toList.getLast?.all (· == '/') then base ++ path
  else base ++ "/" ++ path

def components (path : String) : List String := (path.toList.splitOn '/').map String.ofList

/-- One component; the root is above itself. -/
def step (dir : List String) (name : String) : List String :=
  if name = "" ∨ name = "." then dir
  else if name = ".." then dir.dropLast
  else dir ++ [name]

def resolve (cwd : List String) (path : String) : List String :=
  (components path).foldl step (if isAbsolute path then [] else cwd)

/-- The file is in the directory or further down. -/
def Beneath (dir file : List String) : Prop := ∃ rest, rest ≠ [] ∧ file = dir ++ rest

/-! ## Joining a name -/

section Join

variable {base name : String} (hname : '/' ∉ name.toList)

include hname

theorem not_isAbsolute : isAbsolute name = false := by
  unfold isAbsolute
  cases h : name.toList with
  | nil => rfl
  | cons c cs =>
    have hc : c ≠ '/' := fun hc => hname (h ▸ hc ▸ List.mem_cons_self)
    simpa using hc

theorem components_name : components name = [name] := by
  rw [components, List.splitOn_eq_singleton hname, List.map_singleton, String.ofList_toList]

/-- Where a separator is put between them. -/
theorem components_append_slash : components (base ++ "/" ++ name) = components base ++ [name] := by
  have hlist : (base ++ "/" ++ name).toList = base.toList ++ '/' :: name.toList := by simp
  rw [components, hlist, List.splitOn_append_cons_self, List.map_append]
  exact congrArg (components base ++ ·) (components_name hname)

/-- Where the base brings its separator. -/
theorem components_append (hbase : base.toList.getLast? = some '/') :
    ∃ before, components base = before ++ [""] ∧
      components (base ++ name) = before ++ [name] := by
  obtain ⟨front, hfront⟩ := List.getLast?_eq_some_iff.mp hbase
  have hlist : (base ++ name).toList = front ++ '/' :: name.toList := by
    rw [String.toList_append, hfront, List.append_assoc, List.singleton_append]
  refine ⟨(front.splitOn '/').map String.ofList, ?_, ?_⟩
  · rw [components, hfront, List.splitOn_append_cons_self, List.map_append]
    rfl
  · rw [components, hlist, List.splitOn_append_cons_self, List.map_append]
    exact congrArg (_ ++ ·) (components_name hname)

theorem resolve_join (cwd : List String) :
    resolve cwd (join base name) = step (resolve cwd base) name := by
  have hjoin : join base name =
      if base.toList.getLast?.all (· == '/') then base ++ name else base ++ "/" ++ name := by
    rw [join, not_isAbsolute hname, if_neg Bool.false_ne_true]
  cases hlast : base.toList.getLast? with
  | none =>
    obtain rfl : base = "" := String.toList_eq_nil_iff.mp (List.getLast?_eq_none_iff.mp hlast)
    rw [hjoin, hlast, Option.all_none, if_pos rfl, String.empty_append, resolve,
      components_name hname, not_isAbsolute hname]
    rfl
  | some c =>
    have hhead (more : List Char) : (base.toList ++ more).head? = base.toList.head? := by
      cases hb : base.toList with
      | nil => rw [hb] at hlast; cases hlast
      | cons c cs => rfl
    rw [hjoin, hlast, Option.all_some]
    by_cases hc : c = '/'
    · subst hc
      obtain ⟨before, hbase, happend⟩ := components_append hname hlast
      have habs : isAbsolute (base ++ name) = isAbsolute base := by
        unfold isAbsolute
        rw [String.toList_append, hhead]
      rw [if_pos BEq.rfl, resolve, resolve, happend, hbase, habs, List.foldl_append,
        List.foldl_append]
      rfl
    · have habs : isAbsolute (base ++ "/" ++ name) = isAbsolute base := by
        unfold isAbsolute
        rw [String.append_assoc, String.toList_append, hhead]
      rw [if_neg (by simpa using hc), resolve, resolve, components_append_slash hname, habs,
        List.foldl_append]
      rfl

end Join

/-! ## Steps -/

/-- A component that leads down. -/
structure IsName (name : String) : Prop where
  ne_empty : name ≠ ""
  ne_dot : name ≠ "."
  ne_dotdot : name ≠ ".."

variable {dir : List String} {name : String}

theorem step_name (h : IsName name) : step dir name = dir ++ [name] := by
  rw [step, if_neg (not_or.mpr ⟨h.ne_empty, h.ne_dot⟩), if_neg h.ne_dotdot]

theorem step_dot : step dir "." = dir := rfl

theorem step_dotdot : step dir ".." = dir.dropLast := rfl

/-- Any other component leads to no longer directory. -/
theorem length_step_le (h : ¬ IsName name) : (step dir name).length ≤ dir.length := by
  unfold step
  split_ifs with hstay hup
  · exact Nat.le_refl _
  · rw [List.length_dropLast]
    omega
  · exact absurd ⟨fun he => hstay (.inl he), fun hd => hstay (.inr hd), hup⟩ h

theorem length_step_le_succ : (step dir name).length ≤ dir.length + 1 := by
  by_cases h : IsName name
  · rw [step_name h]
    simp
  · have hle := @length_step_le dir name h
    omega

/-- A file with a name is beneath what its directory is in. -/
theorem beneath_append_iff {base : List String} :
    Beneath base (dir ++ [name]) ↔ base <+: dir := by
  constructor
  · rintro ⟨rest, hne, heq⟩
    obtain ⟨rest, last, rfl⟩ := (List.eq_nil_or_concat' rest).resolve_left hne
    rw [← List.append_assoc] at heq
    exact ⟨rest, (List.append_inj_left' heq rfl).symm⟩
  · rintro ⟨rest, rfl⟩
    exact ⟨rest ++ [name], by simp, by rw [List.append_assoc]⟩

end UnixPath
