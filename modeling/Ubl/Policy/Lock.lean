import Ubl.Lib.AssocMap
import Ubl.Lib.ExceptLemmas
import Ubl.Lib.Split
import Ubl.Logline.Tokenizer

/-!
# `policy_lock.rs`: the lock file

A lock file pins the CID of the policy at each level, a line a level.  Whatever the reader accepts
has levels and CIDs that a line can hold (`fromYaml_legal`), and

    what is written is read back as it was if and only if the version is 1, each level and CID fits
    on a line, and no level is called `version`                           (fromYaml_toYaml_iff)

The last is a slip of the format: the line of such a level is taken for the version of the file.
-/

namespace Ubl.Policy

open AssocMap ExceptLemmas Split
open Ubl.Knock (isWhitespace)
open Ubl.Logline (trim)

/-! ## The lock -/

@[ext] structure PolicyLock where
  version : UInt32
  policies : List (String × String)
  ascending : Ascending policies

structure LockMismatch where
  level : String
  expectedCid : String
  actualCid : String
deriving DecidableEq

structure LockVerification where
  ok : Bool
  mismatches : List LockMismatch
  missing : List String
  extra : List String
deriving DecidableEq

/-! ## Lines and numbers -/

def stripReturn (line : List Char) : List Char :=
  if line.getLast? = some '\r' then line.dropLast else line

/-- The last piece has no line end; an empty one is no line. -/
def lineEnds : List (List Char) → List (List Char)
  | [] => []
  | [last] => if last = [] then [] else [last]
  | line :: next :: rest => stripReturn line :: lineEnds (next :: rest)

/-- `str::lines`. -/
def lines (text : List Char) : List (List Char) := lineEnds (text.splitOn '\n')

/-- `str::trim_start_matches`, which takes the pattern off as often as it is there. -/
def trimStartMatches (pattern : List Char) : Nat → List Char → List Char
  | 0, cs => cs
  | n + 1, cs =>
    if pattern.isPrefixOf cs then trimStartMatches pattern n (cs.drop pattern.length) else cs

def digitsU32 : Nat → List Char → Except String UInt32
  | n, [] => .ok (UInt32.ofNat n)
  | n, c :: cs =>
    if !c.isDigit then .error "invalid digit found in string"
    else if 2 ^ 32 ≤ n * 10 + (c.toNat - '0'.toNat) then
      .error "number too large to fit in target type"
    else digitsU32 (n * 10 + (c.toNat - '0'.toNat)) cs

/-- `str::parse::<u32>`. -/
def parseU32 : List Char → Except String UInt32
  | [] => .error "cannot parse integer from empty string"
  | ['+'] => .error "invalid digit found in string"
  | '+' :: digits => digitsU32 0 digits
  | digits => digitsU32 0 digits

namespace PolicyLock

theorem ascending_none : Ascending ([] : List (String × String)) := List.Pairwise.nil

def new : PolicyLock := ⟨1, [], ascending_none⟩

/-- Pin a policy at a level. -/
def pin (level cid : String) (lock : PolicyLock) : PolicyLock where
  version := lock.version
  policies := sortedInsert level cid lock.policies
  ascending := sortedInsert_ascending level cid lock.ascending

/-! ## Reading -/

/-- Between two lines. -/
structure Reading where
  lock : PolicyLock
  inPolicies : Bool

def readLine (st : Reading) (line : List Char) : Except String Reading :=
  let trimmed := trim line
  if trimmed = [] ∨ trimmed.head? = some '#' then .ok st
  else if "version:".toList.isPrefixOf trimmed then
    let v := trim (trimStartMatches "version:".toList trimmed.length trimmed)
    match parseU32 v with
    | .error e => .error ("invalid version: " ++ e)
    | .ok version => .ok { st with lock := { st.lock with version := version } }
  else if trimmed = "policies:".toList then .ok { st with inPolicies := true }
  else if st.inPolicies then
    match trimmed.dropWhile (· != ':') with
    | [] => .ok st
    | _ :: val =>
      let key := trim (trimmed.takeWhile (· != ':'))
      let val := trim val
      if val = [] then .ok st
      else .ok { st with lock := st.lock.pin (String.ofList key) (String.ofList val) }
  else .ok st

def fromYaml (yaml : String) : Except String PolicyLock := do
  let st ← (lines yaml.toList).foldlM readLine ⟨new, false⟩
  if st.lock.version ≠ 1 then
    .error ("unsupported lockfile version: " ++ toString st.lock.version.toNat)
  else .ok st.lock

def toYaml (lock : PolicyLock) : String :=
  lock.policies.foldl (fun out e => out ++ ("  " ++ e.1 ++ ": " ++ e.2 ++ "\n"))
    ("version: " ++ toString lock.version.toNat ++ "\npolicies:\n")

/-! ## Verification -/

/-- `loaded` has the CIDs of the policies that were loaded. -/
def verify (lock : PolicyLock) (loaded : List (String × String)) : LockVerification :=
  let mismatches := lock.policies.filterMap fun e =>
    (loaded.lookup e.1).bind fun actual => if actual ≠ e.2 then some ⟨e.1, e.2, actual⟩ else none
  let missing := (lock.policies.filter fun e => (loaded.lookup e.1).isNone).map Prod.fst
  { ok := mismatches.isEmpty && missing.isEmpty
    mismatches := mismatches
    missing := missing
    extra := (loaded.filter fun e => (lock.policies.lookup e.1).isNone).map Prod.fst }

/-- The lock is met exactly where each pinned policy is loaded; others may be loaded too. -/
theorem verify_ok_iff {lock : PolicyLock} {loaded : List (String × String)} :
    (lock.verify loaded).ok = true ↔ ∀ e ∈ lock.policies, loaded.lookup e.1 = some e.2 := by
  have hok : (lock.verify loaded).ok = true ↔
      (∀ e ∈ lock.policies, ((loaded.lookup e.1).bind fun actual =>
        if actual ≠ e.2 then some (⟨e.1, e.2, actual⟩ : LockMismatch) else none) = none) ∧
      ∀ e ∈ lock.policies, (loaded.lookup e.1).isNone ≠ true := by
    simp [verify, List.filterMap_eq_nil_iff]
  rw [hok, ← forall₂_and]
  refine forall₂_congr fun e _ => ?_
  cases loaded.lookup e.1 with
  | none => simp
  | some actual => simp

end PolicyLock

/-! ## Trimming -/

section Trim

variable {cs ds : List Char}

theorem dropWhile_eq_self_iff :
    cs.dropWhile isWhitespace = cs ↔ ∀ c ∈ cs.head?, isWhitespace c = false := by
  rw [List.dropWhile_eq_self_iff]
  cases cs with
  | nil => simp
  | cons c cs => simp

theorem head?_of_front {xs ys : List Char} (h : xs <+: ys) {c : Char} (hc : xs.head? = some c) :
    ys.head? = some c := by
  obtain ⟨rest, rfl⟩ := h
  rw [List.head?_append, hc]
  rfl

theorem trim_eq_rdropWhile : trim cs = (cs.dropWhile isWhitespace).rdropWhile isWhitespace := rfl

theorem trim_eq_self_iff : trim cs = cs ↔
    cs.dropWhile isWhitespace = cs ∧ cs.rdropWhile isWhitespace = cs := by
  constructor
  · intro h
    have hdrop : cs.dropWhile isWhitespace = cs := by
      refine (List.dropWhile_suffix _).eq_of_length (le_antisymm
        (List.dropWhile_suffix _).length_le ?_)
      calc cs.length = (trim cs).length := by rw [h]
        _ ≤ (cs.dropWhile isWhitespace).length := (List.rdropWhile_prefix _ _).length_le
    rw [trim_eq_rdropWhile, hdrop] at h
    exact ⟨hdrop, h⟩
  · rintro ⟨hdrop, hrdrop⟩
    rw [trim_eq_rdropWhile, hdrop, hrdrop]

theorem trim_trim : trim (trim cs) = trim cs := by
  rw [trim_eq_self_iff]
  constructor
  · refine dropWhile_eq_self_iff.mpr fun c hc => ?_
    have hfront : trim cs <+: cs.dropWhile isWhitespace := List.rdropWhile_prefix _ _
    have hhead := List.head?_dropWhile_not isWhitespace cs
    rw [head?_of_front hfront hc] at hhead
    exact hhead
  · exact List.rdropWhile_idempotent _ _

/-- Text between ends that are no whitespace. -/
theorem trim_append (hcs : cs.dropWhile isWhitespace = cs) (hne : cs ≠ [])
    (hds : ds.rdropWhile isWhitespace = ds) (hne' : ds ≠ []) : trim (cs ++ ds) = cs ++ ds := by
  rw [trim_eq_self_iff]
  constructor
  · cases cs with
    | nil => exact absurd rfl hne
    | cons first rest =>
      exact dropWhile_eq_self_iff.mpr fun c hc => dropWhile_eq_self_iff.mp hcs c hc
  · rw [List.rdropWhile_eq_self_iff] at hds ⊢
    intro h
    rw [List.getLast_append_of_ne_nil h hne']
    exact hds hne'

end Trim

/-! ## Lines -/

section Lines

theorem lines_append {line : List Char} (text : List Char) (hline : '\n' ∉ line)
    (hreturn : line.getLast? ≠ some '\r') :
    lines (line ++ '\n' :: text) = line :: lines text := by
  have hone : line.splitOn '\n' = [line] :=
    splitOn_eq_iff.mpr ⟨by simp, by simpa using hline, by simp [List.intercalate]⟩
  rw [lines, splitOn_append_cons, hone, lines]
  cases hpieces : text.splitOn '\n' with
  | nil => exact absurd hpieces (List.splitOn_ne_nil _ _)
  | cons next rest =>
    rw [List.singleton_append, lineEnds, stripReturn, if_neg hreturn]

theorem mem_lineEnds {pieces : List (List Char)} {line : List Char} (h : line ∈ lineEnds pieces) :
    ∃ piece ∈ pieces, line ⊆ piece := by
  induction pieces using lineEnds.induct with
  | case1 => cases h
  | case2 => simp [lineEnds] at h
  | case3 last hlast =>
    rw [lineEnds, if_neg hlast, List.mem_singleton] at h
    exact ⟨last, List.mem_singleton_self _, h ▸ List.Subset.refl _⟩
  | case4 first next rest ih =>
    rw [lineEnds] at h
    rcases List.mem_cons.mp h with rfl | h
    · refine ⟨first, List.mem_cons_self, ?_⟩
      unfold stripReturn
      split_ifs
      · exact List.dropLast_subset _
      · exact List.Subset.refl _
    · obtain ⟨piece, hpiece, hsub⟩ := ih h
      exact ⟨piece, List.mem_cons_of_mem _ hpiece, hsub⟩

theorem not_mem_lines {text line : List Char} (h : line ∈ lines text) : '\n' ∉ line := by
  obtain ⟨piece, hpiece, hsub⟩ := mem_lineEnds h
  exact fun hmem => not_mem_of_mem_splitOn hpiece (hsub hmem)

end Lines

namespace PolicyLock

/-! ## What a line can say -/

/-- The level and the CID fit on a line. -/
structure Legal (e : String × String) : Prop where
  level : trim e.1.toList = e.1.toList
  noColon : ':' ∉ e.1.toList
  noComment : e.1.toList.head? ≠ some '#'
  cid : trim e.2.toList = e.2.toList
  nonempty : e.2 ≠ ""
  oneLine : '\n' ∉ e.1.toList ∧ '\n' ∉ e.2.toList

section Legal

theorem trim_subset {cs : List Char} : trim cs ⊆ cs :=
  fun _ hc => (List.dropWhile_suffix _).subset ((List.rdropWhile_prefix _ _).subset hc)

/-- What is read as a level and a CID. -/
theorem legal_of_trimmed {line key val : List Char} (hline : '\n' ∉ line)
    (hcomment : (trim line).head? ≠ some '#')
    (hkey : key = (trim line).takeWhile (· != ':'))
    (hval : ':' :: val <:+ trim line) (hne : trim val ≠ []) :
    Legal (String.ofList (trim key), String.ofList (trim val)) := by
  have hfront : key <+: trim line := hkey ▸ List.takeWhile_prefix _
  have hkeyLine : trim key ⊆ line := fun c hc => trim_subset (hfront.subset (trim_subset hc))
  have hvalLine : trim val ⊆ line := fun c hc =>
    trim_subset (hval.subset (List.mem_cons_of_mem _ (trim_subset hc)))
  refine ⟨?_, ?_, ?_, ?_, ?_, ?_, ?_⟩
  · simp [trim_trim]
  · rw [String.toList_ofList]
    intro hc
    have hmem := trim_subset hc
    rw [hkey] at hmem
    exact absurd (List.mem_takeWhile_imp hmem) (by simp)
  · rw [String.toList_ofList]
    intro hhead
    have hdrop : key.dropWhile isWhitespace = key := by
      refine dropWhile_eq_self_iff.mpr fun c hc => ?_
      exact dropWhile_eq_self_iff.mp (trim_eq_self_iff.mp trim_trim).1 c (head?_of_front hfront hc)
    have hprefix : trim key <+: key := by
      rw [trim_eq_rdropWhile, hdrop]
      exact List.rdropWhile_prefix _ _
    exact hcomment (head?_of_front hfront (head?_of_front hprefix hhead))
  · simp [trim_trim]
  · simpa using hne
  · exact fun hc => hline (hkeyLine (by simpa using hc))
  · exact fun hc => hline (hvalLine (by simpa using hc))

theorem readLine_legal {st st' : Reading} {line : List Char} (hline : '\n' ∉ line)
    (hst : ∀ e ∈ st.lock.policies, Legal e) (h : readLine st line = .ok st') :
    ∀ e ∈ st'.lock.policies, Legal e := by
  unfold readLine at h
  dsimp only at h
  split_ifs at h with hskip hversion hpolicies hin
  · exact Except.ok.inj h ▸ hst
  · split at h
    · cases h
    · exact Except.ok.inj h ▸ hst
  · exact Except.ok.inj h ▸ hst
  · split at h
    · exact Except.ok.inj h ▸ hst
    · next mark val hdrop =>
      split_ifs at h with hval
      · exact Except.ok.inj h ▸ hst
      · obtain rfl := Except.ok.inj h
        intro e he
        rcases mem_sortedInsert he with rfl | he
        · obtain rfl : mark = ':' := by
            have hhead := List.head_dropWhile_not (· != ':') (l := trim line) (by simp [hdrop])
            simpa [hdrop] using hhead
          exact legal_of_trimmed hline (not_or.mp hskip).2 rfl
            (hdrop ▸ List.dropWhile_suffix _) hval
        · exact hst e he
  · exact Except.ok.inj h ▸ hst

theorem foldlM_legal {ls : List (List Char)} (hls : ∀ line ∈ ls, '\n' ∉ line) {st st' : Reading}
    (hst : ∀ e ∈ st.lock.policies, Legal e) (h : ls.foldlM readLine st = .ok st') :
    ∀ e ∈ st'.lock.policies, Legal e := by
  induction ls generalizing st with
  | nil => exact Except.ok.inj h ▸ hst
  | cons line ls ih =>
    obtain ⟨hline, hls⟩ := List.forall_mem_cons.mp hls
    rw [List.foldlM_cons] at h
    obtain ⟨next, hnext, h⟩ := bind_eq_ok.mp h
    exact ih hls (readLine_legal hline hst hnext) h

/-- Whatever is accepted has the one version, and levels and CIDs that a line can hold. -/
theorem fromYaml_legal {yaml : String} {lock : PolicyLock} (h : fromYaml yaml = .ok lock) :
    lock.version = 1 ∧ ∀ e ∈ lock.policies, Legal e := by
  obtain ⟨st, hst, h⟩ := bind_eq_ok.mp h
  split_ifs at h with hversion
  obtain rfl := Except.ok.inj h
  refine ⟨not_not.mp hversion, foldlM_legal (fun line => not_mem_lines) (fun e he => ?_) hst⟩
  cases he

end Legal

/-! ## What is written -/

section Written

def entryLine (e : String × String) : List Char :=
  ' ' :: ' ' :: (e.1.toList ++ ':' :: ' ' :: e.2.toList)

variable {e : String × String}

theorem trim_entryLine (h : Legal e) :
    trim (entryLine e) = e.1.toList ++ ':' :: ' ' :: e.2.toList := by
  have hblank : trim (entryLine e) = trim (e.1.toList ++ ':' :: ' ' :: e.2.toList) := by
    rw [trim_eq_rdropWhile, entryLine, List.dropWhile_cons, if_pos (by decide),
      List.dropWhile_cons, if_pos (by decide), ← trim_eq_rdropWhile]
  have hlevel := dropWhile_eq_self_iff.mp (trim_eq_self_iff.mp h.level).1
  have hfront : (e.1.toList ++ [':', ' ']).dropWhile isWhitespace = e.1.toList ++ [':', ' '] := by
    refine dropWhile_eq_self_iff.mpr fun c hc => ?_
    rw [List.head?_append] at hc
    cases hhead : e.1.toList.head? with
    | none =>
      rw [hhead] at hc
      obtain rfl := Option.some.inj hc
      decide
    | some first =>
      rw [hhead] at hc
      exact hlevel c (hhead.trans hc)
  have hbody := trim_append hfront (by simp) (trim_eq_self_iff.mp h.cid).2
    (by simpa using h.nonempty)
  rw [List.append_assoc] at hbody
  exact hblank.trans hbody

/-- The line of an entry is read as the entry, or for one level as a version. -/
theorem readLine_entryLine (h : Legal e) {st : Reading} (hin : st.inPolicies = true) :
    (e.1 ≠ "version" → readLine st (entryLine e) = .ok { st with lock := st.lock.pin e.1 e.2 }) ∧
    (e.1 = "version" → ∀ st', readLine st (entryLine e) = .ok st' →
      st'.lock.policies = st.lock.policies ∧ st'.inPolicies = true) := by
  have hhead : (e.1.toList ++ ':' :: ' ' :: e.2.toList).head? ≠ some '#' := by
    rw [List.head?_append]
    cases hlevel : e.1.toList.head? with
    | none => simp
    | some c => exact fun hc => h.noComment (hlevel.trans hc)
  have hskip : ¬ (e.1.toList ++ ':' :: ' ' :: e.2.toList = [] ∨
      (e.1.toList ++ ':' :: ' ' :: e.2.toList).head? = some '#') :=
    not_or.mpr ⟨by simp, hhead⟩
  have hpolicies : e.1.toList ++ ':' :: ' ' :: e.2.toList ≠ "policies:".toList := by
    intro heq
    have hsplit : e.1.toList ++ ':' :: ' ' :: e.2.toList = "policies".toList ++ ':' :: [] := heq
    exact absurd (eq_of_first h.noColon (by decide) hsplit).2 (by simp)
  have hversion : "version:".toList.isPrefixOf (e.1.toList ++ ':' :: ' ' :: e.2.toList) = true ↔
      e.1 = "version" := by
    rw [List.isPrefixOf_iff_prefix]
    constructor
    · rintro ⟨rest, hrest⟩
      have hsplit : "version".toList ++ ':' :: rest = e.1.toList ++ ':' :: ' ' :: e.2.toList := hrest
      exact String.toList_inj.mp (eq_of_first (by decide) h.noColon hsplit).1.symm
    · intro hlevel
      rw [hlevel]
      exact ⟨' ' :: e.2.toList, rfl⟩
  obtain ⟨htake, hdrop⟩ := @takeWhile_dropWhile_ne Char _ _ e.1.toList (' ' :: e.2.toList) ':'
    h.noColon
  have hcid : trim (' ' :: e.2.toList) = e.2.toList := by
    rw [trim_eq_rdropWhile, List.dropWhile_cons, if_pos (by decide), ← trim_eq_rdropWhile, h.cid]
  unfold readLine
  rw [trim_entryLine h]
  dsimp only
  rw [if_neg hskip]
  constructor
  · intro hlevel
    rw [if_neg (by rw [hversion]; exact hlevel), if_neg hpolicies, if_pos hin, hdrop]
    dsimp only
    rw [htake, hcid, h.level, if_neg (by simpa using h.nonempty), String.ofList_toList,
      String.ofList_toList]
  · intro hlevel st' hread
    rw [if_pos (hversion.mpr hlevel)] at hread
    split at hread
    · cases hread
    · obtain rfl := Except.ok.inj hread
      exact ⟨rfl, hin⟩

/-- The lines of ascending entries, behind what has been read. -/
theorem foldlM_entryLine {entries : List (String × String)} (hasc : Ascending entries)
    (hlegal : ∀ e ∈ entries, Legal e ∧ e.1 ≠ "version") {st : Reading} (hin : st.inPolicies = true)
    (habove : ∀ a ∈ st.lock.policies, ∀ e ∈ entries, a.1 < e.1) :
    ∃ lock : PolicyLock, (entries.map entryLine).foldlM readLine st = .ok ⟨lock, true⟩ ∧
      lock.version = st.lock.version ∧ lock.policies = st.lock.policies ++ entries := by
  induction entries generalizing st with
  | nil =>
    obtain ⟨lock, inPolicies⟩ := st
    obtain rfl : inPolicies = true := hin
    exact ⟨lock, rfl, rfl, (List.append_nil _).symm⟩
  | cons e entries ih =>
    obtain ⟨⟨he, hname⟩, hlegal⟩ := List.forall_mem_cons.mp hlegal
    obtain ⟨hfirst, hasc⟩ := List.pairwise_cons.mp hasc
    have hpin : (st.lock.pin e.1 e.2).policies = st.lock.policies ++ [e] :=
      sortedInsert_last e.2 fun a ha => habove a ha e List.mem_cons_self
    obtain ⟨lock, hfold, hversion, hpolicies⟩ :=
      @ih hasc hlegal { st with lock := st.lock.pin e.1 e.2 } hin fun a ha b hb => by
        rw [hpin] at ha
        rcases List.mem_append.mp ha with ha | ha
        · exact habove a ha b (List.mem_cons_of_mem _ hb)
        · obtain rfl := List.mem_singleton.mp ha
          exact hfirst b hb
    refine ⟨lock, ?_, hversion, ?_⟩
    · rw [List.map_cons, List.foldlM_cons, (readLine_entryLine he hin).1 hname]
      exact hfold
    · rw [hpolicies, hpin, List.append_assoc]
      rfl

/-- No line of an entry is read as one of the level `version`. -/
theorem foldlM_unversioned {entries : List (String × String)} (hlegal : ∀ e ∈ entries, Legal e)
    {st st' : Reading} (hin : st.inPolicies = true) (hst : "version" ∉ keys st.lock.policies)
    (h : (entries.map entryLine).foldlM readLine st = .ok st') :
    "version" ∉ keys st'.lock.policies := by
  induction entries generalizing st with
  | nil => exact Except.ok.inj h ▸ hst
  | cons e entries ih =>
    obtain ⟨he, hlegal⟩ := List.forall_mem_cons.mp hlegal
    rw [List.map_cons, List.foldlM_cons] at h
    obtain ⟨next, hnext, h⟩ := bind_eq_ok.mp h
    by_cases hname : e.1 = "version"
    · obtain ⟨hpolicies, hin'⟩ := (readLine_entryLine he hin).2 hname next hnext
      exact ih hlegal hin' (hpolicies ▸ hst) h
    · rw [(readLine_entryLine he hin).1 hname] at hnext
      obtain rfl := Except.ok.inj hnext
      refine @ih hlegal { st with lock := st.lock.pin e.1 e.2 } hin (fun hmem => ?_) h
      rcases mem_keys_sortedInsert.mp hmem with heq | hmem
      · exact hname heq.symm
      · exact hst hmem

theorem toList_toYaml (lock : PolicyLock) : lock.toYaml.toList =
    ("version: " ++ toString lock.version.toNat).toList ++ '\n' :: ("policies:".toList ++ '\n' ::
      lock.policies.flatMap fun e => entryLine e ++ ['\n']) := by
  have hfold (entries : List (String × String)) (out : String) :
      (entries.foldl (fun out e => out ++ ("  " ++ e.1 ++ ": " ++ e.2 ++ "\n")) out).toList =
        out.toList ++ entries.flatMap fun e => entryLine e ++ ['\n'] := by
    induction entries generalizing out with
    | nil => simp
    | cons e entries ih => simp [ih, entryLine]
  rw [toYaml, hfold]
  simp

theorem lines_entries {entries : List (String × String)} (h : ∀ e ∈ entries, Legal e) :
    lines (entries.flatMap fun e => entryLine e ++ ['\n']) = entries.map entryLine := by
  induction entries with
  | nil => rfl
  | cons e entries ih =>
    obtain ⟨he, hentries⟩ := List.forall_mem_cons.mp h
    have hline : '\n' ∉ entryLine e := by
      simp [entryLine, he.oneLine.1, he.oneLine.2]
    have hreturn : (entryLine e).getLast? ≠ some '\r' := by
      have hne : e.2.toList ≠ [] := by simpa using he.nonempty
      have hlast := List.rdropWhile_eq_self_iff.mp (trim_eq_self_iff.mp he.cid).2 hne
      have hsplit : entryLine e = (' ' :: ' ' :: e.1.toList ++ [':', ' ']) ++ e.2.toList := by
        simp [entryLine]
      rw [hsplit, List.getLast?_append_of_ne_nil _ hne, List.getLast?_eq_some_getLast hne]
      intro heq
      rw [Option.some.inj heq] at hlast
      exact hlast (by decide)
    rw [List.flatMap_cons, List.append_assoc, List.singleton_append,
      lines_append _ hline hreturn, ih hentries, List.map_cons]

/-- What is written is read back as it was exactly when the version is 1, each level and CID fits on
a line, and no level is called `version`. -/
theorem fromYaml_toYaml_iff (lock : PolicyLock) :
    fromYaml lock.toYaml = .ok lock ↔
      lock.version = 1 ∧ ∀ e ∈ lock.policies, Legal e ∧ e.1 ≠ "version" := by
  have hread (hversion : lock.version = 1) (hlegal : ∀ e ∈ lock.policies, Legal e) :
      (lines lock.toYaml.toList).foldlM readLine ⟨new, false⟩ =
        (lock.policies.map entryLine).foldlM readLine ⟨new, true⟩ := by
    have hfirst : ("version: " ++ toString (1 : UInt32).toNat).toList = "version: 1".toList := rfl
    have hone : readLine ⟨new, false⟩ "version: 1".toList = .ok ⟨new, false⟩ := rfl
    have htwo : readLine ⟨new, false⟩ "policies:".toList = .ok ⟨new, true⟩ := rfl
    rw [toList_toYaml, hversion, hfirst, lines_append _ (by decide) (by decide),
      lines_append _ (by decide) (by decide), lines_entries hlegal, List.foldlM_cons, hone,
      bind_ok, List.foldlM_cons, htwo, bind_ok]
  constructor
  · intro h
    obtain ⟨hversion, hlegal⟩ := fromYaml_legal h
    refine ⟨hversion, fun e he => ⟨hlegal e he, fun hname => ?_⟩⟩
    obtain ⟨st, hst, h⟩ := bind_eq_ok.mp h
    rw [hread hversion hlegal] at hst
    split_ifs at h
    obtain rfl := Except.ok.inj h
    refine foldlM_unversioned hlegal rfl ?_ hst (hname ▸ mem_keys.mpr ⟨e.2, he⟩)
    exact List.not_mem_nil
  · rintro ⟨hversion, hentries⟩
    obtain ⟨read, hfold, hone, hpolicies⟩ := @foldlM_entryLine lock.policies lock.ascending
      hentries ⟨new, true⟩ rfl fun a ha => (by cases ha)
    obtain rfl : read = lock := PolicyLock.ext (hone.trans hversion.symm) hpolicies
    rw [fromYaml, hread hversion fun e he => (hentries e he).1, hfold]
    exact if_neg (not_not.mpr hversion)

end Written

end PolicyLock

end Ubl.Policy
