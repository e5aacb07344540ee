import Mathlib.Data.List.DropRight
import Ubl.Auth.Audience
import Ubl.Logline.Tokenizer

/-!
# `utils.rs` of the gate: what the world of a token covers

The gate compares worlds as the capabilities do, but trims both of them first: white space at the
ends, and then the slashes that are left there.  A tenant or an app may end in white space, and may
be nothing else, so that `a/x/t/ `, the world of one tenant, is trimmed to `a/x/t` and covers all
tenants of the app.

    worldScopeAllows s w = audienceMatchesWorld s w ↔
      the blanks at the end of a name make no difference         (worldScopeAllows_agrees_iff)
-/

namespace Ubl.Gate

open Ubl.Auth
open Ubl.Knock (isWhitespace)
open Ubl.Logline (trim)
open Ubl.Nrf (splitParts validateWorld)

/-! ## The two tests of a token -/

/-- `trim` and `trim_end_matches('/')`. -/
def trimWorld (world : String) : String :=
  String.ofList ((trim world.toList).rdropWhile (· == '/'))

def worldScopeAllows (scopeWorld targetWorld : String) : Bool :=
  let scope := trimWorld scopeWorld
  let target := trimWorld targetWorld
  if scope = "" ∨ target = "" then false
  else if scope = "*" then true
  else if target = scope then true
  else
    match stripPrefix scope target with
    | some rest => rest.toList.head? == some '/'
    | none => false

def scopeAllowsAny (scope required : List String) : Bool :=
  scope.any (· == "*") || required.any fun needle => scope.any (· == needle)

/-! ## Trimmed names -/

/-- A name without the white space at its end. -/
def trimEnd (name : String) : String := String.ofList (name.toList.rdropWhile isWhitespace)

theorem rdropWhile_append {α : Type} (p : α → Bool) (xs ys : List α) :
    (xs ++ ys).rdropWhile p =
      if ys.rdropWhile p = [] then xs.rdropWhile p else xs ++ ys.rdropWhile p := by
  induction ys using List.reverseRecOn with
  | nil => simp
  | append_singleton ys y ih =>
    rw [← List.append_assoc, List.rdropWhile_concat, List.rdropWhile_concat, ih]
    split_ifs with hy hnil hne
    · rfl
    · rfl
    · simp at hne
    · rw [List.append_assoc]

end Ubl.Gate

namespace Ubl.Auth.WorldName

open Ubl.Gate
open Ubl.Knock (isWhitespace)
open Ubl.Nrf (splitParts)

variable (name world : WorldName)

/-- The parts before the last name. -/
def stem : List String :=
  match name.tenant with
  | none => ["a"]
  | some _ => ["a", name.app.text, "t"]

def last : Slug := name.tenant.getD name.app

theorem parts_eq : name.parts = name.stem ++ [name.last.text] := by
  rcases name with ⟨app, _ | tenant⟩ <;> rfl

/-- The parts that trimming leaves: a last name that is blank is gone. -/
def trimmedParts : List String :=
  name.stem ++ if trimEnd name.last.text = "" then [] else [trimEnd name.last.text]

/-- The text of the stem starts and ends with a letter. -/
theorem exists_stem_eq : ∃ cs ds c, ['/'].intercalate (name.stem.map String.toList) = 'a' :: cs ∧
    ['/'].intercalate (name.stem.map String.toList) = ds ++ [c] ∧ isWhitespace c = false ∧
    c ≠ '/' := by
  rcases name with ⟨app, _ | tenant⟩
  · exact ⟨[], [], 'a', rfl, rfl, by decide, by decide⟩
  · refine ⟨_, "a/".toList ++ app.text.toList ++ ['/'], 't', rfl, ?_, by decide, by decide⟩
    simp [stem, List.intercalate_cons_cons]

theorem toList_trimWorld : (trimWorld name.text).toList =
    ['/'].intercalate (name.trimmedParts.map String.toList) := by
  obtain ⟨-, -, htext⟩ := splitParts_eq_iff.mp name.splitParts_text
  obtain ⟨cs, ds, c, hstart, hend, hblank, hslash⟩ := name.exists_stem_eq
  have hne : name.stem.map String.toList ≠ [] := by
    rcases name with ⟨app, _ | tenant⟩ <;> simp [stem]
  rw [parts_eq, List.map_append, Split.intercalate_append hne (by simp)] at htext
  have htext : name.text.toList = ['/'].intercalate (name.stem.map String.toList) ++ ['/'] ++
      name.last.text.toList := by simpa using htext
  have hfront : (name.text.toList).dropWhile isWhitespace = name.text.toList := by
    rw [htext, hstart]
    rfl
  have hstem : (['/'].intercalate (name.stem.map String.toList)).rdropWhile (· == '/') =
      ['/'].intercalate (name.stem.map String.toList) := by
    rw [hend, List.rdropWhile_concat_neg _ _ _ (by simpa using hslash)]
  have htrim : Logline.trim name.text.toList = name.text.toList.rdropWhile isWhitespace := by
    rw [Logline.trim, hfront]
    rfl
  rw [trimWorld, String.toList_ofList, htrim, htext, rdropWhile_append, trimmedParts]
  by_cases hlast : name.last.text.toList.rdropWhile isWhitespace = []
  · have hempty : trimEnd name.last.text = "" := by rw [trimEnd, hlast, String.ofList_nil]
    rw [if_pos hlast, if_pos hempty, List.append_nil, List.rdropWhile_concat_neg _ _ _ (by decide),
      List.rdropWhile_concat_pos _ _ _ (by decide), hstem]
  · have hnonempty : trimEnd name.last.text ≠ "" := by
      rwa [trimEnd, ne_eq, ← String.toList_inj, String.toList_ofList]
    have hnoslash : (name.last.text.toList.rdropWhile isWhitespace).rdropWhile (· == '/') =
        name.last.text.toList.rdropWhile isWhitespace := by
      rw [List.rdropWhile_eq_self_iff]
      intro hl heq
      have hmem := (List.rdropWhile_prefix isWhitespace _).subset (List.getLast_mem hl)
      exact name.last.whole (eq_of_beq heq ▸ hmem)
    rw [if_neg hlast, if_neg hnonempty, rdropWhile_append, hnoslash, if_neg hlast, List.map_append,
      Split.intercalate_append hne (by simp)]
    simp [trimEnd]

theorem splitParts_trimWorld : splitParts '/' (trimWorld name.text) = name.trimmedParts := by
  rw [splitParts_eq_iff]
  refine ⟨?_, fun part hpart => ?_, name.toList_trimWorld⟩
  · rcases name with ⟨app, _ | tenant⟩ <;> simp [trimmedParts, stem]
  · obtain ⟨-, hwhole, -⟩ := splitParts_eq_iff.mp name.splitParts_text
    rw [parts_eq] at hwhole
    rcases List.mem_append.mp hpart with hpart | hpart
    · exact hwhole part (List.mem_append_left _ hpart)
    · split_ifs at hpart with hempty
      · cases hpart
      · obtain rfl := List.mem_singleton.mp hpart
        rw [trimEnd, String.toList_ofList]
        exact fun hmem => name.last.whole ((List.rdropWhile_prefix isWhitespace _).subset hmem)

end Ubl.Auth.WorldName

namespace Ubl.Gate

open Ubl.Auth
open Ubl.Nrf (splitParts validateWorld)

/-! ## Agreement -/

/-- The test of the gate is that of the capabilities, on the trimmed worlds. -/
theorem worldScopeAllows_eq {s w : String} (hs : trimWorld s ≠ "") (hw : trimWorld w ≠ "")
    (hstar : trimWorld s ≠ "*") :
    worldScopeAllows s w = audienceMatchesWorld (trimWorld s) (trimWorld w) := by
  unfold worldScopeAllows audienceMatchesWorld
  generalize trimWorld s = scope at *
  generalize trimWorld w = target at *
  rw [if_neg (not_or.mpr ⟨hs, hw⟩), if_neg hstar]
  split_ifs with heq
  · rw [beq_iff_eq.mpr heq, Bool.true_or]
  · rw [beq_eq_false_iff_ne.mpr heq]
    cases stripPrefix scope target <;> rfl

theorem worldScopeAllows_iff_parts (name world : WorldName) :
    worldScopeAllows name.text world.text = true ↔ name.trimmedParts <+: world.trimmedParts := by
  have hparts (name : WorldName) (s : String) (hs : splitParts '/' s = [s]) (ha : s ≠ "a") :
      trimWorld name.text ≠ s := by
    rintro rfl
    rw [name.splitParts_trimWorld] at hs
    rcases name with ⟨app, _ | tenant⟩
    · simp only [WorldName.trimmedParts, WorldName.stem, List.cons_append, List.cons.injEq] at hs
      exact ha hs.1.symm
    · simp [WorldName.trimmedParts, WorldName.stem] at hs
  have hempty (name : WorldName) : trimWorld name.text ≠ "" := hparts name "" rfl (by decide)
  rw [worldScopeAllows_eq (hempty name) (hempty world) (hparts name "*" rfl (by decide)),
    audienceMatchesWorld_iff_parts, name.splitParts_trimWorld, world.splitParts_trimWorld]

/-- Two names that differ, the first of them blank, or both the same up to blanks at the end. -/
def Hides (name name' : String) : Prop :=
  name ≠ name' ∧ (trimEnd name = "" ∨ trimEnd name = trimEnd name')

instance : DecidableRel Hides := fun name name' =>
  inferInstanceAs (Decidable (name ≠ name' ∧ (trimEnd name = "" ∨ trimEnd name = trimEnd name')))

/-- The blanks at the end of a name decide whether a scope covers a world.  Where the world is that
of a tenant and the scope that of an app, only the scope's name is trimmed. -/
def BlanksDecide : WorldScope → WorldScope → Prop
  | ⟨app, some tenant⟩, ⟨app', some tenant'⟩ => app = app' ∧ Hides tenant tenant'
  | ⟨app, none⟩, ⟨app', none⟩ => Hides app app'
  | ⟨app, none⟩, ⟨app', some _⟩ =>
    if trimEnd app = "" then app ≠ app' else app ≠ trimEnd app ∧ (app' = app ∨ app' = trimEnd app)
  | ⟨_, some _⟩, ⟨_, none⟩ => False

instance : DecidableRel BlanksDecide
  | ⟨app, some tenant⟩, ⟨app', some tenant'⟩ =>
    inferInstanceAs (Decidable (app = app' ∧ Hides tenant tenant'))
  | ⟨app, none⟩, ⟨app', none⟩ => inferInstanceAs (Decidable (Hides app app'))
  | ⟨app, none⟩, ⟨app', some _⟩ =>
    inferInstanceAs (Decidable (if trimEnd app = "" then app ≠ app' else
      app ≠ trimEnd app ∧ (app' = app ∨ app' = trimEnd app)))
  | ⟨_, some _⟩, ⟨_, none⟩ => inferInstanceAs (Decidable False)

theorem agrees_iff_names (name world : WorldName) :
    worldScopeAllows name.text world.text = audienceMatchesWorld name.text world.text ↔
      ¬ BlanksDecide name.scope world.scope := by
  rw [Bool.eq_iff_iff, worldScopeAllows_iff_parts, audienceMatchesWorld_iff_parts,
    name.splitParts_text, world.splitParts_text]
  rcases name with ⟨app, _ | tenant⟩ <;> rcases world with ⟨app', _ | tenant'⟩ <;>
    simp only [WorldName.trimmedParts, WorldName.stem, WorldName.last, WorldName.parts,
      WorldName.scope, BlanksDecide, Hides, Option.getD_none, Option.getD_some, Option.map_none,
      Option.map_some]
  · -- both are apps
    by_cases happ : trimEnd app.text = ""
    · simp [happ]
    · by_cases happ' : trimEnd app'.text = ""
      · have hne : app.text ≠ app'.text := fun heq => happ (heq ▸ happ')
        simp [happ, happ', hne]
      · by_cases heq : app.text = app'.text <;> simp [happ, happ', heq]
  · -- an app and a tenant: the app of the tenant is not trimmed
    have hiff : (trimEnd app.text = app'.text ↔ app.text = app'.text) ↔
        ¬ (app.text ≠ trimEnd app.text ∧ (app'.text = app.text ∨ app'.text = trimEnd app.text)) := by
      grind
    by_cases happ : trimEnd app.text = ""
    · by_cases htenant : trimEnd tenant'.text = "" <;> simp [happ, htenant]
    · by_cases htenant : trimEnd tenant'.text = "" <;> simpa [happ, htenant] using hiff
  · by_cases htenant : trimEnd tenant.text = "" <;> by_cases happ : trimEnd app'.text = "" <;>
      simp [htenant, happ]
  · -- both are tenants
    by_cases happ : app.text = app'.text
    · by_cases htenant : trimEnd tenant.text = ""
      · by_cases htenant' : trimEnd tenant'.text = "" <;> simp [happ, htenant, htenant']
      · by_cases htenant' : trimEnd tenant'.text = ""
        · have hne : tenant.text ≠ tenant'.text := fun heq => htenant (heq ▸ htenant')
          simp [happ, htenant, htenant', hne]
        · by_cases heq : tenant.text = tenant'.text <;> simp [happ, htenant, htenant', heq]
    · by_cases htenant : trimEnd tenant.text = "" <;>
        by_cases htenant' : trimEnd tenant'.text = "" <;> simp [happ, htenant, htenant']

/-- On accepted worlds the gate's test is that of the capabilities unless the blanks at the end of a
name decide. -/
theorem worldScopeAllows_agrees_iff (t : Nrf.Text) (s w : String) (hs : validateWorld t s = .ok ())
    (hw : validateWorld t w = .ok ()) :
    worldScopeAllows s w = audienceMatchesWorld s w ↔
      ∀ scope target, WorldScope.parse s = .ok scope → WorldScope.parse w = .ok target →
        ¬ BlanksDecide scope target := by
  obtain ⟨name, rfl⟩ := validateWorld_iff.mp hs
  obtain ⟨world, rfl⟩ := validateWorld_iff.mp hw
  rw [agrees_iff_names, name.parse_text, world.parse_text]
  constructor
  · rintro h scope target ⟨⟩ ⟨⟩
    exact h
  · intro h
    exact h _ _ rfl rfl

theorem worldScopeAllows_agrees_iff_prod :
    worldScopeAllows "a/acme" "a/acme/t/prod" = audienceMatchesWorld "a/acme" "a/acme/t/prod" := by
  refine (worldScopeAllows_agrees_iff Nrf.asciiText "a/acme" "a/acme/t/prod" rfl rfl).mpr ?_
  have hparseScope : WorldScope.parse "a/acme" = .ok ⟨"acme", none⟩ := rfl
  have hparseTarget : WorldScope.parse "a/acme/t/prod" = .ok ⟨"acme", some "prod"⟩ := rfl
  intro scope target hscope htarget
  obtain rfl := Except.ok.inj (hparseScope.symm.trans hscope)
  obtain rfl := Except.ok.inj (hparseTarget.symm.trans htarget)
  decide +kernel

/-- The tenant of the scope is a blank, and its token covers every tenant of the app. -/
theorem blank_tenant_covers : validateWorld Nrf.asciiText "a/x/t/ " = .ok () ∧
    validateWorld Nrf.asciiText "a/x/t/b" = .ok () ∧ worldScopeAllows "a/x/t/ " "a/x/t/b" = true ∧
    ¬ ∀ s w : String, validateWorld Nrf.asciiText s = .ok () →
      validateWorld Nrf.asciiText w = .ok () →
      worldScopeAllows s w = audienceMatchesWorld s w := by
  have hallows : worldScopeAllows "a/x/t/ " "a/x/t/b" = true := by decide +kernel
  have hother : audienceMatchesWorld "a/x/t/ " "a/x/t/b" = false := by decide +kernel
  refine ⟨rfl, rfl, hallows, fun h => ?_⟩
  have heq := h "a/x/t/ " "a/x/t/b" rfl rfl
  rw [hallows, hother] at heq
  cases heq

end Ubl.Gate
