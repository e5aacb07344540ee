import Ubl.Auth.Onboarding
import Ubl.Lib.Split

/-!
# Readers of `@world`

Four functions take a world apart.  A world that is accepted is the text of a `WorldName`, a slug
for the app and maybe one for the tenant, and all four give these slugs back, but for
`World::tenant`: it cuts at the first `/t/`, and in `a/t/t/x` that is the one around the app
(`readersAgree_iff`).
-/

namespace Ubl.Auth

open Split
open Ubl.Nrf (splitParts validateWorld parseWorld)

/-! ## The readers -/

/-- `impl Display for WorldScope`. -/
def WorldScope.display (scope : WorldScope) : String :=
  match scope.tenant with
  | some t => "a/" ++ scope.app ++ "/t/" ++ t
  | none => "a/" ++ scope.app

inductive TypeParseError where
  | invalidPrefix (expected got : String)
deriving DecidableEq

/-- `World` of `ubl_types`. -/
structure World where
  inner : String
  starts : "a/".toList <+: inner.toList

def World.new (s : String) : Except TypeParseError World :=
  if h : "a/".toList <+: s.toList then .ok ⟨s, h⟩ else .error (.invalidPrefix "a/" s)

def World.app (world : World) : String :=
  let afterA := world.inner.toList.drop 2
  String.ofList ((splitText "/t/".toList afterA).head?.getD afterA)

def World.tenant (world : World) : Option String :=
  (splitText "/t/".toList world.inner.toList)[1]?.map String.ofList

/-! ## Names of worlds -/

/-- What may stand between two slashes. -/
structure Slug where
  text : String
  nonempty : text ≠ ""
  whole : '/' ∉ text.toList

structure WorldName where
  app : Slug
  tenant : Option Slug

def WorldName.scope (name : WorldName) : WorldScope :=
  ⟨name.app.text, name.tenant.map Slug.text⟩

def WorldName.text (name : WorldName) : String := name.scope.display

def WorldName.parts (name : WorldName) : List String :=
  match name.tenant with
  | none => ["a", name.app.text]
  | some tenant => ["a", name.app.text, "t", tenant.text]

theorem splitParts_eq_iff {sep : Char} {s : String} {parts : List String} :
    splitParts sep s = parts ↔ parts ≠ [] ∧ (∀ part ∈ parts, sep ∉ part.toList) ∧
      s.toList = [sep].intercalate (parts.map String.toList) := by
  have hmap : splitParts sep s = parts ↔ s.toList.splitOn sep = parts.map String.toList := by
    unfold splitParts
    constructor
    · rintro rfl
      simp [Function.comp_def]
    · intro h
      rw [h]
      simp [Function.comp_def]
  rw [hmap, splitOn_eq_iff, List.forall_mem_map, ne_eq, List.map_eq_nil_iff]

theorem splitParts_injective {sep : Char} : Function.Injective (splitParts sep) := by
  intro s s' h
  obtain ⟨-, -, hs⟩ := splitParts_eq_iff.mp h
  obtain ⟨-, -, hs'⟩ := splitParts_eq_iff.mp (rfl : splitParts sep s' = _)
  exact String.toList_inj.mp (hs.trans hs'.symm)

theorem WorldName.splitParts_text (name : WorldName) : splitParts '/' name.text = name.parts := by
  rw [splitParts_eq_iff]
  rcases name with ⟨app, tenant⟩
  cases tenant with
  | none =>
    refine ⟨by simp [parts], ?_, by simp [parts, text, scope, WorldScope.display]⟩
    simp [parts, app.whole]
  | some tenant =>
    refine ⟨by simp [parts], ?_, by simp [parts, text, scope, WorldScope.display]⟩
    simp [parts, app.whole, tenant.whole]

/-- What is accepted are the texts of names. -/
theorem validateWorld_iff {t : Nrf.Text} {w : String} :
    validateWorld t w = .ok () ↔ ∃ name : WorldName, w = name.text := by
  constructor
  · intro h
    unfold validateWorld at h
    split at h
    · rename_i a app hparts
      split_ifs at h with hcond
      obtain ⟨rfl, happ⟩ := hcond
      obtain ⟨-, hslash, -⟩ := splitParts_eq_iff.mp hparts
      let name : WorldName := ⟨⟨app, happ, hslash app (by simp)⟩, none⟩
      exact ⟨name, splitParts_injective (hparts.trans name.splitParts_text.symm)⟩
    · rename_i a app tt tenant hparts
      split_ifs at h with hcond
      obtain ⟨rfl, rfl, happ, htenant⟩ := hcond
      obtain ⟨-, hslash, -⟩ := splitParts_eq_iff.mp hparts
      let name : WorldName := ⟨⟨app, happ, hslash app (by simp)⟩,
        some ⟨tenant, htenant, hslash tenant (by simp)⟩⟩
      exact ⟨name, splitParts_injective (hparts.trans name.splitParts_text.symm)⟩
    · cases h
  · rintro ⟨name, rfl⟩
    rcases name with ⟨app, tenant⟩
    cases tenant with
    | none => simp [validateWorld, WorldName.splitParts_text, WorldName.parts, app.nonempty]
    | some tenant =>
      simp [validateWorld, WorldName.splitParts_text, WorldName.parts, app.nonempty,
        tenant.nonempty]

namespace WorldName

variable (name : WorldName)

theorem parse_text : WorldScope.parse name.text = .ok name.scope := by
  rcases name with ⟨app, tenant⟩
  cases tenant with
  | none => simp [WorldScope.parse, splitParts_text, parts, app.nonempty, scope]
  | some tenant =>
    simp [WorldScope.parse, splitParts_text, parts, app.nonempty, tenant.nonempty, scope]

theorem parseWorld_text : parseWorld name.text = name.tenant.map fun t => (name.app.text, t.text) := by
  rcases name with ⟨app, tenant⟩
  cases tenant <;> simp [parseWorld, splitParts_text, parts]

theorem starts : "a/".toList <+: name.text.toList := by
  rcases name with ⟨app, tenant⟩
  cases tenant with
  | none => exact ⟨app.text.toList, by simp [text, scope, WorldScope.display]⟩
  | some t =>
    exact ⟨app.text.toList ++ "/t/".toList ++ t.text.toList,
      by simp [text, scope, WorldScope.display]⟩

/-- The text behind the `a/`. -/
def afterA : List Char :=
  name.app.text.toList ++ ((name.tenant.map fun t => "/t/".toList ++ t.text.toList).getD [])

theorem toList_text : name.text.toList = "a/".toList ++ name.afterA := by
  rcases name with ⟨app, tenant⟩
  cases tenant <;> simp [text, scope, WorldScope.display, afterA]

/-- The text of a name as a `World`. -/
def world : World := ⟨name.text, name.starts⟩

theorem new_text : World.new name.text = .ok name.world := dif_pos name.starts

theorem splitText_afterA : splitText "/t/".toList name.afterA =
    name.app.text.toList :: (name.tenant.map fun t => t.text.toList).toList := by
  rcases name with ⟨app, tenant⟩
  cases tenant with
  | none =>
    have hsplit : splitText "/t/".toList app.text.toList = _ := splitText_of_not_mem app.whole
    rw [afterA, Option.map_none, Option.getD_none, List.append_nil, hsplit]
    rfl
  | some t =>
    have htenant : splitText "/t/".toList t.text.toList = _ := splitText_of_not_mem t.whole
    have hsplit : splitText "/t/".toList (app.text.toList ++ ("/t/".toList ++ t.text.toList)) = _ :=
      splitText_append app.whole
    exact hsplit.trans (congrArg (app.text.toList :: ·) htenant)

theorem app_world : name.world.app = name.app.text := by
  have hdrop : name.world.inner.toList.drop 2 = name.afterA := by
    show name.text.toList.drop 2 = _
    rw [toList_text]
    rfl
  unfold World.app
  simp only [hdrop, splitText_afterA]
  simp

/-- The app looks like the separator before the tenant. -/
def Shadowed : Prop := name.app.text = "t" ∧ name.tenant.isSome

variable {name}

theorem shadowed_of_afterA (h : "t/".toList <+: name.afterA) : name.Shadowed := by
  rcases name with ⟨⟨app, happ, hwhole⟩, tenant⟩
  obtain ⟨c, cs, hcs⟩ : ∃ c cs, app.toList = c :: cs :=
    List.exists_cons_of_ne_nil (mt String.toList_eq_nil_iff.mp happ)
  rw [hcs] at hwhole
  -- the second letter of the prefix is a slash, so the app is one letter long
  have hprefix : 't' :: ['/'] <+:
      c :: (cs ++ (tenant.map fun t => "/t/".toList ++ t.text.toList).getD []) := by
    simpa [afterA, hcs] using h
  obtain ⟨rfl, hrest⟩ := List.cons_prefix_cons.mp hprefix
  cases cs with
  | cons d ds =>
    obtain ⟨rfl, -⟩ := List.cons_prefix_cons.mp hrest
    simp at hwhole
  | nil =>
    refine ⟨String.toList_inj.mp hcs, ?_⟩
    cases tenant with
    | none => simp at hrest
    | some t => rfl

theorem shadowed_iff : name.Shadowed ↔ "a/t/t/".toList <+: name.text.toList := by
  rw [toList_text]
  constructor
  · rintro ⟨happ, htenant⟩
    obtain ⟨t, ht⟩ := Option.isSome_iff_exists.mp htenant
    exact ⟨t.text.toList, by simp [afterA, happ, ht]⟩
  · intro h
    have hafter : "t/t/".toList <+: name.afterA :=
      (List.prefix_append_right_inj "a/".toList).mp h
    exact shadowed_of_afterA ((List.prefix_append "t/".toList "t/".toList).trans hafter)

theorem tenant_world (h : ¬ name.Shadowed) :
    name.world.tenant = name.tenant.map Slug.text := by
  have hnot : ¬ "/t/".toList <+: '/' :: name.afterA :=
    fun hprefix => h (shadowed_of_afterA (List.cons_prefix_cons.mp hprefix).2)
  -- the slash in front of the app does not start a separator, and the app has no slash
  have hskip : splitText "/t/".toList name.text.toList =
      splitFrom "/t/".toList 0 (['a'] ++ ['/'] ++ name.app.text.toList)
        ((name.tenant.map fun t => "/t/".toList ++ t.text.toList).getD []) := by
    have ha : splitFrom "/t/".toList 0 [] (['a'] ++ '/' :: name.afterA) =
        splitFrom "/t/".toList 0 ['a'] ('/' :: name.afterA) :=
      splitFrom_append (by decide)
    have hslash : splitFrom "/t/".toList 0 ['a'] ('/' :: name.afterA) =
        splitFrom "/t/".toList 0 (['a'] ++ ['/']) name.afterA := splitFrom_cons hnot
    have happ : splitFrom "/t/".toList 0 (['a'] ++ ['/']) name.afterA = _ :=
      splitFrom_append name.app.whole
    rw [toList_text]
    exact ha.trans (hslash.trans happ)
  have hinner : name.world.inner.toList = name.text.toList := rfl
  unfold World.tenant
  rw [hinner, hskip]
  cases ht : name.tenant with
  | none => rfl
  | some t =>
    have hsep : splitFrom "/t/".toList 0 (['a'] ++ ['/'] ++ name.app.text.toList)
        ("/t/".toList ++ t.text.toList) = _ := splitFrom_sep
    have htenant : splitText "/t/".toList t.text.toList = _ := splitText_of_not_mem t.whole
    rw [Option.map_some, Option.getD_some, hsep]
    show (splitText "/t/".toList t.text.toList)[0]?.map String.ofList = some t.text
    rw [htenant]
    simp

/-- The separator that is found is the one around the app. -/
theorem tenant_world_shadowed {t : Slug} (h : name.Shadowed) (ht : name.tenant = some t) :
    name.world.tenant = some ("t/" ++ t.text) := by
  have htext : name.text.toList = ['a'] ++ ("/t/".toList ++ ("t/".toList ++ t.text.toList)) := by
    rw [toList_text, afterA, h.1, ht]
    rfl
  have hsplit : splitText "/t/".toList (['a'] ++ ("/t/".toList ++ ("t/".toList ++ t.text.toList))) =
      ['a'] :: splitText "/t/".toList ("t/".toList ++ t.text.toList) :=
    splitText_append (by decide)
  have hrest : splitText "/t/".toList ("t/".toList ++ t.text.toList) =
      ["t/".toList ++ t.text.toList] := by
    have hslash : ¬ "/t/".toList <+: '/' :: t.text.toList := by
      intro hprefix
      have hmore : ['t', '/'] <+: t.text.toList := (List.cons_prefix_cons.mp hprefix).2
      exact t.whole (hmore.subset (by simp))
    have h1 : splitFrom "/t/".toList 0 [] (['t'] ++ '/' :: t.text.toList) =
        splitFrom "/t/".toList 0 ['t'] ('/' :: t.text.toList) := splitFrom_append (by decide)
    have h2 : splitFrom "/t/".toList 0 ['t'] ('/' :: t.text.toList) =
        splitFrom "/t/".toList 0 (['t'] ++ ['/']) t.text.toList := splitFrom_cons hslash
    have h3 : splitFrom "/t/".toList 0 (['t'] ++ ['/']) (t.text.toList ++ []) = _ :=
      splitFrom_append t.whole
    rw [List.append_nil] at h3
    exact h1.trans (h2.trans h3)
  have hinner : name.world.inner.toList = name.text.toList := rfl
  unfold World.tenant
  rw [hinner, htext, hsplit, hrest]
  show some (String.ofList ("t/".toList ++ t.text.toList)) = _
  rw [← String.toList_append, String.ofList_toList]

end WorldName

/-! ## Agreement -/

/-- All readers of `w` come to one app and one tenant, and `Display` gives `w` back. -/
def ReadersAgree (w : String) : Prop :=
  ∃ (scope : WorldScope) (world : World), WorldScope.parse w = .ok scope ∧
    World.new w = .ok world ∧
    (∀ tenant, scope.tenant = some tenant → parseWorld w = some (scope.app, tenant)) ∧
    world.app = scope.app ∧ world.tenant = scope.tenant ∧ scope.display = w

/-- The readers of an accepted world agree unless it is the world of a tenant of the app `t`. -/
theorem readersAgree_iff (t : Nrf.Text) (w : String) (hvalid : validateWorld t w = .ok ()) :
    ReadersAgree w ↔ ¬ "a/t/t/".toList <+: w.toList := by
  obtain ⟨name, rfl⟩ := validateWorld_iff.mp hvalid
  rw [← WorldName.shadowed_iff]
  constructor
  · rintro ⟨scope, world, hscope, hworld, -, -, htenant, -⟩ hshadowed
    obtain rfl := Except.ok.inj (name.parse_text.symm.trans hscope)
    obtain rfl := Except.ok.inj (name.new_text.symm.trans hworld)
    obtain ⟨t, ht⟩ := Option.isSome_iff_exists.mp hshadowed.2
    rw [WorldName.tenant_world_shadowed hshadowed ht, WorldName.scope, ht] at htenant
    -- the two differ in length
    have hlength := congrArg String.length (Option.some.inj htenant)
    rw [String.length_append] at hlength
    have htwo : "t/".length = 2 := rfl
    omega
  · intro hshadowed
    refine ⟨name.scope, name.world, name.parse_text, name.new_text, ?_, name.app_world,
      WorldName.tenant_world hshadowed, rfl⟩
    intro tenant htenant
    obtain ⟨t, ht, rfl⟩ := Option.map_eq_some_iff.mp htenant
    rw [name.parseWorld_text, ht]
    rfl

theorem readersAgree_iff_prod : ReadersAgree "a/acme/t/prod" :=
  (readersAgree_iff Nrf.asciiText "a/acme/t/prod" rfl).mpr (by decide)

/-- A tenant of the app `t`. -/
def shadowedName : WorldName := ⟨⟨"t", by decide, by decide⟩, some ⟨"x", by decide, by decide⟩⟩

theorem readers_disagree : validateWorld Nrf.asciiText "a/t/t/x" = .ok () ∧
    WorldScope.parse "a/t/t/x" = .ok ⟨"t", some "x"⟩ ∧
    (∃ world, World.new "a/t/t/x" = .ok world ∧ world.tenant = some "t/x") ∧
    ¬ ReadersAgree "a/t/t/x" := by
  have htext : "a/t/t/x" = shadowedName.text := by decide
  have hshadowed : shadowedName.Shadowed := ⟨rfl, rfl⟩
  have htenant : shadowedName.world.tenant = some "t/x" :=
    WorldName.tenant_world_shadowed hshadowed rfl
  refine ⟨rfl, rfl, ⟨shadowedName.world, htext ▸ shadowedName.new_text, htenant⟩, ?_⟩
  rw [htext]
  rintro ⟨scope, world, hscope, hworld, -, -, hagree, -⟩
  obtain rfl := Except.ok.inj (shadowedName.parse_text.symm.trans hscope)
  obtain rfl := Except.ok.inj (shadowedName.new_text.symm.trans hworld)
  rw [htenant] at hagree
  exact absurd hagree (by decide)

end Ubl.Auth
