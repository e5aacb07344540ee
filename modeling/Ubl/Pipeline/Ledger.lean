import Ubl.Auth.World
import Ubl.Lib.Path

/-!
# The audit ledger

The ledger of a world with a tenant is `{base_dir}/{app}/{tenant}/receipts.ndjson`.  The slugs are
joined to the path as they are, and an accepted slug may be `.` or `..`.  Exactly the slugs that
are neither keep a ledger beneath the base directory and apart from all others
(`ledger_separate_iff`).
-/

namespace Ubl.Pipeline

open UnixPath
open Ubl.Auth (Slug WorldName validateWorld_iff)
open Ubl.Nrf (validateWorld parseWorld)

/-! ## Paths -/

structure NdjsonLedger where
  baseDir : String

def NdjsonLedger.ledgerPath (ledger : NdjsonLedger) (app tenant : String) : String :=
  join (join (join ledger.baseDir app) tenant) "receipts.ndjson"

/-- `(app, tenant)` of the entry that the pipeline appends for a request. -/
def ledgerSlugs (world : String) : String × String := (parseWorld world).getD ("unknown", "unknown")

/-- The file to which an entry for a world is appended. -/
def ledgerFile (cwd : List String) (ledger : NdjsonLedger) (world : String) : List String :=
  resolve cwd (ledger.ledgerPath (ledgerSlugs world).1 (ledgerSlugs world).2)

/-- The directory of a ledger. -/
def ledgerDir (base : List String) (app tenant : Slug) : List String :=
  step (step base app.text) tenant.text

/-- The world of a tenant. -/
def tenantWorld (app tenant : Slug) : String := (WorldName.mk app (some tenant)).text

theorem ledgerSlugs_tenantWorld (app tenant : Slug) :
    ledgerSlugs (tenantWorld app tenant) = (app.text, tenant.text) := by
  rw [ledgerSlugs, tenantWorld, WorldName.parseWorld_text]
  rfl

theorem ledgerFile_tenantWorld (cwd : List String) (ledger : NdjsonLedger) (app tenant : Slug) :
    ledgerFile cwd ledger (tenantWorld app tenant) =
      ledgerDir (resolve cwd ledger.baseDir) app tenant ++ ["receipts.ndjson"] := by
  have hname : IsName "receipts.ndjson" := ⟨by decide, by decide, by decide⟩
  rw [ledgerFile, ledgerSlugs_tenantWorld, NdjsonLedger.ledgerPath, resolve_join (by decide),
    resolve_join tenant.whole, resolve_join app.whole, step_name hname]
  rfl

/-- The accepted worlds with a tenant. -/
theorem exists_tenantWorld {t : Nrf.Text} {world : String} (hvalid : validateWorld t world = .ok ())
    (htenant : (parseWorld world).isSome) :
    ∃ app tenant, world = tenantWorld app tenant := by
  obtain ⟨⟨app, tenant⟩, rfl⟩ := validateWorld_iff.mp hvalid
  cases tenant with
  | none =>
    rw [WorldName.parseWorld_text] at htenant
    cases htenant
  | some tenant => exact ⟨app, tenant, rfl⟩

theorem validateWorld_tenantWorld {t : Nrf.Text} (app tenant : Slug) :
    validateWorld t (tenantWorld app tenant) = .ok () :=
  validateWorld_iff.mpr ⟨_, rfl⟩

/-! ## Slugs that lead down -/

section Slugs

variable {base : List String} {app tenant app' tenant' : Slug}

theorem isName_iff {slug : Slug} : IsName slug.text ↔ slug.text ≠ "." ∧ slug.text ≠ ".." :=
  ⟨fun h => ⟨h.ne_dot, h.ne_dotdot⟩, fun h => ⟨slug.nonempty, h.1, h.2⟩⟩

/-- Two names lead two steps down. -/
theorem ledgerDir_names (happ : IsName app.text) (htenant : IsName tenant.text) :
    ledgerDir base app tenant = base ++ [app.text, tenant.text] := by
  rw [ledgerDir, step_name htenant, step_name happ, List.append_assoc]
  rfl

theorem length_ledgerDir_le (h : ¬ (IsName app.text ∧ IsName tenant.text)) :
    (ledgerDir base app tenant).length ≤ base.length + 1 := by
  unfold ledgerDir
  by_cases htenant : IsName tenant.text
  · have happ : ¬ IsName app.text := fun happ => h ⟨happ, htenant⟩
    have hup := @length_step_le base _ happ
    have hdown := @length_step_le_succ (step base app.text) tenant.text
    omega
  · have hup := @length_step_le (step base app.text) _ htenant
    have hdown := @length_step_le_succ base app.text
    omega

/-- One step down was by the name it ends in. -/
theorem ledgerDir_last {name : String} (heq : ledgerDir base app tenant = base ++ [name]) :
    ∃ slug : Slug, slug.text = name ∧ IsName slug.text := by
  have hlength : (ledgerDir base app tenant).length = base.length + 1 := by
    rw [heq, List.length_append, List.length_singleton]
  unfold ledgerDir at heq hlength
  by_cases htenant : IsName tenant.text
  · rw [step_name htenant] at heq
    exact ⟨tenant, List.singleton_inj.mp (List.append_inj_right' heq rfl), htenant⟩
  · -- a slug that is no name and does not lead up
    have hdot : tenant.text = "." := by
      by_contra hdot
      have hdotdot : tenant.text = ".." := by
        by_contra hdotdot
        exact htenant (isName_iff.mpr ⟨hdot, hdotdot⟩)
      have hdown := @length_step_le_succ base app.text
      rw [hdotdot, step_dotdot, List.length_dropLast] at hlength
      omega
    rw [hdot, step_dot] at heq hlength
    have happ : IsName app.text := by
      by_contra happ
      have hup := @length_step_le base _ happ
      omega
    rw [step_name happ] at heq
    exact ⟨app, List.singleton_inj.mp (List.append_inj_right' heq rfl), happ⟩

/-! ## Slugs that do not -/

def dot : Slug := ⟨".", by decide, by decide⟩

def dotdot : Slug := ⟨"..", by decide, by decide⟩

def unnamed : Slug := ⟨"elsewhere", by decide, by decide⟩

/-- Of two pairs one is another than a third. -/
theorem ne_or_ne {α : Type} {a b c : α} (h : a ≠ b) : a ≠ c ∨ b ≠ c := by
  by_contra hboth
  obtain ⟨ha, hb⟩ := not_or.mp hboth
  exact h ((not_not.mp ha).trans (not_not.mp hb).symm)

/-- A ledger that is beneath the base directory, but not two names down, is the ledger of another
pair of slugs too. -/
theorem exists_same_dir (h : ¬ (IsName app.text ∧ IsName tenant.text))
    (hbeneath : base <+: ledgerDir base app tenant) :
    ∃ app' tenant' : Slug, ledgerDir base app' tenant' = ledgerDir base app tenant ∧
      (app'.text, tenant'.text) ≠ (app.text, tenant.text) := by
  obtain ⟨rest, hrest⟩ := hbeneath
  have hlength := @length_ledgerDir_le base app tenant h
  rw [← hrest, List.length_append] at hlength
  match rest, hrest, hlength with
  | [], hrest, _ =>
    -- the base directory itself
    rw [List.append_nil] at hrest
    have hup : ledgerDir base unnamed dotdot = base := by
      have hname : IsName unnamed.text := ⟨by decide, by decide, by decide⟩
      rw [ledgerDir, step_name hname]
      exact List.dropLast_concat
    have hne : (dot.text, dot.text) ≠ (unnamed.text, dotdot.text) := by decide
    obtain hother | hother := ne_or_ne (c := (app.text, tenant.text)) hne
    · exact ⟨dot, dot, hrest, hother⟩
    · exact ⟨unnamed, dotdot, hup.trans hrest, hother⟩
  | [name], hrest, _ =>
    obtain ⟨slug, rfl, hname⟩ := ledgerDir_last hrest.symm
    have hfirst : ledgerDir base slug dot = base ++ [slug.text] := by
      rw [ledgerDir, step_name hname]
      rfl
    have hsecond : ledgerDir base dot slug = base ++ [slug.text] := step_name hname
    have hne : (slug.text, dot.text) ≠ (dot.text, slug.text) :=
      fun heq => hname.ne_dot (congrArg Prod.fst heq)
    obtain hother | hother := ne_or_ne (c := (app.text, tenant.text)) hne
    · exact ⟨slug, dot, hfirst.trans hrest, hother⟩
    · exact ⟨dot, slug, hsecond.trans hrest, hother⟩
  | _ :: _ :: rest, _, hlength => simp at hlength

/-- Two names lead to a directory to which no other slugs lead. -/
theorem ledgerDir_unique (happ : IsName app.text) (htenant : IsName tenant.text)
    (h : ledgerDir base app' tenant' = ledgerDir base app tenant) :
    (app'.text, tenant'.text) = (app.text, tenant.text) := by
  rw [ledgerDir_names happ htenant] at h
  have hnames : IsName app'.text ∧ IsName tenant'.text := by
    by_contra hnot
    have hle := @length_ledgerDir_le base app' tenant' hnot
    rw [h, List.length_append] at hle
    simp at hle
  rw [ledgerDir_names hnames.1 hnames.2] at h
  have hlist := List.append_cancel_left h
  simp only [List.cons.injEq, and_true] at hlist
  rw [hlist.1, hlist.2]

end Slugs

/-! ## The ledgers of accepted worlds -/

/-- The ledger of the world is beneath the base directory, and no accepted world with other slugs
has the same one. -/
def LedgerSeparate (t : Nrf.Text) (cwd : List String) (ledger : NdjsonLedger) (world : String) :
    Prop :=
  Beneath (resolve cwd ledger.baseDir) (ledgerFile cwd ledger world) ∧
    ∀ other, validateWorld t other = .ok () → (parseWorld other).isSome →
      ledgerSlugs other ≠ ledgerSlugs world →
      ledgerFile cwd ledger other ≠ ledgerFile cwd ledger world

/-- The ledger of a world is apart from all others exactly when both its slugs are names. -/
theorem ledger_separate_iff (t : Nrf.Text) (cwd : List String) (ledger : NdjsonLedger)
    (world : String) (hvalid : validateWorld t world = .ok ())
    (htenant : (parseWorld world).isSome) :
    LedgerSeparate t cwd ledger world ↔
      (ledgerSlugs world).1 ∉ [".", ".."] ∧ (ledgerSlugs world).2 ∉ [".", ".."] := by
  obtain ⟨app, tenant, rfl⟩ := exists_tenantWorld hvalid htenant
  have hnames : ((ledgerSlugs (tenantWorld app tenant)).1 ∉ [".", ".."] ∧
      (ledgerSlugs (tenantWorld app tenant)).2 ∉ [".", ".."]) ↔
        IsName app.text ∧ IsName tenant.text := by
    simp only [ledgerSlugs_tenantWorld, isName_iff, List.mem_cons, List.not_mem_nil, or_false,
      not_or]
  have hfile (app' tenant' : Slug) : ledgerFile cwd ledger (tenantWorld app' tenant') =
      ledgerFile cwd ledger (tenantWorld app tenant) ↔
        ledgerDir (resolve cwd ledger.baseDir) app' tenant' =
          ledgerDir (resolve cwd ledger.baseDir) app tenant := by
    rw [ledgerFile_tenantWorld, ledgerFile_tenantWorld, List.append_cancel_right_eq]
  rw [hnames, LedgerSeparate, ledgerFile_tenantWorld cwd ledger app tenant, beneath_append_iff,
    ← ledgerFile_tenantWorld cwd ledger app tenant]
  constructor
  · rintro ⟨hbeneath, hseparate⟩
    by_contra hnot
    obtain ⟨app', tenant', hdir, hne⟩ := exists_same_dir hnot hbeneath
    refine hseparate (tenantWorld app' tenant') (validateWorld_tenantWorld app' tenant') ?_ ?_
      ((hfile app' tenant').mpr hdir)
    · rw [tenantWorld, WorldName.parseWorld_text]
      rfl
    · rw [ledgerSlugs_tenantWorld, ledgerSlugs_tenantWorld]
      exact hne
  · rintro ⟨happ, htenant⟩
    refine ⟨⟨_, (ledgerDir_names happ htenant).symm⟩, fun other hother hsome hne heq => ?_⟩
    obtain ⟨app', tenant', rfl⟩ := exists_tenantWorld hother hsome
    have hunique := ledgerDir_unique happ htenant ((hfile app' tenant').mp heq)
    exact hne (by rw [ledgerSlugs_tenantWorld, ledgerSlugs_tenantWorld, hunique])

theorem ledger_separate_iff_prod :
    LedgerSeparate Nrf.asciiText ["srv", "ubl"] ⟨"./data/ledger"⟩ "a/acme/t/prod" :=
  (ledger_separate_iff Nrf.asciiText ["srv", "ubl"] ⟨"./data/ledger"⟩ "a/acme/t/prod" rfl
    rfl).mpr (by decide)

/-- The ledger of `a/../t/..` is above the base directory. -/
theorem ledger_escapes : validateWorld Nrf.asciiText "a/../t/.." = .ok () ∧
    (parseWorld "a/../t/..").isSome ∧
    (⟨"./data/ledger"⟩ : NdjsonLedger).ledgerPath ".." ".." =
      "./data/ledger/../../receipts.ndjson" ∧
    ledgerFile ["srv", "ubl"] ⟨"./data/ledger"⟩ "a/../t/.." = ["srv", "ubl", "receipts.ndjson"] ∧
    ¬ LedgerSeparate Nrf.asciiText ["srv", "ubl"] ⟨"./data/ledger"⟩ "a/../t/.." := by
  have hfile : ledgerFile ["srv", "ubl"] ⟨"./data/ledger"⟩ "a/../t/.." =
      ["srv", "ubl", "receipts.ndjson"] := by decide
  refine ⟨rfl, rfl, by decide, hfile, fun hseparate => ?_⟩
  obtain ⟨⟨rest, hne, hrest⟩, -⟩ := hseparate
  have hbase : resolve ["srv", "ubl"] "./data/ledger" = ["srv", "ubl", "data", "ledger"] := by
    decide
  rw [hfile, hbase] at hrest
  have hlength := congrArg List.length hrest
  simp at hlength

end Ubl.Pipeline
