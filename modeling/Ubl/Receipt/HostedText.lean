import Ubl.Auth.World
import Ubl.Receipt.RichUrl

/-!
# Hosted links as texts

`to_url_string` writes a hosted link and `HostedUrl::parse` reads it back.  The parser takes the
first `/receipts/` of the path for the one in front of the receipt, so the two are inverse to
each other as long as neither the host nor a scope is called `receipts` (`parse_toUrlString_iff`).
-/

namespace Ubl.Receipt

open AssocMap ExceptLemmas Split
open Ubl.Nrf (splitParts)
open Ubl.Auth (splitParts_eq_iff)

inductive UrlError where
  | invalidFormat (e : String)
  | missingParam (p : String)
deriving DecidableEq

/-- The `Display` text of the error. -/
def UrlError.text : UrlError → String
  | .invalidFormat e => "Invalid URL format: " ++ e
  | .missingParam p => "Missing URL parameter: " ++ p

/-- `s.strip_suffix(suffix)`. -/
def stripSuffix (suffix s : List Char) : Option (List Char) :=
  if suffix.isSuffixOf s then some (s.take (s.length - suffix.length)) else none

namespace HostedUrl

def toUrlString (u : HostedUrl) : String :=
  u.host ++ "/" ++ u.app ++ "/" ++ u.tenant ++ "/receipts/" ++ u.receiptId ++ ".json#cid=" ++ u.cid ++
    "&did=" ++ u.did ++ "&rt=" ++ u.rt ++ "&sig=" ++ u.sig

/-- The last of two values under one name counts. -/
def parseQueryParams (query : String) : List (String × String) :=
  ((splitParts '&' query).filterMap (splitOnce '=')).foldl (fun params e => insertBack e.1 e.2 params) []

def getParam (params : List (String × String)) (name : String) : Except UrlError String :=
  match params.lookup name with
  | some value => .ok value
  | none => .error (.missingParam name)

/-- Host, app, tenant and receipt of `{host}/{app}/{tenant}/receipts/{id}.json`. -/
def parsePath (path : List Char) : Except UrlError (String × String × String × String) :=
  match cutText "/receipts/".toList path with
  | none => .error (.invalidFormat "Missing /receipts/ in path")
  | some (base, receiptFile) =>
    match stripSuffix ".json".toList receiptFile with
    | none => .error (.invalidFormat "Receipt path must end in .json")
    | some receiptId =>
      match rsplitn '/' 3 base with
      | [tenant, app, host] => .ok (String.ofList host, String.ofList app, String.ofList tenant,
          String.ofList receiptId)
      | _ => .error (.invalidFormat "Cannot parse host/app/tenant from path")

def parse (url : String) : Except UrlError HostedUrl :=
  match splitOnce '#' url with
  | none => .error (.invalidFormat "Missing # fragment")
  | some (path, fragment) => do
    let params := parseQueryParams fragment
    let cid ← getParam params "cid"
    let did ← getParam params "did"
    let rt ← getParam params "rt"
    let sig ← getParam params "sig"
    let (host, app, tenant, receiptId) ← parsePath path.toList
    .ok ⟨host, app, tenant, receiptId, cid, did, rt, sig⟩

/-- The parts of a link in which no mark of the format stands; the host is `https://` and a
name. -/
structure Plain (u : HostedUrl) (name : String) : Prop where
  host : u.host = "https://" ++ name
  segments : ∀ segment ∈ [name, u.app, u.tenant, u.receiptId],
    '/' ∉ segment.toList ∧ '#' ∉ segment.toList
  nonempty : ∀ segment ∈ [u.app, u.tenant, u.receiptId], segment ≠ ""
  values : ∀ value ∈ [u.cid, u.did, u.rt, u.sig], '&' ∉ value.toList ∧ '#' ∉ value.toList

end HostedUrl

/-! ## Texts -/

theorem splitOnce_eq_some_iff {sep : Char} {s before after : String} :
    splitOnce sep s = some (before, after) ↔
      s.toList = before.toList ++ sep :: after.toList ∧ sep ∉ before.toList := by
  constructor
  · intro h
    have hs : s.toList.takeWhile (· != sep) ++ s.toList.dropWhile (· != sep) = s.toList :=
      List.takeWhile_append_dropWhile
    unfold splitOnce at h
    split at h
    · cases h
    · next c rest hdrop =>
      obtain ⟨rfl, rfl⟩ := Prod.mk.inj (Option.some.inj h)
      have hc : (c != sep) = false := by
        have hhead := List.head_dropWhile_not (· != sep) (l := s.toList) (by rw [hdrop]; simp)
        simpa only [hdrop, List.head_cons] using hhead
      obtain rfl := bne_eq_false_iff_eq.mp hc
      rw [hdrop] at hs
      refine ⟨by rw [String.toList_ofList, String.toList_ofList, hs], fun hmem => ?_⟩
      rw [String.toList_ofList] at hmem
      exact absurd (List.mem_takeWhile_imp hmem) (by simp)
  · rintro ⟨hs, hsep⟩
    obtain ⟨htake, hdrop⟩ := @takeWhile_dropWhile_ne Char _ _ before.toList after.toList sep hsep
    simp only [splitOnce, hs, htake, hdrop, String.ofList_toList]

theorem stripSuffix_append (xs suffix : List Char) : stripSuffix suffix (xs ++ suffix) = some xs := by
  rw [stripSuffix, if_pos (List.isSuffixOf_iff_suffix.mpr (List.suffix_append xs suffix)),
    List.length_append, Nat.add_sub_cancel, List.take_left]

theorem eq_append_of_stripSuffix {suffix s xs : List Char} (h : stripSuffix suffix s = some xs) :
    s = xs ++ suffix := by
  unfold stripSuffix at h
  split_ifs at h with hsuffix
  obtain ⟨before, rfl⟩ := List.isSuffixOf_iff_suffix.mp hsuffix
  rw [List.length_append, Nat.add_sub_cancel, List.take_left] at h
  rw [Option.some.inj h]

/-! ## The path -/

section Path

variable {scheme word name app tenant rest : List Char}

/-- The segments of a path, an empty one behind the scheme. -/
def segments (scheme name app tenant word rest : List Char) : List Char :=
  scheme ++ '/' :: ([] ++ '/' :: (name ++ '/' :: (app ++ '/' :: (tenant ++ '/' ::
    (word ++ '/' :: rest)))))

variable (hname : '/' ∉ name) (happ : '/' ∉ app) (htenant : '/' ∉ tenant)

include hname happ htenant

/-- Where a word between slashes is found first: where it is meant, or with slashes behind it. -/
theorem cutText_segments (hscheme : '/' ∉ scheme) (hword : '/' ∉ word) (hne : [] ≠ word) :
    (name ≠ word ∧ app ≠ word ∧ tenant ≠ word →
      cutText ('/' :: (word ++ ['/'])) (segments scheme name app tenant word rest) =
        some (scheme ++ '/' :: '/' :: name ++ '/' :: app ++ '/' :: tenant, rest)) ∧
    (¬ (name ≠ word ∧ app ≠ word ∧ tenant ≠ word) →
      ∃ before after, cutText ('/' :: (word ++ ['/'])) (segments scheme name app tenant word rest) =
        some (before, after) ∧ '/' ∈ after) := by
  rw [segments, cutText_append hscheme, cutText_word hword List.not_mem_nil hne]
  by_cases h₁ : name = word
  · refine ⟨fun h => absurd h₁ h.1, fun _ => ?_⟩
    rw [h₁, cutText_word_self]
    exact ⟨_, _, rfl, by simp⟩
  rw [cutText_word hword hname h₁]
  by_cases h₂ : app = word
  · refine ⟨fun h => absurd h₂ h.2.1, fun _ => ?_⟩
    rw [h₂, cutText_word_self]
    exact ⟨_, _, rfl, by simp⟩
  rw [cutText_word hword happ h₂]
  by_cases h₃ : tenant = word
  · refine ⟨fun h => absurd h₃ h.2.2, fun _ => ?_⟩
    rw [h₃, cutText_word_self]
    exact ⟨_, _, rfl, by simp⟩
  rw [cutText_word hword htenant h₃, cutText_word_self]
  refine ⟨fun _ => ?_, fun h => absurd ⟨h₁, h₂, h₃⟩ h⟩
  simp

variable {receiptId : List Char}

/-- The path of a link. -/
def pathOf (name app tenant receiptId : List Char) : List Char :=
  segments "https:".toList name app tenant "receipts".toList (receiptId ++ ".json".toList)

/-- The parser finds the parts of a link, or takes for the receipt what has a slash in it. -/
theorem parsePath_pathOf :
    (name ≠ "receipts".toList ∧ app ≠ "receipts".toList ∧ tenant ≠ "receipts".toList →
      HostedUrl.parsePath (pathOf name app tenant receiptId) =
        .ok (String.ofList ("https://".toList ++ name), String.ofList app, String.ofList tenant,
          String.ofList receiptId)) ∧
    (¬ (name ≠ "receipts".toList ∧ app ≠ "receipts".toList ∧ tenant ≠ "receipts".toList) →
      ∀ host' app' tenant' receiptId',
        HostedUrl.parsePath (pathOf name app tenant receiptId) =
          .ok (host', app', tenant', receiptId') → '/' ∈ receiptId'.toList) := by
  have hsep : '/' :: ("receipts".toList ++ ['/']) = "/receipts/".toList := by decide
  have hcut := @cutText_segments "https:".toList "receipts".toList name app tenant
    (receiptId ++ ".json".toList) hname happ htenant (by decide) (by decide) (by decide)
  rw [hsep] at hcut
  obtain ⟨hright, hwrong⟩ := hcut
  constructor
  · intro h
    have hsegments : rsplitn '/' 3 ("https:".toList ++ '/' :: '/' :: name ++ '/' :: app ++
        '/' :: tenant) = [tenant, app, "https:".toList ++ '/' :: '/' :: name] := by
      simp only [rsplitn, cutLast_append htenant, cutLast_append happ]
    rw [HostedUrl.parsePath, pathOf, hright h]
    dsimp only
    rw [stripSuffix_append]
    dsimp only
    rw [hsegments]
    rfl
  · intro h host' app' tenant' receiptId' hparse
    obtain ⟨before, after, hcut, hslash⟩ := hwrong h
    rw [HostedUrl.parsePath, pathOf, hcut] at hparse
    dsimp only at hparse
    cases hstrip : stripSuffix ".json".toList after with
    | none =>
      rw [hstrip] at hparse
      cases hparse
    | some receipt =>
      rw [hstrip] at hparse
      have hmem : '/' ∈ receipt := by
        rw [eq_append_of_stripSuffix hstrip, List.mem_append] at hslash
        exact hslash.resolve_right (by decide)
      dsimp only at hparse
      split at hparse
      · obtain ⟨-, -, -, rfl⟩ := by simpa using Except.ok.inj hparse
        rwa [String.toList_ofList]
      · cases hparse

end Path

/-! ## The fragment -/

theorem parseQueryParams_fragment {cid did rt sig : String}
    (hvalues : ∀ value ∈ [cid, did, rt, sig], '&' ∉ value.toList) :
    HostedUrl.parseQueryParams ("cid=" ++ cid ++ "&did=" ++ did ++ "&rt=" ++ rt ++ "&sig=" ++ sig) =
      [("cid", cid), ("did", did), ("rt", rt), ("sig", sig)] := by
  have hsplit : splitParts '&' ("cid=" ++ cid ++ "&did=" ++ did ++ "&rt=" ++ rt ++ "&sig=" ++ sig) =
      ["cid=" ++ cid, "did=" ++ did, "rt=" ++ rt, "sig=" ++ sig] := by
    rw [splitParts_eq_iff]
    refine ⟨by simp, ?_, by simp [List.intercalate]⟩
    simpa using hvalues
  have hpair (key mark value : String) (hmark : mark.toList = key.toList ++ ['='])
      (hkey : '=' ∉ key.toList) : splitOnce '=' (mark ++ value) = some (key, value) :=
    splitOnce_eq_some_iff.mpr ⟨by simp [hmark], hkey⟩
  have hcid := hpair "cid" "cid=" cid (by decide) (by decide)
  have hdid := hpair "did" "did=" did (by decide) (by decide)
  have hrt := hpair "rt" "rt=" rt (by decide) (by decide)
  have hsig := hpair "sig" "sig=" sig (by decide) (by decide)
  rw [HostedUrl.parseQueryParams, hsplit]
  simp only [List.filterMap_cons, hcid, hdid, hrt, hsig, List.filterMap_nil, List.foldl_cons,
    List.foldl_nil]
  simp [insertBack]

/-- Everything of a link but its path is read back. -/
theorem parse_toUrlString {u : HostedUrl} {name : String} (h : u.Plain name) :
    HostedUrl.parse u.toUrlString =
      HostedUrl.parsePath (pathOf name.toList u.app.toList u.tenant.toList u.receiptId.toList) >>=
        fun p => .ok ⟨p.1, p.2.1, p.2.2.1, p.2.2.2, u.cid, u.did, u.rt, u.sig⟩ := by
  obtain ⟨hhost, hsegments, -, hvalues⟩ := h
  simp only [List.forall_mem_cons, List.not_mem_nil, false_implies, implies_true, and_true]
    at hsegments
  obtain ⟨⟨-, hname⟩, ⟨-, happ⟩, ⟨-, htenant⟩, -, hid⟩ := hsegments
  set path := u.host ++ "/" ++ u.app ++ "/" ++ u.tenant ++ "/receipts/" ++ u.receiptId ++ ".json"
    with hpath
  set fragment := "cid=" ++ u.cid ++ "&did=" ++ u.did ++ "&rt=" ++ u.rt ++ "&sig=" ++ u.sig
    with hfragment
  have hlist : path.toList =
      pathOf name.toList u.app.toList u.tenant.toList u.receiptId.toList := by
    simp [hpath, hhost, pathOf, segments]
  have hmark : '#' ∉ path.toList := by
    simp [hpath, hhost, hname, happ, htenant, hid]
  have hsplit : splitOnce '#' u.toUrlString = some (path, fragment) :=
    splitOnce_eq_some_iff.mpr ⟨by simp [HostedUrl.toUrlString, hpath, hfragment], hmark⟩
  have hparams := parseQueryParams_fragment fun value hvalue => (hvalues value hvalue).1
  rw [HostedUrl.parse, hsplit]
  dsimp only
  rw [hfragment, hparams, hlist]
  simp [HostedUrl.getParam, List.lookup]

/-- A link without the marks of the format in its parts is read back exactly when neither the name
of its host nor one of its scopes is `receipts`. -/
theorem parse_toUrlString_iff (u : HostedUrl) (name : String) (h : u.Plain name) :
    HostedUrl.parse u.toUrlString = .ok u ↔
      name ≠ "receipts" ∧ u.app ≠ "receipts" ∧ u.tenant ≠ "receipts" := by
  have hsegments := h.segments
  simp only [List.forall_mem_cons, List.not_mem_nil, false_implies, implies_true, and_true]
    at hsegments
  obtain ⟨⟨hname, -⟩, ⟨happ, -⟩, ⟨htenant, -⟩, hid, -⟩ := hsegments
  obtain ⟨hright, hwrong⟩ := @parsePath_pathOf _ _ _ hname happ htenant u.receiptId.toList
  simp only [ne_eq, String.toList_inj] at hright hwrong
  rw [parse_toUrlString h]
  constructor
  · intro hparse
    by_contra hreserved
    obtain ⟨⟨host', app', tenant', receiptId'⟩, hpath, hu⟩ := bind_eq_ok.mp hparse
    have hslash := hwrong hreserved _ _ _ _ hpath
    obtain rfl : receiptId' = u.receiptId := congrArg HostedUrl.receiptId (Except.ok.inj hu)
    exact hid hslash
  · intro hplain
    rw [hright hplain, bind_ok]
    simp only [String.ofList_append, String.ofList_toList]
    rw [← h.host]

/-- A link with the given app. -/
def linkUnder (app : String) : HostedUrl :=
  ⟨"https://ubl.example.com", app, "prod", "receipt-001", "b3:abc123", "did:key:z6Mk", "sha256:dead",
    "sig:xyz"⟩

theorem plain_linkUnder {app : String} (hmarks : '/' ∉ app.toList ∧ '#' ∉ app.toList)
    (hne : app ≠ "") : (linkUnder app).Plain "ubl.example.com" := by
  refine ⟨rfl, ?_, ?_, ?_⟩
  · simp [linkUnder, hmarks]
  · simp [linkUnder, hne]
  · simp [linkUnder]

theorem parse_toUrlString_acme :
    HostedUrl.parse (linkUnder "acme").toUrlString = .ok (linkUnder "acme") :=
  (parse_toUrlString_iff (linkUnder "acme") "ubl.example.com"
    (@plain_linkUnder "acme" (by decide) (by decide))).mpr (by decide)

/-- Under the app `receipts` the tenant is taken for a part of the receipt. -/
theorem parse_toUrlString_receipts : (linkUnder "receipts").Plain "ubl.example.com" ∧
    HostedUrl.parse (linkUnder "receipts").toUrlString ≠ .ok (linkUnder "receipts") := by
  have hplain := @plain_linkUnder "receipts" (by decide) (by decide)
  refine ⟨hplain, fun hparse => ?_⟩
  rw [parse_toUrlString hplain] at hparse
  obtain ⟨⟨host', app', tenant', receiptId'⟩, hpath, hu⟩ := bind_eq_ok.mp hparse
  have hslash := (parsePath_pathOf (by decide) (by decide) (by decide)).2 (by decide) _ _ _ _ hpath
  obtain rfl : receiptId' = "receipt-001" := congrArg HostedUrl.receiptId (Except.ok.inj hu)
  exact absurd hslash (by decide)

end Ubl.Receipt
