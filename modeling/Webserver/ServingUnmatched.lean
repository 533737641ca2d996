import Webserver.ServingReach

/-!
# Targets without a location

Where `RouteRequest` ends for a target that no declared path covers. The loop cuts a target that
begins with two slashes down to `/`, which is a key of every table.
-/

set_option autoImplicit false

namespace Webserver

open PrefixMatch RequestDispatcher

universe u

namespace RequestDispatcher
variable {κ : Type u}

/-- The value of `cur_path` at which the loop of `RouteRequest` finds a factory. -/
def loopMatch (find : Str → Option κ) (req : ParsedRequest) : Option Str :=
  if req.method ∉ [Verb.get, Verb.put, Verb.post, Verb.delete] then none
  else if req.version ≠ 11 then none
  else
    let uriBasePath := extractUriBasePath req.target
    match find uriBasePath with
    | some _ => none
    | none =>
      match searchLoop find uriBasePath uriBasePath.length (beforeLastSlash uriBasePath) with
      | .found curPath _ _ => some curPath
      | _ => none

/-- The loop finds nothing at `/`, and the answer is 400 without a handler. -/
structure Unmatched (find : Str → Option κ)
    (handleRequest : κ → Str → ParsedRequest → Response → Response) (req : ParsedRequest)
    (res : Response) : Prop where
  loop : loopMatch find req ≠ some ['/']
  answer : ∃ page, page.result = .badRequest ∧
    runRouteRequest find handleRequest req res = .answered [] page

variable {find : Str → Option κ}
  {handleRequest : κ → Str → ParsedRequest → Response → Response} {req : ParsedRequest}
  {res : Response}

theorem unmatched_of_refused
    (h : req.method ∉ [Verb.get, Verb.put, Verb.post, Verb.delete] ∨ req.version ≠ 11) :
    Unmatched find handleRequest req res := by
  by_cases hmethod : req.method ∉ [Verb.get, Verb.put, Verb.post, Verb.delete]
  · constructor
    · simp [loopMatch, hmethod]
    · exact ⟨badRequest res, rfl, by rw [runRouteRequest, if_pos hmethod]⟩
  · have hversion := h.resolve_left hmethod
    constructor
    · simp [loopMatch, hversion]
    · exact ⟨badRequest res, rfl, by rw [runRouteRequest, if_neg hmethod, if_pos hversion]⟩

/-- A path in front of a slash is `/` exactly if two slashes begin it. -/
theorem covers_top_iff {b : Str} (hb : b ≠ ['/']) : Covers '/' ['/'] b ↔ ['/', '/'] <+: b := by
  constructor
  · intro h
    exact h.resolve_left hb
  · exact Or.inr

section Top
variable (hslash : ∀ k, find k ≠ none → '/' ∈ k) (htop : find ['/'] ≠ none)
  (hbase : extractUriBasePath req.target ≠ ['/'])
  (honly : ∀ k, find k ≠ none → Covers '/' k (extractUriBasePath req.target) → k = ['/'])
  (hmethod : req.method ∈ [Verb.get, Verb.put, Verb.post, Verb.delete])
  (hversion : req.version = 11)
include hslash htop hbase honly hmethod hversion

/-- Where `/` alone may cover a target, the search ends there exactly if two slashes begin it. -/
theorem unmatched_iff_of_only :
    Unmatched find handleRequest req res ↔
      ¬ ['/', '/'] <+: extractUriBasePath req.target := by
  have hself : find (extractUriBasePath req.target) = none := by
    by_contra hne
    exact hbase (honly _ hne (Or.inl rfl))
  rw [← covers_top_iff hbase]
  rcases search_spec hslash req.target with ⟨k, factory, path, he, hk, _, hlong⟩ | ⟨he, hnone⟩
  · obtain rfl := honly k (by simp [hk]) hlong.covers
    constructor
    · intro h
      obtain ⟨page, _, hrun⟩ := h.answer
      rw [runRouteRequest, if_neg (not_not.mpr hmethod), if_neg (not_not.mpr hversion), he] at hrun
      exact absurd hrun (by simp)
    · intro hnot
      exact absurd hlong.covers hnot
  · constructor
    · intro _ hcovers
      exact htop (hnone _ hcovers)
    · intro _
      constructor
      · rw [search, hself] at he
        rw [loopMatch, if_neg (not_not.mpr hmethod), if_neg (not_not.mpr hversion)]
        simp [hself, he]
      · refine ⟨errorPage req.version .badRequest "400 Bad Request".toList res, rfl, ?_⟩
        rw [runRouteRequest, if_neg (not_not.mpr hmethod), if_neg (not_not.mpr hversion), he]

end Top

end RequestDispatcher

namespace ServingConfig

open Location
variable {config : NginxConfig}

theorem covers_declared {l : Location} {k b : Str} (hkey : rules.key l = some k)
    (hk : Covers '/' k b) : Covers '/' l.servingPath b := by
  rcases key_eq_some_iff.mp hkey with ⟨_, rfl⟩ | ⟨_, rfl⟩
  · exact hk
  · right
    have hsleep : l.servingPath ++ ['/'] <+: l.servingPath ++ "/sleep".toList := by
      rw [List.prefix_append_right_inj]
      exact ⟨"sleep".toList, rfl⟩
    exact hsleep.trans hk.isPrefix

theorem find_top (h : (fresh.setPaths config).1 = 0) : (fresh.setPaths config).2.find ['/'] ≠ none := by
  rw [find, lookup_setPaths (setPaths_eq_zero_iff.mp h).1, if_pos rfl]
  exact Option.some_ne_none _

theorem find_declared (h : (fresh.setPaths config).1 = 0) {k : Str}
    (hk : (fresh.setPaths config).2.find k ≠ none) :
    k = ['/'] ∨ ∃ l ∈ locations config, rules.key l = some k := by
  rw [find, lookup_setPaths (setPaths_eq_zero_iff.mp h).1] at hk
  by_cases htop : k = ['/']
  · exact Or.inl htop
  · rw [if_neg htop, ne_eq, Option.map_eq_none_iff, Registration.Rules.bound_eq_none_iff] at hk
    push Not at hk
    exact Or.inr hk

/-- A target that no declared path covers is answered like the others exactly if the request is
refused anyway or its path does not begin with two slashes. -/
theorem unmatched_iff (config : NginxConfig) (h : (fresh.setPaths config).1 = 0)
    (handleRequest : Created → Str → ParsedRequest → Response → Response) (req : ParsedRequest)
    (res : Response) (hbase : extractUriBasePath req.target ≠ ['/'])
    (hnone : ∀ l ∈ locations config,
      ¬ Covers '/' l.servingPath (extractUriBasePath req.target)) :
    Unmatched (fresh.setPaths config).2.find handleRequest req res ↔
      req.method ∉ [Verb.get, Verb.put, Verb.post, Verb.delete] ∨ req.version ≠ 11 ∨
        ¬ ['/', '/'] <+: extractUriBasePath req.target := by
  by_cases hrefused : req.method ∉ [Verb.get, Verb.put, Verb.post, Verb.delete] ∨ req.version ≠ 11
  · rw [← or_assoc]
    exact iff_of_true (unmatched_of_refused hrefused) (Or.inl hrefused)
  · obtain ⟨hmethod, hversion⟩ := not_or.mp hrefused
    have honly (k : Str) (hk : (fresh.setPaths config).2.find k ≠ none)
        (hcovers : Covers '/' k (extractUriBasePath req.target)) : k = ['/'] := by
      rcases find_declared h hk with htop | ⟨l, hl, hkey⟩
      · exact htop
      · exact absurd (covers_declared hkey hcovers) (hnone l hl)
    rw [unmatched_iff_of_only (find_slash h) (find_top h) hbase honly (not_not.mp hmethod)
      (not_not.mp hversion)]
    constructor
    · exact fun hprefix => Or.inr (Or.inr hprefix)
    · rintro (hm | hv | hprefix)
      · exact absurd hm hmethod
      · exact absurd hv hversion
      · exact hprefix

namespace Demo

def get (target : Str) : ParsedRequest := ⟨⟨.get, 11, []⟩, target, []⟩

def echoOnly : NginxConfig := server [block "/echo".toList "EchoHandler".toList]

def noHandler (_ : Created) (_ : Str) (_ : ParsedRequest) (res : Response) : Response := res

end Demo

theorem unmatched_iff_nope :
    Unmatched (fresh.setPaths Demo.echoOnly).2.find Demo.noHandler (Demo.get "/nope/x".toList)
      .fresh :=
  (unmatched_iff Demo.echoOnly (by decide) Demo.noHandler (Demo.get "/nope/x".toList) .fresh
    (by decide) (by decide)).mpr (Or.inr (Or.inr (by decide)))

/-- `//nope` is dispatched to the NotFoundHandler. -/
theorem not_unmatched_twoSlashes :
    ¬ Unmatched (fresh.setPaths Demo.echoOnly).2.find Demo.noHandler
      (Demo.get "//nope".toList) .fresh := by
  intro h
  exact absurd rfl h.loop

end ServingConfig

end Webserver
