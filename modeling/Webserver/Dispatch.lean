import Webserver.Library.PrefixMatch
import Webserver.RequestDispatcher

/-!
# The search of the dispatcher

`RouteRequest` for an arbitrary table, with the handlers it runs, the range check of `substr`
and a loop that may not end. For a table of rooted keys the search ends and finds the longest
key that covers the target.
-/

set_option autoImplicit false

namespace Webserver

open PrefixMatch

universe u

/-- A table whose keys all begin with a slash. -/
structure RouteTable (κ : Type u) where
  find : Str → Option κ
  rooted : ∀ k, find k ≠ none → k.head? = some '/'

namespace RequestDispatcher
variable {κ : Type u}

/-- `s.substr(pos)`; a position behind the end throws `out_of_range`. -/
def substr (s : Str) (pos : Nat) : Option Str := if pos ≤ s.length then some (s.drop pos) else none

/-- Where the search of a table ends: at a key with its factory and the path for
`CreateHandler`, without one, in an exception, or not at all. -/
inductive Search (κ : Type u) where
  | found (location : Str) (factory : κ) (path : Str)
  | notFound
  | outOfRange
  | running

/-- The loop of `RouteRequest`, for at most as many rounds as given. -/
def searchLoop (find : Str → Option κ) (uriBasePath : Str) : Nat → Str → Search κ
  | 0, _ => .running
  | k + 1, curPath =>
    if '/' ∈ curPath then
      match find curPath with
      | some factory =>
        match substr uriBasePath (curPath.length + 1) with
        | some filePath => .found curPath factory filePath
        | none => .outOfRange
      | none => searchLoop find uriBasePath k (beforeLastSlash curPath)
    else .notFound

def search (find : Str → Option κ) (target : Str) : Search κ :=
  let uriBasePath := extractUriBasePath target
  match find uriBasePath with
  | some factory => .found uriBasePath factory uriBasePath
  | none => searchLoop find uriBasePath uriBasePath.length (beforeLastSlash uriBasePath)

/-- A call of `RouteRequest`: the handlers it ran, each with its factory and path, and the
response it leaves. -/
inductive Routed (κ : Type u) where
  | answered (runs : List (κ × Str)) (res : Response)
  | outOfRange
  | running

/-- `RouteRequest` with the handlers it runs. -/
def runRouteRequest (find : Str → Option κ)
    (handleRequest : κ → Str → ParsedRequest → Response → Response)
    (req : ParsedRequest) (res : Response) : Routed κ :=
  if req.method ∉ [Verb.get, Verb.put, Verb.post, Verb.delete] then .answered [] (badRequest res)
  else if req.version ≠ 11 then .answered [] (badRequest res)
  else
    match search find req.target with
    | .found _ factory path => .answered [(factory, path)] (handleRequest factory path req res)
    | .notFound =>
      .answered [] (errorPage req.version .badRequest "400 Bad Request".toList res)
    | .outOfRange => .outOfRange
    | .running => .running

theorem beforeLastSlash_length {s : Str} (h : '/' ∈ s) : (beforeLastSlash s).length < s.length := by
  obtain ⟨n, hn, _⟩ := beforeLastSlash_eq h
  have hlen := congrArg List.length hn
  simp only [List.length_append, List.length_cons] at hlen
  omega

theorem covers_beforeLastSlash {k s : Str} (h : '/' ∈ s) :
    Covers '/' k s ↔ k = s ∨ Covers '/' k (beforeLastSlash s) := by
  obtain ⟨n, hn, hnslash⟩ := beforeLastSlash_eq h
  have hkeys := covers_append_sep (k := k) (c := beforeLastSlash s) hnslash
  rwa [← hn] at hkeys

/-- A path that is no key itself is served by the keys of its shorter part. -/
theorem longest_of_beforeLastSlash {find : Str → Option κ} {k s : Str} (h : '/' ∈ s)
    (hfind : find s = none) (hlong : Longest '/' find (beforeLastSlash s) k) :
    Longest '/' find s k := by
  refine ⟨(covers_beforeLastSlash h).mpr (Or.inr hlong.covers), ?_⟩
  intro k' hne hk'
  rcases (covers_beforeLastSlash h).mp hk' with rfl | hk'
  · exact absurd hfind hne
  · exact hlong.longest k' hne hk'

theorem none_of_beforeLastSlash {find : Str → Option κ} {s : Str} (h : '/' ∈ s)
    (hfind : find s = none) (hnone : ∀ k, Covers '/' k (beforeLastSlash s) → find k = none)
    (k : Str) (hk : Covers '/' k s) : find k = none := by
  rcases (covers_beforeLastSlash h).mp hk with rfl | hk
  · exact hfind
  · exact hnone k hk

theorem longest_self {find : Str → Option κ} (s : Str) : Longest '/' find s s :=
  ⟨Or.inl rfl, fun _ _ hk' => hk'.length_le⟩

/-- With a round for every character the loop ends, at the longest key that covers the path it
starts with. -/
theorem searchLoop_spec {find : Str → Option κ} (hslash : ∀ k, find k ≠ none → '/' ∈ k)
    {base : Str} (rounds : Nat) {curPath : Str} (hlen : curPath.length < rounds)
    (hcur : '/' ∈ curPath → ∃ rest, base = curPath ++ '/' :: rest) :
    (∃ k factory path, searchLoop find base rounds curPath = .found k factory path ∧
      find k = some factory ∧ base = k ++ '/' :: path ∧ Longest '/' find curPath k) ∨
    (searchLoop find base rounds curPath = .notFound ∧
      ∀ k, Covers '/' k curPath → find k = none) := by
  induction rounds generalizing curPath with
  | zero => omega
  | succ rounds ih =>
    rw [searchLoop]
    by_cases hmem : '/' ∈ curPath
    · obtain ⟨rest, hrest⟩ := hcur hmem
      rw [if_pos hmem]
      cases hfind : find curPath with
      | some factory =>
        have hsub : substr base (curPath.length + 1) = some rest := by
          simp [substr, hrest]
        exact Or.inl ⟨curPath, factory, rest, by rw [hsub], hfind, hrest, longest_self curPath⟩
      | none =>
        obtain ⟨n, hn, _⟩ := beforeLastSlash_eq hmem
        have hshort := beforeLastSlash_length hmem
        have hbase : '/' ∈ beforeLastSlash curPath →
            ∃ rest, base = beforeLastSlash curPath ++ '/' :: rest :=
          fun _ => ⟨n ++ '/' :: rest, by rw [hrest]; conv_lhs => rw [hn]; simp⟩
        rcases ih (show (beforeLastSlash curPath).length < rounds by omega) hbase with
          ⟨k, factory, path, he, hk, hpath, hlong⟩ | ⟨he, hnone⟩
        · exact Or.inl ⟨k, factory, path, he, hk, hpath,
            longest_of_beforeLastSlash hmem hfind hlong⟩
        · exact Or.inr ⟨he, none_of_beforeLastSlash hmem hfind hnone⟩
    · rw [if_neg hmem]
      refine Or.inr ⟨rfl, ?_⟩
      intro k hk
      by_contra hne
      exact hmem (hk.isPrefix.subset (hslash k hne))

/-- What a search ends with, for the match of the dispatch. -/
def Search.ofMatch : Option Match → Search HandlerFactory
  | some m => .found m.location m.factory m.path
  | none => .notFound

theorem searchLoop_eq_prefixLoop (T : HandlerFactories) {base : Str} (rounds : Nat)
    {curPath : Str} (hlen : curPath.length < rounds)
    (hcur : '/' ∈ curPath → ∃ rest, base = curPath ++ '/' :: rest) :
    searchLoop T.find base rounds curPath = .ofMatch (prefixLoop T base rounds curPath) := by
  induction rounds generalizing curPath with
  | zero => omega
  | succ rounds ih =>
    rw [searchLoop, prefixLoop]
    by_cases hmem : '/' ∈ curPath
    · obtain ⟨rest, hrest⟩ := hcur hmem
      rw [if_pos hmem, if_pos hmem]
      cases hfind : T.find curPath with
      | some factory =>
        have hsub : substr base (curPath.length + 1) = some (base.drop (curPath.length + 1)) := by
          simp [substr, hrest]
        simp only [hsub]
        rfl
      | none =>
        obtain ⟨n, hn, _⟩ := beforeLastSlash_eq hmem
        have hshort := beforeLastSlash_length hmem
        apply ih (by omega)
        intro _
        exact ⟨n ++ '/' :: rest, by rw [hrest]; conv_lhs => rw [hn]; simp⟩
    · rw [if_neg hmem, if_neg hmem]
      rfl

theorem extractUriBasePath_ne_nil (target : Str) : extractUriBasePath target ≠ [] := by
  rcases extractUriBasePath_cases target with h | h
  · rw [h]
    exact List.cons_ne_nil _ _
  · exact h.1

/-- The search as a whole, at the path that is looked up first. -/
theorem search_spec {find : Str → Option κ} (hslash : ∀ k, find k ≠ none → '/' ∈ k)
    (target : Str) :
    (∃ k factory path, search find target = .found k factory path ∧ find k = some factory ∧
      ((extractUriBasePath target = k ∧ path = extractUriBasePath target) ∨
        extractUriBasePath target = k ++ '/' :: path) ∧
      Longest '/' find (extractUriBasePath target) k) ∨
    (search find target = .notFound ∧
      ∀ k, Covers '/' k (extractUriBasePath target) → find k = none) := by
  have hne := extractUriBasePath_ne_nil target
  rw [search]
  generalize extractUriBasePath target = base at hne ⊢
  cases hfind : find base with
  | some factory =>
    exact Or.inl ⟨base, factory, base, rfl, hfind, Or.inl ⟨rfl, rfl⟩, longest_self base⟩
  | none =>
    by_cases hmem : '/' ∈ base
    · obtain ⟨n, hn, _⟩ := beforeLastSlash_eq hmem
      rcases searchLoop_spec hslash base.length (beforeLastSlash_length hmem)
          (fun _ => ⟨n, hn⟩) with
        ⟨k, factory, path, he, hk, hpath, hlong⟩ | ⟨he, hnone⟩
      · exact Or.inl ⟨k, factory, path, he, hk, Or.inr hpath,
          longest_of_beforeLastSlash hmem hfind hlong⟩
      · exact Or.inr ⟨he, none_of_beforeLastSlash hmem hfind hnone⟩
    · have hloop : searchLoop find base base.length (beforeLastSlash base) = .notFound := by
        obtain ⟨m, hm⟩ := Nat.exists_eq_succ_of_ne_zero (List.length_pos_iff.mpr hne).ne'
        rw [hm, searchLoop, beforeLastSlash, if_neg hmem, if_neg hmem]
      refine Or.inr ⟨hloop, ?_⟩
      intro k hk
      by_contra hkey
      exact hmem (hk.isPrefix.subset (hslash k hkey))

/-- What the search finds is in the table, as the longest match of the target. -/
theorem of_search_found {find : Str → Option κ} (hslash : ∀ k, find k ≠ none → '/' ∈ k)
    {target k : Str} {factory : κ} {path : Str} (h : search find target = .found k factory path) :
    find k = some factory ∧ Longest '/' find (extractUriBasePath target) k := by
  rcases search_spec hslash target with ⟨k', factory', path', he, hk, _, hlong⟩ | ⟨he, _⟩
  · rw [h] at he
    obtain ⟨rfl, rfl, _⟩ := Search.found.inj he
    exact ⟨hk, hlong⟩
  · rw [h] at he
    exact absurd he (by simp)

/-- With the table of a server the search is the dispatch. -/
theorem search_eq_route (T : HandlerFactories) (target : Str) :
    search T.find target = .ofMatch (route T target) := by
  have hne := extractUriBasePath_ne_nil target
  rw [search, route]
  generalize extractUriBasePath target = base at hne ⊢
  cases hfind : T.find base with
  | some factory => rfl
  | none =>
    by_cases hmem : '/' ∈ base
    · obtain ⟨n, hn, _⟩ := beforeLastSlash_eq hmem
      exact searchLoop_eq_prefixLoop T _ (beforeLastSlash_length hmem) fun _ => ⟨n, hn⟩
    · obtain ⟨m, hm⟩ := Nat.exists_eq_succ_of_ne_zero (List.length_pos_iff.mpr hne).ne'
      simp only [hm, searchLoop, prefixLoop, beforeLastSlash, if_neg hmem]
      rfl

def Search.map {κ' : Type u} (f : κ → κ') : Search κ → Search κ'
  | .found location factory path => .found location (f factory) path
  | .notFound => .notFound
  | .outOfRange => .outOfRange
  | .running => .running

theorem search_map {κ' : Type u} (f : κ → κ') (find : Str → Option κ) (target : Str) :
    search (fun k => (find k).map f) target = (search find target).map f := by
  have hloop (base : Str) (rounds : Nat) (curPath : Str) :
      searchLoop (fun k => (find k).map f) base rounds curPath =
        (searchLoop find base rounds curPath).map f := by
    induction rounds generalizing curPath with
    | zero => rfl
    | succ rounds ih =>
      rw [searchLoop, searchLoop]
      split
      · cases find curPath with
        | none => exact ih _
        | some factory => cases substr base (curPath.length + 1) <;> rfl
      · rfl
  rw [search, search]
  cases find (extractUriBasePath target) with
  | none => simp only [Option.map_none, hloop]
  | some factory => simp only [Option.map_some, Search.map]

theorem runRouteRequest_eq (T : HandlerFactories)
    (handleRequest : HandlerFactory → Str → ParsedRequest → Response → Response)
    (req : ParsedRequest) (res : Response) :
    ∃ runs, runRouteRequest T.find handleRequest req res =
      .answered runs (routeRequest T handleRequest req res) := by
  rw [runRouteRequest, routeRequest, search_eq_route]
  split
  · exact ⟨_, rfl⟩
  · split
    · exact ⟨_, rfl⟩
    · cases route T req.target with
      | some m => exact ⟨_, rfl⟩
      | none => exact ⟨_, rfl⟩

/-- Slashes and a query string at the end of a target do not show in the path looked up. -/
theorem extractUriBasePath_append {p q : Str} (hp : '?' ∉ p) (hq : q = [] ∨ q.head? = some '?')
    (m : Nat) :
    extractUriBasePath (p ++ List.replicate m '/' ++ q) = extractUriBasePath p := by
  have htake (s : Str) (hs : '?' ∉ s) (r : Str) (hr : r = [] ∨ r.head? = some '?') :
      (s ++ r).takeWhile (· ≠ '?') = s := by
    rw [List.takeWhile_append_of_pos]
    · rcases hr with rfl | hr
      · simp
      · cases r with
        | nil => simp
        | cons c r =>
          obtain rfl : c = '?' := by simpa using hr
          simp
    · intro c hc
      have hne : c ≠ '?' := fun heq => hs (heq ▸ hc)
      simpa using hne
  have hpm : '?' ∉ p ++ List.replicate m '/' := by
    simp [hp, List.mem_replicate]
  have hstem := stem_append_replicate '/' p m
  unfold stem at hstem
  have hself := htake p hp [] (Or.inl rfl)
  rw [List.append_nil] at hself
  simp only [extractUriBasePath, htake _ hpm q hq, hself, hstem]

/-- Two targets that differ only in their query strings or in slashes at the end of their
paths. -/
def Alike (target target' : Str) : Prop :=
  ∃ p m m' q q', '?' ∉ p ∧ (q = [] ∨ q.head? = some '?') ∧ (q' = [] ∨ q'.head? = some '?') ∧
    target = p ++ List.replicate m '/' ++ q ∧ target' = p ++ List.replicate m' '/' ++ q'

theorem search_alike (find : Str → Option κ) {target target' : Str} (h : Alike target target') :
    search find target = search find target' := by
  obtain ⟨p, m, m', q, q', hp, hq, hq', rfl, rfl⟩ := h
  rw [search, search, extractUriBasePath_append hp hq, extractUriBasePath_append hp hq']

/-- `RouteRequest` runs one handler, of the longest key that covers the base path of the target,
or answers 400 and runs none; targets that are alike get the handler of one factory and path. -/
theorem runRouteRequest_longest (T : RouteTable κ)
    (handleRequest : κ → Str → ParsedRequest → Response → Response)
    (req : ParsedRequest) (res : Response)
    (hmethod : req.method ∈ [Verb.get, Verb.put, Verb.post, Verb.delete])
    (hversion : req.version = 11) :
    ((∃ k factory path, T.find k = some factory ∧
        Longest '/' T.find (extractUriBasePath req.target) k ∧
        ((extractUriBasePath req.target = k ∧ path = extractUriBasePath req.target) ∨
          extractUriBasePath req.target = k ++ '/' :: path) ∧
        runRouteRequest T.find handleRequest req res =
          .answered [(factory, path)] (handleRequest factory path req res)) ∨
      ((∀ k, Covers '/' k (extractUriBasePath req.target) → T.find k = none) ∧
        ∃ page, page.result = .badRequest ∧
          runRouteRequest T.find handleRequest req res = .answered [] page)) ∧
    ∀ target', Alike req.target target' → ∃ runs page page',
      runRouteRequest T.find handleRequest req res = .answered runs page ∧
      runRouteRequest T.find handleRequest { req with target := target' } res =
        .answered runs page' := by
  have hslash (k : Str) (hk : T.find k ≠ none) : '/' ∈ k :=
    List.mem_of_mem_head? (T.rooted k hk)
  have hrun (target : Str) : runRouteRequest T.find handleRequest { req with target } res =
      match search T.find target with
      | .found _ factory path =>
        .answered [(factory, path)] (handleRequest factory path { req with target } res)
      | .notFound =>
        .answered [] (errorPage req.version .badRequest "400 Bad Request".toList res)
      | .outOfRange => .outOfRange
      | .running => .running := by
    rw [runRouteRequest, if_neg (not_not.mpr hmethod), if_neg (not_not.mpr hversion)]
  constructor
  · rw [show runRouteRequest T.find handleRequest req res = _ from hrun req.target]
    rcases search_spec hslash req.target with
      ⟨k, factory, path, he, hk, hpath, hlong⟩ | ⟨he, hnone⟩
    · exact Or.inl ⟨k, factory, path, hk, hlong, hpath, by rw [he]⟩
    · exact Or.inr ⟨hnone, _, rfl, by rw [he]⟩
  · intro target' halike
    have hreq := hrun req.target
    have hreq' := hrun target'
    rw [← search_alike T.find halike] at hreq'
    rcases search_spec hslash req.target with ⟨k, factory, path, he, _⟩ | ⟨he, _⟩
    · rw [he] at hreq hreq'
      exact ⟨_, _, _, hreq, hreq'⟩
    · rw [he] at hreq hreq'
      exact ⟨_, _, _, hreq, hreq'⟩

namespace Demo

/-- A table with nested serving paths. -/
def nested : RouteTable Nat where
  find k := [("/a".toList, 0), ("/a/b".toList, 1)].lookup k
  rooted := by
    intro k hk
    obtain ⟨v, hv⟩ := Option.ne_none_iff_exists'.mp hk
    simp only [List.lookup_cons, List.lookup_nil] at hv
    split at hv
    · rename_i heq
      rw [eq_of_beq heq]
      rfl
    · split at hv
      · rename_i heq
        rw [eq_of_beq heq]
        rfl
      · exact absurd hv (by simp)

def getFile : ParsedRequest := ⟨⟨.get, 11, []⟩, "/a/b/f/?x".toList, []⟩

def echoPath (_ : Nat) (path : Str) (_ : ParsedRequest) (res : Response) : Response :=
  res.write path

end Demo

theorem runRouteRequest_longest_nested :
    search Demo.nested.find Demo.getFile.target = .found "/a/b".toList 1 "f".toList ∧
    ∃ runs page page',
      runRouteRequest Demo.nested.find Demo.echoPath Demo.getFile .fresh = .answered runs page ∧
      runRouteRequest Demo.nested.find Demo.echoPath
        { Demo.getFile with target := "/a/b/f".toList } .fresh = .answered runs page' := by
  refine ⟨rfl, ?_⟩
  apply (runRouteRequest_longest Demo.nested Demo.echoPath Demo.getFile .fresh (by decide) rfl).2
  exact ⟨"/a/b/f".toList, 1, 0, "?x".toList, [], by decide, Or.inr rfl, Or.inl rfl, rfl, rfl⟩

end RequestDispatcher

end Webserver
