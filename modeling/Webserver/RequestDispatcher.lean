import Mathlib.Data.List.DropRight
import Webserver.HandlerFactories
import Webserver.Http

/-!
# RequestDispatcher

Which factory a request target is dispatched to, and the path the factory is given: the whole
target where it matches a location, the rest behind the slash where a location is a prefix.
-/

set_option autoImplicit false

namespace Webserver

/-- A request with its target and the fields that `is_upgrade` reads. -/
structure ParsedRequest extends Request where
  target : Str
  fields : List (Str × Str)

namespace RequestDispatcher

/-- The target without its query string and without the slashes at its end. -/
def extractUriBasePath (uri : Str) : Str :=
  let strippedUri := (uri.takeWhile (· ≠ '?')).rdropWhile (· = '/')
  if strippedUri = [] then ['/'] else strippedUri

/-- `s.substr(0, s.rfind('/'))`; without a slash the position is `npos` and the whole is kept. -/
def beforeLastSlash (s : Str) : Str :=
  if '/' ∈ s then (s.rdropWhile (· ≠ '/')).dropLast else s

/-- A match: the path of the location, its factory, and the path given to `CreateHandler`. -/
structure Match where
  location : Str
  factory : HandlerFactory
  path : Str

/-- The loop over the prefixes of a target; every round shortens `curPath`. -/
def prefixLoop (T : HandlerFactories) (uriBasePath : Str) : Nat → Str → Option Match
  | 0, _ => none
  | k + 1, curPath =>
    if '/' ∈ curPath then
      match T.find curPath with
      | some factory => some ⟨curPath, factory, uriBasePath.drop (curPath.length + 1)⟩
      | none => prefixLoop T uriBasePath k (beforeLastSlash curPath)
    else none

/-- The dispatch of `RouteRequest`; `none` is its answer 400. -/
def route (T : HandlerFactories) (target : Str) : Option Match :=
  let uriBasePath := extractUriBasePath target
  match T.find uriBasePath with
  | some factory => some ⟨uriBasePath, factory, uriBasePath⟩
  | none => prefixLoop T uriBasePath uriBasePath.length (beforeLastSlash uriBasePath)

/-- An error page, as `BadRequest` and its like write it. -/
def errorPage (version : Nat) (status : StatusCode) (text : Str) (res : Response) : Response :=
  Response.preparePayload
    { res.write text with version, result := status, contentType := some "text/HTML".toList }

def badRequest (res : Response) : Response :=
  errorPage 11 .badRequest "400 Bad Request".toList res

/-- `RouteRequest`. The handler made by a factory is taken from outside. -/
def routeRequest (T : HandlerFactories)
    (handleRequest : HandlerFactory → Str → ParsedRequest → Response → Response)
    (req : ParsedRequest) (res : Response) : Response :=
  if req.method ∉ [Verb.get, Verb.put, Verb.post, Verb.delete] then badRequest res
  else if req.version ≠ 11 then badRequest res
  else
    match route T req.target with
    | some m => handleRequest m.factory m.path req res
    | none => errorPage req.version .badRequest "400 Bad Request".toList res

theorem beforeLastSlash_eq {s : Str} (h : '/' ∈ s) :
    ∃ n, s = beforeLastSlash s ++ '/' :: n ∧ '/' ∉ n := by
  induction s using List.reverseRecOn with
  | nil => exact absurd h List.not_mem_nil
  | append_singleton s c ih =>
    by_cases hc : c = '/'
    · subst hc
      refine ⟨[], ?_, List.not_mem_nil⟩
      rw [beforeLastSlash, if_pos h, List.rdropWhile_concat_neg _ _ _ (by simp),
        List.dropLast_concat]
    · have hs : '/' ∈ s := by
        rcases List.mem_append.mp h with h | h
        · exact h
        · exact absurd (List.mem_singleton.mp h).symm hc
      obtain ⟨n, hn, hslash⟩ := ih hs
      refine ⟨n ++ [c], ?_, ?_⟩
      · rw [beforeLastSlash, if_pos h, List.rdropWhile_concat_pos _ _ _ (by simpa using hc)]
        rw [beforeLastSlash, if_pos hs] at hn
        conv_lhs => rw [hn]
        simp
      · simp [hslash, Ne.symm hc]

/-- What the loop finds is a location in front of a slash of the target. -/
theorem prefixLoop_some {T : HandlerFactories} {base : Str} (k : Nat) {curPath : Str} {m : Match}
    (hcur : '/' ∈ curPath → ∃ rest, base = curPath ++ '/' :: rest)
    (h : prefixLoop T base k curPath = some m) :
    T.find m.location = some m.factory ∧ '/' ∈ m.location ∧
      base = m.location ++ '/' :: m.path := by
  induction k generalizing curPath with
  | zero => exact absurd h (by simp [prefixLoop])
  | succ k ih =>
    rw [prefixLoop] at h
    split at h
    · rename_i hslash
      obtain ⟨rest, hrest⟩ := hcur hslash
      split at h
      · rename_i factory hfind
        obtain rfl := Option.some.inj h
        exact ⟨hfind, hslash, by simp [hrest]⟩
      · refine ih (fun _ => ?_) h
        obtain ⟨n, hn, _⟩ := beforeLastSlash_eq hslash
        exact ⟨n ++ '/' :: rest, by rw [hrest]; conv_lhs => rw [hn]; simp⟩
    · exact absurd h (by simp)

theorem extractUriBasePath_cases (uri : Str) :
    extractUriBasePath uri = ['/'] ∨
      (extractUriBasePath uri ≠ [] ∧ (extractUriBasePath uri).getLast? ≠ some '/') := by
  unfold extractUriBasePath
  dsimp only
  split
  · exact Or.inl rfl
  · rename_i hne
    refine Or.inr ⟨hne, fun hlast => ?_⟩
    rw [List.getLast?_eq_some_getLast hne] at hlast
    refine List.rdropWhile_last_not (fun c => decide (c = '/')) _ hne ?_
    exact decide_eq_true (Option.some.inj hlast)

/-- The location that is matched is the target itself or a prefix of it in front of a slash. -/
theorem route_some {T : HandlerFactories} {target : Str} {m : Match}
    (h : route T target = some m) :
    T.find m.location = some m.factory ∧
      ((m.location = extractUriBasePath target ∧ m.path = extractUriBasePath target) ∨
        ('/' ∈ m.location ∧ extractUriBasePath target = m.location ++ '/' :: m.path)) := by
  unfold route at h
  dsimp only at h
  split at h
  · rename_i factory hfind
    obtain rfl := Option.some.inj h
    exact ⟨hfind, Or.inl ⟨rfl, rfl⟩⟩
  · have hcur (hslash : '/' ∈ beforeLastSlash (extractUriBasePath target)) :
        ∃ rest, extractUriBasePath target =
          beforeLastSlash (extractUriBasePath target) ++ '/' :: rest := by
      by_cases hbase : '/' ∈ extractUriBasePath target
      · obtain ⟨n, hn, _⟩ := beforeLastSlash_eq hbase
        exact ⟨n, hn⟩
      · rw [beforeLastSlash, if_neg hbase] at hslash
        exact absurd hslash hbase
    obtain ⟨hfind, hslash, hpath⟩ := prefixLoop_some _ hcur h
    exact ⟨hfind, Or.inr ⟨hslash, hpath⟩⟩

/-- A handler other than the NotFoundHandler is given a path that ends in a component. -/
theorem route_path {T : HandlerFactories} {target : Str} {m : Match}
    (h : route T target = some m) (hf : m.factory ≠ .notFoundHandler) :
    m.path ≠ [] ∧ m.path.getLast? ≠ some '/' := by
  obtain ⟨hfind, hpath⟩ := route_some h
  rcases extractUriBasePath_cases target with htop | ⟨hne, hlast⟩
  · exfalso
    rcases hpath with ⟨hloc, _⟩ | ⟨hslash, heq⟩
    · rw [hloc, htop, T.top] at hfind
      exact hf (Option.some.inj hfind).symm
    · rw [htop] at heq
      have hlen := congrArg List.length heq
      have hpos := List.length_pos_of_mem hslash
      simp only [List.length_append, List.length_cons, List.length_nil] at hlen
      omega
  · rcases hpath with ⟨_, hpath⟩ | ⟨_, heq⟩
    · rw [hpath]
      exact ⟨hne, hlast⟩
    · rw [heq, List.getLast?_append_of_ne_nil _ (by simp)] at hlast
      have hnil : m.path ≠ [] := fun hnil => hlast (by rw [hnil]; rfl)
      rw [List.getLast?_cons_of_ne_nil hnil] at hlast
      exact ⟨hnil, hlast⟩

end RequestDispatcher

end Webserver
