import Webserver.Dispatch
import Webserver.ServingTable

/-!
# Reaching the declared locations

`SetPaths` fills the table under the paths as they are written, and `RouteRequest` looks a target
up without the slashes at its end. The two agree on the paths that end in no slash.
-/

set_option autoImplicit false

namespace Webserver

open PrefixMatch RequestDispatcher

namespace ServingConfig

open Location
variable {config : NginxConfig} {p : Str}

def find (s : ServingConfig) (k : Str) : Option Created := s.handlerFactories.lookup k

/-- The target is dispatched to the factory made for the location of this number. -/
def DispatchesTo (s : ServingConfig) (target : Str) (i : Nat) (l : Location) : Prop :=
  ∃ k factory path, l.registered = some (k, factory) ∧
    search s.find target = .found k ⟨i, factory⟩ path

/-- Two locations whose serving paths differ, and only in the slashes at their ends. -/
def Twins (l m : Location) : Prop :=
  l.servingPath ≠ m.servingPath ∧ stem '/' l.servingPath = stem '/' m.servingPath

/-- What the README promises: an accepted location is reached whatever slashes end the target,
and serving paths are told apart without the slashes at their ends. -/
structure IgnoresSlashes (config : NginxConfig) : Prop where
  reached : (fresh.setPaths config).1 = 0 → ∀ i l, (locations config)[i]? = some l →
    l.IsOrdinary → ∀ n, (fresh.setPaths config).2.DispatchesTo
      (stem '/' l.servingPath ++ List.replicate n '/') i l
  refused : ¬ (locations config).Pairwise (fun l m => ¬ Twins l m) →
    (fresh.setPaths config).1 = multipleUses

theorem not_mem_of_isValidURI (h : isValidURI p = true) : '?' ∉ p := by
  intro hmem
  cases p with
  | nil => exact absurd hmem List.not_mem_nil
  | cons c p =>
    have hc : c = '/' := by
      by_contra hc
      simp [isValidURI, hc] at h
    subst hc
    simp only [isValidURI, Bool.and_eq_true, List.all_eq_true] at h
    have hp : '?' ∈ p := by simpa using hmem
    exact absurd (h.2 '?' hp) (by decide)

theorem extractUriBasePath_stem (hp : '?' ∉ p) (n : Nat) :
    extractUriBasePath (stem '/' p ++ List.replicate n '/') =
      if stem '/' p = [] then ['/'] else stem '/' p := by
  have hstem : '?' ∉ stem '/' p := fun h => hp ((stem_isPrefix '/' p).subset h)
  have happ := extractUriBasePath_append hstem (Or.inl (rfl : ([] : Str) = [])) n
  have htake : (stem '/' p).takeWhile (· ≠ '?') = stem '/' p := by
    rw [List.takeWhile_eq_self_iff]
    intro c hc
    have hne : c ≠ '?' := fun heq => hstem (heq ▸ hc)
    simpa using hne
  have hself := stem_eq_self (getLast?_stem '/' p)
  rw [List.append_nil] at happ
  rw [happ, extractUriBasePath, htake]
  exact congrArg (fun s => if s = [] then ['/'] else s) hself

/-- A serving path that ends in a slash is no path the dispatcher looks up or cuts a target to. -/
theorem getLast?_of_search {find : Str → Option Created} {c : Created} {path : Str}
    (hslash : ∀ k, find k ≠ none → '/' ∈ k) (hvalid : isValidURI p = true)
    (h : search find (stem '/' p) = .found p c path) : p.getLast? ≠ some '/' := by
  have hbase := extractUriBasePath_stem (not_mem_of_isValidURI hvalid) 0
  rw [List.replicate_zero, List.append_nil] at hbase
  obtain ⟨m, hm⟩ := stem_spec '/' p
  have hcover : Covers '/' p (extractUriBasePath (stem '/' p)) :=
    (of_search_found hslash h).2.covers
  have hlen := hcover.length_le
  have hp := isValidURI_ne_top hvalid
  rw [hbase] at hlen hcover
  split at hlen
  · rename_i hnil
    rw [if_pos hnil] at hcover
    rcases hcover with heq | ⟨rest, hrest⟩
    · exact absurd heq.symm hp
    · exfalso
      have hne : p ≠ [] := by
        rintro rfl
        exact absurd hvalid (by decide)
      have hpos := List.length_pos_iff.mpr hne
      have := congrArg List.length hrest
      simp only [List.length_append, List.length_singleton] at this
      omega
  · have hsame : stem '/' p = p := by
      exact (stem_isPrefix '/' p).eq_of_length_le hlen
    rw [← hsame]
    exact getLast?_stem '/' p

theorem find_slash (h : (fresh.setPaths config).1 = 0) (k : Str)
    (hk : (fresh.setPaths config).2.find k ≠ none) : '/' ∈ k := by
  obtain ⟨hfree, hvalid⟩ := setPaths_eq_zero_iff.mp h
  rw [find, lookup_setPaths hfree] at hk
  split at hk
  · rename_i htop
    simp [htop]
  · rw [ne_eq, Option.map_eq_none_iff, Registration.Rules.bound_eq_none_iff] at hk
    push Not at hk
    obtain ⟨l, hl, hkey⟩ := hk
    have hv := hvalid l hl k hkey
    cases k with
    | nil => exact absurd hv (by decide)
    | cons c k =>
      by_contra hc
      have hne : c ≠ '/' := fun heq => hc (heq ▸ List.mem_cons_self)
      simp [isValidURI, hne] at hv

/-- The table that `RouteRequest` is called with once `SetPaths` has bound `/`. -/
def routeTable (config : NginxConfig) (h : (fresh.setPaths config).1 ≠ multipleUses) :
    HandlerFactories where
  find k := ((fresh.setPaths config).2.find k).map Created.factory
  top := by
    have hfree := not_not.mp (mt setPaths_eq_multipleUses_iff.mpr h)
    rw [find, lookup_setPaths hfree, if_pos rfl]
    rfl

theorem route_of_dispatchesTo {target : Str} {i : Nat} {l : Location}
    (h : (fresh.setPaths config).1 ≠ multipleUses)
    (hd : (fresh.setPaths config).2.DispatchesTo target i l) :
    ∃ m, route (routeTable config h) target = some m ∧
      l.registered = some (m.location, m.factory) := by
  obtain ⟨k, factory, path, hr, hsearch⟩ := hd
  have hmap := search_map Created.factory (fresh.setPaths config).2.find target
  have hroute := search_eq_route (routeTable config h) target
  rw [show search (routeTable config h).find target = _ from hmap, hsearch] at hroute
  cases hm : route (routeTable config h) target with
  | none =>
    rw [hm] at hroute
    exact absurd hroute (by simp [Search.map, Search.ofMatch])
  | some m =>
    rw [hm] at hroute
    obtain ⟨rfl, rfl, _⟩ := Search.found.inj hroute
    exact ⟨m, rfl, hr⟩

theorem IgnoresSlashes.search_stem (h : IgnoresSlashes config)
    (hstatus : (fresh.setPaths config).1 = 0) {i : Nat} {l : Location}
    (hl : (locations config)[i]? = some l) (ho : l.IsOrdinary) :
    ∃ factory path, search (fresh.setPaths config).2.find (stem '/' l.servingPath) =
      .found l.servingPath ⟨i, factory⟩ path := by
  obtain ⟨k, factory, path, hr, hsearch⟩ := h.reached hstatus i l hl ho 0
  obtain ⟨_, hr'⟩ := registered_of_isOrdinary ho
  rw [hr] at hr'
  obtain rfl := (Prod.mk.inj (Option.some.inj hr')).1
  rw [List.replicate_zero, List.append_nil] at hsearch
  exact ⟨factory, path, hsearch⟩

/-- Without a conflict only a later TestHandler can take the key of an ordinary location. -/
theorem find_servingPath (hfree : rules.ConflictFree (locations config))
    (hsleep : (locations config).Pairwise fun l m => l.IsOrdinary → m.IsTest →
      l.servingPath ≠ m.servingPath ++ "/sleep".toList)
    {i : Nat} {l : Location} (hl : (locations config)[i]? = some l) (ho : l.IsOrdinary)
    (hv : isValidURI l.servingPath = true) {factory : HandlerFactory}
    (hr : l.registered = some (l.servingPath, factory)) :
    (fresh.setPaths config).2.find l.servingPath = some ⟨i, factory⟩ := by
  rw [find, origin_of_lookup hfree hl]
  refine ⟨isValidURI_ne_top hv, hr, ?_⟩
  intro j m hij hm hkm
  obtain ⟨hi, rfl⟩ := List.getElem?_eq_some_iff.mp hl
  obtain ⟨hj, rfl⟩ := List.getElem?_eq_some_iff.mp hm
  rcases key_eq_some_iff.mp hkm with ⟨_, heq⟩ | ⟨ht, heq⟩
  · have hkey := key_eq_some_iff.mpr (Or.inl ⟨ho, rfl⟩)
    have hblocks := List.pairwise_iff_getElem.mp hfree i j hi hj hij
    exact hblocks (hkey.trans (congrArg some heq))
  · exact List.pairwise_iff_getElem.mp hsleep i j hi hj hij ho ht heq

/-- The lookup of a path that ends in no slash ignores the slashes at the end of the target. -/
theorem dispatchesTo_of_find {i : Nat} {l : Location} {factory : HandlerFactory}
    (hv : isValidURI l.servingPath = true) (hlast : l.servingPath.getLast? ≠ some '/')
    (hr : l.registered = some (l.servingPath, factory))
    (hlook : (fresh.setPaths config).2.find l.servingPath = some ⟨i, factory⟩) (n : Nat) :
    (fresh.setPaths config).2.DispatchesTo
      (stem '/' l.servingPath ++ List.replicate n '/') i l := by
  have hne : l.servingPath ≠ [] := by
    intro hnil
    rw [hnil] at hv
    exact absurd hv (by decide)
  have hbase := extractUriBasePath_stem (not_mem_of_isValidURI hv) n
  rw [stem_eq_self hlast, if_neg hne] at hbase
  refine ⟨l.servingPath, factory, l.servingPath, hr, ?_⟩
  rw [stem_eq_self hlast, search, hbase, hlook]

/-- A configuration meets the promise exactly if `SetPaths` sees a conflict, or no two of its
locations are twins and, where all keys are valid, no ordinary serving path ends in a slash or
is taken over by a later TestHandler. -/
theorem ignoresSlashes_iff (config : NginxConfig) :
    IgnoresSlashes config ↔
      ¬ rules.ConflictFree (locations config) ∨
        ((locations config).Pairwise (fun l m => ¬ Twins l m) ∧
          (ValidKeys (locations config) →
            (∀ l ∈ locations config, l.IsOrdinary → l.servingPath.getLast? ≠ some '/') ∧
            (locations config).Pairwise fun l m => l.IsOrdinary → m.IsTest →
              l.servingPath ≠ m.servingPath ++ "/sleep".toList)) := by
  constructor
  · intro h
    by_cases hfree : rules.ConflictFree (locations config)
    swap
    · exact Or.inl hfree
    right
    constructor
    · by_contra htwins
      exact setPaths_eq_multipleUses_iff.mp (h.refused htwins) hfree
    · intro hvalid
      have hstatus := setPaths_eq_zero_iff.mpr ⟨hfree, hvalid⟩
      constructor
      · intro l hl ho
        obtain ⟨i, hi⟩ := List.getElem?_of_mem hl
        obtain ⟨factory, path, hsearch⟩ := h.search_stem hstatus hi ho
        have hv := hvalid l hl _ (key_eq_some_iff.mpr (Or.inl ⟨ho, rfl⟩))
        exact getLast?_of_search (find_slash hstatus) hv hsearch
      · rw [List.pairwise_iff_getElem]
        intro i j hi hj hij ho ht heq
        have hl := List.getElem?_eq_getElem hi
        obtain ⟨factory, path, hsearch⟩ := h.search_stem hstatus hl ho
        have hlook := (of_search_found (find_slash hstatus) hsearch).1
        obtain ⟨_, _, hlater⟩ := (origin_of_lookup hfree hl).mp hlook
        apply hlater j _ hij (List.getElem?_eq_getElem hj)
        exact key_eq_some_iff.mpr (Or.inr ⟨ht, heq⟩)
  · rintro (hconf | ⟨htwins, h⟩)
    · have hstatus := setPaths_eq_multipleUses_iff.mpr hconf
      refine ⟨fun hzero => ?_, fun _ => hstatus⟩
      rw [hstatus] at hzero
      exact absurd hzero (by decide)
    · refine ⟨?_, fun hnot => absurd htwins hnot⟩
      intro hstatus i l hl ho n
      obtain ⟨hfree, hvalid⟩ := setPaths_eq_zero_iff.mp hstatus
      obtain ⟨hlast, hsleep⟩ := h hvalid
      have hmem := List.mem_of_getElem? hl
      have hv := hvalid l hmem _ (key_eq_some_iff.mpr (Or.inl ⟨ho, rfl⟩))
      obtain ⟨factory, hr⟩ := registered_of_isOrdinary ho
      have hlook := find_servingPath hfree hsleep hl ho hv hr
      exact dispatchesTo_of_find hv (hlast l hmem ho) hr hlook n

namespace Demo

def trailingSlash : NginxConfig := server [block "/echo/".toList "EchoHandler".toList]

end Demo

/-- A location at `/echo/` is accepted, and no target reaches it. -/
theorem not_ignoresSlashes_trailingSlash : ¬ IgnoresSlashes Demo.trailingSlash := by
  intro h
  obtain ⟨k, factory, path, _, hsearch⟩ :=
    h.reached (by decide) 0 _ rfl ⟨Option.some_ne_none _, by decide⟩ 1
  have hnone : search (fresh.setPaths Demo.trailingSlash).2.find
      (stem '/' "/echo/".toList ++ List.replicate 1 '/') = .notFound := rfl
  rw [show search _ _ = .notFound from hnone] at hsearch
  exact absurd hsearch (by simp)

end ServingConfig

end Webserver
