import Webserver.ServingReach

/-!
# The names in the log

`SetPaths` keeps the handler names of the locations in a second map, under their serving paths,
and `RouteRequest` logs the name that it finds under the key it dispatched to.
-/

set_option autoImplicit false

namespace Webserver

open RequestDispatcher

/-- A line of `log_local`. -/
structure ResponseLog where
  result : StatusCode
  path : Str
  clientIp : Str
  handlerName : Str

namespace RequestDispatcher

def logLocal (clientIp : Str) (req : ParsedRequest) (res : Response) (handlerName : Str) :
    ResponseLog := ⟨res.result, req.target, clientIp, handlerName⟩

/-- The lines that `RouteRequest` logs; a name that is missing in the map reads as empty. -/
def routeLogs (s : ServingConfig)
    (handleRequest : Created → Str → ParsedRequest → Response → Response) (req : ParsedRequest)
    (res : Response) (clientIp : Str) : List ResponseLog :=
  if req.method ∉ [Verb.get, Verb.put, Verb.post, Verb.delete] then []
  else if req.version ≠ 11 then []
  else
    match search s.find req.target with
    | .found k factory path =>
      [logLocal clientIp req (handleRequest factory path req res)
        ((s.pathToHandlerName.lookup k).getD [])]
    | .notFound =>
      [logLocal clientIp req (errorPage req.version .badRequest "400 Bad Request".toList res)
        "No Handler: Bad request".toList]
    | .outOfRange | .running => []

end RequestDispatcher

namespace ServingConfig

open Location

/-- The name that a factory was configured with; the NotFoundHandler belongs to no location. -/
def configuredName (config : NginxConfig) (c : Created) : Str :=
  match (locations config)[c.origin]? with
  | some l => l.handlerName
  | none => "NotFoundHandler".toList

/-- The two maps have the same keys and agree on the names, and a request that is dispatched is
logged with the name of its handler. -/
structure NamesServing (config : NginxConfig) : Prop where
  keys : ∀ k, k ∈ (fresh.setPaths config).2.pathToHandlerName ↔
    k ∈ (fresh.setPaths config).2.handlerFactories
  names : ∀ k c name, (fresh.setPaths config).2.find k = some c →
    (fresh.setPaths config).2.pathToHandlerName.lookup k = some name →
    name = configuredName config c
  logged : ∀ handleRequest req res clientIp k c path,
    search (fresh.setPaths config).2.find req.target = .found k c path →
    ∀ line ∈ routeLogs (fresh.setPaths config).2 handleRequest req res clientIp,
      line.handlerName = configuredName config c

/-- The names that the locations leave in `path_to_handler_name_`. -/
def nameRules : Registration.Rules Location Str Str where
  asked := Location.servingPath
  entry l := if l.pathsBlock.isSome then some (l.servingPath, l.handlerName) else none

variable {config : NginxConfig} {l : Location} {s : ServingConfig} {k : Str}

theorem name_entry_iff {name : Str} :
    nameRules.entry l = some (k, name) ↔ l.IsBlock ∧ l.servingPath = k ∧ l.handlerName = name := by
  have hentry : nameRules.entry l =
      if l.pathsBlock.isSome then some (l.servingPath, l.handlerName) else none := rfl
  rw [hentry, IsBlock]
  cases l.pathsBlock <;> simp

theorem name_key_iff : nameRules.key l = some k ↔ l.IsBlock ∧ l.servingPath = k := by
  rw [Registration.Rules.key_eq_some_iff]
  simp only [name_entry_iff]
  simp

theorem assign_pathToHandlerName (s : ServingConfig) (key : Str) (factory : HandlerFactory) :
    (s.assign key factory).pathToHandlerName = s.pathToHandlerName := rfl

theorem addLocation_pathToHandlerName (s : ServingConfig) (l : Location) :
    (s.addLocation l).pathToHandlerName = (s.nameLocation l).pathToHandlerName := by
  unfold addLocation
  cases l.registered <;> rfl

theorem lookup_name_addLocation (s : ServingConfig) (l : Location) (k : Str) :
    (s.addLocation l).pathToHandlerName.lookup k =
      (nameRules.value k [l]).or (s.pathToHandlerName.lookup k) := by
  have hentry : nameRules.entry l =
      if l.pathsBlock.isSome then some (l.servingPath, l.handlerName) else none := rfl
  rw [addLocation_pathToHandlerName, Registration.Rules.value, Registration.Rules.bound,
    Registration.Rules.bound, hentry, nameLocation]
  split
  · by_cases hk : l.servingPath = k
    · subst hk
      simp
    · have hk' : k ≠ l.servingPath := fun heq => hk heq.symm
      simp [AList.lookup_insert_ne hk', hk]
  · simp

theorem lookup_name_foldl (ls : List Location) (s : ServingConfig) (k : Str) :
    (ls.foldl addLocation s).pathToHandlerName.lookup k =
      (nameRules.value k ls).or (s.pathToHandlerName.lookup k) := by
  induction ls generalizing s with
  | nil => rfl
  | cons l ls ih =>
    have happ := Registration.Rules.value_append (R := nameRules) k [l] ls
    rw [List.singleton_append] at happ
    rw [List.foldl_cons, ih, lookup_name_addLocation, happ, Option.or_assoc]

section Accepted
variable (hfree : rules.ConflictFree (locations config))
include hfree

/-- The name of a key: that of the last block at this path, and of the NotFoundHandler. -/
theorem lookup_name_setPaths (k : Str) :
    (fresh.setPaths config).2.pathToHandlerName.lookup k =
      if k = ['/'] then some "NotFoundHandler".toList
      else nameRules.value k (locations config) := by
  rcases setPaths_cases config with ⟨_, he⟩ | ⟨hconf, _⟩
  · have hlook := lookup_name_foldl (locations config) fresh k
    rw [show fresh.pathToHandlerName = ∅ from rfl, AList.lookup_empty, Option.or_none] at hlook
    rw [he]
    by_cases hk : k = ['/']
    · subst hk
      simp [addTop, assign_pathToHandlerName]
    · simp [addTop, assign_pathToHandlerName, AList.lookup_insert_ne hk, hk, hlook]
  · exact absurd hfree hconf

theorem location_of_find {c : Created} (hk : k ≠ ['/'])
    (h : (fresh.setPaths config).2.find k = some c) :
    ∃ l, (locations config)[c.origin]? = some l ∧ l.registered = some (k, c.factory) ∧
      ∀ j m, c.origin < j → (locations config)[j]? = some m → rules.key m ≠ some k := by
  rw [find, lookup_setPaths hfree, if_neg hk] at h
  obtain ⟨⟨i, f⟩, hbound, rfl⟩ := Option.map_eq_some_iff.mp h
  rw [show i = 0 + i by omega] at hbound
  exact (Registration.Rules.bound_eq_some_iff 0 (locations config)).mp hbound

theorem exists_find_of_key (hl : l ∈ locations config) (hkey : rules.key l = some k) :
    ∃ c, (fresh.setPaths config).2.find k = some c := by
  rw [← Option.isSome_iff_exists, Option.isSome_iff_ne_none, find, lookup_setPaths hfree]
  split
  · exact Option.some_ne_none _
  · rw [ne_eq, Option.map_eq_none_iff, Registration.Rules.bound_eq_none_iff]
    intro hall
    exact hall l hl hkey

end Accepted

section Agreeing
variable (hserving : NamesServing config) (hfree : rules.ConflictFree (locations config))
include hserving

theorem NamesServing.lookup_name {c : Created} (h : (fresh.setPaths config).2.find k = some c) :
    (fresh.setPaths config).2.pathToHandlerName.lookup k = some (configuredName config c) := by
  have hmem : k ∈ (fresh.setPaths config).2.handlerFactories :=
    AList.lookup_isSome.mp (Option.isSome_iff_exists.mpr ⟨c, h⟩)
  have hname := AList.lookup_isSome.mpr ((hserving.keys k).mpr hmem)
  obtain ⟨name, hname⟩ := Option.isSome_iff_exists.mp hname
  rw [hname, hserving.names k c name h hname]

include hfree

/-- The endpoint of a TestHandler is logged under its name only if a TestHandler is declared
there too. -/
theorem NamesServing.test_below (hvalid : ValidKeys (locations config)) (hl : l ∈ locations config)
    (ht : l.IsTest) :
    ∃ m ∈ locations config, m.IsTest ∧ m.servingPath = l.servingPath ++ "/sleep".toList := by
  have hkey := key_eq_some_iff.mpr (Or.inr ⟨ht, rfl⟩)
  have htop := isValidURI_ne_top (hvalid l hl _ hkey)
  obtain ⟨c, hc⟩ := exists_find_of_key hfree hl hkey
  obtain ⟨m, hm, hr, hlater⟩ := location_of_find hfree htop hc
  obtain ⟨i, hi⟩ := List.getElem?_of_mem hl
  have hle : i ≤ c.origin := by
    by_contra hlt
    exact hlater i l (by omega) hi hkey
  have hmt : m.IsTest := by
    rcases key_eq_some_iff.mp (Registration.Rules.key_of_entry (R := rules) hr) with
      ⟨hmo, hpath⟩ | ⟨hmt, _⟩
    · exfalso
      rcases Nat.eq_or_lt_of_le hle with heq | hlt
      · rw [heq, hm] at hi
        obtain rfl := Option.some.inj hi
        have hname := hmo.2
        rw [ht.2] at hname
        exact absurd hname (by decide)
      · obtain ⟨hi', rfl⟩ := List.getElem?_eq_some_iff.mp hi
        obtain ⟨hm', rfl⟩ := List.getElem?_eq_some_iff.mp hm
        apply List.pairwise_iff_getElem.mp hfree i c.origin hi' hm' hlt
        exact hkey.trans (congrArg some hpath)
    · exact hmt
  have hlook := hserving.lookup_name hc
  rw [lookup_name_setPaths hfree, if_neg htop, configuredName, hm] at hlook
  obtain ⟨m', hm', hentry⟩ := Registration.Rules.exists_of_value hlook
  obtain ⟨hblock, hpath, hname⟩ := name_entry_iff.mp hentry
  exact ⟨m', hm', ⟨hblock, hname.trans hmt.2⟩, hpath⟩

/-- No TestHandler is declared: below each would be another. -/
theorem NamesServing.not_isTest (hvalid : ValidKeys (locations config)) :
    ∀ l ∈ locations config, ¬ l.IsTest := by
  obtain ⟨bound, hbound⟩ : ∃ bound, ∀ l ∈ locations config, l.servingPath.length ≤ bound := by
    refine ⟨((locations config).map Location.servingPath).flatten.length, ?_⟩
    intro l hl
    exact (List.sublist_flatten_of_mem (List.mem_map_of_mem hl)).length_le
  have hdown (n : ℕ) : ∀ l ∈ locations config, bound - l.servingPath.length ≤ n → ¬ l.IsTest := by
    induction n with
    | zero =>
      intro l hl hn ht
      obtain ⟨m, hm, _, hpath⟩ := hserving.test_below hfree hvalid hl ht
      have hlen := hbound m hm
      rw [hpath, List.length_append] at hlen
      have hsleep : "/sleep".toList.length = 6 := rfl
      omega
    | succ n ih =>
      intro l hl hn ht
      obtain ⟨m, hm, hmt, hpath⟩ := hserving.test_below hfree hvalid hl ht
      refine ih m hm ?_ hmt
      have hsleep : "/sleep".toList.length = 6 := rfl
      rw [hpath, List.length_append]
      omega
  intro l hl
  exact hdown _ l hl le_rfl

end Agreeing

/-- The condition under which every name is that of a factory in the table. -/
structure NamesRegistered (ls : List Location) : Prop where
  noTest : ∀ l ∈ ls, ¬ l.IsTest
  registered : ∀ (i : Nat) (l : Location), ls[i]? = some l → l.IsBlock →
    l.servingPath = ['/'] ∨
      ∃ (j : Nat) (m : Location), i ≤ j ∧ ls[j]? = some m ∧ m.IsOrdinary ∧
        m.servingPath = l.servingPath

theorem lookup_name_of_registered (hfree : rules.ConflictFree (locations config))
    (h : NamesRegistered (locations config)) (k : Str) :
    (fresh.setPaths config).2.pathToHandlerName.lookup k =
      ((fresh.setPaths config).2.find k).map (configuredName config) := by
  rw [lookup_name_setPaths hfree]
  by_cases hk : k = ['/']
  · rw [if_pos hk, find, lookup_setPaths hfree, if_pos hk, Option.map_some, configuredName,
      List.getElem?_eq_none le_rfl]
  · rw [if_neg hk]
    cases hc : (fresh.setPaths config).2.find k with
    | none =>
      rw [Option.map_none, Registration.Rules.value_eq_none_iff]
      intro l hl hkey
      obtain ⟨hblock, rfl⟩ := name_key_iff.mp hkey
      obtain ⟨i, hi⟩ := List.getElem?_of_mem hl
      obtain ⟨j, m, _, hm, hmo, hpath⟩ := (h.registered i l hi hblock).resolve_left hk
      obtain ⟨c, hfind⟩ := exists_find_of_key hfree (List.mem_of_getElem? hm)
        (key_eq_some_iff.mpr (Or.inl ⟨hmo, hpath.symm⟩))
      rw [hc] at hfind
      exact absurd hfind (by simp)
    | some c =>
      obtain ⟨l, hl, hr, hlater⟩ := location_of_find hfree hk hc
      have hlo : l.IsOrdinary ∧ k = l.servingPath := by
        rcases key_eq_some_iff.mp (Registration.Rules.key_of_entry (R := rules) hr) with
          ho | ⟨ht, _⟩
        · exact ho
        · exact absurd ht (h.noTest l (List.mem_of_getElem? hl))
      have hbound : nameRules.bound k 0 (locations config) =
          some (0 + c.origin, l.handlerName) := by
        rw [Registration.Rules.bound_eq_some_iff]
        refine ⟨l, hl, name_entry_iff.mpr ⟨hlo.1.1, hlo.2.symm, rfl⟩, ?_⟩
        intro j m hj hm hkey
        -- a later block at this path would be followed by a location that registers it
        obtain ⟨hblock, hpath⟩ := name_key_iff.mp hkey
        obtain ⟨j', m', hj', hm', hmo, hpath'⟩ :=
          (h.registered j m hm hblock).resolve_left (by rw [hpath]; exact hk)
        apply hlater j' m' (by omega) hm'
        exact key_eq_some_iff.mpr (Or.inl ⟨hmo, (hpath'.trans hpath).symm⟩)
      rw [Registration.Rules.value, hbound, Option.map_some, Option.map_some, configuredName, hl]

theorem NamesServing.namesRegistered (hserving : NamesServing config)
    (hfree : rules.ConflictFree (locations config)) (hvalid : ValidKeys (locations config)) :
    NamesRegistered (locations config) := by
  have hnoTest := hserving.not_isTest hfree hvalid
  refine ⟨hnoTest, ?_⟩
  intro i l hi hblock
  by_cases htop : l.servingPath = ['/']
  · exact Or.inl htop
  right
  have hl := List.mem_of_getElem? hi
  have hname : l.servingPath ∈ (fresh.setPaths config).2.pathToHandlerName := by
    rw [← AList.lookup_isSome, Option.isSome_iff_ne_none, lookup_name_setPaths hfree,
      if_neg htop, ne_eq, Registration.Rules.value_eq_none_iff]
    intro hall
    exact hall l hl (name_key_iff.mpr ⟨hblock, rfl⟩)
  have hfind := AList.lookup_isSome.mpr ((hserving.keys _).mp hname)
  obtain ⟨c, hc⟩ := Option.isSome_iff_exists.mp hfind
  obtain ⟨m, hm, hr, _⟩ := location_of_find hfree htop hc
  have hkey := Registration.Rules.key_of_entry (R := rules) hr
  refine ⟨c.origin, m, ?_, hm, ?_⟩
  · by_contra hlt
    obtain ⟨hi', rfl⟩ := List.getElem?_eq_some_iff.mp hi
    obtain ⟨hm', rfl⟩ := List.getElem?_eq_some_iff.mp hm
    exact List.pairwise_iff_getElem.mp hfree c.origin i hm' hi' (not_le.mp hlt) hkey
  · rcases key_eq_some_iff.mp hkey with ⟨hmo, hpath⟩ | ⟨hmt, _⟩
    · exact ⟨hmo, hpath.symm⟩
    · exact absurd hmt (hnoTest m (List.mem_of_getElem? hm))

theorem NamesRegistered.namesServing (h : NamesRegistered (locations config))
    (hstatus : (fresh.setPaths config).1 = 0) : NamesServing config := by
  have hlook := lookup_name_of_registered (setPaths_eq_zero_iff.mp hstatus).1 h
  constructor
  · intro k
    rw [← AList.lookup_isSome, ← AList.lookup_isSome, hlook, Option.isSome_map]
    rfl
  · intro k c name hc hname
    rw [hlook, hc, Option.map_some] at hname
    exact (Option.some.inj hname).symm
  · intro handleRequest req res clientIp k c path hsearch line hline
    have hc := (of_search_found (find_slash hstatus) hsearch).1
    unfold routeLogs at hline
    split at hline
    · exact absurd hline List.not_mem_nil
    · split at hline
      · exact absurd hline List.not_mem_nil
      · rw [hsearch] at hline
        obtain rfl := List.mem_singleton.mp hline
        simp only [logLocal, hlook, hc, Option.map_some, Option.getD_some]

/-- The names of an accepted configuration are those of its factories exactly if it declares no
TestHandler and each of its blocks is registered or followed by one that is. -/
theorem namesServing_iff (config : NginxConfig) :
    ((fresh.setPaths config).1 = 0 → NamesServing config) ↔
      ¬ rules.ConflictFree (locations config) ∨ ¬ ValidKeys (locations config) ∨
        NamesRegistered (locations config) := by
  constructor
  · intro h
    by_cases hfree : rules.ConflictFree (locations config)
    swap
    · exact Or.inl hfree
    by_cases hvalid : ValidKeys (locations config)
    swap
    · exact Or.inr (Or.inl hvalid)
    have hserving := h (setPaths_eq_zero_iff.mpr ⟨hfree, hvalid⟩)
    exact Or.inr (Or.inr (hserving.namesRegistered hfree hvalid))
  · intro h hstatus
    obtain ⟨hfree, hvalid⟩ := setPaths_eq_zero_iff.mp hstatus
    have hregistered := (h.resolve_left (not_not.mpr hfree)).resolve_left (not_not.mpr hvalid)
    exact hregistered.namesServing hstatus

namespace Demo

def testHandler : NginxConfig := server [block "/test".toList "TestHandler".toList]

end Demo

/-- The name is kept under `/test`, where no handler is. -/
theorem not_namesServing_testHandler :
    ¬ ((fresh.setPaths Demo.testHandler).1 = 0 → NamesServing Demo.testHandler) := by
  intro h
  have hkeys := (h (by decide)).keys "/test".toList
  exact absurd hkeys (by decide)

end ServingConfig

end Webserver
