import Mathlib.Data.List.AList
import Webserver.HandlerFactories
import Webserver.Library.Registration

/-!
# SetPaths

The locations of a configuration, the table that `SetPaths` fills from them and the status it
returns. Next to the fields of the source a `ServingConfig` counts the location statements and
keeps the keys that were assigned while they were bound.
-/

set_option autoImplicit false

namespace Webserver

def multipleUses : Nat := 1

def invalidUri : Nat := 2

/-- A statement of three or more tokens that starts with `location`. -/
structure Location where
  servingPath : Str
  handlerName : Str
  pathsBlock : Option NginxConfig

namespace Location

def ofStatement (statement : NginxConfigStatement) : Option Location :=
  match statement.tokens with
  | name :: servingPath :: handlerName :: _ =>
    if name = "location".toList then some ⟨servingPath, handlerName, statement.childBlock⟩
    else none
  | _ => none

/-- The key that is assigned for a location with a block, and the factory created for it. -/
def registered (l : Location) : Option (Str × HandlerFactory) :=
  match l.pathsBlock with
  | none => none
  | some pathsBlock =>
    if l.handlerName = "StaticHandler".toList then
      some (l.servingPath, .staticHandler pathsBlock)
    else if l.handlerName = "EchoHandler".toList then some (l.servingPath, .echoHandler)
    else if l.handlerName = "CrudHandler".toList then some (l.servingPath, .crudHandler pathsBlock)
    else if l.handlerName = "HealthHandler".toList then some (l.servingPath, .healthHandler)
    else if l.handlerName = "TestHandler".toList then
      some (l.servingPath ++ "/sleep".toList, .sleepHandler)
    else if l.handlerName = "WebsocketInfoHandler".toList then
      some (l.servingPath, .websocketInfoHandler)
    else none

end Location

namespace NginxConfigStatement

/-- The block of a statement that starts with `server`. -/
def serverBlock (statement : NginxConfigStatement) : Option NginxConfig :=
  match statement.tokens with
  | name :: _ => if name = "server".toList then statement.childBlock else none
  | [] => none

end NginxConfigStatement

/-- The locations of the server blocks, block by block. -/
def serverLocations (config : NginxConfig) : List (List Location) :=
  (config.filterMap NginxConfigStatement.serverBlock).map (·.filterMap Location.ofStatement)

def locations (config : NginxConfig) : List Location := (serverLocations config).flatten

/-- A factory in the table, with the number of the location it was created for. -/
structure Created where
  origin : Nat
  factory : HandlerFactory

structure ServingConfig where
  handlerFactories : AList fun _ : Str => Created
  pathToHandlerName : AList fun _ : Str => Str
  seen : Nat
  overwritten : List Str

namespace ServingConfig

def fresh : ServingConfig := ⟨∅, ∅, 0, []⟩

/-- `handler_factories_[key] = factory`. -/
def assign (s : ServingConfig) (key : Str) (factory : HandlerFactory) : ServingConfig :=
  { s with
    handlerFactories := s.handlerFactories.insert key ⟨s.seen, factory⟩
    overwritten := if key ∈ s.handlerFactories then s.overwritten ++ [key] else s.overwritten }

/-- `path_to_handler_name_[serving_path] = handler_name`, for a location with a block. -/
def nameLocation (s : ServingConfig) (l : Location) : ServingConfig :=
  if l.pathsBlock.isSome then
    { s with pathToHandlerName := s.pathToHandlerName.insert l.servingPath l.handlerName }
  else s

/-- What is done for a location whose serving path is not in the table. -/
def addLocation (s : ServingConfig) (l : Location) : ServingConfig :=
  let assigned := match l.registered with
    | some (key, factory) => (s.nameLocation l).assign key factory
    | none => s.nameLocation l
  { assigned with seen := s.seen + 1 }

/-- The body of the inner loop; an error is its return of `MULTIPLE_USES`. -/
def setLocation (s : ServingConfig) (l : Location) : Except ServingConfig ServingConfig :=
  if l.servingPath ∈ s.handlerFactories then .error s else .ok (s.addLocation l)

def setStatement (s : ServingConfig) (blockStatement : NginxConfigStatement) :
    Except ServingConfig ServingConfig :=
  match Location.ofStatement blockStatement with
  | some l => s.setLocation l
  | none => .ok s

/-- The body of the outer loop. -/
def setServer (s : ServingConfig) (statement : NginxConfigStatement) :
    Except ServingConfig ServingConfig :=
  match statement.serverBlock with
  | some childBlock => childBlock.foldlM setStatement s
  | none => .ok s

def isUriChar (c : Char) : Bool := c.isAlphanum || c = '/' || c = '.' || c = '_' || c = '-'

/-- `^\/[a-zA-Z0-9\/\._-]+$` -/
def isValidURI : Str → Bool
  | '/' :: rest => !rest.isEmpty && rest.all isUriChar
  | _ => false

def validatePaths (s : ServingConfig) : Nat :=
  if ∀ key ∈ s.handlerFactories.keys, isValidURI key then 0 else invalidUri

/-- The assignments behind the loops. -/
def addTop (s : ServingConfig) : ServingConfig :=
  { s with pathToHandlerName := s.pathToHandlerName.insert ['/'] "NotFoundHandler".toList }.assign
    ['/'] .notFoundHandler

/-- The status that is returned and the object that is left; a null pointer counts as a
configuration without statements. -/
def setPaths (s : ServingConfig) (config : NginxConfig) : Nat × ServingConfig :=
  match config.foldlM setServer s with
  | .error s => (multipleUses, s)
  | .ok s => (s.validatePaths, s.addTop)

/-- What a location asks for and what it registers. -/
def rules : Registration.Rules Location Str HandlerFactory where
  asked := Location.servingPath
  entry := Location.registered

/-- Every key that the locations register is a valid URI. -/
def ValidKeys (ls : List Location) : Prop :=
  ∀ l ∈ ls, ∀ k, rules.key l = some k → isValidURI k = true

section Run
variable {s : ServingConfig} {l : Location} {ls : List Location} {k : Str}

@[simp] theorem nameLocation_handlerFactories (s : ServingConfig) (l : Location) :
    (s.nameLocation l).handlerFactories = s.handlerFactories := by
  unfold nameLocation
  split <;> rfl

@[simp] theorem nameLocation_seen (s : ServingConfig) (l : Location) :
    (s.nameLocation l).seen = s.seen := by
  unfold nameLocation
  split <;> rfl

@[simp] theorem nameLocation_overwritten (s : ServingConfig) (l : Location) :
    (s.nameLocation l).overwritten = s.overwritten := by
  unfold nameLocation
  split <;> rfl

@[simp] theorem addLocation_seen (s : ServingConfig) (l : Location) :
    (s.addLocation l).seen = s.seen + 1 := rfl

theorem addLocation_none (s : ServingConfig) (h : l.registered = none) :
    (s.addLocation l).handlerFactories = s.handlerFactories ∧
      (s.addLocation l).overwritten = s.overwritten := by
  rw [addLocation, h]
  exact ⟨nameLocation_handlerFactories s l, nameLocation_overwritten s l⟩

theorem addLocation_some (s : ServingConfig) {factory : HandlerFactory}
    (h : l.registered = some (k, factory)) :
    (s.addLocation l).handlerFactories = s.handlerFactories.insert k ⟨s.seen, factory⟩ ∧
      (s.addLocation l).overwritten =
        if k ∈ s.handlerFactories then s.overwritten ++ [k] else s.overwritten := by
  simp [addLocation, h, assign]

theorem lookup_addLocation (s : ServingConfig) (l : Location) (k : Str) :
    (s.addLocation l).handlerFactories.lookup k =
      ((rules.bound k s.seen [l]).map fun p => Created.mk p.1 p.2).or
        (s.handlerFactories.lookup k) := by
  have hentry : rules.entry l = l.registered := rfl
  rw [Registration.Rules.bound, Registration.Rules.bound, hentry]
  cases hr : l.registered with
  | none =>
    rw [(addLocation_none s hr).1]
    rfl
  | some e =>
    obtain ⟨key, factory⟩ := e
    rw [(addLocation_some s hr).1]
    by_cases hk : key = k
    · subst hk
      simp [AList.lookup_insert]
    · have hk' : k ≠ key := fun heq => hk heq.symm
      simp [AList.lookup_insert_ne hk', hk]

theorem mem_addLocation :
    k ∈ (s.addLocation l).handlerFactories ↔ rules.key l = some k ∨ k ∈ s.handlerFactories := by
  rw [← AList.lookup_isSome, ← AList.lookup_isSome, lookup_addLocation, Option.isSome_or,
    Bool.or_eq_true, Option.isSome_map, Option.isSome_iff_ne_none, ne_eq,
    Registration.Rules.bound_eq_none_iff]
  simp

theorem overwritten_addLocation (s : ServingConfig) (l : Location) :
    ∃ ws, (s.addLocation l).overwritten = s.overwritten ++ ws ∧
      (ws = [] ↔ ∀ k, rules.key l = some k → k ∉ s.handlerFactories) := by
  have hkey : rules.key l = l.registered.map Prod.fst := rfl
  rw [hkey]
  cases hr : l.registered with
  | none => exact ⟨[], by simp [(addLocation_none s hr).2], by simp⟩
  | some e =>
    obtain ⟨key, factory⟩ := e
    rw [(addLocation_some s hr).2]
    by_cases hmem : key ∈ s.handlerFactories
    · exact ⟨[key], by rw [if_pos hmem], by simpa using hmem⟩
    · exact ⟨[], by rw [if_neg hmem, List.append_nil], by simpa using hmem⟩

/-- The loops run over the locations, block by block. -/
theorem foldlM_setServer (config : NginxConfig) (s : ServingConfig) :
    config.foldlM setServer s = (locations config).foldlM setLocation s := by
  have hblock (block : NginxConfig) (s : ServingConfig) :
      block.foldlM setStatement s =
        (block.filterMap Location.ofStatement).foldlM setLocation s := by
    induction block generalizing s with
    | nil => rfl
    | cons statement block ih =>
      rw [List.foldlM_cons, setStatement]
      cases hl : Location.ofStatement statement with
      | none =>
        rw [List.filterMap_cons_none hl]
        exact ih s
      | some l =>
        rw [List.filterMap_cons_some hl, List.foldlM_cons]
        exact bind_congr ih
  induction config generalizing s with
  | nil => rfl
  | cons statement config ih =>
    rw [List.foldlM_cons, setServer, locations, serverLocations]
    cases hb : statement.serverBlock with
    | none =>
      rw [List.filterMap_cons_none hb]
      exact ih s
    | some block =>
      rw [List.filterMap_cons_some hb, List.map_cons, List.flatten_cons, List.foldlM_append]
      simp only [hblock]
      exact bind_congr ih

/-- No location is refused exactly if none asks for a key that is bound already or is
registered in front of it. -/
theorem foldlM_setLocation (ls : List Location) (s : ServingConfig) :
    ((∀ l ∈ ls, l.servingPath ∉ s.handlerFactories) ∧ rules.ConflictFree ls ∧
      ls.foldlM setLocation s = .ok (ls.foldl addLocation s)) ∨
    (¬ ((∀ l ∈ ls, l.servingPath ∉ s.handlerFactories) ∧ rules.ConflictFree ls) ∧
      ∃ s', ls.foldlM setLocation s = .error s') := by
  induction ls generalizing s with
  | nil => exact Or.inl ⟨by simp, List.Pairwise.nil, rfl⟩
  | cons l ls ih =>
    rw [List.foldlM_cons, setLocation]
    by_cases hmem : l.servingPath ∈ s.handlerFactories
    · rw [if_pos hmem]
      exact Or.inr ⟨fun h => h.1 l List.mem_cons_self hmem, s, rfl⟩
    · rw [if_neg hmem]
      have hiff : ((∀ m ∈ l :: ls, m.servingPath ∉ s.handlerFactories) ∧
          rules.ConflictFree (l :: ls)) ↔
          (∀ m ∈ ls, m.servingPath ∉ (s.addLocation l).handlerFactories) ∧
            rules.ConflictFree ls := by
        simp only [Registration.Rules.ConflictFree, List.pairwise_cons, List.forall_mem_cons,
          mem_addLocation, not_or, Registration.Rules.Blocks]
        constructor
        · rintro ⟨⟨_, hs⟩, hl, hls⟩
          exact ⟨fun m hm => ⟨hl m hm, hs m hm⟩, hls⟩
        · rintro ⟨h, hls⟩
          exact ⟨⟨hmem, fun m hm => (h m hm).2⟩, fun m hm => (h m hm).1, hls⟩
      rcases ih (s.addLocation l) with ⟨hfree, hconf, he⟩ | ⟨hnot, he⟩
      · obtain ⟨hfree', hconf'⟩ := hiff.mpr ⟨hfree, hconf⟩
        exact Or.inl ⟨hfree', hconf', he⟩
      · exact Or.inr ⟨fun h => hnot (hiff.mp h), he⟩

theorem seen_foldl (ls : List Location) (s : ServingConfig) :
    (ls.foldl addLocation s).seen = s.seen + ls.length := by
  induction ls generalizing s with
  | nil => rfl
  | cons l ls ih =>
    rw [List.foldl_cons, ih, addLocation_seen, List.length_cons]
    omega

theorem lookup_foldl (ls : List Location) (s : ServingConfig) (k : Str) :
    (ls.foldl addLocation s).handlerFactories.lookup k =
      ((rules.bound k s.seen ls).map fun p => Created.mk p.1 p.2).or
        (s.handlerFactories.lookup k) := by
  induction ls generalizing s with
  | nil => rfl
  | cons l ls ih =>
    have happ := Registration.Rules.bound_append (R := rules) k s.seen [l] ls
    rw [List.singleton_append, List.length_singleton] at happ
    rw [List.foldl_cons, ih, lookup_addLocation, addLocation_seen, happ, Option.map_or,
      Option.or_assoc]

theorem mem_foldl (ls : List Location) (s : ServingConfig) :
    k ∈ (ls.foldl addLocation s).handlerFactories ↔
      (∃ l ∈ ls, rules.key l = some k) ∨ k ∈ s.handlerFactories := by
  induction ls generalizing s with
  | nil => simp
  | cons l ls ih =>
    rw [List.foldl_cons, ih, mem_addLocation]
    simp only [List.mem_cons, or_and_right, exists_or, exists_eq_left]
    rw [← or_assoc, or_comm (a := ∃ l, _)]

theorem overwritten_foldl (ls : List Location) (s : ServingConfig) :
    ∃ ws, (ls.foldl addLocation s).overwritten = s.overwritten ++ ws ∧
      (ws = [] ↔ rules.Fresh ls ∧
        ∀ l ∈ ls, ∀ k, rules.key l = some k → k ∉ s.handlerFactories) := by
  induction ls generalizing s with
  | nil => exact ⟨[], by simp, by simp [Registration.Rules.Fresh]⟩
  | cons l ls ih =>
    obtain ⟨ws, hws, hiff⟩ := overwritten_addLocation s l
    obtain ⟨ws', hws', hiff'⟩ := ih (s.addLocation l)
    refine ⟨ws ++ ws', by rw [List.foldl_cons, hws', hws, List.append_assoc], ?_⟩
    rw [List.append_eq_nil_iff, hiff, hiff']
    simp only [mem_addLocation, not_or, List.forall_mem_cons, Registration.Rules.Fresh,
      List.pairwise_cons]
    constructor
    · rintro ⟨hl, hls, hfree⟩
      refine ⟨⟨?_, hls⟩, hl, fun m hm k hk => (hfree m hm k hk).2⟩
      intro m hm
      cases hk : rules.key l with
      | none => exact Or.inl rfl
      | some k =>
        right
        intro heq
        exact (hfree m hm k heq.symm).1 hk
    · rintro ⟨⟨hl, hls⟩, hfree, hrest⟩
      refine ⟨hfree, hls, fun m hm k hk => ⟨?_, hrest m hm k hk⟩⟩
      intro hkey
      rcases hl m hm with hnone | hne
      · rw [hnone] at hkey
        exact absurd hkey (by simp)
      · exact hne (hkey.trans hk.symm)

end Run

section Fresh
variable {config : NginxConfig} {k : Str}

theorem not_isValidURI_top : isValidURI ['/'] = false := rfl

theorem isValidURI_ne_top (h : isValidURI k = true) : k ≠ ['/'] := by
  rintro rfl
  rw [not_isValidURI_top] at h
  exact absurd h (by decide)

/-- `SetPaths` on a fresh object, for configurations with and without a refused location. -/
theorem setPaths_cases (config : NginxConfig) :
    (rules.ConflictFree (locations config) ∧ fresh.setPaths config =
      (((locations config).foldl addLocation fresh).validatePaths,
        ((locations config).foldl addLocation fresh).addTop)) ∨
    (¬ rules.ConflictFree (locations config) ∧ (fresh.setPaths config).1 = multipleUses) := by
  rw [setPaths, foldlM_setServer]
  rcases foldlM_setLocation (locations config) fresh with ⟨_, hfree, he⟩ | ⟨hnot, s', he⟩
  · rw [he]
    exact Or.inl ⟨hfree, rfl⟩
  · rw [he]
    refine Or.inr ⟨fun hfree => hnot ⟨?_, hfree⟩, rfl⟩
    intro l _ hmem
    exact absurd hmem (AList.notMem_empty _)

theorem validatePaths_foldl (ls : List Location) :
    (ls.foldl addLocation fresh).validatePaths = 0 ∧ ValidKeys ls ∨
      (ls.foldl addLocation fresh).validatePaths = invalidUri ∧ ¬ ValidKeys ls := by
  have hiff : (∀ key ∈ (ls.foldl addLocation fresh).handlerFactories.keys, isValidURI key) ↔
      ValidKeys ls := by
    simp only [← AList.mem_keys, mem_foldl, ValidKeys]
    constructor
    · intro h l hl k hk
      exact h k (Or.inl ⟨l, hl, hk⟩)
    · intro h k hk
      rcases hk with ⟨l, hl, hk⟩ | hk
      · exact h l hl k hk
      · exact absurd hk (AList.notMem_empty _)
  rw [validatePaths, ← hiff]
  split
  · rename_i h
    exact Or.inl ⟨rfl, h⟩
  · rename_i h
    exact Or.inr ⟨rfl, h⟩

theorem setPaths_eq_multipleUses_iff :
    (fresh.setPaths config).1 = multipleUses ↔ ¬ rules.ConflictFree (locations config) := by
  rcases setPaths_cases config with ⟨hfree, he⟩ | ⟨hconf, he⟩
  · rw [he]
    rcases validatePaths_foldl (locations config) with ⟨hv, _⟩ | ⟨hv, _⟩
    · simp [hv, hfree, multipleUses]
    · simp [hv, hfree, multipleUses, invalidUri]
  · exact iff_of_true he hconf

theorem setPaths_eq_zero_iff :
    (fresh.setPaths config).1 = 0 ↔
      rules.ConflictFree (locations config) ∧ ValidKeys (locations config) := by
  rcases setPaths_cases config with ⟨hfree, he⟩ | ⟨hconf, he⟩
  · rw [he]
    rcases validatePaths_foldl (locations config) with ⟨hv, hkeys⟩ | ⟨hv, hkeys⟩
    · simp [hv, hfree, hkeys]
    · simp [hv, hkeys, invalidUri]
  · simp [he, hconf, multipleUses]

theorem setPaths_eq_invalidUri_iff :
    (fresh.setPaths config).1 = invalidUri ↔
      rules.ConflictFree (locations config) ∧ ¬ ValidKeys (locations config) := by
  rcases setPaths_cases config with ⟨hfree, he⟩ | ⟨hconf, he⟩
  · rw [he]
    rcases validatePaths_foldl (locations config) with ⟨hv, hkeys⟩ | ⟨hv, hkeys⟩
    · simp [hv, hkeys, invalidUri]
    · simp [hv, hfree, hkeys]
  · simp [he, hconf, multipleUses, invalidUri]

/-- The table that is left: the last location of a key, and the NotFoundHandler. -/
theorem lookup_setPaths (hfree : rules.ConflictFree (locations config)) (k : Str) :
    (fresh.setPaths config).2.handlerFactories.lookup k =
      if k = ['/'] then some ⟨(locations config).length, .notFoundHandler⟩
      else (rules.bound k 0 (locations config)).map fun p => Created.mk p.1 p.2 := by
  rcases setPaths_cases config with ⟨_, he⟩ | ⟨hconf, _⟩
  · have hseen := seen_foldl (locations config) fresh
    have hlook := lookup_foldl (locations config) fresh k
    rw [show fresh.seen = 0 from rfl, Nat.zero_add] at hseen
    rw [show fresh.seen = 0 from rfl, show fresh.handlerFactories = ∅ from rfl,
      AList.lookup_empty, Option.or_none] at hlook
    rw [he]
    by_cases hk : k = ['/']
    · subst hk
      simp [addTop, assign, AList.lookup_insert, hseen]
    · simp [addTop, assign, AList.lookup_insert_ne hk, hk, hlook]
  · exact absurd hfree hconf

/-- No key is assigned twice if the locations register different keys, none of them `/`. -/
theorem overwritten_setPaths (h : (fresh.setPaths config).1 = 0) :
    (fresh.setPaths config).2.overwritten = [] ↔ rules.Fresh (locations config) := by
  obtain ⟨hfree, hvalid⟩ := setPaths_eq_zero_iff.mp h
  rcases setPaths_cases config with ⟨_, he⟩ | ⟨hconf, _⟩
  · obtain ⟨ws, hws, hiff⟩ := overwritten_foldl (locations config) fresh
    have htop : ['/'] ∉ ((locations config).foldl addLocation fresh).handlerFactories := by
      rw [mem_foldl]
      rintro (⟨l, hl, hk⟩ | hk)
      · exact isValidURI_ne_top (hvalid l hl _ hk) rfl
      · exact absurd hk (AList.notMem_empty _)
    rw [he]
    simp only [addTop, assign, if_neg htop, hws]
    rw [show fresh.overwritten = [] from rfl, List.nil_append, hiff]
    constructor
    · exact fun h => h.1
    · exact fun h => ⟨h, fun _ _ _ _ => AList.notMem_empty _⟩
  · exact absurd hfree hconf

end Fresh

end ServingConfig

end Webserver
