import Webserver.ConfigWords
import Webserver.ServingPort

/-!
# Quoted words in a served configuration

A quoted string keeps its quotes in the tree. The two readers compare and interpret the tokens as
they are, so that a word may be quoted where no reader looks, and with a few coincidences apart
only there.
-/

set_option autoImplicit false

namespace Webserver

universe u

/-- A factory with the root that it computes, if it is one of a file handler. -/
inductive FactoryView where
  | staticHandler (root : Str)
  | crudHandler (root : Str)
  | echoHandler
  | healthHandler
  | sleepHandler
  | notFoundHandler
  | websocketInfoHandler

def HandlerFactory.view : HandlerFactory → FactoryView
  | .staticHandler config => .staticHandler (FileHandlerFactory.getRoot config)
  | .crudHandler config => .crudHandler (FileHandlerFactory.getRoot config)
  | .echoHandler => .echoHandler
  | .healthHandler => .healthHandler
  | .sleepHandler => .sleepHandler
  | .notFoundHandler => .notFoundHandler
  | .websocketInfoHandler => .websocketInfoHandler

namespace Location

/-- The key and the factory that a location registers. -/
def entryView (l : Location) : Option (Str × FactoryView) :=
  l.registered.map fun e => (e.1, e.2.view)

/-- The factory at a key that a location registers. -/
def routeAt (l : Location) (k : Str) : Option FactoryView :=
  match l.entryView with
  | some (key, view) => if key = k then some view else none
  | none => none

/-- `SetPaths` sees no difference. -/
def Alike (l m : Location) : Prop := l.servingPath = m.servingPath ∧ l.entryView = m.entryView

theorem entryView_eq_none {l : Location} : l.entryView = none ↔ l.registered = none :=
  Option.map_eq_none_iff

end Location

namespace ServingConfig

/-- The factory at a key of the table. -/
def viewAt (s : ServingConfig) (k : Str) : Option FactoryView :=
  (s.handlerFactories.lookup k).map fun c => c.factory.view

/-- What the readers make of a configuration. -/
structure Served where
  port : Except Abort (Option Int)
  status : Nat
  routes : Str → Option FactoryView

def served (config : NginxConfig) : Served :=
  ⟨setPortNumber config, (fresh.setPaths config).1, (fresh.setPaths config).2.viewAt⟩

/-! Tables with the same keys and views. -/

def SameRoutes (s t : ServingConfig) : Prop := ∀ k, s.viewAt k = t.viewAt k

/-- Both loops go on, or both return, with the same table. -/
inductive SameOutcome : Except ServingConfig ServingConfig → Except ServingConfig ServingConfig → Prop
  | ok {s t : ServingConfig} (h : SameRoutes s t) : SameOutcome (.ok s) (.ok t)
  | error {s t : ServingConfig} (h : SameRoutes s t) : SameOutcome (.error s) (.error t)

section Outcomes
variable {s t : ServingConfig} {l m : Location} {k : Str}

theorem sameRoutes_refl (s : ServingConfig) : SameRoutes s s := fun _ => rfl

theorem sameOutcome_refl (x : Except ServingConfig ServingConfig) : SameOutcome x x := by
  cases x with
  | ok s => exact .ok (sameRoutes_refl s)
  | error s => exact .error (sameRoutes_refl s)

theorem mem_iff_viewAt : k ∈ s.handlerFactories ↔ s.viewAt k ≠ none := by
  rw [← AList.lookup_isSome, Option.isSome_iff_ne_none, viewAt, ne_eq, ne_eq, Option.map_eq_none_iff]

theorem SameRoutes.mem_iff (h : SameRoutes s t) : k ∈ s.handlerFactories ↔ k ∈ t.handlerFactories := by
  rw [mem_iff_viewAt, mem_iff_viewAt, h]

theorem viewAt_addLocation (s : ServingConfig) (l : Location) (k : Str) :
    (s.addLocation l).viewAt k = (l.routeAt k).or (s.viewAt k) := by
  unfold viewAt Location.routeAt Location.entryView
  cases hr : l.registered with
  | none =>
    rw [(addLocation_none s hr).1]
    rfl
  | some e =>
    obtain ⟨key, factory⟩ := e
    rw [(addLocation_some s hr).1]
    by_cases hk : key = k
    · subst hk
      simp [AList.lookup_insert]
    · have hk' : k ≠ key := fun heq => hk heq.symm
      simp [AList.lookup_insert_ne hk', hk]

theorem SameRoutes.addLocation (h : SameRoutes s t) (hlm : l.Alike m) :
    SameRoutes (s.addLocation l) (t.addLocation m) := by
  intro k
  rw [viewAt_addLocation, viewAt_addLocation, h, Location.routeAt, Location.routeAt, hlm.2]

theorem SameRoutes.setLocation (h : SameRoutes s t) (hlm : l.Alike m) :
    SameOutcome (s.setLocation l) (t.setLocation m) := by
  unfold ServingConfig.setLocation
  rw [← hlm.1]
  by_cases hmem : l.servingPath ∈ s.handlerFactories
  · rw [if_pos hmem, if_pos (h.mem_iff.mp hmem)]
    exact .error h
  · rw [if_neg hmem, if_neg fun ht => hmem (h.mem_iff.mpr ht)]
    exact .ok (h.addLocation hlm)

theorem SameOutcome.bind {x y : Except ServingConfig ServingConfig} (h : SameOutcome x y)
    {f g : ServingConfig → Except ServingConfig ServingConfig}
    (hfg : ∀ s t, SameRoutes s t → SameOutcome (f s) (g t)) : SameOutcome (x >>= f) (y >>= g) := by
  cases h with
  | ok h => exact hfg _ _ h
  | error h => exact .error h

theorem SameRoutes.foldlM (h : SameRoutes s t) (ls : List Location) :
    SameOutcome (ls.foldlM ServingConfig.setLocation s) (ls.foldlM ServingConfig.setLocation t) := by
  induction ls generalizing s t with
  | nil => exact .ok h
  | cons l ls ih =>
    rw [List.foldlM_cons, List.foldlM_cons]
    exact (h.setLocation ⟨rfl, rfl⟩).bind fun s t h => ih h

theorem setLocation_idle (hnone : l.registered = none) (hpath : l.servingPath ∉ s.handlerFactories) :
    ∃ s', s.setLocation l = .ok s' ∧ SameRoutes s s' := by
  refine ⟨s.addLocation l, if_neg hpath, fun k => ?_⟩
  rw [viewAt_addLocation, Location.routeAt, Location.entryView_eq_none.mpr hnone]
  rfl

theorem foldlM_idle {ls : List Location} (hnone : ∀ l ∈ ls, l.registered = none)
    (hpath : ∀ l ∈ ls, l.servingPath ∉ s.handlerFactories) :
    ∃ s', ls.foldlM ServingConfig.setLocation s = .ok s' ∧ SameRoutes s s' := by
  induction ls generalizing s with
  | nil => exact ⟨s, rfl, sameRoutes_refl s⟩
  | cons l ls ih =>
    rw [List.forall_mem_cons] at hnone hpath
    obtain ⟨s₁, hs₁, hsame⟩ := setLocation_idle hnone.1 hpath.1
    obtain ⟨s₂, hs₂, hsame'⟩ := @ih s₁ hnone.2 fun m hm hmem => hpath.2 m hm (hsame.mem_iff.mpr hmem)
    refine ⟨s₂, ?_, fun k => (hsame k).trans (hsame' k)⟩
    rw [List.foldlM_cons, hs₁]
    exact hs₂

/-- The status and the table depend on the outcome of the loops. -/
theorem setPaths_same {config config' : NginxConfig}
    (h : SameOutcome ((locations config).foldlM ServingConfig.setLocation fresh)
      ((locations config').foldlM ServingConfig.setLocation fresh)) :
    (fresh.setPaths config).1 = (fresh.setPaths config').1 ∧
      (fresh.setPaths config).2.viewAt = (fresh.setPaths config').2.viewAt := by
  rw [setPaths, setPaths, foldlM_setServer, foldlM_setServer]
  generalize (locations config).foldlM ServingConfig.setLocation fresh = x at h ⊢
  generalize (locations config').foldlM ServingConfig.setLocation fresh = y at h ⊢
  cases h with
  | error h => exact ⟨rfl, funext h⟩
  | @ok s t h =>
    constructor
    · show s.validatePaths = t.validatePaths
      unfold validatePaths
      have hkeys (p : Str → Prop) : (∀ k ∈ s.handlerFactories.keys, p k) ↔
          ∀ k ∈ t.handlerFactories.keys, p k := by
        constructor
        · intro hall k hk
          exact hall k (AList.mem_keys.mp (h.mem_iff.mpr (AList.mem_keys.mpr hk)))
        · intro hall k hk
          exact hall k (AList.mem_keys.mp (h.mem_iff.mp (AList.mem_keys.mpr hk)))
      simp only [hkeys]
    · funext k
      show s.addTop.viewAt k = t.addTop.viewAt k
      unfold viewAt addTop assign
      by_cases hk : k = ['/']
      · subst hk
        simp [AList.lookup_insert, HandlerFactory.view]
      · have hroute := h k
        simp only [AList.lookup_insert_ne hk]
        exact hroute

end Outcomes

end ServingConfig

/-! What the readers take from a configuration, with a place in it. -/

section Collected
variable {α : Type u} (f : NginxConfigStatement → Option α)

/-- What `f` takes from the block of a statement that starts with `server`. -/
def contribution (statement : NginxConfigStatement) : List α :=
  (statement.serverBlock.map fun block => block.filterMap f).getD []

/-- What `f` takes from the statements in server blocks. -/
def collect (config : NginxConfig) : List α := config.flatMap (contribution f)

theorem collect_eq (config : NginxConfig) :
    collect f config =
      (config.filterMap NginxConfigStatement.serverBlock).flatMap fun block => block.filterMap f := by
  induction config with
  | nil => rfl
  | cons statement config ih =>
    rw [collect, List.flatMap_cons, contribution]
    cases hblock : statement.serverBlock with
    | none =>
      rw [List.filterMap_cons_none hblock, ← ih]
      rfl
    | some block =>
      rw [List.filterMap_cons_some hblock, List.flatMap_cons, ← ih]
      rfl

theorem listenArguments_eq (config : NginxConfig) :
    ServingConfig.listenArguments config = collect NginxConfigStatement.listenArgument config :=
  (collect_eq _ config).symm

theorem locations_eq (config : NginxConfig) :
    locations config = collect Location.ofStatement config := by
  rw [collect_eq, locations, serverLocations, List.flatMap_def]

namespace Spot

/-- The tokens of a statement that starts with `server`. -/
def IsServer (tokens : List Str) : Prop := tokens.head? = some "server".toList

instance (tokens : List Str) : Decidable (IsServer tokens) := inferInstanceAs (Decidable (_ = _))

/-- What `f` takes from what is in front of the statement with the place. -/
def taken : Spot → List α
  | here before _ _ _ _ => collect f before
  | inside before tokens spot _ =>
    collect f before ++ if IsServer tokens then spot.before.filterMap f else []

/-- What `f` takes from the statement with the place, or from its block. -/
def takes (word : Str) : Spot → List α
  | here _ ws vs block _ => contribution f (.mk (ws ++ word :: vs) block)
  | inside _ tokens spot _ => if IsServer tokens then (f (spot.statement word)).toList else []

/-- What `f` takes from what is behind. -/
def leaves : Spot → List α
  | here _ _ _ _ behind => collect f behind
  | inside _ tokens spot behind =>
    (if IsServer tokens then spot.behind.filterMap f else []) ++ collect f behind

theorem serverBlock_eq (tokens : List Str) (block : Option NginxConfig) :
    (NginxConfigStatement.mk tokens block).serverBlock = if IsServer tokens then block else none := by
  cases tokens with
  | nil => rfl
  | cons name tokens =>
    by_cases hname : name = "server".toList
    · have hserver : IsServer (name :: tokens) := congrArg some hname
      rw [if_pos hserver]
      exact if_pos hname
    · have hserver : ¬ IsServer (name :: tokens) := fun h => hname (Option.some.inj h)
      rw [if_neg hserver]
      exact if_neg hname

theorem takes_here (before behind : NginxConfig) (ws vs : List Str) (block : Option NginxConfig)
    (word : Str) : (here before ws vs block behind).takes f word =
      if IsServer (ws ++ word :: vs) then (block.map fun block => block.filterMap f).getD []
      else [] := by
  rw [takes, contribution, serverBlock_eq]
  split <;> rfl

theorem takes_inside (before behind : NginxConfig) (tokens : List Str) (spot : Spot) (word : Str) :
    (inside before tokens spot behind).takes f word =
      if IsServer tokens then (f (spot.statement word)).toList else [] := rfl

theorem filterMap_fill (spot : Spot) (word : Str) :
    (spot.fill word).filterMap f =
      spot.before.filterMap f ++ (f (spot.statement word)).toList ++ spot.behind.filterMap f := by
  rw [fill_eq, List.filterMap_append, List.append_assoc]
  cases hf : f (spot.statement word) with
  | none =>
    rw [List.filterMap_cons_none hf]
    rfl
  | some a =>
    rw [List.filterMap_cons_some hf]
    rfl

theorem collect_fill (spot : Spot) (word : Str) :
    collect f (spot.fill word) = spot.taken f ++ spot.takes f word ++ spot.leaves f := by
  cases spot with
  | here before ws vs block behind =>
    rw [fill, collect, List.flatMap_append, List.flatMap_cons, List.append_assoc]
    rfl
  | inside before tokens spot behind =>
    rw [fill, collect, List.flatMap_append, List.flatMap_cons, contribution, serverBlock_eq, taken,
      takes, leaves]
    by_cases hserver : IsServer tokens
    · simp only [if_pos hserver, Option.map_some, Option.getD_some]
      rw [filterMap_fill]
      simp [collect]
    · simp [if_neg hserver, collect]

end Spot

end Collected

namespace ServingConfig

open NginxConfigStatement NginxConfigParser

/-- A location in the list registers the key. -/
def Registers (ls : List Location) (k : Str) : Prop := ∃ l ∈ ls, rules.key l = some k

/-- A location that is refused or registers a key. -/
def Counts (ls : List Location) (l : Location) : Prop :=
  l.registered ≠ none ∨ Registers ls l.servingPath

/-- `SetPortNumber` comes to the word, and it is the `server` in front of its first argument, or
the `listen` or the number of the statement with it. -/
inductive ReadsPort (w : Str) : Spot → Prop
  | server {before block behind : NginxConfig} {vs : List Str} (hword : w = "server".toList)
      (hfirst : listenArguments before = []) (hblock : block.filterMap listenArgument ≠ []) :
      ReadsPort w (.here before [] vs (some block) behind)
  | listen {before before' behind' behind : NginxConfig} {tokens vs : List Str} {port : Str}
      {block : Option NginxConfig} (hserver : Spot.IsServer tokens)
      (hfirst : listenArguments before = [] ∧ before'.filterMap listenArgument = [])
      (hword : w = "listen".toList) (hport : onlyDigits port = true) :
      ReadsPort w (.inside before tokens (.here before' [] (port :: vs) block behind') behind)
  | number {before before' behind' behind : NginxConfig} {tokens vs : List Str}
      {block : Option NginxConfig} (hserver : Spot.IsServer tokens)
      (hfirst : listenArguments before = [] ∧ before'.filterMap listenArgument = [])
      (hword : onlyDigits w = true) :
      ReadsPort w
        (.inside before tokens (.here before' ["listen".toList] vs block behind') behind)

/-- The locations in front of a statement in a server block. -/
def reached (before before' : NginxConfig) : List Location :=
  locations before ++ before'.filterMap Location.ofStatement

/-- `SetPaths` comes to the word, and it is the `server` in front of a location that counts, the
`location` or the path of one, the handler name of one that is not refused, or a word of the root
of a file handler. `w'` is what stands in its place. -/
inductive ReadsPaths (w w' : Str) : Spot → Prop
  | server {before block behind : NginxConfig} {vs : List Str} {l : Location}
      (hword : w = "server".toList) (hfree : rules.ConflictFree (locations before))
      (hl : l ∈ block.filterMap Location.ofStatement) (hcounts : Counts (locations before) l) :
      ReadsPaths w w' (.here before [] vs (some block) behind)
  | location {before before' behind' behind : NginxConfig} {tokens vs : List Str}
      {path name : Str} {block : Option NginxConfig} (hserver : Spot.IsServer tokens)
      (hfree : rules.ConflictFree (reached before before')) (hword : w = "location".toList)
      (hcounts : Counts (reached before before') ⟨path, name, block⟩) :
      ReadsPaths w w'
        (.inside before tokens (.here before' [] (path :: name :: vs) block behind') behind)
  | path {before before' behind' behind : NginxConfig} {tokens vs : List Str} {name : Str}
      {block : Option NginxConfig} (hserver : Spot.IsServer tokens)
      (hfree : rules.ConflictFree (reached before before'))
      (hcounts : Counts (reached before before') ⟨w, name, block⟩ ∨
        Registers (reached before before') w') :
      ReadsPaths w w' (.inside before tokens
        (.here before' ["location".toList] (name :: vs) block behind') behind)
  | handler {before before' behind' behind : NginxConfig} {tokens vs : List Str} {path : Str}
      {block : Option NginxConfig} (hserver : Spot.IsServer tokens)
      (hfree : rules.ConflictFree (reached before before'))
      (hasked : ¬ Registers (reached before before') path)
      (hregisters : (⟨path, w, block⟩ : Location).registered ≠ none) :
      ReadsPaths w w' (.inside before tokens
        (.here before' ["location".toList, path] vs block behind') behind)
  | root {before before' behind' behind : NginxConfig} {tokens more ws vs xs : List Str}
      {path name dir : Str} {block : Option NginxConfig} (hserver : Spot.IsServer tokens)
      (hfree : rules.ConflictFree (reached before before'))
      (hasked : ¬ Registers (reached before before') path)
      (hname : name = "StaticHandler".toList ∨ name = "CrudHandler".toList)
      (hplace : ws.length ≤ 1) (hroot : ws ++ w :: vs = "root".toList :: dir :: xs) :
      ReadsPaths w w' (.inside before tokens
        (.inside before' ("location".toList :: path :: name :: more) (.here [] ws vs block [])
          behind') behind)

def Reads (w w' : Str) (spot : Spot) : Prop := ReadsPort w spot ∨ ReadsPaths w w' spot

section Quoted
variable {quote : Char} {w : Str}

theorem quoted_ne (hquote : isQuote quote = true) {s : Str} (hs : s.head?.map isQuote ≠ some true) :
    quoted quote w ≠ s := by
  rintro rfl
  exact hs (congrArg some hquote)

theorem onlyDigits_quoted (hquote : isQuote quote = true) : onlyDigits (quoted quote w) = false := by
  have hq : quote = '\'' ∨ quote = '"' := by simpa [isQuote] using hquote
  rcases hq with rfl | rfl <;> rfl

theorem isValidURI_quoted (hquote : isQuote quote = true) (s : Str) :
    isValidURI (quoted quote w ++ s) = false := by
  have hq : quote = '\'' ∨ quote = '"' := by simpa [isQuote] using hquote
  rcases hq with rfl | rfl <;> rfl

theorem registered_quoted (hquote : isQuote quote = true) (path : Str) (block : Option NginxConfig) :
    (⟨path, quoted quote w, block⟩ : Location).registered = none := by
  unfold Location.registered
  dsimp only
  cases block with
  | none => rfl
  | some block =>
    dsimp only
    rw [if_neg (quoted_ne hquote (by decide)), if_neg (quoted_ne hquote (by decide)),
      if_neg (quoted_ne hquote (by decide)), if_neg (quoted_ne hquote (by decide)),
      if_neg (quoted_ne hquote (by decide)), if_neg (quoted_ne hquote (by decide))]

theorem registered_path (path path' name : Str) (block : Option NginxConfig) :
    (⟨path, name, block⟩ : Location).registered = none ↔
      (⟨path', name, block⟩ : Location).registered = none := by
  unfold Location.registered
  dsimp only
  cases block with
  | none => exact Iff.rfl
  | some block =>
    dsimp only
    split_ifs <;> simp

theorem not_isServer_quoted (hquote : isQuote quote = true) (vs : List Str) :
    ¬ Spot.IsServer (quoted quote w :: vs) := by
  intro h
  exact quoted_ne hquote (by decide) (Option.some.inj h)

/-- Quoting changes what a statement gives to `SetPortNumber` only at a word that it reads. -/
theorem takes_port (hquote : isQuote quote = true) {spot : Spot} (hread : ¬ ReadsPort w spot)
    (hfirst : spot.taken listenArgument = []) :
    spot.takes listenArgument w = spot.takes listenArgument (quoted quote w) := by
  cases spot with
  | here before ws vs block behind =>
    rw [Spot.takes_here, Spot.takes_here]
    cases ws with
    | cons name ws => rfl
    | nil =>
      rw [List.nil_append, List.nil_append, if_neg (not_isServer_quoted hquote vs)]
      by_cases hserver : Spot.IsServer (w :: vs)
      · rw [if_pos hserver]
        cases block with
        | none => rfl
        | some block =>
          have hfirst' : listenArguments before = [] := by rw [listenArguments_eq]; exact hfirst
          by_contra hne
          exact hread (.server (Option.some.inj hserver) hfirst' hne)
      · rw [if_neg hserver]
  | inside before tokens spot behind =>
    rw [Spot.takes_inside, Spot.takes_inside]
    by_cases hserver : Spot.IsServer tokens
    · rw [if_pos hserver, if_pos hserver]
      rw [Spot.taken, if_pos hserver, List.append_eq_nil_iff, ← listenArguments_eq] at hfirst
      congr 1
      cases spot with
      | inside before' tokens' spot' behind' => rfl
      | here before' ws vs block behind' =>
        rw [Spot.statement, Spot.statement, listenArgument, listenArgument]
        cases ws with
        | nil =>
          cases vs with
          | nil => rfl
          | cons port vs =>
            have hquoted : ¬ (quoted quote w = "listen".toList ∧ onlyDigits port = true) := fun h =>
              quoted_ne hquote (by decide) h.1
            dsimp only [NginxConfigStatement.tokens, List.nil_append]
            rw [if_neg hquoted, if_neg]
            rintro ⟨hword, hport⟩
            exact hread (.listen hserver hfirst hword hport)
        | cons name ws =>
          cases ws with
          | cons port ws => rfl
          | nil =>
            have hquoted : ¬ (name = "listen".toList ∧ onlyDigits (quoted quote w) = true) := by
              rw [onlyDigits_quoted hquote]
              simp
            dsimp only [NginxConfigStatement.tokens, List.cons_append, List.nil_append]
            rw [if_neg hquoted, if_neg]
            rintro ⟨rfl, hport⟩
            exact hread (.number hserver hfirst hport)
    · rw [if_neg hserver, if_neg hserver]

theorem setPortNumber_of_unread (hquote : isQuote quote = true) {spot : Spot}
    (hread : ¬ ReadsPort w spot) :
    setPortNumber (spot.fill (quoted quote w)) = setPortNumber (spot.fill w) := by
  rw [setPortNumber_eq, setPortNumber_eq, listenArguments_eq, listenArguments_eq,
    Spot.collect_fill, Spot.collect_fill]
  cases htaken : spot.taken listenArgument with
  | nil => rw [takes_port hquote hread htaken]
  | cons port ports => rfl

/-- Only what stands between differs, and the loops go over it from a table of what is in
front. -/
theorem outcome_of_middle {front middle middle' behind : List Location}
    (h : rules.ConflictFree front → ∀ s : ServingConfig,
      (∀ k, k ∈ s.handlerFactories ↔ Registers front k) →
      SameOutcome (middle.foldlM setLocation s) (middle'.foldlM setLocation s)) :
    SameOutcome ((front ++ middle ++ behind).foldlM setLocation fresh)
      ((front ++ middle' ++ behind).foldlM setLocation fresh) := by
  rw [List.append_assoc, List.append_assoc, List.foldlM_append, List.foldlM_append]
  rcases foldlM_setLocation front fresh with ⟨_, hfree, hfront⟩ | ⟨_, s, hfront⟩
  · rw [hfront]
    have hmem (k : Str) : k ∈ (front.foldl addLocation fresh).handlerFactories ↔
        Registers front k := by
      rw [mem_foldl]
      exact or_iff_left (AList.notMem_empty k)
    have hmiddle := h hfree _ hmem
    show SameOutcome ((middle ++ behind).foldlM setLocation _) ((middle' ++ behind).foldlM setLocation _)
    rw [List.foldlM_append, List.foldlM_append]
    exact hmiddle.bind fun s t hst => hst.foldlM behind
  · rw [hfront]
    exact .error (sameRoutes_refl s)

theorem foldlM_single (s : ServingConfig) (l : Location) :
    [l].foldlM setLocation s = s.setLocation l := by
  rw [List.foldlM_cons]
  exact bind_pure _

theorem setLocation_refused {s : ServingConfig} {l : Location}
    (h : l.servingPath ∈ s.handlerFactories) : s.setLocation l = .error s := if_pos h

theorem outcome_of_uncounted {front : List Location} {s : ServingConfig}
    (hs : ∀ k, k ∈ s.handlerFactories ↔ Registers front k) {ls ms : List Location}
    (hls : ∀ l ∈ ls, ¬ Counts front l) (hms : ∀ l ∈ ms, ¬ Counts front l) :
    SameOutcome (ls.foldlM setLocation s) (ms.foldlM setLocation s) := by
  have hidle {ls : List Location} (hls : ∀ l ∈ ls, ¬ Counts front l) :=
    @foldlM_idle s ls (fun l hl => not_not.mp (not_or.mp (hls l hl)).1)
      fun l hl hmem => (not_or.mp (hls l hl)).2 ((hs _).mp hmem)
  obtain ⟨s₁, hs₁, hsame₁⟩ := hidle hls
  obtain ⟨s₂, hs₂, hsame₂⟩ := hidle hms
  rw [hs₁, hs₂]
  exact .ok fun k => (hsame₁ k).symm.trans (hsame₂ k)

/-- The root of a block changes only with a word of its only statement, a root directive. -/
theorem getRoot_fill {spot : Spot} {w w' : Str} (hw' : w' ≠ "root".toList)
    (h : FileHandlerFactory.getRoot (spot.fill w) ≠ FileHandlerFactory.getRoot (spot.fill w')) :
    ∃ ws vs block dir xs, spot = .here [] ws vs block [] ∧ ws.length ≤ 1 ∧
      ws ++ w :: vs = "root".toList :: dir :: xs := by
  have hlong {a b : NginxConfigStatement} {config : NginxConfig} :
      FileHandlerFactory.getRoot (a :: b :: config) = [] := rfl
  have hother {name dir : Str} {more : List Str} {block : Option NginxConfig}
      (hname : name ≠ "root".toList) :
      FileHandlerFactory.getRoot [.mk (name :: dir :: more) block] = [] := if_neg hname
  cases spot with
  | inside before tokens spot behind =>
    refine absurd ?_ h
    cases before with
    | nil =>
      cases behind with
      | nil => rfl
      | cons b behind => rfl
    | cons a before =>
      cases before with
      | nil => rfl
      | cons b before => rfl
  | here before ws vs block behind =>
    cases before with
    | cons a before =>
      refine absurd ?_ h
      cases before with
      | nil => rfl
      | cons b before => rfl
    | nil =>
      cases behind with
      | cons b behind => exact absurd rfl h
      | nil =>
        cases ws with
        | nil =>
          cases vs with
          | nil => exact absurd rfl h
          | cons dir vs =>
            by_cases hw : w = "root".toList
            · exact ⟨[], dir :: vs, block, dir, vs, rfl, Nat.zero_le 1, by rw [hw]; rfl⟩
            · refine absurd ?_ h
              exact (hother hw).trans (hother hw').symm
        | cons name ws =>
          cases ws with
          | cons dir ws => exact absurd rfl h
          | nil =>
            by_cases hname : name = "root".toList
            · exact ⟨[name], vs, block, w, vs, rfl, le_rfl, by rw [hname]; rfl⟩
            · refine absurd ?_ h
              exact (hother hname).trans (hother hname).symm

theorem ofStatement_location (path name : Str) (more : List Str) (block : Option NginxConfig) :
    Location.ofStatement (.mk ("location".toList :: path :: name :: more) block) =
      some ⟨path, name, block⟩ := rfl

theorem ofStatement_other {first : Str} (h : first ≠ "location".toList) (more : List Str)
    (block : Option NginxConfig) : Location.ofStatement (.mk (first :: more) block) = none := by
  cases more with
  | nil => rfl
  | cons path more =>
    cases more with
    | nil => rfl
    | cons name more => exact if_neg h

section Middle
variable {front : List Location} {s : ServingConfig}
  (hs : ∀ k, k ∈ s.handlerFactories ↔ Registers front k)

include hs

/-- The location that a statement with the word is, before and after. -/
theorem outcome_of_statement (hquote : isQuote quote = true) {ws vs : List Str}
    {block : Option NginxConfig}
    (hkeyword : ∀ path name more, ws = [] → w = "location".toList → vs = path :: name :: more →
      ¬ Counts front ⟨path, name, block⟩)
    (hpath : ∀ name more, ws = ["location".toList] → vs = name :: more →
      ¬ Counts front ⟨w, name, block⟩ ∧ ¬ Registers front (quoted quote w))
    (hhandler : ∀ path, ws = ["location".toList, path] →
      Registers front path ∨ (⟨path, w, block⟩ : Location).registered = none) :
    SameOutcome
      ((Location.ofStatement (.mk (ws ++ w :: vs) block)).toList.foldlM setLocation s)
      ((Location.ofStatement (.mk (ws ++ quoted quote w :: vs) block)).toList.foldlM setLocation s) := by
  have hsingle {l m : Location} (hl : ¬ Counts front l) (hm : ¬ Counts front m) :
      SameOutcome ((some l).toList.foldlM setLocation s) ((some m).toList.foldlM setLocation s) :=
    outcome_of_uncounted hs (List.forall_mem_singleton.mpr hl) (List.forall_mem_singleton.mpr hm)
  cases ws with
  | nil =>
    rw [List.nil_append, List.nil_append, ofStatement_other (quoted_ne hquote (by decide)) vs block]
    by_cases hw : w = "location".toList
    · rcases vs with _ | ⟨path, _ | ⟨name, more⟩⟩
      · exact sameOutcome_refl _
      · exact sameOutcome_refl _
      · subst hw
        rw [ofStatement_location]
        exact outcome_of_uncounted hs
          (List.forall_mem_singleton.mpr (hkeyword path name more rfl rfl rfl)) (by simp)
    · rw [ofStatement_other hw]
      exact sameOutcome_refl _
  | cons first ws =>
    rw [List.cons_append, List.cons_append]
    by_cases hfirst : first = "location".toList
    · subst hfirst
      rcases ws with _ | ⟨path, _ | ⟨name, ws⟩⟩
      · cases vs with
        | nil => exact sameOutcome_refl _
        | cons name more =>
          obtain ⟨hcounts, hquoted⟩ := hpath name more rfl rfl
          obtain ⟨hnone, _⟩ := not_or.mp hcounts
          apply hsingle hcounts
          rintro (hregistered | hregisters)
          · exact hregistered ((registered_path w _ name block).mp (not_not.mp hnone))
          · exact hquoted hregisters
      · rw [List.cons_append, List.nil_append, List.cons_append, List.nil_append,
          ofStatement_location, ofStatement_location, Option.toList_some, Option.toList_some,
          foldlM_single, foldlM_single]
        rcases hhandler path rfl with hregisters | hnone
        · have hmem := (hs path).mpr hregisters
          rw [setLocation_refused hmem, setLocation_refused hmem]
          exact sameOutcome_refl _
        · have halike : (⟨path, w, block⟩ : Location).Alike ⟨path, quoted quote w, block⟩ := by
            refine ⟨rfl, ?_⟩
            rw [Location.entryView_eq_none.mpr hnone,
              Location.entryView_eq_none.mpr (registered_quoted hquote path block)]
          exact (sameRoutes_refl s).setLocation halike
      · exact sameOutcome_refl _
    · rw [ofStatement_other hfirst, ofStatement_other hfirst]
      exact sameOutcome_refl _

/-- The location whose block has the word. -/
theorem outcome_of_block {tokens : List Str} {spot : Spot} {w' : Str} (hw' : w' ≠ "root".toList)
    (hroot : ∀ path name more ws vs block dir xs,
      tokens = "location".toList :: path :: name :: more → ¬ Registers front path →
      name = "StaticHandler".toList ∨ name = "CrudHandler".toList →
      spot = .here [] ws vs block [] → ws.length ≤ 1 → ws ++ w :: vs ≠ "root".toList :: dir :: xs) :
    SameOutcome
      ((Location.ofStatement (.mk tokens (some (spot.fill w)))).toList.foldlM setLocation s)
      ((Location.ofStatement (.mk tokens (some (spot.fill w')))).toList.foldlM setLocation s) := by
  rcases tokens with _ | ⟨first, _ | ⟨path, _ | ⟨name, more⟩⟩⟩
  · exact sameOutcome_refl _
  · exact sameOutcome_refl _
  · exact sameOutcome_refl _
  · by_cases hfirst : first = "location".toList
    · subst hfirst
      rw [ofStatement_location, ofStatement_location, Option.toList_some, Option.toList_some,
        foldlM_single, foldlM_single]
      by_cases hregisters : Registers front path
      · have hmem := (hs path).mpr hregisters
        rw [setLocation_refused hmem, setLocation_refused hmem]
        exact sameOutcome_refl _
      · apply (sameRoutes_refl s).setLocation
        refine ⟨rfl, ?_⟩
        by_cases hfile : name = "StaticHandler".toList ∨ name = "CrudHandler".toList
        · have hsame : FileHandlerFactory.getRoot (spot.fill w) =
              FileHandlerFactory.getRoot (spot.fill w') := by
            by_contra hne
            obtain ⟨ws, vs, block, dir, xs, hspot, hlength, hwords⟩ := getRoot_fill hw' hne
            exact hroot path name more ws vs block dir xs rfl hregisters hfile hspot hlength hwords
          rcases hfile with rfl | rfl
          · exact congrArg (fun root => some (path, FactoryView.staticHandler root)) hsame
          · exact congrArg (fun root => some (path, FactoryView.crudHandler root)) hsame
        · rw [not_or] at hfile
          unfold Location.entryView Location.registered
          dsimp only
          rw [if_neg hfile.1, if_neg hfile.1]
          split_ifs <;> first | rfl | exact absurd (by assumption) hfile.2
    · rw [ofStatement_other hfirst, ofStatement_other hfirst]
      exact sameOutcome_refl _

end Middle

theorem reached_eq (before : NginxConfig) {tokens : List Str} (hserver : Spot.IsServer tokens)
    (spot : Spot) (behind : NginxConfig) :
    (Spot.inside before tokens spot behind).taken Location.ofStatement =
      reached before spot.before := by
  rw [Spot.taken, if_pos hserver, reached, locations_eq]

theorem setPaths_of_unread (hquote : isQuote quote = true) {spot : Spot}
    (hread : ¬ ReadsPaths w (quoted quote w) spot) :
    (fresh.setPaths (spot.fill w)).1 = (fresh.setPaths (spot.fill (quoted quote w))).1 ∧
      (fresh.setPaths (spot.fill w)).2.viewAt =
        (fresh.setPaths (spot.fill (quoted quote w))).2.viewAt := by
  apply setPaths_same
  rw [locations_eq, locations_eq, Spot.collect_fill, Spot.collect_fill]
  apply outcome_of_middle
  intro hfree s hs
  cases spot with
  | here before ws vs block behind =>
    rw [Spot.takes_here, Spot.takes_here]
    cases ws with
    | cons name ws => exact sameOutcome_refl _
    | nil =>
      rw [List.nil_append, List.nil_append, if_neg (not_isServer_quoted hquote vs)]
      by_cases hserver : Spot.IsServer (w :: vs)
      · rw [if_pos hserver]
        cases block with
        | none => exact sameOutcome_refl _
        | some block =>
          have hfront : (Spot.here before [] vs (some block) behind).taken Location.ofStatement =
              locations before := (locations_eq before).symm
          rw [hfront] at hfree hs
          refine outcome_of_uncounted hs ?_ (by simp)
          intro l hl hcounts
          exact hread (.server (Option.some.inj hserver) hfree hl hcounts)
      · rw [if_neg hserver]
        exact sameOutcome_refl _
  | inside before tokens spot behind =>
    rw [Spot.takes_inside, Spot.takes_inside]
    by_cases hserver : Spot.IsServer tokens
    · rw [if_pos hserver, if_pos hserver]
      rw [reached_eq before hserver] at hfree hs
      cases spot with
      | here before' ws vs block behind' =>
        apply outcome_of_statement hs hquote
        · rintro path name more rfl hword rfl hcounts
          exact hread (.location hserver hfree hword hcounts)
        · rintro name more rfl rfl
          rw [← not_or]
          intro hcounts
          exact hread (.path hserver hfree hcounts)
        · rintro path rfl
          by_contra hneither
          obtain ⟨hasked, hregisters⟩ := not_or.mp hneither
          exact hread (.handler hserver hfree hasked hregisters)
      | inside before' tokens' spot behind' =>
        apply outcome_of_block hs (quoted_ne hquote (by decide))
        rintro path name more ws vs block dir xs rfl hasked hname rfl hlength hwords
        exact hread (.root hserver hfree hasked hname hlength hwords)
    · rw [if_neg hserver, if_neg hserver]
      exact sameOutcome_refl _

theorem served_of_unread (hquote : isQuote quote = true) {spot : Spot}
    (hread : ¬ Reads w (quoted quote w) spot) :
    served (spot.fill (quoted quote w)) = served (spot.fill w) := by
  obtain ⟨hport, hpaths⟩ := not_or.mp hread
  obtain ⟨hstatus, hroutes⟩ := setPaths_of_unread hquote hpaths
  unfold served
  rw [setPortNumber_of_unread hquote hport, hstatus, hroutes]

end Quoted

end ServingConfig

end Webserver
