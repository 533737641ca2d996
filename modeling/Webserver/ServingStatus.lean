import Webserver.ServingOrder

/-!
# Ordinary locations

The status and the table of `SetPaths` for configurations whose locations are all registered
under their own serving paths. Two such locations conflict exactly if their paths are the same.
-/

set_option autoImplicit false

namespace Webserver

namespace Location

/-- A factory of the kind that a location declares; a file handler keeps the block. -/
inductive Declares : Location → HandlerFactory → Prop
  | static (path : Str) (pathsBlock : NginxConfig) :
      Declares ⟨path, "StaticHandler".toList, some pathsBlock⟩ (.staticHandler pathsBlock)
  | echo (path : Str) (pathsBlock : NginxConfig) :
      Declares ⟨path, "EchoHandler".toList, some pathsBlock⟩ .echoHandler
  | crud (path : Str) (pathsBlock : NginxConfig) :
      Declares ⟨path, "CrudHandler".toList, some pathsBlock⟩ (.crudHandler pathsBlock)
  | health (path : Str) (pathsBlock : NginxConfig) :
      Declares ⟨path, "HealthHandler".toList, some pathsBlock⟩ .healthHandler
  | websocketInfo (path : Str) (pathsBlock : NginxConfig) :
      Declares ⟨path, "WebsocketInfoHandler".toList, some pathsBlock⟩ .websocketInfoHandler

variable {l m : Location} {f : HandlerFactory}

theorem registered_of_declares (h : l.Declares f) : l.registered = some (l.servingPath, f) := by
  cases h <;> rfl

theorem exists_declares (h : l.IsOrdinary) : ∃ f, l.Declares f := by
  obtain ⟨path, name, pathsBlock⟩ := l
  obtain ⟨hblock, hname⟩ := h
  obtain ⟨block, rfl⟩ := Option.ne_none_iff_exists'.mp hblock
  simp only [ordinaryHandlers, List.mem_cons, List.not_mem_nil, or_false] at hname
  rcases hname with rfl | rfl | rfl | rfl | rfl
  · exact ⟨_, .static path block⟩
  · exact ⟨_, .echo path block⟩
  · exact ⟨_, .crud path block⟩
  · exact ⟨_, .health path block⟩
  · exact ⟨_, .websocketInfo path block⟩

theorem declares_iff (h : l.IsOrdinary) :
    l.Declares f ↔ l.registered = some (l.servingPath, f) := by
  constructor
  · exact registered_of_declares
  · intro hr
    obtain ⟨g, hg⟩ := exists_declares h
    have hg' := registered_of_declares hg
    rw [hr] at hg'
    obtain rfl := (Prod.mk.inj (Option.some.inj hg')).2
    exact hg

theorem key_of_isOrdinary (h : l.IsOrdinary) : ServingConfig.rules.key l = some l.servingPath :=
  key_eq_some_iff.mpr (Or.inl ⟨h, rfl⟩)

end Location

namespace ServingConfig

open Location
variable {config : NginxConfig}

/-- `/` and one or more letters, digits, slashes, dots, underscores and hyphens. -/
def IsPath (p : Str) : Prop :=
  ∃ rest, p = '/' :: rest ∧ rest ≠ [] ∧
    ∀ c ∈ rest, c.isAlphanum = true ∨ c ∈ ['/', '.', '_', '-']

theorem isValidURI_iff {p : Str} : isValidURI p = true ↔ IsPath p := by
  have hchar (c : Char) : isUriChar c = true ↔ c.isAlphanum = true ∨ c ∈ ['/', '.', '_', '-'] := by
    simp [isUriChar, or_assoc]
  constructor
  · intro h
    cases p with
    | nil => exact absurd h (by decide)
    | cons c rest =>
      by_cases hc : c = '/'
      · subst hc
        simp only [isValidURI, Bool.and_eq_true, List.all_eq_true, hchar] at h
        exact ⟨rest, rfl, by simpa using h.1, h.2⟩
      · simp [isValidURI, hc] at h
  · rintro ⟨rest, rfl, hne, hrest⟩
    simp only [isValidURI, Bool.and_eq_true, List.all_eq_true, hchar]
    exact ⟨by simpa using hne, hrest⟩

section Ordinary
variable (h : ∀ l ∈ locations config, l.IsOrdinary)
include h

theorem conflictFree_iff_distinct :
    rules.ConflictFree (locations config) ↔
      (locations config).Pairwise fun l m => l.servingPath ≠ m.servingPath := by
  apply List.Pairwise.iff_of_mem
  intro l m hl hm
  rw [Registration.Rules.Blocks, key_of_isOrdinary (h l hl), Option.some.injEq]
  rfl

theorem validKeys_iff_paths :
    ValidKeys (locations config) ↔ ∀ l ∈ locations config, IsPath l.servingPath := by
  apply forall₂_congr
  intro l hl
  rw [key_of_isOrdinary (h l hl), ← isValidURI_iff]
  simp

theorem fresh_of_distinct
    (hdistinct : (locations config).Pairwise fun l m => l.servingPath ≠ m.servingPath) :
    rules.Fresh (locations config) := by
  apply List.Pairwise.imp_of_mem _ hdistinct
  intro l m hl hm hne
  right
  intro heq
  rw [key_of_isOrdinary (h l hl), key_of_isOrdinary (h m hm)] at heq
  exact hne (Option.some.inj heq)

/-- The table of an accepted configuration: what is declared, and `/`. -/
theorem find_of_distinct
    (hdistinct : (locations config).Pairwise fun l m => l.servingPath ≠ m.servingPath)
    (hpaths : ∀ l ∈ locations config, IsPath l.servingPath) (k : Str) (f : HandlerFactory) :
    ((fresh.setPaths config).2.find k).map Created.factory = some f ↔
      (k = ['/'] ∧ f = .notFoundHandler) ∨
        ∃ l ∈ locations config, l.servingPath = k ∧ l.Declares f := by
  have htop (l : Location) (hl : l ∈ locations config) : l.servingPath ≠ ['/'] :=
    isValidURI_ne_top (isValidURI_iff.mpr (hpaths l hl))
  rw [find_setPaths_map ((conflictFree_iff_distinct h).mpr hdistinct)]
  by_cases hk : k = ['/']
  · rw [if_pos hk]
    constructor
    · intro heq
      exact Or.inl ⟨hk, (Option.some.inj heq).symm⟩
    · rintro (⟨_, rfl⟩ | ⟨l, hl, hpath, _⟩)
      · rfl
      · exact absurd (hpath.trans hk) (htop l hl)
  · rw [if_neg hk, Registration.Rules.value_eq_some_iff_of_fresh (fresh_of_distinct h hdistinct)]
    constructor
    · rintro ⟨l, hl, hentry⟩
      have hkey := key_of_isOrdinary (h l hl)
      rw [Registration.Rules.key_of_entry hentry] at hkey
      obtain rfl := Option.some.inj hkey
      exact Or.inr ⟨l, hl, rfl, (declares_iff (h l hl)).mpr hentry⟩
    · rintro (⟨htop', _⟩ | ⟨l, hl, rfl, hdecl⟩)
      · exact absurd htop' hk
      · exact ⟨l, hl, registered_of_declares hdecl⟩

end Ordinary

/-- What `SetPaths` returns and leaves for ordinary locations: two of one path come before a path
that is no URI, and otherwise the table holds what is declared. -/
theorem setPaths_ordinary (config : NginxConfig) (h : ∀ l ∈ locations config, l.IsOrdinary) :
    ((fresh.setPaths config).1 = multipleUses ↔
      ¬ (locations config).Pairwise fun l m => l.servingPath ≠ m.servingPath) ∧
    (((locations config).Pairwise fun l m => l.servingPath ≠ m.servingPath) →
      ((fresh.setPaths config).1 = invalidUri ↔
        ∃ l ∈ locations config, ¬ IsPath l.servingPath) ∧
      ((∀ l ∈ locations config, IsPath l.servingPath) →
        (fresh.setPaths config).1 = 0 ∧
        ∀ k f, ((fresh.setPaths config).2.find k).map Created.factory = some f ↔
          (k = ['/'] ∧ f = .notFoundHandler) ∨
            ∃ l ∈ locations config, l.servingPath = k ∧ l.Declares f)) := by
  have hfree := conflictFree_iff_distinct h
  have hvalid := validKeys_iff_paths h
  constructor
  · rw [setPaths_eq_multipleUses_iff, hfree]
  · intro hdistinct
    constructor
    · rw [setPaths_eq_invalidUri_iff, hvalid]
      constructor
      · rintro ⟨_, hnot⟩
        push Not at hnot
        exact hnot
      · rintro ⟨l, hl, hnot⟩
        exact ⟨hfree.mpr hdistinct, fun hall => hnot (hall l hl)⟩
    · intro hpaths
      constructor
      · exact setPaths_eq_zero_iff.mpr ⟨hfree.mpr hdistinct, hvalid.mpr hpaths⟩
      · exact find_of_distinct h hdistinct hpaths

namespace Demo

/-- A file handler with its root, and an EchoHandler in a second server block. -/
def twoServers : NginxConfig :=
  [.mk ["server".toList] (some [.mk ["location".toList, "/static".toList, "StaticHandler".toList]
      (some [.mk ["root".toList, "files".toList] none])])] ++
    server [block "/echo".toList "EchoHandler".toList]

end Demo

theorem setPaths_ordinary_twoServers :
    (fresh.setPaths Demo.twoServers).1 = 0 ∧
      ((fresh.setPaths Demo.twoServers).2.find "/static".toList).map Created.factory =
        some (.staticHandler [.mk ["root".toList, "files".toList] none]) := by
  have hordinary : ∀ l ∈ locations Demo.twoServers, l.IsOrdinary := by
    rintro l (_ | ⟨_, _ | ⟨_, hl⟩⟩)
    · exact ⟨Option.some_ne_none _, by decide⟩
    · exact ⟨Option.some_ne_none _, by decide⟩
    · exact absurd hl List.not_mem_nil
  have hpaths : ∀ l ∈ locations Demo.twoServers, IsPath l.servingPath := by
    rintro l (_ | ⟨_, _ | ⟨_, hl⟩⟩)
    · exact isValidURI_iff.mp rfl
    · exact isValidURI_iff.mp rfl
    · exact absurd hl List.not_mem_nil
  have hdistinct : (locations Demo.twoServers).Pairwise
      fun l m => l.servingPath ≠ m.servingPath := by decide
  obtain ⟨_, hrest⟩ := setPaths_ordinary Demo.twoServers hordinary
  obtain ⟨hstatus, htable⟩ := (hrest hdistinct).2 hpaths
  exact ⟨hstatus, (htable _ _).mpr (Or.inr ⟨_, List.mem_cons_self, rfl, .static _ _⟩)⟩

end ServingConfig

end Webserver
