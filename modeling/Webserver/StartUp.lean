import Webserver.ConfigStack
import Webserver.ProcessEffects
import Webserver.ServingOrder
import Webserver.ServingPort

/-!
# From the configuration file to the answers

`main` up to the server that it starts, and which handler of the file a request is answered by.
-/

set_option autoImplicit false

namespace Webserver

open NginxConfigParser PrefixMatch RequestDispatcher ServingConfig

universe u

/-- How `main` goes on with its configuration file. -/
inductive StartUp where
  /-- It returns 1. -/
  | refused
  /-- It has caught an exception and returns 0. -/
  | thrown
  /-- The behaviour of `Parse` is undefined. -/
  | undefined
  | serves (port : UInt16) (T : HandlerFactories)

/-- `main` for an argument, whose file may not be readable, up to `StartAccept`. -/
def main (configFile : Option Str) : StartUp :=
  match configFile.bind fun text => parse text [] with
  | none => .refused
  | some .undefined => .undefined
  | some (.returned false _) => .refused
  | some (.returned true config) =>
    match setPortNumber config with
    | .error _ => .thrown
    | .ok none => .refused
    | .ok (some port) =>
      if h : (fresh.setPaths config).1 = 0 then
        .serves (boundPort port) (routeTable config fun hmultiple => by
          rw [h] at hmultiple
          exact absurd hmultiple (by decide))
      else .refused

/-- What the locations of a configuration bind a key to, and `main` the path `/`. -/
def declared (config : NginxConfig) (k : Str) : Option HandlerFactory :=
  if k = ['/'] then some .notFoundHandler else rules.value k (locations config)

/-- The text is read as a configuration that can be served at the port. -/
structure Configures (text : Str) (config : NginxConfig) (port : Str) : Prop where
  derives : Derives (uncommented (tokens text)) config
  listens : (listenArguments config).head? = some port
  number : port ≠ [] ∧ digitsValue port ≤ intMax
  free : rules.ConflictFree (locations config)
  valid : ValidKeys (locations config)

theorem parse_iff_derives (text : Str) (config : NginxConfig) :
    parse text [] = some (.returned true config) ↔ Derives (uncommented (tokens text)) config := by
  constructor
  · exact derives_of_accepted
  · intro h
    rw [parse_eq, ← drive_uncommented]
    exact congrArg some (accepted_of_derives h)

theorem setPortNumber_eq_some_iff (config : NginxConfig) (n : Int) :
    setPortNumber config = .ok (some n) ↔ ∃ port, (listenArguments config).head? = some port ∧
      (port ≠ [] ∧ digitsValue port ≤ intMax) ∧ n = digitsValue port := by
  rw [setPortNumber_eq]
  cases (listenArguments config).head? with
  | none => simp
  | some port =>
    dsimp only
    by_cases hne : port = []
    · simp [stoi, hne, Except.map]
    · by_cases hle : digitsValue port ≤ intMax
      · simp [stoi, hne, hle, Except.map, eq_comm]
      · simp [stoi, hne, hle, Except.map]

theorem find_routeTable {config : NginxConfig} (h : (fresh.setPaths config).1 ≠ multipleUses) :
    (routeTable config h).find = declared config := by
  funext k
  exact find_setPaths_map (not_not.mp (mt setPaths_eq_multipleUses_iff.mpr h)) k

/-- Factories are determined by what is found. -/
theorem factories_eq {T T' : HandlerFactories} (h : T.find = T'.find) : T = T' := by
  obtain ⟨find, htop⟩ := T
  obtain ⟨find', htop'⟩ := T'
  obtain rfl : find = find' := h
  rfl

theorem configures_of_main {text : Str} {port : UInt16} {T : HandlerFactories}
    (h : main (some text) = .serves port T) :
    ∃ config digits, Configures text config digits ∧
      port.toNat = digitsValue digits % 65536 ∧ T.find = declared config := by
  rw [main, Option.bind_some] at h
  split at h
  · exact absurd h (by simp)
  · exact absurd h (by simp)
  · exact absurd h (by simp)
  · rename_i config hparse
    split at h
    · exact absurd h (by simp)
    · exact absurd h (by simp)
    · rename_i n hport
      split at h
      · rename_i hstatus
        obtain ⟨rfl, rfl⟩ := StartUp.serves.inj h
        obtain ⟨digits, hlistens, hnumber, rfl⟩ := (setPortNumber_eq_some_iff config n).mp hport
        obtain ⟨hfree, hvalid⟩ := setPaths_eq_zero_iff.mp hstatus
        refine ⟨config, digits, ⟨(parse_iff_derives _ _).mp hparse, hlistens, hnumber, hfree,
          hvalid⟩, ?_, find_routeTable _⟩
        have hport := toNat_boundPort (digitsValue digits)
        omega
      · exact absurd h (by simp)

theorem main_of_configures {text digits : Str} {config : NginxConfig} {port : UInt16}
    {T : HandlerFactories} (h : Configures text config digits)
    (hport : port.toNat = digitsValue digits % 65536) (hfind : T.find = declared config) :
    main (some text) = .serves port T := by
  have hstatus := setPaths_eq_zero_iff.mpr ⟨h.free, h.valid⟩
  rw [main, Option.bind_some, (parse_iff_derives _ _).mpr h.derives]
  dsimp only
  rw [(setPortNumber_eq_some_iff config _).mpr ⟨digits, h.listens, h.number, rfl⟩]
  dsimp only
  rw [dif_pos hstatus]
  congr 1
  · apply UInt16.toNat_inj.mp
    have hbound := toNat_boundPort (digitsValue digits)
    omega
  · exact factories_eq ((find_routeTable _).trans hfind.symm)

/-- `main` serves a file exactly if the grammar derives it, its first `listen` is a number that
fits, and its locations have valid and different endpoints; and what it serves is the table of
the locations at the number modulo 2^16. -/
theorem main_serves_iff (text : Str) (port : UInt16) (T : HandlerFactories) :
    main (some text) = .serves port T ↔
      ∃ config digits, Configures text config digits ∧
        port.toNat = digitsValue digits % 65536 ∧ T.find = declared config := by
  constructor
  · exact configures_of_main
  · rintro ⟨config, digits, h, hport, hfind⟩
    exact main_of_configures h hport hfind

/-! ### The answers -/

/-- The longest key that covers the path of the target, what it is bound to and the path that is
given to the handler. -/
structure Matches (find : Str → Option HandlerFactory) (target : Str) (m : Match) : Prop where
  bound : find m.location = some m.factory
  longest : Longest '/' find (extractUriBasePath target) m.location
  path : (extractUriBasePath target = m.location ∧ m.path = m.location) ∨
    extractUriBasePath target = m.location ++ '/' :: m.path

section Routes
variable {find : Str → Option HandlerFactory} {target : Str}

theorem Matches.unique {m m' : Match} (h : Matches find target m) (h' : Matches find target m') :
    m = m' := by
  have hbound : find m.location ≠ none ∧ find m'.location ≠ none := by
    rw [h.bound, h'.bound]
    exact ⟨Option.some_ne_none _, Option.some_ne_none _⟩
  have hle := h.longest.longest m'.location hbound.2 h'.longest.covers
  have hle' := h'.longest.longest m.location hbound.1 h.longest.covers
  have hlocation := h.longest.covers.eq_of_length h'.longest.covers (Nat.le_antisymm hle' hle)
  obtain ⟨location, factory, path⟩ := m
  obtain ⟨_, factory', path'⟩ := m'
  dsimp only at hlocation
  subst hlocation
  obtain rfl := Option.some.inj (h.bound.symm.trans h'.bound)
  have hshort (p : Str) : location ≠ location ++ '/' :: p := fun heq => by
    have hlen := congrArg List.length heq
    simp at hlen
  congr 1
  rcases h.path with ⟨hbase, hpath⟩ | hbase <;> rcases h'.path with ⟨hbase', hpath'⟩ | hbase'
  · exact hpath.trans hpath'.symm
  · exact absurd (hbase.symm.trans hbase') (hshort path')
  · exact absurd (hbase'.symm.trans hbase) (hshort path)
  · exact (List.cons.inj (List.append_cancel_left (hbase.symm.trans hbase'))).2

end Routes

/-- The request has one of the four methods and version 1.1. -/
def Arrival.Admitted {ι : Type u} (a : Arrival ι) : Prop :=
  a.request.method ∈ [Verb.get, Verb.put, Verb.post, Verb.delete] ∧ a.request.version = 11

namespace Demo

end Demo

end Webserver
