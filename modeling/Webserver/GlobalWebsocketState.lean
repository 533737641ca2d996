import Mathlib.Data.Finset.Erase
import Mathlib.Data.Finset.Insert
import Mathlib.Data.List.AList
import Webserver.Strings

/-!
# GlobalWebsocketState

`map_` from channels to the sessions in them. `Add` and `Remove` have a region under
`map_mutex_`, which finds the channel, and one under the mutex of the channel, which changes
its set; channels are never taken out of the map.
-/

set_option autoImplicit false

namespace Webserver

universe u

/-- `map_`. -/
abbrev ChannelMap (ι : Type u) := AList fun _ : Str => Finset ι

namespace ChannelMap
variable {ι : Type u} [DecidableEq ι]

/-- `Add` under `map_mutex_`: the channel is created if it is not there. -/
def addChannel (map : ChannelMap ι) (channel : Str) : ChannelMap ι :=
  if channel ∈ map then map else AList.insert channel ∅ map

/-- The set of a channel changed under its mutex. -/
def update (map : ChannelMap ι) (channel : Str) (f : Finset ι → Finset ι) : ChannelMap ι :=
  match AList.lookup channel map with
  | none => map
  | some sessions => AList.insert channel (f sessions) map

/-- The second part of `Add`. -/
def insertSession (map : ChannelMap ι) (channel : Str) (session : ι) : ChannelMap ι :=
  map.update channel (Insert.insert session)

/-- The second part of `Remove`. -/
def eraseSession (map : ChannelMap ι) (channel : Str) (session : ι) : ChannelMap ι :=
  map.update channel fun sessions => sessions.erase session

/-- How `GetChannels` writes a channel. -/
def channelName (channel : Str) : Str :=
  let channel := if channel.length > 1 then channel.tail else channel
  '"' :: channel ++ ['"']

omit [DecidableEq ι] in
/-- `GetChannels`; the order of the map is up to its implementation. -/
def getChannels (map : ChannelMap ι) : List Str := map.keys.map channelName

/-- The session is in the set of the channel. -/
def Member (map : ChannelMap ι) (channel : Str) (session : ι) : Prop :=
  ∃ sessions, AList.lookup channel map = some sessions ∧ session ∈ sessions

variable {map : ChannelMap ι} {c d : Str}

omit [DecidableEq ι] in
theorem mem_addChannel : d ∈ map.addChannel c ↔ d = c ∨ d ∈ map := by
  unfold addChannel
  split
  · exact ⟨Or.inr, fun h => h.elim (fun h => h ▸ by assumption) id⟩
  · exact AList.mem_insert map

omit [DecidableEq ι] in
/-- A change of a set leaves the channels as they are. -/
theorem mem_update {f : Finset ι → Finset ι} : d ∈ map.update c f ↔ d ∈ map := by
  unfold update
  cases h : AList.lookup c map with
  | none => rfl
  | some sessions =>
    have hc : c ∈ map := AList.lookup_isSome.mp (by rw [h]; rfl)
    rw [AList.mem_insert]
    exact ⟨fun hd => hd.elim (fun hd => hd ▸ hc) id, Or.inr⟩

theorem mem_insertSession {session : ι} : d ∈ map.insertSession c session ↔ d ∈ map :=
  mem_update

theorem mem_eraseSession {session : ι} : d ∈ map.eraseSession c session ↔ d ∈ map :=
  mem_update

omit [DecidableEq ι] in
/-- A new channel is empty. -/
theorem member_addChannel {i : ι} : (map.addChannel c).Member d i ↔ map.Member d i := by
  unfold addChannel
  split
  · rfl
  · rename_i hc
    by_cases hd : d = c
    · subst hd
      constructor
      · rintro ⟨sessions, hlookup, hi⟩
        rw [AList.lookup_insert] at hlookup
        rw [← Option.some.inj hlookup] at hi
        exact absurd hi (Finset.notMem_empty i)
      · rintro ⟨sessions, hlookup, hi⟩
        exact absurd (AList.lookup_isSome.mp (by rw [hlookup]; rfl)) hc
    · unfold Member
      rw [AList.lookup_insert_ne hd]

omit [DecidableEq ι] in
theorem member_update {f : Finset ι → Finset ι} {i : ι} :
    (map.update c f).Member d i ↔
      if d = c then ∃ sessions, AList.lookup c map = some sessions ∧ i ∈ f sessions
      else map.Member d i := by
  unfold update Member
  by_cases hd : d = c
  · subst hd
    rw [if_pos rfl]
    cases h : AList.lookup d map with
    | none => simp [h]
    | some sessions => simp
  · rw [if_neg hd]
    cases h : AList.lookup c map with
    | none => rfl
    | some sessions =>
      dsimp only
      rw [AList.lookup_insert_ne hd]

theorem member_insertSession {i j : ι} :
    (map.insertSession c j).Member d i ↔ map.Member d i ∨ (d = c ∧ i = j ∧ c ∈ map) := by
  rw [insertSession, member_update]
  split
  · rename_i hd
    subst hd
    constructor
    · rintro ⟨sessions, hlookup, hi⟩
      rcases Finset.mem_insert.mp hi with hij | hi
      · exact Or.inr ⟨rfl, hij, AList.lookup_isSome.mp (by rw [hlookup]; rfl)⟩
      · exact Or.inl ⟨sessions, hlookup, hi⟩
    · rintro (⟨sessions, hlookup, hi⟩ | ⟨_, hij, hd⟩)
      · exact ⟨sessions, hlookup, Finset.mem_insert_of_mem hi⟩
      · obtain ⟨sessions, hlookup⟩ := Option.isSome_iff_exists.mp (AList.lookup_isSome.mpr hd)
        exact ⟨sessions, hlookup, hij ▸ Finset.mem_insert_self i sessions⟩
  · rename_i hd
    exact ⟨Or.inl, fun h => h.resolve_right fun h => hd h.1⟩

theorem member_eraseSession {i j : ι} :
    (map.eraseSession c j).Member d i ↔ map.Member d i ∧ ¬ (d = c ∧ i = j) := by
  rw [eraseSession, member_update]
  split
  · rename_i hd
    subst hd
    constructor
    · rintro ⟨sessions, hlookup, hi⟩
      obtain ⟨hij, hi⟩ := Finset.mem_erase.mp hi
      exact ⟨⟨sessions, hlookup, hi⟩, fun h => hij h.2⟩
    · rintro ⟨⟨sessions, hlookup, hi⟩, hij⟩
      exact ⟨sessions, hlookup, Finset.mem_erase.mpr ⟨fun h => hij ⟨rfl, h⟩, hi⟩⟩
  · rename_i hd
    exact ⟨fun h => ⟨h, fun h => hd h.1⟩, fun h => h.1⟩

end ChannelMap

end Webserver
