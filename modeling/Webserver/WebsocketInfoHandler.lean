import Mathlib.Data.Finset.Card
import Webserver.GlobalWebsocketState
import Webserver.Http
import Webserver.Library.JsonLists

/-!
# WebsocketInfoHandler

The list of the channels as a JSON text. The names are put between quotation marks as they are,
without their first octet where they have another one, and the order of the channels is up to
the map.
-/

set_option autoImplicit false

namespace Webserver

open Json

universe u

namespace WebsocketInfoHandler

/-- `chan_list`, without the comma and the blank behind the last channel. -/
def chanList (channels : List Str) : Str :=
  let list := channels.foldl (fun list it => list ++ (it ++ ", ".toList)) []
  if list.length > 0 then list.take (list.length - 2) else list

def body (channels : List Str) : Str :=
  "\x7b \"channels\": [".toList ++ (chanList channels ++ "]\x7d\n\n".toList)

def handleRequest {ι : Type u} (map : ChannelMap ι) (res : Response) : StatusCode × Response :=
  let res := res.write (body map.getChannels)
  let res := { res with result := .ok, contentType := some "application/json".toList }
  (.ok, res.preparePayload)

/-- What Beast lets through as the target of a request. -/
def IsTarget (c : Str) : Prop :=
  c ≠ [] ∧ ∀ o ∈ c, 0x20 < o.toNat ∧ o.toNat < 0x100 ∧ o.toNat ≠ 0x7f

instance : DecidablePred IsTarget := fun c =>
  @instDecidableAnd _ _ inferInstance (List.decidableBAll _ c)

/-- What `GetChannels` puts between the quotation marks. -/
def name (channel : Str) : Str := if channel.length > 1 then channel.tail else channel

/-- An object with an array of that many strings at `channels`, no two of them the same. -/
def Faithful (body : Str) (count : Nat) : Prop :=
  ∃ ns, Element (ObjectText (ArrayText StringText)) body [("channels".toList.map Char.toNat, ns)] ∧
    ns.length = count ∧ ns.Nodup

theorem quoted_name (c : Str) : ChannelMap.channelName c ++ ", ".toList = quoted (name c) := by
  simp [ChannelMap.channelName, quoted, name]

theorem foldl_entries (channels : List Str) (list : Str) :
    channels.foldl (fun list it => list ++ (it ++ ", ".toList)) list =
      list ++ channels.flatMap (· ++ ", ".toList) := by
  induction channels generalizing list with
  | nil => simp
  | cons c channels ih =>
    rw [List.foldl_cons, ih, List.flatMap_cons, List.append_assoc]

/-- The list and the ending that the loop has put behind it. -/
theorem chanList_append {channels : List Str} (hne : channels ≠ []) :
    chanList (channels.map ChannelMap.channelName) ++ [',', ' '] =
      quotedList (channels.map name) := by
  have hlist : (channels.map ChannelMap.channelName).foldl
      (fun list it => list ++ (it ++ ", ".toList)) [] = quotedList (channels.map name) := by
    rw [foldl_entries, List.nil_append, quotedList, List.flatMap_map, List.flatMap_map]
    exact List.flatMap_congr fun c _ => quoted_name c
  obtain ⟨w, hw⟩ : ∃ w, quotedList (channels.map name) = w ++ [',', ' '] := by
    obtain ⟨cs, c, rfl⟩ := List.eq_nil_or_concat channels |>.resolve_left hne
    exact ⟨quotedList (cs.map name) ++ ('"' :: name c ++ ['"']), by simp [quotedList, quoted]⟩
  rw [chanList, hlist, hw]
  simp

theorem channels_plain : Plain "channels".toList := ⟨rfl, rfl⟩

/-- The body is such an object if and only if the list in it is a list of strings. -/
theorem element_body_iff {list : Str} {ns : List (List Nat)} :
    Element (ObjectText (ArrayText StringText))
        ("\x7b \"channels\": [".toList ++ (list ++ "]\x7d\n\n".toList))
        [("channels".toList.map Char.toNat, ns)] ↔
      CommaSeparated (Element StringText) list ns ∨ Whitespace list ∧ ns = [] := by
  constructor
  · rintro ⟨b₁, w₁, b₂, heq, hb₁, hb₂, i₁, rfl, hmember | ⟨_, hnone⟩⟩
    · cases hmember with
      | cons _ hrest => cases hrest
      | single hmember =>
        obtain ⟨key, value, rfl, ⟨b₃, w₂, b₄, rfl, hb₃, hb₄, k, rfl, hk⟩,
          b₅, w₃, b₆, rfl, hb₅, hb₆, i₂, rfl, harray⟩ := hmember
        have heq' : ([] : Str) ++ '\x7b' :: ([' '] ++ '"' :: ("channels".toList ++ '"' ::
            ([] ++ ':' :: ([' '] ++ '[' :: (list ++ ']' :: ['\x7d', '\n', '\n']))))) =
            b₁ ++ '\x7b' :: (b₃ ++ '"' :: (k ++ '"' :: (b₄ ++ ':' :: (b₅ ++ '[' ::
              (i₂ ++ ']' :: (b₆ ++ '\x7d' :: b₂)))))) := by
          simpa using heq
        obtain ⟨_, h⟩ := whitespace_unique whitespace_nil hb₁ rfl rfl heq'
        obtain ⟨_, h⟩ := whitespace_unique whitespace_blank hb₃ rfl rfl h
        obtain ⟨_, h⟩ := channels_plain.unique hk.plain h
        obtain ⟨_, h⟩ := whitespace_unique whitespace_nil hb₄ rfl rfl h
        obtain ⟨_, h⟩ := whitespace_unique whitespace_blank hb₅ rfl rfl h
        have hbehind : ']' ∉ b₆ ++ '\x7d' :: b₂ := by
          have h₆ := not_mem_whitespace hb₆ (c := ']') rfl
          have h₂ := not_mem_whitespace hb₂ (c := ']') rfl
          simp [h₆, h₂]
        obtain rfl : list = i₂ := last_unique (by decide) hbehind h
        exact harray
    · exact absurd hnone (by simp)
  · intro h
    have hvalue : Element (ArrayText StringText) (' ' :: '[' :: list ++ [']']) ns :=
      ⟨[' '], '[' :: list ++ [']'], [], by simp, whitespace_blank, whitespace_nil, list, rfl, h⟩
    have hkey : Element StringText (' ' :: '"' :: "channels".toList ++ ['"'])
        ("channels".toList.map Char.toNat) :=
      ⟨[' '], '"' :: "channels".toList ++ ['"'], [], rfl, whitespace_blank, whitespace_nil,
        "channels".toList, rfl, stringChars_ascii rfl⟩
    refine ⟨[], '\x7b' :: (' ' :: '"' :: "channels".toList ++ ['"'] ++ ':' ::
      (' ' :: '[' :: list ++ [']'])) ++ ['\x7d'], ['\n', '\n'], by simp, whitespace_nil, ?_, _, rfl,
      Or.inl (CommaSeparated.single ⟨_, _, rfl, hkey, hvalue⟩)⟩
    intro c hc
    rw [List.mem_cons, List.mem_singleton, or_self] at hc
    rw [hc]
    rfl

theorem name_ne_nil {c : Str} (hc : IsTarget c) : name c ≠ [] := by
  unfold name
  split
  · rename_i hlength
    intro h
    have htail := congrArg List.length h
    rw [List.length_tail, List.length_nil] at htail
    omega
  · exact hc.1

theorem name_not_blank {c : Str} (hc : IsTarget c) : ∀ o ∈ name c, isWhitespace o = false := by
  intro o ho
  have hmem : o ∈ c := by
    unfold name at ho
    split at ho
    · exact List.mem_of_mem_tail ho
    · exact ho
  have hlow := (hc.2 o hmem).1
  have hne (b : Char) (hb : b.toNat ≤ 0x20) : o ≠ b := by
    rintro rfl
    omega
  simp [isWhitespace, hne ' ' (by decide), hne '\t' (by decide), hne '\n' (by decide),
    hne '\r' (by decide)]

theorem Faithful.strings {channels : List Str} (hne : channels ≠ [])
    (h : Faithful (body (channels.map ChannelMap.channelName)) channels.length) :
    ∃ ns, CommaSeparated (Element StringText) (chanList (channels.map ChannelMap.channelName)) ns ∧
      ns.length = channels.length ∧ ns.Nodup := by
  obtain ⟨ns, helement, hlength, hnodup⟩ := h
  rcases element_body_iff.mp helement with hstrings | ⟨_, rfl⟩
  · exact ⟨ns, hstrings, hlength, hnodup⟩
  · exact absurd (List.eq_nil_of_length_eq_zero hlength.symm) hne

theorem Faithful.oneEach {channels : List Str} (hne : channels ≠ [])
    (h : Faithful (body (channels.map ChannelMap.channelName)) channels.length) :
    OneEach (channels.map name) := by
  obtain ⟨ns, hstrings, hlength, _⟩ := h.strings hne
  have hending : Scans .behind .before 0 [',', ' '] := ⟨rfl, rfl⟩
  have hall := (scans_strings hstrings).append hending
  rw [chanList_append hne, hlength] at hall
  rw [OneEach, List.length_map]
  exact hall

/-- A faithful list of plain names has the string of each name in its place. -/
theorem Faithful.forall₂ {channels : List Str} (hne : channels ≠ [])
    (hplain : ∀ c ∈ channels, Plain (name c))
    (h : Faithful (body (channels.map ChannelMap.channelName)) channels.length) :
    ∃ ns, List.Forall₂ StringChars (channels.map name) ns ∧ ns.Nodup := by
  obtain ⟨ns, hstrings, _, hnodup⟩ := h.strings hne
  refine ⟨ns, forall₂_of_strings hstrings ?_ whitespace_nil (chanList_append hne), hnodup⟩
  intro w hw
  obtain ⟨c, hc, rfl⟩ := List.mem_map.mp hw
  exact hplain c hc

theorem exists_of_forall₂ {channels : List Str} {ns : List (List Nat)}
    (h : List.Forall₂ StringChars (channels.map name) ns) {c : Str} (hc : c ∈ channels) :
    ∃ n, StringChars (name c) n := by
  induction channels generalizing ns with
  | nil => exact absurd hc List.not_mem_nil
  | cons d channels ih =>
    cases h with
    | cons hd hrest =>
      rcases List.mem_cons.mp hc with rfl | hc
      · exact ⟨_, hd⟩
      · exact ih hrest hc

theorem eq_map_of_forall₂ {f : Str → List Nat} {channels : List Str} {ns : List (List Nat)}
    (h : List.Forall₂ StringChars (channels.map name) ns)
    (hf : ∀ c ∈ channels, StringChars (name c) (f c)) : ns = channels.map f := by
  induction channels generalizing ns with
  | nil =>
    cases h
    rfl
  | cons d channels ih =>
    cases h with
    | cons hd hrest =>
      rw [hd.unique (hf d List.mem_cons_self),
        ih hrest fun c hc => hf c (List.mem_cons_of_mem d hc), List.map_cons]

/-- Names with strings of their own, no two of them the same, make a faithful list. -/
theorem faithful_of_strings {f : Str → List Nat} {channels : List Str} (hnodup : channels.Nodup)
    (hf : ∀ c ∈ channels, StringChars (name c) (f c))
    (hinj : ∀ c ∈ channels, ∀ d ∈ channels, f c = f d → c = d) :
    Faithful (body (channels.map ChannelMap.channelName)) channels.length := by
  refine ⟨channels.map f, element_body_iff.mpr ?_, List.length_map f, ?_⟩
  · by_cases hne : channels = []
    · subst hne
      exact Or.inr ⟨whitespace_nil, rfl⟩
    · left
      have hall : List.Forall₂ StringChars (channels.map name) (channels.map f) := by
        rw [List.forall₂_map_left_iff, List.forall₂_map_right_iff, List.forall₂_same]
        exact hf
      obtain ⟨inner, heq, hinner⟩ :=
        strings_of_forall₂ hall (by simpa using hne) whitespace_nil
      rw [List.nil_append, ← chanList_append hne] at heq
      exact List.append_cancel_right heq ▸ hinner
  · exact List.Nodup.map_on (fun c hc d hd => hinj c hc d hd) hnodup

theorem handleRequest_body {ι : Type u} (map : ChannelMap ι) :
    (handleRequest map .fresh).2.body = body (map.keys.map ChannelMap.channelName) :=
  List.nil_append _

/-- The channels in some order, with nobody in them. -/
def ofOrder {ι : Type u} (channels : List Str) (hnodup : channels.Nodup) : ChannelMap ι where
  entries := channels.map fun c => ⟨c, ∅⟩
  nodupKeys := by
    rw [List.NodupKeys, List.keys, List.map_map]
    exact (List.map_id channels).symm ▸ hnodup

theorem keys_ofOrder {ι : Type u} (channels : List Str) (hnodup : channels.Nodup) :
    (ofOrder channels hnodup : ChannelMap ι).keys = channels := by
  rw [AList.keys, List.keys, ofOrder, List.map_map]
  exact List.map_id channels

/-- Every order of the channels is that of some map. -/
theorem faithful_in_order {ι : Type u} {S : Finset Str}
    (h : ∀ map : ChannelMap ι, map.keys.toFinset = S →
      Faithful (handleRequest map .fresh).2.body S.card)
    {channels : List Str} (hperm : channels.Perm S.toList) :
    Faithful (body (channels.map ChannelMap.channelName)) channels.length := by
  have hnodup : channels.Nodup := hperm.nodup_iff.mpr S.nodup_toList
  have hset : channels.toFinset = S := by
    rw [List.toFinset_eq_of_perm _ _ hperm, Finset.toList_toFinset]
  have hmap := h (ofOrder channels hnodup) (by rw [keys_ofOrder, hset])
  rw [handleRequest_body, keys_ofOrder, ← Finset.length_toList, ← hperm.length_eq] at hmap
  exact hmap

/-- The list of any set of channels is faithful in every order of the map if and only if every
name is the inside of a JSON string and no two names decode to the same string. -/
theorem faithful_iff {ι : Type u} (S : Finset Str) (hS : ∀ c ∈ S, IsTarget c) :
    (∀ map : ChannelMap ι, map.keys.toFinset = S →
        Faithful (handleRequest map .fresh).2.body S.card) ↔
      (∀ c ∈ S, ∃ n, StringChars (name c) n) ∧
        ∀ c ∈ S, ∀ d ∈ S, ∀ n, StringChars (name c) n → StringChars (name d) n → c = d := by
  constructor
  · intro h
    by_cases hempty : S = ∅
    · subst hempty
      simp
    · have hne (channels : List Str) (hperm : channels.Perm S.toList) : channels ≠ [] := by
        rintro rfl
        exact hempty (Finset.toList_eq_nil.mp hperm.symm.eq_nil)
      have hplain : ∀ c ∈ S.toList, Plain (name c) := by
        intro c hc
        refine plain_of_orders ?_ ?_ (fun k hk => (faithful_in_order h hk).oneEach (hne k hk)) hc
        · intro c hc
          exact name_ne_nil (hS c (Finset.mem_toList.mp hc))
        · intro c hc
          exact name_not_blank (hS c (Finset.mem_toList.mp hc))
      obtain ⟨ns, hall, hnodup⟩ := (faithful_in_order h (.refl _)).forall₂ (hne _ (.refl _)) hplain
      have hstring : ∀ c ∈ S, ∃ n, StringChars (name c) n := by
        intro c hc
        exact exists_of_forall₂ hall (Finset.mem_toList.mpr hc)
      refine ⟨hstring, ?_⟩
      intro c hc d hd n hcn hdn
      choose! f hf using hstring
      rw [eq_map_of_forall₂ hall fun c hc => hf c (Finset.mem_toList.mp hc)] at hnodup
      have heq : f c = f d := ((hf c hc).unique hcn).trans (hdn.unique (hf d hd))
      exact List.inj_on_of_nodup_map hnodup (Finset.mem_toList.mpr hc) (Finset.mem_toList.mpr hd) heq
  · rintro ⟨hstring, hdistinct⟩ map hkeys
    choose! f hf using hstring
    have hmem {c : Str} (hc : c ∈ map.keys) : c ∈ S := hkeys ▸ List.mem_toFinset.mpr hc
    rw [handleRequest_body, ← hkeys, List.toFinset_card_of_nodup map.keys_nodup]
    refine faithful_of_strings map.keys_nodup (fun c hc => hf c (hmem hc)) ?_
    intro c hc d hd heq
    exact hdistinct c (hmem hc) d (hmem hd) (f c) (hf c (hmem hc)) (heq ▸ hf d (hmem hd))

theorem faithful_iff_pads :
    Faithful (handleRequest (ofOrder ["/pad".toList, "/".toList] (by decide) : ChannelMap ℕ)
      .fresh).2.body 2 := by
  refine (faithful_iff {"/pad".toList, "/".toList} (by decide)).mpr ⟨?_, ?_⟩ _
    (by rw [keys_ofOrder]; rfl)
  · intro c hc
    rcases Finset.mem_insert.mp hc with rfl | hc
    · exact ⟨_, stringChars_ascii rfl⟩
    · obtain rfl := Finset.mem_singleton.mp hc
      exact ⟨_, stringChars_ascii rfl⟩
  · have hpad : StringChars (name "/pad".toList) [0x70, 0x61, 0x64] := stringChars_ascii rfl
    have hslash : StringChars (name "/".toList) [0x2f] := stringChars_ascii rfl
    intro c hc d hd n hcn hdn
    rcases Finset.mem_insert.mp hc with rfl | hc
    · rcases Finset.mem_insert.mp hd with rfl | hd
      · rfl
      · obtain rfl := Finset.mem_singleton.mp hd
        exact absurd ((hpad.unique hcn).trans (hdn.unique hslash)) (by decide)
    · obtain rfl := Finset.mem_singleton.mp hc
      rcases Finset.mem_insert.mp hd with rfl | hd
      · exact absurd ((hpad.unique hdn).trans (hcn.unique hslash)) (by decide)
      · exact (Finset.mem_singleton.mp hd).symm

theorem not_faithful_quotation :
    ¬ ∀ (S : Finset Str), (∀ c ∈ S, IsTarget c) → ∀ map : ChannelMap ℕ, map.keys.toFinset = S →
      Faithful (handleRequest map .fresh).2.body S.card := by
  intro h
  have hnodup : ["/\"".toList].Nodup := List.nodup_singleton _
  have hfaithful := h {"/\"".toList} (by decide) (ofOrder ["/\"".toList] hnodup)
    (by rw [keys_ofOrder]; rfl)
  rw [handleRequest_body, keys_ofOrder] at hfaithful
  have hends := (Faithful.oneEach (List.cons_ne_nil _ _) hfaithful).ends
  have hstuck : Traces.after scan .before (quotedList (["/\"".toList].map name)) = none := rfl
  exact absurd (hstuck.symm.trans hends) (by simp)

end WebsocketInfoHandler

end Webserver
