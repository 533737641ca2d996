import Webserver.RequestDispatcher
import Webserver.ServingConfig

/-!
# The endpoints in the table

Which locations keep their endpoints in the table of a configuration that `SetPaths` accepts.
A TestHandler registers below its serving path, so it is not refused where its endpoint is
bound, and a later location is not refused at its serving path.
-/

set_option autoImplicit false

namespace Webserver

namespace Location

/-- The handlers that are registered under their serving paths. -/
def ordinaryHandlers : List Str :=
  ["StaticHandler".toList, "EchoHandler".toList, "CrudHandler".toList, "HealthHandler".toList,
    "WebsocketInfoHandler".toList]

/-- A location block, not a mere statement. -/
def IsBlock (l : Location) : Prop := l.pathsBlock ≠ none

def IsOrdinary (l : Location) : Prop := l.IsBlock ∧ l.handlerName ∈ ordinaryHandlers

def IsTest (l : Location) : Prop := l.IsBlock ∧ l.handlerName = "TestHandler".toList

variable {l m : Location} {k : Str}

theorem registered_of_isTest (h : l.IsTest) :
    l.registered = some (l.servingPath ++ "/sleep".toList, .sleepHandler) := by
  obtain ⟨hblock, hname⟩ := h
  obtain ⟨pathsBlock, hb⟩ := Option.ne_none_iff_exists'.mp hblock
  rw [registered, hb, hname]
  rfl

theorem registered_of_isOrdinary (h : l.IsOrdinary) :
    ∃ factory, l.registered = some (l.servingPath, factory) := by
  obtain ⟨hblock, hname⟩ := h
  obtain ⟨pathsBlock, hb⟩ := Option.ne_none_iff_exists'.mp hblock
  rw [registered, hb]
  simp only [ordinaryHandlers, List.mem_cons, List.not_mem_nil, or_false] at hname
  rcases hname with h | h | h | h | h
  all_goals
    rw [h]
    exact ⟨_, rfl⟩

theorem registered_cases (l : Location) :
    l.IsOrdinary ∨ l.IsTest ∨ (l.registered = none ∧ ¬ l.IsOrdinary ∧ ¬ l.IsTest) := by
  by_cases ho : l.IsOrdinary
  · exact Or.inl ho
  by_cases ht : l.IsTest
  · exact Or.inr (Or.inl ht)
  refine Or.inr (Or.inr ⟨?_, ho, ht⟩)
  rw [registered]
  cases hb : l.pathsBlock with
  | none => rfl
  | some pathsBlock =>
    have hblock : l.IsBlock := by simp [IsBlock, hb]
    simp only [IsOrdinary, hblock, ordinaryHandlers, List.mem_cons, List.not_mem_nil, or_false,
      true_and, not_or] at ho
    have hname : l.handlerName ≠ "TestHandler".toList := fun h => ht ⟨hblock, h⟩
    simp only [ho, hname, if_false]

/-- The endpoint of a location: its serving path, or `sleep` below it. -/
theorem key_eq_some_iff :
    ServingConfig.rules.key l = some k ↔
      (l.IsOrdinary ∧ k = l.servingPath) ∨ (l.IsTest ∧ k = l.servingPath ++ "/sleep".toList) := by
  have hkey : ServingConfig.rules.key l = l.registered.map Prod.fst := rfl
  have hexcl (ho : l.IsOrdinary) (ht : l.IsTest) : False := by
    have hname := ho.2
    rw [ht.2] at hname
    exact absurd hname (by decide)
  rw [hkey]
  rcases registered_cases l with ho | ht | ⟨hnone, ho, ht⟩
  · obtain ⟨factory, hr⟩ := registered_of_isOrdinary ho
    have ht : ¬ l.IsTest := hexcl ho
    rw [hr]
    simp [ho, ht, eq_comm]
  · have ho : ¬ l.IsOrdinary := fun ho => hexcl ho ht
    rw [registered_of_isTest ht]
    simp [ho, ht, eq_comm]
  · simp [hnone, ho, ht]

/-- A location behind `l` that `SetPaths` does not refuse although it declares the same path or
takes over the endpoint. -/
def Undercuts (l m : Location) : Prop :=
  (l.IsTest ∧ m.IsBlock ∧ m.servingPath = l.servingPath) ∨
    (l.IsOrdinary ∧ m.IsTest ∧ l.servingPath = m.servingPath ++ "/sleep".toList)

end Location

namespace ServingConfig

open Location
variable {config : NginxConfig}

theorem origin_of_lookup (hfree : rules.ConflictFree (locations config)) {k : Str} {i : Nat}
    {l : Location} (hl : (locations config)[i]? = some l) {factory : HandlerFactory} :
    (fresh.setPaths config).2.handlerFactories.lookup k = some ⟨i, factory⟩ ↔
      k ≠ ['/'] ∧ l.registered = some (k, factory) ∧
        ∀ j m, i < j → (locations config)[j]? = some m → rules.key m ≠ some k := by
  have hlt := (List.getElem?_eq_some_iff.mp hl).1
  rw [lookup_setPaths hfree]
  by_cases hk : k = ['/']
  · rw [if_pos hk]
    simp only [hk, ne_eq, not_true, false_and, iff_false, Option.some.injEq, Created.mk.injEq]
    omega
  · have hbound := Registration.Rules.bound_eq_some_iff (R := rules) (k := k) 0
      (locations config) (m := i) (x := factory)
    rw [Nat.zero_add] at hbound
    have hmap : ((rules.bound k 0 (locations config)).map fun p => Created.mk p.1 p.2) =
        some ⟨i, factory⟩ ↔ rules.bound k 0 (locations config) = some (i, factory) := by
      simp
    rw [if_neg hk, hmap, hbound]
    constructor
    · rintro ⟨l', hl', hr, hlater⟩
      obtain rfl : l = l' := Option.some.inj (hl.symm.trans hl')
      exact ⟨hk, hr, hlater⟩
    · rintro ⟨_, hr, hlater⟩
      exact ⟨l, hl, hr, hlater⟩

/-- What a successful `SetPaths` is to leave: no key assigned twice, no path declared by two
blocks, and every block's endpoint bound to the factory made for it. -/
structure KeepsEndpoints (config : NginxConfig) : Prop where
  once : (fresh.setPaths config).2.overwritten = []
  distinct : (locations config).Pairwise fun l m =>
    l.IsBlock → m.IsBlock → l.servingPath ≠ m.servingPath
  bound : ∀ i l, (locations config)[i]? = some l → l.IsBlock →
    ∃ k factory, l.registered = some (k, factory) ∧
      (fresh.setPaths config).2.handlerFactories.lookup k = some ⟨i, factory⟩

theorem undercuts_of_key_eq {l m : Location} {k : Str} (hblocks : ¬ rules.Blocks l m)
    (hl : rules.key l = some k) (hm : rules.key m = some k) : Undercuts l m := by
  rcases key_eq_some_iff.mp hl with ⟨hlo, rfl⟩ | ⟨hlt, rfl⟩
  · rcases key_eq_some_iff.mp hm with ⟨_, hk⟩ | ⟨hmt, hk⟩
    · exact absurd (hl.trans (congrArg some hk)) hblocks
    · exact Or.inr ⟨hlo, hmt, hk⟩
  · rcases key_eq_some_iff.mp hm with ⟨_, hk⟩ | ⟨hmt, hk⟩
    · exact absurd (hl.trans (congrArg some hk)) hblocks
    · exact Or.inl ⟨hlt, hmt.1, (List.append_cancel_right hk).symm⟩

theorem keepsEndpoints_of_zero (h : (fresh.setPaths config).1 = 0)
    (hknown : ∀ l ∈ locations config, l.IsBlock → l.IsOrdinary ∨ l.IsTest)
    (hcut : (locations config).Pairwise fun l m => ¬ Undercuts l m) : KeepsEndpoints config := by
  obtain ⟨hfree, hvalid⟩ := setPaths_eq_zero_iff.mp h
  constructor
  · rw [overwritten_setPaths h]
    apply (hfree.and hcut).imp
    rintro l m ⟨hblocks, hnot⟩
    cases hl : rules.key l with
    | none => exact Or.inl rfl
    | some k =>
      right
      intro hm
      exact hnot (undercuts_of_key_eq hblocks hl hm.symm)
  · apply ((hfree.and hcut).and (List.pairwise_of_forall_mem_list
      (r := fun l _ => l.IsBlock → l.IsOrdinary ∨ l.IsTest) fun l hl m _ => hknown l hl)).imp
    rintro l m ⟨⟨hblocks, hnot⟩, hkind⟩ hl hm heq
    rcases hkind hl with ho | ht
    · exact hblocks (key_eq_some_iff.mpr (Or.inl ⟨ho, heq.symm⟩))
    · exact hnot (Or.inl ⟨ht, hm, heq.symm⟩)
  · intro i l hl hblock
    have hmem := List.mem_of_getElem? hl
    obtain ⟨k, factory, hr⟩ : ∃ k factory, l.registered = some (k, factory) := by
      rcases hknown l hmem hblock with ho | ht
      · exact ⟨_, registered_of_isOrdinary ho⟩
      · exact ⟨_, _, registered_of_isTest ht⟩
    have hkey : rules.key l = some k := Registration.Rules.key_of_entry (R := rules) hr
    refine ⟨k, factory, hr, ?_⟩
    rw [origin_of_lookup hfree hl]
    refine ⟨isValidURI_ne_top (hvalid l hmem k hkey), hr, ?_⟩
    intro j m hij hm hkm
    obtain ⟨hi, rfl⟩ := List.getElem?_eq_some_iff.mp hl
    obtain ⟨hj, rfl⟩ := List.getElem?_eq_some_iff.mp hm
    have hblocks := List.pairwise_iff_getElem.mp hfree i j hi hj hij
    exact List.pairwise_iff_getElem.mp hcut i j hi hj hij (undercuts_of_key_eq hblocks hkey hkm)

/-- `SetPaths` keeps the endpoints of the configurations it accepts exactly if every block names
one of the six handlers and no later location undercuts an earlier one. -/
theorem setPaths_keepsEndpoints_iff (config : NginxConfig) :
    ((fresh.setPaths config).1 = 0 → KeepsEndpoints config) ↔
      ¬ rules.ConflictFree (locations config) ∨ ¬ ValidKeys (locations config) ∨
        ((∀ l ∈ locations config, l.IsBlock → l.IsOrdinary ∨ l.IsTest) ∧
          (locations config).Pairwise fun l m => ¬ Undercuts l m) := by
  constructor
  · intro h
    by_cases hfree : rules.ConflictFree (locations config)
    swap
    · exact Or.inl hfree
    by_cases hvalid : ValidKeys (locations config)
    swap
    · exact Or.inr (Or.inl hvalid)
    have hkeeps := h (setPaths_eq_zero_iff.mpr ⟨hfree, hvalid⟩)
    refine Or.inr (Or.inr ⟨?_, ?_⟩)
    · intro l hl hblock
      obtain ⟨i, hi⟩ := List.getElem?_of_mem hl
      obtain ⟨k, factory, hr, _⟩ := hkeeps.bound i l hi hblock
      rcases registered_cases l with ho | ht | ⟨hnone, _⟩
      · exact Or.inl ho
      · exact Or.inr ht
      · rw [hnone] at hr
        exact absurd hr (by simp)
    · rw [List.pairwise_iff_getElem]
      rintro i j hi hj hij (⟨ht, hm, heq⟩ | ⟨ho, ht, heq⟩)
      · exact List.pairwise_iff_getElem.mp hkeeps.distinct i j hi hj hij ht.1 hm heq.symm
      · obtain ⟨k, factory, hr, hlook⟩ :=
          hkeeps.bound i _ (List.getElem?_eq_getElem hi) ho.1
        obtain ⟨_, _, hlater⟩ := (origin_of_lookup hfree (List.getElem?_eq_getElem hi)).mp hlook
        apply hlater j _ hij (List.getElem?_eq_getElem hj)
        obtain ⟨_, hr'⟩ := registered_of_isOrdinary ho
        rw [hr] at hr'
        rw [(Prod.mk.inj (Option.some.inj hr')).1, heq]
        exact key_eq_some_iff.mpr (Or.inr ⟨ht, rfl⟩)
  · rintro h hstatus
    obtain ⟨hfree, hvalid⟩ := setPaths_eq_zero_iff.mp hstatus
    rcases h with h | h | ⟨hknown, hcut⟩
    · exact absurd hfree h
    · exact absurd hvalid h
    · exact keepsEndpoints_of_zero hstatus hknown hcut

namespace Demo

def block (path handler : Str) : NginxConfigStatement :=
  .mk ["location".toList, path, handler] (some [])

def server (statements : List NginxConfigStatement) : NginxConfig :=
  [.mk ["server".toList] (some statements)]

/-- An EchoHandler where the TestHandler behind it puts its endpoint. -/
def takenSleep : NginxConfig :=
  server [block "/a/sleep".toList "EchoHandler".toList, block "/a".toList "TestHandler".toList]

end Demo

/-- The endpoint of the EchoHandler is overwritten and the status is 0. -/
theorem not_keepsEndpoints_takenSleep :
    ¬ ((fresh.setPaths Demo.takenSleep).1 = 0 → KeepsEndpoints Demo.takenSleep) := by
  intro h
  have hkeeps := h (by decide)
  exact absurd hkeeps.once (by decide)

end ServingConfig

end Webserver
