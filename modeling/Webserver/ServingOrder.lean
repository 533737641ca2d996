import Webserver.ServingReach

/-!
# The order of the locations

When the status of `SetPaths` and the table it leaves do not depend on the order of the
statements in a server block. A location is refused behind one that registers its path, and a
TestHandler registers another path than it declares, so some conflicts are seen in one order only.
-/

set_option autoImplicit false

namespace Webserver

open Registration RequestDispatcher

/-- The same statement, or a server block with its statements in another order. -/
def PermutesServer (s s' : NginxConfigStatement) : Prop :=
  s' = s ∨ ∃ b b', s.serverBlock = some b ∧ b.Perm b' ∧ s' = .mk s.tokens (some b')

def PermutesServers (config config' : NginxConfig) : Prop :=
  List.Forall₂ PermutesServer config config'

theorem serverBlock_mk {s : NginxConfigStatement} {b : NginxConfig} (h : s.serverBlock = some b)
    (b' : NginxConfig) : (NginxConfigStatement.mk s.tokens (some b')).serverBlock = some b' := by
  rw [NginxConfigStatement.serverBlock] at h ⊢
  rw [NginxConfigStatement.tokens]
  split at h
  · rename_i name _ htokens
    rw [htokens]
    split at h
    · rename_i hname
      simp [hname, NginxConfigStatement.childBlock]
    · exact absurd h (by simp)
  · exact absurd h (by simp)

theorem serverLocations_cons_none {s : NginxConfigStatement} (config : NginxConfig)
    (h : s.serverBlock = none) : serverLocations (s :: config) = serverLocations config := by
  rw [serverLocations, List.filterMap_cons_none h]
  rfl

theorem serverLocations_cons_some {s : NginxConfigStatement} {b : NginxConfig}
    (config : NginxConfig) (h : s.serverBlock = some b) :
    serverLocations (s :: config) =
      b.filterMap Location.ofStatement :: serverLocations config := by
  rw [serverLocations, List.filterMap_cons_some h]
  rfl

theorem PermutesServers.rearranged {config config' : NginxConfig}
    (h : PermutesServers config config') :
    Rules.Rearranged (serverLocations config) (serverLocations config') := by
  induction h with
  | nil => exact List.Forall₂.nil
  | @cons s s' config config' hs _ ih =>
    rcases hs with rfl | ⟨b, b', hb, hperm, rfl⟩
    · cases hb : s'.serverBlock with
      | none => rwa [serverLocations_cons_none _ hb, serverLocations_cons_none _ hb]
      | some b =>
        rw [serverLocations_cons_some _ hb, serverLocations_cons_some _ hb]
        exact List.Forall₂.cons (List.Perm.refl _) ih
    · rw [serverLocations_cons_some _ hb, serverLocations_cons_some _ (serverBlock_mk hb b')]
      exact List.Forall₂.cons (hperm.filterMap _) ih

/-- Every order of the locations is one of the statements. -/
theorem exists_permutesServers (config : NginxConfig) {bs : List (List Location)}
    (h : Rules.Rearranged (serverLocations config) bs) :
    ∃ config', PermutesServers config config' ∧ serverLocations config' = bs := by
  induction config generalizing bs with
  | nil =>
    rw [show serverLocations [] = [] from rfl] at h
    obtain rfl := List.forall₂_nil_left_iff.mp h
    exact ⟨[], List.Forall₂.nil, rfl⟩
  | cons s config ih =>
    cases hb : s.serverBlock with
    | none =>
      rw [serverLocations_cons_none _ hb] at h
      obtain ⟨config', hperm, he⟩ := ih h
      refine ⟨s :: config', List.Forall₂.cons (Or.inl rfl) hperm, ?_⟩
      rwa [serverLocations_cons_none _ hb]
    | some b =>
      rw [serverLocations_cons_some _ hb] at h
      obtain ⟨ls, bs', hls, hbs', rfl⟩ := List.forall₂_cons_left_iff.mp h
      obtain ⟨config', hperm, he⟩ := ih hbs'
      obtain ⟨b', hb', hls'⟩ := exists_perm_filterMap hls b rfl
      refine ⟨.mk s.tokens (some b') :: config',
        List.Forall₂.cons (Or.inr ⟨b, b', hb, hb', rfl⟩) hperm, ?_⟩
      rw [serverLocations_cons_some _ (serverBlock_mk hb b'), hls', he]

namespace ServingConfig

open Location
variable {config config' : NginxConfig} {l m : Location} {k : Str}

/-- A location that is refused behind `l` is declared further down, unless both are ordinary
locations of one path. -/
def rank (l : Location) : Nat :=
  2 * l.servingPath.length + if rules.key l = some l.servingPath then 0 else 1

theorem rank_lt_of_blocks (l m : Location) (h : rules.Blocks l m) :
    rank l < rank m ∨ rules.Blocks m l := by
  rcases key_eq_some_iff.mp h with ⟨ho, hpath⟩ | ⟨_, hpath⟩
  · have hself : rules.key l = some l.servingPath := key_eq_some_iff.mpr (Or.inl ⟨ho, rfl⟩)
    by_cases hm : rules.key m = some m.servingPath
    · right
      have hback : rules.key m = some l.servingPath := hpath ▸ hm
      exact hback
    · left
      have hpath' : m.servingPath = l.servingPath := hpath
      rw [rank, rank, if_pos hself, if_neg hm, hpath']
      omega
  · left
    have hlen : m.servingPath.length = l.servingPath.length + 6 := by
      rw [show m.servingPath = _ from hpath]
      simp
    rw [rank, rank, hlen]
    split <;> split <;> omega

/-- Two locations of one key that do not block each other are TestHandlers of one path. -/
theorem registered_eq_of_key (hlm : ¬ rules.Blocks l m) (hml : ¬ rules.Blocks m l)
    (hl : rules.key l = some k) (hm : rules.key m = some k) : l.registered = m.registered := by
  rcases key_eq_some_iff.mp hl with ⟨_, rfl⟩ | ⟨hlt, rfl⟩
  · exact absurd hm hml
  · rcases key_eq_some_iff.mp hm with ⟨_, hk⟩ | ⟨hmt, hk⟩
    · exact absurd (hl.trans (congrArg some hk)) hlm
    · rw [registered_of_isTest hlt, registered_of_isTest hmt, hk]

theorem validKeys_of_permutes (h : PermutesServers config config') :
    ValidKeys (locations config) ↔ ValidKeys (locations config') := by
  have hperm := h.rearranged.flatten_perm
  constructor
  · exact fun hv l hl => hv l (hperm.mem_iff.mpr hl)
  · exact fun hv l hl => hv l (hperm.mem_iff.mp hl)

/-- The same status for every order of the statements in the server blocks and, where it is 0,
the same keys with the same factories. -/
def OrderIrrelevant (config : NginxConfig) : Prop :=
  ∀ config', PermutesServers config config' →
    (fresh.setPaths config').1 = (fresh.setPaths config).1 ∧
      ((fresh.setPaths config).1 = 0 → ∀ k,
        ((fresh.setPaths config').2.find k).map Created.factory =
          ((fresh.setPaths config).2.find k).map Created.factory)

theorem setPaths_status_eq (h : PermutesServers config config')
    (hfree : rules.ConflictFree (locations config') ↔ rules.ConflictFree (locations config)) :
    (fresh.setPaths config').1 = (fresh.setPaths config).1 := by
  have hvalid := validKeys_of_permutes h
  by_cases hc : rules.ConflictFree (locations config)
  · by_cases hv : ValidKeys (locations config)
    · rw [setPaths_eq_zero_iff.mpr ⟨hc, hv⟩, setPaths_eq_zero_iff.mpr ⟨hfree.mpr hc, hvalid.mp hv⟩]
    · rw [setPaths_eq_invalidUri_iff.mpr ⟨hc, hv⟩,
        setPaths_eq_invalidUri_iff.mpr ⟨hfree.mpr hc, fun h' => hv (hvalid.mpr h')⟩]
  · rw [setPaths_eq_multipleUses_iff.mpr hc,
      setPaths_eq_multipleUses_iff.mpr fun h' => hc (hfree.mp h')]

theorem find_setPaths_map (hfree : rules.ConflictFree (locations config)) (k : Str) :
    ((fresh.setPaths config).2.find k).map Created.factory =
      if k = ['/'] then some .notFoundHandler else rules.value k (locations config) := by
  rw [find, lookup_setPaths hfree]
  split
  · rfl
  · rw [Option.map_map]
    rfl

/-- Inside a block where no location blocks another the order does not matter to a key. -/
theorem registered_eq_of_pairwise {b : List Location}
    (hb : b.Pairwise fun l m => ¬ rules.Blocks l m ∧ ¬ rules.Blocks m l) (hl : l ∈ b) (hm : m ∈ b)
    (hlk : rules.key l = some k) (hmk : rules.key m = some k) : l.registered = m.registered := by
  have hpair : b.Pairwise fun x y =>
      rules.key x = some k → rules.key y = some k → x.registered = y.registered :=
    hb.imp fun hxy => registered_eq_of_key hxy.1 hxy.2
  have hflip : b.Pairwise fun x y =>
      rules.key y = some k → rules.key x = some k → y.registered = x.registered :=
    hpair.imp fun h hy hx => (h hx hy).symm
  exact List.Pairwise.forall_of_forall_of_flip (fun _ _ _ _ => rfl) hpair hflip hl hm hlk hmk

/-- The order of the statements in the server blocks does not matter exactly if a location of an
earlier block registers what a later block declares, or two locations of one block register what
the other declares, or no location registers what another one in its block declares. -/
theorem orderIrrelevant_iff (config : NginxConfig) :
    OrderIrrelevant config ↔
      (¬ (serverLocations config).Pairwise fun b b' => ∀ l ∈ b, ∀ m ∈ b', ¬ rules.Blocks l m) ∨
        (∃ b ∈ serverLocations config,
          ¬ b.Pairwise fun l m => ¬ (rules.Blocks l m ∧ rules.Blocks m l)) ∨
        ∀ b ∈ serverLocations config,
          b.Pairwise fun l m => ¬ rules.Blocks l m ∧ ¬ rules.Blocks m l := by
  have hiff := Rules.conflictFree_order_iff (serverLocations config) rank rank_lt_of_blocks
  constructor
  · intro h
    apply hiff.mp
    intro bs' hbs'
    obtain ⟨config', hperm, rfl⟩ := exists_permutesServers config hbs'
    have hstatus := (h config' hperm).1
    have hconf : (fresh.setPaths config').1 = multipleUses ↔
        ¬ rules.ConflictFree (locations config') := setPaths_eq_multipleUses_iff
    rw [hstatus, setPaths_eq_multipleUses_iff] at hconf
    exact (not_iff_not.mp hconf).symm
  · intro h config' hperm
    have hfree := hiff.mpr h _ hperm.rearranged
    refine ⟨setPaths_status_eq hperm hfree, ?_⟩
    intro hzero k
    have hc := (setPaths_eq_zero_iff.mp hzero).1
    obtain ⟨hin, hacross⟩ := Rules.conflictFree_flatten.mp hc
    have hnone : ∀ b ∈ serverLocations config,
        b.Pairwise fun l m => ¬ rules.Blocks l m ∧ ¬ rules.Blocks m l := by
      rcases h with h | ⟨b, hb, h⟩ | h
      · exact absurd hacross h
      · exact absurd ((hin b hb).imp fun hnot hr => hnot hr.1) h
      · exact h
    have hvalue : rules.value k (locations config) = rules.value k (locations config') := by
      apply Rules.value_rearranged hperm.rearranged
      intro b hb l hl m hm
      exact registered_eq_of_pairwise (hnone b hb) hl hm
    rw [find_setPaths_map (hfree.mpr hc), find_setPaths_map hc, hvalue]

namespace Demo

def echoThenTest : NginxConfig :=
  server [block "/a".toList "EchoHandler".toList, block "/a".toList "TestHandler".toList]

def testThenEcho : NginxConfig :=
  server [block "/a".toList "TestHandler".toList, block "/a".toList "EchoHandler".toList]

end Demo

/-- The TestHandler is refused behind the EchoHandler and not the other way round. -/
theorem not_orderIrrelevant_echoThenTest : ¬ OrderIrrelevant Demo.echoThenTest := by
  intro h
  have hperm : PermutesServers Demo.echoThenTest Demo.testThenEcho := by
    refine List.Forall₂.cons (Or.inr ⟨_, _, rfl, ?_, rfl⟩) List.Forall₂.nil
    exact List.Perm.swap _ _ _
  have hstatus := (h _ hperm).1
  exact absurd hstatus (by decide)

end ServingConfig

end Webserver
