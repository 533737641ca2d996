import Webserver.ServingQuotes

/-!
# The words that are read

In a configuration that registers no key twice and has one argument for `listen` at most, a word
that is read shows: without it the port, a key or the root of a factory is another one. This and
`ServingQuotes` say when a word may be quoted.
-/

set_option autoImplicit false

namespace Webserver

namespace ServingConfig

open NginxConfigStatement NginxConfigParser

/-- Nothing in the configuration stands in for something else in it. -/
structure Unambiguous (config : NginxConfig) : Prop where
  status : (fresh.setPaths config).1 = 0
  keys : rules.Fresh (locations config)
  port : (listenArguments config).length ≤ 1

section Reads
variable {quote : Char} {w : Str} {spot : Spot}

theorem takes_of_readsPort (hquote : isQuote quote = true) (hread : ReadsPort w spot) :
    spot.taken listenArgument = [] ∧ spot.takes listenArgument w ≠ [] ∧
      spot.takes listenArgument (quoted quote w) = [] := by
  cases hread with
  | server hword hfirst hblock =>
    subst hword
    rw [Spot.takes_here, Spot.takes_here]
    refine ⟨by rw [listenArguments_eq] at hfirst; exact hfirst, ?_, ?_⟩
    · exact hblock
    · exact if_neg (not_isServer_quoted hquote _)
  | @listen before before' behind' behind tokens vs port block hserver hfirst hword hport =>
    subst hword
    rw [Spot.takes_inside, Spot.takes_inside, if_pos hserver, if_pos hserver, Spot.taken,
      if_pos hserver, ← listenArguments_eq]
    refine ⟨List.append_eq_nil_iff.mpr hfirst, ?_, ?_⟩
    · simp [Spot.statement, listenArgument, NginxConfigStatement.tokens, hport]
    · have hne : quoted quote "listen".toList ≠ "listen".toList := quoted_ne hquote (by decide)
      simp only [Spot.statement, listenArgument, NginxConfigStatement.tokens, List.nil_append]
      rw [if_neg fun h => hne h.1]
      rfl
  | @number before before' behind' behind tokens vs block hserver hfirst hword =>
    rw [Spot.takes_inside, Spot.takes_inside, if_pos hserver, if_pos hserver, Spot.taken,
      if_pos hserver, ← listenArguments_eq]
    refine ⟨List.append_eq_nil_iff.mpr hfirst, ?_, ?_⟩
    · simp [Spot.statement, listenArgument, NginxConfigStatement.tokens, hword]
    · simp [Spot.statement, listenArgument, NginxConfigStatement.tokens, onlyDigits_quoted hquote]

/-- Without its one argument nothing is found. -/
theorem setPortNumber_ne (hquote : isQuote quote = true) (hread : ReadsPort w spot)
    (hone : (listenArguments (spot.fill w)).length ≤ 1) :
    setPortNumber (spot.fill (quoted quote w)) ≠ setPortNumber (spot.fill w) := by
  obtain ⟨htaken, htakes, hquoted⟩ := takes_of_readsPort hquote hread
  rw [listenArguments_eq, Spot.collect_fill, htaken, List.nil_append, List.length_append] at hone
  obtain ⟨port, ports, hports⟩ := List.exists_cons_of_ne_nil htakes
  rw [hports, List.length_cons] at hone
  have hleaves : spot.leaves listenArgument = [] := by
    apply List.eq_nil_of_length_eq_zero
    omega
  have hfound : (listenArguments (spot.fill w)).head? = some port := by
    rw [listenArguments_eq, Spot.collect_fill, htaken, hports]
    rfl
  have hnothing : (listenArguments (spot.fill (quoted quote w))).head? = none := by
    rw [listenArguments_eq, Spot.collect_fill, htaken, hquoted, hleaves]
    rfl
  rw [setPortNumber_eq, setPortNumber_eq, hfound, hnothing]
  dsimp only
  cases stoi port with
  | ok n => exact fun h => absurd (Except.ok.inj h) (by simp)
  | error e => exact fun h => absurd h (by simp [Except.map])

end Reads

section Routes
variable {config : NginxConfig} {l : Location} {k : Str} {factory : HandlerFactory}

theorem exists_of_viewAt (hfree : rules.ConflictFree (locations config)) (hk : k ≠ ['/'])
    {view : FactoryView} (h : (fresh.setPaths config).2.viewAt k = some view) :
    ∃ l ∈ locations config, ∃ factory, l.registered = some (k, factory) ∧ factory.view = view := by
  rw [viewAt, lookup_setPaths hfree, if_neg hk, Option.map_map] at h
  obtain ⟨⟨n, factory⟩, hbound, hview⟩ := Option.map_eq_some_iff.mp h
  have hbound' : rules.bound k 0 (locations config) = some (0 + n, factory) := by
    rw [Nat.zero_add]
    exact hbound
  obtain ⟨l, hl, hentry, _⟩ := (Registration.Rules.bound_eq_some_iff 0 (locations config)).mp hbound'
  exact ⟨l, List.mem_of_getElem? hl, factory, hentry, hview⟩

theorem viewAt_of_registered (hfree : rules.ConflictFree (locations config))
    (hkeys : rules.Fresh (locations config)) (hk : k ≠ ['/']) (hl : l ∈ locations config)
    (hregistered : l.registered = some (k, factory)) :
    (fresh.setPaths config).2.viewAt k = some factory.view := by
  have hvalue : rules.value k (locations config) = some factory :=
    (Registration.Rules.value_eq_some_iff_of_fresh hkeys).mpr ⟨l, hl, hregistered⟩
  rw [Registration.Rules.value] at hvalue
  obtain ⟨p, hbound, rfl⟩ := Option.map_eq_some_iff.mp hvalue
  rw [viewAt, lookup_setPaths hfree, if_neg hk, hbound]
  rfl

end Routes

section Reads
variable {quote : Char} {w w' : Str} {spot : Spot} {l : Location} {k : Str}
  {factory : HandlerFactory}

/-- If the table is the same, what the statement with the word registered is registered by what
it has become. -/
theorem registered_again (hfree : rules.ConflictFree (locations (spot.fill w)))
    (hvalid : ValidKeys (locations (spot.fill w))) (hkeys : rules.Fresh (locations (spot.fill w)))
    (hserved : served (spot.fill w') = served (spot.fill w))
    (hl : l ∈ spot.takes Location.ofStatement w) (hregistered : l.registered = some (k, factory)) :
    isValidURI k = true ∧ ∃ l' ∈ spot.takes Location.ofStatement w', ∃ factory',
      l'.registered = some (k, factory') ∧ factory'.view = factory.view := by
  have hkey : rules.key l = some k := Registration.Rules.key_of_entry hregistered
  have hmem : l ∈ locations (spot.fill w) := by
    rw [locations_eq, Spot.collect_fill]
    exact List.mem_append_left _ (List.mem_append_right _ hl)
  have huri := hvalid l hmem k hkey
  refine ⟨huri, ?_⟩
  have hk := isValidURI_ne_top huri
  have hstatus : (fresh.setPaths (spot.fill w')).1 = 0 :=
    (congrArg Served.status hserved).trans (setPaths_eq_zero_iff.mpr ⟨hfree, hvalid⟩)
  have hroute : (fresh.setPaths (spot.fill w')).2.viewAt k = some factory.view :=
    (congrFun (congrArg Served.routes hserved) k).trans
      (viewAt_of_registered hfree hkeys hk hmem hregistered)
  obtain ⟨l', hl', factory', hregistered', hview⟩ :=
    exists_of_viewAt (setPaths_eq_zero_iff.mp hstatus).1 hk hroute
  have hkey' : rules.key l' = some k := Registration.Rules.key_of_entry hregistered'
  -- in front and behind the key is not registered again
  rw [locations_eq, Spot.collect_fill, Registration.Rules.Fresh, List.pairwise_append,
    List.pairwise_append] at hkeys
  obtain ⟨⟨_, _, hfront⟩, _, hbehind⟩ := hkeys
  have hapart {a b : Location} (hab : rules.key a = none ∨ rules.key a ≠ rules.key b)
      (ha : rules.key a = some k) (hb : rules.key b = some k) : False := by
    rcases hab with hnone | hne
    · exact absurd (ha.symm.trans hnone) (by simp)
    · exact hne (ha.trans hb.symm)
  rw [locations_eq, Spot.collect_fill] at hl'
  rcases List.mem_append.mp hl' with hl' | hl'
  · rcases List.mem_append.mp hl' with hl' | hl'
    · exact (hapart (hfront l' hl' l hl) hkey' hkey).elim
    · exact ⟨l', hl', factory', hregistered', hview⟩
  · exact (hapart (hbehind l (List.mem_append_right _ hl) l' hl') hkey hkey').elim

theorem registered_of_counts {front : List Location}
    (hfree : ∀ m ∈ front, ¬ rules.Blocks m l) (hcounts : Counts front l) : l.registered ≠ none := by
  rcases hcounts with hregistered | ⟨m, hm, hkey⟩
  · exact hregistered
  · exact absurd hkey (hfree m hm)

theorem key_begins (hregistered : l.registered = some (k, factory)) :
    ∃ s, k = l.servingPath ++ s := by
  unfold Location.registered at hregistered
  split at hregistered
  · exact absurd hregistered (by simp)
  · split_ifs at hregistered <;> obtain ⟨rfl, _⟩ := Prod.mk.inj (Option.some.inj hregistered)
    all_goals first | exact ⟨[], (List.append_nil _).symm⟩ | exact ⟨_, rfl⟩

theorem getRoot_quoted_ne (hquote : isQuote quote = true) {ws vs xs : List Str} {dir : Str}
    {block : Option NginxConfig} (hplace : ws.length ≤ 1)
    (hroot : ws ++ w :: vs = "root".toList :: dir :: xs) :
    FileHandlerFactory.getRoot [.mk (ws ++ quoted quote w :: vs) block] ≠
      FileHandlerFactory.getRoot [.mk (ws ++ w :: vs) block] := by
  have hdirective (dir : Str) (xs : List Str) :
      FileHandlerFactory.getRoot [.mk ("root".toList :: dir :: xs) block] =
        if dir = [] ∨ dir.getLast? ≠ some '/' then dir ++ ['/'] else dir := rfl
  rw [hroot, hdirective]
  cases ws with
  | nil =>
    rw [List.nil_append] at hroot ⊢
    obtain ⟨rfl, rfl⟩ := List.cons.inj hroot
    have hnone : FileHandlerFactory.getRoot
        [.mk (quoted quote "root".toList :: dir :: xs) block] = [] :=
      if_neg (quoted_ne hquote (by decide))
    rw [hnone]
    split
    · simp
    · rename_i hdir
      exact fun h => hdir (Or.inl h.symm)
  | cons name ws =>
    obtain rfl : ws = [] := by
      apply List.eq_nil_of_length_eq_zero
      rw [List.length_cons] at hplace
      omega
    rw [List.cons_append, List.nil_append] at hroot ⊢
    obtain ⟨rfl, hrest⟩ := List.cons.inj hroot
    obtain ⟨rfl, rfl⟩ := List.cons.inj hrest
    rw [hdirective]
    -- the quotes make it longer than a slash does
    intro h
    have hlength := congrArg List.length h
    have hlong : (quoted quote w).length = w.length + 2 := by simp [quoted]
    split at hlength <;> split at hlength <;> simp only [List.length_append, hlong,
      List.length_singleton] at hlength <;> omega

/-- A location that counts has registered a key, which is a URI and is registered again. -/
theorem counts_again (hu : Unambiguous (spot.fill w))
    (hserved : served (spot.fill w') = served (spot.fill w))
    (hl : l ∈ spot.takes Location.ofStatement w)
    (hcounts : Counts (spot.taken Location.ofStatement) l) :
    ∃ k factory, l.registered = some (k, factory) ∧ isValidURI k = true ∧
      ∃ l' ∈ spot.takes Location.ofStatement w', ∃ factory',
        l'.registered = some (k, factory') ∧ factory'.view = factory.view := by
  obtain ⟨hfree, hvalid⟩ := setPaths_eq_zero_iff.mp hu.status
  have hblocks : ∀ m ∈ spot.taken Location.ofStatement, ¬ rules.Blocks m l := by
    have hpair := hfree
    rw [locations_eq, Spot.collect_fill, Registration.Rules.ConflictFree, List.pairwise_append,
      List.pairwise_append] at hpair
    exact fun m hm => hpair.1.2.2 m hm l hl
  obtain ⟨⟨k, factory⟩, hregistered⟩ :=
    Option.ne_none_iff_exists'.mp (registered_of_counts hblocks hcounts)
  obtain ⟨huri, l', hl', factory', hregistered', hview⟩ :=
    registered_again hfree hvalid hu.keys hserved hl hregistered
  exact ⟨k, factory, hregistered, huri, l', hl', factory', hregistered', hview⟩

theorem not_served_of_readsPaths (hquote : isQuote quote = true)
    (hread : ReadsPaths w (quoted quote w) spot) (hu : Unambiguous (spot.fill w)) :
    served (spot.fill (quoted quote w)) ≠ served (spot.fill w) := by
  intro hserved
  cases hread with
  | @server before block behind vs l hword hfree hl hcounts =>
    subst hword
    have htakes : (Spot.here before [] vs (some block) behind).takes Location.ofStatement
        "server".toList = block.filterMap Location.ofStatement := by
      rw [Spot.takes_here]
      exact if_pos rfl
    rw [locations_eq] at hcounts
    obtain ⟨_, _, _, _, l', hl', _⟩ := counts_again hu hserved (htakes ▸ hl) hcounts
    rw [Spot.takes_here, List.nil_append, if_neg (not_isServer_quoted hquote vs)] at hl'
    exact absurd hl' List.not_mem_nil
  | @location before before' behind' behind tokens vs path name block hserver hfree hword hcounts =>
    subst hword
    have hfront : (Spot.inside before tokens (.here before' [] (path :: name :: vs) block behind')
        behind).taken Location.ofStatement = reached before before' :=
      reached_eq before hserver _ behind
    rw [← hfront] at hcounts
    have hl : ⟨path, name, block⟩ ∈ (Spot.inside before tokens
        (.here before' [] (path :: name :: vs) block behind') behind).takes Location.ofStatement
          "location".toList := by
      rw [Spot.takes_inside, if_pos hserver]
      exact List.mem_singleton_self _
    obtain ⟨_, _, _, _, l', hl', _⟩ := counts_again hu hserved hl hcounts
    rw [Spot.takes_inside, if_pos hserver, Spot.statement, List.nil_append,
      ofStatement_other (quoted_ne hquote (by decide))] at hl'
    exact absurd hl' List.not_mem_nil
  | @path before before' behind' behind tokens vs name block hserver hfree hcounts =>
    have hfront : (Spot.inside before tokens (.here before' ["location".toList] (name :: vs) block
        behind') behind).taken Location.ofStatement = reached before before' :=
      reached_eq before hserver _ behind
    rw [← hfront] at hcounts
    have hl : ⟨w, name, block⟩ ∈ (Spot.inside before tokens
        (.here before' ["location".toList] (name :: vs) block behind') behind).takes
          Location.ofStatement w := by
      rw [Spot.takes_inside, if_pos hserver]
      exact List.mem_singleton_self _
    rcases hcounts with hcounts | ⟨m, hm, hkey⟩
    · obtain ⟨k, _, _, huri, l', hl', _, hregistered', _⟩ := counts_again hu hserved hl hcounts
      rw [Spot.takes_inside, if_pos hserver] at hl'
      obtain rfl := List.mem_singleton.mp hl'
      obtain ⟨s, rfl⟩ := key_begins hregistered'
      exact absurd huri (by rw [isValidURI_quoted hquote]; decide)
    · have hmem : m ∈ locations (Spot.fill w (Spot.inside before tokens
          (.here before' ["location".toList] (name :: vs) block behind') behind)) := by
        rw [locations_eq, Spot.collect_fill]
        exact List.mem_append_left _ (List.mem_append_left _ hm)
      have huri := (setPaths_eq_zero_iff.mp hu.status).2 m hmem _ hkey
      rw [← List.append_nil (quoted quote w), isValidURI_quoted hquote] at huri
      exact absurd huri (by decide)
  | @handler before before' behind' behind tokens vs path block hserver hfree hasked hregisters =>
    have hl : ⟨path, w, block⟩ ∈ (Spot.inside before tokens
        (.here before' ["location".toList, path] vs block behind') behind).takes
          Location.ofStatement w := by
      rw [Spot.takes_inside, if_pos hserver]
      exact List.mem_singleton_self _
    obtain ⟨_, _, _, _, l', hl', _, hregistered', _⟩ :=
      counts_again hu hserved hl (Or.inl hregisters)
    rw [Spot.takes_inside, if_pos hserver] at hl'
    obtain rfl := List.mem_singleton.mp hl'
    exact absurd (hregistered'.symm.trans (registered_quoted hquote path block)) (by simp)
  | @root before before' behind' behind tokens more ws vs xs path name dir block hserver hfree hasked
      hname hplace hroot =>
    have hl (x : Str) : (Spot.inside before tokens (.inside before' ("location".toList :: path ::
        name :: more) (.here [] ws vs block []) behind') behind).takes Location.ofStatement x =
          [⟨path, name, some [.mk (ws ++ x :: vs) block]⟩] := by
      rw [Spot.takes_inside, if_pos hserver]
      rfl
    have hne := @getRoot_quoted_ne quote w hquote ws vs xs dir block hplace hroot
    have hmem := List.mem_singleton_self (⟨path, name, some [.mk (ws ++ w :: vs) block]⟩ : Location)
    rw [← hl w] at hmem
    have hregisters : (⟨path, name, some [.mk (ws ++ w :: vs) block]⟩ : Location).registered ≠
        none := by
      rcases hname with rfl | rfl <;> simp [Location.registered]
    obtain ⟨k, factory, hregistered, _, l', hl', factory', hregistered', hview⟩ :=
      counts_again hu hserved hmem (Or.inl hregisters)
    rw [hl] at hl'
    obtain rfl := List.mem_singleton.mp hl'
    apply hne
    rcases hname with rfl | rfl
    · obtain ⟨rfl, rfl⟩ := Prod.mk.inj (Option.some.inj hregistered)
      obtain ⟨_, rfl⟩ := Prod.mk.inj (Option.some.inj hregistered')
      exact FactoryView.staticHandler.inj hview
    · obtain ⟨rfl, rfl⟩ := Prod.mk.inj (Option.some.inj hregistered)
      obtain ⟨_, rfl⟩ := Prod.mk.inj (Option.some.inj hregistered')
      exact FactoryView.crudHandler.inj hview

/-- In such a configuration a word may be quoted if and only if it is not read. -/
theorem served_quoted_iff (hquote : isQuote quote = true) (hu : Unambiguous (spot.fill w)) :
    served (spot.fill (quoted quote w)) = served (spot.fill w) ↔ ¬ Reads w (quoted quote w) spot := by
  refine ⟨?_, served_of_unread hquote⟩
  rintro hserved (hport | hpaths)
  · exact setPortNumber_ne hquote hport hu.port (congrArg Served.port hserved)
  · exact not_served_of_readsPaths hquote hpaths hu hserved

end Reads

/-- The text with the word quoted is accepted, and what is served is the same if no reader reads
the word; where nothing stands in for something else, only then. -/
theorem served_quoteAt (pre w post : Str) (quote : Char) (config : NginxConfig)
    (h : WordIn pre w post) (hescape : '\\' ∉ w) (hquote : isQuote quote = true)
    (hparse : parse (pre ++ w ++ post) [] = some (.returned true config)) :
    ∃ spot : Spot, config = spot.fill w ∧
      parse (quoteAt pre w post quote) [] = some (.returned true (spot.fill (quoted quote w))) ∧
      (¬ Reads w (quoted quote w) spot →
        served (spot.fill (quoted quote w)) = served config) ∧
      (Unambiguous config → served (spot.fill (quoted quote w)) = served config →
        ¬ Reads w (quoted quote w) spot) := by
  obtain ⟨spot, rfl, hspot⟩ := parse_quoteAt h hescape hquote hparse
  refine ⟨spot, rfl, hspot, served_of_unread hquote, ?_⟩
  intro hu
  exact (served_quoted_iff hquote hu).mp

theorem isNormal_cons {c : Char} {v : Str} (h : (c :: v).all (fun c => !endsNormal c) = true)
    (hhash : c ≠ '#') (hreturn : c ≠ '\r') : IsNormal (c :: v) := by
  refine ⟨?_, c, v, rfl, hhash, hreturn⟩
  intro d hd
  simpa using List.all_eq_true.mp h d hd

/-- `server` without a block is not read. -/
theorem served_quoteAt_server :
    ∃ config, parse (quoteAt [] "server".toList ";".toList '\'') [] = some (.returned true config) ∧
      served config = served [.mk ["server".toList] none] := by
  have hword : WordIn [] "server".toList ";".toList :=
    { front := ⟨[], .nil, fun p hp => absurd hp (by simp)⟩
      word := isNormal_cons rfl (by decide) (by decide)
      ends := ⟨';', [], rfl, rfl⟩ }
  obtain ⟨spot, hspot, hparse, hunread, _⟩ :=
    served_quoteAt [] "server".toList ";".toList '\'' [.mk ["server".toList] none] hword
      (by decide) rfl rfl
  refine ⟨_, hparse, hunread ?_⟩
  -- a word that is read stands in a block or in front of one
  have hblock {before behind : NginxConfig} {tokens : List Str} {block : NginxConfig} :
      [NginxConfigStatement.mk ["server".toList] none] ≠
        before ++ .mk tokens (some block) :: behind := by
    intro h
    have hmem : NginxConfigStatement.mk tokens (some block) ∈
        [NginxConfigStatement.mk ["server".toList] none] := h ▸ by simp
    exact absurd (NginxConfigStatement.mk.inj (List.mem_singleton.mp hmem)).2 (by simp)
  rintro (hread | hread)
  · cases hread <;> exact hblock hspot
  · cases hread <;> exact hblock hspot

/-- A serving path between quotes is no URI. -/
theorem not_served_quotedPath :
    ¬ ∀ (pre w post : Str) (quote : Char) (config : NginxConfig), WordIn pre w post → '\\' ∉ w →
      isQuote quote = true → parse (pre ++ w ++ post) [] = some (.returned true config) →
      ∃ config', parse (quoteAt pre w post quote) [] = some (.returned true config') ∧
        served config' = served config := by
  intro h
  have hserver : IsNormal "server".toList :=
    isNormal_cons rfl (by decide) (by decide)
  have hlocation : IsNormal "location".toList :=
    isNormal_cons rfl (by decide) (by decide)
  have hblank (s : Str) : Ends endsNormal (' ' :: s) := fun c s' heq => (List.cons.inj heq).1 ▸ rfl
  have hfront : Lexes "server \x7b location ".toList [.normal "server".toList, .blank ' ',
      .punct '\x7b' .startBlock, .blank ' ', .normal "location".toList, .blank ' '] :=
    .normal hserver (hblank _) (.blank rfl (.punct rfl (.blank rfl
      (.normal hlocation (hblank _) (.blank rfl .nil)))))
  have hfree (p : Piece) (hp : some (Piece.blank ' ') = some p) :
      (∀ v, p ≠ .normal v) ∧ ∀ body, p ≠ .comment body := by
    obtain rfl := Option.some.inj hp
    exact ⟨fun v => by simp, fun body => by simp⟩
  have hword : WordIn "server \x7b location ".toList "/echo".toList
      " EchoHandler \x7b \x7d \x7d".toList :=
    { front := ⟨_, hfront, hfree⟩
      word := isNormal_cons rfl (by decide) (by decide)
      ends := ⟨' ', "EchoHandler \x7b \x7d \x7d".toList, rfl, rfl⟩ }
  have hparse (path : Str) (hpath : path = "/echo".toList ∨ path = "\"/echo\"".toList) :
      parse ("server \x7b location ".toList ++ path ++ " EchoHandler \x7b \x7d \x7d".toList) [] =
        some (.returned true [.mk ["server".toList] (some
          [.mk ["location".toList, path, "EchoHandler".toList] (some [])])]) := by
    rcases hpath with rfl | rfl <;> rfl
  have hquoted : parse (quoteAt "server \x7b location ".toList "/echo".toList
      " EchoHandler \x7b \x7d \x7d".toList '"') [] =
        some (.returned true [.mk ["server".toList] (some
          [.mk ["location".toList, "\"/echo\"".toList, "EchoHandler".toList] (some [])])]) := rfl
  obtain ⟨config', hparse', hserved⟩ := h _ _ _ '"' _ hword (by decide) rfl (hparse _ (Or.inl rfl))
  obtain ⟨_, rfl⟩ := Outcome.returned.inj (Option.some.inj (hparse'.symm.trans hquoted))
  have hstatus : (2 : Nat) = 0 := congrArg Served.status hserved
  exact absurd hstatus (by decide)

end ServingConfig

end Webserver
