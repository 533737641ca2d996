import Webserver.CrudRefinement
import Webserver.ProcessFiles

/-!
# The CRUD locations of a process

One location with an ordinary root, in the midst of requests to all the others. As long as the
POSTs of the other locations create their entities neither in its root nor above it, the requests
that reach it are answered as the abstract store answers them, and a static location shows the
objects of the store as they are.
-/

set_option autoImplicit false

namespace Webserver

open FileTree FileTree.Tree Segments CrudHandler RequestDispatcher ObjectStore

universe u

/-- `k` is a CRUD location and `R` its root. -/
def IsCrudRoot (T : HandlerFactories) (k : Str) (R : Root) : Prop :=
  ∃ config, T.find k = some (.crudHandler config) ∧
    FileHandlerFactory.getRoot config = joined '/' R.names ++ ['/']

section Reading
variable (H : Host) {ι : Type u} (T : HandlerFactories) (k : Str) (R : Root)

/-- The entity with this spelling, if it is one directly below the root. -/
def entityOf (e : Str) : Option EntityName :=
  let name := e.drop ((joined '/' R.names).length + 1)
  if h : IsName name ∧ onlyDigits name = false then
    if e = joined '/' R.names ++ '/' :: name then some ⟨name, h.1, h.2⟩ else none
  else none

def objectOf (id : Int) : Option ObjectId :=
  if h : 0 ≤ id ∧ id.toNat ≤ intMax then
    some ⟨.ofNat id.toNat, by rw [IdText.value_ofNat]; exact h.2⟩
  else none

def callOf (method : Verb) (id : Int) : Option StoreCall :=
  match method with
  | .post => some (.post (objectOf id))
  | .put => some (.put (objectOf id))
  | .delete => some (.delete (objectOf id))
  | .get => (objectOf id).map .get
  | .other _ => none

/-- What `ParseTarget` makes of the file path of a CRUD handler. -/
def parsedAt (m : Match) : Option (Str × Int) :=
  match m.factory with
  | .crudHandler config =>
    (parseTarget H (FileHandlerFactory.getCompleteFilePath config m.path)).toOption
  | _ => none

/-- The request of the store that reaches the location `k`. -/
def storeRequest (a : Arrival ι) : Option StoreRequest :=
  match matched T a with
  | some m =>
    if m.location = k then
      match parsedAt H m with
      | some (e, id) =>
        match entityOf R e, callOf a.request.method id with
        | some x, some call => some ⟨x, call, a.request.version, a.request.body⟩
        | _, _ => none
      | none => none
    else none
  | none => none

/-- The traffic around the location `k`: its own requests meet no faults and create entities
directly below the root; other locations create theirs neither in the root nor above it. Requests
that create nothing are free. -/
structure Admitted (a : Arrival ι) : Prop where
  clean : ∀ f, a.IsCrud T k f → a.faults = Faults.none
  own : ∀ e, a.Creates H T k e → ∃ x : EntityName, e = x.key R
  other : ∀ i e, i ≠ k → a.Creates H T i e →
    NoDotDot e ∧ ¬ R.loc H <:+ H.locOf e ∧ ¬ H.locOf e <:+ R.loc H

/-- The entities that may be in the map of a location. -/
def Allowed (i e : Str) : Prop :=
  if i = k then ∃ x : EntityName, e = x.key R
  else NoDotDot e ∧ ¬ R.loc H <:+ H.locOf e ∧ ¬ H.locOf e <:+ R.loc H

/-- The simulation: the location shows the objects of the store, and the maps hold nothing else
that could get in its way. -/
structure Holds (s : Process) (m : Objects EntityName Str) : Prop where
  represents : Represents H R (s.world.store k) m
  keyed : s.world.Keyed (Allowed H k R)

end Reading

section Spelling
variable {H : Host} {R : Root}

theorem key_eq (x : EntityName) : x.key R = joined '/' R.names ++ '/' :: x.name := by
  rw [EntityName.key, Entity.key, joined_snoc]
  simp [EntityName.entity, Entity.above]

theorem entityOf_key (x : EntityName) : entityOf R (x.key R) = some x := by
  have hname : (x.key R).drop ((joined '/' R.names).length + 1) = x.name := by
    rw [key_eq, ← List.drop_drop, List.drop_left, List.drop_one, List.tail_cons]
  unfold entityOf
  dsimp only
  rw [dif_pos (by rw [hname]; exact ⟨x.ordinary, x.notDigits⟩),
    if_pos (by rw [hname]; exact key_eq x)]
  exact congrArg some (EntityName.ext hname)

theorem key_of_entityOf {e : Str} {x : EntityName} (h : entityOf R e = some x) : e = x.key R := by
  unfold entityOf at h
  dsimp only at h
  split at h
  · split at h
    · rename_i heq
      obtain rfl := Option.some.inj h
      rw [key_eq]
      exact heq
    · exact absurd h (by simp)
  · exact absurd h (by simp)

theorem cwdLoc_suffix (H : Host) (R : Root) : H.cwdLoc <:+ R.loc H := ⟨R.names.reverse, rfl⟩

theorem loc_ne_cwdLoc (H : Host) (R : Root) : R.loc H ≠ H.cwdLoc := by
  intro h
  have hlen := congrArg List.length h
  simp [Root.loc, Root.names] at hlen
  omega

end Spelling

/-! ### Requests to the location -/

section Below
variable {H : Host} {R : Root} {f path : Str} {F : Faults} {req : Request} {s : Store Tree}

/-- A file path behind the root, as a dispatched request has it. -/
structure IsBelow (R : Root) (f : Str) : Prop where
  target : IsTarget f
  notNet : ¬ IsNet f
  first : (components f).take 1 = [R.first]

theorem isBelow_append (hne : path ≠ []) (hlast : path.getLast? ≠ some '/') :
    IsBelow R (joined '/' R.names ++ ['/'] ++ path) := by
  have hnames : ∀ n ∈ R.names, IsName n := R.ordinary
  have hspelled : joined '/' R.names ++ ['/'] ++ path =
      '/' :: R.first ++ (joined '/' R.rest ++ ['/'] ++ path) := by
    simp [Root.names]
  refine ⟨⟨by rw [hspelled]; rfl, by rwa [List.getLast?_append_of_ne_nil _ hne]⟩, ?_, ?_⟩
  · rintro ⟨r, hr, _⟩
    have hfirst := (hnames R.first List.mem_cons_self).1
    rw [hspelled] at hr
    cases hf : R.first with
    | nil => exact hfirst.1 hf
    | cons c n =>
      rw [hf] at hr hfirst
      simp only [List.cons_append, List.cons.injEq, true_and] at hr
      exact hfirst.2 (hr.1 ▸ List.mem_cons_self)
  · rw [List.append_assoc, List.singleton_append, components, segments_append,
      show segments '/' (joined '/' R.names) = R.names from components_joined hnames]
    rfl

variable (hf : IsBelow R f) (hroot : s.disk.isDir (R.loc H) = true)
include hf

theorem IsBelow.parsed_ne_nil {e : Str} {id : Int} (hp : parseTarget H f = .ok (e, id)) :
    e ≠ [] := by
  obtain ⟨d, k, n, hn, hd, heq⟩ := hf.target.exists_last
  rw [parseTarget_slashes H hf.notNet hn heq] at hp
  split at hp
  · split at hp
    · obtain rfl := (Prod.mk.inj (Except.ok.inj hp)).1
      rcases hf.target.parentPath_eq H hf.notNet hn hd heq with ⟨_, h⟩ | ⟨htarget, _, h⟩
      · rw [h]
        exact List.cons_ne_nil _ _
      · rw [h]
        exact htarget.ne_nil
    · exact absurd hp (by simp)
  · obtain rfl := (Prod.mk.inj (Except.ok.inj hp)).1
    exact hf.target.ne_nil

include hroot

/-- `InitRoot` finds its directory. -/
theorem IsBelow.initRoot_eq {e : Str} {id : Int} (hp : parseTarget H f = .ok (e, id)) :
    initRoot H (Disk.manager H F) f req s .fresh = ⟨.ok .ok, s, started req⟩ := by
  obtain ⟨root, hloop, hfirst⟩ :=
    rootLoop_of_isTarget H _ hf.target hf.notNet (Nat.lt_succ_self _)
  rw [hf.first] at hfirst
  have hname : IsName R.first := R.ordinary R.first List.mem_cons_self
  have hplain : NoDotDot root := by
    rw [NoDotDot, hfirst, List.mem_singleton]
    exact Ne.symm hname.2.2
  have hdir : s.disk.isDir (H.locOf root) = true := by
    refine isDir_of_suffix hroot ?_
    rw [Host.locOf, lexical_steps, hfirst, List.map_singleton, toStep_of_isName hname]
    exact ⟨R.rest.reverse, by simp [Step.apply, Root.loc, Root.names]⟩
  have hcreate : Disk.createDir F (H.fromCwd root) s.disk = (true, s.disk) := by
    rw [createDir_entity H F hplain, makeDirAt, if_pos hdir]
  simp only [initRoot, hp, if_neg (hf.parsed_ne_nil hp), hloop, Disk.manager, hcreate]
  rfl

theorem IsBelow.serve_parsed (F : Faults) (req : Request) {e : Str} {id : Int}
    (hp : parseTarget H f = .ok (e, id)) :
    serve H (Disk.manager H F) f req s =
      seen (handleMethod H (Disk.manager H F) f req s (started req)) := by
  simp only [serve, CrudHandler.handleRequest, hf.initRoot_eq hroot hp]
  rfl

omit hf hroot in
theorem serve_of_error {x : Abort} (hp : parseTarget H f = .error x) :
    serve H (Disk.manager H F) f req s = (.error x, s) := by
  simp only [serve, CrudHandler.handleRequest, initRoot, hp]
  rfl

end Below

/-! ### Requests to the other locations -/

section Others
variable {H : Host} {R : Root} {k i : Str} {w w' : World Str} {m : Objects EntityName Str}

theorem noDotDot_of_allowed {e : Str} (h : Allowed H k R i e) : NoDotDot e := by
  unfold Allowed at h
  split at h
  · obtain ⟨x, rfl⟩ := h
    exact Entity.noDotDot_key _
  · exact h.1

/-- Nothing moves at and below the root. -/
theorem World.Effect.frame (h : w.Effect H (Allowed H k R) i w') (hi : i ≠ k)
    (hroot : w.disk.isDir (R.loc H) = true) {l : Loc} (hl : R.loc H <:+ l) :
    w'.disk.node l = w.disk.node l := by
  obtain ⟨t, s, ht, hs, rfl⟩ := h
  have hmade : t.node l = w.disk.node l :=
    ht.frame hroot (cwdLoc_suffix H R) (loc_ne_cwdLoc H R) hl
  rw [setStore_disk]
  rcases hs with rfl | ⟨e, he, hchange⟩
  · exact hmade
  · rw [Allowed, if_neg hi] at he
    obtain ⟨_, hin, habove⟩ := he
    refine (hchange.node_other (fun hle => hin (hl.trans hle)) fun id _ heq => ?_).trans hmade
    rw [heq] at hl
    rcases List.suffix_cons_iff.mp hl with hself | hl
    · exact habove (hself ▸ List.suffix_cons _ _)
    · exact hin hl

theorem World.Effect.ids_other (h : w.Effect H (Allowed H k R) i w') (hi : i ≠ k) :
    w'.ids k = w.ids k := by
  obtain ⟨t, s, _, _, rfl⟩ := h
  rw [setStore_ids, if_neg (Ne.symm hi)]

/-- A request to another location leaves the objects as they are. -/
theorem Represents.of_effect (hs : Represents H R (w.store k) m)
    (h : w.Effect H (Allowed H k R) i w') (hi : i ≠ k) : Represents H R (w'.store k) m := by
  have hframe {l : Loc} (hl : R.loc H <:+ l) : w'.disk.node l = w.disk.node l :=
    h.frame hi hs.root hl
  have hroot : w'.disk.isDir (R.loc H) = true :=
    (isDir_congr (hframe List.suffix_rfl)).trans hs.root
  refine ⟨hroot, fun x => (hs.cells x).of_sameView ⟨?_, ?_, fun n => ?_, fun l hl => ?_⟩⟩
  · exact congrFun (h.ids_other hi).symm _
  · rw [EntityName.locOf_key]
    exact (hframe (List.suffix_cons _ _)).symm
  · rw [EntityName.locOf_key]
    exact (hframe ((List.suffix_cons _ _).trans (List.suffix_cons _ _))).symm
  · rw [EntityName.locOf_key] at hl
    rcases List.suffix_cons_iff.mp hl with rfl | hl
    · exact (isFile_congr (hframe (List.suffix_cons _ _))).symm
    · exact (not_isFile_of_suffix hs.root hl).trans (not_isFile_of_suffix hroot hl).symm

end Others

/-! ### The simulation -/

section Own
variable {ι : Type u} {H : Host} {toText : ParsedRequest → Str} {T : HandlerFactories}
  {k f : Str} {R : Root} {a : Arrival ι} {s : Process} {m : Objects EntityName Str}

/-- What a CRUD request answers and leaves. -/
theorem Process.answer_of_isCrud (H : Host) (toText : ParsedRequest → Str) (s : Process)
    {i : Str} (h : a.IsCrud T i f) :
    s.answer H toText T a =
        (serve H (Disk.manager H a.faults) f a.request.toRequest (s.world.store i)).1 ∧
      (s.respond H toText T a).2 = s.world.setStore i
        (serve H (Disk.manager H a.faults) f a.request.toRequest (s.world.store i)).2 := by
  rw [answer, respond_of_isCrud H toText s h]
  refine ⟨?_, rfl⟩
  dsimp only [serve, Outcome.answer]
  cases (CrudHandler.handleRequest H (Disk.manager H a.faults) f a.request.toRequest
    (s.world.store i) .fresh).status <;> rfl

theorem isBelow_of_isCrud (hk : IsCrudRoot T k R) (h : a.IsCrud T k f) : IsBelow R f := by
  obtain ⟨hit, config, hm, hcrud, hloc, rfl⟩ := h
  obtain ⟨config', hfind, hroot⟩ := hk
  have hroute := (route_of_matched hm).1
  have hfactory := (route_some hroute).1
  rw [hloc, hfind, hcrud] at hfactory
  obtain rfl := HandlerFactory.crudHandler.inj (Option.some.inj hfactory)
  obtain ⟨hne, hlast⟩ := route_path hroute (by rw [hcrud]; simp)
  rw [FileHandlerFactory.getCompleteFilePath, hroot]
  exact isBelow_append hne hlast

/-- A request to the location, read. -/
theorem storeRequest_of_isCrud (h : a.IsCrud T k f) :
    storeRequest H T k R a =
      match parseTarget H f with
      | .error _ => none
      | .ok (e, id) =>
        match entityOf R e, callOf a.request.method id with
        | some x, some call => some ⟨x, call, a.request.version, a.request.body⟩
        | _, _ => none := by
  obtain ⟨hit, config, hm, hcrud, hloc, rfl⟩ := h
  rw [storeRequest, hm]
  dsimp only
  rw [if_pos hloc, parsedAt, hcrud]
  dsimp only
  cases parseTarget H (FileHandlerFactory.getCompleteFilePath config hit.path) <;> rfl

theorem isCrud_of_storeRequest {r : StoreRequest} (h : storeRequest H T k R a = some r) :
    ∃ f, a.IsCrud T k f := by
  unfold storeRequest at h
  split at h
  · rename_i hit hm
    split at h
    · rename_i hloc
      cases hcrud : hit.factory with
      | crudHandler config => exact ⟨_, hit, config, hm, hcrud, hloc, rfl⟩
      | _ =>
        simp only [parsedAt, hcrud] at h
        exact absurd h (by simp)
    · exact absurd h (by simp)
  · exact absurd h (by simp)

theorem id_of_parsed {e : Str} {id : Int} (hp : parseTarget H f = .ok (e, id)) :
    id = -1 ∨ ∃ n : ℕ, id = n ∧ n ≤ intMax := by
  unfold parseTarget stoi at hp
  split at hp
  · split at hp
    · rename_i hs
      split at hs
      · exact absurd hs (by simp)
      · split at hs
        · rename_i hle
          obtain rfl := Except.ok.inj hs
          obtain rfl := (Prod.mk.inj (Except.ok.inj hp)).2
          exact Or.inr ⟨_, rfl, hle⟩
        · exact absurd hs (by simp)
    · exact absurd hp (by simp)
  · exact Or.inl (Prod.mk.inj (Except.ok.inj hp)).2.symm

theorem objectOf_natCast {n : ℕ} (hn : n ≤ intMax) :
    objectOf (n : Int) = some ⟨.ofNat n, by rw [IdText.value_ofNat]; exact hn⟩ := by
  rw [objectOf, dif_pos ⟨Int.natCast_nonneg n, by simpa using hn⟩]
  simp

/-- The branch of the handler for a request that the store takes, and for one that it does not:
listings and methods that are refused change nothing. -/
theorem op_of_callOf (req : Request) {e : Str} {id : Int} (hp : parseTarget H f = .ok (e, id)) :
    match callOf req.method id with
    | some call => call.verb = req.method ∧
        Op.of id req = Entity.opOf (call.object.map ObjectId.spelled) req
    | none => Op.of id req = .list ∨ Op.of id req = .refused := by
  rcases id_of_parsed hp with rfl | ⟨n, rfl, hn⟩
  · have hnone : objectOf (-1) = none := rfl
    rw [Op.of, if_pos rfl]
    cases hmethod : req.method <;>
      simp [callOf, hnone, Op.ofEntity, hmethod, StoreCall.verb, StoreCall.object, Entity.opOf]
  · have hne : (n : Int) ≠ -1 := by omega
    rw [Op.of, if_neg hne]
    cases hmethod : req.method <;>
      simp [callOf, objectOf_natCast hn, Op.ofObject, hmethod, StoreCall.verb, StoreCall.object,
        Entity.opOf, hn]

theorem store_setStore (w : World Str) (i : Str) (u : Store Tree) :
    (w.setStore i u).store i = u := by
  rw [World.store, World.setStore_disk, World.setStore_ids, if_pos rfl]

/-- A request that the store takes. -/
theorem Holds.taken (toText : ParsedRequest → Str) (hk : IsCrudRoot T k R)
    (ha : Admitted H T k R a) (hs : Holds H k R s m) {r : StoreRequest}
    (hr : storeRequest H T k R a = some r)
    (hmax : ∀ id : ℕ, (objectStore m r).1 = idAnswer id → id ≤ intMax) :
    s.answer H toText T a = (objectStore m r).1 ∧
      Represents H R ((s.respond H toText T a).2.store k) (objectStore m r).2 := by
  obtain ⟨f, hcrud⟩ := isCrud_of_storeRequest hr
  have hbelow := isBelow_of_isCrud hk hcrud
  have hfaults := ha.clean f hcrud
  obtain ⟨hanswer, hworld⟩ := Process.answer_of_isCrud H toText s hcrud
  rw [storeRequest_of_isCrud hcrud] at hr
  cases hp : parseTarget H f with
  | error x =>
    rw [hp] at hr
    exact absurd hr (by simp)
  | ok x =>
    obtain ⟨e, id⟩ := x
    rw [hp] at hr
    dsimp only at hr
    cases hx : entityOf R e with
    | none =>
      rw [hx] at hr
      exact absurd hr (by simp)
    | some x =>
      have hop := op_of_callOf a.request.toRequest hp
      cases hcall : callOf a.request.method id with
      | none =>
        rw [hx, hcall] at hr
        exact absurd hr (by simp)
      | some call =>
        rw [hx, hcall] at hr
        rw [hcall] at hop
        obtain rfl := Option.some.inj hr
        obtain rfl := key_of_entityOf hx
        obtain ⟨hverb, hop⟩ := hop
        have hrequest : (⟨x, call, a.request.version, a.request.body⟩ : StoreRequest).request =
            a.request.toRequest := by
          rw [StoreRequest.request, hverb]
        have hserve := hbelow.serve_parsed hs.represents.root Faults.none a.request.toRequest hp
        rw [seen_handleMethod H Faults.none hp (Entity.noDotDot_key _), hop] at hserve
        have hserver := hs.represents.server_eq ⟨x, call, a.request.version, a.request.body⟩
        rw [hrequest] at hserver
        obtain ⟨hsame, hnext⟩ := hs.represents.step _ hmax
        rw [hserver] at hsame hnext
        rw [hanswer, hworld, store_setStore, hfaults, hserve]
        exact ⟨hsame, hnext⟩

/-- A request to the location that the store does not take. -/
theorem Holds.passed (hk : IsCrudRoot T k R) (ha : Admitted H T k R a) (hs : Holds H k R s m)
    (hcrud : a.IsCrud T k f) (hr : storeRequest H T k R a = none) :
    (s.respond H toText T a).2.store k = s.world.store k := by
  have hbelow := isBelow_of_isCrud hk hcrud
  obtain ⟨_, hworld⟩ := Process.answer_of_isCrud H toText s hcrud
  rw [hworld, store_setStore]
  rw [storeRequest_of_isCrud hcrud] at hr
  cases hp : parseTarget H f with
  | error x => rw [serve_of_error hp]
  | ok x =>
    obtain ⟨e, id⟩ := x
    rw [hbelow.serve_parsed hs.represents.root _ _ hp]
    rw [hp] at hr
    dsimp only at hr
    cases hx : entityOf R e with
    | some x =>
      have hop := op_of_callOf a.request.toRequest hp
      cases hcall : callOf a.request.method id with
      | some call =>
        rw [hx, hcall] at hr
        exact absurd hr (by simp)
      | none =>
        rw [hcall] at hop
        obtain rfl := key_of_entityOf hx
        rw [seen_handleMethod H a.faults hp (Entity.noDotDot_key _)]
        rcases hop with hop | hop <;> rw [hop] <;> rfl
    | none =>
      -- an entity that is not directly below the root is in no map and is not created
      have hno (x : EntityName) : e ≠ x.key R := by
        rintro rfl
        rw [entityOf_key] at hx
        exact absurd hx (by simp)
      have hids : (s.world.store k).ids e = none := by
        by_contra hne
        have hallowed := hs.keyed k e hne
        rw [Allowed, if_pos rfl] at hallowed
        obtain ⟨x, hx⟩ := hallowed
        exact hno x hx
      rw [seen_store]
      apply handleMethod_of_none hp hids
      rintro hpost rfl
      obtain ⟨x, hx⟩ := ha.own e ⟨f, hcrud, hpost, hp⟩
      exact hno x hx

theorem allowed_of_creates (ha : Admitted H T k R a) (i e : Str) (h : a.Creates H T i e) :
    Allowed H k R i e := by
  unfold Allowed
  split
  · rename_i hi
    exact ha.own e (hi ▸ h)
  · rename_i hi
    exact ha.other i e hi h

/-- Any other request. -/
theorem Holds.next (hk : IsCrudRoot T k R) (ha : Admitted H T k R a) (hs : Holds H k R s m)
    (hr : storeRequest H T k R a = none) :
    Represents H R ((s.respond H toText T a).2.store k) m := by
  rcases answerRequest_effect toText (fun _ _ h => noDotDot_of_allowed h) (allowed_of_creates ha)
    hs.keyed with heq | ⟨i, f, hcrud, heffect⟩
  · rw [Process.respond, heq]
    exact hs.represents
  · by_cases hi : i = k
    · subst hi
      rw [hs.passed hk ha hcrud hr]
      exact hs.represents
    · exact hs.represents.of_effect heffect hi

theorem Holds.keyed_next (ha : Admitted H T k R a) (hs : Holds H k R s m) :
    (s.respond H toText T a).2.Keyed (Allowed H k R) := by
  rcases answerRequest_effect toText (fun _ _ h => noDotDot_of_allowed h) (allowed_of_creates ha)
    hs.keyed with heq | ⟨i, f, _, heffect⟩
  · rw [Process.respond, heq]
    exact hs.keyed
  · exact heffect.keyed hs.keyed

theorem holds_boot {t : Tree} (hroot : t.node (R.loc H) = some (.dir [])) :
    Holds H k R (Process.boot t) ∅ :=
  ⟨represents_empty hroot, World.keyed_initial t⟩

/-- The process follows the store in what reaches the location. -/
theorem follows_objectStore (H : Host) (toText : ParsedRequest → Str) (T : HandlerFactories)
    (hk : IsCrudRoot T k R) :
    Projections.Follows (Process.step H toText T (ι := ι)) (Process.answer H toText T) objectStore
      (storeRequest H T k R) (Holds H k R) (Admitted H T k R)
      fun b => ∀ id : ℕ, b = idAnswer id → id ≤ intMax where
  taken s m a r s' ha hs hr hstep hmax := by
    obtain ⟨hanswer, hnext⟩ := hs.taken toText hk ha hr hmax
    have hworld := (Process.step_eq_some hstep).2
    refine ⟨hanswer, ?_, ?_⟩
    · rw [hworld]
      exact hnext
    · rw [hworld]
      exact hs.keyed_next ha
  passed s m a s' ha hs hr hstep := by
    have hworld := (Process.step_eq_some hstep).2
    refine ⟨?_, ?_⟩
    · rw [hworld]
      exact hs.next hk ha hr
    · rw [hworld]
      exact hs.keyed_next ha

/-- Whatever else the process serves, the requests that reach a CRUD location are answered as the
store answers them, and the location then shows the objects of the store. -/
theorem process_eq_objectStore (H : Host) (toText : ParsedRequest → Str) (T : HandlerFactories)
    (k : Str) (R : Root) (hk : IsCrudRoot T k R) (t : Tree)
    (hroot : t.node (R.loc H) = some (.dir [])) (as : List (Arrival ι)) (s : Process)
    (has : ∀ a ∈ as, Admitted H T k R a)
    (hrun : Traces.after (Process.step H toText T) (Process.boot t) as = some s)
    (hmax : ∀ id : ℕ, idAnswer id ∈ Runs.outputs objectStore ∅
      (as.filterMap (storeRequest H T k R)) → id ≤ intMax) :
    Traces.log (Process.step H toText T)
        (Projections.seenBy (storeRequest H T k R) (Process.answer H toText T)) (Process.boot t) as =
      Runs.outputs objectStore ∅ (as.filterMap (storeRequest H T k R)) ∧
    Represents H R (s.world.store k)
      (Runs.final objectStore ∅ (as.filterMap (storeRequest H T k R))) := by
  obtain ⟨hlog, hholds⟩ := (follows_objectStore H toText T hk).run (holds_boot hroot) has hrun
    (by rintro b hb id rfl; exact hmax id hb)
  exact ⟨hlog, hholds.represents⟩

namespace Demo

/-- An object is created, a static location is asked for it, and it is read. -/
def traffic : List (Arrival Unit) :=
  [posting, arrival .get "/pub/x/1".toList [], arrival .get "/api/x/1".toList []]

def oneId : ObjectId := ⟨.ofNat 1, by decide⟩

theorem isCrudRoot_shared : IsCrudRoot shared "/api".toList root :=
  ⟨crudConfig, rfl, by decide⟩

theorem storeRequest_traffic : traffic.filterMap (storeRequest host shared "/api".toList root) =
    [postTo x "a".toList, getOf x oneId] := by
  have hpost : storeRequest host shared "/api".toList root posting =
      some (postTo x "a".toList) := rfl
  have hread : storeRequest host shared "/api".toList root
      (arrival .get "/pub/x/1".toList []) = none := rfl
  have hget : storeRequest host shared "/api".toList root
      (arrival .get "/api/x/1".toList []) = some (getOf x oneId) := rfl
  rw [traffic, List.filterMap_cons_some hpost, List.filterMap_cons_none hread,
    List.filterMap_cons_some hget, List.filterMap_nil]

theorem admitted_traffic (a : Arrival Unit) (ha : a ∈ traffic) :
    Admitted host shared "/api".toList root a := by
  have hcreates {i e : Str} (h : a.Creates host shared i e) :
      i = "/api".toList ∧ e = x.key root := by
    rcases List.mem_cons.mp ha with rfl | ha
    · exact creates_posting h
    · obtain ⟨f, _, hpost, _⟩ := h
      rcases List.mem_pair.mp ha with rfl | rfl <;> exact absurd hpost (by decide)
  refine ⟨fun f _ => ?_, fun e he => ⟨x, (hcreates he).2⟩,
    fun i e hi he => absurd (hcreates he).1 hi⟩
  simp only [traffic, posting, List.mem_cons, List.not_mem_nil, or_false] at ha
  rcases ha with rfl | rfl | rfl <;> rfl

theorem outputs_traffic : Runs.outputs objectStore ∅
    (traffic.filterMap (storeRequest host shared "/api".toList root)) =
      [idAnswer (1 : ℕ), .ok (.ok, "a".toList)] := by
  have hpost : objectStore ∅ (postTo x "a".toList) =
      (idAnswer (1 : ℕ), Finmap.insert (x, 1) "a".toList ∅) := by
    simp only [objectStore, postTo, leastFree_empty]
  have hget : (objectStore (Finmap.insert (x, 1) "a".toList ∅) (getOf x oneId)).1 =
      .ok (.ok, "a".toList) := by
    have hlookup : (Finmap.insert (x, 1) "a".toList
        (∅ : Objects EntityName Str)).lookup (x, (IdText.ofNat 1).value) = some "a".toList := by
      rw [IdText.value_ofNat]
      exact Finmap.lookup_insert _
    simp only [objectStore, getOf, oneId, ObjectId.value, hlookup]
  rw [storeRequest_traffic, Runs.outputs_cons, Runs.outputs_cons, hpost, hget, Runs.outputs_nil]

theorem small_traffic (id : ℕ) (h : idAnswer id ∈ Runs.outputs objectStore ∅
    (traffic.filterMap (storeRequest host shared "/api".toList root))) : id ≤ intMax := by
  rw [outputs_traffic] at h
  rcases List.mem_pair.mp h with h | h
  · rw [Int.natCast_inj.mp (idAnswer_injective h)]
    decide
  · exact absurd (List.cons.inj (Prod.mk.inj (Except.ok.inj h)).2).1 (by decide)

theorem exists_after_traffic : ∃ s,
    Traces.after (Process.step host ParsedRequest.target shared) (Process.boot disk) traffic =
      some s :=
  Option.isSome_iff_exists.mp (by decide +kernel)

end Demo

theorem process_eq_objectStore_traffic : ∃ s : Process,
    Traces.log (Process.step Demo.host ParsedRequest.target Demo.shared)
        (Projections.seenBy (storeRequest Demo.host Demo.shared "/api".toList Demo.root)
          (Process.answer Demo.host ParsedRequest.target Demo.shared))
        (Process.boot Demo.disk) Demo.traffic =
      Runs.outputs objectStore ∅ (Demo.traffic.filterMap
        (storeRequest Demo.host Demo.shared "/api".toList Demo.root)) ∧
    Represents Demo.host Demo.root (s.world.store "/api".toList)
      (Runs.final objectStore ∅ (Demo.traffic.filterMap
        (storeRequest Demo.host Demo.shared "/api".toList Demo.root))) := by
  obtain ⟨s, hs⟩ := Demo.exists_after_traffic
  exact ⟨s, process_eq_objectStore Demo.host ParsedRequest.target Demo.shared "/api".toList
    Demo.root Demo.isCrudRoot_shared Demo.disk Demo.root_empty Demo.traffic s
    Demo.admitted_traffic hs Demo.small_traffic⟩

end Own

end Webserver
