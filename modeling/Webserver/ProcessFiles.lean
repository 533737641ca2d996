import Webserver.ProcessEffects

/-!
# Which requests change a file

Requests that only read leave every file and every map as they are. A file changes only as an
object of an entity that some request has created, so that a static location goes on answering
with the content that the disk had when the process started.
-/

set_option autoImplicit false

namespace Webserver

open FileTree FileTree.Tree CrudHandler RequestDispatcher

universe u

section Reads
variable {ι : Type u} {H : Host} {toText : ParsedRequest → Str} {T : HandlerFactories}

/-- What a state keeps when it is only read: the maps, the files and the directories. -/
structure World.Keeps (w w' : World Str) : Prop where
  ids : ∀ i e, w'.ids i e = w.ids i e
  files : ∀ k c, w'.disk.node k = some (.file c) ↔ w.disk.node k = some (.file c)
  dirs : ∀ k, w.disk.isDir k = true → w'.disk.isDir k = true

theorem World.Keeps.refl (w : World Str) : w.Keeps w :=
  ⟨fun _ _ => rfl, fun _ _ => Iff.rfl, fun _ h => h⟩

theorem World.Keeps.trans {w w' w'' : World Str} (h : w.Keeps w') (h' : w'.Keeps w'') :
    w.Keeps w'' :=
  ⟨fun i e => (h'.ids i e).trans (h.ids i e), fun k c => (h'.files k c).trans (h.files k c),
    fun k hk => h'.dirs k (h.dirs k hk)⟩

theorem World.keeps_of_madeTop {w : World Str} {t : Tree} (ht : MadeTop H w.disk t) (i : Str) :
    w.Keeps (w.setStore i ⟨t, w.ids i⟩) := by
  refine ⟨fun j e => ?_, fun k c => ht.file_iff, fun k hk => ht.isDir hk⟩
  rw [setStore_ids]
  split
  · rename_i hj
    rw [hj]
  · rfl

theorem handleGet_store {F : Faults} {f : Str} (s : Store Tree) (res : Response) :
    (handleGet H (Disk.manager H F) f s res).store = s := by
  unfold handleGet
  cases parseTarget H f with
  | error a => rfl
  | ok x =>
    dsimp only
    split
    · split
      · rfl
      · dsimp only [readObject, Disk.manager]
        rcases Disk.readFile F (H.objectPath x.1 x.2) res s.disk with ⟨_ | _, res'⟩ <;> rfl
    · split
      · rfl
      · dsimp only [listEntity, Disk.manager]
        rcases Disk.listFiles H (H.fromCwd x.1) s.disk with ⟨_ | _, files⟩ <;> rfl

theorem get_keeps {a : Arrival ι} (hget : a.request.method = .get) (w : World Str) :
    w.Keeps (answerRequest H toText T a w .fresh).2 := by
  cases hm : matched T a with
  | none =>
    rw [answerRequest_of_not_matched hm]
    exact .refl w
  | some m =>
    rw [answerRequest_of_matched hm]
    by_cases hcrud : ∃ config, m.factory = .crudHandler config
    swap
    · rw [handle_world fun config h => hcrud ⟨config, h⟩]
      exact .refl w
    obtain ⟨config, hcrud⟩ := hcrud
    have hended := ended_of_isCrud ⟨m, config, hm, hcrud, rfl, rfl⟩
    obtain ⟨t, ht, hstore⟩ := initRoot_madeTop (H := H) (F := a.faults)
      a.request.toRequest (w.store m.location) hended
    have hfinal : (CrudHandler.handleRequest H (Disk.manager H a.faults)
        (FileHandlerFactory.getCompleteFilePath config m.path) a.request.toRequest
        (w.store m.location) .fresh).store = ⟨t, w.ids m.location⟩ := by
      rw [CrudHandler.handleRequest]
      split
      · rw [finish_store, handleMethod, hget, handleGet_store, hstore]
        rfl
      · rw [finish_store, hstore]
        rfl
    rw [Match.handle, hcrud]
    dsimp only
    rw [hfinal]
    exact World.keeps_of_madeTop ht m.location

/-- Requests that only read, to any targets and with any faults, change no file and no map, in
whatever state they find the process. -/
theorem reads_keep (H : Host) (toText : ParsedRequest → Str) (T : HandlerFactories)
    (s s' : Process) (as : List (Arrival ι)) (hget : ∀ a ∈ as, a.request.method = .get)
    (hrun : Traces.after (Process.step H toText T) s as = some s') : s.world.Keeps s'.world := by
  refine Traces.after_kept (I := fun p => s.world.Keeps p.world)
    (fun p a p' ha hp hstep => ?_) (.refl s.world) hget hrun
  rw [(Process.step_eq_some hstep).2]
  exact hp.trans (get_keeps ha p.world)

theorem reads_keep_published :
    (Process.boot Demo.disk).world.Keeps
      ((Process.boot Demo.disk).respond Demo.host ParsedRequest.target Demo.shared
        (Demo.arrival .get "/pub/x/1".toList [])).2 :=
  reads_keep Demo.host ParsedRequest.target Demo.shared (Process.boot Demo.disk) ⟨_, _⟩
    [Demo.arrival .get "/pub/x/1".toList []] (by simp [Demo.arrival]) rfl

end Reads

section Files
variable {H : Host} {l : Loc}

/-- No object of the entity is at this place of the disk. -/
def Away (H : Host) (l : Loc) (e : Str) : Prop :=
  NoDotDot e ∧ ∀ id, l ≠ Disk.objectLoc H e id

theorem World.Effect.file_iff {i : Str} {w w' : World Str}
    (h : w.Effect H (fun _ e => Away H l e) i w') {c : Str} :
    w'.disk.node l = some (.file c) ↔ w.disk.node l = some (.file c) := by
  obtain ⟨t, s, ht, hs, rfl⟩ := h
  rw [setStore_disk]
  rcases hs with rfl | ⟨e, he, hchange⟩
  · exact ht.file_iff
  · exact (hchange.file_other (fun id _ => he.2 id) c).trans ht.file_iff

/-- The whole run. -/
theorem file_kept {ι : Type u} {toText : ParsedRequest → Str} {T : HandlerFactories}
    {t : Tree} {as : List (Arrival ι)} {s : Process}
    (hnew : ∀ a ∈ as, ∀ i e, a.Creates H T i e → Away H l e)
    (hrun : Traces.after (Process.step H toText T) (Process.boot t) as = some s) (c : Str) :
    s.world.disk.node l = some (.file c) ↔ t.node l = some (.file c) := by
  have hinv : s.world.Keyed (fun _ e => Away H l e) ∧
      (s.world.disk.node l = some (.file c) ↔ t.node l = some (.file c)) := by
    refine Traces.after_kept (I := fun p : Process => p.world.Keyed (fun _ e => Away H l e) ∧
      (p.world.disk.node l = some (.file c) ↔ t.node l = some (.file c)))
      (fun p a p' ha hp hstep => ?_) ⟨World.keyed_initial t, Iff.rfl⟩ hnew hrun
    rw [(Process.step_eq_some hstep).2]
    rcases answerRequest_effect toText (fun _ e he => he.1) ha hp.1 with
      heq | ⟨i, f, _, heffect⟩
    · rw [Process.respond, heq]
      exact hp
    · exact ⟨heffect.keyed hp.1, heffect.file_iff.trans hp.2⟩
  exact hinv.2

theorem fileContent_congr {t t' : Tree} {p : Str} (hp : NoDotDot p)
    (h : ∀ c, t.node (lexical [] (steps p)) = some (.file c) ↔
      t'.node (lexical [] (steps p)) = some (.file c)) :
    StaticHandler.fileContent t p = StaticHandler.fileContent t' p := by
  apply Option.ext
  intro c
  rw [StaticHandler.fileContent_eq_some, StaticHandler.fileContent_eq_some,
    lookup_eq_file_iff hp.noUp, lookup_eq_file_iff hp.noUp, h]

/-- The static handler sees of the disk the content of its file. -/
theorem handleRequest_congr {t t' : Tree} {F : Faults} {f : Str} {req : Request} {res : Response}
    (h : StaticHandler.fileContent t (H.fromCwd f) = StaticHandler.fileContent t' (H.fromCwd f)) :
    StaticHandler.handleRequest H F t f req res = StaticHandler.handleRequest H F t' f req res := by
  have hheaders : StaticHandler.setHeaders H t (H.fromCwd f) req res =
      StaticHandler.setHeaders H t' (H.fromCwd f) req res := by
    unfold StaticHandler.setHeaders StaticHandler.fileSize
    rw [StaticHandler.isRegularFile_eq, StaticHandler.isRegularFile_eq, h]
  have hstream : StaticHandler.openStream F t (H.fromCwd f) =
      StaticHandler.openStream F t' (H.fromCwd f) := by
    unfold StaticHandler.openStream
    rw [h]
  unfold StaticHandler.handleRequest
  dsimp only
  rw [hheaders, hstream]

/-- A static location answers for a file, at a path without `..`, as the disk has it at the start,
after any run in which no entity is created whose objects could be that file or whose path has
a `..`. -/
theorem static_constant {ι : Type u} (H : Host) (toText : ParsedRequest → Str)
    (T : HandlerFactories) (t : Tree) (as : List (Arrival ι)) (s : Process)
    (hrun : Traces.after (Process.step H toText T) (Process.boot t) as = some s)
    (a : Arrival ι) (m : Match) (config : NginxConfig) (hm : matched T a = some m)
    (hstatic : m.factory = .staticHandler config)
    (hplain : NoDotDot (FileHandlerFactory.getCompleteFilePath config m.path))
    (hnew : ∀ b ∈ as, ∀ i e, b.Creates H T i e →
      Away H (H.locOf (FileHandlerFactory.getCompleteFilePath config m.path)) e) :
    (s.respond H toText T a).1 = ((Process.boot t).respond H toText T a).1 := by
  have hfile (c : Str) := file_kept hnew hrun c
  rw [Process.respond, Process.respond, answerRequest_of_matched hm, answerRequest_of_matched hm,
    Match.handle, Match.handle, hstatic]
  dsimp only
  rw [handleRequest_congr (fileContent_congr (H.noDotDot_fromCwd hplain) fun c => ?_)]
  rw [H.lexical_fromCwd]
  exact hfile c

namespace Demo

def posting : Arrival Unit := arrival .post "/api/x".toList "a".toList

theorem creates_posting {i e : Str} (h : posting.Creates host shared i e) :
    i = "/api".toList ∧ e = x.key root := by
  obtain ⟨f, ⟨m, config, hm, hcrud, rfl, rfl⟩, _, hp⟩ := h
  have hmatched : matched shared posting =
      some ⟨"/api".toList, .crudHandler crudConfig, "x".toList⟩ := rfl
  obtain rfl := Option.some.inj (hm.symm.trans hmatched)
  obtain rfl := HandlerFactory.crudHandler.inj hcrud
  have hparsed : parseTarget host
      (FileHandlerFactory.getCompleteFilePath crudConfig "x".toList) = .ok (x.key root, -1) := by
    decide +kernel
  exact ⟨rfl, (Prod.mk.inj (Except.ok.inj (hp.symm.trans hparsed))).1⟩

end Demo

theorem static_constant_note :
    (Process.respond Demo.host ParsedRequest.target Demo.shared
        ⟨((Process.boot Demo.disk).respond Demo.host ParsedRequest.target Demo.shared
          Demo.posting).2, Process.survives ((Process.boot Demo.disk).respond Demo.host
            ParsedRequest.target Demo.shared Demo.posting).1⟩
        (Demo.arrival .get "/pub/note".toList [])).1 =
      ((Process.boot Demo.disk).respond Demo.host ParsedRequest.target Demo.shared
        (Demo.arrival .get "/pub/note".toList [])).1 := by
  refine static_constant Demo.host ParsedRequest.target Demo.shared Demo.disk [Demo.posting] _ rfl _
    ⟨"/pub".toList, .staticHandler Demo.crudConfig, "note".toList⟩ Demo.crudConfig rfl rfl
    (by decide +kernel) fun b hb i e he => ?_
  obtain rfl := List.mem_singleton.mp hb
  obtain ⟨_, rfl⟩ := Demo.creates_posting he
  refine ⟨Entity.noDotDot_key _, fun id heq => ?_⟩
  have hlen := congrArg List.length heq
  rw [Disk.objectLoc, List.length_cons, EntityName.locOf_key] at hlen
  revert hlen
  decide +kernel

end Files

end Webserver
