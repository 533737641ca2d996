import Webserver.CrudRoots
import Webserver.Library.Linearizability

/-!
# Concurrent requests

Requests to any CRUD locations over one disk, whose steps come in any order: `InitRoot`, the
critical sections, and for GET the lookup in the map and the access to the disk, between which
other requests run.
-/

set_option autoImplicit false

namespace Webserver

open FileTree FileTree.Tree CrudHandler Linearizability

universe u

/-- A request that is dispatched to a CRUD location. -/
structure Call (ι : Type u) where
  location : ι
  filePath : Str
  request : Request

/-- The sequential server: a handler runs from its creation to its end, on a disk without
faults. -/
def World.serve {ι : Type u} [DecidableEq ι] (H : Host) (w : World ι) (r : Call ι) :
    Answer × World ι :=
  let o := CrudHandler.serve H (Disk.manager H Faults.none) r.filePath r.request
    (w.store r.location)
  (o.1, w.setStore r.location o.2)

/-- Where the handler of a request stands. -/
inductive Phase where
  | arriving
  | entered (res : Response)
  /-- GET has found its id or its key in the map. -/
  | found (res : Response)
  | done

structure Concurrent (ι : Type u) where
  world : World ι
  phase : ℕ → Phase
  history : List (Event ℕ Answer)

namespace Concurrent
variable {ι : Type u} [DecidableEq ι]

def initial (t : Tree) : Concurrent ι := ⟨World.initial t, fun _ => .arriving, []⟩

def invoke (c : Concurrent ι) (i : ℕ) : Concurrent ι :=
  { c with history := c.history ++ [.invoked i] }

def goto (c : Concurrent ι) (i : ℕ) (p : Phase) : Concurrent ι :=
  { c with phase := Function.update c.phase i p }

/-- A request that throws, or never comes back, is not answered. -/
def reply (i : ℕ) : Answer → List (Event ℕ Answer)
  | .ok x => [.answered i (.ok x)]
  | .error _ => []

/-- The handler is at its end. -/
def finish (c : Concurrent ι) (i : ℕ) (location : ι) (o : Outcome Tree) : Concurrent ι where
  world := c.world.setStore location o.store
  phase := Function.update c.phase i .done
  history := c.history ++ reply i (seen o).1

/-- The next step of request `i`, if it has one. -/
def step (H : Host) (requests : ℕ → Call ι) (c : Concurrent ι) (i : ℕ) : Concurrent ι :=
  let M := Disk.manager H Faults.none
  let r := requests i
  let s := c.world.store r.location
  match c.phase i with
  | .arriving =>
    let o := initRoot H M r.filePath r.request s .fresh
    if o.status = .ok .ok then
      { (c.invoke i).goto i (.entered o.res) with world := c.world.setStore r.location o.store }
    else (c.invoke i).finish i r.location o
  | .entered res =>
    match r.request.method with
    | .get =>
      match getLookup H r.filePath s res with
      | some o => c.finish i r.location o
      | none => c.goto i (.found res)
    | _ => c.finish i r.location (handleMethod H M r.filePath r.request s res)
  | .found res => c.finish i r.location (getAccess H M r.filePath s res)
  | .done => c

/-- A whole schedule. -/
def run (H : Host) (requests : ℕ → Call ι) (c : Concurrent ι) (is : List ℕ) : Concurrent ι :=
  is.foldl (step H requests) c

/-- What a GET relies on when it turns to the disk: its object is still live, or its directory
still there. -/
def clean (H : Host) (requests : ℕ → Call ι) (c : Concurrent ι) (i : ℕ) : Bool :=
  match c.phase i, parseTarget H (requests i).filePath with
  | .found _, .ok (e, id) =>
    if id = -1 then c.world.disk.isDir (H.locOf e)
    else (c.world.ids (requests i).location).has e id
  | _, _ => true

/-- Every step of a schedule is clean when it is taken. -/
def allClean (H : Host) (requests : ℕ → Call ι) : Concurrent ι → List ℕ → Bool
  | _, [] => true
  | c, i :: is => clean H requests c i && allClean H requests (step H requests c i) is

/-- No file stands where `InitRoot` makes directories. -/
def RootsFree (H : Host) (t : Tree) (requests : ℕ → Call ι) : Prop :=
  ∀ i root, rootLoop H ((requests i).filePath.length + 1) (requests i).filePath = some root →
    ∀ k, k <:+ H.locOf root → t.isFile k = false

/-- The requests are answered as in some sequential order, and on a healthy disk no GET answers
500. -/
def Atomic (H : Host) (t : Tree) (requests : ℕ → Call ι) (is : List ℕ) : Prop :=
  Linearizable (World.serve H) (World.initial t) requests
      (run H requests (initial t) is).history ∧
    (RootsFree H t requests →
      ∀ i body, Event.answered i (.ok (.internalServerError, body)) ∈
        (run H requests (initial t) is).history → (requests i).request.method ≠ .get)

end Concurrent

/-! ### The parts of a request -/

/-- `InitRoot` has let a request through; `t` is the disk at the start. -/
structure Entered {ι : Type u} (H : Host) (t : Tree) (r : Call ι) (e : Str) (id : Int)
    (root : Str) : Prop where
  parse : parseTarget H r.filePath = .ok (e, id)
  entity : e ≠ []
  loop : rootLoop H (r.filePath.length + 1) r.filePath = some root
  free : ∀ k, k <:+ H.locOf root → t.isFile k = false

section Parts
variable {H : Host} {p : Str}

/-- `InitRoot` where there is a directory to make. -/
theorem initRoot_of_loop (hp : Proper p) {e root : Str} {id : Int}
    (hparse : parseTarget H p = .ok (e, id)) (he : e ≠ [])
    (hloop : rootLoop H (p.length + 1) p = some root) (req : Request) (s : Store Tree) :
    initRoot H (Disk.manager H Faults.none) p req s .fresh =
      ⟨if (s.disk.mkdirs (H.locOf root)).2 then .ok .ok else .ok .internalServerError,
        ⟨(s.disk.mkdirs (H.locOf root)).1, s.ids⟩, started req⟩ := by
  simp only [initRoot, hparse, if_neg he, hloop, Disk.manager,
    createDir_entity H Faults.none (hp.locOf_root hloop).1, makeDirAt_none]
  cases (s.disk.mkdirs (H.locOf root)).2 <;> rfl

/-- `InitRoot` makes its directory, or the request ends there without a change, in the same way
on all disks with these files. -/
theorem initRoot_ends (hp : Proper p) (req : Request) (s : Store Tree) :
    (∃ e id root, parseTarget H p = .ok (e, id) ∧ e ≠ [] ∧
      rootLoop H (p.length + 1) p = some root ∧
      (∀ k, k <:+ H.locOf root → s.disk.isFile k = false) ∧
      initRoot H (Disk.manager H Faults.none) p req s .fresh =
        ⟨.ok .ok, ⟨(s.disk.mkdirs (H.locOf root)).1, s.ids⟩, started req⟩) ∨
    ∃ status, status ≠ .ok .ok ∧
      (status = .ok .internalServerError → ∃ root, rootLoop H (p.length + 1) p = some root ∧
        ∃ k, k <:+ H.locOf root ∧ s.disk.isFile k = true) ∧
      ∀ s' : Store Tree, Alike H s s' → initRoot H (Disk.manager H Faults.none) p req s' .fresh =
        ⟨status, s', started req⟩ := by
  cases hparse : parseTarget H p with
  | error a => exact Or.inr ⟨.error a, by simp, by simp, fun s' _ => by rw [initRoot, hparse]; rfl⟩
  | ok x =>
    obtain ⟨e, id⟩ := x
    by_cases he : e = []
    · refine Or.inr ⟨.ok .badRequest, by simp, by simp, fun s' _ => ?_⟩
      simp only [initRoot, hparse, if_pos he]
      rfl
    · cases hloop : rootLoop H (p.length + 1) p with
      | none =>
        refine Or.inr ⟨.error .diverges, by simp, by simp, fun s' _ => ?_⟩
        simp only [initRoot, hparse, if_neg he, hloop]
        rfl
      | some root =>
        have hinit := initRoot_of_loop hp hparse he hloop req
        cases hok : (s.disk.mkdirs (H.locOf root)).2 with
        | true =>
          refine Or.inl ⟨e, id, root, rfl, he, rfl, mkdirs_ok_iff.mp hok, ?_⟩
          rw [hinit, hok, if_pos rfl]
        | false =>
          refine Or.inr ⟨.ok .internalServerError, by simp,
            fun _ => ⟨root, rfl, exists_isFile_of_failed hok⟩, fun s' hs' => ?_⟩
          have hok' := (hs'.disk.mkdirs_ok (H.locOf root)).symm.trans hok
          rw [hinit, hok', if_neg Bool.false_ne_true, mkdirs_of_failed hok']

theorem handleMethod_get {req : Request} (hget : req.method = .get)
    (M : CrudFileSystemManager Tree) (s : Store Tree) (res : Response) :
    handleMethod H M p req s res =
      (getLookup H p s res).getD (getAccess H M p s res) := by
  rw [handleMethod, hget]
  exact handleGet_eq H M p s res

theorem Op.eq_list {id : Int} {req : Request} (h : Op.of id req = .list) :
    id = -1 ∧ req.method = .get := by
  unfold Op.of Op.ofEntity Op.ofObject at h
  split at h
  · rename_i hid
    refine ⟨hid, ?_⟩
    cases hmethod : req.method <;> simp [hmethod] at h
    rfl
  · cases hmethod : req.method <;> simp [hmethod] at h

/-- The answer to a status without a body. -/
theorem seen_status (status : Except Abort StatusCode) (s s' : Store Tree) (res : Response) :
    (seen ⟨status, s, res⟩).1 = (seen ⟨status, s', res⟩).1 := by
  cases status with
  | error a => rfl
  | ok status => cases status <;> rfl

theorem status_of_seen {status : Except Abort StatusCode} {s : Store Tree} {res : Response}
    {code : StatusCode} {body : Str} (h : (seen ⟨status, s, res⟩).1 = .ok (code, body)) :
    status = .ok code := by
  cases status with
  | error a => exact absurd h (by simp [seen, CrudHandler.finish, Outcome.answer, Except.map])
  | ok status =>
    cases status <;> exact congrArg Except.ok (Prod.mk.inj (Except.ok.inj h)).1

theorem act_of_thrown {F : Faults} {e : Str} {op : Op} {s : Store Tree} {a : Abort}
    (h : (act H F e op s).1 = .error a) : (act H F e op s).2 = s := by
  cases op with
  | post body =>
    dsimp only [act] at h ⊢
    unfold postAt at h ⊢
    cases hnext : getNextID s.ids e with
    | error a => rfl
    | ok id =>
      rw [hnext] at h
      dsimp only at h
      rcases hm : makeDirAt H F e s.disk with ⟨_ | _, t⟩
      · rw [hm] at h
        exact absurd h (by simp [page])
      · simp only [hm] at h
        split at h <;> exact absurd h (by simp [page, idAnswer])
  | put id body =>
    dsimp only [act] at h
    unfold putAt at h
    repeat' split at h
    all_goals exact absurd h (by simp [page, idAnswer])
  | delete id =>
    dsimp only [act] at h
    unfold deleteAt at h
    repeat' split at h
    all_goals exact absurd h (by simp [page, idAnswer])
  | get id => rfl
  | list => rfl
  | refused => rfl
  | thrown a => rfl

end Parts

/-! ### The invariant -/

namespace World
variable {ι : Type u} {H : Host} {t : Tree} {w w' : World ι}

/-- What holds of the world in every state of a schedule from the disk `t`. -/
structure Kept (H : Host) (t : Tree) (w : World ι) : Prop where
  owned : w.Owned H
  keys : ∀ j e, w.ids j e ≠ none → H.rootDepth ≤ (H.locOf e).length
  files : ∀ k, k.length ≤ H.rootDepth → w.disk.isFile k = t.isFile k

theorem kept_initial (H : Host) (t : Tree) : (World.initial t : World ι).Kept H t :=
  ⟨owned_initial t, fun _ _ hkey => absurd rfl hkey, fun _ _ => rfl⟩

variable [DecidableEq ι]

theorem setStore_store (i j : ι) (s : Store Tree) :
    (w.setStore i s).store j = ⟨s.disk, if j = i then s.ids else w.ids j⟩ := by
  rw [store, setStore_ids]
  rfl

theorem setStore_self (i : ι) : w.setStore i (w.store i) = w := by
  rw [setStore, store, Function.update_eq_self]

/-- Every location has the same ids, and the disks agree below the root directories. -/
def AgreesWith (H : Host) (w w' : World ι) : Prop := ∀ j, Alike H (w.store j) (w'.store j)

namespace AgreesWith
variable (h : w.AgreesWith H w')
include h

omit [DecidableEq ι] in
theorem symm : w'.AgreesWith H w := fun j => (h j).symm

theorem setStore {i : ι} {s s' : Store Tree} (hs : Alike H s s') :
    (w.setStore i s).AgreesWith H (w'.setStore i s') := by
  intro j
  rw [setStore_store, setStore_store]
  refine ⟨?_, hs.disk⟩
  dsimp only
  rw [hs.ids, show w.ids j = w'.ids j from (h j).ids]

/-- Directories made for a root on one side. -/
theorem dirs {i : ι} {l : Loc} (hl : l.length ≤ H.rootDepth) :
    (w.setStore i ⟨(w.disk.mkdirs l).1, w.ids i⟩).AgreesWith H w' := by
  intro j
  rw [setStore_store]
  refine ⟨Eq.trans ?_ (h j).ids, (h j).disk.mkdirs_left hl⟩
  dsimp only [store]
  split
  · rename_i hji
    rw [hji]
  · rfl

end AgreesWith

namespace Kept
variable (hw : w.Kept H t)
include hw

theorem dirs {i : ι} {l : Loc} : (w.setStore i ⟨(w.disk.mkdirs l).1, w.ids i⟩).Kept H t := by
  refine ⟨hw.owned.dirs fun k => mkdirs_isFile, fun j e hkey => ?_, fun k hk => ?_⟩
  · rw [setStore_ids] at hkey
    split at hkey
    · exact hw.keys i e hkey
    · exact hw.keys j e hkey
  · rw [setStore_disk]
    exact mkdirs_isFile.trans (hw.files k hk)

variable {r : Call ι} {e root : Str} {id : Int} (hp : Proper r.filePath)
  (hr : Entered H t r e id root)
include hp hr

omit [DecidableEq ι] in
/-- The entity lies below the roots, or it is not in the map and no object of it is found. -/
theorem deep_or_unknown : H.rootDepth ≤ (H.locOf e).length ∨
    (id ≠ -1 ∧ (w.store r.location).ids e = none) := by
  rcases parseTarget_ok_cases hr.parse with ⟨_, rfl⟩ | ⟨hid, _⟩
  · obtain ⟨_, hlen, hsuffix⟩ := hp.locOf_root hr.loop
    exact Or.inl (hlen ▸ hsuffix.length_le)
  · by_cases hkey : w.ids r.location e = none
    · exact Or.inr ⟨hid, hkey⟩
    · exact Or.inl (hw.keys _ _ hkey)

theorem method : (w.setStore r.location
    (act H Faults.none e (.of id r.request) (w.store r.location)).2).Kept H t := by
  have hplain := noDotDot_of_parseTarget hr.parse hp.noDotDot
  have hchange := change_act H Faults.none (w.store r.location) hplain (.of id r.request)
  rcases hw.deep_or_unknown hp hr with hdepth | ⟨hid, hkey⟩
  · refine ⟨hw.owned.change hplain hchange, fun j k hkey => ?_, fun k hk => ?_⟩
    · rw [setStore_ids] at hkey
      split at hkey
      · by_cases hke : k = e
        · rw [hke]
          exact hdepth
        · rw [hchange.ids_other hke] at hkey
          exact hw.keys _ _ hkey
      · exact hw.keys j k hkey
    · refine Eq.trans ?_ (hw.files k hk)
      rw [setStore_disk, Bool.eq_iff_iff, isFile_iff, isFile_iff]
      refine exists_congr fun c => hchange.file_other (fun i _ heq => ?_) c
      rw [heq, Disk.objectLoc, List.length_cons] at hk
      omega
  · obtain ⟨a, ha⟩ := act_of_unknown (H := H) (e := e) hid r.request
    rw [ha _ hkey, setStore_self]
    exact hw

/-- Where its root can be made the sequential server runs the method of a request. -/
theorem serve_eq (hfiles : ∀ k, w.disk.isFile k = w'.disk.isFile k) :
    World.serve H w' r =
      let o := act H Faults.none e (.of id r.request)
        ⟨(w'.disk.mkdirs (H.locOf root)).1, w'.ids r.location⟩
      (o.1, w'.setStore r.location o.2) := by
  obtain ⟨hroot, hlen, _⟩ := hp.locOf_root hr.loop
  have hok : (w'.disk.mkdirs (H.locOf root)).2 = true := by
    refine mkdirs_ok_iff.mpr fun k hk => ?_
    rw [← hfiles, hw.files k (hlen ▸ hk.length_le)]
    exact hr.free k hk
  have hdir : Disk.createDir Faults.none (H.fromCwd root) w'.disk =
      (true, (w'.disk.mkdirs (H.locOf root)).1) := by
    rw [createDir_entity H Faults.none hroot, makeDirAt_none, hok]
  have hadmits : Admits H (Disk.manager H Faults.none) r.filePath
      (w'.store r.location).disk e id root :=
    ⟨hr.parse, hr.entity, hr.loop, congrArg Prod.fst hdir⟩
  have hplain := noDotDot_of_parseTarget hr.parse hp.noDotDot
  have hseen := seen_handleMethod H Faults.none hr.parse hplain r.request
    ⟨(w'.disk.mkdirs (H.locOf root)).1, w'.ids r.location⟩
  rw [World.serve, CrudHandler.serve, handleRequest_of_admits hadmits, ← hseen]
  dsimp only [Disk.manager, store]
  rw [hdir]
  rfl

omit [DecidableEq ι] in
/-- The directory that a GET lists is there also on the disk of the sequential server: it is the
root, or it lies below the roots. -/
theorem isDir_agrees {s : Store Tree}
    (hroot : Alike H s ⟨(w'.disk.mkdirs (H.locOf root)).1, w'.ids r.location⟩)
    (hfiles : ∀ k, w.disk.isFile k = w'.disk.isFile k) (hid : id = -1)
    (hdir : s.disk.isDir (H.locOf e) = true) :
    (w'.disk.mkdirs (H.locOf root)).1.isDir (H.locOf e) = true := by
  obtain ⟨_, hlen, hsuffix⟩ := hp.locOf_root hr.loop
  rcases parseTarget_ok_cases hr.parse with ⟨_, rfl⟩ | ⟨hne, _⟩
  · rcases Nat.lt_or_ge H.rootDepth (H.locOf r.filePath).length with hlt | hle
    · obtain ⟨n, l, hl⟩ := List.exists_cons_of_length_pos (Nat.zero_lt_of_lt hlt)
      rw [hl] at hlt hdir ⊢
      exact (hroot.disk.isDir_below (Nat.le_of_lt_succ hlt) n).symm.trans hdir
    · have hloc := hsuffix.eq_of_length (Nat.le_antisymm hsuffix.length_le (hlen ▸ hle))
      rw [← hloc]
      refine mkdirs_isDir_self (mkdirs_ok_iff.mpr fun k hk => ?_)
      rw [← hfiles, hw.files k (hlen ▸ hk.length_le)]
      exact hr.free k hk
  · exact absurd hid hne

/-- The simulation: on alike worlds the method and the sequential server answer the same, and the
worlds stay alike. A listing finds its directory. -/
theorem serve_agrees (h : w.AgreesWith H w')
    (hdir : r.request.method = .get → id = -1 → (w.store r.location).ids e ≠ none →
      (w.store r.location).disk.isDir (H.locOf e) = true) :
    ∃ w'', World.serve H w' r =
        ((act H Faults.none e (.of id r.request) (w.store r.location)).1, w'') ∧
      (w.setStore r.location
        (act H Faults.none e (.of id r.request) (w.store r.location)).2).AgreesWith H w'' := by
  obtain ⟨_, hlen, _⟩ := hp.locOf_root hr.loop
  have hplain := noDotDot_of_parseTarget hr.parse hp.noDotDot
  have hfiles (k : Loc) : w.disk.isFile k = w'.disk.isFile k := (h r.location).disk.isFile k
  have hroot : Alike H (w.store r.location)
      ⟨(w'.disk.mkdirs (H.locOf root)).1, w'.ids r.location⟩ :=
    ⟨(h r.location).ids, ((h r.location).symm.disk.mkdirs_left hlen.le).symm⟩
  suffices hboth : (act H Faults.none e (.of id r.request) (w.store r.location)).1 =
        (act H Faults.none e (.of id r.request)
          ⟨(w'.disk.mkdirs (H.locOf root)).1, w'.ids r.location⟩).1 ∧
      (w.setStore r.location
        (act H Faults.none e (.of id r.request) (w.store r.location)).2).AgreesWith H
          (w'.setStore r.location (act H Faults.none e (.of id r.request)
            ⟨(w'.disk.mkdirs (H.locOf root)).1, w'.ids r.location⟩).2) by
    refine ⟨_, ?_, hboth.2⟩
    rw [hw.serve_eq hp hr hfiles, hboth.1]
  rcases hw.deep_or_unknown hp hr with hdepth | ⟨hid, hkey⟩
  · obtain ⟨hanswer, hnext⟩ := hroot.act hdepth hplain (.of id r.request) fun hlist hkey => by
      obtain ⟨hid, hget⟩ := Op.eq_list hlist
      have hd := hdir hget hid hkey
      exact hd.trans (hw.isDir_agrees hp hr hroot hfiles hid hd).symm
    exact ⟨hanswer, h.setStore hnext⟩
  · obtain ⟨a, ha⟩ := act_of_unknown (H := H) (e := e) hid r.request
    rw [ha _ hkey, ha _ (hroot.ids ▸ hkey), setStore_self]
    exact ⟨rfl, (h.symm.dirs hlen.le).symm⟩

omit [DecidableEq ι] hp hr in
/-- A GET answers 500 neither when its id is live nor when its directory is there. -/
theorem act_ne_error (hget : r.request.method = .get)
    (hdir : id = -1 → (w.store r.location).ids e ≠ none →
      (w.store r.location).disk.isDir (H.locOf e) = true) (body : Str) :
    (act H Faults.none e (.of id r.request) (w.store r.location)).1 ≠
      .ok (.internalServerError, body) := by
  intro h
  unfold Op.of at h
  split at h
  · rename_i hid
    rw [Op.ofEntity, hget] at h
    dsimp only [act, listAt] at h
    split at h
    · exact absurd (Prod.mk.inj (Except.ok.inj h)).1 (by decide)
    · rename_i hkey
      rw [scanAt, if_pos (hdir hid fun hnone => hkey (by rw [hnone]; rfl))] at h
      exact absurd (Prod.mk.inj (Except.ok.inj h)).1 (by decide)
  · rw [Op.ofObject, hget] at h
    dsimp only [act, getAt] at h
    split at h
    · exact absurd (Prod.mk.inj (Except.ok.inj h)).1 (by decide)
    · rename_i hlive
      have hlive : w.live ⟨r.location, e, id⟩ := by
        change (w.store r.location).ids.has e id = true
        simpa using hlive
      obtain ⟨content, hcontent⟩ := isFile_iff.mp (hw.owned.files _ hlive)
      rw [show readAt H Faults.none e id (w.store r.location).disk = _ from
        readAt_of_file hcontent] at h
      exact absurd (Prod.mk.inj (Except.ok.inj h)).1 (by decide)

end Kept

end World

namespace Concurrent
variable {ι : Type u} [DecidableEq ι]

/-- What holds in every state of a clean schedule. -/
structure Consistent (H : Host) (t : Tree) (requests : ℕ → Call ι) (c : Concurrent ι) : Prop where
  explained : ∃ w, Explained (World.serve H) (World.initial t) requests c.history w ∧
    c.world.AgreesWith H w
  kept : c.world.Kept H t
  unheard : ∀ i, c.phase i = .arriving → ∀ ev ∈ c.history, ev.op ≠ i
  entered : ∀ i res, c.phase i = .entered res ∨ c.phase i = .found res →
    res = started (requests i).request ∧ ∃ e id root, Entered H t (requests i) e id root
  found : ∀ i res, c.phase i = .found res → (requests i).request.method = .get ∧
    ∀ e, parseTarget H (requests i).filePath = .ok (e, -1) →
      c.world.ids (requests i).location e ≠ none
  noError : RootsFree H t requests → ∀ i body,
    Event.answered i (.ok (.internalServerError, body)) ∈ c.history →
      (requests i).request.method ≠ .get

theorem mem_reply {i : ℕ} {a : Answer} {ev : Event ℕ Answer} :
    ev ∈ reply i a ↔ ev = .answered i a ∧ ∃ x, a = .ok x := by
  cases a <;> simp [reply]

section Steps
variable {H : Host} {t : Tree} {requests : ℕ → Call ι} {c c' : Concurrent ι} {i : ℕ}

theorem consistent_initial (H : Host) (t : Tree) (requests : ℕ → Call ι) :
    Consistent H t requests (initial t) := by
  refine ⟨⟨_, explained_nil _ _ _, fun _ => ⟨rfl, .refl _⟩⟩, World.kept_initial H t,
    fun i _ ev hev => absurd hev List.not_mem_nil, fun i res h => absurd h (by simp [initial]),
    fun i res h => absurd h (by simp [initial]), fun _ i body h => absurd h List.not_mem_nil⟩

variable (hc : Consistent H t requests c)
include hc

/-- A step of one request leaves the others where they are. -/
theorem Consistent.move (p : Phase) (events : List (Event ℕ Answer))
    (hphase : c'.phase = Function.update c.phase i p) (hp : p ≠ .arriving)
    (hhistory : c'.history = c.history ++ events) (hops : ∀ ev ∈ events, ev.op = i)
    (hkeys : ∀ j e, c.world.ids j e ≠ none → c'.world.ids j e ≠ none)
    (hexplained : ∃ w, Explained (World.serve H) (World.initial t) requests c'.history w ∧
      c'.world.AgreesWith H w)
    (hkept : c'.world.Kept H t)
    (hentered : ∀ res, p = .entered res ∨ p = .found res →
      res = started (requests i).request ∧ ∃ e id root, Entered H t (requests i) e id root)
    (hfound : ∀ res, p = .found res → (requests i).request.method = .get ∧
      ∀ e, parseTarget H (requests i).filePath = .ok (e, -1) →
        c.world.ids (requests i).location e ≠ none)
    (herror : RootsFree H t requests → ∀ body,
      Event.answered i (.ok (.internalServerError, body)) ∈ events →
        (requests i).request.method ≠ .get) : Consistent H t requests c' := by
  have hother {j : ℕ} (hj : j ≠ i) : c'.phase j = c.phase j := by
    rw [hphase, Function.update_of_ne hj]
  have hself : c'.phase i = p := by rw [hphase, Function.update_self]
  refine ⟨hexplained, hkept, fun j hj ev hmem => ?_, fun j res hj => ?_, fun j res hj => ?_,
    fun hfree j body hmem => ?_⟩
  · have hji : j ≠ i := by
      rintro rfl
      exact hp (hself.symm.trans hj)
    rw [hhistory] at hmem
    rcases List.mem_append.mp hmem with hmem | hmem
    · exact hc.unheard j (hother hji ▸ hj) ev hmem
    · rw [hops ev hmem]
      exact hji.symm
  · by_cases hji : j = i
    · subst hji
      exact hentered res (hself ▸ hj)
    · exact hc.entered j res (hother hji ▸ hj)
  · by_cases hji : j = i
    · subst hji
      obtain ⟨hget, hkey⟩ := hfound res (hself ▸ hj)
      exact ⟨hget, fun e he => hkeys _ _ (hkey e he)⟩
    · obtain ⟨hget, hkey⟩ := hc.found j res (hother hji ▸ hj)
      exact ⟨hget, fun e he => hkeys _ _ (hkey e he)⟩
  · rw [hhistory] at hmem
    rcases List.mem_append.mp hmem with hmem | hmem
    · exact hc.noError hfree j body hmem
    · obtain rfl : j = i := hops _ hmem
      exact herror hfree body hmem

/-- `InitRoot` has made its directory. -/
theorem Consistent.enter {e root : Str} {id : Int} (hphase : c.phase i = .arriving)
    (hp : Proper (requests i).filePath) (hr : Entered H t (requests i) e id root) :
    Consistent H t requests { (c.invoke i).goto i (.entered (started (requests i).request)) with
      world := c.world.setStore (requests i).location
        ⟨(c.world.disk.mkdirs (H.locOf root)).1, c.world.ids (requests i).location⟩ } := by
  obtain ⟨_, hlen, _⟩ := hp.locOf_root hr.loop
  obtain ⟨w, hexplained, hagrees⟩ := hc.explained
  refine hc.move (i := i) (.entered (started (requests i).request)) [.invoked i] rfl (by simp)
    rfl ?_ ?_ ⟨w, hexplained.invoked (hc.unheard i hphase), hagrees.dirs hlen.le⟩ hc.kept.dirs
    ?_ ?_ ?_
  · simp [Event.op]
  · intro j k hkey
    dsimp only
    rw [World.setStore_ids]
    split
    · rename_i hj
      exact hj ▸ hkey
    · exact hkey
  · rintro res (hres | hres)
    · exact ⟨(Phase.entered.inj hres).symm, e, id, root, hr⟩
    · exact absurd hres (by simp)
  · exact fun res hres => absurd hres (by simp)
  · exact fun _ body hmem => absurd hmem (by simp)

/-- A request comes to its end as it does on the sequential server. -/
theorem Consistent.finish {o : Outcome Tree}
    (hc' : c' = c ∨ (c' = c.invoke i ∧ c.phase i = .arriving))
    (hserve : ∀ w, c.world.AgreesWith H w → ∃ w'',
      World.serve H w (requests i) = ((seen o).1, w'') ∧
        (c.world.setStore (requests i).location o.store).AgreesWith H w'')
    (hthrown : ∀ a, (seen o).1 = .error a → o.store = c.world.store (requests i).location)
    (hkept : (c.world.setStore (requests i).location o.store).Kept H t)
    (hkeys : ∀ e, c.world.ids (requests i).location e ≠ none → o.store.ids e ≠ none)
    (herror : RootsFree H t requests → ∀ body,
      (seen o).1 = .ok (.internalServerError, body) → (requests i).request.method ≠ .get) :
    Consistent H t requests (c'.finish i (requests i).location o) := by
  obtain ⟨w, hexplained, hagrees⟩ := hc.explained
  obtain ⟨w'', hw'', hagrees''⟩ := hserve w hagrees
  obtain ⟨invoked, hhistory, hops, hworld, hphase, hexplained'⟩ : ∃ invoked : List (Event ℕ Answer),
      c'.history = c.history ++ invoked ∧ (∀ ev ∈ invoked, ev = .invoked i) ∧
        c'.world = c.world ∧ c'.phase = c.phase ∧
          Explained (World.serve H) (World.initial t) requests c'.history w := by
    rcases hc' with rfl | ⟨rfl, harriving⟩
    · exact ⟨[], by simp, by simp, rfl, rfl, hexplained⟩
    · exact ⟨[.invoked i], rfl, by simp, rfl, rfl,
        hexplained.invoked (hc.unheard i harriving)⟩
  refine hc.move (i := i) .done (invoked ++ reply i (seen o).1) ?_ (by simp) ?_ ?_ ?_ ?_ ?_
    (fun res hres => absurd hres (by simp)) (fun res hres => absurd hres (by simp)) ?_
  · rw [← hphase]
    rfl
  · rw [← List.append_assoc, ← hhistory]
    rfl
  · intro ev hev
    rcases List.mem_append.mp hev with hev | hev
    · rw [hops ev hev]
      rfl
    · rw [(mem_reply.mp hev).1]
      rfl
  · intro j e hkey
    dsimp only [Concurrent.finish]
    rw [hworld, World.setStore_ids]
    split
    · rename_i hj
      exact hkeys e (hj ▸ hkey)
    · exact hkey
  · dsimp only [Concurrent.finish]
    rw [hworld]
    cases hanswer : (seen o).1 with
    | ok x => exact ⟨w'', hexplained'.answered (hanswer ▸ hw''), hagrees''⟩
    | error a =>
      refine ⟨w, ?_, ?_⟩
      · rw [reply, List.append_nil]
        exact hexplained'
      · rw [hthrown a hanswer, World.setStore_self]
        exact hagrees
  · dsimp only [Concurrent.finish]
    rw [hworld]
    exact hkept
  · intro hfree body hmem
    rcases List.mem_append.mp hmem with hmem | hmem
    · exact absurd (hops _ hmem) (by simp)
    · exact herror hfree body (Event.answered.inj (mem_reply.mp hmem).1).2.symm

/-- A request that ends in `InitRoot` leaves the world as it was. -/
theorem Consistent.refuse {status : Except Abort StatusCode} (hphase : c.phase i = .arriving)
    (hstatus : status ≠ .ok .ok)
    (hblocked : status = .ok .internalServerError → ∃ root,
      rootLoop H ((requests i).filePath.length + 1) (requests i).filePath = some root ∧
        (H.locOf root).length ≤ H.rootDepth ∧
        ∃ k, k <:+ H.locOf root ∧ c.world.disk.isFile k = true)
    (hinit : ∀ s' : Store Tree, Alike H (c.world.store (requests i).location) s' →
      initRoot H (Disk.manager H Faults.none) (requests i).filePath (requests i).request s'
        .fresh = ⟨status, s', started (requests i).request⟩) :
    Consistent H t requests ((c.invoke i).finish i (requests i).location
      ⟨status, c.world.store (requests i).location, started (requests i).request⟩) := by
  refine hc.finish (Or.inr ⟨rfl, hphase⟩) (fun w hagrees => ⟨w, ?_, ?_⟩) (fun _ _ => rfl) ?_
    (fun e hkey => hkey) fun hfree body hanswer => ?_
  · have hend := hinit _ (hagrees (requests i).location)
    rw [World.serve, CrudHandler.serve, handleRequest]
    simp only [hend, if_neg hstatus, finish_store]
    rw [World.setStore_self]
    exact congrArg (·, w) (seen_status _ _ _ _)
  · dsimp only
    rw [World.setStore_self]
    exact hagrees
  · dsimp only
    rw [World.setStore_self]
    exact hc.kept
  · obtain ⟨root, hloop, hlen, k, hk, hfile⟩ := hblocked (status_of_seen hanswer)
    rw [hc.kept.files k (hk.length_le.trans hlen), hfree i root hloop k hk] at hfile
    exact absurd hfile (by decide)

/-- The method of a request, or what its lookup has left of it. -/
theorem Consistent.serve {e root : Str} {id : Int} {o : Outcome Tree}
    (hp : Proper (requests i).filePath) (hr : Entered H t (requests i) e id root)
    (ho : seen o = act H Faults.none e (.of id (requests i).request)
      (c.world.store (requests i).location))
    (hdir : (requests i).request.method = .get → id = -1 →
      (c.world.store (requests i).location).ids e ≠ none →
        (c.world.store (requests i).location).disk.isDir (H.locOf e) = true) :
    Consistent H t requests (c.finish i (requests i).location o) := by
  have hstore : o.store = (act H Faults.none e (.of id (requests i).request)
      (c.world.store (requests i).location)).2 := by rw [← ho, seen_store]
  have hplain := noDotDot_of_parseTarget hr.parse hp.noDotDot
  refine hc.finish (Or.inl rfl) (fun w hagrees => ?_) (fun a ha => ?_) ?_ (fun k hkey => ?_)
    fun _ body hanswer hget => ?_
  · rw [ho, hstore]
    exact hc.kept.serve_agrees hp hr hagrees hdir
  · rw [ho] at ha
    rw [hstore, act_of_thrown ha]
  · rw [hstore]
    exact hc.kept.method hp hr
  · rw [hstore]
    exact (change_act H Faults.none _ hplain _).ids_ne_none hkey
  · rw [ho] at hanswer
    exact hc.kept.act_ne_error hget (hdir hget) body hanswer

/-- GET has found what it looks for and goes on to the disk. -/
theorem Consistent.lookup {res : Response} (hphase : c.phase i = .entered res)
    (hget : (requests i).request.method = .get)
    (hlookup : getLookup H (requests i).filePath (c.world.store (requests i).location) res = none) :
    Consistent H t requests (c.goto i (.found res)) := by
  refine hc.move (i := i) (.found res) [] rfl (by simp) (List.append_nil _).symm (by simp)
    (fun _ _ hkey => hkey) hc.explained hc.kept ?_ ?_ fun _ _ hmem => absurd hmem (by simp)
  · rintro res' (hres | hres)
    · exact absurd hres (by simp)
    · obtain rfl := Phase.found.inj hres
      exact hc.entered i res (Or.inl hphase)
  · intro res' _
    refine ⟨hget, fun e he hkey => ?_⟩
    simp [getLookup, he, World.store, hkey] at hlookup

/-- One clean step. -/
theorem Consistent.step (hproper : ∀ i, Proper (requests i).filePath)
    (hclean : clean H requests c i = true) : Consistent H t requests (c.step H requests i) := by
  have hp := hproper i
  unfold Concurrent.step
  dsimp only
  cases hphase : c.phase i with
  | arriving =>
    rcases initRoot_ends hp (requests i).request (c.world.store (requests i).location) with
      ⟨e, id, root, hparse, he, hloop, hfree, hinit⟩ | ⟨status, hstatus, hblocked, hinit⟩
    · obtain ⟨_, hlen, _⟩ := hp.locOf_root hloop
      have hr : Entered H t (requests i) e id root := ⟨hparse, he, hloop, fun k hk => by
        rw [← hc.kept.files k (hlen ▸ hk.length_le)]
        exact hfree k hk⟩
      simp only [hinit, if_true]
      exact hc.enter hphase hp hr
    · simp only [hinit _ ⟨rfl, .refl _⟩, if_neg hstatus]
      refine hc.refuse hphase hstatus (fun h => ?_) hinit
      obtain ⟨root, hloop, hfile⟩ := hblocked h
      exact ⟨root, hloop, (hp.locOf_root hloop).2.1.le, hfile⟩
  | entered res =>
    obtain ⟨rfl, e, id, root, hr⟩ := hc.entered i res (Or.inl hphase)
    have hplain := noDotDot_of_parseTarget hr.parse hp.noDotDot
    have hseen := seen_handleMethod H Faults.none hr.parse hplain (requests i).request
      (c.world.store (requests i).location)
    cases hmethod : (requests i).request.method with
    | get =>
      dsimp only
      rw [handleMethod_get hmethod] at hseen
      cases hlookup : getLookup H (requests i).filePath (c.world.store (requests i).location)
          (started (requests i).request) with
      | some o =>
        rw [hlookup, Option.getD_some] at hseen
        refine hc.serve hp hr hseen fun _ hid hkey => ?_
        simp [getLookup, hr.parse, hid, hkey] at hlookup
      | none => exact hc.lookup hphase hmethod hlookup
    | post => exact hc.serve hp hr hseen (by simp [hmethod])
    | put => exact hc.serve hp hr hseen (by simp [hmethod])
    | delete => exact hc.serve hp hr hseen (by simp [hmethod])
    | other name => exact hc.serve hp hr hseen (by simp [hmethod])
  | found res =>
    obtain ⟨rfl, e, id, root, hr⟩ := hc.entered i res (Or.inr hphase)
    obtain ⟨hget, hkey⟩ := hc.found i _ hphase
    have hplain := noDotDot_of_parseTarget hr.parse hp.noDotDot
    have hseen := seen_handleMethod H Faults.none hr.parse hplain (requests i).request
      (c.world.store (requests i).location)
    simp only [clean, hphase, hr.parse] at hclean
    have hlookup : getLookup H (requests i).filePath (c.world.store (requests i).location)
        (started (requests i).request) = none := by
      by_cases hid : id = -1
      · subst hid
        simp [getLookup, hr.parse, World.store, hkey e hr.parse]
      · rw [if_neg hid] at hclean
        simp [getLookup, hr.parse, hid, World.store, hclean]
    rw [handleMethod_get hget, hlookup, Option.getD_none] at hseen
    refine hc.serve hp hr hseen fun _ hid _ => ?_
    rwa [if_pos hid] at hclean
  | done => exact hc

end Steps

/-- A whole schedule of clean steps. -/
theorem Consistent.run {H : Host} {t : Tree} {requests : ℕ → Call ι} {c : Concurrent ι}
    (hc : Consistent H t requests c) (hproper : ∀ i, Proper (requests i).filePath) {is : List ℕ}
    (hclean : allClean H requests c is = true) :
    Consistent H t requests (c.run H requests is) := by
  induction is generalizing c with
  | nil => exact hc
  | cons i is ih =>
    rw [allClean, Bool.and_eq_true] at hclean
    exact ih (hc.step hproper hclean.1) hclean.2

end Concurrent

/-- Every schedule is atomic in which no GET loses its object, or its directory, between the
lookup and the access: for requests to any locations and any entities, on any disk. -/
theorem atomic_of_allClean {ι : Type u} [DecidableEq ι] (H : Host) (t : Tree)
    (requests : ℕ → Call ι) (hproper : ∀ i, Proper (requests i).filePath) (is : List ℕ)
    (hclean : Concurrent.allClean H requests (Concurrent.initial t) is = true) :
    Concurrent.Atomic H t requests is := by
  have hrun := (Concurrent.consistent_initial H t requests).run hproper hclean
  obtain ⟨_, hexplained, _⟩ := hrun.explained
  exact ⟨hexplained.linearizable, hrun.noError⟩

namespace Demo

/-- An object that is read over a directory that is gone by then: with `..` in a path a clean
schedule is not enough. -/
def climbing : ℕ → Call Bool
  | 0 => ⟨false, "/crud/../x/y".toList, ⟨.post, 11, "a".toList⟩⟩
  | 1 => ⟨false, "/crud/../x/y/1".toList, ⟨.get, 11, []⟩⟩
  | 2 => ⟨true, "/crud".toList, ⟨.post, 11, "b".toList⟩⟩
  | _ => ⟨true, "/crud/1".toList, ⟨.delete, 11, []⟩⟩

example :
    let is := [0, 0, 1, 1, 2, 2, 3, 3, 1]
    Concurrent.allClean host climbing (Concurrent.initial disk) is = true ∧
      Event.answered 1 (page .internalServerError) ∈
        (Concurrent.run host climbing (Concurrent.initial disk) is).history := by
  decide +kernel

end Demo

namespace Demo

/-- POST, GET of the object, DELETE of the object, and a POST through another location that
takes the same file. -/
def racing : ℕ → Call Bool
  | 0 => ⟨false, "/crud/x".toList, ⟨.post, 11, "a".toList⟩⟩
  | 1 => ⟨false, "/crud/x/1".toList, ⟨.get, 11, []⟩⟩
  | 2 => ⟨false, "/crud/x/1".toList, ⟨.delete, 11, []⟩⟩
  | _ => ⟨true, "/crud/x".toList, ⟨.post, 11, "b".toList⟩⟩

theorem proper_racing : ∀ i, Proper (racing i).filePath
  | 0 => ⟨by decide, by decide, by decide⟩
  | 1 => ⟨by decide, by decide, by decide⟩
  | 2 => ⟨by decide, by decide, by decide⟩
  | _ + 3 => (⟨by decide, by decide, by decide⟩ : Proper "/crud/x".toList)

/-- The root is a directory from the start. -/
theorem rootsFree_racing : Concurrent.RootsFree host disk racing := by
  have hroot : disk.isDir (host.locOf "/crud".toList) = true := by decide +kernel
  have hpath (p : Str) (hp : rootLoop host (p.length + 1) p = some "/crud".toList) (root : Str)
      (hloop : rootLoop host (p.length + 1) p = some root) (k : Loc) (hk : k <:+ host.locOf root) :
      disk.isFile k = false := by
    obtain rfl := Option.some.inj (hp.symm.trans hloop)
    exact not_isFile_of_suffix hroot hk
  intro i
  match i with
  | 0 => exact hpath _ (by decide +kernel)
  | 1 => exact hpath _ (by decide +kernel)
  | 2 => exact hpath _ (by decide +kernel)
  | _ + 3 => exact hpath "/crud/x".toList (by decide +kernel)

end Demo

/-- The lookup of the GET is the last step before its access, while the others overlap. -/
theorem atomic_of_allClean_racing :
    Concurrent.Atomic Demo.host Demo.disk Demo.racing [3, 0, 1, 0, 2, 1, 1, 3, 2] :=
  atomic_of_allClean _ _ _ Demo.proper_racing _ (by decide +kernel)

/-- DELETE between the lookup of GET and its access: the answer is 500. -/
theorem not_atomic_racing :
    ¬ Concurrent.Atomic Demo.host Demo.disk Demo.racing [0, 0, 1, 1, 2, 2, 1] := by
  intro h
  have hmem : Event.answered 1 (page .internalServerError) ∈
      (Concurrent.run Demo.host Demo.racing (Concurrent.initial Demo.disk)
        [0, 0, 1, 1, 2, 2, 1]).history := by
    decide +kernel
  exact h.2 Demo.rootsFree_racing 1 _ hmem rfl

end Webserver
