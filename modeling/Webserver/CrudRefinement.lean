import Webserver.CrudStore

/-!
# The CRUD handler as a key-value store

The abstract store maps an entity and a number to a body. A location with an empty root and a
fresh factory answers every sequence of requests as the store does, as long as the store
gives out no id above the largest `int`.
-/

set_option autoImplicit false

namespace Webserver

open FileTree FileTree.Tree CrudHandler ObjectStore

/-- The spelling of an id that fits an `int`. -/
structure ObjectId where
  spelled : IdText
  small : spelled.value ≤ intMax

namespace ObjectId

def value (n : ObjectId) : ℕ := n.spelled.value

end ObjectId

/-- The requests of the store; only GET needs its id. -/
inductive StoreCall where
  | post (object : Option ObjectId)
  | put (object : Option ObjectId)
  | delete (object : Option ObjectId)
  | get (object : ObjectId)

namespace StoreCall

def object : StoreCall → Option ObjectId
  | .post o => o
  | .put o => o
  | .delete o => o
  | .get n => some n

def verb : StoreCall → Verb
  | .post _ => .post
  | .put _ => .put
  | .delete _ => .delete
  | .get _ => .get

end StoreCall

structure StoreRequest where
  entity : EntityName
  call : StoreCall
  version : Nat
  body : Str

namespace StoreRequest

def request (r : StoreRequest) : Request := ⟨r.call.verb, r.version, r.body⟩

def filePath (R : Root) (r : StoreRequest) : Str :=
  (r.entity.entity R).filePath (r.call.object.map ObjectId.spelled)

end StoreRequest

/-- The server: one `HandleRequest` after the other on a disk without faults. -/
def storeServer (H : Host) (R : Root) (s : Store Tree) (r : StoreRequest) : Answer × Store Tree :=
  serve H (Disk.manager H Faults.none) (r.filePath R) r.request s

/-- The abstract store. -/
def objectStore (m : Objects EntityName Str) (r : StoreRequest) :
    Answer × Objects EntityName Str :=
  match r.call with
  | .post none =>
    (idAnswer (leastFree m r.entity), m.insert (r.entity, leastFree m r.entity) r.body)
  | .put (some n) =>
    if (r.entity, n.value) ∈ m then (idAnswer n.value, m.insert (r.entity, n.value) r.body)
    else (page .notFound, m)
  | .delete (some n) =>
    if (r.entity, n.value) ∈ m then (idAnswer n.value, m.erase (r.entity, n.value))
    else (page .notFound, m)
  | .get n =>
    match m.lookup (r.entity, n.value) with
    | some body => (.ok (.ok, body), m)
    | none => (page .notFound, m)
  | .post (some _) => (page .badRequest, m)
  | .put none => (page .badRequest, m)
  | .delete none => (page .badRequest, m)

/-- The objects of one entity. -/
def bodies (m : Objects EntityName Str) (e : EntityName) : Int → Option Str
  | .ofNat n => m.lookup (e, n)
  | .negSucc _ => none

section Bodies
variable {m : Objects EntityName Str} {e a : EntityName} {n : ℕ} {body : Str}

@[simp] theorem bodies_natCast : bodies m e (n : Int) = m.lookup (e, n) := rfl

theorem bodies_isSome : (bodies m e (n : Int)).isSome = true ↔ (e, n) ∈ m :=
  Finmap.lookup_isSome

theorem bodies_ne_none : bodies m e (n : Int) ≠ none ↔ (e, n) ∈ m := by
  rw [← Option.isSome_iff_ne_none, bodies_isSome]

theorem bodies_insert :
    bodies (m.insert (e, n) body) e = Function.update (bodies m e) n (some body) := by
  funext id
  by_cases hid : id = (n : Int)
  · rw [hid, Function.update_self, bodies_natCast, Finmap.lookup_insert]
  · rw [Function.update_of_ne hid]
    cases id with
    | ofNat k =>
      refine Finmap.lookup_insert_of_ne _ fun h => hid ?_
      rw [(Prod.mk.inj h).2]
      rfl
    | negSucc k => rfl

theorem bodies_insert_other (h : a ≠ e) : bodies (m.insert (e, n) body) a = bodies m a := by
  funext id
  cases id with
  | ofNat k => exact Finmap.lookup_insert_of_ne _ fun heq => h (Prod.mk.inj heq).1
  | negSucc k => rfl

theorem bodies_erase :
    bodies (m.erase (e, n)) e = Function.update (bodies m e) n none := by
  funext id
  by_cases hid : id = (n : Int)
  · rw [hid, Function.update_self, bodies_natCast, Finmap.lookup_erase]
  · rw [Function.update_of_ne hid]
    cases id with
    | ofNat k =>
      refine Finmap.lookup_erase_ne fun h => hid ?_
      rw [(Prod.mk.inj h).2]
      rfl
    | negSucc k => rfl

theorem bodies_erase_other (h : a ≠ e) : bodies (m.erase (e, n)) a = bodies m a := by
  funext id
  cases id with
  | ofNat k => exact Finmap.lookup_erase_ne fun heq => h (Prod.mk.inj heq).1
  | negSucc k => rfl

end Bodies

/-- The simulation: the root is there, and every entity shows its objects. -/
structure Represents (H : Host) (R : Root) (s : Store Tree) (m : Objects EntityName Str) :
    Prop where
  root : s.disk.isDir (R.loc H) = true
  cells : ∀ e : EntityName, Cell H (e.key R) s (bodies m e)

/-- The same answer, and states that represent each other. -/
def Simulates (H : Host) (R : Root) (p : Answer × Store Tree)
    (q : Answer × Objects EntityName Str) : Prop :=
  p.1 = q.1 ∧ Represents H R p.2 q.2

section Simulation
variable {H : Host} {R : Root} {s s' : Store Tree} {m m' : Objects EntityName Str}
  (hs : Represents H R s m)
include hs

theorem Represents.change {e : EntityName} (h : Change H (e.key R) s s')
    (hcell : Cell H (e.key R) s' (bodies m' e)) (hother : ∀ a, a ≠ e → bodies m' a = bodies m a) :
    Represents H R s' m' := by
  refine ⟨isDir_root_of_change h hs.root, fun a => ?_⟩
  by_cases ha : a = e
  · rw [ha]
    exact hcell
  · rw [hother a ha]
    exact (hs.cells a).other h (Ne.symm ha)

theorem Represents.mkdirs_ok (e : EntityName) :
    (s.disk.mkdirs (H.locOf (e.key R))).2 = true :=
  (hs.cells e).mkdirs_ok (by rw [EntityName.parentLoc_entity]; exact hs.root)

theorem Represents.has_iff (e : EntityName) (n : ℕ) :
    s.ids.has (e.key R) n = true ↔ (e, n) ∈ m := by
  rw [(hs.cells e).ids, bodies_isSome]

theorem Represents.has_false_iff (e : EntityName) (n : ℕ) :
    s.ids.has (e.key R) n = false ↔ (e, n) ∉ m := by
  rw [← hs.has_iff, Bool.not_eq_true]

/-- Where the store gives an `int`, `GetNextID` finds the same one. -/
theorem Represents.getNextID {e : EntityName} (hmax : leastFree m e ≤ intMax) :
    getNextID s.ids (e.key R) = .ok (leastFree m e : Int) := by
  have hpos := leastFree_pos m e
  refine getNextID_ok_iff.mpr ⟨by omega, by omega,
    (hs.has_false_iff e _).mpr (leastFree_notMem m e), fun j hj hlt => ?_⟩
  obtain ⟨n, rfl⟩ := Int.eq_ofNat_of_zero_le (by omega : 0 ≤ j)
  exact (hs.has_iff e n).mpr (mem_of_lt_leastFree (by omega) (by omega))

theorem Represents.server_eq (r : StoreRequest) :
    storeServer H R s r = act H Faults.none (r.entity.key R)
      (Entity.opOf (r.call.object.map ObjectId.spelled) r.request) s :=
  Entity.serve_eq _ H Faults.none r.request s _ hs.root

omit hs in
theorem opOf_object (n : ObjectId) (req : Request) :
    Entity.opOf (some n.spelled) req = .ofObject n.value req :=
  if_pos n.small

theorem Represents.post (e : EntityName) (body : Str) (hmax : leastFree m e ≤ intMax) :
    Simulates H R (postAt H Faults.none (e.key R) body s)
      (idAnswer (leastFree m e), m.insert (e, leastFree m e) body) := by
  have hnext := hs.getNextID hmax
  refine ⟨by rw [(hs.cells e).post_eq (hs.mkdirs_ok e) hnext body], ?_⟩
  refine hs.change (change_post H _ s body) ?_ fun a ha => bodies_insert_other ha
  rw [bodies_insert]
  exact (hs.cells e).post (hs.mkdirs_ok e) hnext body

theorem Represents.put (e : EntityName) (n : ℕ) (body : Str) :
    Simulates H R (putAt H Faults.none (e.key R) n body s)
      (if (e, n) ∈ m then (idAnswer n, m.insert (e, n) body) else (page .notFound, m)) := by
  by_cases hmem : (e, n) ∈ m
  · have hid := bodies_ne_none.mpr hmem
    rw [if_pos hmem]
    refine ⟨by rw [(hs.cells e).put_eq hid body], ?_⟩
    refine hs.change (change_put H _ s n body) ?_ fun a ha => bodies_insert_other ha
    rw [bodies_insert]
    exact (hs.cells e).put hid body
  · have hnot := (hs.has_false_iff e n).mpr hmem
    rw [if_neg hmem, putAt, hnot]
    exact ⟨rfl, hs⟩

theorem Represents.delete (e : EntityName) (n : ℕ) :
    Simulates H R (deleteAt H Faults.none (e.key R) n s)
      (if (e, n) ∈ m then (idAnswer n, m.erase (e, n)) else (page .notFound, m)) := by
  by_cases hmem : (e, n) ∈ m
  · have hid := bodies_ne_none.mpr hmem
    rw [if_pos hmem]
    refine ⟨by rw [(hs.cells e).delete_eq hid], ?_⟩
    refine hs.change (change_delete H _ s (Entity.noDotDot_key _) n) ?_
      fun a ha => bodies_erase_other ha
    rw [bodies_erase]
    exact (hs.cells e).delete hid
  · have hnot := (hs.has_false_iff e n).mpr hmem
    rw [if_neg hmem, deleteAt, hnot]
    exact ⟨rfl, hs⟩

/-- A live object is read back as it was stored. -/
theorem Represents.get (e : EntityName) (n : ℕ) :
    Simulates H R (getAt H Faults.none (e.key R) n s, s)
      (match m.lookup (e, n) with
      | some body => (.ok (.ok, body), m)
      | none => (page .notFound, m)) := by
  cases hl : m.lookup (e, n) with
  | none =>
    have hnot := (hs.has_false_iff e n).mpr (Finmap.lookup_eq_none.mp hl)
    rw [getAt, hnot]
    exact ⟨rfl, hs⟩
  | some body =>
    have hlive := (hs.has_iff e n).mpr (Finmap.lookup_isSome.mp (by rw [hl]; rfl))
    rw [getAt, hlive]
    exact ⟨(hs.cells e).readAt_eq hl, hs⟩

/-- One request. -/
theorem Represents.step (r : StoreRequest)
    (hmax : ∀ id : ℕ, (objectStore m r).1 = idAnswer id → id ≤ intMax) :
    Simulates H R (storeServer H R s r) (objectStore m r) := by
  rw [hs.server_eq r]
  obtain ⟨e, call, version, body⟩ := r
  cases call with
  | post o =>
    cases o with
    | none => exact hs.post e body (hmax _ rfl)
    | some n =>
      dsimp only [StoreCall.object, Option.map_some]
      rw [opOf_object]
      exact ⟨rfl, hs⟩
  | put o =>
    cases o with
    | none => exact ⟨rfl, hs⟩
    | some n =>
      dsimp only [StoreCall.object, Option.map_some]
      rw [opOf_object]
      exact hs.put e n.value body
  | delete o =>
    cases o with
    | none => exact ⟨rfl, hs⟩
    | some n =>
      dsimp only [StoreCall.object, Option.map_some]
      rw [opOf_object]
      exact hs.delete e n.value
  | get n =>
    dsimp only [StoreCall.object, Option.map_some]
    rw [opOf_object]
    exact hs.get e n.value

end Simulation

theorem represents_empty {H : Host} {R : Root} {t : Tree}
    (hroot : t.node (R.loc H) = some (.dir [])) : Represents H R ⟨t, IdMap.empty⟩ ∅ := by
  refine ⟨isDir_of_node hroot, fun e => ?_⟩
  have hnone : bodies ∅ e = fun _ => none := by
    funext id
    cases id <;> rfl
  rw [hnone]
  exact cell_of_empty hroot (e.entity R)

/-- A fresh location with an empty root answers as the store, as long as the store gives out no
id above the largest `int`. -/
theorem outputs_eq_objectStore (H : Host) (R : Root) (t : Tree)
    (hroot : t.node (R.loc H) = some (.dir [])) (rs : List StoreRequest)
    (hmax : ∀ id : ℕ, idAnswer id ∈ Runs.outputs objectStore ∅ rs → id ≤ intMax) :
    Runs.outputs (storeServer H R) ⟨t, IdMap.empty⟩ rs = Runs.outputs objectStore ∅ rs := by
  refine Runs.outputs_of_simulation (R := Represents H R) (A := fun _ => True)
    (B := fun b => ∀ id : ℕ, b = idAnswer id → id ≤ intMax)
    (fun s m r _ hB hs => hs.step r hB) (represents_empty hroot) (fun _ _ => trivial) ?_
  rintro b hb id rfl
  exact hmax id hb

def postTo (e : EntityName) (body : Str) : StoreRequest := ⟨e, .post none, 11, body⟩

def getOf (e : EntityName) (n : ObjectId) : StoreRequest := ⟨e, .get n, 11, []⟩

theorem leastFree_empty (e : EntityName) : leastFree (∅ : Objects EntityName Str) e = 1 :=
  leastFree_eq (le_refl 1) (Finmap.notMem_empty) fun j hj hlt => by omega

theorem outputs_eq_objectStore_post_get :
    Runs.outputs (storeServer Demo.host Demo.root) ⟨Demo.disk, IdMap.empty⟩
        [postTo Demo.x "a".toList, getOf Demo.x ⟨.ofNat 1, by decide⟩] =
      Runs.outputs objectStore ∅
        [postTo Demo.x "a".toList, getOf Demo.x ⟨.ofNat 1, by decide⟩] := by
  refine outputs_eq_objectStore _ _ _ Demo.root_empty _ fun id hid => ?_
  have hpost : objectStore ∅ (postTo Demo.x "a".toList) =
      (idAnswer (1 : ℕ), Finmap.insert (Demo.x, 1) "a".toList ∅) := by
    simp only [objectStore, postTo, leastFree_empty]
  have hget : (objectStore (Finmap.insert (Demo.x, 1) "a".toList ∅)
      (getOf Demo.x ⟨.ofNat 1, by decide⟩)).1 = .ok (.ok, "a".toList) := by
    have hlookup : (Finmap.insert (Demo.x, 1) "a".toList
        (∅ : Objects EntityName Str)).lookup (Demo.x, (IdText.ofNat 1).value) =
        some "a".toList := by
      rw [IdText.value_ofNat]
      exact Finmap.lookup_insert _
    simp only [objectStore, getOf, ObjectId.value, hlookup]
  rw [Runs.outputs_cons, Runs.outputs_cons, hpost, hget, Runs.outputs_nil] at hid
  rcases List.mem_pair.mp hid with h | h
  · have h1 := idAnswer_injective h
    rw [Int.natCast_inj.mp h1]
    decide
  · exact absurd (List.cons.inj (Prod.mk.inj (Except.ok.inj h)).2).1 (by decide)

/-- The `k`-th POST to one entity is given the id `k`. -/
theorem leastFree_posts (e : EntityName) (body : Str) (k : ℕ) :
    leastFree (Runs.final objectStore ∅ (List.replicate k (postTo e body))) e = k + 1 := by
  have hlive (k : ℕ) : ∀ j, (e, j) ∈ Runs.final objectStore ∅
      (List.replicate k (postTo e body)) ↔ 1 ≤ j ∧ j ≤ k := by
    induction k with
    | zero =>
      intro j
      constructor
      · exact fun h => absurd h Finmap.notMem_empty
      · intro h
        omega
    | succ k ih =>
      intro j
      have hnext := leastFree_eq (e := e) (Nat.le_add_left 1 k) (fun h => by
        have := (ih _).mp h
        omega) fun j hj hlt => (ih j).mpr (by omega)
      have hstep (m : Objects EntityName Str) :
          (objectStore m (postTo e body)).2 = m.insert (e, leastFree m e) body := rfl
      rw [List.replicate_succ', Runs.final_append, Runs.final_cons, Runs.final_nil, hstep,
        Finmap.mem_insert, hnext, ih, Prod.mk.injEq, eq_self, true_and]
      omega
  exact leastFree_eq (Nat.le_add_left 1 k) (fun h => by
    have := (hlive k _).mp h
    omega) fun j hj hlt => (hlive k j).mpr (by omega)

/-- After the largest `int` the store goes on, the server does not. -/
theorem outputs_ne_objectStore_posts :
    Runs.outputs (storeServer Demo.host Demo.root) ⟨Demo.disk, IdMap.empty⟩
        (List.replicate (intMax + 1) (postTo Demo.x [])) ≠
      Runs.outputs objectStore ∅ (List.replicate (intMax + 1) (postTo Demo.x [])) := by
  intro heq
  have hlast : idAnswer ((intMax + 1 : ℕ) : Int) ∈
      Runs.outputs objectStore ∅ (List.replicate (intMax + 1) (postTo Demo.x [])) := by
    have hstep (m : Objects EntityName Str) :
        (objectStore m (postTo Demo.x [])).1 = idAnswer (leastFree m Demo.x) := rfl
    rw [List.replicate_succ', Runs.outputs_append, Runs.outputs_cons, hstep, leastFree_posts]
    simp
  have hserver : ∀ b ∈ Runs.outputs (storeServer Demo.host Demo.root) ⟨Demo.disk, IdMap.empty⟩
      (List.replicate (intMax + 1) (postTo Demo.x [])),
      b ≠ idAnswer ((intMax + 1 : ℕ) : Int) := by
    refine Runs.forall_mem_outputs (A := fun r => r = postTo Demo.x [])
      (I := fun s => s.disk.isDir (Demo.root.loc Demo.host) = true) (fun s r hr hroot => ?_)
      (isDir_of_node Demo.root_empty) fun r hr => List.eq_of_mem_replicate hr
    subst hr
    have hserve : storeServer Demo.host Demo.root s (postTo Demo.x []) =
        postAt Demo.host Faults.none (Demo.x.key Demo.root) [] s :=
      Entity.serve_eq _ _ _ _ _ none hroot
    rw [hserve]
    refine ⟨fun hid => ?_, isDir_root_of_change (change_post _ _ s []) hroot⟩
    have hmax := (getNextID_ok_iff.mp (getNextID_of_answer _ _ _ hid)).2.1
    omega
  rw [heq] at hserver
  exact hserver _ hlast rfl

end Webserver
