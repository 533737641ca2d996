import Webserver.CrudListing

/-!
# Interference between entities

Requests on an entity `A` and the view of an entity `B`, with entities at any depth and any
system calls failing. Two things carry over: the ids of `A` are file names where `B` may need
a directory, and a directory above `A` is made again after the last object of `B` took it away.
-/

set_option autoImplicit false

namespace Webserver

open FileTree FileTree.Tree CrudHandler

namespace Entity
variable {R : Root} (E : Entity R)

/-- The components of the entity, the root first. -/
def names : List Name := E.above ++ [E.last]

theorem locOf_key_names (H : Host) : H.locOf E.key = E.names.reverse ++ H.cwdLoc :=
  locOf_joined H E.isName_path

theorem objectLoc_names (H : Host) (id : Int) :
    Disk.objectLoc H E.key id = (E.names ++ [intToString id]).reverse ++ H.cwdLoc := by
  rw [Disk.objectLoc, locOf_key_names, List.reverse_append]
  rfl

end Entity

section Paths
variable {R : Root} {A B : Entity R} (H : Host)

theorem suffix_iff_isPrefix {ns ms : List Name} :
    ns.reverse ++ H.cwdLoc <:+ ms.reverse ++ H.cwdLoc ↔ ns <+: ms := by
  rw [List.suffix_append_self_iff, List.reverse_suffix]

theorem locOf_suffix_iff : H.locOf B.key <:+ H.locOf A.key ↔ B.names <+: A.names := by
  rw [Entity.locOf_key_names, Entity.locOf_key_names, suffix_iff_isPrefix]

theorem objectLoc_suffix_iff (id : Int) :
    Disk.objectLoc H A.key id <:+ H.locOf B.key ↔ A.names ++ [intToString id] <+: B.names := by
  rw [Entity.objectLoc_names, Entity.locOf_key_names, suffix_iff_isPrefix]

end Paths

/-- A request at any depth, with the faults its system calls meet. -/
structure NestedRequest (R : Root) where
  entity : Entity R
  object : Option IdText
  request : Request
  faults : Faults

namespace NestedRequest
variable {R : Root}

def op (r : NestedRequest R) : Op := Entity.opOf r.object r.request

end NestedRequest

/-- A request that throws leaves the store as it is, and the run goes on. -/
def nestedServer (H : Host) (R : Root) (s : Store Tree) (r : NestedRequest R) :
    Answer × Store Tree :=
  serve H (Disk.manager H r.faults) (r.entity.filePath r.object) r.request s

/-- Whatever happened before, requests on `A` change no answer of later requests on `B`. -/
def NonInterference (H : Host) {R : Root} (A B : Entity R) : Prop :=
  ∀ t : Tree, t.isDir (R.loc H) = true → ∀ before onA onB : List (NestedRequest R),
    (∀ r ∈ onA, r.entity = A) → (∀ r ∈ onB, r.entity = B) →
    let s := Runs.final (nestedServer H R) ⟨t, IdMap.empty⟩ before
    Runs.outputs (nestedServer H R) (Runs.final (nestedServer H R) s onA) onB =
      Runs.outputs (nestedServer H R) s onB

/-- `B` is not on the way to `A`, and no id of `A` is on the way to `B`. -/
def Independent {R : Root} (A B : Entity R) : Prop :=
  ¬ B.names <+: A.names ∧
    ∀ id : Int, 1 ≤ id → id ≤ intMax → ¬ A.names ++ [intToString id] <+: B.names

section Steps
variable {H : Host} {R : Root} {A B : Entity R} {s s' : Store Tree}

theorem nestedServer_eq (r : NestedRequest R) (hroot : s.disk.isDir (R.loc H) = true) :
    nestedServer H R s r = act H r.faults r.entity.key r.op s :=
  r.entity.serve_eq H r.faults r.request s r.object hroot

theorem nestedServer_change (r : NestedRequest R) (hroot : s.disk.isDir (R.loc H) = true) :
    Change H r.entity.key s (nestedServer H R s r).2 := by
  rw [nestedServer_eq r hroot]
  exact change_act H _ s r.entity.noDotDot_key r.op

/-- Every id in use is a positive `int`. -/
def InRange (s : Store Tree) : Prop :=
  ∀ e id, s.ids.has e id = true → 1 ≤ id ∧ id ≤ intMax

theorem CrudHandler.Change.inRange {e : Str} (h : Change H e s s') (hs : InRange s) :
    InRange s' := by
  intro k id hid
  by_cases hk : k = e
  · subst hk
    rcases h.live_origin hid with hold | ⟨hnext, _⟩
    · exact hs k id hold
    · exact ⟨(getNextID_ok_iff.mp hnext).1, (getNextID_ok_iff.mp hnext).2.1⟩
  · rw [h.has_other hk] at hid
    exact hs k id hid

/-- What holds in every state of the location. -/
structure Running (H : Host) (R : Root) (s : Store Tree) : Prop where
  root : s.disk.isDir (R.loc H) = true
  range : InRange s

theorem Running.step (hs : Running H R s) (r : NestedRequest R) :
    Running H R (nestedServer H R s r).2 :=
  have hchange := nestedServer_change r hs.root
  ⟨isDir_root_of_change hchange hs.root, hchange.inRange hs.range⟩

theorem Running.run (hs : Running H R s) (rs : List (NestedRequest R)) :
    Running H R (Runs.final (nestedServer H R) s rs) :=
  Runs.final_invariant (A := fun _ => True) (fun _ r _ hs => hs.step r) hs fun _ _ => trivial

/-- One request on `A` leaves the view of `B`. -/
theorem Independent.sameView (hAB : Independent A B) (hs : Running H R s) {r : NestedRequest R}
    (hr : r.entity = A) : SameView H B.key s (nestedServer H R s r).2 := by
  have hchange := nestedServer_change r hs.root
  rw [hr] at hchange
  have hprefix : ¬ H.locOf B.key <:+ H.locOf A.key := (locOf_suffix_iff H).not.mpr hAB.1
  refine hchange.sameView (fun hkey => hprefix (hkey ▸ List.suffix_rfl)) hprefix
    fun id hid hs' => ?_
  have hrange : 1 ≤ id ∧ id ≤ intMax := by
    rcases hid with hnext | hlive
    · exact ⟨(getNextID_ok_iff.mp hnext).1, (getNextID_ok_iff.mp hnext).2.1⟩
    · exact hs.range _ id hlive
  exact hAB.2 id hrange.1 hrange.2 ((objectLoc_suffix_iff H id).mp hs')

theorem Independent.nonInterference (hAB : Independent A B) : NonInterference H A B := by
  intro t hroot before onA onB honA honB
  have hs : Running H R (Runs.final (nestedServer H R) ⟨t, IdMap.empty⟩ before) :=
    Running.run ⟨hroot, fun e id h => absurd h (by simp)⟩ before
  have hview : SameView H B.key (Runs.final (nestedServer H R) ⟨t, IdMap.empty⟩ before)
      (Runs.final (nestedServer H R)
        (Runs.final (nestedServer H R) ⟨t, IdMap.empty⟩ before) onA) :=
    (Runs.final_invariant (A := fun r => r.entity = A)
      (I := fun s => Running H R s ∧ SameView H B.key
        (Runs.final (nestedServer H R) ⟨t, IdMap.empty⟩ before) s)
      (fun s r hr hI => ⟨hI.1.step r, hI.2.trans (hAB.sameView hI.1 hr)⟩)
      ⟨hs, SameView.refl _⟩ honA).2
  refine Runs.outputs_of_simulation (A := fun r => r.entity = B) (B := fun _ => True)
    (R := fun s s' => Running H R s ∧ Running H R s' ∧ SameView H B.key s s')
    (fun s s' r hr _ hR => ?_) ⟨hs.run onA, hs, hview.symm⟩ honB fun _ _ => trivial
  obtain ⟨hrun, hrun', hsame⟩ := hR
  rw [← hr] at hsame
  obtain ⟨hout, hnext⟩ := hsame.act r.faults r.op
  rw [← nestedServer_eq r hrun.root, ← nestedServer_eq r hrun'.root] at hout hnext
  exact ⟨hout, hrun.step r, hrun'.step r, hr ▸ hnext⟩

end Steps

/-- A disk with the root and nothing else. -/
def emptyRoot (H : Host) (R : Root) : Tree := (bare.mkdirs (R.loc H)).1

namespace NestedRequest
variable {R : Root} (E : Entity R)

def post : NestedRequest R := ⟨E, none, ⟨.post, 11, []⟩, Faults.none⟩

def delete (n : Nat) : NestedRequest R := ⟨E, some (.ofNat n), ⟨.delete, 11, []⟩, Faults.none⟩

def list : NestedRequest R := ⟨E, none, ⟨.get, 11, []⟩, Faults.none⟩

end NestedRequest

section Interference
variable {H : Host} {R : Root} {A B : Entity R} {s : Store Tree}

theorem emptyRoot_isFile (k : Loc) : (emptyRoot H R).isFile k = false := by
  rw [emptyRoot, mkdirs_isFile, isFile, bare]
  dsimp only
  split <;> rfl

theorem emptyRoot_node : (emptyRoot H R).node (R.loc H) = some (.dir []) := by
  refine mkdirs_new (mkdirs_ok_iff.mpr fun k _ => ?_) (if_neg ?_)
  · rw [← mkdirs_isFile (l := R.loc H)]
    exact emptyRoot_isFile k
  · simp [Root.loc, Root.names]

theorem emptyRoot_mkdirs (l : Loc) : ((emptyRoot H R).mkdirs l).2 = true :=
  mkdirs_ok_iff.mpr fun k _ => emptyRoot_isFile k

theorem running_emptyRoot : Running H R ⟨emptyRoot H R, IdMap.empty⟩ :=
  ⟨isDir_of_node emptyRoot_node, fun e id h => absurd h (by simp)⟩

theorem names_ne_key (h : A.names ≠ B.names) : A.key ≠ B.key := fun heq =>
  h (Segments.joined_injective (fun n hn => (A.isName_path n hn).1)
    (fun n hn => (B.isName_path n hn).1) heq)

theorem Cell.mkdirs_ok_of_object {m : Int → Option Str} {id : Int} {body : Str}
    (hc : Cell H A.key s m) (h : m id = some body) : (s.disk.mkdirs (H.locOf A.key)).2 = true := by
  rw [mkdirs_of_isDir (hc.isDir_of_object h)]

theorem Running.post_eq (hs : Running H R s) :
    nestedServer H R s (.post A) = postAt H Faults.none A.key [] s :=
  nestedServer_eq (.post A) hs.root

theorem Running.delete_eq (hs : Running H R s) {n : ℕ} (hn : n ≤ intMax) :
    nestedServer H R s (.delete A n) = deleteAt H Faults.none A.key n s := by
  rw [nestedServer_eq _ hs.root, NestedRequest.op, NestedRequest.delete, Entity.opOf,
    IdText.value_ofNat, if_pos hn]
  rfl

theorem Running.list_eq (hs : Running H R s) :
    nestedServer H R s (.list A) = (listAt H A.key s, s) :=
  nestedServer_eq (.list A) hs.root

/-- POSTs on `A` fill its ids from 1 on. -/
theorem posts_run (hAB : A.names ≠ B.names) (k : ℕ) (hk : k ≤ intMax) :
    ∃ m, Cell H A.key (Runs.final (nestedServer H R) ⟨emptyRoot H R, IdMap.empty⟩
        (List.replicate k (.post A))) m ∧
      (∀ j, (m j).isSome = true ↔ 1 ≤ j ∧ j ≤ k) ∧
      ((Runs.final (nestedServer H R) ⟨emptyRoot H R, IdMap.empty⟩
        (List.replicate k (.post A))).disk.mkdirs (H.locOf A.key)).2 = true ∧
      (Runs.final (nestedServer H R) ⟨emptyRoot H R, IdMap.empty⟩
        (List.replicate k (.post A))).ids B.key = none := by
  induction k with
  | zero =>
    refine ⟨fun _ => none, cell_of_empty emptyRoot_node A, fun j => ?_, emptyRoot_mkdirs _, rfl⟩
    simp
    omega
  | succ k ih =>
    obtain ⟨m, hc, hm, hok, hB⟩ := ih (by omega)
    rw [List.replicate_succ', Runs.final_append, Runs.final_cons, Runs.final_nil]
    have hrun := running_emptyRoot.run (H := H) (List.replicate k (NestedRequest.post A))
    generalize Runs.final (nestedServer H R) ⟨emptyRoot H R, IdMap.empty⟩
      (List.replicate k (.post A)) = s at hc hok hB hrun ⊢
    have hnext : getNextID s.ids A.key = .ok (k + 1 : ℕ) := by
      refine getNextID_ok_iff.mpr ⟨by omega, by omega, ?_, fun j hj hlt => ?_⟩
      · rw [hc.ids, ← Bool.not_eq_true, hm]
        omega
      · rw [hc.ids, hm]
        omega
    have hcell := hc.post hok hnext []
    rw [hrun.post_eq]
    refine ⟨_, hcell, fun j => ?_, hcell.mkdirs_ok_of_object (Function.update_self ..), ?_⟩
    · by_cases hj : j = (k + 1 : ℕ)
      · rw [hj, Function.update_self]
        simp
      · rw [Function.update_of_ne hj, hm]
        omega
    · exact ((change_post H _ s []).ids_other (names_ne_key hAB).symm).trans hB

/-- With a file on the way POST answers 500. -/
theorem postAt_of_blocked {e : Str} {k : Loc} (hk : k <:+ H.locOf e)
    (hfile : s.disk.isFile k = true) (hids : s.ids e = none) (body : Str) :
    (postAt H Faults.none e body s).1 = page .internalServerError := by
  have hok : (s.disk.mkdirs (H.locOf e)).2 = false := by
    rw [← Bool.not_eq_true, mkdirs_ok_iff]
    intro h
    rw [h k hk] at hfile
    exact absurd hfile (by decide)
  rw [postAt, getNextID_empty (IdMap.has_of_none hids), makeDirAt_none, hok]

/-- An id of `A` on the way to `B`: POST on `B` fails once the id is in use. -/
theorem not_nonInterference_of_blocked (hAB : A.names ≠ B.names) {id : Int} (hpos : 1 ≤ id)
    (hmax : id ≤ intMax) (hway : A.names ++ [intToString id] <+: B.names) :
    ¬ NonInterference H A B := by
  intro h
  obtain ⟨n, rfl⟩ := Int.eq_ofNat_of_zero_le (by omega : 0 ≤ id)
  obtain ⟨m, hc, hm, _, hB⟩ := posts_run (H := H) hAB n (by omega)
  have hout := h (emptyRoot H R) (isDir_of_node emptyRoot_node) []
    (List.replicate n (.post A)) [.post B] (fun r hr => by rw [List.eq_of_mem_replicate hr]; rfl)
    fun r hr => by rw [List.mem_singleton.mp hr]; rfl
  have hrun := running_emptyRoot.run (H := H) (List.replicate n (NestedRequest.post A))
  have hfile : (Runs.final (nestedServer H R) ⟨emptyRoot H R, IdMap.empty⟩
      (List.replicate n (.post A))).disk.isFile (Disk.objectLoc H A.key n) = true := by
    rw [hc.isFile_iff_live, hm]
    omega
  have hfresh := (cell_of_empty (emptyRoot_node (H := H)) B).post_eq (emptyRoot_mkdirs _)
    (getNextID_empty fun _ => rfl) []
  simp only [Runs.final_nil, Runs.outputs_cons, Runs.outputs_nil, hrun.post_eq,
    running_emptyRoot.post_eq] at hout
  have hblocked := postAt_of_blocked ((objectLoc_suffix_iff H n).mpr hway) hfile hB []
  have heq := hblocked.symm.trans ((List.cons.inj hout).1.trans (congrArg Prod.fst hfresh))
  exact idAnswer_ne_page (by decide) _ heq

/-- What is left of `B` after POST and DELETE of its only object. -/
structure Emptied (H : Host) (B : Entity R) (s : Store Tree) : Prop where
  running : Running H R s
  key : s.ids B.key ≠ none
  others : ∀ k, k ≠ B.key → s.ids k = none
  gone : s.disk.node (H.locOf B.key) = none
  clear : ∀ k, k <:+ H.locOf B.key → s.disk.isFile k = false

theorem emptied_run (B : Entity R) :
    Emptied H B (Runs.final (nestedServer H R) ⟨emptyRoot H R, IdMap.empty⟩
      [.post B, .delete B 1]) := by
  have hempty := cell_of_empty (emptyRoot_node (H := H)) B
  have hnext : getNextID IdMap.empty B.key = .ok 1 := getNextID_empty fun _ => rfl
  have hkey : (postAt H Faults.none B.key [] ⟨emptyRoot H R, IdMap.empty⟩).2.ids B.key ≠ none := by
    rw [hempty.post_eq (emptyRoot_mkdirs _) hnext]
    exact IdMap.insert_self_ne_none
  have hcell := hempty.post (emptyRoot_mkdirs _) hnext []
  have hpost : Change H B.key _ _ := change_post H Faults.none ⟨emptyRoot H R, IdMap.empty⟩ []
  have hrun := (running_emptyRoot (H := H)).step (.post B)
  rw [Runs.final_cons, Runs.final_cons, Runs.final_nil]
  rw [running_emptyRoot.post_eq] at hrun ⊢
  generalize (postAt H Faults.none B.key [] ⟨emptyRoot H R, IdMap.empty⟩).2 = s at *
  have hrun' := hrun.step (.delete B 1)
  rw [hrun.delete_eq (by decide), Nat.cast_one] at hrun' ⊢
  have hdelete : Change H B.key s _ := change_delete H Faults.none s B.noDotDot_key 1
  have hlive : Function.update (fun _ : Int => (none : Option Str)) 1 (some []) 1 ≠ none := by simp
  have hcell' := hcell.delete hlive
  refine ⟨hrun', hdelete.ids_ne_none hkey, fun k hk => ?_, hcell'.gone fun id => ?_,
    fun k hk => ?_⟩
  · rw [hdelete.ids_other hk, hpost.ids_other hk]
    rfl
  · by_cases hid : id = 1 <;> simp [hid]
  · rw [hdelete.isFile_above hk, hpost.isFile_above hk]
    exact emptyRoot_isFile k

/-- Below an emptied entity POST works, and makes its directory again. -/
theorem Emptied.post_below (hs : Emptied H B s) (hAB : A.names ≠ B.names)
    (hway : B.names <+: A.names) :
    (postAt H Faults.none A.key [] s).2.disk.isDir (H.locOf B.key) = true := by
  have hsuf := (locOf_suffix_iff H).mpr hway
  have hne : H.locOf B.key ≠ H.locOf A.key := fun heq =>
    hAB (hway.eq_of_length_le (by
      have hback := (locOf_suffix_iff (A := B) (B := A) H).mp (heq ▸ List.suffix_rfl)
      exact hback.length_le)).symm
  have hgone := (node_eq_none_iff.mp hs.gone).1
  have hids := IdMap.has_of_none (hs.others _ (names_ne_key hAB))
  have hcell := cell_of_gone (node_eq_none_of_above hgone hsuf hne) hids
  have hok : (s.disk.mkdirs (H.locOf A.key)).2 = true := by
    rw [mkdirs_ok_iff]
    intro k hk
    rcases List.suffix_or_suffix_of_suffix hk hsuf with h | h
    · exact hs.clear k h
    · by_cases heq : H.locOf B.key = k
      · rw [← heq]
        exact hs.clear _ List.suffix_rfl
      · exact (node_eq_none_iff.mp (node_eq_none_of_above hgone h heq)).2
  have hpost := hcell.post hok (getNextID_empty hids) []
  exact isDir_of_suffix (hpost.isDir_of_object (Function.update_self ..)) hsuf

/-- `B` on the way to `A`: POST on `A` brings back the directory of an emptied `B`. -/
theorem not_nonInterference_of_above (hAB : A.names ≠ B.names) (hway : B.names <+: A.names) :
    ¬ NonInterference H A B := by
  intro h
  have hout := h (emptyRoot H R) (isDir_of_node emptyRoot_node) [.post B, .delete B 1]
    [.post A] [.list B] (fun r hr => by rw [List.mem_singleton.mp hr]; rfl)
    fun r hr => by rw [List.mem_singleton.mp hr]; rfl
  have hs := emptied_run (H := H) B
  dsimp only at hout
  generalize Runs.final (nestedServer H R) ⟨emptyRoot H R, IdMap.empty⟩
    [.post B, .delete B 1] = s at hs hout
  have hrun := hs.running.step (.post A)
  rw [Runs.final_cons, Runs.final_nil, Runs.outputs_cons, Runs.outputs_cons, hrun.list_eq,
    hs.running.list_eq, hs.running.post_eq] at hout
  have hkey : (postAt H Faults.none A.key [] s).2.ids B.key ≠ none :=
    (change_post H Faults.none s []).ids_ne_none hs.key
  have heq := (List.cons.inj hout).1
  rw [listAt_of_key hkey, listAt_of_key hs.key, scanAt_of_none hs.gone,
    scanAt_of_isDir (hs.post_below hAB hway)] at heq
  exact absurd (Prod.mk.inj (Except.ok.inj heq)).1 (by decide)

end Interference

/-- Two entities do not interfere if and only if neither of the two ways is there. -/
theorem nonInterference_iff (H : Host) {R : Root} (A B : Entity R) (hAB : A.names ≠ B.names) :
    NonInterference H A B ↔ Independent A B := by
  constructor
  · intro h
    refine ⟨fun hway => not_nonInterference_of_above hAB hway h, fun id hpos hmax hway => ?_⟩
    exact not_nonInterference_of_blocked hAB hpos hmax hway h
  · exact fun h => h.nonInterference

namespace Demo

/-- `/crud/x` and `/crud/x/1/y`. -/
def entityX : Entity root := ⟨[], "x".toList, by decide, rfl⟩

def entityY : Entity root := ⟨["x".toList, "1".toList], "y".toList, by decide, by decide⟩

end Demo

theorem nonInterference_iff_nested :
    NonInterference Demo.host Demo.entityX Demo.entityY ↔
      Independent Demo.entityX Demo.entityY :=
  nonInterference_iff _ _ _ (by decide)

/-- The file of the first object of `/crud/x` is where `/crud/x/1/y` needs a directory. -/
theorem not_nonInterference_nested : ¬ NonInterference Demo.host Demo.entityX Demo.entityY := by
  intro h
  have hout := h Demo.disk (isDir_of_node Demo.root_empty) [] [.post Demo.entityX]
    [.post Demo.entityY] (fun r hr => by rw [List.mem_singleton.mp hr]; rfl)
    fun r hr => by rw [List.mem_singleton.mp hr]; rfl
  revert hout
  decide +kernel

end Webserver
