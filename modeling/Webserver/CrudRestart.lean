import Webserver.CrudListing

/-!
# Restarts

A restart builds a new `CrudHandlerFactory` over the same disk: the map of ids is empty again
and nothing reads it back from the directories. The key of an entity enters the map with its
first POST and never leaves it, and a listing already tells whether it is there.
-/

set_option autoImplicit false

namespace Webserver

open FileTree FileTree.Tree CrudHandler

def restarted (s : Store Tree) : Store Tree := ⟨s.disk, IdMap.empty⟩

/-- No sequence of requests on entities of `S` tells the restarted server from the other. -/
def SurvivesRestart (H : Host) (R : Root) (S : Set EntityName) (s : Store Tree) : Prop :=
  ∀ rs : List EntityRequest, (∀ r ∈ rs, r.entity ∈ S) →
    Runs.outputs (locationServer H R) (restarted s) rs =
      Runs.outputs (locationServer H R) s rs

/-- A POST without an id. -/
def EntityRequest.Creates (r : EntityRequest) : Prop :=
  r.object = none ∧ r.request.method = .post

theorem EntityRequest.creates_iff (r : EntityRequest) :
    r.Creates ↔ ∃ body, r.op = .post body := by
  obtain ⟨e, o, ⟨method, version, body⟩⟩ := r
  cases o with
  | none => cases method <;> simp [Creates, op, Entity.opOf, Op.ofEntity]
  | some n =>
    by_cases hn : n.value ≤ intMax <;>
      cases method <;> simp [Creates, op, Entity.opOf, Op.ofObject, hn]

section Keys
variable {H : Host} {R : Root} {e : Str} {s : Store Tree}

/-- Only a POST without an id brings a key into the map. -/
theorem act_ids_eq_none {op : Op} (hop : ∀ body, op ≠ .post body) (hids : s.ids e = none)
    (F : Faults) : (act H F e op s).2.ids e = none := by
  have hmissing (id : Int) := IdMap.has_of_none hids id
  cases op with
  | post body => exact absurd rfl (hop body)
  | put id body =>
    rw [act, putAt, hmissing]
    exact hids
  | delete id =>
    rw [act, deleteAt, hmissing]
    exact hids
  | get id => exact hids
  | list => exact hids
  | refused => exact hids
  | thrown a => exact hids

theorem Cell.post_ids_ne_none {E : Entity R} {m : Int → Option Str} (hc : Cell H E.key s m)
    (hp : s.disk.isDir (E.parentLoc H) = true) (body : Str) :
    (postAt H Faults.none E.key body s).2.ids E.key ≠ none := by
  rcases getNextID_spec s.ids E.key with ⟨id, hnext, _⟩ | ⟨hnext, hall⟩
  · rw [hc.post_eq (hc.mkdirs_ok hp) hnext]
    exact IdMap.insert_self_ne_none
  · rw [postAt, hnext]
    intro hnone
    have hlive := hall 1 (by omega) (by decide)
    rw [IdMap.has_of_none hnone] at hlive
    exact absurd hlive (by decide)

/-- The listing tells an entity that is in the map from one that is not. -/
theorem Cell.listAt_ne_nil {m : Int → Option Str} (hc : Cell H e s m) (hids : s.ids e ≠ none) :
    listAt H e s ≠ .ok (.ok, jsonList []) := by
  obtain ⟨ids, hids⟩ := Option.ne_none_iff_exists'.mp hids
  by_cases hempty : ids = ∅
  · rw [hc.listAt_of_empty (by rw [hids, hempty])]
    exact fun h => absurd (Prod.mk.inj (Except.ok.inj h)).1 (by decide)
  · obtain ⟨L, hfiles, _, hlive⟩ := hc.filesAt_eq
    obtain ⟨id, hid⟩ := Finset.nonempty_iff_ne_empty.mpr hempty
    rw [hc.listAt_of_live hids hempty, hfiles, listBody_map]
    cases L with
    | nil =>
      have hmem := (hlive id).mpr (IdMap.has_iff.mpr ⟨ids, hids, hid⟩)
      exact absurd hmem List.not_mem_nil
    | cons id' L => exact fun h => jsonList_ne_nil id' L (Prod.mk.inj (Except.ok.inj h)).2

end Keys

section Histories
variable {H : Host} {R : Root} {s : Store Tree} {S : Set EntityName}

/-- Entities that were never created look the same after a restart. -/
theorem Healthy.restarted_sameView {e : EntityName} (hids : s.ids (e.key R) = none) :
    SameView H (e.key R) (restarted s) s :=
  ⟨hids.symm, rfl, fun _ => rfl, fun _ _ => rfl⟩

theorem survivesRestart_of_absent (hs : Healthy H R s)
    (habsent : ∀ e ∈ S, s.ids (e.key R) = none) : SurvivesRestart H R S s := by
  intro rs hrs
  refine Runs.outputs_of_simulation (A := fun r => r.entity ∈ S) (B := fun _ => True)
    (R := fun s s' => s.disk.isDir (R.loc H) = true ∧ s'.disk.isDir (R.loc H) = true ∧
      ∀ e ∈ S, SameView H (e.key R) s s')
    (fun s s' r hr _ hR => ?_)
    ⟨hs.root, hs.root, fun e he => Healthy.restarted_sameView (habsent e he)⟩ hrs
    fun _ _ => trivial
  obtain ⟨hroot, hroot', hview⟩ := hR
  have hchange := locationServer_change r hroot
  have hchange' := locationServer_change r hroot'
  obtain ⟨hout, hnext⟩ := (hview r.entity hr).act Faults.none r.op
  rw [← locationServer_eq r hroot, ← locationServer_eq r hroot'] at hout hnext
  refine ⟨hout, isDir_root_of_change hchange hroot, isDir_root_of_change hchange' hroot',
    fun e he => ?_⟩
  by_cases heq : r.entity = e
  · rw [← heq]
    exact hnext
  · exact ((sameView_of_change hchange heq).symm.trans (hview e he)).trans
      (sameView_of_change hchange' heq)

theorem not_survivesRestart_of_present (hs : Healthy H R s) {e : EntityName} (he : e ∈ S)
    (hids : s.ids (e.key R) ≠ none) : ¬ SurvivesRestart H R S s := by
  intro h
  have hlist := h [⟨e, none, ⟨.get, 11, []⟩⟩] fun r hr => by
    rw [List.mem_singleton.mp hr]
    exact he
  rw [Runs.outputs_cons, Runs.outputs_cons, get_entity_eq e 11 [] hs.root,
    get_entity_eq (s := restarted s) e 11 [] hs.root] at hlist
  obtain ⟨m, hm⟩ := hs.cells e
  exact hm.listAt_ne_nil hids (List.cons.inj hlist).1.symm

/-- The keys after a run of requests. -/
theorem absent_of_run (hs : Healthy H R s) (habsent : ∀ e ∈ S, s.ids (e.key R) = none)
    (rs : List EntityRequest) (hrs : ∀ r ∈ rs, r.entity ∈ S → ¬ r.Creates) :
    ∀ e ∈ S, (Runs.final (locationServer H R) s rs).ids (e.key R) = none := by
  refine (Runs.final_invariant (A := fun r => r.entity ∈ S → ¬ r.Creates)
    (I := fun s => Healthy H R s ∧ ∀ e ∈ S, s.ids (e.key R) = none)
    (fun s r hr hI => ⟨hI.1.step r, fun e he => ?_⟩) ⟨hs, habsent⟩ hrs).2
  by_cases heq : e = r.entity
  · subst heq
    rw [locationServer_eq r hI.1.root]
    refine act_ids_eq_none (fun body hop => hr he ?_) (hI.2 _ he) _
    exact r.creates_iff.mpr ⟨body, hop⟩
  · rw [(locationServer_change r hI.1.root).ids_other (EntityName.key_ne heq)]
    exact hI.2 e he

theorem present_of_run (hs : Healthy H R s) {rs : List EntityRequest} {r : EntityRequest}
    (hr : r ∈ rs) (hcreates : r.Creates) :
    (Runs.final (locationServer H R) s rs).ids (r.entity.key R) ≠ none := by
  obtain ⟨before, after, rfl⟩ := List.append_of_mem hr
  rw [Runs.final_append, Runs.final_cons]
  have hbefore := hs.run before
  obtain ⟨m, hm⟩ := hbefore.cells r.entity
  obtain ⟨body, hop⟩ := r.creates_iff.mp hcreates
  have hpresent : (locationServer H R (Runs.final (locationServer H R) s before) r).2.ids
      (r.entity.key R) ≠ none := by
    rw [locationServer_eq r hbefore.root, hop]
    exact hm.post_ids_ne_none (by rw [EntityName.parentLoc_entity]; exact hbefore.root) body
  exact (Runs.final_invariant (A := fun _ => True)
    (I := fun s => Healthy H R s ∧ s.ids (r.entity.key R) ≠ none)
    (fun s r' _ hI => ⟨hI.1.step r', (locationServer_change r' hI.1.root).ids_ne_none hI.2⟩)
    ⟨hbefore.step r, hpresent⟩ fun _ _ => trivial).2

end Histories

/-- The data of some entities survives a restart if and only if there is none. -/
theorem survivesRestart_iff (H : Host) (R : Root) (t : Tree)
    (hroot : t.node (R.loc H) = some (.dir [])) (rs : List EntityRequest) (S : Set EntityName) :
    SurvivesRestart H R S (Runs.final (locationServer H R) ⟨t, IdMap.empty⟩ rs) ↔
      ∀ r ∈ rs, r.entity ∈ S → ¬ r.Creates := by
  have hs := healthy_of_empty hroot
  constructor
  · intro h r hr hS hcreates
    exact not_survivesRestart_of_present (hs.run rs) hS (present_of_run hs hr hcreates) h
  · intro h
    exact survivesRestart_of_absent (hs.run rs) (absent_of_run hs (fun e _ => rfl) rs h)

theorem survivesRestart_iff_post :
    SurvivesRestart Demo.host Demo.root Set.univ (Runs.final (locationServer Demo.host Demo.root)
        ⟨Demo.disk, IdMap.empty⟩ [Demo.post []]) ↔
      ∀ r ∈ [Demo.post []], r.entity ∈ Set.univ → ¬ r.Creates :=
  survivesRestart_iff _ _ _ Demo.root_empty _ _

/-- After a restart POST takes the first id again and meets the file it has. -/
theorem not_survivesRestart_post :
    ¬ SurvivesRestart Demo.host Demo.root Set.univ (Runs.final
      (locationServer Demo.host Demo.root) ⟨Demo.disk, IdMap.empty⟩ [Demo.post "a".toList]) := by
  intro h
  have hruns := h [Demo.post "b".toList] fun r _ => trivial
  have hrestarted : Runs.outputs (locationServer Demo.host Demo.root)
      (restarted (Runs.final (locationServer Demo.host Demo.root) ⟨Demo.disk, IdMap.empty⟩
        [Demo.post "a".toList])) [Demo.post "b".toList] = [page .internalServerError] := by
    decide +kernel
  have hother : Runs.outputs (locationServer Demo.host Demo.root)
      (Runs.final (locationServer Demo.host Demo.root) ⟨Demo.disk, IdMap.empty⟩
        [Demo.post "a".toList]) [Demo.post "b".toList] = [idAnswer 2] := by
    decide +kernel
  rw [hrestarted, hother] at hruns
  exact absurd (List.cons.inj hruns).1 (idAnswer_ne_page (by decide) 2)

end Webserver
