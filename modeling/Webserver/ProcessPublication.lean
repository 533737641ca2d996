import Webserver.ProcessStores

/-!
# A static location over the root of a CRUD location

The two handlers know nothing of each other; they meet on the disk. What a static location
answers for the path of an object is what the abstract store holds under its number.
-/

set_option autoImplicit false

namespace Webserver

open FileTree FileTree.Tree Segments CrudHandler RequestDispatcher ObjectStore

universe u

namespace StaticHandler

/-- The answer for a file with this content, if there is one, on a disk without faults. -/
def answerFor (H : Host) (f : Str) (content : Option Str) : Answer :=
  if isInPrivilegedDirectory H (H.fromCwd f) then .ok (.forbidden, statusString .forbidden)
  else
    match content with
    | none => .ok (.notFound, statusString .notFound)
    | some body =>
      if body.length > maxFileSize - 1 then .ok (.badRequest, statusString .badRequest)
      else .ok (.ok, body)

section Answers
variable {H : Host} {t : Tree} {f : Str} {req : Request}

theorem answer_eq (H : Host) (t : Tree) (f : Str) (req : Request) :
    (.ok ((handleRequest H Faults.none t f req .fresh).2.result,
      (handleRequest H Faults.none t f req .fresh).2.body) : Answer) =
      answerFor H f (fileContent t (H.fromCwd f)) := by
  unfold handleRequest answerFor setHeaders
  dsimp only
  rw [isRegularFile_eq, fileSize]
  cases isInPrivilegedDirectory H (H.fromCwd f) with
  | true => rfl
  | false =>
    cases hcontent : fileContent t (H.fromCwd f) with
    | none => rfl
    | some body =>
      by_cases hlen : body.length > maxFileSize - 1
      · simp only [Option.getD_some, hlen, if_true]
        rfl
      · have hread := readChunks_none 0 body ([] : Str)
        have hopen : openStream Faults.none t (H.fromCwd f) = IfStream.opened body := by
          simp [openStream, hcontent]
        simp only [Option.getD_some, hlen, if_false, hopen]
        rw [show Faults.none.read (H.fromCwd f) = fun _ => none from rfl]
        simp [hread, Response.fresh, Response.preparePayload]

end Answers

end StaticHandler

/-! ### The path of an object -/

section Spelling
variable {H : Host} {R : Root} {x : EntityName} {n : ℕ} {f : Str}

/-- The path leads from the root over the entity to the number, with any slashes between them. -/
def SpellsObject (R : Root) (x : EntityName) (n : ℕ) (f : Str) : Prop :=
  components f = R.names ++ [x.name, intToString n] ∧ f.getLast? ≠ some '/'

theorem SpellsObject.steps_fromCwd (hf : SpellsObject R x n f) :
    steps (H.fromCwd f) =
      (H.cwd ++ R.names ++ [x.name]).map .down ++ [.down (intToString n)] := by
  have hne : f ≠ [] := by
    rintro rfl
    exact absurd hf.1 (by simp [components])
  have hlast : (H.fromCwd f).getLast? ≠ some '/' := by
    rw [Host.fromCwd, H.append_eq, if_neg hne]
    split
    · rw [List.getLast?_append_of_ne_nil _ hne]
      exact hf.2
    · rw [List.getLast?_append_of_ne_nil _ (List.cons_ne_nil _ _),
        List.getLast?_cons_of_ne_nil hne]
      exact hf.2
  have hnames : ∀ m ∈ H.cwd ++ (R.names ++ [x.name, intToString n]), IsName m := by
    intro m hm
    simp only [List.mem_append, List.mem_cons, List.not_mem_nil, or_false] at hm
    rcases hm with hm | hm | rfl | rfl
    · exact H.cwd_names m hm
    · exact R.ordinary m hm
    · exact x.ordinary
    · exact isName_intToString _
  rw [steps, if_neg hlast, List.append_nil, H.components_fromCwd, hf.1,
    map_toStep_of_isName hnames]
  simp

theorem SpellsObject.lexical (hf : SpellsObject R x n f) :
    FileTree.lexical [] (steps (H.fromCwd f)) = Disk.objectLoc H (x.key R) n := by
  rw [hf.steps_fromCwd, lexical_append, lexical_down, Disk.objectLoc, EntityName.locOf_key]
  simp [FileTree.lexical, Step.apply, Root.loc, Host.cwdLoc]

/-- The file at the path of an object is the body of the object. -/
theorem Represents.fileContent_eq {s : Store Tree} {m : Objects EntityName Str}
    (hs : Represents H R s m) (hf : SpellsObject R x n f) :
    StaticHandler.fileContent s.disk (H.fromCwd f) = m.lookup (x, n) := by
  have hup : NoUp (steps (H.fromCwd f)) := by
    rw [hf.steps_fromCwd]
    simp [NoUp]
  have hobject := (hs.cells x).objects n
  rw [bodies_natCast] at hobject
  apply Option.ext
  intro c
  rw [StaticHandler.fileContent_eq_some, lookup_eq_file_iff hup, hf.lexical, hobject]
  constructor
  · rintro ⟨_, hc⟩
    obtain ⟨c', hc', heq⟩ := Option.map_eq_some_iff.mp hc
    rw [hc', Node.file.inj heq]
  · intro hc
    refine ⟨⟨_, _, hf.steps_fromCwd⟩, ?_⟩
    rw [hc]
    rfl

end Spelling

/-- After any run, a static location answers for the path of an object with what the abstract
store holds under its number. -/
theorem static_publishes_objectStore {ι : Type u} (H : Host) (toText : ParsedRequest → Str)
    (T : HandlerFactories) (k : Str) (R : Root) (hk : IsCrudRoot T k R) (t : Tree)
    (hroot : t.node (R.loc H) = some (.dir [])) (as : List (Arrival ι)) (s : Process)
    (has : ∀ a ∈ as, Admitted H T k R a)
    (hrun : Traces.after (Process.step H toText T) (Process.boot t) as = some s)
    (hmax : ∀ id : ℕ, idAnswer id ∈ Runs.outputs objectStore ∅
      (as.filterMap (storeRequest H T k R)) → id ≤ intMax)
    (a : Arrival ι) (m : Match) (config : NginxConfig) (hm : matched T a = some m)
    (hstatic : m.factory = .staticHandler config) (hclean : a.faults = Faults.none)
    (x : EntityName) (n : ℕ)
    (hf : SpellsObject R x n (FileHandlerFactory.getCompleteFilePath config m.path)) :
    s.answer H toText T a =
      StaticHandler.answerFor H (FileHandlerFactory.getCompleteFilePath config m.path)
        ((Runs.final objectStore ∅ (as.filterMap (storeRequest H T k R))).lookup (x, n)) := by
  obtain ⟨_, hholds⟩ := (follows_objectStore H toText T hk).run (holds_boot hroot) has hrun
    (by rintro b hb id rfl; exact hmax id hb)
  have hcontent := hholds.represents.fileContent_eq hf
  rw [Process.answer, Process.respond, answerRequest_of_matched hm, Match.handle, hstatic]
  dsimp only
  rw [hclean, ← hcontent]
  exact StaticHandler.answer_eq H s.world.disk _ a.request.toRequest

theorem static_publishes_objectStore_traffic : ∃ s : Process,
    s.answer Demo.host ParsedRequest.target Demo.shared
        (Demo.arrival .get "/pub/x/1".toList []) =
      StaticHandler.answerFor Demo.host "/crud/x/1".toList
        ((Runs.final objectStore ∅ (Demo.traffic.filterMap
          (storeRequest Demo.host Demo.shared "/api".toList Demo.root))).lookup (Demo.x, 1)) := by
  obtain ⟨s, hs⟩ := Demo.exists_after_traffic
  exact ⟨s, static_publishes_objectStore Demo.host ParsedRequest.target Demo.shared "/api".toList
    Demo.root Demo.isCrudRoot_shared Demo.disk Demo.root_empty Demo.traffic s
    Demo.admitted_traffic hs Demo.small_traffic _
    ⟨"/pub".toList, .staticHandler Demo.crudConfig, "x/1".toList⟩ Demo.crudConfig rfl rfl rfl
    Demo.x 1 ⟨by decide +kernel, by decide⟩⟩

end Webserver
