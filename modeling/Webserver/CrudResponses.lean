import Webserver.CrudOutcomes
import Webserver.StaticReads

/-!
# What a CRUD response carries

The status, headers and body of an answer. Nothing but a read that sets `badbit` leaves
characters in the body of an error.
-/

set_option autoImplicit false

namespace Webserver

open FileTree StaticHandler

namespace CrudHandler
variable {H : Host} {σ : Type} {M : CrudFileSystemManager σ} {filePath : Str} {req : Request}

/-- The text of `ReturnError`. -/
def errorText (status : StatusCode) : Str := statusString status ++ "\n\n".toList

/-- The status, the headers and the body agree as far as the method has left the body alone. -/
theorem finish_agrees_iff (o : Outcome σ) {status : StatusCode} (h : o.status = .ok status)
    {res : Response} :
    Response.Agrees res errorText status (finish o).res ↔
      (status ≠ .ok → o.res.body = res.body) := by
  obtain ⟨st, store, res₁⟩ := o
  obtain rfl : st = .ok status := h
  by_cases hok : status = .ok
  · subst hok
    exact iff_of_true ⟨rfl, rfl, fun h => absurd rfl h⟩ fun h => absurd rfl h
  · have hfinish : (finish ⟨.ok status, store, res₁⟩ : Outcome σ).res =
        returnError status res₁ := by
      cases status <;> first | rfl | exact absurd rfl hok
    rw [hfinish]
    have hbody : (returnError status res₁).body = res₁.body ++ errorText status := rfl
    constructor
    · intro hagrees _
      have htext := hagrees.text hok
      rw [hbody] at htext
      exact List.append_cancel_right htext
    · intro hsame
      refine ⟨rfl, rfl, fun _ => ?_⟩
      rw [hbody, hsame hok]

section Read
variable (F : Faults)

/-- A read of an object that sets `badbit`, with what it has delivered by then. -/
structure TornRead (H : Host) (F : Faults) (e : Str) (id : Int) (t : Tree) (d : Str) : Prop where
  opened : F.openIn (H.objectPath e id) = false
  torn : ∃ content, fileContent t (H.objectPath e id) = some content ∧
    Torn (F.read (H.objectPath e id)) content d

/-- A file is not read, or copied as a whole, or torn. -/
theorem readFile_cases (p : Str) (res : Response) (t : Tree) :
    (Disk.readFile F p res t = (false, res) ∧
      (F.openIn p = true ∨ fileContent t p = none)) ∨
    (F.openIn p = false ∧ ∃ content, fileContent t p = some content ∧
      (((∀ d, ¬ Torn (F.read p) content d) ∧
        Disk.readFile F p res t = (true, { res with body := res.body ++ content })) ∨
      ∃ d, Torn (F.read p) content d ∧
        Disk.readFile F p res t = (false, { res with body := res.body ++ d }))) := by
  rw [Disk.readFile, fileContent]
  cases hopen : F.openIn p with
  | true => exact Or.inl ⟨rfl, Or.inl rfl⟩
  | false =>
    rcases t.lookup (steps p) with _ | ⟨ns | content⟩
    · exact Or.inl ⟨rfl, Or.inr rfl⟩
    · exact Or.inl ⟨rfl, Or.inr rfl⟩
    · refine Or.inr ⟨rfl, content, rfl, ?_⟩
      rcases readChunks_cases (F.read p) content res.body with ⟨hnone, hread⟩ | ⟨d, hd, hread⟩
      · exact Or.inl ⟨hnone, by simp [hread]⟩
      · exact Or.inr ⟨d, hd, by simp [hread]⟩

theorem readObject_torn {e : Str} {id : Int} {s : Store Tree} {d : Str}
    (h : TornRead H F e id s.disk d) (res : Response) :
    readObject H (Disk.manager H F) e id s res =
      ⟨.ok .internalServerError, s, { res with body := res.body ++ d }⟩ := by
  obtain ⟨hopen, content, hcontent, hd⟩ := h
  have hlookup := fileContent_eq_some.mp hcontent
  have hread := readChunks_of_torn hd res.body
  have hfile : Disk.readFile F (H.objectPath e id) res s.disk =
      (false, { res with body := res.body ++ d }) := by
    rw [Disk.readFile, hopen]
    simp [hlookup, hread]
  simp only [readObject, Disk.manager, hfile]

/-- An error of a method leaves the response alone, but for a GET whose read is torn. -/
theorem handleMethod_res {s : Store Tree} {res : Response}
    (h : (handleMethod H (Disk.manager H F) filePath req s res).status ≠ .ok .ok) :
    (handleMethod H (Disk.manager H F) filePath req s res).res = res ∨
      ∃ e id d, parseTarget H filePath = .ok (e, id) ∧ req.method = .get ∧ id ≠ -1 ∧
        s.ids.has e id = true ∧ TornRead H F e id s.disk d ∧
        (handleMethod H (Disk.manager H F) filePath req s res).res =
          { res with body := res.body ++ d } := by
  have hfails {o : Outcome Tree} (hf : Fails (Disk.manager H F) s res o) : o.res = res := by
    obtain ⟨status, disk, _, _, rfl⟩ := hf
    rfl
  revert h
  unfold handleMethod
  cases hmethod : req.method with
  | post =>
    intro h
    rcases handlePost_cases H (Disk.manager H F) filePath req s res with hf | ⟨_, _, _, _, _, _, _, _, he⟩
    · exact Or.inl (hfails hf)
    · exact absurd (congrArg Outcome.status he) h
  | get =>
    intro h
    rcases handleGet_cases H (Disk.manager H F) filePath s res with
      hf | ⟨e, id, res', disk, hp, hid, hhas, hread, he⟩ | hok
    · exact Or.inl (hfails hf)
    · simp only [he]
      obtain ⟨hfile, rfl⟩ : Disk.readFile F (H.objectPath e id) res s.disk = (false, res') ∧
          s.disk = disk := Prod.mk.inj hread
      rcases readFile_cases F (H.objectPath e id) res s.disk with
        ⟨hr, _⟩ | ⟨hopen, content, hcontent, ⟨_, hr⟩ | ⟨d, hd, hr⟩⟩
      · rw [hr] at hfile
        exact Or.inl (Prod.mk.inj hfile).2.symm
      · rw [hr] at hfile
        exact absurd (Prod.mk.inj hfile).1 (by simp)
      · rw [hr] at hfile
        exact Or.inr ⟨e, id, d, hp, trivial, hid, hhas, ⟨hopen, content, hcontent, hd⟩,
          (Prod.mk.inj hfile).2.symm⟩
    · exact absurd hok h
  | put =>
    intro h
    rcases handlePut_cases H (Disk.manager H F) filePath req s res with hf | ⟨_, _, _, _, _, _, _, he⟩
    · exact Or.inl (hfails hf)
    · exact absurd (congrArg Outcome.status he) h
  | delete =>
    intro h
    rcases handleDelete_cases H (Disk.manager H F) filePath s res with hf | ⟨_, _, _, _, _, _, _, he⟩
    · exact Or.inl (hfails hf)
    · exact absurd (congrArg Outcome.status he) h
  | other name => exact fun _ => Or.inl rfl

/-- A GET of an object whose read is torn after a character or more. -/
def GetsTorn (H : Host) (F : Faults) (filePath : Str) (req : Request) (s : Store Tree) : Prop :=
  ∃ e id root d, Admits H (Disk.manager H F) filePath s.disk e id root ∧ req.method = .get ∧
    id ≠ -1 ∧ s.ids.has e id = true ∧
    TornRead H F e id (Disk.createDir F (H.fromCwd root) s.disk).2 d ∧ d ≠ []

theorem handleRequest_getsTorn {s : Store Tree} (h : GetsTorn H F filePath req s)
    (res : Response) :
    ∃ d, d ≠ [] ∧
      (handleRequest H (Disk.manager H F) filePath req s res).status = .ok .internalServerError ∧
      (handleRequest H (Disk.manager H F) filePath req s res).res.body =
        res.body ++ d ++ errorText .internalServerError := by
  obtain ⟨e, id, root, d, hadmits, hget, hid, hhas, htorn, hd⟩ := h
  have hread := readObject_torn F (s := { s with
    disk := (Disk.createDir F (H.fromCwd root) s.disk).2 }) htorn (greeted req res)
  refine ⟨d, hd, ?_⟩
  rw [handleRequest_of_admits hadmits, handleMethod, hget]
  simp only [handleGet, hadmits.parse, if_pos hid, hhas, Bool.not_true, Bool.false_eq_true,
    if_false]
  rw [show (Disk.manager H F).createDir = Disk.createDir F from rfl, hread]
  exact ⟨rfl, rfl⟩

/-- The status, headers and body of a CRUD answer agree exactly if no read is torn after a
character or more. -/
theorem agrees_iff (H : Host) (filePath : Str) (req : Request) (s : Store Tree)
    (res : Response) :
    (∀ status, (handleRequest H (Disk.manager H F) filePath req s res).status = .ok status →
        Response.Agrees res errorText status
          (handleRequest H (Disk.manager H F) filePath req s res).res) ↔
      ¬ GetsTorn H F filePath req s := by
  constructor
  · intro h htorn
    obtain ⟨d, hd, hstatus, hbody⟩ := handleRequest_getsTorn F htorn res
    have htext := (h _ hstatus).text (by decide)
    rw [hbody] at htext
    have hsame := List.append_cancel_right htext
    exact hd (List.append_right_eq_self.mp hsame)
  · intro hnot status hstatus
    rcases handleRequest_cases H (Disk.manager H F) filePath req s res with
      ⟨e, id, root, hadmits, he⟩ | ⟨st, disk, _, _, he⟩
    · rw [he] at hstatus ⊢
      rw [finish_status] at hstatus
      rw [finish_agrees_iff _ hstatus]
      intro hne
      have hmethod : (handleMethod H (Disk.manager H F) filePath req
          { s with disk := ((Disk.manager H F).createDir (H.fromCwd root) s.disk).2 }
          (greeted req res)).status ≠ .ok .ok := by
        rw [hstatus]
        simpa using hne
      rcases handleMethod_res F hmethod with hres | ⟨e', id', d, hp, hget, hid, hhas, htorn, hres⟩
      · rw [hres]
        rfl
      · rw [hadmits.parse] at hp
        obtain ⟨rfl, rfl⟩ := Prod.mk.inj (Except.ok.inj hp)
        have hd : d = [] := by
          by_contra hd
          exact hnot ⟨e, id, root, d, hadmits, hget, hid, hhas, htorn, hd⟩
        rw [hres, hd, List.append_nil]
        rfl
    · rw [he] at hstatus ⊢
      rw [finish_status] at hstatus
      rw [finish_agrees_iff _ hstatus]
      exact fun _ => rfl

end Read

/-! ### The response plays no part -/

/-- How it ends and what is left behind do not depend on the response that is written to. -/
def Uniform (f : Response → Outcome σ) : Prop :=
  ∃ status store, ∀ res, (f res).status = status ∧ (f res).store = store

theorem initRoot_uniform (H : Host) (M : CrudFileSystemManager σ) (filePath : Str)
    (req : Request) (s : Store σ) : ∃ status store, ∀ res,
      initRoot H M filePath req s res = ⟨status, store, greeted req res⟩ := by
  unfold initRoot
  cases parseTarget H filePath with
  | error a => exact ⟨_, _, fun _ => rfl⟩
  | ok x =>
    obtain ⟨e, id⟩ := x
    dsimp only
    split
    · exact ⟨_, _, fun _ => rfl⟩
    · cases rootLoop H (filePath.length + 1) filePath with
      | none => exact ⟨_, _, fun _ => rfl⟩
      | some root =>
        dsimp only
        rcases M.createDir (H.fromCwd root) s.disk with ⟨_ | _, disk⟩ <;>
          exact ⟨_, _, fun _ => rfl⟩

theorem readFile_verdict (F : Faults) (p : Str) (t : Tree) :
    ∃ verdict, ∀ res, (Disk.readFile F p res t).1 = verdict := by
  unfold Disk.readFile
  split
  · exact ⟨_, fun _ => rfl⟩
  · rcases t.lookup (steps p) with _ | ⟨names | content⟩
    · exact ⟨_, fun _ => rfl⟩
    · exact ⟨_, fun _ => rfl⟩
    · by_cases htorn : ∃ d, Torn (F.read p) content d
      · obtain ⟨d, hd⟩ := htorn
        exact ⟨false, fun res => congrArg Prod.fst (readChunks_of_torn hd res.body)⟩
      · refine ⟨true, fun res => ?_⟩
        rcases readChunks_cases (F.read p) content res.body with ⟨_, hread⟩ | ⟨d, hd, _⟩
        · exact congrArg Prod.fst hread
        · exact absurd ⟨d, hd⟩ htorn

theorem readObject_uniform (H : Host) (F : Faults) (e : Str) (id : Int) (s : Store Tree) :
    Uniform (readObject H (Disk.manager H F) e id s) := by
  obtain ⟨verdict, h⟩ := readFile_verdict F (H.objectPath e id) s.disk
  refine ⟨if verdict then .ok .ok else .ok .internalServerError, s, fun res => ?_⟩
  rw [← h res]
  dsimp only [readObject, Disk.manager]
  rcases Disk.readFile F (H.objectPath e id) res s.disk with ⟨_ | _, res'⟩ <;> exact ⟨rfl, rfl⟩

theorem handleMethod_uniform (H : Host) (F : Faults) (filePath : Str) (req : Request)
    (s : Store Tree) :
    Uniform (handleMethod H (Disk.manager H F) filePath req s) := by
  unfold handleMethod handlePost handleGet handlePut handleDelete
  cases parseTarget H filePath with
  | error a => cases req.method <;> exact ⟨_, _, fun _ => ⟨rfl, rfl⟩⟩
  | ok x =>
    obtain ⟨e, id⟩ := x
    cases req.method with
    | post =>
      dsimp only
      split
      · exact ⟨_, _, fun _ => ⟨rfl, rfl⟩⟩
      · cases getNextID s.ids e with
        | error a => exact ⟨_, _, fun _ => ⟨rfl, rfl⟩⟩
        | ok next =>
          dsimp only
          rcases (Disk.manager H F).createDir (H.fromCwd e) s.disk with ⟨_ | _, disk⟩
          · exact ⟨_, _, fun _ => ⟨rfl, rfl⟩⟩
          · dsimp only
            rcases (Disk.manager H F).createFile (H.objectPath e next) req.body disk with
              ⟨_ | _, disk'⟩ <;> exact ⟨_, _, fun _ => ⟨rfl, rfl⟩⟩
    | put =>
      dsimp only
      split
      · exact ⟨_, _, fun _ => ⟨rfl, rfl⟩⟩
      · split
        · exact ⟨_, _, fun _ => ⟨rfl, rfl⟩⟩
        · rcases (Disk.manager H F).writeFile (H.objectPath e id) req.body s.disk with
            ⟨_ | _, disk⟩ <;> exact ⟨_, _, fun _ => ⟨rfl, rfl⟩⟩
    | delete =>
      dsimp only
      split
      · exact ⟨_, _, fun _ => ⟨rfl, rfl⟩⟩
      · split
        · exact ⟨_, _, fun _ => ⟨rfl, rfl⟩⟩
        · rcases (Disk.manager H F).deleteFile (H.objectPath e id) s.disk with
            ⟨_ | _, disk⟩ <;> exact ⟨_, _, fun _ => ⟨rfl, rfl⟩⟩
    | get =>
      dsimp only
      split
      · split
        · exact ⟨_, _, fun _ => ⟨rfl, rfl⟩⟩
        · exact readObject_uniform H F e id s
      · split
        · exact ⟨_, _, fun _ => ⟨rfl, rfl⟩⟩
        · dsimp only [listEntity]
          rcases (Disk.manager H F).listFiles (H.fromCwd e) s.disk with ⟨⟨_ | _, files⟩, disk⟩ <;>
            exact ⟨_, _, fun _ => ⟨rfl, rfl⟩⟩
    | other name => exact ⟨_, _, fun _ => ⟨rfl, rfl⟩⟩

theorem handleRequest_uniform (H : Host) (F : Faults) (filePath : Str) (req : Request)
    (s : Store Tree) :
    Uniform (handleRequest H (Disk.manager H F) filePath req s) := by
  obtain ⟨status, store, hinit⟩ := initRoot_uniform H (Disk.manager H F) filePath req s
  unfold handleRequest
  simp only [hinit]
  split
  · obtain ⟨status', store', hmethod⟩ := handleMethod_uniform H F filePath req store
    refine ⟨status', store', fun res => ?_⟩
    rw [finish_status, finish_store]
    exact hmethod (greeted req res)
  · exact ⟨status, store, fun res => ⟨finish_status _, finish_store _⟩⟩

end CrudHandler

/-- The returned status, the status, length and body of the response agree, for the static
handler exactly if a file that is opened is read to its end, for the CRUD handler exactly if no
GET is torn after a character or more. -/
theorem responses_agree_iff (H : Host) (F : Faults) (filePath : Str) (req : Request)
    (res : Response) :
    (∀ t, Response.Agrees res statusString (StaticHandler.handleRequest H F t filePath req res).1
        (StaticHandler.handleRequest H F t filePath req res).2 ↔
      ∀ content, Passes H t (H.fromCwd filePath) content →
        F.openIn (H.fromCwd filePath) = true ∨
          ∀ d, ¬ Torn (F.read (H.fromCwd filePath)) content d) ∧
    ∀ s, (∀ status,
        (CrudHandler.handleRequest H (Disk.manager H F) filePath req s res).status = .ok status →
        Response.Agrees res CrudHandler.errorText status
          (CrudHandler.handleRequest H (Disk.manager H F) filePath req s res).res) ↔
      ¬ CrudHandler.GetsTorn H F filePath req s :=
  ⟨fun t => StaticHandler.agrees_iff H F t filePath req res,
    fun s => CrudHandler.agrees_iff F H filePath req s res⟩

/-- A static file whose first read breaks off: 500 is returned, and the response says 200. -/
theorem not_agrees_tearing :
    ¬ Response.Agrees .fresh statusString
      (StaticHandler.handleRequest Demo.host StaticHandler.Demo.tearing
        StaticHandler.Demo.noteDisk "note".toList ⟨.get, 11, []⟩ .fresh).1
      (StaticHandler.handleRequest Demo.host StaticHandler.Demo.tearing
        StaticHandler.Demo.noteDisk "note".toList ⟨.get, 11, []⟩ .fresh).2 := by
  intro h
  rcases StaticHandler.handleRequest_cases Demo.host StaticHandler.Demo.tearing
      StaticHandler.Demo.noteDisk "note".toList ⟨.get, 11, []⟩ .fresh with
    ⟨hnot, _⟩ | ⟨content, _, ⟨hopen, _⟩ | ⟨_, hnone, _⟩ | ⟨_, d, _, res', he, hresult, _⟩⟩
  · exact hnot _ StaticHandler.Demo.passes_note
  · exact absurd hopen (by decide)
  · refine hnone _ ⟨0, 0, Nat.zero_le _, ?_, rfl, rfl⟩
    intro j hj
    omega
  · rw [he] at h
    have hne : StatusCode.internalServerError = .ok := h.result.symm.trans hresult
    exact absurd hne (by decide)

end Webserver
