import Webserver.CrudRequests

/-!
# Requests on one entity

A location with an ordinary root, the entities below it, and what a request on one of them
does on a disk where no call fails. The strings are gone in the equations of this module:
they speak of the key of the entity in the map and of its directory in the tree.
-/

set_option autoImplicit false

namespace Webserver

open FileTree FileTree.Tree Segments CrudHandler

section Spelling
variable (H : Host) {ns : List Name} {n : Name}

theorem joined_last_ne_slash (h : ∀ n ∈ ns, IsName n) : (joined '/' ns).getLast? ≠ some '/' := by
  induction ns using List.reverseRecOn with
  | nil => simp
  | append_singleton ns n _ =>
    have hn := (h n (by simp)).1
    rw [joined_snoc, List.getLast?_append_of_ne_nil _ (by simp),
      List.getLast?_cons_of_ne_nil hn.1]
    exact fun hc => hn.2 (List.mem_of_mem_getLast? hc)

theorem not_isNet_joined (h : ∀ n ∈ ns, IsName n) : ¬ IsNet (joined '/' ns) := by
  rintro ⟨r, hr, _⟩
  cases ns with
  | nil => simp at hr
  | cons n ns =>
    have hn := (h n List.mem_cons_self).1
    cases n with
    | nil => exact hn.1 rfl
    | cons c n =>
      simp only [joined_cons, List.cons_append, List.cons.injEq, true_and] at hr
      exact hn.2 (hr.1 ▸ List.mem_cons_self)

theorem joined_ne_slash (h : ∀ n ∈ ns, IsName n) : joined '/' ns ≠ ['/'] :=
  fun heq => joined_last_ne_slash h (by rw [heq]; rfl)

theorem joined_ne_nil (h : ns ≠ []) : joined '/' ns ≠ [] := by
  cases ns with
  | nil => exact absurd rfl h
  | cons n ns => simp

theorem filename_joined_snoc (h : ∀ n ∈ ns, IsName n) (hn : IsSegment '/' n) :
    H.filename (joined '/' (ns ++ [n])) = n := by
  rw [joined_snoc]
  exact H.filename_snoc _ n hn (joined_ne_slash h)

theorem parentPath_joined_snoc (h : ∀ n ∈ ns, IsName n) (hne : ns ≠ []) (hn : IsSegment '/' n) :
    H.parentPath (joined '/' (ns ++ [n])) = joined '/' ns := by
  have hp := H.parentPath_snoc (joined '/' ns) 0 n hn (joined_ne_nil hne)
    (joined_last_ne_slash h) (not_isNet_joined h)
  simpa [joined_snoc] using hp

theorem parentPath_joined_single (hn : IsSegment '/' n) :
    H.parentPath (joined '/' [n]) = ['/'] := by
  have hp := H.parentPath_top 0 n hn (by decide)
  simpa using hp

/-- The loop of `InitRoot` ends at the first component. -/
theorem rootLoop_joined (k : Nat) (c : Name) (ms : List Name)
    (h : ∀ n ∈ c :: ms, IsName n) (hk : ms.length < k) :
    rootLoop H k (joined '/' (c :: ms)) = some (joined '/' [c]) := by
  induction k generalizing ms with
  | zero => omega
  | succ k ih =>
    induction ms using List.reverseRecOn with
    | nil => rw [rootLoop, parentPath_joined_single H (h c (by simp)).1, if_pos rfl]
    | append_singleton ms m _ =>
      have hms : ∀ n ∈ c :: ms, IsName n := fun n hn => h n (by
        rcases List.mem_cons.mp hn with rfl | hn <;> simp [*])
      have hp := parentPath_joined_snoc H hms (by simp) (h m (by simp)).1
      rw [List.cons_append] at hp
      rw [rootLoop, hp, if_neg (joined_ne_slash hms)]
      exact ih ms hms (by simp at hk; omega)

theorem joined_length (ns : List Name) : ns.length ≤ (joined '/' ns).length := by
  induction ns with
  | nil => simp
  | cons n ns ih =>
    simp only [joined_cons, List.length_append, List.length_cons]
    omega

theorem noDotDot_joined (h : ∀ n ∈ ns, IsName n) : NoDotDot (joined '/' ns) := by
  rw [NoDotDot, components_joined h]
  exact fun hm => (h _ hm).2.2 rfl

theorem locOf_joined (h : ∀ n ∈ ns, IsName n) :
    H.locOf (joined '/' ns) = ns.reverse ++ H.cwdLoc := by
  rw [Host.locOf, lexical_steps, components_joined h, map_toStep_of_isName h, lexical_down]

end Spelling

/-- The root of a location: one leading slash and ordinary components. -/
structure Root where
  first : Name
  rest : List Name
  ordinary : ∀ n ∈ first :: rest, IsName n

namespace Root

def names (R : Root) : List Name := R.first :: R.rest

/-- The root directory in the tree. -/
def loc (H : Host) (R : Root) : Loc := R.names.reverse ++ H.cwdLoc

end Root

/-- An entity below a root: ordinary components, the last one not a number. -/
structure Entity (R : Root) where
  below : List Name
  last : Name
  ordinary : ∀ n ∈ below ++ [last], IsName n
  notDigits : onlyDigits last = false

/-- The spelling of an id in a request. -/
structure IdText where
  text : Str
  digits : onlyDigits text = true
  nonempty : text ≠ []

namespace IdText

theorem isSegment (n : IdText) : IsSegment '/' n.text :=
  ⟨n.nonempty, not_mem_of_onlyDigits n.digits (by decide)⟩

theorem isName (n : IdText) : IsName n.text := by
  have hdot : '.' ∉ n.text := not_mem_of_onlyDigits n.digits (by decide)
  refine ⟨n.isSegment, fun h => hdot ?_, fun h => hdot ?_⟩ <;> rw [h] <;> decide

def ofNat (n : Nat) : IdText := ⟨Nat.toDigits 10 n, onlyDigits_toDigits n, Nat.toDigits_ne_nil⟩

def value (n : IdText) : Nat := digitsValue n.text

theorem stoi_text (n : IdText) :
    stoi n.text = if n.value ≤ intMax then .ok (n.value : Int) else .error .outOfRange := by
  rw [stoi, if_neg n.nonempty, value]

@[simp] theorem value_ofNat (n : Nat) : (ofNat n).value = n := digitsValue_toDigits n

end IdText

namespace Entity
variable {R : Root} (E : Entity R)

/-- The components above the last one. -/
def above : List Name := R.names ++ E.below

/-- The key of the entity in `entity_to_id_`. -/
def key : Str := joined '/' (E.above ++ [E.last])

def parentLoc (H : Host) : Loc := E.above.reverse ++ H.cwdLoc

/-- The directory of the entity in the tree. -/
def dir (H : Host) : Loc := E.last :: E.parentLoc H

/-- The file path of a request on the entity or on one of its objects. -/
def filePath : Option IdText → Str
  | none => E.key
  | some n => joined '/' (E.above ++ [E.last] ++ [n.text])

theorem isName_above {n : Name} (h : n ∈ E.above) : IsName n := by
  rcases List.mem_append.mp h with h | h
  · exact R.ordinary n h
  · exact E.ordinary n (List.mem_append_left _ h)

theorem isName_path : ∀ n ∈ E.above ++ [E.last], IsName n := by
  intro n h
  rcases List.mem_append.mp h with h | h
  · exact E.isName_above h
  · exact E.ordinary n (List.mem_append_right _ h)

theorem isName_last : IsName E.last := E.isName_path _ (by simp)

theorem noDotDot_key : NoDotDot E.key := noDotDot_joined E.isName_path

theorem locOf_key (H : Host) : H.locOf E.key = E.dir H := by
  rw [key, locOf_joined H E.isName_path, List.reverse_append]
  rfl

theorem rootLoc_suffix (H : Host) : R.loc H <:+ E.parentLoc H := by
  refine ⟨E.below.reverse, ?_⟩
  simp [parentLoc, above, Root.loc]

theorem parseTarget_entity (H : Host) :
    parseTarget H (E.filePath none) = .ok (E.key, -1) := by
  have hf : H.filename E.key = E.last :=
    filename_joined_snoc H (fun _ h => E.isName_above h) E.isName_last.1
  simp [parseTarget, filePath, hf, E.notDigits]

theorem parseTarget_object (H : Host) (n : IdText) :
    parseTarget H (E.filePath (some n)) =
      if n.value ≤ intMax then .ok (E.key, (n.value : Int)) else .error .outOfRange := by
  have hf : H.filename (E.filePath (some n)) = n.text :=
    filename_joined_snoc H E.isName_path n.isSegment
  have hp : H.parentPath (E.filePath (some n)) = E.key :=
    parentPath_joined_snoc H E.isName_path (by simp) n.isSegment
  rw [parseTarget, hf, hp, if_pos n.digits, n.stoi_text]
  by_cases h : n.value ≤ intMax <;> simp [h]

/-- What `ParseTarget` takes for the id. -/
def idOf : Option IdText → Int
  | none => -1
  | some n => n.value

/-- The branch a request takes. -/
def opOf (o : Option IdText) (req : Request) : Op :=
  match o with
  | none => .ofEntity req
  | some n => if n.value ≤ intMax then .ofObject n.value req else .thrown .outOfRange

theorem rootLoop_filePath (H : Host) (o : Option IdText) :
    rootLoop H ((E.filePath o).length + 1) (E.filePath o) = some (joined '/' [R.first]) := by
  obtain ⟨ms, hms, hname⟩ : ∃ ms, E.filePath o = joined '/' (R.first :: ms) ∧
      ∀ n ∈ R.first :: ms, IsName n := by
    cases o with
    | none => exact ⟨R.rest ++ E.below ++ [E.last], by simp [filePath, key, above, Root.names],
        by simpa [above, Root.names] using E.isName_path⟩
    | some n =>
      refine ⟨R.rest ++ E.below ++ [E.last] ++ [n.text],
        by simp [filePath, above, Root.names], fun m hm => ?_⟩
      have hcases : m ∈ E.above ++ [E.last] ∨ m = n.text := by
        simpa [above, Root.names, or_assoc] using hm
      rcases hcases with hm | rfl
      · exact E.isName_path m hm
      · exact n.isName
  have hlen := joined_length (R.first :: ms)
  rw [hms]
  refine rootLoop_joined H _ R.first ms hname ?_
  rw [List.length_cons] at hlen
  omega

/-- `InitRoot` finds its directory when the whole root exists. -/
theorem createDir_root (H : Host) (F : Faults) {t : Tree} (hroot : t.isDir (R.loc H) = true) :
    Disk.createDir F (H.fromCwd (joined '/' [R.first])) t = (true, t) := by
  have hn : ∀ n ∈ [R.first], IsName n := fun n h =>
    R.ordinary n (by rw [List.mem_singleton.mp h]; exact List.mem_cons_self)
  have hsuf : R.first :: H.cwdLoc <:+ R.loc H := ⟨R.rest.reverse, by simp [Root.loc, Root.names]⟩
  rw [Disk.createDir_eq F t (H.noDotDot_fromCwd (noDotDot_joined hn)), H.lexical_fromCwd,
    locOf_joined H hn]
  exact if_pos (isDir_of_suffix hroot hsuf)

section Serve
variable (H : Host) (F : Faults) (req : Request) (s : Store Tree)

theorem initRoot_of_parsed {o : Option IdText}
    (hp : parseTarget H (E.filePath o) = .ok (E.key, idOf o))
    (hroot : s.disk.isDir (R.loc H) = true) :
    initRoot H (Disk.manager H F) (E.filePath o) req s .fresh = ⟨.ok .ok, s, started req⟩ := by
  have hkey : E.key ≠ [] := joined_ne_nil (by simp)
  simp only [initRoot, hp, if_neg hkey, E.rootLoop_filePath H o, Disk.manager,
    createDir_root H F hroot]
  rfl

theorem initRoot_of_error {o : Option IdText} {a : Abort}
    (hp : parseTarget H (E.filePath o) = .error a) :
    initRoot H (Disk.manager H F) (E.filePath o) req s .fresh = ⟨.error a, s, started req⟩ := by
  simp only [initRoot, hp]
  rfl

/-- A request whose target parses runs its method. -/
theorem serve_of_parsed {o : Option IdText}
    (hp : parseTarget H (E.filePath o) = .ok (E.key, idOf o))
    (hroot : s.disk.isDir (R.loc H) = true) :
    serve H (Disk.manager H F) (E.filePath o) req s =
      act H F E.key (.of (idOf o) req) s := by
  rw [← seen_handleMethod H F hp E.noDotDot_key req s]
  simp only [serve, handleRequest, E.initRoot_of_parsed H F req s hp hroot]
  rfl

/-- Either the target parses to the key and the id, or the request does not get anywhere. -/
theorem parseTarget_filePath (o : Option IdText) :
    (parseTarget H (E.filePath o) = .ok (E.key, idOf o) ∧ opOf o req = .of (idOf o) req) ∨
      (parseTarget H (E.filePath o) = .error .outOfRange ∧ opOf o req = .thrown .outOfRange) := by
  cases o with
  | none => exact Or.inl ⟨E.parseTarget_entity H, rfl⟩
  | some n =>
    have hp := E.parseTarget_object H n
    by_cases hn : n.value ≤ intMax
    · rw [if_pos hn] at hp
      refine Or.inl ⟨hp, ?_⟩
      rw [opOf, if_pos hn, Op.of, if_neg]
      · rfl
      · rw [idOf]
        omega
    · rw [if_neg hn] at hp
      exact Or.inr ⟨hp, if_neg hn⟩

/-- The equation of a request: where the root exists, `HandleRequest` on the disk is the
operation of its branch on the entity. -/
theorem serve_eq (o : Option IdText) (hroot : s.disk.isDir (R.loc H) = true) :
    serve H (Disk.manager H F) (E.filePath o) req s = act H F E.key (opOf o req) s := by
  rcases E.parseTarget_filePath H req o with ⟨hp, hop⟩ | ⟨hp, hop⟩
  · rw [E.serve_of_parsed H F req s hp hroot, hop]
  · simp only [serve, handleRequest, E.initRoot_of_error H F req s hp, hop]
    rfl

end Serve

/-- On an entity the directory of an object is found by its spelling, so that an empty one does
go. -/
theorem dropDir_key (H : Host) (F : Faults) (id : Int) {t : Tree}
    (hd : t.isDir (H.locOf E.key) = true) :
    Disk.dropDir H F E.key id t =
      if (t.node (E.dir H)).any Node.isLeaf &&
          !F.remove (H.parentPath (H.objectPath E.key id)) then
        t.unlink E.last (E.parentLoc H)
      else t := by
  rw [E.locOf_key] at hd
  have hnames := node_eq_dir hd
  have hcomp : (components (H.parentPath (H.objectPath E.key id))).map toStep =
      (H.cwd ++ E.above).map .down ++ [.down E.last] := by
    rw [H.components_parentPath_objectPath, key, components_joined E.isName_path,
      ← List.append_assoc, List.map_append, List.map_singleton, toStep_of_isName E.isName_last,
      map_toStep_of_isName]
    intro n hn
    rcases List.mem_append.mp hn with hn | hn
    · exact H.cwd_names n hn
    · exact E.isName_above hn
  have hloc : lexical [] ((H.cwd ++ E.above).map .down) = E.parentLoc H := by
    rw [lexical_down, List.reverse_append, List.append_nil]
    rfl
  unfold Disk.dropDir Disk.removePath
  rw [hcomp, remove_snoc (noUp_down _), hloc, E.locOf_key]
  rw [show E.last :: E.parentLoc H = E.dir H from rfl]
  cases hns : t.names (E.dir H) with
  | nil =>
    have hr : H.readdir [] = [] := (H.readdir_perm []).eq_nil
    rw [hns] at hnames
    cases hF : F.remove (H.parentPath (H.objectPath E.key id)) <;>
      simp [hr, hnames, Node.isLeaf]
  | cons n ns =>
    rw [hns] at hnames
    cases hF : F.remove (H.parentPath (H.objectPath E.key id)) <;>
      simp [hnames, Node.isLeaf]

end Entity

end Webserver
