import Webserver.CrudTargets
import Webserver.Library.NamedFiles
import Webserver.StaticHandler

/-!
# What the guard of the StaticHandler keeps back

The guard sees the components of the working directory, the root and the target one after the
other; the file is where they lead once `.` and `..` are resolved.
-/

set_option autoImplicit false

namespace Webserver

open FileTree FileTree.Tree Segments StaticHandler

/-- At or below a privileged directory. -/
def Privileged (l : Loc) : Prop := ∃ dir ∈ privilegedDirs, lexical [] (steps dir) <:+ l

/-- No file of a privileged directory is served under this file path. -/
def Withheld (H : Host) (filePath : Str) : Prop :=
  ∀ (F : Faults) (t : Tree) (req : Request) (content : Str),
    (handleRequest H F t filePath req .fresh).1 = .ok →
    t.lookup (steps (H.fromCwd filePath)) = some (.file content) →
    (handleRequest H F t filePath req .fresh).2.body = content →
    ¬ Privileged (lexical [] (steps (H.fromCwd filePath)))

/-- The components start with those of a privileged directory, as they are spelled. -/
def Guarded (H : Host) (filePath : Str) : Prop :=
  ¬ IsNet (H.fromCwd filePath) ∧
    ∃ dir ∈ privilegedDirs, components dir <+: H.cwd ++ components filePath

section Guard
variable (H : Host) {p : Str}

theorem isParentDir_privileged {dir : Str} (hdir : dir ∈ privilegedDirs)
    (hp : p.head? = some '/') (hlast : p.getLast? ≠ some '/') :
    isParentDir H (H.absolute dir) (H.absolute p) = true ↔
      ¬ IsNet p ∧ components dir <+: components p := by
  have hdirs : ∀ d ∈ privilegedDirs, d.head? = some '/' ∧ d.getLast? ≠ some '/' ∧
      (d.drop 1).head? ≠ some '/' := by decide
  obtain ⟨habs, hend, hsecond⟩ := hdirs dir hdir
  have hnet : ¬ IsNet dir := by
    rintro ⟨r, rfl, _⟩
    exact hsecond rfl
  rw [isParentDir_iff, H.absolute_eq dir habs hnet, H.elements_absolute dir habs hend hnet]
  by_cases h : IsNet p
  · refine iff_of_false (fun hpre => ?_) fun hnot => hnot.1 h
    have hslashes : p ≠ ['/', '/'] := fun heq => hlast (by rw [heq]; rfl)
    have hhead := H.elements_net _ (H.absolute_net p h hslashes)
    obtain ⟨r, hr⟩ := hpre
    rw [← hr] at hhead
    exact hhead rfl
  · rw [H.absolute_eq p hp h, H.elements_absolute p hp hlast h, List.cons_prefix_cons]
    simp [h]

theorem isInPrivilegedDirectory_iff (hp : p.head? = some '/') (hlast : p.getLast? ≠ some '/') :
    isInPrivilegedDirectory H p = true ↔
      ¬ IsNet p ∧ ∃ dir ∈ privilegedDirs, components dir <+: components p := by
  rw [isInPrivilegedDirectory, List.any_eq_true]
  constructor
  · rintro ⟨dir, hdir, h⟩
    obtain ⟨hnet, hpre⟩ := (isParentDir_privileged H hdir hp hlast).mp h
    exact ⟨hnet, dir, hdir, hpre⟩
  · rintro ⟨hnet, dir, hdir, hpre⟩
    exact ⟨dir, hdir, (isParentDir_privileged H hdir hp hlast).mpr ⟨hnet, hpre⟩⟩

theorem fromCwd_head (p : Str) : (H.fromCwd p).head? = some '/' := by
  have hcwd : H.currentPath.head? = some '/' := by
    unfold Host.currentPath
    split
    · rfl
    · rename_i h
      obtain ⟨n, ns, hns⟩ := List.exists_cons_of_ne_nil h
      rw [hns]
      rfl
  have happ (q : Str) : (H.currentPath ++ q).head? = some '/' := by
    rwa [List.head?_append_of_ne_nil _ H.currentPath_ne_nil]
  rw [Host.fromCwd, H.append_eq]
  split
  · exact hcwd
  · split <;> exact happ _

theorem fromCwd_last (hne : p ≠ []) (hlast : p.getLast? ≠ some '/') :
    (H.fromCwd p).getLast? ≠ some '/' := by
  rw [Host.fromCwd, H.append_eq, if_neg hne]
  split
  · rwa [List.getLast?_append_of_ne_nil _ hne]
  · rwa [List.getLast?_append_of_ne_nil _ (by simp), List.getLast?_cons_of_ne_nil hne]

/-- The guard on the path of a request. -/
theorem guard_iff_guarded (hne : p ≠ []) (hlast : p.getLast? ≠ some '/') :
    isInPrivilegedDirectory H (H.fromCwd p) = true ↔ Guarded H p := by
  rw [isInPrivilegedDirectory_iff H (fromCwd_head H p) (fromCwd_last H hne hlast), Guarded,
    H.components_fromCwd]

theorem withheld_iff (hne : p ≠ []) (hlast : p.getLast? ≠ some '/') :
    Withheld H p ↔ Guarded H p ∨ ¬ Privileged (lexical [] (steps (H.fromCwd p))) ∨
      ¬ NamesFile (steps (H.fromCwd p)) := by
  rw [← guard_iff_guarded H hne hlast]
  constructor
  · intro h
    by_contra hnot
    obtain ⟨hguard, hpriv, hnames⟩ : isInPrivilegedDirectory H (H.fromCwd p) ≠ true ∧
        Privileged (lexical [] (steps (H.fromCwd p))) ∧ NamesFile (steps (H.fromCwd p)) := by
      simpa only [not_or, not_not] using hnot
    -- a tree in which the path leads to a file
    obtain ⟨t, ht⟩ := Tree.exists_lookup hnames ['x']
    have hcontent := fileContent_eq_some.mpr ht
    have hok : (setHeaders H t (H.fromCwd p) ⟨.get, 11, []⟩ .fresh).1 = .ok :=
      setHeaders_ok_iff.mpr ⟨by simpa using hguard, ['x'], hcontent, by decide⟩
    obtain ⟨hstatus, hbody⟩ := handleRequest_served hok hcontent
    refine h Faults.none t ⟨.get, 11, []⟩ ['x'] hstatus ht ?_ hpriv
    rw [hbody, setHeaders_body]
    rfl
  · intro h F t req content hok hlookup _ hpriv
    obtain ⟨hguard, _⟩ := setHeaders_ok_iff.mp (setHeaders_of_handleRequest hok)
    rcases h with h | h | h
    · rw [h] at hguard
      exact absurd hguard (by decide)
    · exact h hpriv
    · exact h (Tree.namesFile_of_lookup hlookup)

end Guard

/-- Privileged files are withheld from a target if and only if the components that the guard
sees give the privileged directory away. -/
theorem withheld_iff_guarded (H : Host) (T : HandlerFactories) (target : Str)
    (m : RequestDispatcher.Match) (config : NginxConfig)
    (hroute : RequestDispatcher.route T target = some m)
    (hstatic : m.factory = .staticHandler config) :
    let filePath := FileHandlerFactory.getCompleteFilePath config m.path
    Withheld H filePath ↔
      Guarded H filePath ∨ ¬ Privileged (lexical [] (steps (H.fromCwd filePath))) ∨
        ¬ NamesFile (steps (H.fromCwd filePath)) := by
  obtain ⟨hne, hlast⟩ := RequestDispatcher.route_path hroute (by rw [hstatic]; simp)
  refine withheld_iff H (fun h => hne (List.append_eq_nil_iff.mp h).2) ?_
  rwa [FileHandlerFactory.getCompleteFilePath, List.getLast?_append_of_ne_nil _ hne]

namespace Demo

/-- `root tests/static_test_files;` -/
def staticConfig : NginxConfig :=
  [.mk ["root".toList, "tests/static_test_files".toList] none]

/-- `location /static StaticHandler { root tests/static_test_files; }` -/
def staticFactories : HandlerFactories where
  find path :=
    if path = "/static".toList then some (.staticHandler staticConfig)
    else if path = ['/'] then some .notFoundHandler
    else none
  top := rfl

end Demo

theorem withheld_iff_guarded_sample :
    Withheld Demo.host "tests/static_test_files/sample.txt".toList ↔
      Guarded Demo.host "tests/static_test_files/sample.txt".toList ∨
        ¬ Privileged (lexical []
          (steps (Demo.host.fromCwd "tests/static_test_files/sample.txt".toList))) ∨
        ¬ NamesFile (steps (Demo.host.fromCwd "tests/static_test_files/sample.txt".toList)) :=
  withheld_iff_guarded Demo.host Demo.staticFactories "/static/sample.txt".toList
    ⟨"/static".toList, .staticHandler Demo.staticConfig, "sample.txt".toList⟩ Demo.staticConfig
    (by rfl) rfl

namespace Demo

def passwdPath : Str := "tests/static_test_files/../../../etc/passwd".toList

def passwdDisk : Tree :=
  ((bare.mkdirs ["static_test_files".toList, "tests".toList, "srv".toList]).1.mkdirs
    ["etc".toList]).1.put "passwd".toList ["etc".toList] (.file "root:x:0:0".toList)

end Demo

/-- `/static/../../../etc/passwd` is dispatched to the location and answered with the file. -/
theorem not_withheld_passwd :
    RequestDispatcher.route Demo.staticFactories "/static/../../../etc/passwd".toList =
        some ⟨"/static".toList, .staticHandler Demo.staticConfig,
          "../../../etc/passwd".toList⟩ ∧
      ¬ Withheld Demo.host (FileHandlerFactory.getCompleteFilePath Demo.staticConfig
        "../../../etc/passwd".toList) := by
  refine ⟨by rfl, fun h => ?_⟩
  have hpath : FileHandlerFactory.getCompleteFilePath Demo.staticConfig
      "../../../etc/passwd".toList = Demo.passwdPath := by decide
  rw [hpath] at h
  have hlookup : Demo.passwdDisk.lookup (steps (Demo.host.fromCwd Demo.passwdPath)) =
      some (.file "root:x:0:0".toList) := by
    decide +kernel
  have hcontent := fileContent_eq_some.mpr hlookup
  have hguard : isInPrivilegedDirectory Demo.host (Demo.host.fromCwd Demo.passwdPath) = false := by
    decide +kernel
  have hok : (setHeaders Demo.host Demo.passwdDisk (Demo.host.fromCwd Demo.passwdPath)
      ⟨.get, 11, []⟩ .fresh).1 = .ok := setHeaders_ok_iff.mpr ⟨hguard, _, hcontent, by decide⟩
  obtain ⟨hstatus, hbody⟩ := handleRequest_served hok hcontent
  have hserved := hbody.trans (congrArg (· ++ _) setHeaders_body)
  have hpriv : Privileged (lexical [] (steps (Demo.host.fromCwd Demo.passwdPath))) :=
    ⟨"/etc".toList, by decide, by decide +kernel⟩
  exact h Faults.none Demo.passwdDisk ⟨.get, 11, []⟩ _ hstatus hlookup hserved hpriv

end Webserver
