import Webserver.ServingConfig

/-!
# SetPortNumber

The port of the first `listen` statement in a server block, and what is left of it on its way
through `port_`, the parameter of `Server` and the endpoint.
-/

set_option autoImplicit false

namespace Webserver

namespace NginxConfigStatement

/-- The second token of a `listen` statement if `IsOnlyDigits` holds of it. -/
def listenArgument (statement : NginxConfigStatement) : Option Str :=
  match statement.tokens with
  | name :: port :: _ => if name = "listen".toList ∧ onlyDigits port = true then some port else none
  | _ => none

end NginxConfigStatement

namespace ServingConfig

open NginxConfigStatement

/-- The inner loop of `SetPortNumber`. -/
def setBlockPort : NginxConfig → Except Abort (Option Int)
  | [] => .ok none
  | blockStatement :: childBlock =>
    match blockStatement.listenArgument with
    | some port => (stoi port).map some
    | none => setBlockPort childBlock

/-- `SetPortNumber`: nothing for `false`, the value of `port_` for `true`, or what `stoi`
throws. -/
def setPortNumber : NginxConfig → Except Abort (Option Int)
  | [] => .ok none
  | statement :: config =>
    match statement.serverBlock with
    | none => setPortNumber config
    | some childBlock =>
      match setBlockPort childBlock with
      | .ok none => setPortNumber config
      | result => result

/-- The port of the endpoint that `Server` binds, from `int` over `short` to
`unsigned short`. -/
def boundPort (port : Int) : UInt16 := (Int32.ofInt port).toInt16.toUInt16

/-- The arguments that `SetPortNumber` takes for ports, in the order it meets them. -/
def listenArguments (config : NginxConfig) : List Str :=
  (config.filterMap serverBlock).flatMap fun block => block.filterMap listenArgument

/-- The numbers in the `listen` statements of the server blocks. -/
def listenNumbers (config : NginxConfig) : List Nat :=
  ((listenArguments config).filter fun port => !port.isEmpty).map digitsValue

/-- `SetPortNumber` returns, and a port that it finds is bound as the first number that is
written; a number that is no port is not found. -/
def BindsConfigured (config : NginxConfig) : Prop :=
  ∃ found, setPortNumber config = .ok found ∧
    (∀ port, found = some port →
      (listenNumbers config).head? = some (boundPort port).toNat) ∧
    ((∀ n, (listenNumbers config).head? = some n → 65535 < n) → found = none)

/-- The two conversions keep the number modulo 2^16. -/
theorem toNat_boundPort (port : Int) : ((boundPort port).toNat : Int) = port % 65536 := by
  have hbits : (boundPort port).toNat = ((BitVec.ofInt 32 port).signExtend 16).toNat := rfl
  rw [hbits, BitVec.signExtend_eq_setWidth_of_le _ (by decide), BitVec.toNat_setWidth,
    BitVec.toNat_ofInt]
  omega

theorem toNat_boundPort_of_lt {n : Nat} (h : n < 65536) : (boundPort n).toNat = n := by
  have hmod := toNat_boundPort n
  omega

theorem setBlockPort_eq (block : NginxConfig) :
    setBlockPort block =
      match (block.filterMap listenArgument).head? with
      | some port => (stoi port).map some
      | none => .ok none := by
  induction block with
  | nil => rfl
  | cons statement block ih =>
    rw [setBlockPort]
    cases harg : statement.listenArgument with
    | none =>
      rw [List.filterMap_cons_none harg]
      exact ih
    | some port =>
      rw [List.filterMap_cons_some harg]
      rfl

theorem listenArguments_cons (statement : NginxConfigStatement) (config : NginxConfig) :
    listenArguments (statement :: config) =
      ((statement.serverBlock.map fun block => block.filterMap listenArgument).getD []) ++
        listenArguments config := by
  unfold listenArguments
  cases hblock : statement.serverBlock with
  | none => rw [List.filterMap_cons_none hblock, Option.map_none, Option.getD_none, List.nil_append]
  | some block =>
    rw [List.filterMap_cons_some hblock, List.flatMap_cons, Option.map_some, Option.getD_some]

theorem setPortNumber_eq (config : NginxConfig) :
    setPortNumber config =
      match (listenArguments config).head? with
      | some port => (stoi port).map some
      | none => .ok none := by
  induction config with
  | nil => rfl
  | cons statement config ih =>
    rw [setPortNumber, listenArguments_cons]
    cases statement.serverBlock with
    | none => exact ih
    | some block =>
      simp only [setBlockPort_eq, Option.map_some, Option.getD_some, List.head?_append]
      cases (block.filterMap listenArgument).head? with
      | none =>
        rw [Option.none_or]
        exact ih
      | some port =>
        rw [Option.some_or]
        dsimp only
        cases stoi port <;> rfl

theorem setPortNumber_of_head {config : NginxConfig} {port : Str}
    (h : (listenArguments config).head? = some port) :
    setPortNumber config = (stoi port).map some := by
  rw [setPortNumber_eq, h]

theorem head_listenNumbers {config : NginxConfig} {port : Str}
    (h : (listenArguments config).head? = some port) (hne : port ≠ []) :
    (listenNumbers config).head? = some (digitsValue port) := by
  obtain ⟨rest, hrest⟩ := List.head?_eq_some_iff.mp h
  rw [listenNumbers, hrest, List.filter_cons_of_pos (by simpa using hne)]
  rfl

/-- `SetPortNumber` meets its purpose exactly if the first argument that it takes for a port is a
number of at most 65535. -/
theorem bindsConfigured_iff (config : NginxConfig) :
    BindsConfigured config ↔
      ∀ port, (listenArguments config).head? = some port →
        port ≠ [] ∧ digitsValue port ≤ 65535 := by
  constructor
  · rintro ⟨found, hfound, _, hnone⟩ port hport
    rw [setPortNumber_of_head hport] at hfound
    have hne : port ≠ [] := by
      rintro rfl
      simp [stoi, Except.map] at hfound
    refine ⟨hne, ?_⟩
    by_contra hlarge
    -- no port, so that nothing may be found
    have hnot := hnone fun n hn => by
      rw [head_listenNumbers hport hne] at hn
      have := Option.some.inj hn
      omega
    subst hnot
    rw [stoi, if_neg hne] at hfound
    split at hfound
    · exact absurd (Except.ok.inj hfound) (by simp)
    · exact absurd hfound (by simp [Except.map])
  · intro h
    cases hport : (listenArguments config).head? with
    | none =>
      refine ⟨none, by rw [setPortNumber_eq, hport], ?_, fun _ => rfl⟩
      intro port hp
      exact absurd hp (by simp)
    | some port =>
      obtain ⟨hne, hle⟩ := h port hport
      have hmax : digitsValue port ≤ intMax := Nat.le_trans hle (by decide)
      have hfirst := head_listenNumbers hport hne
      refine ⟨some (digitsValue port), ?_, ?_, ?_⟩
      · rw [setPortNumber_of_head hport, stoi, if_neg hne, if_pos hmax]
        rfl
      · intro p hp
        obtain rfl := Option.some.inj hp
        rw [hfirst, toNat_boundPort_of_lt (by omega)]
      · intro hlarge
        have := hlarge _ hfirst
        omega

namespace Demo

def listen (port : Str) : NginxConfig :=
  [.mk ["server".toList] (some [.mk ["listen".toList, port] none])]

end Demo

/-- `listen 65616` is found and binds port 80. -/
theorem not_bindsConfigured_large : ¬ BindsConfigured (Demo.listen "65616".toList) := by
  rintro ⟨found, hfound, hbound, _⟩
  have hsome : found = some 65616 := (Except.ok.inj hfound).symm
  have hfirst := hbound 65616 hsome
  exact absurd hfirst (by decide)

end ServingConfig

end Webserver
