import Webserver.CrudFileSystemManager

/-!
# The loop of ReadFile

`ReadFile` with the array it reads into. What an earlier read has left there stays behind what
the last one delivers, and `gcount()` tells the two apart.
-/

set_option autoImplicit false

namespace Webserver

/-- `char buffer_arr[1024]`. -/
abbrev ChunkBuffer := { buffer : Str // buffer.length = 1024 }

namespace ChunkBuffer

/-- The front of the array overwritten. -/
def fill (b : ChunkBuffer) (delivered : Str) (h : delivered.length ≤ 1024) : ChunkBuffer :=
  ⟨delivered ++ b.val.drop delivered.length, by
    have hb := b.property
    simp only [List.length_append, List.length_drop, hb]
    omega⟩

@[simp] theorem take_fill (b : ChunkBuffer) (delivered : Str) (h : delivered.length ≤ 1024) :
    (b.fill delivered h).val.take delivered.length = delivered :=
  List.take_left

end ChunkBuffer

theorem IfStream.read_length (s : IfStream) (n : Nat) (fault : Option Nat) :
    (s.read n fault).1.length ≤ n := by
  unfold IfStream.read
  cases fault with
  | some k =>
    simp only [List.length_take]
    omega
  | none =>
    dsimp only
    split
    · dsimp only
      omega
    · simp only [List.length_take]
      omega

/-- The variables of the loop of `ReadFile`, and how many reads it has made. -/
structure ReadLoop where
  fileStream : IfStream
  bufferArr : ChunkBuffer
  body : Str
  reads : Nat

namespace ReadLoop

/-- One round: a chunk is read into the array, and as much of it as was read goes to the body. -/
def round (faults : Nat → Option Nat) (v : ReadLoop) : ReadLoop :=
  let outcome := v.fileStream.read 1024 (faults v.reads)
  let gcount := outcome.1.length
  let bufferArr := v.bufferArr.fill outcome.1 (v.fileStream.read_length 1024 (faults v.reads))
  ⟨outcome.2, bufferArr, v.body ++ bufferArr.val.take gcount, v.reads + 1⟩

/-- The loop, for at most as many tests of its condition as given. -/
def run (faults : Nat → Option Nat) : Nat → ReadLoop → Option (Bool × ReadLoop)
  | 0, _ => none
  | k + 1, v =>
    if !v.fileStream.eofbit && v.fileStream.good then
      let v := v.round faults
      if v.fileStream.badbit then some (false, v) else run faults k v
    else some (true, v)

variable {faults : Nat → Option Nat} {content body : Str} {b : ChunkBuffer} {i : Nat}

@[simp] theorem round_body (v : ReadLoop) :
    (v.round faults).body = v.body ++ (v.fileStream.read 1024 (faults v.reads)).1 := by
  simp [round]

@[simp] theorem round_fileStream (v : ReadLoop) :
    (v.round faults).fileStream = (v.fileStream.read 1024 (faults v.reads)).2 := rfl

@[simp] theorem round_reads (v : ReadLoop) : (v.round faults).reads = v.reads + 1 := rfl

/-- One test of the condition and one round on a file that is open. -/
theorem run_opened (k : Nat) :
    run faults (k + 1) ⟨.opened content, b, body, i⟩ =
      if (round faults ⟨.opened content, b, body, i⟩).fileStream.badbit then
        some (false, round faults ⟨.opened content, b, body, i⟩)
      else run faults k (round faults ⟨.opened content, b, body, i⟩) := by
  rw [run]
  rfl

theorem run_mono {k k' : Nat} {v : ReadLoop} {e : Bool × ReadLoop} (h : run faults k v = some e)
    (hk : k ≤ k') : run faults k' v = some e := by
  induction k generalizing k' v with
  | zero => exact absurd h (by simp [run])
  | succ k ih =>
    obtain ⟨m, rfl⟩ : ∃ m, k' = m + 1 := ⟨k' - 1, by omega⟩
    rw [run] at h ⊢
    split at h
    · rename_i hcond
      rw [if_pos hcond]
      dsimp only at h ⊢
      split at h
      · rename_i hbad
        rw [if_pos hbad]
        exact h
      · rename_i hbad
        rw [if_neg hbad]
        exact ih h (by omega)
    · rename_i hcond
      rw [if_neg hcond]
      exact h

/-- What the loop comes to: the same as without the array, true if and only if no read has set
`badbit`, and then with the whole file. -/
structure Ended (faults : Nat → Option Nat) (content body : Str) (i : Nat) (verdict : Bool)
    (v : ReadLoop) : Prop where
  chunks : readChunks faults i (.opened content) body = (verdict, v.body)
  verdict_iff : verdict = true ↔ ∀ j, i ≤ j → j < v.reads → faults j = none
  whole : verdict = true → v.body = body ++ content

theorem run_spec (k : Nat) (hk : content.length / 1024 + 2 ≤ k) :
    ∃ verdict v, run faults k ⟨.opened content, b, body, i⟩ = some (verdict, v) ∧
      Ended faults content body i verdict v := by
  induction k generalizing content body b i with
  | zero => omega
  | succ k ih =>
    rw [run_opened]
    generalize hv : round faults ⟨.opened content, b, body, i⟩ = v
    have hstream : v.fileStream = ((IfStream.opened content).read 1024 (faults i)).2 := by
      rw [← hv, round_fileStream]
    have hbody : v.body = body ++ ((IfStream.opened content).read 1024 (faults i)).1 := by
      rw [← hv, round_body]
    have hreads : v.reads = i + 1 := by rw [← hv, round_reads]
    cases hi : faults i with
    | some n =>
      -- the read sets `badbit`
      rw [hi] at hstream hbody
      have hbad : v.fileStream.badbit = true := by rw [hstream]; rfl
      refine ⟨false, v, if_pos hbad, ?_, ?_, ?_⟩
      · rw [readChunks_opened, hi, hbody]
        rfl
      · constructor
        · intro h
          exact absurd h (by decide)
        · intro h
          rw [h i le_rfl (by omega)] at hi
          exact absurd hi (by simp)
      · intro h
        exact absurd h (by decide)
    | none =>
      rw [hi] at hstream hbody
      have hgood : v.fileStream.badbit = false := by
        rw [hstream, IfStream.read]
        split <;> rfl
      rw [hgood, if_neg (by decide)]
      by_cases hlt : content.length < 1024
      · -- the last read, after which the condition is tested once more
        have heof : v.fileStream.eofbit = true := by simp [hstream, IfStream.read, IfStream.opened, hlt]
        have hall : v.body = body ++ content := by
          simp [hbody, IfStream.read, IfStream.opened, hlt]
        obtain ⟨m, rfl⟩ : ∃ m, k = m + 1 := ⟨k - 1, by omega⟩
        refine ⟨true, v, by rw [run, heof]; rfl, ?_, ?_, fun _ => hall⟩
        · rw [readChunks_opened, hi, hall]
          exact if_pos hlt
        · constructor
          · intro _ j hij hj
            obtain rfl : j = i := by omega
            exact hi
          · exact fun _ => rfl
      · have hstream' : v.fileStream = .opened (content.drop 1024) := by
          simp [hstream, IfStream.read, IfStream.opened, hlt]
        have hbody' : v.body = body ++ content.take 1024 := by
          simp [hbody, IfStream.read, IfStream.opened, hlt]
        have hdrop : (content.drop 1024).length / 1024 + 2 ≤ k := by
          rw [List.length_drop]
          omega
        obtain ⟨verdict, w, hrun, hended⟩ :=
          @ih (content.drop 1024) (body ++ content.take 1024) v.bufferArr (i + 1) hdrop
        rw [← hstream', ← hbody', ← hreads] at hrun
        refine ⟨verdict, w, hrun, ?_, ?_, ?_⟩
        · rw [readChunks_opened, hi, ← hended.chunks]
          exact if_neg hlt
        · rw [hended.verdict_iff]
          constructor
          · intro h j hij hj
            rcases Nat.eq_or_lt_of_le hij with rfl | hlt'
            · exact hi
            · exact h j hlt' hj
          · exact fun h j hij hj => h j (by omega) hj
        · intro htrue
          rw [hended.whole htrue, List.append_assoc, List.take_append_drop]

end ReadLoop

namespace Disk

/-- Opening an `ifstream`: what there is to read, and the outcome of each read. A directory is
opened, and its first read sets `badbit`. -/
def openIn (F : Faults) (p : Str) (t : Tree) : Option (Str × (Nat → Option Nat)) :=
  if F.openIn p then none
  else
    match t.lookup (steps p) with
    | none => none
    | some (.dir _) => some ([], fun _ => some 0)
    | some (.file content) => some (content, F.read p)

/-- How a call of `ReadFile` ends. -/
structure ReadEnd where
  verdict : Bool
  res : Response
  reads : Nat

/-- `ReadFile` with its array, for at most `k` tests of the condition of its loop. -/
def readFileInto (F : Faults) (b : ChunkBuffer) (k : Nat) (p : Str) (res : Response) (t : Tree) :
    Option ReadEnd :=
  match openIn F p t with
  | none => some ⟨false, res, 0⟩
  | some (content, faults) =>
    (ReadLoop.run faults k ⟨.opened content, b, res.body, 0⟩).map fun e =>
      ⟨e.1, { res with body := e.2.body }, e.2.reads⟩

theorem readFile_of_openIn_none {F : Faults} {p : Str} {t : Tree} (h : openIn F p t = none)
    (res : Response) : readFile F p res t = (false, res) := by
  unfold openIn at h
  unfold readFile
  split_ifs at h ⊢ with hfault
  · rfl
  · cases hl : t.lookup (steps p) with
    | none => rfl
    | some node => cases node <;> simp [hl] at h

theorem readFile_of_openIn {F : Faults} {p content : Str} {t : Tree} {faults : Nat → Option Nat}
    (h : openIn F p t = some (content, faults)) (res : Response) :
    readFile F p res t =
      ((readChunks faults 0 (.opened content) res.body).1,
        { res with body := (readChunks faults 0 (.opened content) res.body).2 }) := by
  unfold openIn at h
  unfold readFile
  split_ifs at h ⊢ with hfault
  cases hl : t.lookup (steps p) with
  | none => simp [hl] at h
  | some node =>
    cases node with
    | dir names =>
      obtain ⟨rfl, rfl⟩ : [] = content ∧ (fun _ => some 0) = faults := by simpa [hl] using h
      rw [readChunks_opened]
      simp
    | file content' =>
      obtain ⟨rfl, rfl⟩ : content' = content ∧ F.read p = faults := by simpa [hl] using h
      rfl

/-- `ReadFile` ends, whatever is in the array; it returns true exactly if the file was opened and
no read set `badbit`, and then exactly the file has been appended. -/
theorem readFileInto_exact (F : Faults) (b : ChunkBuffer) (p : Str) (res : Response) (t : Tree) :
    ∃ rounds e, (∀ k, rounds ≤ k → readFileInto F b k p res t = some e) ∧
      (e.verdict = true ↔ ∃ content faults, openIn F p t = some (content, faults) ∧
        ∀ j < e.reads, faults j = none) ∧
      (∀ content faults, openIn F p t = some (content, faults) → e.verdict = true →
        e.res = { res with body := res.body ++ content }) ∧
      readFile F p res t = (e.verdict, e.res) := by
  cases hopen : openIn F p t with
  | none =>
    refine ⟨0, ⟨false, res, 0⟩, fun k _ => by rw [readFileInto, hopen], by simp, by simp, ?_⟩
    exact readFile_of_openIn_none hopen res
  | some x =>
    obtain ⟨content, faults⟩ := x
    obtain ⟨verdict, v, hrun, hended⟩ := @ReadLoop.run_spec faults content res.body b 0 _ le_rfl
    refine ⟨content.length / 1024 + 2, ⟨verdict, { res with body := v.body }, v.reads⟩, ?_, ?_, ?_, ?_⟩
    · intro k hk
      rw [readFileInto, hopen]
      dsimp only
      rw [ReadLoop.run_mono hrun hk]
      rfl
    · rw [hended.verdict_iff]
      constructor
      · exact fun h => ⟨content, faults, rfl, fun j hj => h j (Nat.zero_le j) hj⟩
      · rintro ⟨content', faults', heq, h⟩
        obtain ⟨_, rfl⟩ := Prod.mk.inj (Option.some.inj heq)
        exact fun j _ hj => h j hj
    · intro content' faults' heq htrue
      obtain ⟨rfl, _⟩ := Prod.mk.inj (Option.some.inj heq)
      rw [hended.whole htrue]
    · rw [readFile_of_openIn hopen, hended.chunks]

end Disk

end Webserver
