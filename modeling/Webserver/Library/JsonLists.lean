import Mathlib.Data.List.Forall2
import Mathlib.Data.List.Perm.Basic
import Webserver.Library.Json
import Webserver.Library.Traces

/-!
# Lists of JSON strings

A text of strings, commas and whitespace is scanned for the quotation marks that end a string.
Where words are put between quotation marks as they are, and the list is to have one string for
each word in every order of the words, no quotation mark in a word ends a string.
-/

set_option autoImplicit false

namespace Json

universe u

/-- In front of a string, in it, behind a backslash in it, and behind it. -/
inductive Place where
  | before
  | inside
  | escaped
  | behind

/-- Strings, commas between them and whitespace, one octet at a time. -/
def scan : Place → Char → Option Place
  | .before, c => if c = '"' then some .inside else if isWhitespace c then some .before else none
  | .inside, c => some (if c = '"' then .behind else if c = '\\' then .escaped else .inside)
  | .escaped, _ => some .inside
  | .behind, c => if c = ',' then some .before else if isWhitespace c then some .behind else none

/-- A quotation mark that ends a string. -/
def closing : Place → Char → Option Unit
  | .inside, c => if c = '"' then some () else none
  | _, _ => none

/-- The strings that end in a text. -/
def closed (p : Place) (w : List Char) : Nat := (Traces.log scan closing p w).length

/-- The text leads from one place to another, and `k` strings end in it. -/
structure Scans (p q : Place) (k : Nat) (w : List Char) : Prop where
  ends : Traces.after scan p w = some q
  count : closed p w = k

theorem closed_append {p q : Place} {w : List Char} (h : Traces.after scan p w = some q)
    (r : List Char) : closed p (w ++ r) = closed p w + closed q r := by
  rw [closed, Traces.log_append h, List.length_append]
  rfl

theorem closed_quote (r : List Char) : closed .inside ('"' :: r) = closed .behind r + 1 := by
  rw [closed, Traces.log, List.length_append, Nat.add_comm]
  rfl

theorem Scans.append {p q t : Place} {k m : Nat} {w r : List Char} (hw : Scans p q k w)
    (hr : Scans q t m r) : Scans p t (k + m) (w ++ r) where
  ends := by
    rw [Traces.after_append, hw.ends]
    exact hr.ends
  count := by rw [closed_append hw.ends, hw.count, hr.count]

theorem Scans.split {p t : Place} {k : Nat} {w r : List Char} (h : Scans p t k (w ++ r)) :
    ∃ q m n, Scans p q m w ∧ Scans q t n r ∧ k = m + n := by
  have hends := h.ends
  rw [Traces.after_append] at hends
  obtain ⟨q, hw, hr⟩ := Option.bind_eq_some_iff.mp hends
  refine ⟨q, closed p w, closed q r, ⟨hw, rfl⟩, ⟨hr, rfl⟩, ?_⟩
  rw [← closed_append hw, h.count]

theorem Scans.unique {p q t : Place} {k m : Nat} {w : List Char} (h : Scans p q k w)
    (h' : Scans p t m w) : q = t ∧ k = m :=
  ⟨Option.some.inj (h.ends.symm.trans h'.ends), h.count.symm.trans h'.count⟩

theorem Scans.behind {p q t : Place} {k m : Nat} {w r : List Char} (h : Scans p t k (w ++ r))
    (hw : Scans p q m w) : ∃ n, Scans q t n r ∧ k = m + n := by
  obtain ⟨q', m', n, hw', hr, hk⟩ := h.split
  obtain ⟨rfl, rfl⟩ := hw'.unique hw
  exact ⟨n, hr, hk⟩

/-- From inside a string the text stays in it. -/
abbrev Plain (w : List Char) : Prop := Scans .inside .inside 0 w

/-- Characters that keep the scan where it is, and end no string. -/
theorem scans_of_forall {p : Place} {w : List Char}
    (h : ∀ c ∈ w, scan p c = some p ∧ closing p c = none) : Scans p p 0 w := by
  induction w with
  | nil => exact ⟨rfl, rfl⟩
  | cons c w ih =>
    obtain ⟨hscan, hclosing⟩ := h c List.mem_cons_self
    have hone : Scans p p 0 [c] := by
      constructor
      · simp [Traces.after_cons, hscan]
      · simp [closed, Traces.log, hscan, hclosing]
    exact hone.append (ih fun d hd => h d (List.mem_cons_of_mem c hd))

theorem plain_of_forall {w : List Char} (h : ∀ c ∈ w, c ≠ '"' ∧ c ≠ '\\') : Plain w := by
  apply scans_of_forall
  intro c hc
  obtain ⟨hquote, hbackslash⟩ := h c hc
  simp [scan, closing, hquote, hbackslash]

theorem plain_escaped (c : Char) : Plain ['\\', c] := ⟨rfl, rfl⟩

theorem isHexDigit_plain {c : Char} (h : isHexDigit c = true) : c ≠ '"' ∧ c ≠ '\\' := by
  constructor
  · rintro rfl
    exact absurd h (by decide)
  · rintro rfl
    exact absurd h (by decide)

theorem StringChar.plain {w : List Char} {n : List Nat} (h : StringChar w n) : Plain w := by
  cases h with
  | unescaped c hcontrol hquote hbackslash =>
    apply plain_of_forall
    intro o ho
    rcases utf8_cases c with hone | hhigh
    · rw [hone, List.mem_singleton] at ho
      subst ho
      exact ⟨hquote, hbackslash⟩
    · have hlow := hhigh o ho
      constructor
      · rintro rfl
        exact absurd hlow (by decide)
      · rintro rfl
        exact absurd hlow (by decide)
  | escaped c n h => exact plain_escaped c
  | unicode a b c d h =>
    refine (plain_escaped 'u').append (plain_of_forall ?_)
    intro e he
    exact isHexDigit_plain (List.all_eq_true.mp h e he)

theorem StringChars.plain {w : List Char} {n : List Nat} (h : StringChars w n) : Plain w := by
  induction h with
  | nil => exact ⟨rfl, rfl⟩
  | cons h _ ih => exact h.plain.append ih

theorem Plain.unique {w w' r r' : List Char} (h : Plain w) (h' : Plain w')
    (heq : w ++ '"' :: r = w' ++ '"' :: r') : w = w' ∧ r = r' := by
  have hextends {w t r r' : List Char} (h : Plain w) (h' : Plain (w ++ t))
      (heq : '"' :: r = t ++ '"' :: r') : t = [] := by
    cases t with
    | nil => rfl
    | cons c t =>
      obtain ⟨rfl, _⟩ := List.cons.inj heq
      have hclosed := h'.count
      rw [closed_append h.ends, closed_quote] at hclosed
      omega
  rcases List.append_eq_append_iff.mp heq with ⟨t, rfl, ht⟩ | ⟨t, rfl, ht⟩
  · obtain rfl := hextends h h' ht
    exact ⟨(List.append_nil w).symm, (List.cons.inj ht).2⟩
  · obtain rfl := hextends h' h ht
    exact ⟨List.append_nil w', (List.cons.inj ht).2.symm⟩

/-! ### Lists of strings -/

theorem not_mem_whitespace {w : List Char} (h : Whitespace w) {c : Char}
    (hc : isWhitespace c = false) : c ∉ w := by
  intro hm
  rw [h c hm] at hc
  exact absurd hc (by simp)

theorem whitespace_before {w : List Char} (h : Whitespace w) : Scans .before .before 0 w := by
  apply scans_of_forall
  intro c hc
  have hquote : c ≠ '"' := fun heq => not_mem_whitespace h rfl (heq ▸ hc)
  simp [scan, closing, hquote, h c hc]

theorem whitespace_behind {w : List Char} (h : Whitespace w) : Scans .behind .behind 0 w := by
  apply scans_of_forall
  intro c hc
  have hcomma : c ≠ ',' := fun heq => not_mem_whitespace h rfl (heq ▸ hc)
  simp [scan, closing, hcomma, h c hc]

theorem scans_string {w : List Char} {n : List Nat} (h : Element StringText w n) :
    Scans .before .behind 1 w := by
  obtain ⟨before, inner, behind, rfl, hbefore, hbehind, inner, rfl, hinner⟩ := h
  have hopen : Scans .before .inside 0 ['"'] := ⟨rfl, rfl⟩
  have hclose : Scans .inside .behind 1 ['"'] := ⟨rfl, rfl⟩
  have hquoted := (hopen.append hinner.plain).append hclose
  exact ((whitespace_before hbefore).append hquoted).append (whitespace_behind hbehind)

theorem scans_strings {w : List Char} {ns : List (List Nat)}
    (h : CommaSeparated (Element StringText) w ns) : Scans .before .behind ns.length w := by
  induction h with
  | single h => exact scans_string h
  | @cons w ws n ns h _ ih =>
    have hcomma : Scans .behind .before 0 [','] := ⟨rfl, rfl⟩
    have hall := (scans_string h).append (hcomma.append ih)
    rw [List.length_cons, Nat.add_comm]
    rw [Nat.zero_add] at hall
    exact hall

/-- A word in quotation marks, with the comma and the blank behind it. -/
def quoted (w : List Char) : List Char := '"' :: w ++ ['"', ',', ' ']

def quotedList (ws : List (List Char)) : List Char := ws.flatMap quoted

/-- Where a word may begin: in front of a string, or still in one. -/
def Boundary (p : Place) : Prop := p = .before ∨ p = .inside

/-- A string that has begun. -/
def begun : Place → Nat
  | .inside => 1
  | _ => 0

theorem scan_ending {p q : Place} {k : Nat} (h : Scans p q k ['"', ',', ' ']) :
    (p = .inside ∧ q = .before ∧ k = 1) ∨ ((p = .before ∨ p = .escaped) ∧ q = .inside ∧ k = 0) := by
  obtain ⟨hends, rfl⟩ := h
  cases p with
  | before => exact Or.inr ⟨Or.inl rfl, (Option.some.inj hends).symm, rfl⟩
  | inside => exact Or.inl ⟨rfl, (Option.some.inj hends).symm, rfl⟩
  | escaped => exact Or.inr ⟨Or.inr rfl, (Option.some.inj hends).symm, rfl⟩
  | behind => exact absurd hends (by simp [Traces.after_cons, scan, isWhitespace])

/-- In a quoted word at least one string ends, one more if it began in a string, and one less if
it ends in one. -/
theorem scan_quoted {p q : Place} {k : Nat} {w : List Char} (hp : Boundary p)
    (h : Scans p q k (quoted w)) : Boundary q ∧ begun p + 1 ≤ k + begun q := by
  obtain ⟨s, m, n, hopen, hrest, rfl⟩ := @Scans.split p q k ['"'] (w ++ ['"', ',', ' ']) h
  obtain ⟨t, i, j, hword, hending, rfl⟩ := hrest.split
  have hfirst : begun p = m := by
    rcases hp with rfl | rfl
    · exact hopen.count
    · exact hopen.count
  rcases scan_ending hending with ⟨_, rfl, rfl⟩ | ⟨_, rfl, rfl⟩
  · rw [hfirst]
    exact ⟨Or.inl rfl, by omega⟩
  · rw [hfirst]
    refine ⟨Or.inr rfl, ?_⟩
    show m + 1 ≤ m + (i + 0) + 1
    omega

theorem scan_quotedList {p q : Place} {k : Nat} {ws : List (List Char)} (hp : Boundary p)
    (h : Scans p q k (quotedList ws)) : Boundary q ∧ begun p + ws.length ≤ k + begun q := by
  induction ws generalizing p k with
  | nil =>
    obtain ⟨hends, rfl⟩ := h
    obtain rfl := Option.some.inj hends
    exact ⟨hp, by simp⟩
  | cons w ws ih =>
    obtain ⟨s, m, n, hw, hws, rfl⟩ := @Scans.split p q k (quoted w) (quotedList ws) h
    obtain ⟨hs, hone⟩ := scan_quoted hp hw
    obtain ⟨hq, hrest⟩ := ih hs hws
    refine ⟨hq, ?_⟩
    rw [List.length_cons]
    omega

/-- Where no string ends none has been left. -/
theorem inside_of_open {p q : Place} {w : List Char} (hp : p = .inside ∨ p = .escaped)
    (h : Scans p q 0 w) : q = .inside ∨ q = .escaped := by
  induction w generalizing p with
  | nil =>
    obtain rfl := Option.some.inj h.ends
    exact hp
  | cons c w ih =>
    obtain ⟨s, m, n, hc, hw, hzero⟩ := @Scans.split p q 0 [c] w h
    obtain rfl : n = 0 := by omega
    obtain rfl : m = 0 := by omega
    refine ih ?_ hw
    have hends := hc.ends
    have hcount := hc.count
    rcases hp with rfl | rfl
    · by_cases hquote : c = '"'
      · subst hquote
        exact absurd hcount (by simp [closed_quote])
      · by_cases hbackslash : c = '\\'
        · exact Or.inr (by simpa [Traces.after_cons, scan, hbackslash] using hends.symm)
        · exact Or.inl (by simpa [Traces.after_cons, scan, hquote, hbackslash] using hends.symm)
    · exact Or.inl (by simpa [Traces.after_cons, scan] using hends.symm)

/-- The scan of a list with one string for each word. -/
def OneEach (ws : List (List Char)) : Prop := Scans .before .before ws.length (quotedList ws)

/-- The first word of such a list is a string of its own, or leaves a backslash in front of the
quotation mark behind it. -/
theorem OneEach.first {w : List Char} {ws : List (List Char)} (h : OneEach (w :: ws)) :
    Plain w ∨ Scans .inside .escaped 0 w ∧ ∃ k, Scans .before .inside k (quoted w) := by
  obtain ⟨s, m, n, hw, hws, hsum⟩ :=
    @Scans.split .before .before _ (quoted w) (quotedList ws) h
  obtain ⟨hs, hone⟩ := scan_quoted (Or.inl rfl) hw
  obtain ⟨_, hrest⟩ := scan_quotedList hs hws
  obtain ⟨j, hbody, hm⟩ :=
    @Scans.behind .before .inside s m 0 ['"'] (w ++ ['"', ',', ' ']) hw ⟨rfl, rfl⟩
  obtain ⟨t, i, j', hword, hending, hj⟩ := hbody.split
  rw [List.length_cons] at hsum
  rcases scan_ending hending with ⟨rfl, rfl, rfl⟩ | ⟨ht, rfl, rfl⟩
  · left
    obtain rfl : i = 0 := by simp [begun] at hrest hone; omega
    exact hword
  · right
    obtain rfl : i = 0 := by simp [begun] at hrest hone; omega
    rcases inside_of_open (Or.inl rfl) hword with rfl | rfl
    · exact absurd ht (by simp)
    · exact ⟨hword, m, hw⟩

/-- The last word, where it leaves a backslash in front of its quotation mark: it would have to
begin with a comma and a quotation mark. -/
theorem OneEach.last {w : List Char} {ws : List (List Char)} (h : OneEach (ws ++ [w]))
    (hne : w ≠ []) (hblank : ∀ c ∈ w, isWhitespace c = false) (hopen : Scans .inside .escaped 0 w)
    {k : Nat} (hinside : Scans .before .inside k (quoted w)) : False := by
  unfold OneEach quotedList at h
  rw [List.flatMap_append, List.flatMap_singleton] at h
  obtain ⟨s, m, n, hws, hw, _⟩ := h.split
  rcases (scan_quotedList (Or.inl rfl) hws).1 with rfl | rfl
  · exact absurd (hw.unique hinside).1 (by simp)
  · obtain ⟨j, hbody, _⟩ :=
      @Scans.behind .inside .behind .before n 1 ['"'] (w ++ ['"', ',', ' ']) hw ⟨rfl, rfl⟩
    obtain ⟨_, _, _, hword, _, _⟩ := hbody.split
    have hends := hword.ends
    cases w with
    | nil => exact hne rfl
    | cons c w =>
      have hc := hblank c List.mem_cons_self
      by_cases hcomma : c = ','
      · subst hcomma
        cases w with
        | nil => exact absurd hopen.ends (by simp [Traces.after_cons, scan])
        | cons d w =>
          have hd := hblank d (List.mem_cons_of_mem ',' List.mem_cons_self)
          by_cases hmark : d = '"'
          · subst hmark
            obtain ⟨j, hrest, hzero⟩ :=
              @Scans.behind .inside .inside .escaped 0 0 [','] ('"' :: w) hopen ⟨rfl, rfl⟩
            have hcount := hrest.count
            rw [closed_quote] at hcount
            omega
          · exact absurd hends (by simp [Traces.after_cons, scan, hmark, hd])
      · exact absurd hends (by simp [Traces.after_cons, scan, hcomma, hc])

/-- In every order one string for each word: then no quotation mark in a word ends a string. -/
theorem plain_of_orders {α : Type u} {f : α → List Char} {l : List α} (hne : ∀ a ∈ l, f a ≠ [])
    (hblank : ∀ a ∈ l, ∀ c ∈ f a, isWhitespace c = false)
    (h : ∀ k : List α, k.Perm l → OneEach (k.map f)) {a : α} (ha : a ∈ l) : Plain (f a) := by
  obtain ⟨s, t, rfl⟩ := List.append_of_mem ha
  have hfirst : (a :: (s ++ t)).Perm (s ++ a :: t) := List.perm_middle.symm
  have hlast : (s ++ t ++ [a]).Perm (s ++ a :: t) := (List.perm_append_singleton a _).trans hfirst
  have hend := h _ hlast
  rw [List.map_append] at hend
  rcases (h _ hfirst).first with hplain | ⟨hopen, k, hinside⟩
  · exact hplain
  · exact (hend.last (hne a ha) (hblank a ha) hopen hinside).elim

/-! ### Taking a text apart -/

theorem whitespace_nil : Whitespace [] := fun _ h => absurd h List.not_mem_nil

theorem whitespace_blank : Whitespace [' '] := by
  intro c hc
  rw [List.mem_singleton.mp hc]
  rfl

theorem whitespace_unique {u v r s : List Char} {a b : Char} (hu : Whitespace u)
    (hv : Whitespace v) (ha : isWhitespace a = false) (hb : isWhitespace b = false)
    (h : u ++ a :: r = v ++ b :: s) : u = v ∧ r = s := by
  have hextends {t r s : List Char} {a b : Char} (ha : isWhitespace a = false)
      (ht : Whitespace t) (h : a :: r = t ++ b :: s) : t = [] ∧ r = s := by
    cases t with
    | nil => exact ⟨rfl, (List.cons.inj h).2⟩
    | cons c t =>
      obtain ⟨rfl, _⟩ := List.cons.inj h
      exact absurd (ht a List.mem_cons_self) (by simp [ha])
  rcases List.append_eq_append_iff.mp h with ⟨t, rfl, ht⟩ | ⟨t, rfl, ht⟩
  · obtain ⟨rfl, hr⟩ := hextends ha (fun c hc => hv c (List.mem_append_right u hc)) ht
    exact ⟨(List.append_nil u).symm, hr⟩
  · obtain ⟨rfl, hr⟩ := hextends hb (fun c hc => hu c (List.mem_append_right v hc)) ht
    exact ⟨List.append_nil v, hr.symm⟩

theorem last_unique {u v r s : List Char} {a : Char} (hr : a ∉ r) (hs : a ∉ s)
    (h : u ++ a :: r = v ++ a :: s) : u = v := by
  have hextends {t r s : List Char} (hr : a ∉ r) (h : a :: r = t ++ a :: s) : t = [] := by
    cases t with
    | nil => rfl
    | cons c t =>
      rw [(List.cons.inj h).2] at hr
      simp at hr
  rcases List.append_eq_append_iff.mp h with ⟨t, rfl, ht⟩ | ⟨t, rfl, ht⟩
  · rw [hextends hr ht, List.append_nil]
  · rw [hextends hs ht, List.append_nil]

/-- The first string of a list of plain words is the first word. -/
theorem head_of_quotedList {ws : List (List Char)} (hplain : ∀ w ∈ ws, Plain w)
    {lead v r : List Char} {n : List Nat} (hlead : Whitespace lead) (h : Element StringText v n)
    (heq : v ++ ',' :: r = lead ++ quotedList ws) :
    ∃ w vs, ws = w :: vs ∧ StringChars w n ∧ r = ' ' :: quotedList vs := by
  obtain ⟨before, inner, behind, rfl, hbefore, hbehind, x, rfl, hx⟩ := h
  simp only [List.append_assoc, List.cons_append, List.nil_append] at heq
  cases ws with
  | nil =>
    have hmark : '"' ∈ lead := by
      rw [quotedList, List.flatMap_nil, List.append_nil] at heq
      rw [← heq]
      simp
    exact absurd hmark (not_mem_whitespace hlead rfl)
  | cons w vs =>
    simp only [quotedList, List.flatMap_cons, quoted, List.append_assoc, List.cons_append,
      List.nil_append] at heq
    obtain ⟨rfl, hstring⟩ := whitespace_unique hbefore hlead rfl rfl heq
    obtain ⟨rfl, hrest⟩ := hx.plain.unique (hplain w List.mem_cons_self) hstring
    obtain ⟨rfl, hr⟩ := @whitespace_unique behind [] r _ ',' ',' hbehind whitespace_nil rfl rfl hrest
    exact ⟨x, vs, rfl, hx, hr⟩

theorem forall₂_of_strings {inner : List Char} {ns : List (List Nat)}
    (h : CommaSeparated (Element StringText) inner ns) {ws : List (List Char)}
    (hplain : ∀ w ∈ ws, Plain w) {lead : List Char} (hlead : Whitespace lead)
    (heq : inner ++ [',', ' '] = lead ++ quotedList ws) : List.Forall₂ StringChars ws ns := by
  induction h generalizing ws lead with
  | single h =>
    obtain ⟨w, vs, rfl, hw, hr⟩ := head_of_quotedList hplain hlead h heq
    cases vs with
    | nil => exact List.Forall₂.cons hw List.Forall₂.nil
    | cons v vs => exact absurd hr (by simp [quotedList, quoted])
  | @cons v inner n ns h _ ih =>
    rw [List.append_assoc, List.cons_append] at heq
    obtain ⟨w, vs, rfl, hw, hr⟩ := head_of_quotedList hplain hlead h heq
    refine List.Forall₂.cons hw (ih ?_ whitespace_blank hr)
    intro x hx
    exact hplain x (List.mem_cons_of_mem w hx)

theorem strings_of_forall₂ {ws : List (List Char)} {ns : List (List Nat)}
    (h : List.Forall₂ StringChars ws ns) (hne : ws ≠ []) {lead : List Char}
    (hlead : Whitespace lead) :
    ∃ inner, inner ++ [',', ' '] = lead ++ quotedList ws ∧
      CommaSeparated (Element StringText) inner ns := by
  have hstring {w : List Char} {n : List Nat} (hw : StringChars w n) {lead : List Char}
      (hlead : Whitespace lead) : Element StringText (lead ++ ('"' :: w ++ ['"'])) n :=
    ⟨lead, '"' :: w ++ ['"'], [], by simp, hlead, whitespace_nil, w, rfl, hw⟩
  induction h generalizing lead with
  | nil => exact absurd rfl hne
  | @cons w n ws ns hw hws ih =>
    cases ws with
    | nil =>
      cases hws
      exact ⟨lead ++ ('"' :: w ++ ['"']), by simp [quotedList, quoted],
        CommaSeparated.single (hstring hw hlead)⟩
    | cons v ws =>
      obtain ⟨inner, heq, hinner⟩ := ih (List.cons_ne_nil v ws) whitespace_blank
      refine ⟨lead ++ ('"' :: w ++ ['"']) ++ ',' :: inner, ?_,
        CommaSeparated.cons (hstring hw hlead) hinner⟩
      rw [List.append_assoc]
      show lead ++ ('"' :: w ++ ['"']) ++ ',' :: (inner ++ [',', ' ']) = _
      rw [heq]
      simp [quotedList, quoted]

end Json
