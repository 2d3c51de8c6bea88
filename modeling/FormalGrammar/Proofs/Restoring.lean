import FormalGrammar.Proofs.Lines
import FormalGrammar.Proofs.Making

/-!
# What writing and reading restores

Reading undoes writing exactly for the documents whose keys, lists and texts survive on their
lines (`Document.restored_iff`): nothing that is lost on the way comes back by accident, because
whatever is read has the shape that is asked for. Writing a document that was read, and reading it
again, always succeeds; it gives the same document unless a text ends in a blank, which only an
explicit text format lets in and which is not written again (`Document.reread_eq_iff`,
`Document.reread_loses_blank`).

Writing itself fails for an integer of too many digits only, so plain documents can be written
(`Document.encode_of_isPlain`), and so can all that were read (`Document.encode_of_isRead`).
-/

namespace FormalGrammar

open Text Document

namespace Entries

/-- The values are neither real numbers nor levels nor too long integers. -/
def IsPlain (e : Entries) : Prop := e.All (fun _ vs => ∀ v ∈ vs, v.IsPlain) fun _ _ => True

/-- At every level, the keys with values are fit for a line with values and those of namespaces are
tokens, no list is empty, and every text is a token. -/
def IsRestorable (e : Entries) : Prop :=
  e.All (fun key vs => IsValueKey key ∧ vs ≠ [] ∧ ∀ t, Scalar.text t ∈ vs → IsToken t)
    fun key _ => IsToken key

/-- No text has a blank at an end. -/
def IsTrimmed (e : Entries) : Prop :=
  e.All (fun _ vs => ∀ t, Scalar.text t ∈ vs → trim t = t) fun _ _ => True

theorem isRestorable_iff {e : Entries} (hp : e.IsPlain) :
    e.IsRestorable ↔ e.IsLegible ∧ e.asRead = e.contents := by
  rw [asRead_eq_contents_iff]
  constructor
  · intro h
    have hboth := all_and_iff.mpr ⟨h, hp⟩
    constructor
    · refine hboth.imp (fun key vs hk => ?_) fun key name hk => hk.1
      exact ⟨hk.1.1, hk.2, fun t ht => (hk.1.2.2 t ht).notMem_newline⟩
    · refine h.imp (fun key vs hk => ?_) fun _ _ _ => trivial
      exact valuesAsRead_eq_self_iff.mpr
        ⟨hk.2.1, fun t ht => ⟨(hk.2.2 t ht).ne_nil, (hk.2.2 t ht).trim_eq⟩⟩
  · rintro ⟨hl, hr⟩
    refine (all_and_iff.mpr ⟨hl, hr⟩).imp (fun key vs hk => ?_) fun key name hk => hk.1
    obtain ⟨⟨hkey, -, hnewline⟩, hback⟩ := hk
    obtain ⟨hne, htext⟩ := valuesAsRead_eq_self_iff.mp hback
    exact ⟨hkey, hne, fun t ht => ⟨(htext t ht).1, (htext t ht).2, hnewline t ht⟩⟩

namespace IsRead

variable {e : Entries}

theorem contents_eq (h : e.IsRead) : e.contents = e :=
  contents_eq_self (h.readable.imp (fun _ _ _ => trivial) fun _ _ hk => hk.2)

/-- What is read can be written so that its lines are told apart again. -/
theorem isLegible (h : e.IsRead) (hp : e.IsPlain) : e.IsLegible := by
  refine (all_and_iff.mpr ⟨h.readable, hp⟩).imp (fun key vs hk => ?_) fun key name hk => hk.1.1
  obtain ⟨⟨hkey, -, hread⟩, hplain⟩ := hk
  exact ⟨hkey, hplain, fun t ht => (hread _ ht).2⟩

/-- What is read holds no level and no integer that is too long. -/
theorem isPlain (h : e.IsRead)
    (hr : e.All (fun _ vs => ∀ x, Scalar.real x ∉ vs) fun _ _ => True) : e.IsPlain := by
  refine (all_and_iff.mpr ⟨h.readable, hr⟩).imp (fun key vs hk v hv => ?_) fun _ _ _ => trivial
  have hread := hk.1.2.2 v hv
  cases v with
  | int n => exact hread
  | level l => exact hread.elim
  | real x => exact hk.2 x hv
  | none | bool _ | text _ => trivial

/-- What is read comes back as it is if no text has a blank at an end. -/
theorem asRead_eq_iff (h : e.IsRead) : e.asRead = e ↔ e.IsTrimmed := by
  have hcontents : e.asRead = e ↔ e.asRead = e.contents := by rw [h.contents_eq]
  rw [hcontents, asRead_eq_contents_iff]
  constructor
  · intro hr
    exact hr.imp (fun _ _ hk t ht => ((valuesAsRead_eq_self_iff.mp hk).2 t ht).2) fun _ _ _ => trivial
  · intro ht
    refine (all_and_iff.mpr ⟨h.readable, ht⟩).imp (fun key vs hk => ?_) fun _ _ _ => trivial
    obtain ⟨⟨-, hne, hread⟩, htrim⟩ := hk
    refine valuesAsRead_eq_self_iff.mpr ⟨hne, fun t ht => ⟨?_, htrim t ht⟩⟩
    obtain ⟨⟨c, r, he, -⟩, -⟩ := hread _ ht
    simp [he]

end IsRead

end Entries

namespace Document

/-! ## What can be written -/

/-- A plain document can be written. -/
theorem encode_of_isPlain {d : Document} (hp : d.entries.IsPlain) : d.encode = .ok d.text :=
  if_pos (Entries.isWritable_iff.mpr
    (hp.imp (fun _ _ hk n hn => hk (.int n) hn) fun _ _ _ => trivial))

/-- Whatever was read can be written. -/
theorem encode_of_isRead {d : Document} (h : d.entries.IsRead) : d.encode = .ok d.text :=
  if_pos (Entries.isWritable_iff.mpr
    (h.readable.imp (fun _ _ hk n hn => hk.2.2 (.int n) hn) fun _ _ _ => trivial))

/-! ## Written, then read -/

/-- **A document is restored from its text exactly if it is restorable**: reading its text succeeds
and gives the same keys in the same order with the same values at every level. The names of
namespaces are not written. -/
theorem restored_iff {d : Document} (hd : d.Made) (hp : d.entries.IsPlain) (name : Option Text) :
    (∃ d', ofText d.text name = .ok d' ∧ d'.entries.contents = d.entries.contents) ↔
      d.entries.IsRestorable := by
  constructor
  · rintro ⟨d', hread, hsame⟩
    obtain ⟨hentries, -⟩ := ofText_eq_ok_iff.mp hread
    have hr := isRead_of_readEntries hentries
    rw [hr.contents_eq] at hsame
    -- Everything that is read has keys of the right shape, so the document had them before.
    have hshape : d'.entries.All (fun key vs => IsValueKey key ∧ vs ≠ [] ∧ ∀ v ∈ vs, v.IsReadable)
        fun key _ => IsToken key := hr.readable.imp (fun _ _ hk => hk) fun _ _ hk => hk.1
    rw [hsame, Entries.all_contents_iff] at hshape
    have hlegible : d.entries.IsLegible := by
      refine (Entries.all_and_iff.mpr ⟨hshape, hp⟩).imp (fun key vs hk => ?_) fun _ _ hk => hk.1
      exact ⟨hk.1.1, hk.2, fun t ht => (hk.1.2.2 _ ht).2⟩
    -- So its lines were told apart, and what came back is known.
    have hback := readEntries_text hd.distinct hlegible
    rw [hentries, Except.ok.injEq, hsame] at hback
    exact (Entries.isRestorable_iff hp).mpr ⟨hlegible, hback.symm⟩
  · intro h
    obtain ⟨hlegible, hback⟩ := (Entries.isRestorable_iff hp).mp h
    refine ⟨⟨name, d.entries.asRead⟩, ofText_eq_ok_iff.mpr ⟨?_, rfl⟩, ?_⟩
    · exact readEntries_text hd.distinct hlegible
    · rw [Entries.contents_asRead, hback]

/-- A document whose keys and texts hold the marks of the format where they do no harm. -/
def marks : Document :=
  ⟨none,
    .values "%".toList [.text "a=b%;&S".toList, .none, .bool true, .int (-120)] <|
    .space "> =".toList (some "inner".toList) (.values "k&I;".toList [.text "<<".toList] .nil) .nil⟩

theorem restored_iff_marks :
    marks.Made ∧ marks.entries.IsPlain ∧ marks.text = "%=a=b%%%;%&S;;true&B;-120&I\n>>> =\n\tk&I;=<<\n<<".toList ∧
      ∃ d', ofText marks.text none = .ok d' ∧ d'.entries.contents = marks.entries.contents := by
  have hmade : marks.Made := made_iff.mpr ⟨by decide, by decide, ⟨by decide, trivial⟩, trivial⟩
  have hplain : marks.entries.IsPlain := by
    refine ⟨?_, trivial, ⟨?_, trivial⟩, trivial⟩
    · have hshort : Numeral.Integer.IsShort (-120) := by decide +kernel
      simpa [Scalar.IsPlain] using hshort
    · simp [Scalar.IsPlain]
  refine ⟨hmade, hplain, by decide +kernel, (restored_iff hmade hplain none).mpr ?_⟩
  refine ⟨⟨by decide, by simp, fun t ht => ?_⟩, by decide,
    ⟨⟨by decide, by simp, fun t ht => ?_⟩, trivial⟩, trivial⟩
  · have he : t = "a=b%;&S".toList := by simpa using ht
    exact he ▸ by decide
  · have he : t = "<<".toList := by simpa using ht
    exact he ▸ by decide

/-! ## Read, then written -/

/-- **What was read is written and read again**, with the blanks at the ends of its texts taken off;
so it stays the same exactly if no text has one. -/
theorem reread_eq_iff {t : Text} {name : Option Text} {d : Document} (h : ofText t name = .ok d)
    (hr : d.entries.All (fun _ vs => ∀ x, Scalar.real x ∉ vs) fun _ _ => True) :
    ofText d.text name = .ok ⟨name, d.entries.asRead⟩ ∧
      (ofText d.text name = .ok d ↔ d.entries.IsTrimmed) := by
  obtain ⟨hentries, hname⟩ := ofText_eq_ok_iff.mp h
  have hread := isRead_of_readEntries hentries
  have hback := readEntries_text hread.distinct (hread.isLegible (hread.isPlain hr))
  refine ⟨ofText_eq_ok_iff.mpr ⟨hback, rfl⟩, ?_⟩
  rw [ofText_eq_ok_iff, hback, ← hread.asRead_eq_iff]
  simp [hname]

/-- Values with formats, a lone percent sign, a repeated key and a remark after a closing mark. -/
theorem reread_eq_iff_spellings :
    let d : Document := ⟨none,
      .values "n".toList [.int 7, .text "50% off".toList] <|
      .space "a".toList (some "a".toList) (.values "k".toList [.text "x".toList, .bool true] .nil) .nil⟩
    ofText "n=0\n>>a\n k = x&S ; 1&B\n<< a\n n= +07&I;50% off".toList none = .ok d ∧
      ofText d.text none = .ok d := by
  intro d
  have hread : ofText "n=0\n>>a\n k = x&S ; 1&B\n<< a\n n= +07&I;50% off".toList none = .ok d := by
    rfl
  have hreal : d.entries.All (fun _ vs => ∀ x, Scalar.real x ∉ vs) fun _ _ => True := by
    simp [d, Entries.All]
  refine ⟨hread, (reread_eq_iff hread hreal).2.mpr ⟨?_, trivial, ⟨?_, trivial⟩, trivial⟩⟩
  · intro t ht
    have he : t = "50% off".toList := by simpa using ht
    exact he ▸ by decide
  · intro t ht
    have he : t = "x".toList := by simpa using ht
    exact he ▸ by decide

/-- A text with a format keeps its last blank when it is read, and loses it when it is written and
read again. -/
theorem reread_loses_blank :
    let d : Document := ⟨none, .values "note".toList [.text "a ".toList] .nil⟩
    let d' : Document := ⟨none, .values "note".toList [.text "a".toList] .nil⟩
    ofText "note=a &S".toList none = .ok d ∧ ofText d.text none = .ok d' ∧
      d'.entries.contents ≠ d.entries.contents := by
  refine ⟨rfl, rfl, ?_⟩
  simp [Entries.contents]

end Document

end FormalGrammar
