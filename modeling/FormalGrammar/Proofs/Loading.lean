import FormalGrammar.Proofs.Displaying
import FormalGrammar.Proofs.Lines
import FormalGrammar.Session.Definition

/-!
# What stops the loading of a session

A text is loaded as a session, or it is no document, no definition or no grammar, or a setting is
out of range. There is one way out besides these: a setting may be an infinite number, which is no
integer either, but stops the loading as an overflow instead of as a part of the definition that is
wrong (`Session.load_outcome`, `Session.load_overflows`).

The reader of definitions is a sequence of steps, each with its own faults, so the faults of a
sequence are collected from those of its steps (`FailsWith`). Some steps put values into words, which
an integer of too many digits has none of; no such integer is read from a text
(`Entries.hasTexts_of_isRead`), nor is one the integer part of a number, so this fault stays away.
-/

namespace FormalGrammar

/-! ## Classes of faults -/

namespace Fault

/-- A part of the definition of a grammar was rejected. -/
def IsDefinition (f : Fault) : Prop := f.className = "GrammarDefinitionError"

/-- A definition has the wrong shape. -/
def IsShape (f : Fault) : Prop := f.className = "GrammarDecodeError"

/-- A text is no document. -/
def IsDocument (f : Fault) : Prop := f.className = "KVPDecodeError"

/-- The faults that loading a text may end in: those of documents, of definitions and of grammars,
and settings out of range. -/
inductive IsOfLoading (f : Fault) : Prop
  | document : f.IsDocument → IsOfLoading f
  | shape : f.IsShape → IsOfLoading f
  | definition : f.IsDefinition → IsOfLoading f
  | bound : (∃ n < 0, f = .negativeBound n) → IsOfLoading f
  | treeDepth : (∃ n, (n < 1 ∨ 10 < n) ∧ f = .treeDepthOutside n) → IsOfLoading f

/-- An overflow is none of the faults of loading. -/
theorem not_isOfLoading_infiniteToInt : ¬ Fault.infiniteToInt.IsOfLoading := by
  rintro (h | h | h | ⟨n, -, h⟩ | ⟨n, -, h⟩)
  · simp [IsDocument, className] at h
  · simp [IsShape, className] at h
  · simp [IsDefinition, className] at h
  · cases h
  · cases h

end Fault

/-! ## Values with a text -/

/-- Every value has a text, at every level. -/
def Entries.HasTexts (e : Entries) : Prop :=
  e.All (fun _ vs => ∀ v ∈ vs, (Value.ofScalar v).HasText) fun _ _ => True

/-- Whatever is read from a text has a text. -/
theorem Entries.hasTexts_of_isRead {e : Entries} (h : e.IsRead) : e.HasTexts := by
  refine h.readable.imp (fun key vs hk v hv => ?_) fun _ _ _ => trivial
  refine Scalar.hasText_iff.mpr ?_
  rintro n rfl
  exact hk.2.2 _ hv

theorem Entries.HasTexts.of_first? {e : Entries} {key : Text} {v : Scalar} (h : e.HasTexts)
    (hv : e.first? key = some v) : (Value.ofScalar v).HasText := by
  unfold Entries.first? at hv
  split at hv
  · next w ws hf =>
    have hall : ∀ v ∈ w :: ws, (Value.ofScalar v).HasText := Entries.All.of_find? h hf
    split at hv
    · cases hv
    · rw [← Option.some.inj hv]
      exact hall w List.mem_cons_self
  · cases hv

/-! ## Building a grammar -/

namespace Edit

open Fault

theorem isDefinition_of_refusal {e : Edit} {f : Fault} (h : e.refusal = .ok f) :
    f.IsDefinition := by
  cases e with
  | terminal v | nonterminal v | start v =>
    obtain ⟨shown, -, hf⟩ := bind_eq_ok_iff.mp h
    cases hf
    rfl
  | production lhs rhs =>
    obtain ⟨left, -, h⟩ := bind_eq_ok_iff.mp h
    obtain ⟨right, -, hf⟩ := bind_eq_ok_iff.mp h
    cases hf
    rfl

end Edit

namespace Grammar

open Fault

/-- A demand is stopped by its own refusal, if there are words for it. -/
theorem failsWith_demand {g : Grammar} {e : Edit} (h : ∃ f, e.refusal = .ok f) :
    FailsWith IsDefinition (g.demand e) := by
  obtain ⟨f, hf⟩ := h
  simp only [demand, hf]
  split
  · exact .ok _
  · exact .error (Edit.isDefinition_of_refusal hf)

theorem failsWith_demandEach {edit : Value → Edit} (g : Grammar) {vs : List Value}
    (h : ∀ v ∈ vs, ∀ w ∈ (edit v).values, w.HasText) :
    FailsWith IsDefinition (demandEach edit g (.list vs)) := by
  simp only [demandEach, Value.members]
  exact .foldlM (fun _ v hv => failsWith_demand (Edit.exists_words (h v hv)).2) g

theorem failsWith_demandStart (g : Grammar) {v : Value} (h : v.HasText) :
    FailsWith IsDefinition (g.demandStart v) := by
  unfold demandStart
  split
  · exact .ok _
  · exact failsWith_demand (Edit.exists_words (by simpa [Edit.values] using h)).2

/-- **Building a grammar from lists** of values that have texts is stopped by a part that is
rejected and by nothing else. -/
theorem failsWith_build {terminals nonterminals : List Value} {start : Value}
    {alternatives : List (Value × Value)} (ht : ∀ v ∈ terminals, v.HasText)
    (hn : ∀ v ∈ nonterminals, v.HasText) (hs : start.HasText)
    (ha : ∀ p ∈ alternatives, p.1.HasText ∧ ∃ vs, p.2 = .list vs ∧ ∀ v ∈ vs, v.HasText) :
    FailsWith IsDefinition
      (build (.list terminals) (.list nonterminals) start (.map alternatives)) := by
  have hterminals : FailsWith IsDefinition (demandEach .terminal {} (.list terminals)) :=
    failsWith_demandEach {} (by simpa [Edit.values] using ht)
  have hnonterminals : ∀ g : Grammar, FailsWith IsDefinition
      (g.demandEach .nonterminal (.list nonterminals)) :=
    fun g => failsWith_demandEach g (by simpa [Edit.values] using hn)
  have hproductions : ∀ g : Grammar, FailsWith IsDefinition
      (g.demandProductions (.map alternatives)) := by
    refine fun g => .foldlM (fun g p hp => ?_) g
    obtain ⟨lhs, bodies⟩ := p
    obtain ⟨hlhs, vs, rfl, hvs⟩ := ha _ hp
    exact failsWith_demandEach g fun v hv => by simpa [Edit.values] using ⟨hlhs, hvs v hv⟩
  exact hterminals.bind fun g _ => (hnonterminals g).bind fun g _ =>
    (failsWith_demandStart g hs).bind fun g _ => hproductions g

end Grammar

/-! ## Settings -/

/-- The integer that a scalar counts as. A truth value counts as one or zero, and a finite number
counts without its fraction. -/
def Scalar.count? : Scalar → Option Int
  | .none => Option.none
  | .bool b => some (if b then 1 else 0)
  | .int n => some n
  | .level l => some l.rank
  | .real x => Numeral.Real.truncate? x
  | .text t => Numeral.Integer.read? t

def Scalar.IsInfinite : Scalar → Prop
  | .real x => Numeral.Real.isInfinite x = true
  | _ => False

namespace Session

open Fault

/-- The first value under a key is an infinite number. -/
def InfiniteAt (e : Entries) (key : Text) : Prop := ∃ v, e.first? key = some v ∧ v.IsInfinite

/-- The first value under a key counts as no integer, and is not an infinite number. -/
def CountlessAt (e : Entries) (key : Text) : Prop :=
  ∃ v, e.first? key = some v ∧ v.count? = none ∧ ¬ v.IsInfinite

variable {e : Entries} {key : Text}

theorem count?_eq_none_of_isInfinite {v : Scalar} (h : v.IsInfinite) : v.count? = none := by
  cases v with
  | real x =>
    simp only [Scalar.IsInfinite, Numeral.Real.isInfinite] at h
    simp only [Scalar.count?, Numeral.Real.truncate?]
    split at h
    · next hx => rw [hx]
    · cases h
  | none | bool _ | int _ | level _ | text _ => cases h

/-- A setting that counts as an integer is that integer. -/
theorem settingAt_of_count? {v : Scalar} {n : Int} (default : Nat) (hv : e.first? key = some v)
    (hn : v.count? = some n) : settingAt e key default = .ok (.int n) := by
  rw [settingAt, hv]
  cases v with
  | none => cases hn
  | real x => simp only [Scalar.count?] at hn; simp only [hn]
  | text t => simp only [Scalar.count?] at hn; simp only [hn]
  | bool _ | int _ | level _ =>
    cases hn
    rfl

/-- The integer that a value with a text counts as has a numeral. -/
theorem isShort_of_count? {v : Scalar} {n : Int} (h : (Value.ofScalar v).HasText)
    (hn : v.count? = some n) : Numeral.Integer.IsShort n := by
  cases v with
  | none => cases hn
  | bool b =>
    cases hn
    cases b <;> decide +kernel
  | int n =>
    cases hn
    exact Scalar.hasText_iff.mp h n rfl
  | level l =>
    cases hn
    cases l <;> decide +kernel
  | real x => exact Numeral.Real.isShort_of_truncate? hn
  | text t => exact Numeral.Integer.isShort_of_read? hn

/-- A value that counts as no integer is refused in words. -/
theorem settingRefusal_of_count? {v : Scalar} (key : Text) (hn : v.count? = none) :
    ∃ shown, settingRefusal key v = .settingNotInt key shown := by
  have htext : (Value.ofScalar v).HasText := by
    refine Scalar.hasText_iff.mpr ?_
    rintro n rfl
    cases hn
  obtain ⟨shown, hshown⟩ := htext
  exact ⟨shown, by rw [settingRefusal, hshown]⟩

/-- A setting that does not count is refused with its key, unless it is infinite. -/
theorem settingAt_of_count?_eq_none {v : Scalar} (default : Nat) (hv : e.first? key = some v)
    (hn : v.count? = none) :
    (v.IsInfinite → settingAt e key default = .error .infiniteToInt) ∧
      (¬ v.IsInfinite →
        ∃ shown, settingAt e key default = .error (.settingNotInt key shown)) := by
  obtain ⟨shown, hshown⟩ := settingRefusal_of_count? key hn
  rw [settingAt, hv]
  cases v with
  | none => exact ⟨nofun, fun _ => ⟨shown, congrArg _ hshown⟩⟩
  | real x =>
    simp only [Scalar.count?] at hn
    simp only [hn, Scalar.IsInfinite, hshown]
    exact ⟨fun h => by rw [if_pos h], fun h => ⟨shown, by rw [if_neg h]⟩⟩
  | text t =>
    simp only [Scalar.count?] at hn
    simp only [hn, hshown]
    exact ⟨nofun, fun _ => ⟨shown, rfl⟩⟩
  | bool _ | int _ | level _ => cases hn

theorem settingAt_of_infinite (default : Nat) (h : InfiniteAt e key) :
    settingAt e key default = .error .infiniteToInt := by
  obtain ⟨v, hv, hi⟩ := h
  exact (settingAt_of_count?_eq_none default hv (count?_eq_none_of_isInfinite hi)).1 hi

theorem settingAt_of_countless (default : Nat) (h : CountlessAt e key) :
    ∃ shown, settingAt e key default = .error (.settingNotInt key shown) := by
  obtain ⟨v, hv, hn, hi⟩ := h
  exact (settingAt_of_count?_eq_none default hv hn).2 hi

/-- A setting that is there and counts, or is not there, is an integer. -/
theorem settingAt_of_counts (default : Nat) (hi : ¬ InfiniteAt e key) (hc : ¬ CountlessAt e key) :
    ∃ n, settingAt e key default = .ok (.int n) := by
  cases hv : e.first? key with
  | none => exact ⟨default, by rw [settingAt, hv]⟩
  | some v =>
    cases hn : v.count? with
    | some n => exact ⟨n, settingAt_of_count? default hv hn⟩
    | none => exact absurd ⟨v, hv, hn, fun h => hi ⟨v, hv, h⟩⟩ hc

/-- A setting has a numeral, whether it is there or not. -/
theorem isShort_of_settingAt {default : Nat} {n : Int} (he : e.HasTexts)
    (hd : Numeral.Integer.IsShort default) (h : settingAt e key default = .ok (.int n)) :
    Numeral.Integer.IsShort n := by
  cases hv : e.first? key with
  | none =>
    rw [settingAt, hv] at h
    cases h
    exact hd
  | some v =>
    cases hn : v.count? with
    | some m =>
      rw [settingAt_of_count? default hv hn] at h
      cases h
      exact isShort_of_count? (he.of_first? hv) hn
    | none =>
      obtain ⟨hinfinite, hrefused⟩ := settingAt_of_count?_eq_none default hv hn
      by_cases hi : v.IsInfinite
      · rw [hinfinite hi] at h
        cases h
      · obtain ⟨shown, hrefused⟩ := hrefused hi
        rw [hrefused] at h
        cases h

/-! ## Definitions -/

/-- The grammar that a namespace of a document defines, and the namespace of the settings. -/
def definitionIn (definition whole : Entries) : Except Fault (Grammar × Entries) := do
  let productions ← spaceAt definition productionsKey
  let analysis ← spaceAt whole analysisKey
  let terminals ← textsAt definition terminalsKey
  let nonterminals ← textsAt definition nonterminalsKey
  let start := (definition.first? startKey).elim .absent Value.ofScalar
  let alternatives ← alternativesIn productions
  let g ← Grammar.build (.list terminals) (.list nonterminals) start (.map alternatives)
  return (g, analysis)

/-- The grammar that a document defines, and the namespace of its settings. -/
def definitionOf (d : Document) : Except Fault (Grammar × Entries) :=
  match d.entries.find? grammarKey with
  | some (.space _ inner) => definitionIn inner d.entries
  | _ => .error .noGrammarSpace

/-- What is opened on a definition, once its settings have been read. -/
def openOn (log : Value) (p : Grammar × Entries) : Except Fault Session := do
  let bound ← settingAt p.2 maxDepthKey Analysis.defaultBound
  let treeDepth ← settingAt p.2 treeDepthKey defaultTreeDepth
  build (.grammar ⟨p.1, none⟩) bound treeDepth log

/-- A document is loaded in two parts, of which the first does not look at the settings. -/
theorem ofDocument_eq (d : Document) (log : Value) :
    ofDocument d log = definitionOf d >>= openOn log := by
  unfold ofDocument definitionOf
  cases d.entries.find? grammarKey with
  | none => rfl
  | some entry =>
    cases entry with
    | values _ => rfl
    | space _ definition =>
      change _ = definitionIn definition d.entries >>= openOn log
      simp only [definitionIn, bind_assoc, pure_bind]
      rfl

theorem failsWith_spaceAt (e : Entries) (key : Text) : FailsWith IsShape (spaceAt e key) := by
  unfold spaceAt
  split
  · exact .ok _
  · exact .ok _
  · exact .error rfl

theorem failsWith_textsAt (he : e.HasTexts) (key : Text) : FailsWith IsShape (textsAt e key) := by
  unfold textsAt
  split
  · exact .ok _
  · exact .error rfl
  · next vs hf =>
    have hall : ∀ v ∈ vs, (Value.ofScalar v).HasText := Entries.All.of_find? he hf
    refine .mapM fun v hv => ?_
    obtain ⟨w, hw, hv⟩ := List.mem_filterMap.mp hv
    unfold listed? at hv
    split at hv
    · cases hv
    · cases hv
      obtain ⟨t, ht⟩ := hall w hw
      rw [ht]
      exact .ok _

/-- What is collected under a key are texts. -/
theorem textsAt_hasText {vs : List Value} (h : textsAt e key = .ok vs) : ∀ v ∈ vs, v.HasText := by
  unfold textsAt at h
  split at h
  · cases h
    simp
  · cases h
  · intro v hv
    obtain ⟨w, -, hw⟩ := exists_of_mem_mapM h hv
    obtain ⟨t, -, ht⟩ := bind_eq_ok_iff.mp hw
    cases ht
    exact Value.hasText_text t

theorem failsWith_alternativesIn (he : e.HasTexts) : FailsWith IsShape (alternativesIn e) :=
  .mapM fun key _ => (failsWith_textsAt he key).bind fun _ _ => .ok _

theorem alternativesIn_hasText {alternatives : List (Value × Value)}
    (h : alternativesIn e = .ok alternatives) :
    ∀ p ∈ alternatives, p.1.HasText ∧ ∃ vs, p.2 = .list vs ∧ ∀ v ∈ vs, v.HasText := by
  intro p hp
  obtain ⟨key, -, hk⟩ := exists_of_mem_mapM h hp
  obtain ⟨vs, hvs, hk⟩ := bind_eq_ok_iff.mp hk
  cases hk
  exact ⟨Value.hasText_text key, vs, rfl, textsAt_hasText hvs⟩

theorem hasTexts_of_spaceAt {inner : Entries} (he : e.HasTexts) (h : spaceAt e key = .ok inner) :
    inner.HasTexts := by
  unfold spaceAt at h
  split at h
  · cases h
    trivial
  · next hf =>
    cases h
    exact (Entries.All.of_find? he hf).2
  · cases h

theorem hasText_start (he : e.HasTexts) (key : Text) :
    ((e.first? key).elim .absent Value.ofScalar).HasText := by
  cases hv : e.first? key with
  | none => exact ⟨_, rfl⟩
  | some v => exact he.of_first? hv

theorem failsWith_definitionIn {definition : Entries} (hd : definition.HasTexts)
    (whole : Entries) :
    FailsWith (fun f => f.IsShape ∨ f.IsDefinition) (definitionIn definition whole) := by
  have shape : ∀ {α : Type} {x : Except Fault α}, FailsWith IsShape x →
      FailsWith (fun f => f.IsShape ∨ f.IsDefinition) x := fun h => h.imp fun _ => .inl
  refine (shape (failsWith_spaceAt _ _)).bind fun productions hproductions => ?_
  refine (shape (failsWith_spaceAt _ _)).bind fun analysis _ => ?_
  refine (shape (failsWith_textsAt hd _)).bind fun terminals ht => ?_
  refine (shape (failsWith_textsAt hd _)).bind fun nonterminals hn => ?_
  refine (shape (failsWith_alternativesIn (hasTexts_of_spaceAt hd hproductions))).bind
    fun alternatives ha => ?_
  refine FailsWith.bind ?_ fun g _ => .ok _
  have hbuild := Grammar.failsWith_build (textsAt_hasText ht) (textsAt_hasText hn)
    (hasText_start hd startKey) (alternativesIn_hasText ha)
  exact hbuild.imp fun _ => .inr

theorem failsWith_definitionOf {d : Document} (hd : d.entries.HasTexts) :
    FailsWith (fun f => f.IsShape ∨ f.IsDefinition) (definitionOf d) := by
  unfold definitionOf
  split
  · next hf => exact failsWith_definitionIn (Entries.All.of_find? hd hf).2 _
  · exact .error (.inl rfl)

/-- The settings that a definition comes with have texts, if everything in its document has. -/
theorem hasTexts_of_definitionOf {d : Document} {g : Grammar} (hd : d.entries.HasTexts)
    (h : definitionOf d = .ok (g, e)) : e.HasTexts := by
  unfold definitionOf at h
  split at h
  · obtain ⟨productions, -, h⟩ := bind_eq_ok_iff.mp h
    obtain ⟨analysis, ha, h⟩ := bind_eq_ok_iff.mp h
    obtain ⟨terminals, -, h⟩ := bind_eq_ok_iff.mp h
    obtain ⟨nonterminals, -, h⟩ := bind_eq_ok_iff.mp h
    obtain ⟨alternatives, -, h⟩ := bind_eq_ok_iff.mp h
    obtain ⟨g', -, h⟩ := bind_eq_ok_iff.mp h
    cases h
    exact hasTexts_of_spaceAt hd ha
  · cases h

/-! ## Loading -/

/-- A text is a document that defines the grammar `g`, with the settings in `e`. -/
def Defines (t : Text) (g : Grammar) (e : Entries) : Prop :=
  ∃ d, Document.ofText t none = .ok d ∧ definitionOf d = .ok (g, e)

variable {t : Text} {g : Grammar} {log : Value} {j : Journal}

/-- Everything in a document that is read has a text. -/
theorem hasTexts_of_ofText {d : Document} (h : Document.ofText t none = .ok d) :
    d.entries.HasTexts :=
  Entries.hasTexts_of_isRead (Document.isRead_of_readEntries (Document.ofText_eq_ok_iff.mp h).1)

theorem hasTexts_of_defines (h : Defines t g e) : e.HasTexts := by
  obtain ⟨d, hd, hg⟩ := h
  exact hasTexts_of_definitionOf (hasTexts_of_ofText hd) hg

theorem ofText_of_defines (h : Defines t g e) (log : Value) : ofText t log = openOn log (g, e) := by
  obtain ⟨d, hd, hg⟩ := h
  simp only [ofText, hd, ofDocument_eq, hg]
  rfl

/-- A text that defines nothing is refused for what is wrong with it. -/
theorem defines_or_error (t : Text) :
    (∃ g e, Defines t g e) ∨
      ∃ f, f.IsOfLoading ∧ ∀ log, ofText t log = .error f := by
  cases hd : Document.ofText t none with
  | error r => exact .inr ⟨.documentText r, .document rfl, fun log => by rw [ofText, hd]⟩
  | ok d =>
    cases hg : definitionOf d with
    | ok p => exact .inl ⟨p.1, p.2, d, hd, hg⟩
    | error f =>
      have hclass : f.IsOfLoading :=
        (failsWith_definitionOf (hasTexts_of_ofText hd) f hg).elim .shape .definition
      refine .inr ⟨f, hclass, fun log => ?_⟩
      simp only [ofText, hd, ofDocument_eq, hg]
      rfl

/-- A session on a grammar with integers as its settings is refused if one is out of range. -/
theorem failsWith_build (hj : Analysis.readJournal log = some j) (g : Grammar) {m n : Int}
    (hm : Numeral.Integer.IsShort m) (hn : Numeral.Integer.IsShort n) :
    FailsWith IsOfLoading (build (.grammar ⟨g, none⟩) (.int m) (.int n) log) := by
  have hreadBound : FailsWith IsOfLoading (Analysis.readBound (.int m)) := by
    simp only [Analysis.readBound, Analysis.integer?, not_not.mpr hm, if_false]
    split
    · next hneg => exact .error (.bound ⟨m, hneg, rfl⟩)
    · exact .ok _
  have hreadDepth : FailsWith IsOfLoading (readTreeDepth (.int n)) := by
    by_cases hrange : (minTreeDepth : Int) ≤ n ∧ n ≤ maxTreeDepth
    · simp only [readTreeDepth, Analysis.integer?, if_neg (not_not.mpr hn), if_pos hrange]
      exact .ok _
    · simp only [readTreeDepth, Analysis.integer?, if_neg (not_not.mpr hn), if_neg hrange]
      simp only [minTreeDepth, maxTreeDepth] at hrange
      exact .error (.treeDepth ⟨n, by omega, rfl⟩)
  simp only [build, readGrammar, Analysis.readArguments, Analysis.readBook, hj]
  cases hbound : Analysis.readBound (.int m) with
  | error f => exact .error (hreadBound f hbound)
  | ok bound =>
    cases hdepth : readTreeDepth (.int n) with
    | error f => exact .error (hreadDepth f hdepth)
    | ok depth => exact .ok _

/-- A setting is an infinite number, and none before it is refused. -/
def Overflows (e : Entries) : Prop :=
  InfiniteAt e maxDepthKey ∨ ¬ CountlessAt e maxDepthKey ∧ InfiniteAt e treeDepthKey

/-- The setting under a key counts as no integer, and nothing is wrong with those before it. -/
inductive Refuses (e : Entries) : Text → Prop
  | bound : CountlessAt e maxDepthKey → Refuses e maxDepthKey
  | treeDepth : ¬ InfiniteAt e maxDepthKey → ¬ CountlessAt e maxDepthKey →
      CountlessAt e treeDepthKey → Refuses e treeDepthKey

theorem openOn_of_overflows (g : Grammar) (log : Value) (h : Overflows e) :
    openOn log (g, e) = .error .infiniteToInt := by
  by_cases hi : InfiniteAt e maxDepthKey
  · simp only [openOn, settingAt_of_infinite _ hi]
    rfl
  · obtain ⟨hc, hi'⟩ := h.resolve_left hi
    obtain ⟨m, hm⟩ := settingAt_of_counts Analysis.defaultBound hi hc
    simp only [openOn, hm, settingAt_of_infinite _ hi']
    rfl

theorem openOn_of_refuses (g : Grammar) (log : Value) (h : Refuses e key) :
    ∃ shown, openOn log (g, e) = .error (.settingNotInt key shown) := by
  cases h with
  | bound hc =>
    obtain ⟨shown, hm⟩ := settingAt_of_countless Analysis.defaultBound hc
    refine ⟨shown, ?_⟩
    simp only [openOn, hm]
    rfl
  | treeDepth hi hc hc' =>
    obtain ⟨m, hm⟩ := settingAt_of_counts Analysis.defaultBound hi hc
    obtain ⟨shown, hn⟩ := settingAt_of_countless defaultTreeDepth hc'
    refine ⟨shown, ?_⟩
    simp only [openOn, hm, hn]
    rfl

/-- **What stops a definition**, if no setting overflows. -/
theorem failsWith_openOn (hj : Analysis.readJournal log = some j) (g : Grammar) (he : e.HasTexts)
    (h : ¬ Overflows e) : FailsWith IsOfLoading (openOn log (g, e)) := by
  by_cases hc : CountlessAt e maxDepthKey
  · obtain ⟨shown, hopen⟩ := openOn_of_refuses g log (.bound hc)
    rw [hopen]
    exact .error (.shape rfl)
  have hi : ¬ InfiniteAt e maxDepthKey := fun hi => h (.inl hi)
  by_cases hc' : CountlessAt e treeDepthKey
  · obtain ⟨shown, hopen⟩ := openOn_of_refuses g log (.treeDepth hi hc hc')
    rw [hopen]
    exact .error (.shape rfl)
  have hi' : ¬ InfiniteAt e treeDepthKey := fun hi' => h (.inr ⟨hc, hi'⟩)
  obtain ⟨m, hm⟩ := settingAt_of_counts Analysis.defaultBound hi hc
  obtain ⟨n, hn⟩ := settingAt_of_counts defaultTreeDepth hi' hc'
  have hbound := isShort_of_settingAt he (by decide +kernel) hm
  have hdepth := isShort_of_settingAt he (by decide +kernel) hn
  simp only [openOn, hm, hn]
  exact failsWith_build hj g hbound hdepth

/-- **The outcome of loading a text.** It is a session, or a fault of the documented classes, or an
overflow. An overflow needs a setting that is an infinite number; every other setting that counts as
no integer is refused with its key. -/
theorem load_outcome (hj : Analysis.readJournal log = some j) (t : Text) :
    ((∃ s, ofText t log = .ok s) ∨
      (∃ f, ofText t log = .error f ∧ f.IsOfLoading) ∨
      ofText t log = .error .infiniteToInt) ∧
    (ofText t log = .error .infiniteToInt ↔ ∃ g e, Defines t g e ∧ Overflows e) ∧
    ∀ g e key, Defines t g e → Refuses e key →
      ∃ shown, ofText t log = .error (.settingNotInt key shown) ∧
        (Fault.settingNotInt key shown).IsShape := by
  -- a fault is one of the documented classes, or a definition overflows
  have hfault : ∀ f, ofText t log = .error f →
      f.IsOfLoading ∨ ∃ g e, Defines t g e ∧ Overflows e := by
    intro f hf
    rcases defines_or_error t with ⟨g, e, h⟩ | ⟨f', hclass, hload⟩
    · by_cases ho : Overflows e
      · exact .inr ⟨g, e, h, ho⟩
      · rw [ofText_of_defines h] at hf
        exact .inl (failsWith_openOn hj g (hasTexts_of_defines h) ho f hf)
    · rw [hload] at hf
      cases hf
      exact .inl hclass
  have hoverflow : (∃ g e, Defines t g e ∧ Overflows e) → ofText t log = .error .infiniteToInt := by
    rintro ⟨g, e, h, ho⟩
    rw [ofText_of_defines h, openOn_of_overflows g log ho]
  refine ⟨?_, ⟨fun hf => ?_, hoverflow⟩, fun g e key h hr => ?_⟩
  · cases hx : ofText t log with
    | ok s => exact .inl ⟨s, rfl⟩
    | error f =>
      rcases hfault f hx with hclass | ho
      · exact .inr (.inl ⟨f, rfl, hclass⟩)
      · exact .inr (.inr (hx.symm.trans (hoverflow ho)))
  · exact (hfault _ hf).resolve_left not_isOfLoading_infiniteToInt
  · obtain ⟨shown, hopen⟩ := openOn_of_refuses g log hr
    exact ⟨shown, by rw [ofText_of_defines h, hopen], rfl⟩

/-- A definition without a grammar's parts, with a bound of the given spelling. -/
def boundedBy (bound : String) : Text :=
  (">>grammar\n<<\n>>analysis\nmax_depth=" ++ bound ++ "\n<<").toList

/-- A bound in words is read as a text and refused. -/
theorem load_outcome_wordedBound :
    Defines (boundedBy "ten") {} (.values maxDepthKey [.text "ten".toList] .nil) ∧
      ∃ shown, ofText (boundedBy "ten") .absent = .error (.settingNotInt maxDepthKey shown) ∧
        (Fault.settingNotInt maxDepthKey shown).IsShape := by
  have hdefines : Defines (boundedBy "ten") {} (.values maxDepthKey [.text "ten".toList] .nil) :=
    ⟨_, rfl, rfl⟩
  have hrefuses : Refuses (.values maxDepthKey [.text "ten".toList] .nil) maxDepthKey :=
    .bound ⟨.text "ten".toList, rfl, rfl, id⟩
  exact ⟨hdefines, (load_outcome (j := none) rfl (boundedBy "ten")).2.2 _ _ _ hdefines hrefuses⟩

/-- An infinite bound is not refused with the other settings that are no integers. -/
theorem load_overflows :
    ofText (boundedBy "inf&F") .absent = .error .infiniteToInt ∧
      Fault.infiniteToInt.className = "OverflowError" ∧ ¬ Fault.infiniteToInt.IsOfLoading :=
  ⟨rfl, rfl, not_isOfLoading_infiniteToInt⟩

end Session

end FormalGrammar
