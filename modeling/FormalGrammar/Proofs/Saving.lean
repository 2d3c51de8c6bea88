import FormalGrammar.Proofs.Lines
import FormalGrammar.Proofs.Rebuilding
import FormalGrammar.Session.Definition

/-!
# Saving and loading sessions

A session whose grammar was made by editing is loaded as it was saved, but for its latest result
(`Session.load_saved`), unless `=` is the left-hand side of a rule: values are escaped, keys are
not, and a line that begins with `==` has no key (`Session.load_saved_equals`).

Two things are shown apart. A session is made again from its document (`ofDocument_toDocument`).
And all that a document of a session holds are solid texts, which pass through the text of the
document unchanged (`ofDocument_asRead`). The document can always be written (`encode_toDocument`).
-/

namespace FormalGrammar

open Text

/-! ## Solid texts -/

/-- Not empty, and without blanks. -/
def Text.IsSolid (t : Text) : Prop := t ≠ [] ∧ ∀ c ∈ t, isBlank c = false

instance (t : Text) : Decidable (Text.IsSolid t) :=
  decidable_of_iff (t ≠ [] ∧ (t.all fun c => !isBlank c) = true)
    (and_congr_right fun _ => forall_not_blank_iff.symm)

namespace Text

theorem IsSolid.notMem {t : Text} (h : IsSolid t) {c : Char} (hc : isBlank c = true) : c ∉ t := by
  intro hm
  rw [h.2 c hm] at hc
  cases hc

theorem IsSolid.isToken {t : Text} (h : IsSolid t) : Document.IsToken t where
  ne_nil := h.1
  trim_eq := trim_eq_self h.2
  notMem_newline := h.notMem isBlank_newline

theorem normalizeNewlines_eq_self {t : Text} (h : '\r' ∉ t) : normalizeNewlines t = t := by
  induction t with
  | nil => rfl
  | cons c t ih =>
    simp only [List.mem_cons, not_or] at h
    rw [normalizeNewlines, ih h.2]
    · rintro _ rfl
      exact absurd rfl h.1
    · rintro rfl
      exact absurd rfl h.1

theorem fromUTF8?_toUTF8 (s : String) : String.fromUTF8? s.toUTF8 = some s :=
  dif_pos s.isValidUTF8

end Text

/-! ## What loading sees -/

/-- The values of each key come back as they are. -/
def Entries.IsSteady (e : Entries) : Prop :=
  e.All (fun _ vs => ∀ v ∈ vs, v.asRead = v) fun _ _ => True

namespace Session

variable {e : Entries}

/-- A key finds the same again, unless it is stored with a namespace or with an empty list. -/
theorem find?_asRead_cases (h : e.IsSteady) (key : Text) :
    e.asRead.find? key = e.find? key ∨
      (∃ name inner, e.find? key = some (.space name inner) ∧
        e.asRead.find? key = some (.space (some key) inner.asRead)) ∨
      e.find? key = some (.values []) ∧ e.asRead.find? key = some (.values [.none]) := by
  rw [Entries.find?_asRead]
  cases hf : e.find? key with
  | none => exact .inl rfl
  | some entry =>
    cases entry with
    | space name inner => exact .inr (.inl ⟨name, inner, rfl, rfl⟩)
    | values vs =>
      cases vs with
      | nil => exact .inr (.inr ⟨rfl, rfl⟩)
      | cons v vs =>
        have hv : (v :: vs).map Scalar.asRead = v :: vs :=
          Document.map_asRead_eq_self_iff.mpr (Entries.All.of_find? h hf)
        exact .inl (congrArg (fun vs => some (Entry.values vs)) hv)

theorem first?_asRead (h : e.IsSteady) (key : Text) : e.asRead.first? key = e.first? key := by
  rw [Entries.first?, Entries.first?]
  rcases find?_asRead_cases h key with he | ⟨name, inner, hf, he⟩ | ⟨hf, he⟩
  · rw [he]
  · rw [hf, he]
  · rw [hf, he]

theorem settingAt_asRead (h : e.IsSteady) (key : Text) (default : Nat) :
    settingAt e.asRead key default = settingAt e key default := by
  rw [settingAt, first?_asRead h, settingAt]

theorem textsAt_asRead (h : e.IsSteady) (key : Text) : textsAt e.asRead key = textsAt e key := by
  rw [textsAt, textsAt]
  rcases find?_asRead_cases h key with he | ⟨name, inner, hf, he⟩ | ⟨hf, he⟩
  · rw [he]
  · rw [hf, he]
  · rw [hf, he]
    rfl

theorem alternativesIn_asRead (h : e.IsSteady) : alternativesIn e.asRead = alternativesIn e := by
  simp only [alternativesIn, Entries.keys_asRead, textsAt_asRead h]

theorem spaceAt_asRead (key : Text) :
    spaceAt e.asRead key = (spaceAt e key).map Entries.asRead := by
  rw [spaceAt, spaceAt, Entries.find?_asRead]
  cases e.find? key with
  | none => rfl
  | some entry => cases entry <;> rfl

theorem isSteady_of_spaceAt (h : e.IsSteady) {key : Text} {inner : Entries}
    (hi : spaceAt e key = .ok inner) : inner.IsSteady := by
  rw [spaceAt] at hi
  split at hi
  · cases hi
    trivial
  · next hf =>
    cases hi
    exact (Entries.All.of_find? h hf).2
  · cases hi

/-- **Loading does not see what writing and reading change** in a document of steady values: the
names of namespaces, and empty lists. -/
theorem ofDocument_asRead (h : e.IsSteady) (name name' : Option Text) (log : Value) :
    ofDocument ⟨name, e.asRead⟩ log = ofDocument ⟨name', e⟩ log := by
  simp only [ofDocument, Entries.find?_asRead, spaceAt_asRead]
  cases hf : e.find? grammarKey with
  | none => rfl
  | some entry =>
    cases entry with
    | values vs => rfl
    | space _ definition =>
      -- Every namespace that is looked into is steady again.
      have hdef : definition.IsSteady := (Entries.All.of_find? h hf).2
      simp only [Option.map_some, Entry.asRead, bind, Except.bind, spaceAt_asRead,
        textsAt_asRead hdef, first?_asRead hdef]
      cases hp : spaceAt definition productionsKey with
      | error f => rfl
      | ok productions =>
        have hprod := isSteady_of_spaceAt hdef hp
        simp only [Except.map, alternativesIn_asRead hprod]
        cases ha : spaceAt e analysisKey with
        | error f => rfl
        | ok analysis =>
          have hana := isSteady_of_spaceAt h ha
          simp only [settingAt_asRead hana]

/-! ## A session from its document -/

theorem textsAt_of_find? {key : Text} {ts : List Text}
    (h : e.find? key = some (.values (ts.map .text))) :
    textsAt e key = .ok (ts.map .text) := by
  have hlisted : (ts.map Scalar.text).filterMap listed? = ts.map .text := by
    rw [List.filterMap_map]
    exact List.filterMap_eq_map_iff_forall_eq_some.mpr fun _ _ => rfl
  rw [textsAt, h]
  simp only [hlisted, List.mapM_map]
  exact mapM_eq_ok fun t _ => by simp only [Function.comp, Value.display_text]; rfl

variable {rules : List (Char × List Form)}

@[simp] theorem keys_productionEntries :
    (productionEntries rules).keys = rules.map fun r => [r.1] := by
  induction rules with
  | nil => rfl
  | cons r rules ih => simp [productionEntries, ih]

/-- The bodies of a left-hand side are found under it. -/
theorem find?_productionEntries (hn : (rules.map Prod.fst).Nodup) {r : Char × List Form}
    (hr : r ∈ rules) :
    (productionEntries rules).find? [r.1] = some (.values ((r.2.map Form.text).map .text)) := by
  induction rules with
  | nil => cases hr
  | cons p rules ih =>
    obtain ⟨hp, hn⟩ := List.nodup_cons.mp hn
    have hcons : productionEntries (p :: rules) =
        .cons [p.1] (.values ((p.2.map Form.text).map .text)) (productionEntries rules) := rfl
    rw [hcons, Entries.find?_cons]
    rcases List.mem_cons.mp hr with rfl | hr
    · exact if_pos rfl
    · have hne : [r.1] ≠ [p.1] := by
        intro he
        exact hp (List.head_eq_of_cons_eq he ▸ List.mem_map_of_mem hr)
      rw [if_neg hne]
      exact ih hn hr

theorem alternativesIn_productionEntries (hn : (rules.map Prod.fst).Nodup) :
    alternativesIn (productionEntries rules) = .ok (Grammar.ruleValues rules) := by
  rw [alternativesIn, keys_productionEntries, List.mapM_map]
  refine mapM_eq_ok fun r hr => ?_
  have ht := textsAt_of_find? (find?_productionEntries hn hr)
  simp only [Function.comp, ht, Grammar.bodyValues, List.map_map]
  rfl

theorem textsAt_symbols {key : Text} {cs : List Char}
    (h : e.find? key = some (.values ((cs.map fun c => [c]).map .text))) :
    textsAt e key = .ok (cs.map fun c => .text [c]) := by
  rw [textsAt_of_find? h, List.map_map]
  rfl

theorem isShort_treeDepth {n : Nat} (h : n ≤ maxTreeDepth) : Numeral.Integer.IsShort n :=
  Numeral.Integer.isShort_of_lt (k := 2) (Nat.lt_of_le_of_lt h (by decide)) (by decide)

/-- The arguments that a session is loaded with are accepted. -/
theorem build_saved {g : Grammar} {bound treeDepth : Nat} (hb : Numeral.Integer.IsShort bound)
    (ht : minTreeDepth ≤ treeDepth ∧ treeDepth ≤ maxTreeDepth) {log : Value} {j : Journal}
    (hj : Analysis.readJournal log = some j) :
    build (.grammar ⟨g, none⟩) (.int bound) (.int treeDepth) log =
      .ok ⟨⟨g, none⟩, bound, treeDepth, j, none⟩ := by
  have hnonneg : ¬ (bound : Int) < 0 := by omega
  have hrange : (minTreeDepth : Int) ≤ treeDepth ∧ (treeDepth : Int) ≤ maxTreeDepth :=
    ⟨Int.ofNat_le.mpr ht.1, Int.ofNat_le.mpr ht.2⟩
  simp [build, readGrammar, Analysis.readArguments, Analysis.readBook, hj, Analysis.readBound,
    Analysis.integer?, hb, hnonneg, readTreeDepth, isShort_treeDepth ht.2, hrange]

/-- **A session is made again from its document**, but for the fault of its rule book and its latest
result; its log is the one that it is given. -/
theorem ofDocument_toDocument {s : Session} (hg : s.grammar.WellFormed)
    (hb : Numeral.Integer.IsShort s.bound)
    (ht : minTreeDepth ≤ s.treeDepth ∧ s.treeDepth ≤ maxTreeDepth) {log : Value} {j : Journal}
    (hj : Analysis.readJournal log = some j) :
    ofDocument s.toDocument log = .ok ⟨⟨s.grammar, none⟩, s.bound, s.treeDepth, j, none⟩ := by
  have hdef : s.toDocument.entries.find? grammarKey =
      some (.space (some grammarKey) (grammarEntries s.grammar)) := rfl
  have hana : spaceAt s.toDocument.entries analysisKey =
      .ok (settingEntries s.bound s.treeDepth) := rfl
  have hprod : spaceAt (grammarEntries s.grammar) productionsKey =
      .ok (productionEntries s.grammar.rules) := rfl
  have hterm : textsAt (grammarEntries s.grammar) terminalsKey =
      .ok (s.grammar.terminals.map fun c => .text [c]) := textsAt_symbols rfl
  have hnon : textsAt (grammarEntries s.grammar) nonterminalsKey =
      .ok (s.grammar.nonterminals.map fun c => .text [c]) := textsAt_symbols rfl
  have hstart : ((grammarEntries s.grammar).first? startKey).elim .absent Value.ofScalar =
      Grammar.startValue s.grammar.start := by
    rw [Entries.first?, show (grammarEntries s.grammar).find? startKey = some (.values _) from rfl]
    cases s.grammar.start <;> rfl
  have hbound : settingAt (settingEntries s.bound s.treeDepth) maxDepthKey Analysis.defaultBound =
      .ok (.int s.bound) := rfl
  have hdepth : settingAt (settingEntries s.bound s.treeDepth) treeDepthKey defaultTreeDepth =
      .ok (.int s.treeDepth) := rfl
  have hparts := Grammar.build_parts hg
  rw [Grammar.symbolValues, Grammar.symbolValues] at hparts
  simp only [ofDocument, hdef, hana, hprod, hterm, hnon, hstart, hbound, hdepth,
    alternativesIn_productionEntries hg.keys_nodup, hparts, bind, Except.bind]
  exact build_saved hb ht hj

/-! ## What a session's document holds -/

theorem isSolid_singleton {c : Char} (h : Symbol.isUsable c = true) : IsSolid [c] :=
  ⟨List.cons_ne_nil _ _, by simpa using Symbol.isBlank_of_isUsable h⟩

/-- A value that passes through the text of a document unchanged. -/
def IsFit (v : Scalar) : Prop := v.IsPlain ∧ ∀ t, v = .text t → IsSolid t

theorem isFit_text {t : Text} (h : IsSolid t) : IsFit (.text t) :=
  ⟨trivial, fun _ he => Scalar.text.inj he ▸ h⟩

theorem isFit_int {n : Int} (h : Numeral.Integer.IsShort n) : IsFit (.int n) :=
  ⟨h, fun _ he => nomatch he⟩

theorem isFit_of_mem_singleton {w : Scalar} (h : IsFit w) : ∀ v ∈ [w], IsFit v := by
  simpa using h

theorem all_productionEntries {p : Text → List Scalar → Prop} {q : Text → Option Text → Prop}
    (h : ∀ r ∈ rules, p [r.1] (r.2.map fun b => .text b.text)) :
    (productionEntries rules).All p q := by
  induction rules with
  | nil => trivial
  | cons r rules ih =>
    refine ⟨?_, ih fun r' hr => h r' (List.mem_cons_of_mem _ hr)⟩
    show p [r.1] ((r.2.map Form.text).map .text)
    rw [List.map_map]
    exact h r List.mem_cons_self

theorem distinct_productionEntries (h : (rules.map Prod.fst).Nodup) :
    (productionEntries rules).Distinct := by
  induction rules with
  | nil => trivial
  | cons r rules ih =>
    obtain ⟨hr, h⟩ := List.nodup_cons.mp h
    refine ⟨?_, ih h⟩
    rw [keys_productionEntries]
    intro hm
    obtain ⟨r', hr', he⟩ := List.mem_map.mp hm
    exact hr (List.head_eq_of_cons_eq he ▸ List.mem_map_of_mem hr')

variable {s : Session}

theorem distinct_toDocument (hg : s.grammar.WellFormed) : s.toDocument.entries.Distinct := by
  have hdef : (grammarEntries s.grammar).Distinct :=
    ⟨(by decide : terminalsKey ∉ [nonterminalsKey, startKey, productionsKey]),
      (by decide : nonterminalsKey ∉ [startKey, productionsKey]),
      (by decide : startKey ∉ [productionsKey]), List.not_mem_nil,
      distinct_productionEntries hg.keys_nodup, trivial⟩
  have hana : (settingEntries s.bound s.treeDepth).Distinct :=
    ⟨(by decide : maxDepthKey ∉ [treeDepthKey]), List.not_mem_nil, trivial⟩
  exact ⟨(by decide : grammarKey ∉ [analysisKey]), hdef, List.not_mem_nil, hana, trivial⟩

theorem isFit_of_mem_symbols {cs : List Char} (h : ∀ c ∈ cs, Symbol.isUsable c = true) :
    ∀ v ∈ (cs.map fun c => [c]).map Scalar.text, IsFit v := by
  intro v hv
  obtain ⟨t, ht, rfl⟩ := List.mem_map.mp hv
  obtain ⟨c, hc, rfl⟩ := List.mem_map.mp ht
  exact isFit_text (isSolid_singleton (h c hc))

theorem fit_productionEntries {g : Grammar} (hg : g.WellFormed) :
    (productionEntries g.rules).All (fun key vs => IsSolid key ∧ ∀ v ∈ vs, IsFit v)
      fun key _ => IsSolid key := by
  refine all_productionEntries fun r hr => ⟨?_, fun v hv => ?_⟩
  · exact isSolid_singleton
      (hg.usable_of_mem_nonterminals (hg.keys_mem r.1 (List.mem_map_of_mem hr)))
  · obtain ⟨b, hb, rfl⟩ := List.mem_map.mp hv
    refine isFit_text ⟨?_, Grammar.not_blank_of_mem_formText hg.usable (hg.declared r hr b hb)⟩
    cases b <;> simp [Form.text]

theorem fit_grammarEntries {g : Grammar} (hg : g.WellFormed) :
    (grammarEntries g).All (fun key vs => IsSolid key ∧ ∀ v ∈ vs, IsFit v)
      fun key _ => IsSolid key := by
  refine ⟨⟨by decide, isFit_of_mem_symbols fun c => hg.usable_of_mem_terminals⟩,
    ⟨by decide, isFit_of_mem_symbols fun c => hg.usable_of_mem_nonterminals⟩,
    ⟨by decide, isFit_of_mem_singleton ?_⟩, by decide, fit_productionEntries hg, trivial⟩
  cases hs : g.start with
  | none => exact ⟨trivial, fun _ he => nomatch he⟩
  | some c =>
    exact isFit_text (isSolid_singleton (hg.usable_of_mem_nonterminals (hg.start_mem c hs)))

/-- Every key is solid, and every value fit to be written. -/
theorem fit_toDocument (hg : s.grammar.WellFormed) (hb : Numeral.Integer.IsShort s.bound)
    (ht : s.treeDepth ≤ maxTreeDepth) :
    s.toDocument.entries.All (fun key vs => IsSolid key ∧ ∀ v ∈ vs, IsFit v)
      fun key _ => IsSolid key :=
  ⟨by decide, fit_grammarEntries hg, by decide,
    ⟨⟨by decide, isFit_of_mem_singleton (isFit_int hb)⟩,
      ⟨by decide, isFit_of_mem_singleton (isFit_int (isShort_treeDepth ht))⟩, trivial⟩, trivial⟩

/-- The line of a left-hand side but `=` begins with it. -/
theorem valueKeys_toDocument (hg : s.grammar.WellFormed)
    (h : '=' ∉ s.grammar.rules.map Prod.fst) :
    s.toDocument.entries.All (fun key _ => Document.IsValueKey key) fun _ _ => True := by
  have hrules : (productionEntries s.grammar.rules).All
      (fun key _ => Document.IsValueKey key) fun _ _ => True := by
    refine all_productionEntries fun r hr => ?_
    have hr : r.1 ∈ s.grammar.rules.map Prod.fst := List.mem_map_of_mem hr
    have hsolid := isSolid_singleton (hg.usable_of_mem_nonterminals (hg.keys_mem r.1 hr))
    refine ⟨hsolid.isToken, ?_, by simp [startsWith, List.isPrefixOf],
      by simp [startsWith, List.isPrefixOf]⟩
    rw [List.mem_singleton]
    rintro he
    exact h (he ▸ hr)
  exact ⟨trivial,
    ⟨(by decide : Document.IsValueKey terminalsKey),
      (by decide : Document.IsValueKey nonterminalsKey),
      (by decide : Document.IsValueKey startKey), trivial, hrules, trivial⟩, trivial,
    ⟨(by decide : Document.IsValueKey maxDepthKey),
      (by decide : Document.IsValueKey treeDepthKey), trivial⟩, trivial⟩

/-! ## Loading what was saved -/

section

variable (hg : s.grammar.WellFormed) (hb : Numeral.Integer.IsShort s.bound)
  (ht : s.treeDepth ≤ maxTreeDepth)

include hg hb ht

/-- A session's document can be written. -/
theorem encode_toDocument : s.toDocument.encode = .ok s.saved :=
  if_pos (Entries.isWritable_iff.mpr ((fit_toDocument hg hb ht).imp
    (fun _ _ h n hn => (h.2 (.int n) hn).1) fun _ _ _ => trivial))

theorem isSteady_toDocument : s.toDocument.entries.IsSteady := by
  refine (fit_toDocument hg hb ht).imp (fun key vs h v hv => ?_) fun _ _ _ => trivial
  rw [Document.asRead_eq_self_iff]
  intro t he
  have hsolid := (h.2 v hv).2 t he
  exact ⟨hsolid.1, trim_eq_self hsolid.2⟩

/-- The only blanks of the text, but the line feeds, are tabs. -/
theorem notMem_lines_toDocument {c : Char} (hc : isBlank c = true) (hne : c ≠ '\t') :
    ∀ line ∈ Document.lines 0 s.toDocument.entries, c ∉ line := by
  have hall : s.toDocument.entries.All (fun key vs => c ∉ key ∧ (∀ v ∈ vs, v.IsPlain) ∧
      ∀ t, Scalar.text t ∈ vs → c ∉ t) fun key _ => c ∉ key := by
    refine (fit_toDocument hg hb ht).imp (fun key vs h => ⟨h.1.notMem hc, ?_, ?_⟩)
      fun key name h => h.notMem hc
    · exact fun v hv => (h.2 v hv).1
    · exact fun t hv => ((h.2 _ hv).2 t rfl).notMem hc
  exact fun line hl => Document.notMem_of_mem_lines hc hne hall hl

/-- The bytes of a saved session are read as its text. -/
theorem ofFile_saved (log : Value) : ofFile (some s.saved.str.toUTF8) log = ofText s.saved log := by
  have hreturn : '\r' ∉ s.saved := by
    intro hm
    rcases mem_of_mem_intercalate hm with hm | ⟨line, hl, hm⟩
    · exact absurd (List.mem_singleton.mp hm) (by decide)
    · exact notMem_lines_toDocument hg hb ht (by decide) (by decide) line hl hm
  have htext : s.saved.str.toList = s.saved := String.toList_ofList
  simp only [ofFile, fromUTF8?_toUTF8, htext, normalizeNewlines_eq_self hreturn]

theorem ofText_saved (h : '=' ∉ s.grammar.rules.map Prod.fst) (log : Value) :
    ofText s.saved log = ofDocument s.toDocument log := by
  have hlegible : s.toDocument.entries.IsLegible := by
    refine (Entries.all_and_iff.mpr ⟨fit_toDocument hg hb ht, valueKeys_toDocument hg h⟩).imp
      (fun key vs hk => ⟨hk.2, fun v hv => (hk.1.2 v hv).1, fun t hv => ?_⟩)
      fun key name hk => hk.1.isToken
    exact ((hk.1.2 _ hv).2 t rfl).notMem isBlank_newline
  have hread : Document.ofText s.toDocument.text none =
      .ok ⟨none, s.toDocument.entries.asRead⟩ := by
    refine Document.ofText_eq_ok_iff.mpr ⟨?_, rfl⟩
    exact Document.readEntries_text (distinct_toDocument hg) hlegible
  rw [ofText, saved, hread]
  exact ofDocument_asRead (isSteady_toDocument hg hb ht) none s.toDocument.name log

end

/-- A rule is written on a line of its own. -/
theorem mem_lines_toDocument {r : Char × List Form} (hr : r ∈ s.grammar.rules) :
    ∃ values, '\t' :: '\t' :: r.1 :: '=' :: values ∈ Document.lines 0 s.toDocument.entries := by
  have hrule : ∀ rules : List (Char × List Form), r ∈ rules →
      ∃ values, '\t' :: '\t' :: r.1 :: '=' :: values ∈ Document.lines 2 (productionEntries rules) := by
    intro rules hr
    induction rules with
    | nil => cases hr
    | cons p rules ih =>
      rcases List.mem_cons.mp hr with rfl | hr
      · exact ⟨_, List.mem_cons_self⟩
      · obtain ⟨values, hv⟩ := ih hr
        exact ⟨values, List.mem_cons_of_mem _ hv⟩
  obtain ⟨values, hv⟩ := hrule s.grammar.rules hr
  refine ⟨values, ?_⟩
  simp only [toDocument, grammarEntries, Document.lines, List.mem_cons, List.mem_append]
  exact .inr (.inl (.inr (.inr (.inr (.inr (.inl hv))))))

/-- A line that begins with `==` has no key, wherever it stands. -/
theorem readLine_equals (c : Document.Cursor) (values : Text) :
    c.readLine ('=' :: '=' :: values) = .error .emptyKey := rfl

theorem ofText_saved_equals (hg : s.grammar.WellFormed) (hb : Numeral.Integer.IsShort s.bound)
    (ht : s.treeDepth ≤ maxTreeDepth) (h : '=' ∈ s.grammar.rules.map Prod.fst) (log : Value) :
    ∃ f, ofText s.saved log = .error (.documentText f) := by
  obtain ⟨r, hr, he⟩ := List.mem_map.mp h
  obtain ⟨values, hv⟩ := mem_lines_toDocument hr
  rw [he] at hv
  have htrim : trim ('\t' :: '\t' :: '=' :: '=' :: values) = '=' :: '=' :: trimEnd values :=
    Document.trim_pairLine (isSolid_singleton (c := '=') (by decide)).isToken 2 values
  -- The line of the rule is among those that are read, and no cursor can read it.
  have hline : '=' :: '=' :: trimEnd values ∈
      Document.content (Document.lines 0 s.toDocument.entries) := by
    rw [← htrim]
    refine List.mem_filter.mpr ⟨List.mem_map_of_mem hv, ?_⟩
    rw [htrim]
    rfl
  have hnone : Document.Cursor.after? {} (Document.content (splitOn '\n' s.toDocument.text)) = none := by
    rw [Document.content_splitOn_text
      (notMem_lines_toDocument hg hb ht isBlank_newline (by decide))]
    exact Document.Cursor.after?_eq_none (fun c => ⟨_, readLine_equals c _⟩) hline {}
  cases hread : Document.readEntries s.toDocument.text with
  | ok e =>
    rw [Document.readEntries_eq_ok_iff, hnone] at hread
    cases hread
  | error f => exact ⟨f, by simp only [ofText, saved, Document.ofText, hread]⟩

/-- **What is saved is loaded again**, with the same grammar and the same settings, if `=` is not the
left-hand side of a rule; if it is, the text cannot be read. The log is the one that the session is
loaded with, and there is no latest result. -/
theorem load_saved (hg : s.grammar.Reachable) (hb : Numeral.Integer.IsShort s.bound)
    (ht : minTreeDepth ≤ s.treeDepth ∧ s.treeDepth ≤ maxTreeDepth) {log : Value} {j : Journal}
    (hj : Analysis.readJournal log = some j) :
    ofFile (some s.saved.str.toUTF8) log = ofText s.saved log ∧
      ('=' ∉ s.grammar.rules.map Prod.fst →
        ofText s.saved log = .ok ⟨⟨s.grammar, none⟩, s.bound, s.treeDepth, j, none⟩) ∧
      ('=' ∈ s.grammar.rules.map Prod.fst →
        ∃ f, ofText s.saved log = .error (.documentText f)) := by
  have hw := hg.wellFormed
  refine ⟨ofFile_saved hw hb ht.2 log, fun h => ?_, fun h => ?_⟩
  · rw [ofText_saved hw hb ht.2 h, ofDocument_toDocument hw hb ht hj]
  · exact ofText_saved_equals hw hb ht.2 h log

/-- A session with a grammar whose symbols are marks of documents. -/
def marks : Session where
  book := ⟨Grammar.afterEdits {} [.terminal (.text ['%']), .terminal (.text [';']),
    .nonterminal (.text ['&']), .nonterminal (.text ['>']), .nonterminal (.text ['=']),
    .start (.text ['&']), .production (.text ['>']) (.text ['=', '%', ';']),
    .production (.text ['>']) (.text ['ε']), .production (.text ['&']) (.text ['>', '&'])], none⟩
  bound := 12
  treeDepth := 4
  journal := none

theorem load_saved_marks :
    marks.saved = (">>grammar\n\tterminals=%%;%;\n\tnonterminals=%&;>;=\n\tstart=%&\n" ++
        "\t>>productions\n\t\t>==%%%;;ε\n\t\t&=>%&\n\t<<\n<<\n" ++
        ">>analysis\n\tmax_depth=12&I\n\ttree_depth=4&I\n<<").toList ∧
      ofFile (some marks.saved.str.toUTF8) .absent = .ok marks := by
  have hlog : Analysis.readJournal .absent = some none := rfl
  have hload := load_saved (s := marks) (Grammar.Reachable.empty.afterEdits _)
    (by decide +kernel) (by decide) hlog
  exact ⟨by decide +kernel, hload.1.trans (hload.2.1 (by decide))⟩

/-- A session with a rule for `=`. -/
def equals : Session where
  book := ⟨Grammar.afterEdits {} [.terminal (.text ['a']), .nonterminal (.text ['=']),
    .start (.text ['=']), .production (.text ['=']) (.text ['a'])], none⟩
  bound := Analysis.defaultBound
  treeDepth := defaultTreeDepth
  journal := none

theorem load_saved_equals :
    equals.grammar.Reachable ∧ ofText equals.saved .absent =
      .error (.documentText (.atLine 6 "==a".toList .emptyKey)) :=
  ⟨Grammar.Reachable.empty.afterEdits _, rfl⟩

end Session

end FormalGrammar
