import FormalGrammar.Document.Build
import FormalGrammar.Proofs.Entries

/-!
# Documents that can be made

A document is made from a mapping and changed by setting keys, its own or those of a namespace
inside it. The values that are stored may bring documents along, which were made in the same way.
Setting a key never gives a level two equal keys, and that is all there is to it: the documents
that can be made are those whose keys are distinct at every level (`Document.made_iff`).
-/

namespace FormalGrammar

/-! ## Making -/

mutual

/-- The documents that become namespaces when a value is stored. -/
def Value.documents : Value → List Document
  | .document d => [d]
  | .map pairs => Value.documentsIn pairs
  | _ => []

def Value.documentsIn : List (Value × Value) → List Document
  | [] => []
  | (_, v) :: rest => v.documents ++ Value.documentsIn rest

end

namespace Document

/-- Set a key of the namespace at the end of a path of keys. -/
def setWithin (d : Document) (path : List Text) (key value : Value) : Except Fault Document :=
  match within (fun d => match d.set key value with
    | .error f => .error f
    | .ok d => .ok ((), d)) path d with
  | .error f => .error f
  | .ok (_, d) => .ok d

/-- The documents that come about by making documents from values and setting keys. -/
inductive Made : Document → Prop
  | build {name data : Value} {d : Document} (hv : ∀ d' ∈ data.documents, Made d')
      (h : build name data = .ok d) : Made d
  | set {d d' : Document} (hd : Made d) {path : List Text} {key value : Value}
      (hv : ∀ d' ∈ value.documents, Made d') (h : d.setWithin path key value = .ok d') : Made d'

/-! ## Storing keeps keys distinct -/

theorem distinct_of_valuesEntry {v : Value} {entry : Entry} (h : valuesEntry v = .ok entry) :
    entry.Distinct := by
  unfold valuesEntry at h
  split at h
  · cases h
    trivial
  · split at h
    · cases h
    · split at h
      · cases h
        trivial
      · split at h
        · cases h
        · cases h

mutual

theorem distinct_of_entryFor {key : Text} {v : Value} {entry : Entry}
    (hv : ∀ d ∈ v.documents, d.entries.Distinct) (h : entryFor key v = .ok entry) :
    entry.Distinct := by
  cases v with
  | document d =>
    rw [entryFor] at h
    cases h
    exact hv d (by simp [Value.documents])
  | map pairs =>
    rw [entryFor] at h
    split at h
    · cases h
    · next e he =>
      cases h
      rw [Value.documents] at hv
      exact distinct_of_putPairs (e := .nil) hv trivial he
  | _ =>
    rw [entryFor] at h
    · exact distinct_of_valuesEntry h
    all_goals simp

theorem distinct_of_putPairs {pairs : List (Value × Value)} {e e' : Entries}
    (hp : ∀ d ∈ Value.documentsIn pairs, d.entries.Distinct) (he : e.Distinct)
    (h : putPairs e pairs = .ok e') : e'.Distinct := by
  match pairs with
  | [] =>
    cases h
    exact he
  | (k, v) :: rest =>
    rw [Value.documentsIn] at hp
    rw [putPairs] at h
    split at h
    · cases h
    · split at h
      · cases h
      · next entry hentry =>
        have hd := distinct_of_entryFor (v := v) (fun d hd => hp d (List.mem_append_left _ hd)) hentry
        exact distinct_of_putPairs (fun d hd => hp d (List.mem_append_right _ hd)) (he.put hd) h

end

theorem distinct_of_build {name data : Value} {d : Document}
    (hv : ∀ d' ∈ data.documents, d'.entries.Distinct) (h : build name data = .ok d) :
    d.entries.Distinct := by
  unfold build at h
  split at h
  · next pairs =>
    rw [Value.documents] at hv
    split at h
    · cases h
    · split at h
      · cases h
      · next e he =>
        cases h
        exact distinct_of_putPairs (e := .nil) hv trivial he
  · cases h

/-- What keeps the keys of a document distinct keeps them distinct when it is done to a namespace
inside one. -/
theorem distinct_of_within {α : Type} {f : Document → Except Fault (α × Document)}
    (hf : ∀ d a d', d.entries.Distinct → f d = .ok (a, d') → d'.entries.Distinct)
    {path : List Text} {d d' : Document} {a : α} (hd : d.entries.Distinct)
    (h : within f path d = .ok (a, d')) : d'.entries.Distinct := by
  induction path generalizing d d' a with
  | nil => exact hf d a d' hd h
  | cons key path ih =>
    rw [within] at h
    split at h
    · cases h
    · cases h
    · next name inner he =>
      have hi : inner.Distinct := hd.of_find? he
      split at h
      · cases h
      · next b changed hc =>
        cases h
        exact hd.put (ih (d := ⟨name, inner⟩) hi hc)

theorem distinct_of_set {d d' : Document} {key value : Value}
    (hv : ∀ d ∈ value.documents, d.entries.Distinct) (hd : d.entries.Distinct)
    (h : d.set key value = .ok d') : d'.entries.Distinct := by
  unfold set at h
  cases hk : requireText key with
  | error f => simp [hk, bind, Except.bind] at h
  | ok k =>
    cases he : entryFor k value with
    | error f => simp [hk, he, bind, Except.bind] at h
    | ok entry =>
      simp only [hk, he, bind, Except.bind, pure, Except.pure, Except.ok.injEq] at h
      rw [← h]
      exact hd.put (distinct_of_entryFor hv he)

theorem Made.distinct {d : Document} (h : d.Made) : d.entries.Distinct := by
  induction h with
  | build _ hb ih => exact distinct_of_build ih hb
  | set _ _ hs ihd ihv =>
    unfold setWithin at hs
    split at hs
    · cases hs
    · next a d' hw =>
      cases hs
      refine distinct_of_within (fun d a d' hd hf => ?_) ihd hw
      split at hf
      · cases hf
      · next hset =>
        cases hf
        exact distinct_of_set ihv hd hset

/-! ## Every document with distinct keys can be made -/

/-- The value that an entry is stored from. -/
def pairsOf : Entries → List (Value × Value)
  | .nil => []
  | .values key vs rest => (.text key, .tuple (vs.map Value.ofScalar)) :: pairsOf rest
  | .space key name inner rest => (.text key, .document ⟨name, inner⟩) :: pairsOf rest

theorem scalar?_ofScalar (v : Scalar) : (Value.ofScalar v).scalar? = some v := by
  cases v <;> rfl

theorem mapM_scalar?_ofScalar (vs : List Scalar) :
    (vs.map Value.ofScalar).mapM Value.scalar? = some vs := by
  induction vs with
  | nil => rfl
  | cons v vs ih => simp [scalar?_ofScalar, ih]

theorem entryFor_tuple (key : Text) (vs : List Scalar) :
    entryFor key (.tuple (vs.map Value.ofScalar)) = .ok (.values vs) := by
  rw [entryFor]
  · rw [valuesEntry]
    simp only [Value.scalar?, Value.members, mapM_scalar?_ofScalar]
  all_goals simp

theorem entryFor_document (key : Text) (d : Document) :
    entryFor key (.document d) = .ok (.space d.name d.entries) := by
  rw [entryFor]

/-- A value is stored under a text before the values that come after it. -/
theorem putPairs_cons {e : Entries} {key : Text} {v : Value} {entry : Entry}
    {rest : List (Value × Value)} (h : entryFor key v = .ok entry) :
    putPairs e ((.text key, v) :: rest) = putPairs (e.put key entry) rest := by
  rw [putPairs]
  simp only [Value.display_text, h]

theorem putPairs_pairsOf {e f : Entries} (he : e.Distinct)
    (hf : ∀ key ∈ e.keys, key ∉ f.keys) : putPairs f (pairsOf e) = .ok (f.append e) := by
  induction e generalizing f with
  | nil =>
    rw [Entries.append_nil]
    rfl
  | values key vs rest ih =>
    have hrest : ∀ k ∈ rest.keys, k ∉ f.keys := fun k hk => hf k (List.mem_cons_of_mem _ hk)
    have hput := Entries.put_of_notMem (hf key List.mem_cons_self) (.values vs)
    rw [pairsOf, putPairs_cons (entryFor_tuple key vs), hput]
    rw [ih he.2 (Entries.notMem_keys_append_cons he.1 hrest _), Entries.append_assoc,
      Entries.cons_append]
    rfl
  | space key name inner rest _ ih =>
    have hrest : ∀ k ∈ rest.keys, k ∉ f.keys := fun k hk => hf k (List.mem_cons_of_mem _ hk)
    have hput := Entries.put_of_notMem (hf key List.mem_cons_self) (.space name inner)
    rw [pairsOf, putPairs_cons (entryFor_document key _), hput]
    rw [ih he.2.2 (Entries.notMem_keys_append_cons he.1 hrest _), Entries.append_assoc,
      Entries.cons_append]
    rfl

theorem made_of_parts {e : Entries} (he : e.Distinct)
    (hp : ∀ d ∈ Value.documentsIn (pairsOf e), d.Made) (name : Option Text) : Made ⟨name, e⟩ := by
  have hput : putPairs .nil (pairsOf e) = .ok e := putPairs_pairsOf he fun _ _ => List.not_mem_nil
  have hv : ∀ d ∈ (Value.map (pairsOf e)).documents, d.Made := by
    rw [Value.documents]
    exact hp
  cases name with
  | none =>
    have hbuild : build .absent (.map (pairsOf e)) = .ok ⟨none, e⟩ := by
      simp only [build, nameOf, hput]
    exact .build hv hbuild
  | some n =>
    have hbuild : build (.text n) (.map (pairsOf e)) = .ok ⟨some n, e⟩ := by
      simp only [build, nameOf, Value.display_text, Except.map, hput]
    exact .build hv hbuild

/-- The namespaces inside are made first, each with the name that it is to have. -/
theorem made_of_mem_documentsIn {e : Entries} (he : e.Distinct) :
    ∀ d ∈ Value.documentsIn (pairsOf e), d.Made := by
  induction e with
  | nil => simp [pairsOf, Value.documentsIn]
  | values key vs rest ih =>
    simp only [pairsOf, Value.documentsIn, Value.documents, List.nil_append]
    exact ih he.2
  | space key name inner rest ihi ih =>
    simp only [pairsOf, Value.documentsIn, Value.documents, List.singleton_append, List.mem_cons]
    rintro d (rfl | hd)
    · exact made_of_parts he.2.1 (ihi he.2.1) name
    · exact ih he.2.2 d hd

/-- **The documents that can be made are those with distinct keys at every level.** -/
theorem made_iff {d : Document} : d.Made ↔ d.entries.Distinct :=
  ⟨Made.distinct, fun h => made_of_parts h (made_of_mem_documentsIn h) d.name⟩

end Document

end FormalGrammar
