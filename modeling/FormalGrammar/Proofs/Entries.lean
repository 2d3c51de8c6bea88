import FormalGrammar.Proofs.ValueTexts

/-!
# Entries at every level

Entries nest, so what is said of them is said at every level: a property of each key with what it
is stored with (`Entries.All`), and that the keys of a level differ (`Entries.Distinct`). Putting
an entry keeps both. Two more views serve reading and writing: `Entries.contents`, in which the
names of namespaces do not count, and `Entries.asRead`, what entries come back as.
-/

namespace FormalGrammar

/-! ## Keys -/

namespace Entries

@[simp] theorem keys_nil : nil.keys = [] := rfl

@[simp] theorem keys_values (key : Text) (vs : List Scalar) (rest : Entries) :
    (values key vs rest).keys = key :: rest.keys := rfl

@[simp] theorem keys_space (key : Text) (name : Option Text) (inner rest : Entries) :
    (space key name inner rest).keys = key :: rest.keys := rfl

@[simp] theorem keys_cons (key : Text) (entry : Entry) (rest : Entries) :
    (cons key entry rest).keys = key :: rest.keys := by
  cases entry <;> rfl

theorem mem_keys_put {key k : Text} {entry : Entry} {e : Entries} :
    k ∈ (e.put key entry).keys ↔ k = key ∨ k ∈ e.keys := by
  induction e with
  | nil => simp [put]
  | values k' vs rest ih | space k' name inner rest _ ih =>
    rw [put]
    split
    · next h => simp [h]
    · simp only [keys_values, keys_space, List.mem_cons, ih]
      exact or_left_comm

theorem keys_put (key : Text) (entry : Entry) (e : Entries) :
    (e.put key entry).keys = if key ∈ e.keys then e.keys else e.keys ++ [key] := by
  induction e with
  | nil => simp [put]
  | values k vs rest ih | space k name inner rest _ ih =>
    rw [put]
    by_cases hk : k = key
    · simp [hk]
    · have hk' : key ≠ k := fun h => hk h.symm
      simp only [if_neg hk, keys_values, keys_space, ih, List.mem_cons, hk', false_or]
      split <;> rfl

/-- One sequence of entries after another. -/
def append : Entries → Entries → Entries
  | nil, f => f
  | values key vs rest, f => values key vs (append rest f)
  | space key name inner rest, f => space key name inner (append rest f)

theorem append_nil (e : Entries) : e.append nil = e := by
  induction e with
  | nil => rfl
  | values key vs rest ih => rw [append, ih]
  | space key name inner rest _ ih => rw [append, ih]

theorem append_assoc (e f h : Entries) : (e.append f).append h = e.append (f.append h) := by
  induction e with
  | nil => rfl
  | values key vs rest ih => simp only [append, ih]
  | space key name inner rest _ ih => simp only [append, ih]

theorem cons_append (key : Text) (entry : Entry) (e f : Entries) :
    (cons key entry e).append f = cons key entry (e.append f) := by
  cases entry <;> rfl

@[simp] theorem keys_append (e f : Entries) : (e.append f).keys = e.keys ++ f.keys := by
  induction e with
  | nil => rfl
  | values key vs rest ih => simp [append, ih]
  | space key name inner rest _ ih => simp [append, ih]

/-- Keys that are new to some entries stay new when another key is put behind those. -/
theorem notMem_keys_append_cons {f rest : Entries} {key : Text} (hnew : key ∉ rest.keys)
    (hf : ∀ k ∈ rest.keys, k ∉ f.keys) (entry : Entry) :
    ∀ k ∈ rest.keys, k ∉ (f.append (cons key entry nil)).keys := by
  intro k hk
  have hne : k ≠ key := fun h => hnew (h ▸ hk)
  simp [hf k hk, hne]

/-- A new key goes to the end. -/
theorem put_of_notMem {key : Text} {e : Entries} (h : key ∉ e.keys) (entry : Entry) :
    e.put key entry = e.append (cons key entry nil) := by
  induction e with
  | nil => rfl
  | values k vs rest ih | space k name inner rest _ ih =>
    simp only [keys_values, keys_space, List.mem_cons, not_or] at h
    rw [put, if_neg fun he => h.1 he.symm, ih h.2, append]

/-! ## Properties of every entry -/

/-- Every key with values satisfies `p`, and every key with a namespace satisfies `q` together with
the name of the namespace, at every level. -/
def All (p : Text → List Scalar → Prop) (q : Text → Option Text → Prop) : Entries → Prop
  | nil => True
  | values key vs rest => p key vs ∧ rest.All p q
  | space key name inner rest => q key name ∧ inner.All p q ∧ rest.All p q

/-- The keys of each level are all different. -/
def Distinct : Entries → Prop
  | nil => True
  | values key _ rest => key ∉ rest.keys ∧ rest.Distinct
  | space key _ inner rest => key ∉ rest.keys ∧ inner.Distinct ∧ rest.Distinct

end Entries

/-- An entry under a key satisfies what every entry is to satisfy. -/
def Entry.All (p : Text → List Scalar → Prop) (q : Text → Option Text → Prop) (key : Text) :
    Entry → Prop
  | .values vs => p key vs
  | .space name inner => q key name ∧ inner.All p q

def Entry.Distinct : Entry → Prop
  | .values _ => True
  | .space _ inner => inner.Distinct

namespace Entries

variable {p p' : Text → List Scalar → Prop} {q q' : Text → Option Text → Prop}

theorem all_cons_iff {key : Text} {entry : Entry} {rest : Entries} :
    (cons key entry rest).All p q ↔ entry.All p q key ∧ rest.All p q := by
  cases entry with
  | values vs => exact Iff.rfl
  | space name inner => exact and_assoc.symm

theorem distinct_cons_iff {key : Text} {entry : Entry} {rest : Entries} :
    (cons key entry rest).Distinct ↔ key ∉ rest.keys ∧ entry.Distinct ∧ rest.Distinct := by
  cases entry with
  | values vs => simp [cons, Distinct, Entry.Distinct]
  | space name inner => exact Iff.rfl

theorem All.imp (hp : ∀ key vs, p key vs → p' key vs) (hq : ∀ key name, q key name → q' key name)
    {e : Entries} (h : e.All p q) : e.All p' q' := by
  induction e with
  | nil => trivial
  | values key vs rest ih => exact ⟨hp _ _ h.1, ih h.2⟩
  | space key name inner rest ihi ih => exact ⟨hq _ _ h.1, ihi h.2.1, ih h.2.2⟩

theorem all_and_iff {e : Entries} :
    e.All (fun key vs => p key vs ∧ p' key vs) (fun key name => q key name ∧ q' key name) ↔
      e.All p q ∧ e.All p' q' := by
  induction e with
  | nil => exact ⟨fun _ => ⟨trivial, trivial⟩, fun _ => trivial⟩
  | values key vs rest ih =>
    simp only [All, ih]
    exact and_and_and_comm
  | space key name inner rest ihi ih =>
    simp only [All, ihi, ih]
    tauto

/-- Entries can be written unless they hold an integer without a numeral, at some level. -/
theorem isWritable_iff {e : Entries} :
    e.isWritable = true ↔
      e.All (fun _ vs => ∀ n, Scalar.int n ∈ vs → Numeral.Integer.IsShort n) fun _ _ => True := by
  have hvalues : ∀ vs : List Scalar, vs.all Scalar.isWritable = true ↔
      ∀ n, Scalar.int n ∈ vs → Numeral.Integer.IsShort n := by
    intro vs
    rw [List.all_eq_true]
    constructor
    · intro h n hn
      exact of_decide_eq_true (h _ hn)
    · rintro h (_ | _ | n | _ | _ | _) hv
      case int => exact decide_eq_true (h n hv)
      all_goals rfl
  induction e with
  | nil => simp [isWritable, All]
  | values key vs rest ih => simp only [isWritable, All, Bool.and_eq_true, hvalues, ih]
  | space key name inner rest ihi ih => simp [isWritable, All, ihi, ih]

theorem All.put {key : Text} {entry : Entry} {e : Entries} (h : e.All p q)
    (hx : entry.All p q key) : (e.put key entry).All p q := by
  induction e with
  | nil => exact all_cons_iff.mpr ⟨hx, h⟩
  | values k vs rest ih =>
    rw [Entries.put]
    split
    · exact all_cons_iff.mpr ⟨hx, h.2⟩
    · exact ⟨h.1, ih h.2⟩
  | space k name inner rest _ ih =>
    rw [Entries.put]
    split
    · exact all_cons_iff.mpr ⟨hx, h.2.2⟩
    · exact ⟨h.1, h.2.1, ih h.2.2⟩

theorem Distinct.put {key : Text} {entry : Entry} {e : Entries} (h : e.Distinct)
    (hx : entry.Distinct) : (e.put key entry).Distinct := by
  induction e with
  | nil => exact distinct_cons_iff.mpr ⟨List.not_mem_nil, hx, h⟩
  | values k vs rest ih =>
    rw [Entries.put]
    split
    · next hk => exact distinct_cons_iff.mpr ⟨hk ▸ h.1, hx, h.2⟩
    · next hk => exact ⟨by simp [mem_keys_put, hk, h.1], ih h.2⟩
  | space k name inner rest _ ih =>
    rw [Entries.put]
    split
    · next hk => exact distinct_cons_iff.mpr ⟨hk ▸ h.1, hx, h.2.2⟩
    · next hk => exact ⟨by simp [mem_keys_put, hk, h.1], h.2.1, ih h.2.2⟩

/-! ## What is found -/

theorem find?_cons (key k : Text) (entry : Entry) (rest : Entries) :
    (cons k entry rest).find? key = if key = k then some entry else rest.find? key := by
  rw [find?, toList_cons, List.lookup_cons]
  by_cases h : key = k
  · simp [h]
  · have hb : (key == k) = false := by simpa using h
    rw [hb, if_neg h]
    rfl

theorem put_cons (key k : Text) (entry entry' : Entry) (rest : Entries) :
    (cons k entry' rest).put key entry =
      if k = key then cons key entry rest else cons k entry' (rest.put key entry) := by
  cases entry' <;> rfl

theorem find?_put (key k : Text) (entry : Entry) (e : Entries) :
    (e.put key entry).find? k = if k = key then some entry else e.find? k := by
  have step : ∀ (k' : Text) (entry' : Entry) (rest : Entries),
      (rest.put key entry).find? k = (if k = key then some entry else rest.find? k) →
      ((cons k' entry' rest).put key entry).find? k =
        if k = key then some entry else (cons k' entry' rest).find? k := by
    intro k' entry' rest ih
    rw [put_cons, find?_cons]
    by_cases hk : k' = key
    · rw [if_pos hk, find?_cons, hk]
      split <;> rfl
    · rw [if_neg hk, find?_cons, ih]
      by_cases h : k = k'
      · have hne : k ≠ key := fun he => hk (h.symm.trans he)
        rw [if_pos h, if_neg hne, if_pos h]
      · rw [if_neg h, if_neg h]
  induction e with
  | nil => exact find?_cons k key entry nil
  | values k' vs rest ih => exact step k' (.values vs) rest ih
  | space k' name inner rest _ ih => exact step k' (.space name inner) rest ih

theorem All.of_find? {key : Text} {entry : Entry} {e : Entries} (h : e.All p q)
    (he : e.find? key = some entry) : entry.All p q key := by
  induction e with
  | nil => cases he
  | values k vs rest ih =>
    rw [← cons, find?_cons] at he
    split at he
    · next hk =>
      cases he
      exact hk ▸ h.1
    · exact ih h.2 he
  | space k name inner rest _ ih =>
    rw [← cons, find?_cons] at he
    split at he
    · next hk =>
      cases he
      exact hk ▸ ⟨h.1, h.2.1⟩
    · exact ih h.2.2 he

theorem Distinct.of_find? {key : Text} {entry : Entry} {e : Entries} (h : e.Distinct)
    (he : e.find? key = some entry) : entry.Distinct := by
  induction e with
  | nil => cases he
  | values k vs rest ih =>
    rw [← cons, find?_cons] at he
    split at he
    · cases he
      trivial
    · exact ih h.2 he
  | space k name inner rest _ ih =>
    rw [← cons, find?_cons] at he
    split at he
    · cases he
      exact h.2.1
    · exact ih h.2.2 he

/-! ## Contents -/

/-- The entries with every namespace called by its key: two sequences of entries with the same
contents differ in the names of namespaces at most. -/
def contents : Entries → Entries
  | nil => nil
  | values key vs rest => values key vs rest.contents
  | space key _ inner rest => space key (some key) inner.contents rest.contents

/-- The entries as they come back when they are written and read. -/
def asRead : Entries → Entries
  | nil => nil
  | values key vs rest => values key (Document.valuesAsRead vs) rest.asRead
  | space key _ inner rest => space key (some key) inner.asRead rest.asRead

end Entries

/-- An entry as it comes back under its key. -/
def Entry.asRead (key : Text) : Entry → Entry
  | .values vs => .values (Document.valuesAsRead vs)
  | .space _ inner => .space (some key) inner.asRead

namespace Entries

@[simp] theorem keys_asRead (e : Entries) : e.asRead.keys = e.keys := by
  induction e with
  | nil => rfl
  | values key vs rest ih => simp [asRead, ih]
  | space key name inner rest _ ih => simp [asRead, ih]

theorem find?_asRead (e : Entries) (key : Text) :
    e.asRead.find? key = (e.find? key).map (Entry.asRead key) := by
  induction e with
  | nil => rfl
  | values k vs rest ih =>
    rw [asRead, ← cons, ← cons, find?_cons, find?_cons, ih]
    split <;> rfl
  | space k name inner rest _ ih =>
    rw [asRead, ← cons, ← cons, find?_cons, find?_cons, ih]
    split
    · next h => rw [h]; rfl
    · rfl

theorem contents_asRead (e : Entries) : e.asRead.contents = e.asRead := by
  induction e with
  | nil => rfl
  | values key vs rest ih => simp only [asRead, contents, ih]
  | space key name inner rest ihi ih => simp only [asRead, contents, ihi, ih]

theorem contents_eq_self {e : Entries} (h : e.All (fun _ _ => True) fun key name => name = some key) :
    e.contents = e := by
  induction e with
  | nil => rfl
  | values key vs rest ih => rw [contents, ih h.2]
  | space key name inner rest ihi ih =>
    obtain ⟨rfl, hi, hr⟩ := h
    rw [contents, ihi hi, ih hr]

/-- A property that names have no part in is one of the contents. -/
theorem all_contents_iff {q : Text → Prop} {e : Entries} :
    e.contents.All p (fun key _ => q key) ↔ e.All p fun key _ => q key := by
  induction e with
  | nil => exact Iff.rfl
  | values key vs rest ih => simp only [contents, All, ih]
  | space key name inner rest ihi ih => simp only [contents, All, ihi, ih]

/-- The contents come back if the values of each key do. -/
theorem asRead_eq_contents_iff {e : Entries} :
    e.asRead = e.contents ↔ e.All (fun _ vs => Document.valuesAsRead vs = vs) fun _ _ => True := by
  induction e with
  | nil => simp [asRead, contents, All]
  | values key vs rest ih => simp [asRead, contents, All, ih]
  | space key name inner rest ihi ih => simp [asRead, contents, All, ihi, ih]

end Entries

/-! ## Lists that come back -/

namespace Document

theorem asRead_eq_self_iff {v : Scalar} :
    v.asRead = v ↔ ∀ t, v = .text t → t ≠ [] ∧ Text.trim t = t := by
  cases v with
  | text t =>
    simp only [Scalar.asRead, Scalar.text.injEq, forall_eq']
    split
    · next h =>
      simp only [reduceCtorEq, ne_eq, false_iff, not_and]
      intro hne ht
      exact hne (ht.symm.trans h)
    · next h =>
      simp only [Scalar.text.injEq]
      refine ⟨fun ht => ⟨fun he => h (by rw [he]; rfl), ht⟩, fun ht => ht.2⟩
  | none | bool _ | int _ | level _ | real _ => simp [Scalar.asRead]

theorem map_asRead_eq_self_iff {vs : List Scalar} :
    vs.map Scalar.asRead = vs ↔ ∀ v ∈ vs, v.asRead = v := by
  conv_lhs => rhs; rw [← List.map_id vs]
  exact List.map_inj_left

theorem valuesAsRead_eq_self_iff {vs : List Scalar} :
    valuesAsRead vs = vs ↔ vs ≠ [] ∧ ∀ t, Scalar.text t ∈ vs → t ≠ [] ∧ Text.trim t = t := by
  cases vs with
  | nil => simp [valuesAsRead]
  | cons v vs =>
    show (v :: vs).map Scalar.asRead = v :: vs ↔ _
    rw [map_asRead_eq_self_iff]
    simp only [asRead_eq_self_iff, ne_eq, reduceCtorEq, not_false_eq_true, true_and]
    exact ⟨fun h t ht => h _ ht t rfl, fun h w hw t he => h t (he ▸ hw)⟩

end Document

end FormalGrammar
