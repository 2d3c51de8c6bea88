import FormalGrammar.Search.Replacement
import FormalGrammar.Proofs.Nullable

/-!
# Rewriting

One rewrite replaces one occurrence of a nonterminal by the body of one of its productions
(`Rewrites`), and `Derives n` is a sequence of `n` rewrites. Neither speaks of the search or
of the order in which replacements are listed; `mem_replacements_iff` says that the list of
replacements in a form is exactly the list of its rewrites.

A rewrite takes at most one symbol away, and never lowers the least yield of a form, where
nullable nonterminals count nothing (`Derives.length_le`, `Derives.minLength_le`).
-/

namespace FormalGrammar.Grammar

variable {g : Grammar}

/-- One occurrence of a nonterminal is replaced by the body of one of its productions. -/
inductive Rewrites (g : Grammar) : Form → Form → Prop
  | replace (before : Form) (x : Char) (body after : Form) :
      x ∈ g.nonterminals → (x, body) ∈ g.productions →
      Rewrites g (before ++ x :: after) (before ++ body ++ after)

/-- A sequence of rewrites of the given length. -/
inductive Derives (g : Grammar) : Nat → Form → Form → Prop
  | refl (f : Form) : Derives g 0 f f
  | step {n : Nat} {f f' f'' : Form} :
      Rewrites g f f' → Derives g n f' f'' → Derives g (n + 1) f f''

theorem Derives.eq_of_zero {f f' : Form} (h : g.Derives 0 f f') : f = f' := by
  cases h
  rfl

/-! ## The list of replacements -/

theorem mem_productions_iff {x : Char} {body : Form} :
    (x, body) ∈ g.productions ↔ ∃ bodies, (x, bodies) ∈ g.rules ∧ body ∈ bodies := by
  simp only [productions, List.mem_flatMap, List.mem_map, Prod.mk.injEq]
  constructor
  · rintro ⟨⟨y, bodies⟩, hr, b, hb, rfl, rfl⟩
    exact ⟨bodies, hr, hb⟩
  · rintro ⟨bodies, hr, hb⟩
    exact ⟨(x, bodies), hr, body, hb, rfl, rfl⟩

/-- With distinct keys, looking a key up finds the pair that has it. -/
theorem lookup_eq_some_iff {rules : List (Char × List Form)} (h : (rules.map Prod.fst).Nodup)
    {x : Char} {bodies : List Form} : rules.lookup x = some bodies ↔ (x, bodies) ∈ rules := by
  induction rules with
  | nil => simp
  | cons r rules ih =>
    obtain ⟨y, bs⟩ := r
    rw [List.map_cons, List.nodup_cons] at h
    rw [List.lookup_cons, List.mem_cons, Prod.mk.injEq]
    by_cases hx : x = y
    · subst hx
      have hn : (x, bodies) ∉ rules := fun hm => h.1 (List.mem_map.mpr ⟨_, hm, rfl⟩)
      simp only [beq_self_eq_true, Option.some.injEq, true_and, hn, or_false]
      exact eq_comm
    · have hb : (x == y) = false := beq_eq_false_iff_ne.mpr hx
      simp only [hb, hx, false_and, false_or]
      exact ih h.2

theorem mem_rulesFor_iff (hg : g.WellFormed) {x : Char} {body : Form} :
    body ∈ g.rulesFor x ↔ (x, body) ∈ g.productions := by
  rw [mem_productions_iff, rulesFor]
  constructor
  · intro h
    cases hl : g.rules.lookup x with
    | none => simp [hl] at h
    | some bodies => exact ⟨bodies, (lookup_eq_some_iff hg.keys_nodup).mp hl, by simpa [hl] using h⟩
  · rintro ⟨bodies, hr, hb⟩
    rw [(lookup_eq_some_iff hg.keys_nodup).mpr hr]
    exact hb

theorem mem_replacementsAfter_iff {before f : Form} {r : Replacement} :
    r ∈ g.replacementsAfter before f ↔
      ∃ mid, r.before = before ++ mid ∧ f = mid ++ r.lhs :: r.after ∧
        r.lhs ∈ g.nonterminals ∧ r.body ∈ g.rulesFor r.lhs := by
  induction f generalizing before with
  | nil => simp [replacementsAfter]
  | cons x after ih =>
    rw [replacementsAfter, List.mem_append, ih]
    constructor
    · rintro (h | ⟨mid, hb, rfl, hn, hr⟩)
      · split at h
        · next hx =>
          obtain ⟨body, hbody, rfl⟩ := List.mem_map.mp h
          exact ⟨[], by simp, rfl, by simpa using hx, hbody⟩
        · cases h
      · exact ⟨x :: mid, by simp [hb], rfl, hn, hr⟩
    · rintro ⟨mid, hb, hf, hn, hr⟩
      cases mid with
      | nil =>
        -- The occurrence is the first symbol of the form.
        rw [List.nil_append, List.cons.injEq] at hf
        obtain ⟨rfl, rfl⟩ := hf
        refine .inl ?_
        rw [if_pos (by simpa using hn)]
        refine List.mem_map.mpr ⟨r.body, hr, ?_⟩
        rw [List.append_nil] at hb
        rw [← hb]
      | cons y mid =>
        rw [List.cons_append, List.cons.injEq] at hf
        obtain ⟨rfl, hf⟩ := hf
        exact .inr ⟨mid, by simp [hb], hf, hn, hr⟩

/-- **The replacements in a form** are the occurrences of nonterminals with their productions. -/
theorem mem_replacements_iff (hg : g.WellFormed) {f : Form} {r : Replacement} :
    r ∈ g.replacements f ↔
      r.source = f ∧ r.lhs ∈ g.nonterminals ∧ (r.lhs, r.body) ∈ g.productions := by
  rw [replacements, mem_replacementsAfter_iff, mem_rulesFor_iff hg]
  constructor
  · rintro ⟨mid, hb, rfl, hn, hp⟩
    exact ⟨by rw [Replacement.source, hb, List.nil_append], hn, hp⟩
  · rintro ⟨rfl, hn, hp⟩
    exact ⟨r.before, (List.nil_append _).symm, rfl, hn, hp⟩

theorem rewrites_iff (hg : g.WellFormed) {f f' : Form} :
    g.Rewrites f f' ↔ ∃ r ∈ g.replacements f, r.target = f' := by
  constructor
  · rintro ⟨before, x, body, after, hn, hp⟩
    exact ⟨⟨before, x, body, after⟩, (mem_replacements_iff hg).mpr ⟨rfl, hn, hp⟩, rfl⟩
  · rintro ⟨r, hr, rfl⟩
    obtain ⟨rfl, hn, hp⟩ := (mem_replacements_iff hg).mp hr
    exact .replace r.before r.lhs r.body r.after hn hp

theorem derives_succ_iff (hg : g.WellFormed) {n : Nat} {f f'' : Form} :
    g.Derives (n + 1) f f'' ↔ ∃ r ∈ g.replacements f, g.Derives n r.target f'' := by
  constructor
  · intro h
    cases h with
    | step hs hd =>
      obtain ⟨r, hr, rfl⟩ := (rewrites_iff hg).mp hs
      exact ⟨r, hr, hd⟩
  · rintro ⟨r, hr, hd⟩
    exact .step ((rewrites_iff hg).mpr ⟨r, hr, rfl⟩) hd

/-! ## Chains of replacements -/

/-- The replacements are made one after the other, the first in `f`, and end in `f'`. -/
inductive Leads (g : Grammar) : List Replacement → Form → Form → Prop
  | nil (f : Form) : Leads g [] f f
  | cons {r : Replacement} {rs : List Replacement} {f f' : Form} :
      r ∈ g.replacements f → Leads g rs r.target f' → Leads g (r :: rs) f f'

theorem Leads.derives (hg : g.WellFormed) {rs : List Replacement} {f f' : Form}
    (h : g.Leads rs f f') : g.Derives rs.length f f' := by
  induction h with
  | nil f => exact .refl f
  | cons hr _ ih => exact (derives_succ_iff hg).mpr ⟨_, hr, ih⟩

/-! ## Lengths and least yields -/

theorem Rewrites.length_le {f f' : Form} (h : g.Rewrites f f') : f.length ≤ f'.length + 1 := by
  cases h
  simp only [List.length_append, List.length_cons]
  omega

/-- A nonterminal that is not nullable has a symbol that is not nullable in each of its bodies. -/
theorem minLength_singleton_le {x : Char} {body : Form} (h : (x, body) ∈ g.productions) :
    minLength g.nullable [x] ≤ minLength g.nullable body := by
  obtain ⟨bodies, hr, hb⟩ := mem_productions_iff.mp h
  by_cases hz : minLength g.nullable body = 0
  · have hn : ∀ c ∈ body, c ∈ g.nullable := by
      simpa [minLength, List.countP_eq_zero] using hz
    have hx : x ∈ g.nullable := mem_nullable_of_body hr hb hn
    simp [minLength, hx]
  · have hle : minLength g.nullable [x] ≤ 1 := List.countP_le_length
    omega

theorem Rewrites.minLength_le {f f' : Form} (h : g.Rewrites f f') :
    minLength g.nullable f ≤ minLength g.nullable f' := by
  cases h with
  | replace before x body after hn hp =>
    have hx := minLength_singleton_le hp
    simp only [minLength, List.countP_append, List.countP_cons, List.countP_nil] at hx ⊢
    omega

theorem Derives.length_le {n : Nat} {f f' : Form} (h : g.Derives n f f') :
    f.length ≤ f'.length + n := by
  induction h with
  | refl f => exact Nat.le_refl _
  | step hr _ ih =>
    have := hr.length_le
    omega

theorem Derives.minLength_le {n : Nat} {f f' : Form} (h : g.Derives n f f') :
    minLength g.nullable f ≤ minLength g.nullable f' := by
  induction h with
  | refl f => exact Nat.le_refl _
  | step hr _ ih => exact Nat.le_trans hr.minLength_le ih

/-- No form derives a word that is shorter than its least yield. -/
theorem Derives.minLength_le_length {n : Nat} {f w : Form} (h : g.Derives n f w) :
    minLength g.nullable f ≤ w.length :=
  Nat.le_trans h.minLength_le List.countP_le_length

end FormalGrammar.Grammar
