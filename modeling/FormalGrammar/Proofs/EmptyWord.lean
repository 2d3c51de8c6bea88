import FormalGrammar.Proofs.Editing
import FormalGrammar.Proofs.Rewriting

/-!
# The nonterminals that derive the empty word

The nullable nonterminals are found by passes over the rules that are repeated until one changes
nothing. This comes to an end, since each pass before adds a left-hand side (`settles_nullable`). What
is found are the nonterminals that derive the empty word: derivations of the symbols of a body can be
made one after the other (`exists_derives_nil`), and a derivation cannot lower the least yield of a
form, so that a symbol that derives the empty word has no least yield.

Main statement: `Grammar.nullable_iff_derives_nil`.
-/

namespace FormalGrammar.Grammar

variable {g : Grammar} {rules : List (Char × List Form)} {known result result' : List Char}

/-! ## Repeated passes -/

/-- Passes are made over the rules until one leaves the set as it is; `result` is the set then. -/
inductive Settles (rules : List (Char × List Form)) : List Char → List Char → Prop
  | settled {known : List Char} : nullablePass rules known = known → Settles rules known known
  | pass {known result : List Char} : nullablePass rules known ≠ known →
      Settles rules (nullablePass rules known) result → Settles rules known result

theorem Settles.unique (h : Settles rules known result) (h' : Settles rules known result') :
    result = result' := by
  induction h with
  | settled hfix =>
    cases h' with
    | settled _ => rfl
    | pass hne _ => exact absurd hfix hne
  | pass hne _ ih =>
    cases h' with
    | settled hfix => exact absurd hfix hne
    | pass _ h' => exact ih h'

/-- A pass more at the beginning makes no difference. -/
theorem Settles.before (h : Settles rules (nullablePass rules known) result) :
    Settles rules known result := by
  by_cases hfix : nullablePass rules known = known
  · rwa [hfix] at h
  · exact .pass hfix h

/-- **The passes come to an end**, with the nullable nonterminals. -/
theorem settles_nullable (g : Grammar) : Settles g.rules [] g.nullable := by
  have after : ∀ n, Settles g.rules (nullableAfter g.rules n) g.nullable →
      Settles g.rules [] g.nullable := by
    intro n
    induction n with
    | zero => exact id
    | succ n ih => exact fun h => ih h.before
  exact after g.rules.length (.settled (nullablePass_nullable g))

/-! ## Derivations one after the other -/

theorem Rewrites.append_right {f f' : Form} (h : g.Rewrites f f') (after : Form) :
    g.Rewrites (f ++ after) (f' ++ after) := by
  cases h with
  | replace before x body rest hx hp =>
    simpa using Rewrites.replace before x body (rest ++ after) hx hp

theorem Derives.append_right {n : Nat} {f f' : Form} (h : g.Derives n f f') (after : Form) :
    g.Derives n (f ++ after) (f' ++ after) := by
  induction h with
  | refl f => exact .refl _
  | step hr _ ih => exact .step (hr.append_right after) ih

theorem Derives.trans {m n : Nat} {f f' f'' : Form} (h : g.Derives m f f')
    (h' : g.Derives n f' f'') : g.Derives (m + n) f f'' := by
  induction h with
  | refl f => rwa [Nat.zero_add]
  | step hr _ ih =>
    rw [Nat.succ_add]
    exact .step hr (ih h')

/-- Symbols that derive the empty word each do so together, from the first to the last. -/
theorem exists_derives_nil {f : Form} (h : ∀ c ∈ f, ∃ n, g.Derives n [c] []) :
    ∃ n, g.Derives n f [] := by
  induction f with
  | nil => exact ⟨0, .refl []⟩
  | cons c f ih =>
    obtain ⟨m, hm⟩ := h c List.mem_cons_self
    obtain ⟨n, hn⟩ := ih fun d hd => h d (List.mem_cons_of_mem c hd)
    exact ⟨m + n, (hm.append_right f).trans hn⟩

/-! ## Both directions -/

theorem exists_derives_of_mem_nullable (hg : g.WellFormed) :
    ∀ x ∈ g.nullable, ∃ n, g.Derives n [x] [] := by
  refine nullable_induction fun x bodies hr body hb hbody => ?_
  obtain ⟨n, hn⟩ := exists_derives_nil hbody
  have hx : x ∈ g.nonterminals := hg.keys_mem x (List.mem_map_of_mem hr)
  have hrewrites : g.Rewrites [x] body := by
    simpa using Rewrites.replace [] x body [] hx (mem_productions_iff.mpr ⟨bodies, hr, hb⟩)
  exact ⟨n + 1, .step hrewrites hn⟩

theorem mem_nullable_of_derives {n : Nat} {x : Char} (h : g.Derives n [x] []) : x ∈ g.nullable := by
  have hle : minLength g.nullable [x] ≤ 0 := h.minLength_le
  simpa [minLength] using hle

/-- **The nullable nonterminals are those that derive the empty word.** Repeated passes over the
rules come to an end with them and with nothing else, and they are listed once each. -/
theorem nullable_iff_derives_nil (hg : g.Reachable) :
    (Settles g.rules [] g.nullable ∧ ∀ result, Settles g.rules [] result → result = g.nullable) ∧
      g.nullable.Nodup ∧
      ∀ x, x ∈ g.nullable ↔ x ∈ g.nonterminals ∧ ∃ n, g.Derives n [x] [] := by
  have hw := hg.wellFormed
  have hsettles := settles_nullable g
  refine ⟨⟨hsettles, fun result h => h.unique hsettles⟩, nodup_nullableAfter _ _, fun x => ?_⟩
  constructor
  · intro hx
    exact ⟨hw.keys_mem x (nullableAfter_subset _ _ hx), exists_derives_of_mem_nullable hw x hx⟩
  · rintro ⟨-, n, hn⟩
    exact mem_nullable_of_derives hn

/-- `S -> AB | SAB`, `A -> BB | a`, `B -> S | ε` and `C -> CA`: the passes go against the order of the
rules, and leave out a nonterminal that stays in every form. -/
def circular : Grammar :=
  afterEdits {} [.terminal (.text ['a']), .nonterminal (.text ['S']), .nonterminal (.text ['A']),
    .nonterminal (.text ['B']), .nonterminal (.text ['C']),
    .production (.text ['S']) (.text ['A', 'B']), .production (.text ['S']) (.text ['S', 'A', 'B']),
    .production (.text ['A']) (.text ['B', 'B']), .production (.text ['A']) (.text ['a']),
    .production (.text ['B']) (.text ['S']), .production (.text ['B']) (.text ['ε']),
    .production (.text ['C']) (.text ['C', 'A'])]

theorem nullable_iff_derives_nil_circular :
    circular.Reachable ∧ Settles circular.rules [] ['B', 'A', 'S'] ∧
      (∃ n, circular.Derives n ['S'] []) ∧ ∀ n, ¬ circular.Derives n ['C'] [] := by
  have hreached : circular.Reachable := Reachable.empty.afterEdits _
  have hnullable : circular.nullable = ['B', 'A', 'S'] := by decide
  obtain ⟨⟨hsettles, -⟩, -, hmem⟩ := nullable_iff_derives_nil hreached
  rw [hnullable] at hsettles
  refine ⟨hreached, hsettles, ((hmem 'S').mp (by decide)).2, fun n hn => ?_⟩
  have hc : 'C' ∈ circular.nullable := (hmem 'C').mpr ⟨by decide, n, hn⟩
  rw [hnullable] at hc
  exact absurd hc (by decide)

end FormalGrammar.Grammar
