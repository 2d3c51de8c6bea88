import FormalGrammar.Proofs.Computations
import FormalGrammar.Proofs.Gains

/-!
# The texts that are read as grammars

`Spells t g` says, without the reader, what a text of a grammar looks like: among its lines that
are not blank, the first lists the symbols and names the start, and each of the others is for one
nonterminal and gives its bodies between bars. The reader takes exactly these texts, and what it
makes of one is the grammar that the text spells (`ofText_eq_ok_iff`).

Each step of the reader has its equivalence here, in the order of the notation: listings, the
header, a line of productions, the lines below the header. What the reader collects step by step
is at last shown to be the productions grouped by left-hand side (`regroup_nil`).

Main statement: `Grammar.read_iff_spells`.
-/

namespace FormalGrammar

open Text

namespace Grammar

/-! ## The notation -/

/-- A blank listing has no symbols. In any other, what stands between the commas is a usable symbol
each, with blanks around it. -/
inductive Lists : Text → List Char → Prop
  | blank {t : Text} (blank : ∀ c ∈ t, isBlank c = true) : Lists t []
  | symbols {t : Text} {pieces : List Text} {cs : List Char} (split : Splits ',' t pieces)
      (trimmed : pieces.map trim = cs.map fun c => [c])
      (usable : ∀ c ∈ cs, Symbol.isUsable c = true) : Lists t cs

/-- The line is a header for the symbols and the start of `g`. -/
structure IsHeader (g : Grammar) (line : Text) : Prop where
  listings : ∃ ts ns, line = headerLine ts ns g.start ∧ Lists ts g.terminals ∧
    Lists ns g.nonterminals
  distinct : (g.terminals ++ g.nonterminals).Nodup
  start_mem : ∀ c, g.start = some c → c ∈ g.nonterminals

/-- The line gives bodies for a nonterminal: what stands before its first arrow is the nonterminal,
and what stands between the bars after it are the bodies, all with blanks around them. -/
inductive Produces (g : Grammar) : Text → List (Char × Form) → Prop
  | line {line before after : Text} {pieces : List Text} {x : Char} {bodies : List Form}
      (cut : Cuts arrow line before after) (lhs : trim before = [x]) (known : x ∈ g.nonterminals)
      (split : Splits '|' after pieces) (trimmed : pieces.map trim = bodies.map Form.text)
      (symbols : ∀ b ∈ bodies, ∀ c ∈ b, g.declares c = true) :
      Produces g line (bodies.map fun b => (x, b))

/-- A left-hand side with its bodies. -/
def groupOf (ps : List (Char × Form)) (x : Char) : Char × List Form :=
  (x, (ps.filter fun p => p.1 == x).map Prod.snd)

/-- The groups of all left-hand sides, in the order of their first appearance. -/
def grouped (ps : List (Char × Form)) : List (Char × List Form) :=
  (ps.map Prod.fst).eraseDups.map (groupOf ps)

/-- The text spells the grammar `g`: the first of its lines that are not blank, without the blanks
at its end, is a header, and the others give the bodies of the rules. -/
def Spells (t : Text) (g : Grammar) : Prop :=
  ∃ lines header rest productions, Splits '\n' t lines ∧
    lines.filter (fun line => !allBlank line) = header :: rest ∧ g.IsHeader (trimEnd header) ∧
    List.Forall₂ g.Produces rest productions ∧ g.rules = grouped productions.flatten

variable {g g' : Grammar}

/-! ## Listings -/

theorem lists_iff {t : Text} {cs : List Char} :
    Lists t cs ↔ items t = cs.map (fun c => [c]) ∧ ∀ c ∈ cs, Symbol.isUsable c = true := by
  constructor
  · rintro (hb | ⟨split, trimmed, usable⟩)
    · have hall : allBlank t = true := List.all_eq_true.mpr hb
      exact ⟨by rw [items, if_pos hall]; rfl, by simp⟩
    · refine ⟨?_, usable⟩
      have hall : allBlank t = false := by
        -- The first piece holds a symbol, which is no blank.
        obtain ⟨p, pieces', rfl⟩ := List.exists_cons_of_ne_nil split.ne_nil
        obtain ⟨c, cs', rfl⟩ := List.exists_cons_of_ne_nil (l := cs) (by rintro rfl; simp at trimmed)
        have hc : c ∈ trim p := by
          rw [(List.cons.inj trimmed).1]
          exact List.mem_cons_self
        refine allBlank_eq_false (c := c) ?_
          (Symbol.isBlank_of_isUsable (usable c List.mem_cons_self))
        rw [← split.joined]
        cases pieces' with
        | nil => simpa using mem_of_mem_trim hc
        | cons q qs =>
          rw [List.intercalate_cons_cons]
          exact List.mem_append_left _ (List.mem_append_left _ (mem_of_mem_trim hc))
      rw [items, hall, if_neg Bool.false_ne_true, splitOn_eq_iff.mpr split, trimmed]
  · rintro ⟨hi, usable⟩
    rw [items] at hi
    split at hi
    · next hall =>
      obtain rfl : cs = [] := List.map_eq_nil_iff.mp hi.symm
      exact .blank (List.all_eq_true.mp hall)
    · exact .symbols (splitOn_eq_iff.mp rfl) hi usable

/-- A listing holds symbols, blanks and commas only. -/
theorem Lists.notMem {t : Text} {cs : List Char} (h : Lists t cs) {d : Char}
    (hd : Symbol.isUsable d = false) (hb : isBlank d = false) (hc : d ≠ ',') : d ∉ t := by
  intro hm
  cases h with
  | blank blank =>
    rw [blank d hm] at hb
    cases hb
  | symbols split trimmed usable =>
    rw [← split.joined] at hm
    rcases mem_of_mem_intercalate hm with hm | ⟨p, hp, hm⟩
    · exact hc (List.mem_singleton.mp hm)
    · have ht : trim p ∈ cs.map fun c => [c] := trimmed ▸ List.mem_map_of_mem hp
      obtain ⟨c, hcs, hpc⟩ := List.mem_map.mp ht
      obtain ⟨bs, bs', hbs, hbs', he⟩ := exists_surround p
      rw [he, ← hpc, List.mem_append, List.mem_append, List.mem_singleton] at hm
      rcases hm with (hm | rfl) | hm
      · rw [hbs d hm] at hb
        cases hb
      · rw [usable d hcs] at hd
        cases hd
      · rw [hbs' d hm] at hb
        cases hb

/-! ## Adding items -/

theorem addAll_cons_eq_ok_iff {add : Grammar → Text → Option Grammar} {fault : Text → LineFault}
    {item : Text} {rest : List Text} :
    addAll add fault g (item :: rest) = .ok g' ↔
      ∃ g₁, add g item = some g₁ ∧ addAll add fault g₁ rest = .ok g' := by
  rw [addAll]
  cases add g item <;> simp

/-- Declaring one symbol by `add` is a case of putting several into the grammar by `put`. -/
structure Declaring (add : Grammar → Text → Option Grammar)
    (put : Grammar → List Char → Grammar) : Prop where
  add_iff : ∀ {g g' : Grammar} {s : Text}, add g s = some g' ↔
    ∃ c, s = [c] ∧ Symbol.isUsable c = true ∧ g.declares c = false ∧ g' = put g [c]
  nil : ∀ g, put g [] = g
  cons : ∀ g c cs, put (put g [c]) cs = put g (c :: cs)
  declares : ∀ {g c d}, (put g [c]).declares d = false ↔ g.declares d = false ∧ d ≠ c

theorem declaring_terminals :
    Declaring addTerminal? fun g cs => { g with terminals := g.terminals ++ cs } where
  add_iff := addTerminal?_eq_some_iff
  nil g := by rw [List.append_nil]
  cons g c cs := by simp
  declares := by simp [declares, and_right_comm]

theorem declaring_nonterminals :
    Declaring addNonterminal? fun g cs => { g with nonterminals := g.nonterminals ++ cs } where
  add_iff := addNonterminal?_eq_some_iff
  nil g := by rw [List.append_nil]
  cons g c cs := by simp
  declares := by simp [declares, and_assoc]

/-- All symbols of a list are declared if they are usable and distinct from each other and from
those before. -/
theorem Declaring.addAll_eq_ok_iff {add : Grammar → Text → Option Grammar}
    {put : Grammar → List Char → Grammar} (h : Declaring add put) {fault : Text → LineFault}
    {texts : List Text} :
    addAll add fault g texts = .ok g' ↔
      ∃ cs, texts = cs.map (fun c => [c]) ∧ (∀ c ∈ cs, Symbol.isUsable c = true) ∧ cs.Nodup ∧
        (∀ c ∈ cs, g.declares c = false) ∧ g' = put g cs := by
  induction texts generalizing g with
  | nil =>
    constructor
    · rintro ⟨⟩
      exact ⟨[], rfl, by simp, List.nodup_nil, by simp, (h.nil _).symm⟩
    · rintro ⟨cs, hcs, -, -, -, rfl⟩
      obtain rfl : cs = [] := List.map_eq_nil_iff.mp hcs.symm
      rw [h.nil]
      rfl
  | cons s texts ih =>
    rw [addAll_cons_eq_ok_iff]
    constructor
    · rintro ⟨g₁, hadd, hrest⟩
      obtain ⟨c, rfl, hu, hn, rfl⟩ := h.add_iff.mp hadd
      obtain ⟨cs, rfl, hus, hd, hns, rfl⟩ := ih.mp hrest
      refine ⟨c :: cs, rfl, ?_, List.nodup_cons.mpr ⟨fun hm => ?_, hd⟩, ?_, h.cons g c cs⟩
      · exact List.forall_mem_cons.mpr ⟨hu, hus⟩
      · exact (h.declares.mp (hns c hm)).2 rfl
      · exact List.forall_mem_cons.mpr ⟨hn, fun d hm => (h.declares.mp (hns d hm)).1⟩
    · rintro ⟨cs, he, hus, hd, hns, rfl⟩
      cases cs with
      | nil => cases he
      | cons c cs =>
        obtain ⟨rfl, rfl⟩ := List.cons.inj he
        obtain ⟨hu, hus⟩ := List.forall_mem_cons.mp hus
        obtain ⟨hn, hns⟩ := List.forall_mem_cons.mp hns
        obtain ⟨hc, hd⟩ := List.nodup_cons.mp hd
        refine ⟨_, h.add_iff.mpr ⟨c, rfl, hu, hn, rfl⟩, ih.mpr ⟨cs, rfl, hus, hd, ?_, ?_⟩⟩
        · exact fun d hm => h.declares.mpr ⟨hns d hm, fun e => hc (e ▸ hm)⟩
        · exact (h.cons g c cs).symm

/-! ## The header -/

theorem eq_of_splitHeader? {line ts ns s : Text} (h : splitHeader? line = some (ts, ns, s)) :
    ∃ start, s = Option.toList start ∧ line = headerLine ts ns start := by
  simp only [splitHeader?, bind, Option.bind_eq_some_iff] at h
  obtain ⟨body, hbody, ⟨ts', rest⟩, hcut, h⟩ := h
  obtain rfl := List.isPrefixOf?_eq_some_iff_append_eq.mp hbody
  obtain ⟨rfl, -⟩ := (cut_eq_some_iff (by simp [headerMiddle])).mp hcut
  -- The end of the line is read off its reversal.
  split at h
  · next r hr =>
    obtain rfl := List.reverse_eq_iff.mp hr
    cases h
    exact ⟨none, rfl, by simp [headerLine]⟩
  · next c r hr =>
    obtain rfl := List.reverse_eq_iff.mp hr
    cases h
    exact ⟨some c, rfl, by simp [headerLine]⟩
  · cases h

/-- The start that a header names is a nonterminal. -/
theorem addAll_setStart?_eq_ok_iff {start : Option Char} (hs : g.start = none) :
    addAll setStart? .start g (if start.toList.isEmpty then [] else [start.toList]) = .ok g' ↔
      (∀ c, start = some c → c ∈ g.nonterminals) ∧ g' = { g with start := start } := by
  cases start with
  | none =>
    have hg : { g with start := none } = g := by rw [← hs]
    simp [addAll, hg, eq_comm]
  | some c =>
    show addAll setStart? .start g [[c]] = .ok g' ↔ _
    rw [addAll_cons_eq_ok_iff]
    simp only [setStart?_eq_some_iff]
    constructor
    · rintro ⟨_, ⟨d, ⟨⟩, hd, rfl⟩, ⟨⟩⟩
      exact ⟨fun _ he => Option.some.inj he ▸ hd, rfl⟩
    · rintro ⟨hc, rfl⟩
      exact ⟨_, ⟨c, rfl, hc c rfl, rfl⟩, rfl⟩

/-- What the parts of a header make, once it has been taken apart. -/
theorem readHeader_of_splitHeader? {line ts ns : Text} {start : Option Char}
    (h : splitHeader? line = some (ts, ns, start.toList)) :
    readHeader line = .ok g ↔ Lists ts g.terminals ∧ Lists ns g.nonterminals ∧
      (g.terminals ++ g.nonterminals).Nodup ∧ (∀ c, g.start = some c → c ∈ g.nonterminals) ∧
      g.start = start ∧ g.rules = [] := by
  simp only [readHeader, h, bind_eq_ok_iff, declaring_terminals.addAll_eq_ok_iff,
    declaring_nonterminals.addAll_eq_ok_iff, lists_iff]
  constructor
  · rintro ⟨_, ⟨cs, hts, hcs, hcd, -, rfl⟩, _, ⟨ds, hns, hds, hdd, hdn, rfl⟩, hstart⟩
    obtain ⟨hmem, rfl⟩ := (addAll_setStart?_eq_ok_iff rfl).mp hstart
    refine ⟨⟨hts, hcs⟩, ⟨hns, hds⟩, List.nodup_append.mpr ⟨hcd, hdd, fun c hc d hd => ?_⟩, hmem,
      rfl, rfl⟩
    rintro rfl
    have hnot : c ∉ cs := by simpa [declares] using hdn c hd
    exact hnot (by simpa using hc)
  · rintro ⟨⟨hts, hcs⟩, ⟨hns, hds⟩, hd, hmem, rfl, hrules⟩
    obtain ⟨hcd, hdd, hdis⟩ := List.nodup_append.mp hd
    refine ⟨_, ⟨_, hts, hcs, hcd, by simp [declares], rfl⟩, _, ⟨_, hns, hds, hdd, ?_, rfl⟩,
      (addAll_setStart?_eq_ok_iff rfl).mpr ⟨hmem, ?_⟩⟩
    · intro c hc
      have hct : c ∉ g.terminals := fun ht => hdis c ht c hc rfl
      simp [declares, hct]
    · cases g
      cases hrules
      rfl

/-- **A line is read as a header exactly if it is one**, for a grammar that has no rules yet. -/
theorem readHeader_eq_ok_iff {line : Text} :
    readHeader line = .ok g ↔ g.IsHeader line ∧ g.rules = [] := by
  constructor
  · intro h
    cases hsplit : splitHeader? line with
    | none => simp [readHeader, hsplit] at h
    | some parts =>
      obtain ⟨ts, ns, s⟩ := parts
      obtain ⟨start, rfl, rfl⟩ := eq_of_splitHeader? hsplit
      obtain ⟨hts, hns, hd, hmem, rfl, hrules⟩ := (readHeader_of_splitHeader? hsplit).mp h
      exact ⟨⟨⟨ts, ns, rfl, hts, hns⟩, hd, hmem⟩, hrules⟩
  · rintro ⟨⟨⟨ts, ns, rfl, hts, hns⟩, hd, hmem⟩, hrules⟩
    have hbrace : '\x7d' ∉ ts := hts.notMem (by decide) (by decide) (by decide)
    exact (readHeader_of_splitHeader? (splitHeader?_headerLine hbrace ns g.start)).mpr
      ⟨hts, hns, hd, hmem, rfl, hrules⟩

/-! ## Lines of productions -/

theorem arrow_ne_nil : arrow ≠ [] := List.cons_ne_nil _ _

/-- Which lines give which productions does not depend on the rules that there are already. -/
theorem produces_congr {rules : List (Char × List Form)} {line : Text} {ps : List (Char × Form)} :
    Produces { g with rules := rules } line ps ↔ g.Produces line ps := by
  constructor <;> rintro ⟨cut, lhs, known, split, trimmed, symbols⟩ <;>
    exact .line cut lhs known split trimmed symbols

/-- Blanks at the end of a line do not count: they are no part of an arrow, and are trimmed off the
last body. -/
theorem produces_trimEnd {line : Text} {ps : List (Char × Form)} :
    g.Produces (trimEnd line) ps ↔ g.Produces line ps := by
  have hend : ∀ before after, trimEnd (before ++ (arrow ++ after)) =
      before ++ (arrow ++ trimEnd after) := by
    intro before after
    have h := trimEnd_append_cons (c := '>') (by decide) (before ++ ['-']) after
    simpa [arrow] using h
  obtain ⟨bs, hb, hbs⟩ := exists_trimEnd line
  constructor
  · rintro @⟨before, after, _, _, _, cut, lhs, known, split, trimmed, symbols⟩
    have heq : line = before ++ (arrow ++ (after ++ bs)) := by
      rw [hbs, cut.eq]
      simp only [List.append_assoc]
    refine .line ⟨heq, fun b a he => cut.first b (trimEnd a) (by rw [he, hend])⟩ lhs known
      (splitOn_eq_iff.mp rfl) ?_ symbols
    rw [map_trim_splitOn_append (by decide) hb, splitOn_eq_iff.mpr split, trimmed]
  · rintro @⟨before, after, _, _, _, cut, lhs, known, split, trimmed, symbols⟩
    have heq : trimEnd line = before ++ (arrow ++ trimEnd after) := by rw [cut.eq, hend]
    refine .line ⟨heq, fun b a he => cut.first b (a ++ bs) ?_⟩ lhs known (splitOn_eq_iff.mp rfl) ?_
      symbols
    · rw [hbs, he]
      simp only [List.append_assoc]
    · rw [map_trim_splitOn_trimEnd (by decide), splitOn_eq_iff.mpr split, trimmed]

section

variable (hu : ∀ c, g.declares c = true → Symbol.isUsable c = true)

include hu

theorem addAll_bodies_eq_ok_iff {x : Char} (hx : x ∈ g.nonterminals) {fault : Text → LineFault}
    {texts : List Text} :
    addAll (fun g rhs => g.addProduction? [x] rhs) fault g texts = .ok g' ↔
      ∃ bodies : List Form, texts = bodies.map Form.text ∧ (∀ b ∈ bodies, ∀ c ∈ b, g.declares c = true) ∧
        g' = { g with rules := regroup g.rules (bodies.map fun b => (x, b)) } := by
  induction texts generalizing g with
  | nil =>
    constructor
    · rintro ⟨⟩
      exact ⟨[], rfl, by simp, rfl⟩
    · rintro ⟨bodies, hb, -, rfl⟩
      obtain rfl : bodies = [] := List.map_eq_nil_iff.mp hb.symm
      rfl
  | cons s texts ih =>
    simp only [addAll_cons_eq_ok_iff, addProduction?_eq_some_iff]
    constructor
    · rintro ⟨_, ⟨_, body, ⟨⟩, -, hbody, rfl⟩, hrest⟩
      obtain ⟨rfl, hsymbols⟩ := text_of_body? hbody
      obtain ⟨bodies, rfl, hall, rfl⟩ :=
        (ih (g := { g with rules := appendRule x body g.rules }) hu hx).mp hrest
      exact ⟨body :: bodies, rfl, List.forall_mem_cons.mpr ⟨hsymbols, hall⟩, rfl⟩
    · rintro ⟨bodies, hs, hall, rfl⟩
      cases bodies with
      | nil => cases hs
      | cons body bodies =>
        obtain ⟨rfl, rfl⟩ := List.cons.inj hs
        obtain ⟨hsymbols, hall⟩ := List.forall_mem_cons.mp hall
        exact ⟨_, ⟨x, body, rfl, hx, body?_text hu hsymbols, rfl⟩,
          (ih (g := { g with rules := appendRule x body g.rules }) hu hx).mpr
            ⟨bodies, rfl, hall, rfl⟩⟩

/-- **A line is read as productions exactly if it gives them**, and they go to their group. -/
theorem readProductions_eq_ok_iff {line : Text} :
    readProductions g line = .ok g' ↔
      ∃ ps, g.Produces line ps ∧ g' = { g with rules := regroup g.rules ps } := by
  constructor
  · intro h
    cases hcut : Text.cut arrow line with
    | none => simp [readProductions, hcut] at h
    | some parts =>
      obtain ⟨before, after⟩ := parts
      have cut := (cut_eq_some_iff arrow_ne_nil).mp hcut
      by_cases hempty : (trim before).isEmpty = true
      · simp [readProductions, hcut, hempty] at h
      · simp only [readProductions, hcut, hempty, Bool.false_eq_true, ↓reduceIte] at h
        -- There is a first body, and it is accepted only for a nonterminal.
        obtain ⟨p, pieces, hsplit⟩ := List.exists_cons_of_ne_nil (splitOn_ne_nil '|' after)
        have hfirst := h
        rw [hsplit, List.map_cons, addAll_cons_eq_ok_iff] at hfirst
        obtain ⟨_, hadd, -⟩ := hfirst
        obtain ⟨x, -, hlhs, hx, -, -⟩ := addProduction?_eq_some_iff.mp hadd
        rw [hlhs] at h
        obtain ⟨bodies, hbodies, hall, rfl⟩ := (addAll_bodies_eq_ok_iff hu hx).mp h
        exact ⟨_, .line cut hlhs hx (splitOn_eq_iff.mp rfl) hbodies hall, rfl⟩
  · rintro ⟨_, ⟨cut, lhs, known, split, trimmed, symbols⟩, rfl⟩
    have hcut := (cut_eq_some_iff arrow_ne_nil).mpr cut
    simp only [readProductions, hcut, lhs, splitOn_eq_iff.mpr split, trimmed, List.isEmpty_cons,
      Bool.false_eq_true, ↓reduceIte]
    exact (addAll_bodies_eq_ok_iff hu known).mpr ⟨_, rfl, symbols, rfl⟩

/-- The lines below the header are read one after the other. -/
theorem readRest_eq_ok_iff {lines : List (Text × Nat)} :
    readRest g lines = .ok g' ↔ ∃ productions,
      List.Forall₂ g.Produces (lines.map Prod.fst) productions ∧
        g' = { g with rules := regroup g.rules productions.flatten } := by
  induction lines generalizing g with
  | nil =>
    constructor
    · rintro ⟨⟩
      exact ⟨[], .nil, rfl⟩
    · rintro ⟨_, ⟨⟩, rfl⟩
      rfl
  | cons l lines ih =>
    obtain ⟨line, number⟩ := l
    have hstep : readRest g ((line, number) :: lines) = .ok g' ↔
        ∃ g₁, readProductions g line = .ok g₁ ∧ readRest g₁ lines = .ok g' := by
      rw [readRest]
      cases readProductions g line <;> simp [atLine]
    simp only [hstep, readProductions_eq_ok_iff hu]
    constructor
    · rintro ⟨_, ⟨ps, hps, rfl⟩, hrest⟩
      obtain ⟨productions, hall, rfl⟩ :=
        (ih (g := { g with rules := regroup g.rules ps }) hu).mp hrest
      refine ⟨ps :: productions, .cons hps (hall.imp fun _ _ => produces_congr.mp), ?_⟩
      rw [List.flatten_cons, regroup_append]
    · rintro ⟨_, ⟨⟩, rfl⟩
      rename_i ps productions hps hall
      refine ⟨_, ⟨ps, hps, rfl⟩, (ih (g := { g with rules := regroup g.rules ps }) hu).mpr
        ⟨productions, hall.imp fun _ _ => produces_congr.mpr, ?_⟩⟩
      rw [List.flatten_cons, regroup_append]

end

/-! ## Groups -/

theorem eraseDups_concat (xs : List Char) (x : Char) :
    (xs ++ [x]).eraseDups = if x ∈ xs then xs.eraseDups else xs.eraseDups ++ [x] := by
  rw [List.eraseDups_append]
  by_cases hx : x ∈ xs <;> simp [hx, List.removeAll, List.eraseDups_cons]

theorem nodup_eraseDups (xs : List Char) : xs.eraseDups.Nodup := by
  induction xs using List.reverseRecOn with
  | nil => exact List.nodup_nil
  | append_singleton xs x ih =>
    rw [eraseDups_concat]
    split
    · exact ih
    · next hx => simpa using List.Nodup.concat (fun hm => hx (List.mem_eraseDups.mp hm)) ih

theorem groupOf_concat_self (ps : List (Char × Form)) (x : Char) (b : Form) :
    groupOf (ps ++ [(x, b)]) x = (x, (groupOf ps x).2 ++ [b]) := by
  simp [groupOf]

theorem groupOf_concat_of_ne {x y : Char} (h : y ≠ x) (ps : List (Char × Form)) (b : Form) :
    groupOf (ps ++ [(x, b)]) y = groupOf ps y := by
  simp [groupOf, h.symm]

/-- A production that comes last joins its group, or opens one at the end. -/
theorem appendRule_grouped (ps : List (Char × Form)) (x : Char) (b : Form) :
    appendRule x b (grouped ps) = grouped (ps ++ [(x, b)]) := by
  have same {ys : List Char} (hy : x ∉ ys) :
      ys.map (groupOf (ps ++ [(x, b)])) = ys.map (groupOf ps) :=
    List.map_congr_left fun y hm =>
      groupOf_concat_of_ne (fun (e : y = x) => hy (e ▸ hm)) ps b
  have keys (ys : List Char) : (ys.map (groupOf ps)).map Prod.fst = ys := by
    simp [groupOf, Function.comp_def]
  rw [grouped, grouped, List.map_append, List.map_singleton, eraseDups_concat]
  by_cases hx : x ∈ ps.map Prod.fst
  · obtain ⟨before, after, he⟩ := List.append_of_mem (List.mem_eraseDups.mpr hx)
    have hd := nodup_eraseDups (ps.map Prod.fst)
    rw [he, List.nodup_middle, List.nodup_cons, List.mem_append, not_or] at hd
    obtain ⟨⟨hbefore, hafter⟩, -⟩ := hd
    rw [if_pos hx, he, List.map_append, List.map_cons, List.map_append, List.map_cons,
      same hbefore, same hafter, groupOf_concat_self]
    exact appendRule_group (by rwa [keys]) _ b _
  · have hx' : x ∉ (ps.map Prod.fst).eraseDups := fun hm => hx (List.mem_eraseDups.mp hm)
    have hnone : (groupOf ps x).2 = [] := by
      simp only [groupOf, List.map_eq_nil_iff, List.filter_eq_nil_iff, beq_iff_eq]
      rintro p hp rfl
      exact hx (List.mem_map_of_mem hp)
    rw [if_neg hx, List.map_append, List.map_singleton, same hx', groupOf_concat_self, hnone]
    exact appendRule_of_not_mem (by rwa [keys]) b

/-- **What is collected production by production is what is grouped at once.** -/
theorem regroup_nil (ps : List (Char × Form)) : regroup [] ps = grouped ps := by
  induction ps using List.reverseRecOn with
  | nil => rfl
  | append_singleton ps p ih =>
    rw [regroup_append, ih]
    exact appendRule_grouped ps p.1 p.2

/-! ## Texts -/

theorem map_fst_contentLines (t : Text) : (contentLines t).map Prod.fst =
    ((splitOn '\n' t).filter fun line => !allBlank line).map trimEnd := by
  have hz : ((splitOn '\n' t).zipIdx 1).map Prod.fst = splitOn '\n' t := List.zipIdx_map_fst 1 _
  conv_rhs => rw [← hz]
  simp only [contentLines, List.map_map, List.filter_map]
  rfl

theorem IsHeader.usable {line : Text} (h : g.IsHeader line) {c : Char} (hc : g.declares c = true) :
    Symbol.isUsable c = true := by
  obtain ⟨ts, ns, -, hts, hns⟩ := h.listings
  rcases declares_iff.mp hc with hc | hc
  · exact (lists_iff.mp hts).2 c hc
  · exact (lists_iff.mp hns).2 c hc

/-- Only the symbols and the start matter for a header. -/
theorem IsHeader.with_rules {line : Text} (h : g.IsHeader line) (rules : List (Char × List Form)) :
    IsHeader { g with rules := rules } line :=
  ⟨h.listings, h.distinct, h.start_mem⟩

/-- **A header and the lines below it**, read into a grammar. -/
theorem readLines_eq_ok_iff {header : Text} {lines : List (Text × Nat)} :
    (∃ g₀, readHeader header = .ok g₀ ∧ readRest g₀ lines = .ok g) ↔
      g.IsHeader header ∧ ∃ productions,
        List.Forall₂ g.Produces (lines.map Prod.fst) productions ∧
          g.rules = grouped productions.flatten := by
  constructor
  · rintro ⟨g₀, hheader, hrest⟩
    obtain ⟨h, hnil⟩ := readHeader_eq_ok_iff.mp hheader
    obtain ⟨productions, hall, rfl⟩ := (readRest_eq_ok_iff fun _ => h.usable).mp hrest
    rw [hnil, regroup_nil]
    exact ⟨h.with_rules _, productions, hall.imp fun _ _ => produces_congr.mpr, rfl⟩
  · rintro ⟨h, productions, hall, hrules⟩
    have h₀ := h.with_rules []
    refine ⟨{ g with rules := [] }, readHeader_eq_ok_iff.mpr ⟨h₀, rfl⟩,
      (readRest_eq_ok_iff fun _ => h₀.usable).mpr
        ⟨productions, hall.imp fun _ _ => produces_congr.mpr, ?_⟩⟩
    rw [regroup_nil, ← hrules]

/-- **A text is read exactly if it spells a grammar**, and as that grammar. -/
theorem ofText_eq_ok_iff {t : Text} : ofText t = .ok g ↔ Spells t g := by
  have hmap := map_fst_contentLines t
  have hsplit : Splits '\n' t (splitOn '\n' t) := splitOn_eq_iff.mp rfl
  cases hc : contentLines t with
  | nil =>
    rw [hc] at hmap
    have hnone := List.map_eq_nil_iff.mp hmap.symm
    refine ⟨fun h => by simp [ofText, hc] at h, ?_⟩
    rintro ⟨lines, header, rest, productions, hlines, hfilter, -⟩
    rw [← splitOn_eq_iff.mpr hlines, hnone] at hfilter
    cases hfilter
  | cons l lines =>
    obtain ⟨line, number⟩ := l
    rw [hc] at hmap
    obtain ⟨header, rest, hfilter, rfl, hrest⟩ := List.map_eq_cons_iff.mp hmap.symm
    have hread : ofText t = .ok g ↔
        ∃ g₀, readHeader (trimEnd header) = .ok g₀ ∧ readRest g₀ lines = .ok g := by
      simp only [ofText, hc, atLine]
      cases readHeader (trimEnd header) <;> simp
    rw [hread, readLines_eq_ok_iff, ← hrest]
    simp only [List.forall₂_map_left_iff, produces_trimEnd]
    constructor
    · rintro ⟨h, productions, hall, hrules⟩
      exact ⟨_, header, rest, productions, hsplit, hfilter, h, hall, hrules⟩
    · rintro ⟨lines', header', rest', productions, hlines, hfilter', h, hall, hrules⟩
      rw [← splitOn_eq_iff.mpr hlines, hfilter] at hfilter'
      obtain ⟨rfl, rfl⟩ := List.cons.inj hfilter'
      exact ⟨h, productions, hall, hrules⟩

/-- **What is read as a grammar.** A text is read exactly if it spells a grammar, and it is read as
that grammar. Every other text is refused as the malformed text of a grammar. -/
theorem read_iff_spells (t : Text) :
    (∀ g, ofValue (.text t) = .ok g ↔ Spells t g) ∧
      ((∀ g, ¬ Spells t g) → ∃ e, ofValue (.text t) = .error (.grammarText e)) ∧
      ∀ f, ofValue (.text t) = .error f → f.className = "GrammarDecodeError" := by
  simp only [ofValue, ← ofText_eq_ok_iff]
  cases h : ofText t with
  | ok g => simp
  | error e => simp [Fault.className]

/-- Blank lines, blanks around symbols and bodies, symbols that the notation itself is made of, and
a group that is continued after another one. A last bar without a body is refused. -/
theorem read_iff_spells_marks :
    Spells (" \nG = (\x7b - ,>, (\x7d, \x7b=,P \x7d, =, P) \n\n = ->->| ε\nP->P\n  =-> (".toList)
        ⟨['-', '>', '('], ['=', 'P'], some '=', [('=', [['-', '>'], [], ['(']]), ('P', [['P']])]⟩ ∧
      ∃ e, ofValue (.text "G = (\x7ba\x7d, \x7bS\x7d, S, P)\nS -> a |".toList) =
        .error (.grammarText e) := by
  have hread := read_iff_spells "G = (\x7ba\x7d, \x7bS\x7d, S, P)\nS -> a |".toList
  refine ⟨((read_iff_spells _).1 _).mp (by rfl), hread.2.1 fun g hg => ?_⟩
  have hok := (hread.1 g).mpr hg
  have herror : ofValue (.text "G = (\x7ba\x7d, \x7bS\x7d, S, P)\nS -> a |".toList) =
      .error (.grammarText (.atLine 2 (.production ['S'] []))) := by rfl
  rw [herror] at hok
  cases hok

end Grammar

end FormalGrammar
