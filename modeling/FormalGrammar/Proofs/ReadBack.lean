import FormalGrammar.Proofs.Editing
import FormalGrammar.Proofs.Texts

/-!
# Reading a grammar back

The text of a grammar is read back as the same grammar (`ofText_text`). A symbol may be any
usable character, also one that the format itself is made of, so each step of the reader is
shown to find its marks at the right place: the listings hold no brace, a left-hand side is
one character and so cannot begin the arrow, and no body holds a bar, a blank or a new line.

Main statement: `Grammar.read_back`.
-/

namespace FormalGrammar

open Text

/-! ## Usable characters -/

namespace Symbol

theorem isUsable_iff {c : Char} :
    isUsable c = true ↔ isBlank c = false ∧ c ≠ epsilon ∧ c ∉ reserved := by
  simp [isUsable, and_assoc]

theorem isBlank_of_isUsable {c : Char} (h : isUsable c = true) : isBlank c = false :=
  (isUsable_iff.mp h).1

theorem ne_of_isUsable {c d : Char} (hc : isUsable c = true) (hd : isUsable d = false) : c ≠ d := by
  rintro rfl
  rw [hc] at hd
  cases hd

end Symbol

open FormalGrammar.Symbol

namespace Grammar

variable {g : Grammar}

theorem WellFormed.usable_of_mem_terminals (hg : g.WellFormed) {c : Char} (hc : c ∈ g.terminals) :
    isUsable c = true := hg.usable c (declares_iff.mpr (.inl hc))

theorem WellFormed.usable_of_mem_nonterminals (hg : g.WellFormed) {c : Char}
    (hc : c ∈ g.nonterminals) : isUsable c = true := hg.usable c (declares_iff.mpr (.inr hc))

/-! ## Listings -/

/-- A listing as it is split: all symbols but the first have a blank before them. -/
theorem symbolsText_cons (c : Char) (cs : List Char) :
    symbolsText (c :: cs) = [','].intercalate ([c] :: cs.map fun d => [' ', d]) := by
  induction cs generalizing c with
  | nil => rfl
  | cons d cs ih =>
    have hd : symbolsText (c :: d :: cs) = c :: ',' :: ' ' :: symbolsText (d :: cs) := rfl
    rw [hd, ih]
    cases cs <;> simp [List.intercalate_cons_cons]

theorem mem_symbolsText {d : Char} {cs : List Char} (h : d ∈ symbolsText cs) :
    d = ',' ∨ d = ' ' ∨ d ∈ cs := by
  cases cs with
  | nil => cases h
  | cons c cs =>
    rw [symbolsText_cons] at h
    rcases mem_of_mem_intercalate h with h | ⟨p, hp, h⟩
    · exact .inl (List.mem_singleton.mp h)
    · rcases List.mem_cons.mp hp with rfl | hp
      · exact .inr (.inr (List.mem_singleton.mp h ▸ List.mem_cons_self))
      · obtain ⟨c', hc, rfl⟩ := List.mem_map.mp hp
        rcases List.mem_cons.mp h with h | h
        · exact .inr (.inl h)
        · exact .inr (.inr (List.mem_cons_of_mem _ (List.mem_singleton.mp h ▸ hc)))

theorem notMem_symbolsText {cs : List Char} (h : ∀ c ∈ cs, isUsable c = true) {d : Char}
    (hd : isUsable d = false) (hc : d ≠ ',') (hs : d ≠ ' ') : d ∉ symbolsText cs := by
  intro hm
  rcases mem_symbolsText hm with hm | hm | hm
  · exact hc hm
  · exact hs hm
  · exact ne_of_isUsable (h d hm) hd rfl

/-- The items of a listing are its symbols. -/
theorem items_symbolsText {cs : List Char} (h : ∀ c ∈ cs, isUsable c = true) :
    items (symbolsText cs) = cs.map fun c => [c] := by
  cases cs with
  | nil => rfl
  | cons c cs =>
    have hb : allBlank (symbolsText (c :: cs)) = false := by
      refine allBlank_eq_false (c := c) ?_ (isBlank_of_isUsable (h c List.mem_cons_self))
      cases cs <;> exact List.mem_cons_self
    have hc : ∀ p ∈ [c] :: cs.map (fun d => [' ', d]), ',' ∉ p := by
      have hne : ∀ d ∈ c :: cs, ',' ≠ d := fun d hd =>
        (ne_of_isUsable (h d hd) (by decide)).symm
      intro p hp
      rcases List.mem_cons.mp hp with rfl | hp
      · simpa using hne c List.mem_cons_self
      · obtain ⟨d, hd, rfl⟩ := List.mem_map.mp hp
        simpa using hne d (List.mem_cons_of_mem _ hd)
    have trimmed : ∀ d ∈ c :: cs, trim [d] = [d] := fun d hd =>
      trim_eq_self (by simpa using isBlank_of_isUsable (h d hd))
    rw [items, hb, if_neg Bool.false_ne_true, symbolsText_cons,
      splitOn_intercalate (List.cons_ne_nil _ _) hc, List.map_cons, List.map_map, List.map_cons,
      trimmed c List.mem_cons_self, List.map_congr_left]
    intro d hd
    rw [Function.comp_apply, trim_cons_of_blank (by decide), trimmed d (List.mem_cons_of_mem _ hd)]

/-! ## The header -/

/-- A header with the given listings and start. -/
def headerLine (ts ns : Text) (start : Option Char) : Text :=
  headerStart ++ ts ++ headerMiddle ++ ns ++ ['}', ',', ' '] ++ start.toList ++ [',', ' ', 'P', ')']

theorem splitHeader?_headerLine {ts : Text} (h : '\x7d' ∉ ts) (ns : Text) (start : Option Char) :
    splitHeader? (headerLine ts ns start) = some (ts, ns, start.toList) := by
  have hstart : ∀ rest, headerStart.isPrefixOf? (headerStart ++ rest) = some rest := fun _ =>
    List.isPrefixOf?_eq_some_iff_append_eq.mpr rfl
  have hcut : ∀ rest, Text.cut headerMiddle (ts ++ (headerMiddle ++ rest)) = some (ts, rest) :=
    cut_append h
  simp only [splitHeader?, headerLine, List.append_assoc, hstart, hcut, bind, Option.bind]
  cases start <;> simp

theorem splitHeader?_headerText (hg : g.WellFormed) :
    splitHeader? g.headerText =
      some (symbolsText g.terminals, symbolsText g.nonterminals, g.start.toList) :=
  splitHeader?_headerLine (notMem_symbolsText (fun _ => hg.usable_of_mem_terminals) (by decide)
    (by decide) (by decide)) _ _

/-- Adding the items of a list in turn goes through if each one in its turn does. -/
theorem addAll_eq_ok {α : Type} {add : Grammar → Text → Option Grammar} {fault : Text → LineFault}
    (item : α → Text) (state : List α → Grammar) (xs : List α)
    (h : ∀ before x after, xs = before ++ x :: after →
      add (state before) (item x) = some (state (before ++ [x]))) :
    addAll add fault (state []) (xs.map item) = .ok (state xs) := by
  have onward : ∀ before after, xs = before ++ after →
      addAll add fault (state before) (after.map item) = .ok (state xs) := by
    intro before after
    induction after generalizing before with
    | nil =>
      intro he
      rw [he, List.append_nil]
      rfl
    | cons x after ih =>
      intro he
      simp only [List.map_cons, addAll, h before x after he]
      exact ih (before ++ [x]) (by rw [he, List.append_assoc]; rfl)
  exact onward [] xs rfl

/-- Each terminal can be declared after those before it. -/
theorem WellFormed.addTerminal?_next (hg : g.WellFormed) {before after : List Char} {c : Char}
    (he : g.terminals = before ++ c :: after) :
    addTerminal? { terminals := before } [c] = some { terminals := before ++ [c] } := by
  have hc : c ∉ before := fun hm =>
    List.disjoint_of_nodup_append (he ▸ hg.terminals_nodup) hm List.mem_cons_self
  have hm : c ∈ g.terminals := by
    rw [he]
    exact List.mem_append_right _ List.mem_cons_self
  refine addTerminal?_eq_some_iff.mpr ⟨c, rfl, hg.usable_of_mem_terminals hm, ?_, rfl⟩
  simpa [declares] using hc

/-- Each nonterminal can be declared after the terminals and the nonterminals before it. -/
theorem WellFormed.addNonterminal?_next (hg : g.WellFormed) {before after : List Char} {c : Char}
    (he : g.nonterminals = before ++ c :: after) :
    addNonterminal? { terminals := g.terminals, nonterminals := before } [c] =
      some { terminals := g.terminals, nonterminals := before ++ [c] } := by
  have hc : c ∉ before := fun hm =>
    List.disjoint_of_nodup_append (he ▸ hg.nonterminals_nodup) hm List.mem_cons_self
  have hm : c ∈ g.nonterminals := by
    rw [he]
    exact List.mem_append_right _ List.mem_cons_self
  have hct : c ∉ g.terminals := fun h => hg.disjoint c h hm
  refine addNonterminal?_eq_some_iff.mpr ⟨c, rfl, hg.usable_of_mem_nonterminals hm, ?_, rfl⟩
  simp [declares, hc, hct]

theorem readHeader_headerText (hg : g.WellFormed) :
    readHeader g.headerText = .ok { g with rules := [] } := by
  have ht : addAll addTerminal? .terminal {} (g.terminals.map fun c => [c]) =
      .ok { terminals := g.terminals } := by
    exact addAll_eq_ok (fun c => [c]) (fun cs => { terminals := cs }) g.terminals
      fun before c after he => hg.addTerminal?_next he
  have hn : addAll addNonterminal? .nonterminal { terminals := g.terminals }
      (g.nonterminals.map fun c => [c]) =
      .ok { terminals := g.terminals, nonterminals := g.nonterminals } := by
    exact addAll_eq_ok (fun c => [c])
      (fun cs => { terminals := g.terminals, nonterminals := cs }) g.nonterminals
      fun before c after he => hg.addNonterminal?_next he
  simp only [readHeader, splitHeader?_headerText hg, bind, Except.bind,
    items_symbolsText fun _ => hg.usable_of_mem_terminals,
    items_symbolsText fun _ => hg.usable_of_mem_nonterminals, ht, hn]
  cases hs : g.start with
  | none => rfl
  | some c =>
    have hc : setStart? { terminals := g.terminals, nonterminals := g.nonterminals } [c] =
        some { terminals := g.terminals, nonterminals := g.nonterminals, start := some c } :=
      setStart?_eq_some_iff.mpr ⟨c, rfl, hg.start_mem c hs, rfl⟩
    simp [addAll, hc]

/-! ## Productions -/

/-- The arrow is found behind the left-hand side and a blank, whatever character it is. -/
theorem cut_productionText (x : Char) (body : Form) :
    Text.cut arrow (productionText x body) = some ([x, ' '], ' ' :: body.text) := by
  have hx : arrow.isPrefixOf? (x :: ' ' :: '-' :: '>' :: ' ' :: body.text) = none := by
    simp [arrow, List.isPrefixOf?]
  have hs : arrow.isPrefixOf? (' ' :: '-' :: '>' :: ' ' :: body.text) = none := rfl
  have ha : arrow.isPrefixOf? ('-' :: '>' :: ' ' :: body.text) = some (' ' :: body.text) := rfl
  simp only [productionText, Text.cut, hx, hs, ha, Option.map_some]

/-- A body shows as the mark of the empty word, or as its symbols. -/
theorem formText_cases (body : Form) :
    body = [] ∧ body.text = [Symbol.epsilon] ∨ body ≠ [] ∧ body.text = body := by
  cases body <;> simp [Form.text]

/-- A character of a body as it is shown: declared, or the mark of the empty word. -/
theorem mem_formText {body : Form} {c : Char} (h : c ∈ body.text) : c ∈ body ∨ c = epsilon := by
  unfold Form.text at h
  split at h
  · exact .inr (List.mem_singleton.mp h)
  · exact .inl h

theorem body?_text (hu : ∀ c, g.declares c = true → isUsable c = true) {body : Form}
    (hb : ∀ c ∈ body, g.declares c = true) : g.body? body.text = some body := by
  rw [body?_eq_some_iff]
  cases body with
  | nil => exact .inl ⟨rfl, rfl⟩
  | cons c cs =>
    have hc : c ≠ epsilon := ne_of_isUsable (hu c (hb c List.mem_cons_self)) (by decide)
    refine .inr ⟨fun he => hc ?_, List.cons_ne_nil _ _, hb, rfl⟩
    exact (List.cons.inj he).1

section

variable {x : Char} {body : Form} (hu : ∀ c, g.declares c = true → isUsable c = true)
  (hx : x ∈ g.nonterminals) (hb : ∀ c ∈ body, g.declares c = true)

include hu hb

theorem notMem_formText {d : Char} (hd : isUsable d = false) (he : d ≠ epsilon) :
    d ∉ body.text := by
  intro hm
  rcases mem_formText hm with hm | hm
  · exact ne_of_isUsable (hu d (hb d hm)) hd rfl
  · exact he hm

theorem not_blank_of_mem_formText : ∀ c ∈ body.text, isBlank c = false := by
  intro c hm
  rcases mem_formText hm with hm | rfl
  · exact isBlank_of_isUsable (hu c (hb c hm))
  · decide

include hx

theorem readProductions_productionText :
    readProductions g (productionText x body) =
      .ok { g with rules := appendRule x body g.rules } := by
  have hxb : isBlank x = false := isBlank_of_isUsable (hu x (declares_iff.mpr (.inr hx)))
  have hl : trim [x, ' '] = [x] := by
    simp [trim, trimEnd, dropEndWhile, hxb, show isBlank ' ' = true by decide]
  have hbar : '|' ∉ ' ' :: body.text := by
    rw [List.mem_cons, not_or]
    exact ⟨by decide, notMem_formText hu hb (by decide) (by decide)⟩
  have hr : trim (' ' :: body.text) = body.text := by
    rw [trim_cons_of_blank (by decide), trim_eq_self (not_blank_of_mem_formText hu hb)]
  have hp : g.addProduction? [x] body.text = some { g with rules := appendRule x body g.rules } :=
    addProduction?_eq_some_iff.mpr ⟨x, body, rfl, hx, body?_text hu hb, rfl⟩
  simp [readProductions, cut_productionText, hl, splitOn_of_notMem hbar, hr, addAll, hp]

end

/-! ## Lines -/

/-- A line that reading takes as it is: no new line in it, a blank neither throughout nor at
the end. -/
structure IsLine (line : Text) : Prop where
  notMem_newline : '\n' ∉ line
  not_allBlank : allBlank line = false
  trimEnd_eq : trimEnd line = line

theorem contentLines_intercalate {lines : List Text} (hne : lines ≠ [])
    (h : ∀ line ∈ lines, IsLine line) :
    contentLines (['\n'].intercalate lines) = lines.zipIdx 1 := by
  have hmem : ∀ p ∈ lines.zipIdx 1, IsLine p.1 := fun p hp =>
    h p.1 (List.fst_mem_of_mem_zipIdx hp)
  rw [contentLines, splitOn_intercalate hne fun line hl => (h line hl).notMem_newline,
    List.filter_eq_self.mpr fun p hp => by simp [(hmem p hp).not_allBlank]]
  calc (lines.zipIdx 1).map (fun p => (trimEnd p.1, p.2))
      = (lines.zipIdx 1).map id :=
        List.map_congr_left fun p hp => by rw [(hmem p hp).trimEnd_eq]; rfl
    _ = lines.zipIdx 1 := List.map_id _

theorem isLine_headerText (hg : g.WellFormed) : IsLine g.headerText where
  notMem_newline := by
    have ht : '\n' ∉ symbolsText g.terminals :=
      notMem_symbolsText (fun _ => hg.usable_of_mem_terminals) (by decide) (by decide) (by decide)
    have hn : '\n' ∉ symbolsText g.nonterminals :=
      notMem_symbolsText (fun _ => hg.usable_of_mem_nonterminals) (by decide) (by decide)
        (by decide)
    have hs : '\n' ∉ g.start.toList := by
      intro hm
      have hc := hg.usable_of_mem_nonterminals (hg.start_mem _ (by simpa using hm))
      exact ne_of_isUsable hc (by decide) rfl
    simp [headerText, headerStart, headerMiddle, ht, hn, hs]
  not_allBlank := allBlank_eq_false (c := 'G') List.mem_cons_self (by decide)
  trimEnd_eq := by
    have hlast : g.headerText = headerStart ++ symbolsText g.terminals ++ headerMiddle ++
        symbolsText g.nonterminals ++ ['}', ',', ' '] ++ g.start.toList ++ [',', ' ', 'P'] ++
        [')'] := by
      simp [headerText]
    rw [hlast]
    exact trimEnd_append_of_not_blank (by decide) _

theorem isLine_productionText (hu : ∀ c, g.declares c = true → isUsable c = true) {x : Char}
    {body : Form} (hx : x ∈ g.nonterminals) (hb : ∀ c ∈ body, g.declares c = true) :
    IsLine (productionText x body) where
  notMem_newline := by
    have hxn : '\n' ≠ x := (ne_of_isUsable (hu x (declares_iff.mpr (.inr hx))) (by decide)).symm
    have hbn : '\n' ∉ body.text := notMem_formText hu hb (by decide) (by decide)
    simp [productionText, hxn, hbn]
  not_allBlank := by
    refine allBlank_eq_false (c := '-') ?_ (by decide)
    simp [productionText]
  trimEnd_eq := by
    have hne : body.text ≠ [] := by
      cases body <;> exact List.cons_ne_nil _ _
    obtain ⟨front, c, he⟩ := (List.eq_nil_or_concat' body.text).resolve_left hne
    have hc : isBlank c = false := not_blank_of_mem_formText hu hb c (by simp [he])
    have hlast : productionText x body = x :: ' ' :: '-' :: '>' :: ' ' :: front ++ [c] := by
      simp [productionText, he]
    rw [hlast]
    exact trimEnd_append_of_not_blank hc _

/-! ## Rules -/

/-- The groups that appending productions one after the other leads to. -/
def regroup (rules : List (Char × List Form)) (ps : List (Char × Form)) :
    List (Char × List Form) :=
  ps.foldl (fun rules p => appendRule p.1 p.2 rules) rules

theorem regroup_cons (rules : List (Char × List Form)) (x : Char) (body : Form)
    (ps : List (Char × Form)) :
    regroup rules ((x, body) :: ps) = regroup (appendRule x body rules) ps := rfl

theorem regroup_append (rules : List (Char × List Form)) (ps qs : List (Char × Form)) :
    regroup rules (ps ++ qs) = regroup (regroup rules ps) qs := List.foldl_append

theorem readRest_productions (hu : ∀ c, g.declares c = true → isUsable c = true)
    {ps : List (Char × Form)} (hps : ∀ p ∈ ps, p.1 ∈ g.nonterminals ∧
      ∀ c ∈ p.2, g.declares c = true) (rules : List (Char × List Form)) (number : Nat) :
    readRest { g with rules := rules } ((ps.map fun p => productionText p.1 p.2).zipIdx number) =
      .ok { g with rules := regroup rules ps } := by
  induction ps generalizing rules number with
  | nil => rfl
  | cons p ps ih =>
    obtain ⟨hx, hb⟩ := hps p List.mem_cons_self
    have hp : readProductions { g with rules := rules } (productionText p.1 p.2) =
        .ok { g with rules := appendRule p.1 p.2 rules } :=
      readProductions_productionText (g := { g with rules := rules }) hu hx hb
    simp only [List.map_cons, List.zipIdx_cons, readRest, hp, atLine]
    exact ih (fun p hp => hps p (List.mem_cons_of_mem _ hp)) _ _

/-- The productions of a group that is open at the end are added to it. -/
theorem regroup_group {x : Char} {rules : List (Char × List Form)} (hx : x ∉ rules.map Prod.fst)
    (bodies bodies' : List Form) :
    regroup (rules ++ [(x, bodies)]) (bodies'.map fun b => (x, b)) =
      rules ++ [(x, bodies ++ bodies')] := by
  induction bodies' generalizing bodies with
  | nil => simp [regroup]
  | cons b bodies' ih =>
    rw [List.map_cons, regroup_cons, appendRule_group hx, ih, List.append_assoc]
    rfl

/-- The groups come back from their productions, one group after the other. -/
theorem regroup_productions {rules rest : List (Char × List Form)}
    (hk : ((rules ++ rest).map Prod.fst).Nodup) (hb : ∀ r ∈ rest, r.2 ≠ []) :
    regroup rules (rest.flatMap fun r => r.2.map fun b => (r.1, b)) = rules ++ rest := by
  induction rest generalizing rules with
  | nil => simp [regroup]
  | cons r rest ih =>
    obtain ⟨x, bodies⟩ := r
    have hx : x ∉ rules.map Prod.fst := by
      rw [List.map_append] at hk
      exact fun hm => List.disjoint_of_nodup_append hk hm List.mem_cons_self
    obtain ⟨b, bodies', rfl⟩ := List.exists_cons_of_ne_nil (hb _ List.mem_cons_self)
    have hgroup : regroup rules ((b :: bodies').map fun b => (x, b)) =
        rules ++ [(x, b :: bodies')] := by
      rw [List.map_cons, regroup_cons, appendRule_of_not_mem hx, regroup_group hx]
      rfl
    have hk' : (((rules ++ [(x, b :: bodies')]) ++ rest).map Prod.fst).Nodup := by
      simpa using hk
    rw [List.flatMap_cons, regroup_append, hgroup,
      ih hk' fun r hr => hb r (List.mem_cons_of_mem _ hr), List.append_assoc]
    rfl

/-! ## The whole text -/

/-- **The text of a well-formed grammar is read back as that grammar.** -/
theorem ofText_text (hg : g.WellFormed) : ofText g.text = .ok g := by
  have hps : ∀ p ∈ g.productions, p.1 ∈ g.nonterminals ∧ ∀ c ∈ p.2, g.declares c = true := by
    intro p hp
    obtain ⟨r, hr, hp⟩ := List.mem_flatMap.mp hp
    obtain ⟨b, hb, rfl⟩ := List.mem_map.mp hp
    exact ⟨hg.keys_mem r.1 (List.mem_map_of_mem hr), hg.declared r hr b hb⟩
  have hlines : contentLines g.text =
      (g.headerText :: g.productions.map fun p => productionText p.1 p.2).zipIdx 1 := by
    refine contentLines_intercalate (List.cons_ne_nil _ _) fun line hl => ?_
    rcases List.mem_cons.mp hl with rfl | hl
    · exact isLine_headerText hg
    · obtain ⟨p, hp, rfl⟩ := List.mem_map.mp hl
      exact isLine_productionText hg.usable (hps p hp).1 (hps p hp).2
  have hrules : regroup [] g.productions = g.rules :=
    regroup_productions hg.keys_nodup hg.bodies_ne_nil
  have hrest : readRest { g with rules := [] }
      ((g.productions.map fun p => productionText p.1 p.2).zipIdx 2) = .ok g := by
    rw [readRest_productions hg.usable hps [] 2, hrules]
  simp only [ofText, hlines, List.zipIdx_cons, readHeader_headerText hg, atLine]
  exact hrest

/-- **What editing makes can be written and read back.** Reading the text of a grammar succeeds
and gives the same grammar, with its symbols, groups and bodies in the same order; so it is
written as the same text again. -/
theorem read_back (hg : g.Reachable) :
    ofText g.text = .ok g ∧ ∀ g', ofText g.text = .ok g' → g'.text = g.text := by
  have h := ofText_text hg.wellFormed
  refine ⟨h, fun g' he => ?_⟩
  rw [h] at he
  cases he
  rfl

/-- A grammar whose symbols are the marks of the format, without a start symbol. -/
def marks : Grammar :=
  afterEdits {} [.terminal (.text ['-']), .terminal (.text ['>']), .terminal (.text ['(']),
    .nonterminal (.text ['=']), .nonterminal (.text ['P']), .nonterminal (.text ['G']),
    .production (.text ['=']) (.text ['-', '>']), .production (.text ['P']) (.text ['ε']),
    .production (.text ['=']) (.text ['-', '>']), .production (.text ['P']) (.text ['(', 'G'])]

theorem read_back_marks :
    marks.text = ("G = (\x7b-, >, (\x7d, \x7b=, P, G\x7d, , P)\n" ++
        "= -> ->\n= -> ->\nP -> ε\nP -> (G").toList ∧
      ofText marks.text = .ok marks :=
  ⟨by decide, (read_back (Reachable.empty.afterEdits _)).1⟩

end Grammar

end FormalGrammar
