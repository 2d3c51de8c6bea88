import FormalGrammar.Proofs.Verdicts

/-!
# The tree of a member

The tree of an analysis holds a node for every replacement that was tried, with the failed
ones among them, and no node tells which form it stands for. A `FormTree` gives a form to every
node. The nodes that a visit leaves behind can be given forms such that each child is one rewrite
of its parent (`explore_grown`); the steps of the visit are then among its nodes, in pre-order,
and a path that was found is the way along the last children, because a find ends every visit
that surrounds it.

Main statement: `Analysis.tree_of_run_member`.
-/

namespace FormalGrammar

/-- A tree with a form at every node. -/
inductive FormTree where
  | node (form : Form) (label : Text) (children : List FormTree)

namespace FormTree

def form : FormTree → Form
  | node f _ _ => f

def label : FormTree → Text
  | node _ l _ => l

mutual

/-- The tree without its forms. -/
def bare : FormTree → Tree
  | node _ l us => .node l false (bareAll us)

def bareAll : List FormTree → List Tree
  | [] => []
  | u :: us => bare u :: bareAll us

end

mutual

/-- The level and the form of every node, in pre-order, where the root is on a given level. -/
def places (level : Nat) : FormTree → List (Nat × Form)
  | node f _ us => (level, f) :: placesAll (level + 1) us

def placesAll (level : Nat) : List FormTree → List (Nat × Form)
  | [] => []
  | u :: us => places level u ++ placesAll level us

end

/-- The last child of the last child and so on, `n` nodes below the root, is a leaf with the
form `f`. -/
inductive EndsIn : FormTree → Nat → Form → Prop
  | leaf (f : Form) (l : Text) : EndsIn (node f l []) 0 f
  | last {u : FormTree} {n : Nat} {f : Form} (f' : Form) (l : Text) (us : List FormTree) :
      EndsIn u n f → EndsIn (node f' l (us ++ [u])) (n + 1) f

theorem EndsIn.cons {f f' : Form} {l : Text} {us : List FormTree} {n : Nat}
    (h : EndsIn (node f l us) (n + 1) f') (u : FormTree) : EndsIn (node f l (u :: us)) (n + 1) f' := by
  cases h with
  | last _ _ us h => exact .last f l (u :: us) h

/-- The root of `u` has the form that `f` becomes when one occurrence of a nonterminal is replaced,
and is labelled with the production. -/
def Results (g : Grammar) (f : Form) (u : FormTree) : Prop :=
  ∃ before x body after, x ∈ g.nonterminals ∧ (x, body) ∈ g.productions ∧
    f = before ++ x :: after ∧ u.form = before ++ body ++ after ∧
    u.label = Grammar.productionText x body

/-- Every node but the root results from the form of its parent. -/
inductive Rewritten (g : Grammar) : FormTree → Prop
  | node {f : Form} {l : Text} {us : List FormTree} :
      (∀ u ∈ us, Results g f u) → (∀ u ∈ us, Rewritten g u) → Rewritten g (node f l us)

end FormTree

namespace Search

open FormTree

/-! ## Trees -/

theorem Step.line_of_match (depth : Nat) (w : Form) : Step.line ⟨depth, w, true⟩ =
    Nat.toDigits 10 depth ++ ". ".toList ++ w.text ++ " (match)".toList := by
  simp [Step.line]

/-- The level and the form of a step. -/
def Step.place (s : Step) : Nat × Form := (s.depth, s.form)

/-- A replacement in a form gives a node that results from it. -/
theorem results_of_mem {g : Grammar} (hg : g.WellFormed) {f : Form} {r : Replacement}
    (hr : r ∈ g.replacements f) (us : List FormTree) :
    Results g f (.node r.target r.label us) := by
  obtain ⟨hs, hn, hp⟩ := (Grammar.mem_replacements_iff hg).mp hr
  exact ⟨r.before, r.lhs, r.body, r.after, hn, hp, hs.symm, rfl, rfl⟩

/-- The nodes that a visit of `form` leaves behind, with forms given to them. -/
structure Grown (g : Grammar) (w form : Form) (v : Visit) (us : List FormTree) : Prop where
  bare : bareAll us = v.children
  results : ∀ u ∈ us, Results g form u
  rewritten : ∀ u ∈ us, Rewritten g u
  /-- A path that was found is the way along the last children. -/
  ends : ∀ rs, v.path = some rs → ∀ l, EndsIn (.node form l us) rs.length w

section

variable {g : Grammar} {w form : Form} {v v' : Visit} {us us' : List FormTree} {r : Replacement}

theorem Grown.skip (cut : Bool) (memo : Memo) : Grown g w form (.skip cut memo) [] where
  bare := rfl
  results := by simp
  rewritten := by simp
  ends := by simp [Visit.skip]

theorem Grown.found (steps : List Step) (cut : Bool) (memo : Memo) :
    Grown g w w ⟨some [], [], steps, cut, memo⟩ [] where
  bare := rfl
  results := by simp
  rewritten := by simp
  ends := by
    rintro rs ⟨⟩ l
    exact .leaf w l

theorem Grown.conclude (h : Grown g w form v us) (depth : Nat) :
    Grown g w form (v.conclude depth form) us where
  bare := h.bare
  results := h.results
  rewritten := h.rewritten
  ends := h.ends

/-- The node of a replacement above the nodes that the visit of its target leaves behind. -/
theorem Grown.rewritten_node (h : Grown g w r.target v us) :
    Rewritten g (.node r.target r.label us) :=
  .node h.results h.rewritten

/-- The last child that was tried is the way to the word. -/
theorem Grown.through (h : Grown g w r.target v us) (hr : Results g form (.node r.target r.label us))
    {path : List Replacement} (hp : v.path = some path) :
    Grown g w form (v.through r path) [.node r.target r.label us] where
  bare := by simp [bareAll, FormTree.bare, Visit.through, h.bare]
  results := by simpa using hr
  rewritten := by simpa using h.rewritten_node
  ends := by
    rintro rs ⟨⟩ l
    exact .last form l [] (h.ends path hp r.label)

/-- Children tried in vain stand before the others. -/
theorem Grown.andThen (h : Grown g w r.target v us)
    (hr : Results g form (.node r.target r.label us)) (h' : Grown g w form v' us')
    (hne : v'.path ≠ some []) :
    Grown g w form (v.andThen r v') (.node r.target r.label us :: us') where
  bare := by simp [bareAll, FormTree.bare, Visit.andThen, h.bare, h'.bare]
  results := by simpa using ⟨hr, h'.results⟩
  rewritten := by simpa using ⟨h.rewritten_node, h'.rewritten⟩
  ends := by
    intro rs hrs l
    cases rs with
    | nil => exact absurd hrs hne
    | cons r' rs => exact (h'.ends _ hrs l).cons _

end

/-- **The nodes that a visit leaves behind can be given forms**, and its steps are among them. -/
theorem explore_grown {g : Grammar} (hg : g.WellFormed) {w : Form} (left depth : Nat) (form : Form)
    (memo : Memo) :
    ∃ us, Grown g w form (explore (g.query w) left depth form memo) us ∧
      ((explore (g.query w) left depth form memo).steps.map Step.place).Sublist
        ((depth, form) :: placesAll (depth + 1) us) := by
  refine explore_induct (q := g.query w)
    (P := fun _ depth form _ v => ∃ us, Grown g w form v us ∧
      (v.steps.map Step.place).Sublist ((depth, form) :: placesAll (depth + 1) us))
    (Q := fun _ depth rs _ v => v.path ≠ some [] ∧
      ∀ form, (∀ r ∈ rs, r ∈ g.replacements form) → ∃ us, Grown g w form v us ∧
        (v.steps.map Step.place).Sublist (placesAll (depth + 1) us))
    ?deep ?short ?long ?known ?found ?expanded ?nothing ?through ?next left depth form memo
  case deep => exact fun _ _ memo => ⟨[], .skip true memo, List.nil_sublist _⟩
  case short => exact fun _ _ _ memo _ => ⟨[], .skip false memo, List.nil_sublist _⟩
  case long => exact fun _ _ _ memo _ _ => ⟨[], .skip true memo, List.nil_sublist _⟩
  case known => exact fun _ _ _ memo _ _ _ => ⟨[], .skip false memo, List.nil_sublist _⟩
  case found => exact fun _ depth memo _ _ => ⟨[], .found _ false memo, List.Sublist.refl _⟩
  case nothing =>
    exact fun _ _ memo => ⟨nofun, fun _ _ => ⟨[], .skip false memo, List.nil_sublist _⟩⟩
  case expanded =>
    rintro left depth form memo v - - - - - ⟨-, tried⟩
    obtain ⟨us, hus, hs⟩ := tried form fun _ hr => hr
    exact ⟨us, hus.conclude depth, hs.cons_cons _⟩
  case through =>
    rintro left depth r rest memo v path - hp ⟨us, hus, hs⟩
    refine ⟨nofun, fun form hrs => ?_⟩
    have hr := results_of_mem hg (hrs r List.mem_cons_self) us
    refine ⟨_, hus.through hr hp, ?_⟩
    simpa [placesAll, places, Visit.through] using hs
  case next =>
    rintro left depth r rest memo v v' - hp ⟨us, hus, hs⟩ - ⟨hne, tried⟩
    refine ⟨hne, fun form hrs => ?_⟩
    obtain ⟨us', hus', hs'⟩ := tried form fun r' hr' => hrs r' (List.mem_cons_of_mem r hr')
    have hr := results_of_mem hg (hrs r List.mem_cons_self) us
    refine ⟨_, hus.andThen hr hus' hne, ?_⟩
    show ((v.steps ++ v'.steps).map Step.place).Sublist _
    rw [List.map_append]
    exact hs.append hs'

/-- **The tree above a path that was found**, with forms given to its nodes. -/
theorem search_grown {g : Grammar} (hg : g.WellFormed) {w : Form} {bound : Nat}
    {rs : List Replacement} (hrs : (g.search w bound).path = some rs) :
    ∃ (u : FormTree) (front : List (Nat × Form)),
      u.bare = (g.search w bound).tree g.startForm ∧ u.label = g.startForm ∧
      u.form = g.startForm ∧ u.Rewritten g ∧ u.EndsIn rs.length w ∧ rs.length ≤ bound ∧
      (g.search w bound).steps = front.map Step.passing ++ [⟨rs.length, w, true⟩] ∧
      (front ++ [(rs.length, w)]).Sublist (u.places 0) := by
  obtain ⟨us, hus, hplaces⟩ := explore_grown (w := w) hg (bound + 1) 0 g.startForm ∅
  obtain ⟨front, hfront⟩ := explore_steps (q := g.query w) (bound + 1) 0 g.startForm ∅
  obtain ⟨-, hlen, -⟩ := explore_leads (bound + 1) 0 g.startForm ∅ rs hrs
  have hsteps : (g.search w bound).steps = front.map Step.passing ++ [⟨rs.length, w, true⟩] := by
    have ha : (g.search w bound).arrival w 0 = [⟨rs.length, w, true⟩] := by
      simp [Visit.arrival, hrs]
    rw [← ha]
    exact hfront
  refine ⟨.node g.startForm g.startForm us, front, ?_, rfl, rfl, .node hus.results hus.rewritten,
    hus.ends rs hrs g.startForm, Nat.le_of_lt_succ hlen, hsteps, ?_⟩
  · rw [FormTree.bare, hus.bare]
    rfl
  · have hplace : (g.search w bound).steps.map Step.place = front ++ [(rs.length, w)] := by
      simp [hsteps, Step.place, Step.passing, Function.comp_def]
    rw [← hplace]
    exact hplaces

end Search

/-! ## Results -/

theorem Result.tree_make {verdict : Verdict} (h : verdict ≠ .member) (word : Text)
    (tree : Option Tree) (trace : List Text) (error : Value) :
    (make word verdict tree trace error).tree = none := by
  rw [make, if_neg h]

/-- A result that is built from values is made from their contents. -/
theorem Result.make_of_build {word verdict tree trace error : Value} {r : Result}
    (h : build word verdict tree trace error = .ok r) :
    ∃ word verdict tree trace, r = make word verdict tree trace error := by
  simp only [build, bind, Except.bind] at h
  repeat' split at h
  all_goals cases h
  all_goals exact ⟨_, _, _, _, rfl⟩

namespace Analysis

open Grammar Search

variable {b : RuleBook} {bound : Nat} {word : Text} {j : Journal} {r : Result}

/-- A member is only found in a valid grammar, which has a start symbol. -/
theorem start_of_run_member (h : (run b bound word j).1 = .ok r) (hm : r.verdict = .member) :
    ∃ s, b.grammar.start = some s := by
  cases hv : b.grammar.isValid with
  | false =>
    unfold run at h
    rw [hv, Bool.not_false, if_pos rfl] at h
    split at h
    · cases h
    · cases h
      cases hm
  | true => exact start_of_isValid hv

/-- **The tree of a member is a witness.** Forms can be given to its nodes, the start form to the
root, such that every other node results from its parent by the production that it is labelled
with. The way along the last children is a derivation of the word within the bound, and the last
line of the trace tells its length and the word. The lines of the trace tell the level and the
form of nodes, in pre-order. Results that are no members have no tree, also those that are built
from values. -/
theorem tree_of_run_member (hg : b.grammar.Reachable) (hr : (run b bound word j).1 = .ok r) :
    (r.verdict = .member → ∃ (s : Char) (u : FormTree) (n : Nat) (front : List (Nat × Form)),
      b.grammar.start = some s ∧ r.tree = some u.bare ∧ u.label = [s] ∧ u.form = [s] ∧
      u.Rewritten b.grammar ∧ u.EndsIn n word ∧ n ≤ bound ∧
      r.trace = front.map (fun p => (Step.passing p).line) ++
        [Nat.toDigits 10 n ++ ". ".toList ++ Form.text word ++ " (match)".toList] ∧
      (front ++ [(n, word)]).Sublist (u.places 0)) ∧
    (r.verdict ≠ .member → r.tree = none) ∧
    ∀ word verdict tree trace error r', Result.build word verdict tree trace error = .ok r' →
      r'.verdict ≠ .member → r'.tree = none := by
  refine ⟨fun hm => ?_, fun hm => ?_, fun _ _ _ _ _ r' hr' hm => ?_⟩
  · obtain ⟨s, hs⟩ := start_of_run_member hr hm
    have hstart := startForm_of_start hs
    rcases result_of_run hr with rfl | ⟨f, rfl⟩ | rfl
    · cases hm
    · cases hm
    have hv := hm
    rw [verdict_ofVisit, Visit.verdict_eq_member_iff] at hv
    obtain ⟨rs, hrs⟩ := Option.isSome_iff_exists.mp hv
    obtain ⟨u, front, hbare, hlabel, hform, hu, hends, hlen, hsteps, hplaces⟩ :=
      search_grown hg.wellFormed hrs
    refine ⟨s, u, rs.length, front, hs, ?_, hlabel.trans hstart, hform.trans hstart, hu, hends,
      hlen, ?_, hplaces⟩
    · rw [hbare]
      exact if_pos hm
    · simp only [trace_ofVisit, hsteps, List.map_append, List.map_map, List.map_singleton,
        Step.line_of_match]
      rfl
  · rcases result_of_run hr with rfl | ⟨f, rfl⟩ | rfl
    · rfl
    · rfl
    · exact Result.tree_make hm _ _ _ _
  · obtain ⟨_, _, _, _, rfl⟩ := Result.make_of_build hr'
    exact Result.tree_make hm _ _ _ _

/-- The word `aa` takes three rewrites, and the trace and the tree show failed ones as well. -/
theorem tree_of_run_member_doubling :
    ∃ r, (run { grammar := doubling } 3 ['a', 'a'] none).1 = .ok r ∧ r.verdict = .member ∧
      r.trace.length = 6 ∧ ∃ u n, r.tree = some (FormTree.bare u) ∧ u.Rewritten doubling ∧
        u.EndsIn n ['a', 'a'] ∧ n ≤ 3 := by
  have hr := run_of_isOpen (g := doubling) (by decide) 3 ['a', 'a'] Journal.isOpen_none
  refine ⟨_, hr, by decide, by decide, ?_⟩
  obtain ⟨s, u, n, front, -, htree, -, -, hu, hends, hn, -⟩ :=
    (tree_of_run_member doubling_reachable hr).1 (by decide)
  exact ⟨u, n, htree, hu, hends, hn⟩

end Analysis

end FormalGrammar
