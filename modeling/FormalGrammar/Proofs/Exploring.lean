import FormalGrammar.Search.Explore
import FormalGrammar.Proofs.Rewriting

/-!
# The search, visit by visit

`explore_induct` is the induction over a search: one case for each way in which a visit can
end, and one for each way in which a list of replacements can be tried. Three runs of it say
what the search is good for. `explore_steps`: only the last step is on the word, if a path was
found. `explore_leads`: a path that was found is a chain of replacements within the bound.
`explore_gives_up`: the memo and the failures of the search are right about any property of
depth and form that the rules of the search respect.
-/

namespace FormalGrammar.Search

/-! ## How visits end -/

/-- The end of a visit whose replacements have been tried. -/
def Visit.conclude (v : Visit) (depth : Nat) (form : Form) : Visit :=
  { v with
    steps := ⟨depth, form, false⟩ :: v.steps
    memo := if v.path.isSome then v.memo else v.memo.record form depth }

/-- The replacement `r` was tried, and `path` led on from its target to the word. -/
def Visit.through (v : Visit) (r : Replacement) (path : List Replacement) : Visit :=
  { v with path := some (r :: path), children := [.node r.label false v.children] }

/-- The replacement `r` was tried in vain, and then the others were. -/
def Visit.andThen (v : Visit) (r : Replacement) (w : Visit) : Visit :=
  { w with
    children := .node r.label false v.children :: w.children
    steps := v.steps ++ w.steps
    cut := v.cut || w.cut }

theorem tryAll_of_some {visit : Form → Memo → Visit} {r : Replacement} {memo : Memo}
    {path : List Replacement} (h : (visit r.target memo).path = some path)
    (rest : List Replacement) :
    tryAll visit (r :: rest) memo = (visit r.target memo).through r path := by
  simp only [tryAll, h]
  rfl

theorem tryAll_of_none {visit : Form → Memo → Visit} {r : Replacement} {memo : Memo}
    (h : (visit r.target memo).path = none) (rest : List Replacement) :
    tryAll visit (r :: rest) memo =
      (visit r.target memo).andThen r (tryAll visit rest (visit r.target memo).memo) := by
  simp only [tryAll, h]
  rfl

section

variable {q : Query} {left depth : Nat} {form : Form} {memo : Memo}

theorem explore_of_short (h : q.word.length < q.minLength form) :
    explore q (left + 1) depth form memo = .skip false memo := by
  rw [explore, if_pos h]

variable (hs : q.minLength form ≤ q.word.length)

include hs

theorem explore_of_long (hl : q.word.length + left < form.length) :
    explore q (left + 1) depth form memo = .skip true memo := by
  rw [explore, if_neg (Nat.not_lt.mpr hs), if_pos hl]

variable (hl : form.length ≤ q.word.length + left)

include hl

theorem explore_of_known (hk : memo.covers form depth = true) :
    explore q (left + 1) depth form memo = .skip false memo := by
  rw [explore, if_neg (Nat.not_lt.mpr hs), if_neg (Nat.not_lt.mpr hl), if_pos hk]

theorem explore_of_found (hk : memo.covers form depth = false) (hw : form = q.word) :
    explore q (left + 1) depth form memo =
      ⟨some [], [], [⟨depth, form, true⟩], false, memo⟩ := by
  rw [explore, if_neg (Nat.not_lt.mpr hs), if_neg (Nat.not_lt.mpr hl), if_neg (by simp [hk]),
    if_pos hw]

theorem explore_of_expanded (hk : memo.covers form depth = false) (hw : form ≠ q.word) :
    explore q (left + 1) depth form memo =
      (tryAll (explore q left (depth + 1)) (q.replacements form) memo).conclude depth form := by
  rw [explore, if_neg (Nat.not_lt.mpr hs), if_neg (Nat.not_lt.mpr hl), if_neg (by simp [hk]),
    if_neg hw]
  rfl

end

/-- **Induction over a search.** `P` is about the visit of a form, with the number of
replacements left plus one, and `Q` about the replacements tried in one form. A part of the
search is handed on as such, so that what is known of it can be used. -/
theorem explore_induct {q : Query} {P : Nat → Nat → Form → Memo → Visit → Prop}
    {Q : Nat → Nat → List Replacement → Memo → Visit → Prop}
    (deep : ∀ depth form memo, P 0 depth form memo (.skip true memo))
    (short : ∀ left depth form memo, q.word.length < q.minLength form →
      P (left + 1) depth form memo (.skip false memo))
    (long : ∀ left depth form memo, q.minLength form ≤ q.word.length →
      q.word.length + left < form.length → P (left + 1) depth form memo (.skip true memo))
    (known : ∀ left depth form memo, q.minLength form ≤ q.word.length →
      form.length ≤ q.word.length + left → memo.covers form depth = true →
      P (left + 1) depth form memo (.skip false memo))
    (found : ∀ left depth memo, q.minLength q.word ≤ q.word.length →
      memo.covers q.word depth = false →
      P (left + 1) depth q.word memo ⟨some [], [], [⟨depth, q.word, true⟩], false, memo⟩)
    (expanded : ∀ left depth form memo v, q.minLength form ≤ q.word.length →
      form.length ≤ q.word.length + left → memo.covers form depth = false → form ≠ q.word →
      v = tryAll (explore q left (depth + 1)) (q.replacements form) memo →
      Q left depth (q.replacements form) memo v →
      P (left + 1) depth form memo (v.conclude depth form))
    (nothing : ∀ left depth memo, Q left depth [] memo (.skip false memo))
    (through : ∀ left depth r rest memo v path, v = explore q left (depth + 1) r.target memo →
      v.path = some path → P left (depth + 1) r.target memo v →
      Q left depth (r :: rest) memo (v.through r path))
    (next : ∀ left depth r rest memo v w, v = explore q left (depth + 1) r.target memo →
      v.path = none → P left (depth + 1) r.target memo v →
      w = tryAll (explore q left (depth + 1)) rest v.memo → Q left depth rest v.memo w →
      Q left depth (r :: rest) memo (v.andThen r w))
    (left depth : Nat) (form : Form) (memo : Memo) :
    P left depth form memo (explore q left depth form memo) := by
  induction left generalizing depth form memo with
  | zero => exact deep depth form memo
  | succ left ih =>
    have tried : ∀ rs memo, Q left depth rs memo (tryAll (explore q left (depth + 1)) rs memo) := by
      intro rs
      induction rs with
      | nil => exact nothing left depth
      | cons r rest ihr =>
        intro memo
        cases hp : (explore q left (depth + 1) r.target memo).path with
        | none =>
          rw [tryAll_of_none hp]
          exact next _ _ _ _ _ _ _ rfl hp (ih _ _ _) rfl (ihr _)
        | some path =>
          rw [tryAll_of_some hp]
          exact through _ _ _ _ _ _ _ rfl hp (ih _ _ _)
    by_cases hs : q.word.length < q.minLength form
    · rw [explore_of_short hs]
      exact short _ _ _ _ hs
    have hs' := Nat.le_of_not_lt hs
    by_cases hl : q.word.length + left < form.length
    · rw [explore_of_long hs' hl]
      exact long _ _ _ _ hs' hl
    have hl' := Nat.le_of_not_lt hl
    cases hk : memo.covers form depth with
    | true =>
      rw [explore_of_known hs' hl' hk]
      exact known _ _ _ _ hs' hl' hk
    | false =>
      by_cases hw : form = q.word
      · subst hw
        rw [explore_of_found hs' hl' hk rfl]
        exact found _ _ _ hs' hk
      · rw [explore_of_expanded hs' hl' hk hw]
        exact expanded _ _ _ _ _ hs' hl' hk hw rfl (tried _ _)

/-! ## Steps -/

/-- A step on a form that is not the word. -/
def Step.passing (p : Nat × Form) : Step := ⟨p.1, p.2, false⟩

/-- The step on the word at the end of a path, if there is one. -/
def Visit.arrival (v : Visit) (w : Form) (depth : Nat) : List Step :=
  (v.path.map fun rs => ⟨depth + rs.length, w, true⟩).toList

/-- **Only the last step can be a match**, and it is one exactly if a path was found. -/
theorem explore_steps {q : Query} (left depth : Nat) (form : Form) (memo : Memo) :
    ∃ front : List (Nat × Form), (explore q left depth form memo).steps =
      front.map Step.passing ++ (explore q left depth form memo).arrival q.word depth := by
  refine explore_induct (q := q)
    (P := fun _ depth _ _ v => ∃ front : List (Nat × Form),
      v.steps = front.map Step.passing ++ v.arrival q.word depth)
    (Q := fun _ depth _ _ v => ∃ front : List (Nat × Form),
      v.steps = front.map Step.passing ++ v.arrival q.word depth)
    ?deep ?short ?long ?known ?found ?expanded ?nothing ?through ?next left depth form memo
  case deep => exact fun _ _ _ => ⟨[], rfl⟩
  case short => exact fun _ _ _ _ _ => ⟨[], rfl⟩
  case long => exact fun _ _ _ _ _ _ => ⟨[], rfl⟩
  case known => exact fun _ _ _ _ _ _ _ => ⟨[], rfl⟩
  case found => exact fun _ _ _ _ _ => ⟨[], rfl⟩
  case nothing => exact fun _ _ _ => ⟨[], rfl⟩
  case expanded =>
    rintro left depth form memo v - - - - - ⟨front, hv⟩
    refine ⟨(depth, form) :: front, ?_⟩
    show ⟨depth, form, false⟩ :: v.steps = _
    rw [hv]
    rfl
  case through =>
    rintro left depth r rest memo v path - hp ⟨front, hv⟩
    have hd : depth + 1 + path.length = depth + (r :: path).length := by
      rw [List.length_cons]
      omega
    refine ⟨front, hv.trans ?_⟩
    simp only [Visit.arrival, Visit.through, hp, Option.map_some, hd]
  case next =>
    rintro left depth r rest memo v w - hp ⟨front, hv⟩ - ⟨front', hw⟩
    refine ⟨front ++ front', ?_⟩
    have hv' : v.steps = front.map Step.passing := by
      simpa [Visit.arrival, hp] using hv
    show v.steps ++ w.steps = _
    rw [hv', hw, List.map_append, List.append_assoc]
    rfl

/-! ## Paths -/

/-- **A path that was found leads to the word**, within the replacements that were left, and the
last step of the visit is the word at the depth where the path ends. -/
theorem explore_leads {g : Grammar} {w : Form} (left depth : Nat) (form : Form) (memo : Memo)
    (rs : List Replacement) (h : (explore (g.query w) left depth form memo).path = some rs) :
    g.Leads rs form w ∧ rs.length < left ∧
      (explore (g.query w) left depth form memo).steps.getLast? =
        some ⟨depth + rs.length, w, true⟩ := by
  have hlast : (explore (g.query w) left depth form memo).steps.getLast? =
      some ⟨depth + rs.length, w, true⟩ := by
    obtain ⟨front, hsteps⟩ := explore_steps (q := g.query w) left depth form memo
    rw [hsteps, Visit.arrival, h]
    simp [Grammar.query]
  suffices hleads : g.Leads rs form w ∧ rs.length < left from ⟨hleads.1, hleads.2, hlast⟩
  clear hlast
  revert rs
  refine explore_induct (q := g.query w)
    (P := fun left _ form _ v => ∀ rs, v.path = some rs → g.Leads rs form w ∧ rs.length < left)
    (Q := fun left _ rs _ v => ∀ path, v.path = some path →
      ∃ r ∈ rs, ∃ rest, path = r :: rest ∧ g.Leads rest r.target w ∧ rest.length < left)
    ?deep ?short ?long ?known ?found ?expanded ?nothing ?through ?next left depth form memo
  case deep => rintro _ _ _ _ ⟨⟩
  case short => rintro _ _ _ _ _ _ ⟨⟩
  case long => rintro _ _ _ _ _ _ _ ⟨⟩
  case known => rintro _ _ _ _ _ _ _ _ ⟨⟩
  case nothing => rintro _ _ _ _ ⟨⟩
  case found =>
    rintro left depth memo - - rs ⟨⟩
    exact ⟨.nil w, Nat.succ_pos _⟩
  case expanded =>
    intro left depth form memo v _ _ _ _ _ tried rs hrs
    obtain ⟨r, hr, rest, rfl, hl, hlen⟩ := tried rs hrs
    exact ⟨.cons hr hl, Nat.succ_lt_succ hlen⟩
  case through =>
    rintro left depth r rest memo v path - hp visited _ ⟨⟩
    obtain ⟨hl, hlen⟩ := visited path hp
    exact ⟨r, List.mem_cons_self, path, rfl, hl, hlen⟩
  case next =>
    intro left depth r rest memo v w' _ _ _ _ tried path hpath
    obtain ⟨r', hr', found⟩ := tried path hpath
    exact ⟨r', List.mem_cons_of_mem _ hr', found⟩

/-! ## Failures -/

/-- Every entry of the memo is right about `R`, where `R d f` says that the search from `f` at the
depth `d` may be given up. -/
def Upholds (R : Nat → Form → Prop) (memo : Memo) : Prop := ∀ f d, memo[f]? = some d → R d f

/-- The rules by which the search gives a form up for good. -/
structure Query.GivesUp (q : Query) (R : Nat → Form → Prop) : Prop where
  /-- The least yield of the form is too long. -/
  short : ∀ d f, q.word.length < q.minLength f → R d f
  /-- The form has been given up at a smaller depth. -/
  later : ∀ d d' f, d ≤ d' → R d f → R d' f
  /-- All targets have been given up. -/
  expand : ∀ d f, f ≠ q.word → (∀ r ∈ q.replacements f, R (d + 1) r.target) → R d f

/-- The rules by which the search gives a form up because of the bound. -/
structure Query.Bounds (q : Query) (bound : Nat) (R : Nat → Form → Prop) : Prop where
  deep : ∀ f, R (bound + 1) f
  long : ∀ d left f, d + left = bound → q.word.length + left < f.length → R d f

section

variable {R : Nat → Form → Prop} {memo : Memo}

theorem upholds_empty : Upholds R ∅ := by
  intro f d h
  simp at h

theorem Upholds.record (h : Upholds R memo) {f : Form} {d : Nat} (hf : R d f) :
    Upholds R (memo.record f d) := by
  intro f' d' hd
  rw [Memo.getElem?_record] at hd
  split at hd
  · next he =>
    cases hd
    exact he ▸ hf
  · exact h f' d' hd

theorem Upholds.of_covers (h : Upholds R memo) (later : ∀ d d' f, d ≤ d' → R d f → R d' f)
    {f : Form} {d : Nat} (hc : memo.covers f d = true) : R d f := by
  unfold Memo.covers at hc
  split at hc
  · next d' hd => exact later d' d f (by simpa using hc) (h f d' hd)
  · cases hc

end

/-- **What the search gives up may be given up.** If the rules for good respect `R`, and those of
the bound do or were never used, then the memo stays right about `R`, and so is a visit that
has found nothing. -/
theorem explore_gives_up {q : Query} {R : Nat → Form → Prop} {bound : Nat} (hR : q.GivesUp R)
    (left depth : Nat) (form : Form) (memo : Memo) (hd : depth + left = bound + 1)
    (hm : Upholds R memo)
    (hcut : (explore q left depth form memo).cut = true → q.Bounds bound R) :
    Upholds R (explore q left depth form memo).memo ∧
      ((explore q left depth form memo).path = none → R depth form) := by
  revert hd hm hcut
  refine explore_induct (q := q)
    (P := fun left depth form memo v => depth + left = bound + 1 → Upholds R memo →
      (v.cut = true → q.Bounds bound R) → Upholds R v.memo ∧ (v.path = none → R depth form))
    (Q := fun left depth rs memo v => depth + left = bound → Upholds R memo →
      (v.cut = true → q.Bounds bound R) →
      Upholds R v.memo ∧ (v.path = none → ∀ r ∈ rs, R (depth + 1) r.target))
    ?deep ?short ?long ?known ?found ?expanded ?nothing ?through ?next left depth form memo
  case deep =>
    intro depth form memo hd hm hcut
    refine ⟨hm, fun _ => ?_⟩
    rw [show depth = bound + 1 from hd]
    exact (hcut rfl).deep form
  case short =>
    intro left depth form memo hs hd hm _
    exact ⟨hm, fun _ => hR.short depth form hs⟩
  case long =>
    intro left depth form memo _ hl hd hm hcut
    exact ⟨hm, fun _ => (hcut rfl).long depth left form (by omega) hl⟩
  case known =>
    intro left depth form memo _ _ hk hd hm _
    exact ⟨hm, fun _ => hm.of_covers hR.later hk⟩
  case found =>
    intro left depth memo _ _ _ hm _
    exact ⟨hm, fun h => nomatch h⟩
  case expanded =>
    intro left depth form memo v _ _ _ hw _ tried hd hm hcut
    obtain ⟨hmv, hv⟩ := tried (by omega) hm hcut
    cases hp : v.path with
    | some path => exact ⟨by simpa [Visit.conclude, hp] using hmv, by simp [Visit.conclude, hp]⟩
    | none =>
      have hf : R depth form := hR.expand depth form hw (hv hp)
      refine ⟨?_, fun _ => hf⟩
      simpa [Visit.conclude, hp] using hmv.record hf
  case nothing =>
    intro left depth memo _ hm _
    exact ⟨hm, by simp⟩
  case through =>
    intro left depth r rest memo v path _ _ visited hd hm hcut
    exact ⟨(visited (by omega) hm hcut).1, fun h => nomatch h⟩
  case next =>
    intro left depth r rest memo v w _ hp visited _ tried hd hm hcut
    -- A cut in either part is a cut of the whole.
    have hcv : v.cut = true → q.Bounds bound R := fun h => hcut (by simp [Visit.andThen, h])
    have hcw : w.cut = true → q.Bounds bound R := fun h => hcut (by simp [Visit.andThen, h])
    obtain ⟨hmv, hv⟩ := visited (by omega) hm hcv
    obtain ⟨hmw, hw⟩ := tried hd hmv hcw
    refine ⟨hmw, fun h r' hr' => ?_⟩
    rcases List.mem_cons.mp hr' with rfl | hr'
    · exact hv hp
    · exact hw h r' hr'

end FormalGrammar.Search
