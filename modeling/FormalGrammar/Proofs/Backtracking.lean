import FormalGrammar.Proofs.Remembering
import FormalGrammar.Proofs.Verdicts
import Mathlib.Logic.Function.Iterate

/-!
# The search, moment by moment

Here the search is a loop over the moves that are still to be made. A form is entered at a depth,
and unless it is skipped or is the word, it is in progress while its targets are entered at the next
depth. When they have all come to nothing it is left, and the memo records it. With each form that
it enters, the loop does what `explore` does (`reaches_explore`). But `explore` only hands the memo
on, and the loop shows it at every moment.

`Grammar.Sound` is what holds at every moment. A form in progress waits for its targets, as far as
they are not known to be out of reach. All that is done until it is left is done at greater depths,
and recorded there, even where the form itself is entered again. So when it is left, it waits for
nothing any more, and its entry is new or becomes smaller.

Main statement: `Grammar.memo_throughout`.
-/

namespace FormalGrammar

namespace Search

/-! ## The loop -/

/-- What the search does with a form at a depth. -/
inductive Move where
  | enter (depth : Nat) (form : Form)
  | leave (depth : Nat) (form : Form)
  deriving DecidableEq

def Move.depth : Move → Nat
  | enter d _ => d
  | leave d _ => d

def Move.form : Move → Form
  | enter _ f => f
  | leave _ f => f

/-- A moment of the search: what is to be done, and what all visits share. -/
structure State where
  todo : List Move
  memo : Memo
  cut : Bool
  steps : List Step

def State.start (form : Form) : State := ⟨[.enter 0 form], ∅, false, []⟩

/-- Whether a form is skipped, and if so, whether because of the bound. -/
def Query.skip? (q : Query) (bound depth : Nat) (form : Form) (memo : Memo) : Option Bool :=
  if bound < depth then some true
  else if q.word.length < q.minLength form then some false
  else if q.word.length + (bound - depth) < form.length then some true
  else if memo.covers form depth then some false
  else none

theorem Query.skip?_eq_none_iff {q : Query} {bound depth : Nat} {form : Form} {memo : Memo} :
    q.skip? bound depth form memo = none ↔ depth ≤ bound ∧ q.minLength form ≤ q.word.length ∧
      form.length ≤ q.word.length + (bound - depth) ∧ memo.covers form depth = false := by
  unfold Query.skip?
  split_ifs with hd hs hl hk
  · exact ⟨nofun, fun h => absurd h.1 (by omega)⟩
  · exact ⟨nofun, fun h => absurd h.2.1 (by omega)⟩
  · exact ⟨nofun, fun h => absurd h.2.2.1 (by omega)⟩
  · exact ⟨nofun, fun h => absurd h.2.2.2 (by simp [hk])⟩
  · exact ⟨fun _ => ⟨by omega, by omega, by omega, by simpa using hk⟩, fun _ => rfl⟩

/-- The moves for a form that is expanded: its targets are entered, and then it is left. -/
def Query.moves (q : Query) (depth : Nat) (form : Form) : List Move :=
  (q.replacements form).map (fun r => .enter (depth + 1) r.target) ++ [.leave depth form]

namespace State

/-- Make the first of the moves that are to be made. None is left once the word is found. -/
def next (q : Query) (bound : Nat) (s : State) : State :=
  match s.todo with
  | [] => s
  | .leave depth form :: rest => { s with todo := rest, memo := s.memo.record form depth }
  | .enter depth form :: rest =>
    match q.skip? bound depth form s.memo with
    | some cut => { s with todo := rest, cut := s.cut || cut }
    | none =>
      if form = q.word then
        { s with todo := [], steps := s.steps ++ [⟨depth, form, true⟩] }
      else
        { s with
          todo := q.moves depth form ++ rest
          steps := s.steps ++ [⟨depth, form, false⟩] }

section

variable {q : Query} {bound depth : Nat} {form : Form} {rest : List Move} {memo : Memo} {cut : Bool}
  {steps : List Step}

theorem next_leave : next q bound ⟨.leave depth form :: rest, memo, cut, steps⟩ =
    ⟨rest, memo.record form depth, cut, steps⟩ :=
  rfl

theorem next_of_skipped {c : Bool} (h : q.skip? bound depth form memo = some c) :
    next q bound ⟨.enter depth form :: rest, memo, cut, steps⟩ = ⟨rest, memo, cut || c, steps⟩ := by
  simp only [next, h]

theorem next_of_found (h : q.skip? bound depth q.word memo = none) :
    next q bound ⟨.enter depth q.word :: rest, memo, cut, steps⟩ =
      ⟨[], memo, cut, steps ++ [⟨depth, q.word, true⟩]⟩ := by
  simp only [next, h, ↓reduceIte]

theorem next_of_expanded (h : q.skip? bound depth form memo = none) (hw : form ≠ q.word) :
    next q bound ⟨.enter depth form :: rest, memo, cut, steps⟩ =
      ⟨q.moves depth form ++ rest, memo, cut, steps ++ [⟨depth, form, false⟩]⟩ := by
  simp only [next, h, hw, ↓reduceIte]

/-- **What one move can change.** -/
theorem next_cases {P : State → State → Prop}
    (done : ∀ memo cut steps, P ⟨[], memo, cut, steps⟩ ⟨[], memo, cut, steps⟩)
    (left : ∀ depth form rest memo cut steps, P ⟨.leave depth form :: rest, memo, cut, steps⟩
      ⟨rest, memo.record form depth, cut, steps⟩)
    (skipped : ∀ depth form rest memo cut steps c, q.skip? bound depth form memo = some c →
      P ⟨.enter depth form :: rest, memo, cut, steps⟩ ⟨rest, memo, cut || c, steps⟩)
    (found : ∀ depth rest memo cut steps, P ⟨.enter depth q.word :: rest, memo, cut, steps⟩
      ⟨[], memo, cut, steps ++ [⟨depth, q.word, true⟩]⟩)
    (expanded : ∀ depth form rest memo cut steps, q.skip? bound depth form memo = none →
      form ≠ q.word → P ⟨.enter depth form :: rest, memo, cut, steps⟩
        ⟨q.moves depth form ++ rest, memo, cut, steps ++ [⟨depth, form, false⟩]⟩)
    (s : State) : P s (s.next q bound) := by
  obtain ⟨todo, memo, cut, steps⟩ := s
  cases todo with
  | nil => exact done memo cut steps
  | cons t rest =>
    cases t with
    | leave depth form => exact left depth form rest memo cut steps
    | enter depth form =>
      cases h : q.skip? bound depth form memo with
      | some c =>
        rw [next_of_skipped h]
        exact skipped depth form rest memo cut steps c h
      | none =>
        by_cases hw : form = q.word
        · subst hw
          rw [next_of_found h]
          exact found depth rest memo cut steps
        · rw [next_of_expanded h hw]
          exact expanded depth form rest memo cut steps h hw

end

/-- Some number of moves leads from one moment to the other. -/
def Reaches (q : Query) (bound : Nat) (s s' : State) : Prop := ∃ n, (next q bound)^[n] s = s'

variable {q : Query} {bound : Nat} {s s' s'' : State}

theorem Reaches.refl (s : State) : Reaches q bound s s := ⟨0, rfl⟩

theorem Reaches.head (h : Reaches q bound (s.next q bound) s') : Reaches q bound s s' := by
  obtain ⟨n, hn⟩ := h
  exact ⟨n + 1, hn⟩

theorem Reaches.trans (h : Reaches q bound s s') (h' : Reaches q bound s' s'') :
    Reaches q bound s s'' := by
  obtain ⟨m, rfl⟩ := h
  obtain ⟨n, rfl⟩ := h'
  exact ⟨n + m, Function.iterate_add_apply _ n m s⟩

/-- What one move keeps, any number of moves keeps. -/
theorem Reaches.keeps {P : State → Prop} (h : Reaches q bound s s')
    (step : ∀ s, P s → P (s.next q bound)) (hs : P s) : P s' := by
  obtain ⟨n, rfl⟩ := h
  induction n generalizing s with
  | zero => exact hs
  | succ n ih => exact ih (step s hs)

end State

open State

/-! ## The loop and the recursion -/

/-- The moment at which a visit has ended, with `rest` to come after it unless it has found the
word. -/
def Visit.ending (v : Visit) (rest : List Move) (cut : Bool) (steps : List Step) : State :=
  ⟨match v.path with | some _ => [] | none => rest, v.memo, cut || v.cut, steps ++ v.steps⟩

section

variable {q : Query} {bound depth : Nat} {form : Form}

theorem Visit.ending_nil (v : Visit) : v.ending [] false [] = ⟨[], v.memo, v.cut, v.steps⟩ := by
  cases v with
  | mk path children steps cut memo => cases path <;> rfl

theorem reaches_skip {memo : Memo} {c : Bool} (h : q.skip? bound depth form memo = some c)
    (rest : List Move) (cut : Bool) (steps : List Step) :
    Reaches q bound ⟨.enter depth form :: rest, memo, cut, steps⟩
      ((Visit.skip c memo).ending rest cut steps) := by
  refine .head ?_
  rw [next_of_skipped h, Visit.ending, Visit.skip, List.append_nil]
  exact .refl _

/-- **The loop does with a form what `explore` does.** -/
theorem reaches_explore (left depth : Nat) (form : Form) (memo : Memo)
    (hd : bound + 1 - depth = left) (rest : List Move) (cut : Bool) (steps : List Step) :
    Reaches q bound ⟨.enter depth form :: rest, memo, cut, steps⟩
      ((explore q left depth form memo).ending rest cut steps) := by
  revert hd rest cut steps
  refine explore_induct (q := q)
    (P := fun left depth form memo v => bound + 1 - depth = left → ∀ rest cut steps,
      Reaches q bound ⟨.enter depth form :: rest, memo, cut, steps⟩ (v.ending rest cut steps))
    (Q := fun left depth rs memo v => bound = depth + left → ∀ rest cut steps,
      Reaches q bound ⟨rs.map (fun r => .enter (depth + 1) r.target) ++ rest, memo, cut, steps⟩
        (v.ending rest cut steps))
    ?deep ?short ?long ?known ?found ?expanded ?nothing ?through ?next left depth form memo
  case deep =>
    intro depth form memo hd
    refine reaches_skip ?_
    rw [Query.skip?, if_pos (by omega)]
  case short =>
    intro left depth form memo hs hd
    refine reaches_skip ?_
    rw [Query.skip?, if_neg (by omega), if_pos hs]
  case long =>
    intro left depth form memo hs hl hd
    refine reaches_skip ?_
    rw [Query.skip?, if_neg (by omega), if_neg (by omega), if_pos (by omega)]
  case known =>
    intro left depth form memo hs hl hk hd
    refine reaches_skip ?_
    rw [Query.skip?, if_neg (by omega), if_neg (by omega), if_neg (by omega), if_pos hk]
  case found =>
    intro left depth memo hs hk hd rest cut steps
    have hskip : q.skip? bound depth q.word memo = none :=
      Query.skip?_eq_none_iff.mpr ⟨by omega, hs, by omega, hk⟩
    refine .head ?_
    rw [next_of_found hskip]
    simpa [Visit.ending] using Reaches.refl _
  case expanded =>
    intro left depth form memo v hs hl hk hw _ tried hd rest cut steps
    have hskip : q.skip? bound depth form memo = none :=
      Query.skip?_eq_none_iff.mpr ⟨by omega, hs, by omega, hk⟩
    refine .head ?_
    rw [next_of_expanded hskip hw, Query.moves, List.append_assoc, List.singleton_append]
    refine (tried (by omega) (.leave depth form :: rest) cut _).trans ?_
    cases hp : v.path with
    | some path => simpa [Visit.ending, Visit.conclude, hp] using Reaches.refl _
    | none =>
      -- All targets have come to nothing, so the form is left.
      refine .head ?_
      simpa [Visit.ending, Visit.conclude, hp, next_leave] using Reaches.refl _
  case nothing =>
    intro left depth memo _ rest cut steps
    simpa [Visit.ending, Visit.skip] using Reaches.refl _
  case through =>
    intro left depth r rs memo v path _ hp visited hd rest cut steps
    simpa [Visit.ending, Visit.through, hp] using visited (by omega) (_ ++ rest) cut steps
  case next =>
    intro left depth r rs memo v w _ hp visited _ tried hd rest cut steps
    refine (visited (by omega) (_ ++ rest) cut steps).trans ?_
    simpa [Visit.ending, Visit.andThen, hp, Bool.or_assoc] using
      tried hd rest (cut || v.cut) (steps ++ v.steps)

end

/-! ## What one move changes -/

section

variable {q : Query} {bound : Nat} {s : State}

theorem State.next_cut (h : s.cut = true) : (s.next q bound).cut = true := by
  revert h
  refine State.next_cases (P := fun s s' => s.cut = true → s'.cut = true)
    ?done ?left ?skipped ?found ?expanded s
  case done => exact fun _ _ _ h => h
  case left => exact fun _ _ _ _ _ _ h => h
  case skipped => exact fun _ _ _ _ _ _ c _ h => Bool.or_eq_true_iff.mpr (.inl h)
  case found => exact fun _ _ _ _ _ h => h
  case expanded => exact fun _ _ _ _ _ _ _ _ h => h

theorem State.next_memo_of_leave {d : Nat} {f : Form} (h : s.todo.head? = some (.leave d f)) :
    (s.next q bound).memo = s.memo.record f d := by
  obtain ⟨todo, memo, cut, steps⟩ := s
  obtain ⟨rest, rfl⟩ := List.head?_eq_some_iff.mp h
  rfl

/-- The memo changes only when a form is left. -/
theorem State.next_memo_of_not_leave (h : ∀ d f, s.todo.head? ≠ some (.leave d f)) :
    (s.next q bound).memo = s.memo := by
  revert h
  refine State.next_cases
    (P := fun s s' => (∀ d f, s.todo.head? ≠ some (.leave d f)) → s'.memo = s.memo)
    ?done ?left ?skipped ?found ?expanded s
  case done => exact fun _ _ _ _ => rfl
  case left => exact fun depth form _ _ _ _ h => absurd rfl (h depth form)
  case skipped => exact fun _ _ _ _ _ _ _ _ _ => rfl
  case found => exact fun _ _ _ _ _ _ => rfl
  case expanded => exact fun _ _ _ _ _ _ _ _ _ => rfl

end

/-! ## The order of the moves -/

/-- May be made after a move at the depth `d`: nothing deeper comes later, and a form is left only
after all moves at its own depth and at greater ones. -/
def Move.MayFollow (d : Nat) : Move → Prop
  | .enter d' _ => d' ≤ d
  | .leave d' _ => d' < d

theorem Move.MayFollow.depth_le {d : Nat} {t : Move} (h : t.MayFollow d) : t.depth ≤ d := by
  cases t with
  | enter d' f => exact h
  | leave d' f => exact Nat.le_of_lt h

theorem Move.MayFollow.mono {d d' : Nat} {t : Move} (h : t.MayFollow d) (hd : d ≤ d') :
    t.MayFollow d' := by
  cases t with
  | enter _ f => exact Nat.le_trans h hd
  | leave _ f => exact Nat.lt_of_lt_of_le h hd

section

variable {q : Query} {d : Nat} {f : Form} {t : Move}

theorem mem_moves_iff : t ∈ q.moves d f ↔
    (∃ r ∈ q.replacements f, t = .enter (d + 1) r.target) ∨ t = .leave d f := by
  simp only [Query.moves, List.mem_append, List.mem_map, List.mem_singleton, eq_comm]

theorem le_depth_of_mem_moves (h : t ∈ q.moves d f) : d ≤ t.depth := by
  rcases mem_moves_iff.mp h with ⟨r, -, rfl⟩ | rfl
  · exact Nat.le_succ d
  · exact Nat.le_refl d

theorem pairwise_moves (q : Query) (d : Nat) (f : Form) :
    (q.moves d f).Pairwise fun t u => u.MayFollow t.depth := by
  refine List.pairwise_append.mpr ⟨?_, List.pairwise_singleton _ _, fun t ht u hu => ?_⟩
  · rw [List.pairwise_map]
    exact List.pairwise_of_forall fun _ _ => Nat.le_refl (d + 1)
  · obtain ⟨r, -, rfl⟩ := List.mem_map.mp ht
    rw [List.mem_singleton.mp hu]
    exact Nat.lt_succ_self d

end

end Search

namespace Grammar

open Search

variable {g : Grammar} {w : Form} {bound d d' : Nat} {f f' : Form} {t : Move} {rest : List Move}
  {memo : Memo} {cut : Bool} {steps : List Step}

/-! ## Forms in progress -/

/-- Each target of a form is out of reach or among what is still to be done. -/
def WaitsFor (g : Grammar) (w : Form) (bound : Nat) (todo : List Move) (d : Nat) (f : Form) :
    Prop :=
  ∀ r ∈ g.replacements f, g.OutOfReach w bound (d + 1) r.target ∨
    ∃ t ∈ todo, t.depth = d + 1 ∧ t.form = r.target

theorem WaitsFor.tail (h : g.WaitsFor w bound (t :: rest) d f)
    (ht : g.OutOfReach w bound t.depth t.form) : g.WaitsFor w bound rest d f := by
  intro r hr
  rcases h r hr with hout | ⟨t', hmem, hdepth, hform⟩
  · exact .inl hout
  rcases List.mem_cons.mp hmem with rfl | hmem
  · rw [hdepth, hform] at ht
    exact .inl ht
  · exact .inr ⟨t', hmem, hdepth, hform⟩

/-- To wait for a form to be entered is to wait for it to be left. -/
theorem WaitsFor.entered (h : g.WaitsFor w bound (.enter d' f' :: rest) d f) :
    g.WaitsFor w bound ((g.query w).moves d' f' ++ rest) d f := by
  intro r hr
  rcases h r hr with hout | ⟨t, hmem, hdepth, hform⟩
  · exact .inl hout
  rcases List.mem_cons.mp hmem with rfl | hmem
  · have hleave : .leave d' f' ∈ (g.query w).moves d' f' := mem_moves_iff.mpr (.inr rfl)
    exact .inr ⟨_, List.mem_append_left _ hleave, hdepth, hform⟩
  · exact .inr ⟨t, List.mem_append_right _ hmem, hdepth, hform⟩

/-- A form that is expanded waits for all its targets. -/
theorem waitsFor_moves (g : Grammar) (w : Form) (bound d : Nat) (f : Form) (rest : List Move) :
    g.WaitsFor w bound ((g.query w).moves d f ++ rest) d f := by
  intro r hr
  have henter : .enter (d + 1) r.target ∈ (g.query w).moves d f :=
    mem_moves_iff.mpr (.inl ⟨r, hr, rfl⟩)
  exact .inr ⟨_, List.mem_append_left _ henter, rfl, rfl⟩

/-- A form that was entered at a depth and has still to be left there. -/
structure InProgress (g : Grammar) (w : Form) (bound : Nat) (todo : List Move) (memo : Memo)
    (d : Nat) (f : Form) : Prop where
  le_bound : d ≤ bound
  ne_word : f ≠ w
  /-- Only visits at greater depths have recorded the form since it was entered. -/
  uncovered : memo.covers f d = false
  waits : g.WaitsFor w bound todo d f

/-! ## What holds at every moment -/

/-- The memo is right, and the search is ready to extend it. -/
structure Sound (g : Grammar) (w : Form) (bound : Nat) (s : State) : Prop where
  upholds : Upholds (g.OutOfReach w bound) s.memo
  bounded : Upholds (fun d _ => d ≤ bound) s.memo
  order : s.todo.Pairwise fun t u => u.MayFollow t.depth
  inProgress : ∀ d f, .leave d f ∈ s.todo → g.InProgress w bound s.todo s.memo d f

theorem outOfReach_of_skip? (hg : g.WellFormed) (hm : Upholds (g.OutOfReach w bound) memo)
    {c : Bool} (h : (g.query w).skip? bound d f memo = some c) : g.OutOfReach w bound d f := by
  have hR := givesUp_outOfReach hg w bound
  unfold Query.skip? at h
  split at h
  · intro n hn
    omega
  split at h
  · next hs => exact hR.short d f hs
  split at h
  · next hl => exact (bounds_outOfReach w bound).long d (bound - d) f (by omega) hl
  split at h
  · next hk => exact hm.of_covers hR.later hk
  · cases h

theorem Sound.start (g : Grammar) (w : Form) (bound : Nat) (f : Form) :
    g.Sound w bound (.start f) where
  upholds := upholds_empty
  bounded := upholds_empty
  order := List.pairwise_singleton _ _
  inProgress _ _ h := by cases List.mem_singleton.mp h

theorem Sound.skip (h : g.Sound w bound ⟨.enter d f :: rest, memo, cut, steps⟩)
    (hf : g.OutOfReach w bound d f) (c : Bool) : g.Sound w bound ⟨rest, memo, c, steps⟩ where
  upholds := h.upholds
  bounded := h.bounded
  order := h.order.of_cons
  inProgress d' f' hmem := by
    have hp := h.inProgress d' f' (List.mem_cons_of_mem _ hmem)
    exact ⟨hp.le_bound, hp.ne_word, hp.uncovered, hp.waits.tail hf⟩

/-- When a form is left, nothing that it waits for is still to be done. -/
theorem Sound.outOfReach (hg : g.WellFormed)
    (h : g.Sound w bound ⟨.leave d f :: rest, memo, cut, steps⟩) : g.OutOfReach w bound d f := by
  have hp := h.inProgress d f List.mem_cons_self
  refine (givesUp_outOfReach hg w bound).expand d f hp.ne_word fun r hr => ?_
  rcases hp.waits r hr with hout | ⟨t, hmem, hdepth, -⟩
  · exact hout
  have hle : t.depth ≤ d := by
    rcases List.mem_cons.mp hmem with rfl | hmem
    · exact Nat.le_refl d
    · exact ((List.pairwise_cons.mp h.order).1 t hmem).depth_le
  omega

theorem Sound.leave (hg : g.WellFormed)
    (h : g.Sound w bound ⟨.leave d f :: rest, memo, cut, steps⟩) :
    g.Sound w bound ⟨rest, memo.record f d, cut, steps⟩ := by
  have hf := h.outOfReach hg
  have hleft := h.inProgress d f List.mem_cons_self
  refine ⟨h.upholds.record hf, h.bounded.record hleft.le_bound, h.order.of_cons,
    fun d' f' hmem => ?_⟩
  have hp := h.inProgress d' f' (List.mem_cons_of_mem _ hmem)
  -- What is still in progress was entered before, at a smaller depth.
  have hd : d' < d := (List.pairwise_cons.mp h.order).1 (.leave d' f') hmem
  refine ⟨hp.le_bound, hp.ne_word, ?_, hp.waits.tail hf⟩
  rw [Memo.covers_record_of_lt hleft.uncovered hd]
  exact hp.uncovered

theorem Sound.expand (h : g.Sound w bound ⟨.enter d f :: rest, memo, cut, steps⟩)
    (hd : d ≤ bound) (hw : f ≠ w) (hnew : memo.covers f d = false) (steps' : List Step) :
    g.Sound w bound ⟨(g.query w).moves d f ++ rest, memo, cut, steps'⟩ := by
  obtain ⟨hfollow, horder⟩ := List.pairwise_cons.mp h.order
  refine ⟨h.upholds, h.bounded, ?_, fun d' f' hmem => ?_⟩
  · refine List.pairwise_append.mpr ⟨pairwise_moves _ d f, horder, fun t ht u hu => ?_⟩
    exact (hfollow u hu).mono (le_depth_of_mem_moves ht)
  · rcases List.mem_append.mp hmem with hmem | hmem
    · rcases mem_moves_iff.mp hmem with ⟨r, -, heq⟩ | heq
      · cases heq
      · cases heq
        exact ⟨hd, hw, hnew, waitsFor_moves g w bound d f rest⟩
    · have hp := h.inProgress d' f' (List.mem_cons_of_mem _ hmem)
      exact ⟨hp.le_bound, hp.ne_word, hp.uncovered, hp.waits.entered⟩

/-- **One move keeps the memo right.** -/
theorem Sound.next (hg : g.WellFormed) {s : State} (h : g.Sound w bound s) :
    g.Sound w bound (s.next (g.query w) bound) := by
  revert h
  refine State.next_cases (P := fun s s' => g.Sound w bound s → g.Sound w bound s')
    ?done ?left ?skipped ?found ?expanded s
  case done => exact fun _ _ _ h => h
  case left => exact fun _ _ _ _ _ _ h => h.leave hg
  case skipped =>
    intro depth form rest memo cut steps c hskip h
    exact h.skip (outOfReach_of_skip? hg h.upholds hskip) _
  case found => exact fun _ _ _ _ _ h => ⟨h.upholds, h.bounded, .nil, nofun⟩
  case expanded =>
    intro depth form rest memo cut steps hskip hw h
    obtain ⟨hd, -, -, hnew⟩ := Query.skip?_eq_none_iff.mp hskip
    exact h.expand hd hw hnew _

/-- The search for a word comes to a moment. -/
def ComesTo (g : Grammar) (word : Form) (bound : Nat) (s : State) : Prop :=
  State.Reaches (g.query word) bound (.start g.startForm) s

/-- **The memo is right throughout the search.** The search comes to its end, and with each form
that is entered it does what `explore` does. At every moment, the depths in the memo are such that
no chain of rewrites leads from the form to the word within the bound. The memo changes only when a
form is left, and as long as a form is in progress it has no entry or a greater one: so each depth
that is recorded is new or smaller than the one before. Once the search was cut, it stays so. -/
theorem memo_throughout (hg : g.Reachable) (word : Form) (bound : Nat) :
    g.ComesTo word bound ⟨[], (g.search word bound).memo, (g.search word bound).cut,
      (g.search word bound).steps⟩ ∧
    ∀ s, g.ComesTo word bound s →
      (∀ d f rest, s.todo = .enter d f :: rest → State.Reaches (g.query word) bound s
        ((explore (g.query word) (bound + 1 - d) d f s.memo).ending rest s.cut s.steps)) ∧
      (∀ f d, s.memo[f]? = some d → d ≤ bound ∧ ∀ n ≤ bound - d, ¬ g.Derives n f word) ∧
      (∀ d f, s.todo.head? = some (.leave d f) →
        (s.next (g.query word) bound).memo = s.memo.record f d) ∧
      ((∀ d f, s.todo.head? ≠ some (.leave d f)) →
        (s.next (g.query word) bound).memo = s.memo) ∧
      (∀ d f, .leave d f ∈ s.todo → s.memo[f]? = none ∨ ∃ d', s.memo[f]? = some d' ∧ d < d') ∧
      (s.cut = true → ∀ s', State.Reaches (g.query word) bound s s' → s'.cut = true) := by
  constructor
  · have hend := reaches_explore (q := g.query word) (bound + 1) 0 g.startForm ∅ rfl [] false []
    rw [Visit.ending_nil] at hend
    exact hend
  · intro s hs
    have hsound : g.Sound word bound s :=
      hs.keeps (fun _ => Sound.next hg.wellFormed) (.start g word bound g.startForm)
    refine ⟨fun d f rest htodo => ?_, fun f d hd => ?_, fun d f => State.next_memo_of_leave,
      State.next_memo_of_not_leave, fun d f hmem => ?_, fun hc s' hs' => ?_⟩
    · obtain ⟨todo, memo, cut, steps⟩ := s
      cases htodo
      exact reaches_explore _ d f memo rfl rest cut steps
    · have hle : d ≤ bound := hsound.bounded f d hd
      exact ⟨hle, fun n hn => hsound.upholds f d hd n (by omega)⟩
    · exact Memo.covers_eq_false_iff.mp (hsound.inProgress d f hmem).uncovered
    · exact hs'.keeps (P := fun s => s.cut = true) (fun _ => State.next_cut) hc

/-- `S` does not become `aa` in two rewrites. While it is in progress at the depth 0 it is entered
at the depth 2, too, and recorded there first. -/
theorem memo_throughout_doubling :
    doubling.Reachable ∧ ∃ s, doubling.ComesTo ['a', 'a'] 2 s ∧
      s.todo.head? = some (.leave 0 ['S']) ∧ s.memo[['S']]? = some 2 ∧
      (s.next (doubling.query ['a', 'a']) 2).memo[['S']]? = some 0 ∧
      ∀ n ≤ 2, ¬ doubling.Derives n ['S'] ['a', 'a'] := by
  obtain ⟨-, moments⟩ := memo_throughout doubling_reachable ['a', 'a'] 2
  obtain ⟨s, hs, hleave, hentry⟩ : ∃ s, doubling.ComesTo ['a', 'a'] 2 s ∧
      s.todo.head? = some (.leave 0 ['S']) ∧ s.memo[['S']]? = some 2 :=
    ⟨_, ⟨25, rfl⟩, by decide, by decide⟩
  obtain ⟨-, -, records, -⟩ := moments s hs
  have hnext : (s.next (doubling.query ['a', 'a']) 2).memo[['S']]? = some 0 := by
    rw [records 0 ['S'] hleave, Memo.getElem?_record, if_pos rfl]
  obtain ⟨-, right, -⟩ := moments _ (hs.trans ⟨1, rfl⟩)
  exact ⟨doubling_reachable, s, hs, hleave, hentry, hnext, (right ['S'] 0 hnext).2⟩

end Grammar

end FormalGrammar
