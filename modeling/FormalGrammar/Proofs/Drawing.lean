import FormalGrammar.Proofs.Texts
import FormalGrammar.Tree.Render
import Mathlib.Data.List.Forall2

/-!
# Reading drawn trees

A drawn tree can be read back, whatever its labels are, as long as none has a line feed. The first
line is the label of the root. Every other line begins with one block of four characters for each
level: bars and gaps, and at last a connector. As neither a bar nor a gap is a connector, the first
connector of a line ends its indent, and what follows is the label, even if it looks like an indent
itself (`readLine?`). In pre-order, levels and labels determine the tree: what hangs below a node
are the nodes directly after it that are on greater levels (`attach`).

Main statement: `Tree.render_eq_iff`.
-/

namespace FormalGrammar

/-! ## Lines of a text -/

theorem Text.splitOn_flatMap {lines : List Text} (h : ∀ line ∈ lines, '\n' ∉ line) :
    splitOn '\n' (lines.flatMap (· ++ ['\n'])) = lines ++ [[]] := by
  induction lines with
  | nil => rfl
  | cons line lines ih =>
    rw [List.forall_mem_cons] at h
    rw [List.flatMap_cons, List.append_assoc, List.singleton_append, splitOn_append_cons, ih h.2,
      splitOn_of_notMem h.1]
    rfl

namespace Tree

/-! ## Trees without their marks -/

mutual

/-- The tree with the same shape and the same labels, in which no node is marked as a terminal. -/
def unmarked : Tree → Tree
  | node l _ cs => node l false (unmarkedAll cs)

def unmarkedAll : List Tree → List Tree
  | [] => []
  | t :: ts => unmarked t :: unmarkedAll ts

end

mutual

theorem lines_unmarked : ∀ t : Tree, t.unmarked.lines = t.lines
  | node l b cs => by rw [unmarked, lines, lines, childLines_unmarkedAll cs]

theorem childLines_unmarkedAll : ∀ ts : List Tree, childLines (unmarkedAll ts) = childLines ts
  | [] => rfl
  | [t] => by rw [unmarkedAll, unmarkedAll, childLines, childLines, lines_unmarked t]
  | t :: u :: ts => by
    rw [unmarkedAll, unmarkedAll, childLines, childLines, lines_unmarked t, ← unmarkedAll,
      childLines_unmarkedAll (u :: ts)]

end

theorem render_unmarked (t : Tree) : t.unmarked.render = t.render := by
  rw [render, render, lines_unmarked]

/-! ## Outlines -/

mutual

/-- The level and the label of every node, in pre-order, where the root is on a given level. -/
def outline (level : Nat) : Tree → List (Nat × Text)
  | node l _ cs => (level, l) :: outlineAll (level + 1) cs

def outlineAll (level : Nat) : List Tree → List (Nat × Text)
  | [] => []
  | t :: ts => outline level t ++ outlineAll level ts

end

/-- The same label one level deeper. -/
def deeper (p : Nat × Text) : Nat × Text := (p.1 + 1, p.2)

mutual

theorem outline_succ (level : Nat) :
    ∀ t : Tree, outline (level + 1) t = (outline level t).map deeper
  | node l b cs => by rw [outline, outline, outlineAll_succ (level + 1) cs]; rfl

theorem outlineAll_succ (level : Nat) :
    ∀ ts : List Tree, outlineAll (level + 1) ts = (outlineAll level ts).map deeper
  | [] => rfl
  | t :: ts => by
    rw [outlineAll, outlineAll, outline_succ level t, outlineAll_succ level ts, List.map_append]

end

mutual

theorem map_snd_outline (level : Nat) :
    ∀ t : Tree, (outline level t).map Prod.snd = t.nodes.map label
  | node l b cs => by
    rw [outline, List.map_cons, map_snd_outlineAll (level + 1) cs, nodes_node, List.map_cons, label]

theorem map_snd_outlineAll (level : Nat) :
    ∀ ts : List Tree, (outlineAll level ts).map Prod.snd = (walk ts).map label
  | [] => by rw [outlineAll, walk]; rfl
  | t :: ts => by
    rw [outlineAll, List.map_append, map_snd_outline level t, map_snd_outlineAll level ts,
      ← List.map_append, nodes, ← walk_append, List.singleton_append]

end

/-- Put a node before others; those directly after it that are on greater levels hang below it. -/
def attach (p : Nat × Text) (after : List (Nat × Tree)) : List (Nat × Tree) :=
  (p.1, node p.2 false ((after.takeWhile fun q => p.1 < q.1).map Prod.snd)) ::
    after.dropWhile fun q => p.1 < q.1

/-- The trees with a given outline, each with the level of its root. -/
def ofOutline (ps : List (Nat × Text)) : List (Nat × Tree) := ps.foldr attach []

/-- Roots that are put on one level are the same roots. -/
theorem map_snd_leveled (level : Nat) (ts : List Tree) : (ts.map (level, ·)).map Prod.snd = ts := by
  rw [List.map_map]
  exact List.map_id ts

theorem unmarkedAll_eq_map (ts : List Tree) : unmarkedAll ts = ts.map unmarked := by
  induction ts with
  | nil => rfl
  | cons t ts ih => rw [unmarkedAll, ih, List.map_cons]

/-- A node takes the nodes one level deeper, up to one that is no deeper than itself. -/
theorem attach_append {level : Nat} {after : List (Nat × Tree)}
    (h : ∀ p ∈ after.head?, p.1 ≤ level) (l : Text) (ts : List Tree) :
    attach (level, l) (ts.map (level + 1, ·) ++ after) = (level, node l false ts) :: after := by
  have hdeep : ∀ p ∈ ts.map (level + 1, ·), decide (level < p.1) = true := by
    simp
  have hstop : after.takeWhile (fun q => decide (level < q.1)) = [] ∧
      after.dropWhile (fun q => decide (level < q.1)) = after := by
    cases after with
    | nil => exact ⟨rfl, rfl⟩
    | cons p after => simp [Nat.not_lt.mpr (h p rfl)]
  rw [attach, List.takeWhile_append_of_pos hdeep, List.dropWhile_append_of_pos hdeep, hstop.1,
    hstop.2, List.append_nil, map_snd_leveled]

mutual

/-- **Levels and labels determine the tree.** -/
theorem foldr_attach_outline (level : Nat) {after : List (Nat × Tree)}
    (h : ∀ p ∈ after.head?, p.1 ≤ level) :
    ∀ t : Tree, (outline level t).foldr attach after = (level, t.unmarked) :: after
  | node l b cs => by
    have hbelow : ∀ p ∈ after.head?, p.1 ≤ level + 1 := fun p hp => Nat.le_succ_of_le (h p hp)
    rw [outline, List.foldr_cons, foldr_attach_outlineAll (level + 1) hbelow cs, attach_append h,
      unmarked, unmarkedAll_eq_map]

theorem foldr_attach_outlineAll (level : Nat) {after : List (Nat × Tree)}
    (h : ∀ p ∈ after.head?, p.1 ≤ level) :
    ∀ ts : List Tree, (outlineAll level ts).foldr attach after =
      (ts.map unmarked).map (level, ·) ++ after
  | [] => rfl
  | t :: ts => by
    have hnext : ∀ p ∈ ((ts.map unmarked).map (level, ·) ++ after).head?, p.1 ≤ level := by
      cases ts with
      | nil => exact h
      | cons u ts => simp
    rw [outlineAll, List.foldr_append, foldr_attach_outlineAll level h ts,
      foldr_attach_outline level hnext t]
    rfl

end

theorem ofOutline_outlineAll (level : Nat) (ts : List Tree) :
    ofOutline (outlineAll level ts) = (ts.map unmarked).map (level, ·) := by
  have hnone : ∀ p ∈ ([] : List (Nat × Tree)).head?, p.1 ≤ level := nofun
  rw [ofOutline, foldr_attach_outlineAll level hnone, List.append_nil]

/-! ## Lines -/

/-- The level and the label of a line that is not the first. -/
def readLine? : Text → Option (Nat × Text)
  | '├' :: '─' :: '─' :: ' ' :: label => some (1, label)
  | '└' :: '─' :: '─' :: ' ' :: label => some (1, label)
  | '│' :: ' ' :: ' ' :: ' ' :: rest => (readLine? rest).map deeper
  | ' ' :: ' ' :: ' ' :: ' ' :: rest => (readLine? rest).map deeper
  | _ => none

/-- The characters of the blocks before a label. -/
def indentChars : List Char := ['├', '─', '└', '│', ' ']

/-- A block of four characters before a label that has an indent. -/
theorem exists_indent_block (block : Text) {rest label : Text} {level : Nat}
    (hlen : block.length = 4) (hblock : ∀ c ∈ block, c ∈ indentChars)
    (h : (readLine? rest).map deeper = some (level, label))
    (ih : ∀ level, readLine? rest = some (level, label) → ∃ indent, rest = indent ++ label ∧
      indent.length = 4 * level ∧ ∀ c ∈ indent, c ∈ indentChars) :
    ∃ indent, block ++ rest = indent ++ label ∧ indent.length = 4 * level ∧
      ∀ c ∈ indent, c ∈ indentChars := by
  obtain ⟨⟨level', label'⟩, hp, hd⟩ := Option.map_eq_some_iff.mp h
  obtain ⟨rfl, rfl⟩ := Prod.mk.inj hd
  obtain ⟨indent, rfl, hi, hchars⟩ := ih level' hp
  refine ⟨block ++ indent, (List.append_assoc _ _ _).symm, ?_, ?_⟩
  · rw [List.length_append, hlen, hi, Nat.mul_succ, Nat.add_comm]
  · exact List.forall_mem_append.mpr ⟨hblock, hchars⟩

/-- The label comes after one block of four characters for each level. -/
theorem exists_indent {line label : Text} {level : Nat} (h : readLine? line = some (level, label)) :
    ∃ indent, line = indent ++ label ∧ indent.length = 4 * level ∧
      ∀ c ∈ indent, c ∈ indentChars := by
  fun_induction readLine? line generalizing level with
  | case1 label' =>
    cases h
    exact ⟨branch, rfl, rfl, by simp [branch, indentChars]⟩
  | case2 label' =>
    cases h
    exact ⟨lastBranch, rfl, rfl, by simp [lastBranch, indentChars]⟩
  | case3 rest ih => exact exists_indent_block bar rfl (by simp [bar, indentChars]) h fun _ => ih
  | case4 rest ih => exact exists_indent_block gap rfl (by simp [gap, indentChars]) h fun _ => ih
  | case5 => cases h

/-- Every line is read as a level and a label. -/
def Reads (lines : List Text) (ps : List (Nat × Text)) : Prop :=
  List.Forall₂ (fun line p => readLine? line = some p) lines ps

/-- Lines that hang below a node are read one level deeper. -/
theorem Reads.hang {lines : List Text} {ps : List (Nat × Text)} (h : Reads lines ps)
    (label first rest : Text) (hfirst : readLine? (first ++ label) = some (1, label))
    (hrest : ∀ line, readLine? (rest ++ line) = (readLine? line).map deeper) :
    Reads (Tree.hang first rest (label :: lines)) ((1, label) :: ps.map deeper) := by
  refine .cons hfirst ?_
  rw [List.forall₂_map_left_iff, List.forall₂_map_right_iff]
  refine h.imp fun line p hp => ?_
  rw [hrest, hp]
  rfl

/-- **The lines below the first tell the outline** of what is below the root. -/
theorem reads_childLines : ∀ ts : List Tree, Reads (childLines ts) (outlineAll 1 ts)
  | [] => .nil
  | [node l b cs] => by
    rw [childLines, lines, outlineAll, outlineAll, List.append_nil, outline, outlineAll_succ]
    exact (reads_childLines cs).hang l lastBranch gap rfl fun _ => rfl
  | node l b cs :: u :: ts => by
    rw [childLines, lines, outlineAll, outline, outlineAll_succ]
    refine List.rel_append ?_ (reads_childLines (u :: ts))
    exact (reads_childLines cs).hang l branch bar rfl fun _ => rfl

theorem Reads.mapM {lines : List Text} {ps : List (Nat × Text)} (h : Reads lines ps) :
    lines.mapM readLine? = some ps := by
  induction h with
  | nil => rfl
  | cons hp _ ih => simp [List.mapM_cons, hp, ih]

/-! ## Drawings -/

/-- No label has a line feed. -/
def Drawable (t : Tree) : Prop := ∀ u ∈ t.nodes, '\n' ∉ u.label

theorem notMem_newline_of_reads {lines : List Text} {ps : List (Nat × Text)} (h : Reads lines ps)
    (hps : ∀ l ∈ ps.map Prod.snd, '\n' ∉ l) : ∀ line ∈ lines, '\n' ∉ line := by
  induction h with
  | nil => simp
  | @cons line p lines ps hp _ ih =>
    rw [List.map_cons, List.forall_mem_cons] at hps
    refine List.forall_mem_cons.mpr ⟨?_, ih hps.2⟩
    obtain ⟨indent, rfl, -, hchars⟩ := exists_indent hp
    intro hm
    rcases List.mem_append.mp hm with hm | hm
    · exact absurd (hchars _ hm) (by decide)
    · exact hps.1 hm

theorem Drawable.notMem_newline {t : Tree} (h : t.Drawable) : ∀ line ∈ t.lines, '\n' ∉ line := by
  obtain ⟨l, b, cs⟩ := t
  rw [Drawable, nodes_node, List.forall_mem_cons] at h
  rw [lines]
  refine List.forall_mem_cons.mpr ⟨h.1, notMem_newline_of_reads (reads_childLines cs) ?_⟩
  rw [map_snd_outlineAll]
  exact List.forall_mem_map.mpr h.2

/-- The lines of the text are the drawn lines, and an empty one after the last line feed. -/
theorem Drawable.splitOn_render {t : Tree} (h : t.Drawable) :
    Text.splitOn '\n' t.render = t.lines ++ [[]] :=
  Text.splitOn_flatMap h.notMem_newline

/-- Read a drawn tree. -/
def ofDrawing? (x : Text) : Option Tree :=
  match Text.splitOn '\n' x with
  | [] => none
  | label :: below => do
    let ps ← below.dropLast.mapM readLine?
    return node label false ((ofOutline ps).map Prod.snd)

/-- **A drawn tree is read back**, but for its marks. -/
theorem Drawable.ofDrawing?_render {t : Tree} (h : t.Drawable) :
    ofDrawing? t.render = some t.unmarked := by
  have hsplit := h.splitOn_render
  obtain ⟨l, b, cs⟩ := t
  rw [lines, List.cons_append] at hsplit
  simp only [ofDrawing?, hsplit, List.dropLast_concat, (reads_childLines cs).mapM,
    ofOutline_outlineAll, map_snd_leveled, unmarked, unmarkedAll_eq_map, bind, Option.bind, pure]

/-- **Drawn trees are the same exactly if the trees are**, with the same shape and the same labels;
the marks of terminals are not drawn. A label may be any text without a line feed, also one that
looks like a node below another one. A drawing is read back by `ofDrawing?`. -/
theorem render_eq_iff {t u : Tree} (ht : t.Drawable) (hu : u.Drawable) :
    (t.render = u.render ↔ t.unmarked = u.unmarked) ∧ ofDrawing? t.render = some t.unmarked := by
  refine ⟨⟨fun h => ?_, fun h => ?_⟩, ht.ofDrawing?_render⟩
  · have hread := ht.ofDrawing?_render
    rw [h, hu.ofDrawing?_render] at hread
    exact (Option.some.inj hread).symm
  · rw [← render_unmarked, h, render_unmarked]

/-- An empty label below `a`, and `b` below that. -/
def nested : Tree := .node ['a'] false [.node [] false [.leaf ['b'] false]]

/-- One leaf below `a`, with a label that looks like a node below another one. -/
def disguised (terminal : Bool) : Tree := .node ['a'] false [.leaf "│   └── b".toList terminal]

/-- The leaf is told from the nodes that it looks like; whether it is marked is not seen. -/
theorem render_eq_iff_disguised :
    nested.Drawable ∧ (∀ b, (disguised b).Drawable) ∧ (disguised true).render ≠ nested.render ∧
      (disguised true).render = (disguised false).render ∧
      ofDrawing? (disguised true).render = some (disguised false) ∧
      ofDrawing? nested.render = some nested := by
  have hnested : nested.Drawable := by
    simp [Drawable, nested, nodes, walk, leaf, label]
  have hdisguised : ∀ b, (disguised b).Drawable := by
    simp [Drawable, disguised, nodes, walk, leaf, label]
  refine ⟨hnested, hdisguised, fun h => ?_, ?_, ?_, (render_eq_iff hnested hnested).2⟩
  · have hsame := (render_eq_iff (hdisguised true) hnested).1.mp h
    exact absurd hsame (by decide)
  · exact (render_eq_iff (hdisguised true) (hdisguised false)).1.mpr (by decide)
  · exact (render_eq_iff (hdisguised true) (hdisguised false)).2

end Tree

end FormalGrammar
