import FormalGrammar.Proofs.Coverage
import FormalGrammar.Proofs.Numerals

/-!
# How deep a general tree is

A general tree is cut off in two ways, by its number of levels and by the nonterminals that have
been expanded above. The first only cuts: with fewer levels, the tree is that of more levels down to
where they end (`crop_expand`). The second ends every path: a nonterminal is added to the guard with
each expansion and none is added twice, so there are at most as many expansions on a path as there
are nonterminals, and further levels add nothing (`expand_add`).

Main statement: `Exploration.run_crops`.
-/

namespace FormalGrammar

namespace Tree

/-! ## Cropped trees -/

/-- A tree without the nodes that are more than a number of levels below its root. -/
def crop : Nat → Tree → Tree
  | 0, node l b _ => node l b []
  | levels + 1, node l b cs => node l b (cs.map (crop levels))

@[simp] theorem crop_leaf (levels : Nat) (l : Text) (b : Bool) :
    crop levels (leaf l b) = leaf l b := by
  cases levels <;> rfl

theorem depthBelow_le_iff {ts : List Tree} {n : Nat} :
    depthBelow ts ≤ n ↔ ∀ t ∈ ts, t.depth + 1 ≤ n := by
  induction ts with
  | nil => simp [depthBelow]
  | cons t ts ih => rw [depthBelow, Nat.max_le, ih, List.forall_mem_cons]

theorem depth_crop_le (levels : Nat) (t : Tree) : (crop levels t).depth ≤ levels := by
  induction levels generalizing t with
  | zero =>
    obtain ⟨l, b, cs⟩ := t
    exact Nat.le_refl 0
  | succ levels ih =>
    obtain ⟨l, b, cs⟩ := t
    rw [crop, depth, depthBelow_le_iff]
    exact List.forall_mem_map.mpr fun c _ => Nat.succ_le_succ (ih c)

/-! ## Paths -/

/-- The nodes from the root of a tree down to one of its leaves. -/
inductive Path : Tree → List Tree → Prop
  | leaf (l : Text) (b : Bool) : Path (node l b []) [node l b []]
  | down {l : Text} {b : Bool} {cs path : List Tree} {c : Tree} :
      c ∈ cs → Path c path → Path (node l b cs) (node l b cs :: path)

theorem path_node_iff {l : Text} {b : Bool} {cs path : List Tree} :
    Path (node l b cs) path ↔ cs = [] ∧ path = [node l b cs] ∨
      ∃ c ∈ cs, ∃ below, Path c below ∧ path = node l b cs :: below := by
  constructor
  · intro h
    cases h with
    | leaf => exact .inl ⟨rfl, rfl⟩
    | down hc hp => exact .inr ⟨_, hc, _, hp, rfl⟩
  · rintro (⟨rfl, rfl⟩ | ⟨c, hc, below, hp, rfl⟩)
    · exact .leaf l b
    · exact .down hc hp

/-- No two nodes of a path that have children have the same label. -/
def Repetitionless (path : List Tree) : Prop :=
  path.Pairwise fun t u => t.isLeaf = false → u.isLeaf = false → t.label ≠ u.label

end Tree

namespace Grammar

open FormalGrammar.Tree

variable {g : Grammar}

/-! ## Levels -/

/-- **Fewer levels only crop the tree**: a level of expansion is two levels of the tree. -/
theorem crop_expand (levels more : Nat) (visited : List Char) (l : Text) (b : Bool) (x : Char) :
    crop (2 * levels) (.node l b (g.expand (levels + more) visited x)) =
      .node l b (g.expand levels visited x) := by
  induction levels generalizing visited l b x with
  | zero => rfl
  | succ levels ih =>
    rw [Nat.add_right_comm, expand, expand]
    split
    · rfl
    · show Tree.node l b _ = _
      simp only [List.map_map]
      refine congrArg _ (List.map_congr_left fun body _ => ?_)
      show Tree.node (productionText x body) false _ = _
      simp only [List.map_map]
      refine congrArg _ (List.map_congr_left fun c _ => ?_)
      simp only [Function.comp_apply]
      split
      · exact crop_leaf _ _ _
      · exact ih _ _ _ _

/-- A nonterminal that has been expanded above is not expanded, and a symbol that is none has no
rules. -/
theorem expand_eq_nil (hg : g.WellFormed) {visited : List Char} {x : Char}
    (h : x ∈ visited ∨ x ∉ g.nonterminals) (levels : Nat) : g.expand levels visited x = [] := by
  cases levels with
  | zero => rfl
  | succ levels =>
    rw [expand]
    rcases h with h | h
    · simp [h]
    · have hnone : g.rulesFor x = [] := by
        refine List.eq_nil_iff_forall_not_mem.mpr fun body hb => h ?_
        obtain ⟨bodies, hr, -⟩ := mem_productions_iff.mp ((mem_rulesFor_iff hg).mp hb)
        exact hg.keys_mem x (List.mem_map_of_mem hr)
      simp [hnone]

/-- A symbol that can be expanded makes room for one level less. -/
theorem length_lt_of_new {visited : List Char} {x : Char} (hnodup : visited.Nodup)
    (hsub : visited ⊆ g.nonterminals) (hx : x ∉ visited) (hn : x ∈ g.nonterminals) :
    visited.length < g.nonterminals.length := by
  have hnodup' : (x :: visited).Nodup := List.nodup_cons.mpr ⟨hx, hnodup⟩
  have hsub' : x :: visited ⊆ g.nonterminals := List.cons_subset.mpr ⟨hn, hsub⟩
  exact (List.subperm_of_subset hnodup' hsub').length_le

/-- **Levels beyond the nonterminals that are left add nothing.** -/
theorem expand_add (hg : g.WellFormed) {levels : Nat} {visited : List Char} (x : Char)
    (hnodup : visited.Nodup) (hsub : visited ⊆ g.nonterminals)
    (hle : g.nonterminals.length ≤ levels + visited.length) (more : Nat) :
    g.expand (levels + more) visited x = g.expand levels visited x := by
  induction levels generalizing visited x with
  | zero =>
    have hx : x ∈ visited ∨ x ∉ g.nonterminals := by
      by_contra h
      rw [not_or, not_not] at h
      have hlt := length_lt_of_new hnodup hsub h.1 h.2
      omega
    rw [expand_eq_nil hg hx, expand_eq_nil hg hx]
  | succ levels ih =>
    by_cases hx : x ∈ visited ∨ x ∉ g.nonterminals
    · rw [expand_eq_nil hg hx, expand_eq_nil hg hx]
    rw [not_or, not_not] at hx
    have hbelow : ∀ c, g.expand (levels + more) (x :: visited) c =
        g.expand levels (x :: visited) c := fun c =>
      ih c (List.nodup_cons.mpr ⟨hx.1, hnodup⟩) (List.cons_subset.mpr ⟨hx.2, hsub⟩)
        (by rw [List.length_cons]; omega)
    rw [Nat.add_right_comm, expand, expand]
    simp only [hbelow]

theorem crop_generalTree {s : Char} (hs : g.start = some s) {levels levels' : Nat}
    (hle : levels ≤ levels') :
    crop (2 * levels) (g.generalTree levels') = g.generalTree levels := by
  obtain ⟨more, rfl⟩ := Nat.exists_eq_add_of_le hle
  rw [generalTree_of_start hs, generalTree_of_start hs, crop_expand]

theorem generalTree_eq_of_le (hg : g.WellFormed) {s : Char} (hs : g.start = some s) {levels : Nat}
    (hle : g.nonterminals.length ≤ levels) :
    g.generalTree levels = g.generalTree g.nonterminals.length := by
  obtain ⟨more, rfl⟩ := Nat.exists_eq_add_of_le hle
  rw [generalTree_of_start hs, generalTree_of_start hs,
    expand_add hg s List.nodup_nil (List.nil_subset _) (Nat.le_refl _)]

theorem depth_generalTree_le (hg : g.WellFormed) {s : Char} (hs : g.start = some s) (levels : Nat) :
    (g.generalTree levels).depth ≤ 2 * min levels g.nonterminals.length := by
  have hmin : g.generalTree (min levels g.nonterminals.length) = g.generalTree levels := by
    rcases Nat.le_total levels g.nonterminals.length with h | h
    · rw [Nat.min_eq_left h]
    · rw [Nat.min_eq_right h, generalTree_eq_of_le hg hs h]
  rw [← hmin, ← crop_generalTree hs (Nat.le_refl _)]
  exact depth_crop_le _ _

/-! ## Expanded symbols -/

/-- A node for a production, and what stands below it. -/
theorem exists_of_mem_expand {levels : Nat} {visited : List Char} {x : Char} {t : Tree}
    (h : t ∈ g.expand levels visited x) :
    x ∉ visited ∧ ∃ body cs, t = .node (productionText x body) false cs ∧
      ∀ u ∈ cs, (∃ c, u = .leaf [c] true) ∨
        ∃ levels' < levels, ∃ c, u = .node [c] false (g.expand levels' (x :: visited) c) := by
  cases levels with
  | zero => cases h
  | succ levels =>
    rw [expand] at h
    split at h
    · cases h
    · next hx =>
      obtain ⟨body, -, rfl⟩ := List.mem_map.mp h
      refine ⟨by simpa using hx, body, _, rfl, List.forall_mem_map.mpr fun c _ => ?_⟩
      split
      · exact .inl ⟨c, rfl⟩
      · exact .inr ⟨levels, Nat.lt_succ_self levels, c, rfl⟩

/-- The nodes with children on a path have different labels, each of which begins with a symbol that
has not been expanded above. -/
structure Fresh (visited : List Char) (path : List Tree) : Prop where
  distinct : Repetitionless path
  new : ∀ t ∈ path, t.isLeaf = false → ∃ y ∉ visited, t.label.head? = some y

theorem Fresh.single {visited : List Char} {t : Tree} (h : t.isLeaf = true) :
    Fresh visited [t] where
  distinct := List.pairwise_singleton _ _
  new u hu hleaf := by
    rw [List.mem_singleton.mp hu, h] at hleaf
    cases hleaf

/-- The symbol and its production are put before a path on which the symbol does not come again. -/
theorem Fresh.expand {visited : List Char} {x : Char} {body : Form} {cs ts path : List Tree}
    (hx : x ∉ visited) (h : Fresh (x :: visited) path) :
    Fresh visited (.node [x] false ts :: .node (productionText x body) false cs :: path) where
  distinct := by
    -- No label below begins with `x`.
    have hbelow : ∀ l : Text, l.head? = some x → ∀ u ∈ path, u.isLeaf = false → l ≠ u.label := by
      rintro l hl u hu hleaf rfl
      obtain ⟨y, hy, hyl⟩ := h.new u hu hleaf
      rw [hl] at hyl
      cases hyl
      exact hy List.mem_cons_self
    refine List.pairwise_cons.mpr ⟨List.forall_mem_cons.mpr ⟨fun _ _ => ?_, fun u hu _ => ?_⟩,
      List.pairwise_cons.mpr ⟨fun u hu _ => ?_, h.distinct⟩⟩
    · simp [Tree.label, productionText]
    · exact hbelow [x] rfl u hu
    · exact hbelow (productionText x body) rfl u hu
  new := by
    refine List.forall_mem_cons.mpr ⟨fun _ => ⟨x, hx, rfl⟩,
      List.forall_mem_cons.mpr ⟨fun _ => ⟨x, hx, rfl⟩, fun u hu hleaf => ?_⟩⟩
    obtain ⟨y, hy, hl⟩ := h.new u hu hleaf
    exact ⟨y, fun hm => hy (List.mem_cons_of_mem x hm), hl⟩

/-- **On a path below a symbol no expansion comes twice.** -/
theorem fresh_of_path {levels : Nat} {visited : List Char} {x : Char} {path : List Tree}
    (h : Path (.node [x] false (g.expand levels visited x)) path) : Fresh visited path := by
  induction levels using Nat.strongRecOn generalizing visited x path with
  | ind levels ih =>
    rcases path_node_iff.mp h with ⟨hnil, rfl⟩ | ⟨t, ht, below, hbelow, rfl⟩
    · exact .single (by simp [isLeaf, children, hnil])
    obtain ⟨hx, body, cs, rfl, hcs⟩ := exists_of_mem_expand ht
    rcases path_node_iff.mp hbelow with ⟨rfl, rfl⟩ | ⟨u, hu, path, hpath, rfl⟩
    · exact .expand hx ⟨.nil, nofun⟩
    refine .expand hx ?_
    rcases hcs u hu with ⟨c, rfl⟩ | ⟨levels', hlt, c, rfl⟩
    · rcases path_node_iff.mp hpath with ⟨-, rfl⟩ | ⟨_, hc, -⟩
      · exact .single rfl
      · cases hc
    · exact ih levels' hlt hpath

end Grammar

/-! ## Numbers of levels -/

theorem length_le_of_nodup {cs : List Char} (h : cs.Nodup) : cs.length ≤ 0x110000 := by
  have hcode (c : Char) : c.toNat < 0x110000 := by
    have hc : c.toNat < 0xd800 ∨ 0xdfff < c.toNat ∧ c.toNat < 0x110000 := c.valid
    omega
  have hsub : cs.map Char.toNat ⊆ List.range 0x110000 := by
    intro n hn
    obtain ⟨c, -, rfl⟩ := List.mem_map.mp hn
    exact List.mem_range.mpr (hcode c)
  have hinj : Function.Injective Char.toNat := fun c d => Char.toNat_inj.mp
  have hle := (List.subperm_of_subset (h.map hinj) hsub).length_le
  rwa [List.length_map, List.length_range] at hle

namespace Exploration

open FormalGrammar.Grammar FormalGrammar.Tree

theorem IsNotable.of_le {j : Journal} {d e : Int} (h : IsNotable j e) (hd : 0 ≤ d) (hde : d ≤ e) :
    IsNotable j d := by
  refine h.imp_right fun he => ?_
  rw [Numeral.Integer.isShort_iff] at he ⊢
  omega

/-- There are not so many characters that the number of nonterminals had no numeral. -/
theorem isNotable_nonterminals {g : Grammar} (hg : g.WellFormed) (j : Journal) :
    IsNotable j g.nonterminals.length := by
  have hle := length_le_of_nodup hg.nonterminals_nodup
  exact .inr (Numeral.Integer.isShort_of_lt (k := 7) (by omega) (by decide))

/-- **A general tree is cut off, and ends by itself.** For a valid grammar with an open log there is
a tree for any number of levels that has a numeral, and without a log for any. With fewer levels it is the same tree down to twice as many levels
of nodes. Levels beyond the number of nonterminals change nothing. No path has two nodes with
children and the same label, so no nonterminal is expanded twice on it. The depth is therefore at
most twice the number of levels, and twice the number of nonterminals. -/
theorem run_crops {g : Grammar} (hg : g.Reachable) (hv : g.isValid = true) {d e : Int}
    (hd : 0 ≤ d) (hde : d ≤ e) {j : Journal} (hj : j.IsOpen) (hn : IsNotable j e) :
    ∃ t u full, (run { grammar := g } d j).1 = .ok t ∧ (run { grammar := g } e j).1 = .ok u ∧
      (run { grammar := g } g.nonterminals.length j).1 = .ok full ∧
      t = crop (2 * d.toNat) u ∧ (g.nonterminals.length ≤ e → u = full) ∧
      (∀ path, Path u path → Repetitionless path) ∧
      (t.depth : Int) ≤ 2 * min d g.nonterminals.length := by
  obtain ⟨s, hs⟩ := start_of_isValid hv
  refine ⟨_, _, _, run_of_isOpen hv hj (hn.of_le hd hde), run_of_isOpen hv hj hn,
    run_of_isOpen hv hj (isNotable_nonterminals hg.wellFormed j), ?_,
    fun hle => ?_, fun path hpath => ?_, ?_⟩
  · exact (crop_generalTree hs (Int.toNat_le_toNat hde)).symm
  · exact generalTree_eq_of_le hg.wellFormed hs (by omega)
  · rw [generalTree_of_start hs] at hpath
    exact (fresh_of_path hpath).distinct
  · have hle := depth_generalTree_le hg.wellFormed hs d.toNat
    omega

/-- On the path through the cycle `S` comes again and is not expanded. The tree of two levels lacks
the production for `B`, which those of three levels and of five have. -/
theorem run_crops_cyclic :
    cyclic.isValid = true ∧ ∃ t u full, (run { grammar := cyclic } 2 none).1 = .ok t ∧
      (run { grammar := cyclic } 5 none).1 = .ok u ∧
      (run { grammar := cyclic } 3 none).1 = .ok full ∧
      t = crop 4 u ∧ u = full ∧ t ≠ u ∧ t.depth = 4 ∧ u.depth = 6 := by
  have hv : cyclic.isValid = true := by decide
  obtain ⟨t, u, full, ht, hu, hfull, hcrop, hall, -, hle⟩ := run_crops (g := cyclic)
    (Reachable.empty.afterEdits _) hv (show (0 : Int) ≤ 2 by decide) (show (2 : Int) ≤ 5 by decide)
    Journal.isOpen_none (.inl rfl)
  have hueq : u = cyclic.generalTree 5 := by
    simpa [run, hv, Journal.noteMade] using hu.symm
  have hdepth : u.depth = 6 := by
    rw [hueq]
    decide
  have hdepth' : t.depth = 4 := by
    rw [hcrop, hueq]
    decide
  refine ⟨hv, t, u, full, ht, hu, hfull, hcrop, hall (by decide), fun he => ?_, hdepth', hdepth⟩
  rw [he, hdepth] at hdepth'
  cases hdepth'

end Exploration

end FormalGrammar
