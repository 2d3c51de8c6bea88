import FormalGrammar.Proofs.Exploring

/-!
# What the memo remembers

A visit at some depth leaves the memo knowing more than before, and nothing new about smaller
depths. It takes a step only on what the memo did not cover before, and if it comes to nothing, the
memo covers all its steps afterwards (`explore_noted`). A form is recorded on the way out of its
visit, when deeper visits may have recorded it already; as they have left the smaller depths alone,
the entry that is made then is still new.
-/

namespace FormalGrammar

namespace Memo

variable {m : Memo} {f f' : Form} {d d' : Nat}

theorem covers_eq_false_iff :
    m.covers f d = false ↔ m[f]? = none ∨ ∃ d', m[f]? = some d' ∧ d < d' := by
  unfold covers
  cases m[f]? with
  | none => simp
  | some e => simp

theorem covers_record (m : Memo) (f f' : Form) (d d' : Nat) :
    (m.record f d).covers f' d' = if f = f' then decide (d ≤ d') else m.covers f' d' := by
  simp only [covers, getElem?_record]
  by_cases h : f = f' <;> simp only [h, ↓reduceIte]

theorem covers_later (h : m.covers f d = true) (hd : d ≤ d') : m.covers f d' = true := by
  unfold covers at h ⊢
  split at h
  · exact decide_eq_true (Nat.le_trans (of_decide_eq_true h) hd)
  · cases h

/-- What is recorded where nothing was covered adds to what is covered. -/
theorem covers_record_of_covers (hnew : m.covers f d = false) (h : m.covers f' d' = true) :
    (m.record f d).covers f' d' = true := by
  rw [covers_record]
  split
  · next he =>
    subst he
    refine decide_eq_true (Nat.le_of_not_lt fun hlt => ?_)
    rw [covers_later h (Nat.le_of_lt hlt)] at hnew
    cases hnew
  · exact h

/-- What is recorded says nothing new about smaller depths. -/
theorem covers_record_of_lt (hnew : m.covers f d = false) (hd : d' < d) :
    (m.record f d).covers f' d' = m.covers f' d' := by
  rw [covers_record]
  split
  · next he =>
    subst he
    have hold : m.covers f d' = false := by
      by_contra h
      rw [covers_later (by simpa using h) (Nat.le_of_lt hd)] at hnew
      cases hnew
    rw [hold]
    exact decide_eq_false (Nat.not_le.mpr hd)
  · rfl

end Memo

namespace Search

/-- How a visit at `depth` leaves the memo that it was given, and how its steps stand to both. -/
structure Noted (depth : Nat) (memo : Memo) (v : Visit) : Prop where
  grows : ∀ f d, memo.covers f d = true → v.memo.covers f d = true
  above : ∀ f d, d < depth → v.memo.covers f d = memo.covers f d
  fresh : ∀ s ∈ v.steps, memo.covers s.form s.depth = false
  /-- What was visited in vain is covered afterwards. -/
  kept : v.path = none → ∀ s ∈ v.steps, v.memo.covers s.form s.depth = true

namespace Noted

variable {depth : Nat} {memo : Memo} {v w : Visit}

theorem skip (depth : Nat) (cut : Bool) (memo : Memo) : Noted depth memo (.skip cut memo) where
  grows _ _ h := h
  above _ _ _ := rfl
  fresh := nofun
  kept := nofun

theorem found {form : Form} (h : memo.covers form depth = false) :
    Noted depth memo ⟨some [], [], [⟨depth, form, true⟩], false, memo⟩ where
  grows _ _ h := h
  above _ _ _ := rfl
  fresh s hs := by
    rw [List.mem_singleton.mp hs]
    exact h
  kept := nofun

theorem conclude (h : Noted (depth + 1) memo v) {form : Form}
    (hnew : memo.covers form depth = false) : Noted depth memo (v.conclude depth form) := by
  -- Deeper visits have said nothing about this depth.
  have hstill : v.memo.covers form depth = false := by
    rw [h.above form depth (Nat.lt_succ_self depth), hnew]
  have fresh : ∀ s ∈ (v.conclude depth form).steps, memo.covers s.form s.depth = false :=
    List.forall_mem_cons.mpr ⟨hnew, h.fresh⟩
  cases hp : v.path with
  | some path =>
    have hmemo : (v.conclude depth form).memo = v.memo := by simp [Visit.conclude, hp]
    refine ⟨?_, ?_, fresh, fun hnone => ?_⟩
    · rw [hmemo]
      exact h.grows
    · rw [hmemo]
      exact fun f d hd => h.above f d (Nat.lt_succ_of_lt hd)
    · rw [show (v.conclude depth form).path = some path from hp] at hnone
      cases hnone
  | none =>
    have hmemo : (v.conclude depth form).memo = v.memo.record form depth := by
      simp [Visit.conclude, hp]
    refine ⟨fun f d hc => ?_, fun f d hd => ?_, fresh, fun _ => ?_⟩ <;> rw [hmemo]
    · exact Memo.covers_record_of_covers hstill (h.grows f d hc)
    · rw [Memo.covers_record_of_lt hstill hd, h.above f d (Nat.lt_succ_of_lt hd)]
    · refine List.forall_mem_cons.mpr ⟨?_, fun s hs => ?_⟩
      · simp [Memo.covers_record]
      · exact Memo.covers_record_of_covers hstill (h.kept hp s hs)

theorem through (h : Noted depth memo v) (r : Replacement) (path : List Replacement) :
    Noted depth memo (v.through r path) :=
  ⟨h.grows, h.above, h.fresh, nofun⟩

theorem andThen (h : Noted depth memo v) (hp : v.path = none) (h' : Noted depth v.memo w)
    (r : Replacement) : Noted depth memo (v.andThen r w) where
  grows f d hc := h'.grows f d (h.grows f d hc)
  above f d hd := (h'.above f d hd).trans (h.above f d hd)
  fresh s hs := by
    rcases List.mem_append.mp hs with hs | hs
    · exact h.fresh s hs
    · by_contra hc
      rw [Bool.not_eq_false] at hc
      have hfresh := h'.fresh s hs
      rw [h.grows _ _ hc] at hfresh
      cases hfresh
  kept hw s hs := by
    rcases List.mem_append.mp hs with hs | hs
    · exact h'.grows _ _ (h.kept hp s hs)
    · exact h'.kept hw s hs

/-- After a visit in vain, a form that it visited is visited again only at a smaller depth. -/
theorem lt_of_form_eq (h : Noted depth memo v) (hp : v.path = none) (h' : Noted depth v.memo w)
    {s s' : Step} (hs : s ∈ v.steps) (hs' : s' ∈ w.steps) (hf : s'.form = s.form) :
    s'.depth < s.depth := by
  refine Nat.lt_of_not_le fun hle => ?_
  have hfresh := h'.fresh s' hs'
  rw [hf, Memo.covers_later (h.kept hp s hs) hle] at hfresh
  cases hfresh

end Noted

/-- **What every visit leaves in the memo.** -/
theorem explore_noted {q : Query} (left depth : Nat) (form : Form) (memo : Memo) :
    Noted depth memo (explore q left depth form memo) := by
  refine explore_induct (q := q) (P := fun _ depth _ memo v => Noted depth memo v)
    (Q := fun _ depth _ memo v => Noted (depth + 1) memo v)
    ?deep ?short ?long ?known ?found ?expanded ?nothing ?through ?next left depth form memo
  case deep => exact fun depth _ memo => .skip depth true memo
  case short => exact fun _ depth _ memo _ => .skip depth false memo
  case long => exact fun _ depth _ memo _ _ => .skip depth true memo
  case known => exact fun _ depth _ memo _ _ _ => .skip depth false memo
  case found => exact fun _ _ _ _ hk => .found hk
  case expanded => exact fun _ _ _ _ _ _ _ hk _ _ tried => tried.conclude hk
  case nothing => exact fun _ depth memo => .skip (depth + 1) false memo
  case through => exact fun _ _ r _ _ _ path _ _ visited => visited.through r path
  case next => exact fun _ _ r _ _ _ _ _ hp visited _ tried => visited.andThen hp tried r

theorem tryAll_noted {visit : Form → Memo → Visit} {depth : Nat}
    (h : ∀ form memo, Noted depth memo (visit form memo)) (rs : List Replacement) (memo : Memo) :
    Noted depth memo (tryAll visit rs memo) := by
  induction rs generalizing memo with
  | nil => exact .skip depth false memo
  | cons r rs ih =>
    cases hp : (visit r.target memo).path with
    | none =>
      rw [tryAll_of_none hp]
      exact (h _ _).andThen hp (ih _) r
    | some path =>
      rw [tryAll_of_some hp]
      exact (h _ _).through r path

end Search

end FormalGrammar
