import FourVin.Proofs.Outcome

/-!
The first fault of a sequence. An element can be bad by itself or because of those before it, so
badness relates an element to the list of those before it. A fold whose steps can fail reports the
fault of the first bad element, and succeeds when no element is bad.
-/
namespace FourVin

variable {α β : Type}

def Clear (bad : List α → α → Prop) (xs : List α) : Prop :=
  ∀ before x after, xs = before ++ x :: after → ¬ bad before x

/-- The element `x` is bad behind the elements `before`, and it is the first one that is bad. -/
structure IsFirst (bad : List α → α → Prop) (xs before : List α) (x : α) : Prop where
  split : ∃ after, xs = before ++ x :: after
  clear : Clear bad before
  bad : bad before x

variable {bad : List α → α → Prop} {xs before : List α} {x y : α}

theorem clear_nil : Clear bad [] := by
  intro before x after h
  simp at h

theorem clear_cons :
    Clear bad (x :: xs) ↔ ¬ bad [] x ∧ Clear (fun before => bad (x :: before)) xs := by
  constructor
  · intro h
    refine ⟨h [] x xs rfl, ?_⟩
    intro before y after heq
    exact h (x :: before) y after (congrArg (x :: ·) heq)
  · rintro ⟨hx, hxs⟩ before y after heq
    cases before with
    | nil =>
      cases heq
      exact hx
    | cons z before =>
      obtain ⟨rfl, hrest⟩ := List.cons.inj heq
      exact hxs before y after hrest

/-- When badness does not depend on the elements before. -/
theorem clear_const_iff {P : α → Prop} : Clear (fun _ => P) xs ↔ ∀ x ∈ xs, ¬ P x := by
  constructor
  · intro h x hx
    obtain ⟨before, after, rfl⟩ := List.append_of_mem hx
    exact h before x after rfl
  · rintro h before x after rfl
    exact h x (by simp)

theorem not_isFirst_nil : ¬ IsFirst bad [] before x := by
  intro h
  obtain ⟨after, hsplit⟩ := h.split
  simp at hsplit

theorem isFirst_cons :
    IsFirst bad (x :: xs) before y ↔
      (before = [] ∧ y = x ∧ bad [] x) ∨
        ∃ front, before = x :: front ∧ ¬ bad [] x ∧
          IsFirst (fun before => bad (x :: before)) xs front y := by
  constructor
  · intro h
    obtain ⟨after, hsplit⟩ := h.split
    cases before with
    | nil =>
      cases hsplit
      exact .inl ⟨rfl, rfl, h.bad⟩
    | cons z front =>
      obtain ⟨rfl, hrest⟩ := List.cons.inj hsplit
      obtain ⟨hx, hfront⟩ := clear_cons.mp h.clear
      exact .inr ⟨front, rfl, hx, ⟨after, hrest⟩, hfront, h.bad⟩
  · rintro (⟨rfl, rfl, hx⟩ | ⟨front, rfl, hx, h⟩)
    · exact ⟨⟨xs, rfl⟩, clear_nil, hx⟩
    · obtain ⟨after, rfl⟩ := h.split
      exact ⟨⟨after, rfl⟩, clear_cons.mpr ⟨hx, h.clear⟩, h.bad⟩

/-- When badness depends on the position, and the first element is at the given one. -/
theorem isFirst_cons_position {P : Nat → α → Prop} {position : Nat} :
    IsFirst (fun before => P (position + before.length)) (x :: xs) before y ↔
      (before = [] ∧ y = x ∧ P position x) ∨
        ∃ front, before = x :: front ∧ ¬ P position x ∧
          IsFirst (fun before => P (position + 1 + before.length)) xs front y := by
  have hshift : (fun front : List α => P (position + (x :: front).length)) =
      fun front => P (position + 1 + front.length) := by
    funext front
    rw [List.length_cons, Nat.add_right_comm, Nat.add_assoc]
  rw [isFirst_cons, hshift]
  rfl

/-- A walk `W` along a list that stops at the first bad element says `R` of it. The walk may
carry a state, which decides nothing. -/
theorem walk_iff_isFirst {σ : Type} {W : σ → Nat → List α → Prop} {P R : Nat → α → Prop}
    (hnil : ∀ s position, ¬ W s position [])
    (hbad : ∀ s position x xs, P position x → (W s position (x :: xs) ↔ R position x))
    (hnext : ∀ s position x xs, ¬ P position x →
      ∃ s', W s position (x :: xs) ↔ W s' (position + 1) xs) (s : σ) (position : Nat) :
    W s position xs ↔
      ∃ before x, IsFirst (fun before => P (position + before.length)) xs before x ∧
        R (position + before.length) x := by
  induction xs generalizing s position with
  | nil => simp [hnil, not_isFirst_nil]
  | cons x xs ih =>
    have hlength : ∀ front : List α,
        position + (x :: front).length = position + 1 + front.length := by
      intro front
      rw [List.length_cons]
      omega
    simp only [isFirst_cons_position]
    by_cases hx : P position x
    · rw [hbad s position x xs hx]
      constructor
      · intro hR
        exact ⟨[], x, .inl ⟨rfl, rfl, hx⟩, hR⟩
      · rintro ⟨_, y, ⟨rfl, rfl, -⟩ | ⟨_, -, hclear, -⟩, hR⟩
        · exact hR
        · exact absurd hx hclear
    · obtain ⟨s', hs'⟩ := hnext s position x xs hx
      rw [hs', ih]
      constructor
      · rintro ⟨front, y, hfirst, hR⟩
        exact ⟨x :: front, y, .inr ⟨front, rfl, hx, hfirst⟩, by rwa [hlength]⟩
      · rintro ⟨_, y, ⟨-, -, hbad⟩ | ⟨front, rfl, -, hfirst⟩, hR⟩
        · exact absurd hbad hx
        · exact ⟨front, y, hfirst, by rwa [hlength] at hR⟩

/-- Where an element is bad there is a first one. -/
theorem exists_isFirst_iff : (∃ before x, IsFirst bad xs before x) ↔ ¬ Clear bad xs := by
  induction xs generalizing bad with
  | nil => simp [not_isFirst_nil, clear_nil]
  | cons x xs ih =>
    rw [clear_cons, not_and_or, not_not, ← ih]
    constructor
    · rintro ⟨before, y, h⟩
      rcases isFirst_cons.mp h with ⟨-, -, hx⟩ | ⟨front, -, -, hfront⟩
      · exact .inl hx
      · exact .inr ⟨front, y, hfront⟩
    · intro h
      by_cases hx : bad [] x
      · exact ⟨[], x, isFirst_cons.mpr (.inl ⟨rfl, rfl, hx⟩)⟩
      · obtain ⟨front, y, hfront⟩ := h.resolve_left hx
        exact ⟨x :: front, y, isFirst_cons.mpr (.inr ⟨front, rfl, hx, hfront⟩)⟩

/-- What reports the fault of the first bad element succeeds when no element is bad. -/
theorem exists_ok_iff_clear {Fault : List α → α → Diagnostic → Prop} {r : Except Diagnostic β}
    (hbad : ∀ before x, bad before x → ∃ e, Fault before x e)
    (h : ∀ e, r = .error e ↔ ∃ before x, IsFirst bad xs before x ∧ Fault before x e) :
    (∃ b, r = .ok b) ↔ Clear bad xs := by
  rw [exists_eq_ok_iff]
  constructor
  · intro hnone
    by_contra hclear
    obtain ⟨before, x, hfirst⟩ := exists_isFirst_iff.mpr hclear
    obtain ⟨e, hfault⟩ := hbad before x hfirst.bad
    exact hnone e ((h e).mpr ⟨before, x, hfirst, hfault⟩)
  · intro hclear e he
    obtain ⟨before, x, hfirst, -⟩ := (h e).mp he
    exact exists_isFirst_iff.mp ⟨before, x, hfirst⟩ hclear

theorem find?_eq_some_iff_isFirst {q : α → Bool} :
    xs.find? q = some x ↔ ∃ before, IsFirst (fun _ x => q x = true) xs before x := by
  rw [List.find?_eq_some_iff_append]
  constructor
  · rintro ⟨hx, before, after, hsplit, hbefore⟩
    refine ⟨before, ⟨after, hsplit⟩, clear_const_iff.mpr ?_, hx⟩
    intro y hy
    simpa using hbefore y hy
  · rintro ⟨before, ⟨after, hsplit⟩, hclear, hx⟩
    refine ⟨hx, before, after, hsplit, ?_⟩
    intro y hy
    simpa using clear_const_iff.mp hclear y hy

/-- The first bad element that a list keeps comes from the first element that gives a bad one. -/
theorem exists_isFirst_filterMap_iff {f : α → Option β} {P Q : β → Prop} :
    (∃ before b, IsFirst (fun _ => P) (xs.filterMap f) before b ∧ Q b) ↔
      ∃ before x b, IsFirst (fun _ x => ∃ c, f x = some c ∧ P c) xs before x ∧
        f x = some b ∧ Q b := by
  constructor
  · rintro ⟨before, b, ⟨⟨after, hsplit⟩, hclear, hb⟩, hQ⟩
    obtain ⟨front, rest, rfl, rfl, hrest⟩ := List.filterMap_eq_append_iff.mp hsplit
    obtain ⟨skipped, x, behind, rfl, hskipped, hx, -⟩ := List.filterMap_eq_cons_iff.mp hrest
    refine ⟨front ++ skipped, x, b, ⟨⟨behind, by simp⟩, clear_const_iff.mpr ?_, b, hx, hb⟩, hx, hQ⟩
    rintro y hy ⟨c, hc, hP⟩
    rcases List.mem_append.mp hy with hy | hy
    · exact clear_const_iff.mp hclear c (List.mem_filterMap.mpr ⟨y, hy, hc⟩) hP
    · rw [hskipped y hy] at hc
      cases hc
  · rintro ⟨front, x, b, ⟨⟨behind, rfl⟩, hclear, c, hc, hP⟩, hx, hQ⟩
    obtain rfl : c = b := Option.some.inj (hc.symm.trans hx)
    refine ⟨front.filterMap f, c, ⟨⟨behind.filterMap f, ?_⟩, clear_const_iff.mpr ?_, hP⟩, hQ⟩
    · rw [List.filterMap_append, List.filterMap_cons_some hx]
    · intro d hd hd'
      obtain ⟨y, hy, hyd⟩ := List.mem_filterMap.mp hd
      exact clear_const_iff.mp hclear y hy ⟨d, hyd, hd'⟩

section Fold

variable {f : β → α → Except Diagnostic β} (Fault : List α → α → Diagnostic → Prop) {b : β}

/-- The fault of a fold is that of its first bad element. -/
theorem foldlM_eq_error_iff
    (hstep : ∀ before c x e, before.foldlM f b = .ok c → (f c x = .error e ↔ Fault before x e))
    {e : Diagnostic} :
    xs.foldlM f b = .error e ↔
      ∃ before x, IsFirst (fun before x => ∃ e, Fault before x e) xs before x ∧
        Fault before x e := by
  induction xs generalizing b Fault with
  | nil =>
    constructor
    · intro h
      cases h
    · rintro ⟨before, x, hfirst, -⟩
      exact absurd hfirst not_isFirst_nil
  | cons x xs ih =>
    have hhead := fun e => hstep [] b x e rfl
    rw [List.foldlM_cons]
    cases hx : f b x with
    | error d =>
      have hbad : Fault [] x d := (hhead d).mp hx
      rw [error_bind, Except.error.injEq]
      constructor
      · rintro rfl
        exact ⟨[], x, isFirst_cons.mpr (.inl ⟨rfl, rfl, d, hbad⟩), hbad⟩
      · rintro ⟨before, y, hfirst, hfault⟩
        rcases isFirst_cons.mp hfirst with ⟨rfl, rfl, -⟩ | ⟨_, -, hclear, -⟩
        · exact Except.error.inj (hx.symm.trans ((hhead e).mpr hfault))
        · exact absurd ⟨d, hbad⟩ hclear
    | ok c =>
      have hclear : ¬ ∃ e, Fault [] x e := by
        rintro ⟨e, he⟩
        rw [(hhead e).mpr he] at hx
        cases hx
      rw [ok_bind, ih (fun before => Fault (x :: before))]
      · constructor
        · rintro ⟨front, y, hfirst, hfault⟩
          exact ⟨x :: front, y, isFirst_cons.mpr (.inr ⟨front, rfl, hclear, hfirst⟩), hfault⟩
        · rintro ⟨before, y, hfirst, hfault⟩
          rcases isFirst_cons.mp hfirst with ⟨-, -, hbad⟩ | ⟨front, rfl, -, hfront⟩
          · exact absurd hbad hclear
          · exact ⟨front, y, hfront, hfault⟩
      · intro before d y e hbefore
        refine hstep (x :: before) d y e ?_
        rw [List.foldlM_cons, hx, ok_bind, hbefore]

/-- A fold succeeds when no element is bad. -/
theorem exists_foldlM_eq_ok_iff
    (hstep : ∀ before c x e, before.foldlM f b = .ok c → (f c x = .error e ↔ Fault before x e)) :
    (∃ c, xs.foldlM f b = .ok c) ↔ Clear (fun before x => ∃ e, Fault before x e) xs :=
  exists_ok_iff_clear (fun _ _ h => h) fun _ => foldlM_eq_error_iff Fault hstep

end Fold

end FourVin
