import FourVin.Diagnostic
import Mathlib.Data.List.Forall2

/-!
Computations that stop at their first fault. A sequence of two of them succeeds when both do, and
then the fault of the whole is that of the first that fails. Two computations that run in step with
each other end alike when their steps do: with the same fault, or with faults of one kind.
-/
namespace FourVin

variable {α β ε : Type}

@[simp] theorem ok_bind (a : α) (f : α → Except ε β) : (Except.ok a >>= f) = f a := rfl

@[simp] theorem error_bind (d : ε) (f : α → Except ε β) :
    (Except.error d >>= f) = .error d := rfl

theorem exists_eq_ok_iff {x : Except Diagnostic α} :
    (∃ a, x = .ok a) ↔ ∀ d, x ≠ .error d := by
  cases x with
  | error e => simp
  | ok a => simp

theorem bind_eq_ok_iff {x : Except ε α} {f : α → Except ε β} {b : β} :
    x >>= f = .ok b ↔ ∃ a, x = .ok a ∧ f a = .ok b := by
  cases x with
  | error d => simp
  | ok a => simp

theorem bind_eq_error_iff {x : Except ε α} {f : α → Except ε β} {d : ε} :
    x >>= f = .error d ↔ x = .error d ∨ ∃ a, x = .ok a ∧ f a = .error d := by
  cases x with
  | error e => simp
  | ok a => simp

theorem bind_pure_eq_error_iff {x : Except Diagnostic α} {f : α → β} {d : Diagnostic} :
    (do
      let a ← x
      return f a) = .error d ↔ x = .error d := by
  cases x with
  | error e => simp
  | ok a => simp

/-- A fault of a fold is the fault of one of its steps. -/
theorem exists_error_of_foldlM {f : β → α → Except Diagnostic β} {xs : List α} {b : β}
    {d : Diagnostic} (h : xs.foldlM f b = .error d) : ∃ x ∈ xs, ∃ c, f c x = .error d := by
  induction xs generalizing b with
  | nil => cases h
  | cons x rest ih =>
    rw [List.foldlM_cons] at h
    rcases bind_eq_error_iff.mp h with hx | ⟨c, -, hrest⟩
    · exact ⟨x, by simp, b, hx⟩
    · obtain ⟨y, hy, e, he⟩ := ih hrest
      exact ⟨y, by simp [hy], e, he⟩

/-- A fold whose steps check their elements and otherwise compute is a check of all elements and a
fold of the computation. -/
theorem foldlM_eq_ok_iff {f : β → α → Except Diagnostic β} {g : β → α → β} {P : α → Prop}
    (hf : ∀ b x c, f b x = .ok c ↔ P x ∧ c = g b x) {xs : List α} {b c : β} :
    xs.foldlM f b = .ok c ↔ (∀ x ∈ xs, P x) ∧ c = xs.foldl g b := by
  induction xs generalizing b with
  | nil => simp [pure, Except.pure, eq_comm]
  | cons x rest ih =>
    rw [List.foldlM_cons, bind_eq_ok_iff, List.forall_mem_cons, List.foldl_cons]
    constructor
    · intro h
      obtain ⟨d, hx, hrest⟩ := h
      obtain ⟨hP, rfl⟩ := (hf b x d).mp hx
      obtain ⟨hPs, hc⟩ := ih.mp hrest
      exact ⟨⟨hP, hPs⟩, hc⟩
    · intro h
      obtain ⟨⟨hP, hPs⟩, hc⟩ := h
      exact ⟨g b x, (hf b x _).mpr ⟨hP, rfl⟩, ih.mpr ⟨hPs, hc⟩⟩

/-- Two computations end alike: in results that `R` relates, or with faults that `E` relates. -/
inductive EndAlike (E : Diagnostic → Diagnostic → Prop) (R : α → β → Prop) :
    Except Diagnostic α → Except Diagnostic β → Prop
  | ok {a : α} {b : β} : R a b → EndAlike E R (.ok a) (.ok b)
  | error {d e : Diagnostic} : E d e → EndAlike E R (.error d) (.error e)

namespace EndAlike

variable {γ δ : Type} {E : Diagnostic → Diagnostic → Prop} {R : α → β → Prop} {S : γ → δ → Prop}

theorem exists_error_or_ok {x : Except Diagnostic α} {y : Except Diagnostic β}
    (h : EndAlike E R x y) :
    (∃ d e, x = .error d ∧ y = .error e ∧ E d e) ∨ ∃ a b, x = .ok a ∧ y = .ok b ∧ R a b := by
  cases h with
  | ok hab => exact .inr ⟨_, _, rfl, rfl, hab⟩
  | error hde => exact .inl ⟨_, _, rfl, rfl, hde⟩

theorem bind {x : Except Diagnostic α} {y : Except Diagnostic β} {f : α → Except Diagnostic γ}
    {g : β → Except Diagnostic δ} (h : EndAlike E R x y)
    (hfg : ∀ a b, R a b → EndAlike E S (f a) (g b)) : EndAlike E S (x >>= f) (y >>= g) := by
  cases h with
  | ok hab => exact hfg _ _ hab
  | error hde => exact .error hde

theorem imp {x : Except Diagnostic α} {y : Except Diagnostic β}
    {F : Diagnostic → Diagnostic → Prop} {T : α → β → Prop} (h : EndAlike E R x y)
    (hfaults : ∀ d e, E d e → F d e) (hresults : ∀ a b, R a b → T a b) : EndAlike F T x y := by
  cases h with
  | ok hab => exact .ok (hresults _ _ hab)
  | error hde => exact .error (hfaults _ _ hde)

/-- Computations that end like a third one end alike. -/
theorem join {x : Except Diagnostic α} {y : Except Diagnostic β} {z : Except Diagnostic γ}
    {E' F : Diagnostic → Diagnostic → Prop} {R : α → γ → Prop} {S : β → γ → Prop}
    {T : α → β → Prop} (h : EndAlike E R x z) (h' : EndAlike E' S y z)
    (hfaults : ∀ d e c, E d c → E' e c → F d e) (hresults : ∀ a b c, R a c → S b c → T a b) :
    EndAlike F T x y := by
  cases h with
  | ok hac =>
    cases h' with
    | ok hbc => exact .ok (hresults _ _ _ hac hbc)
  | error hdc =>
    cases h' with
    | error hec => exact .error (hfaults _ _ _ hdc hec)

/-- Folds over related lists end alike when all their steps do. -/
theorem foldlM {f : γ → α → Except Diagnostic γ} {g : δ → β → Except Diagnostic δ} {xs : List α}
    {ys : List β} (hstep : ∀ c d x y, S c d → R x y → EndAlike E S (f c x) (g d y))
    (hxs : List.Forall₂ R xs ys) {c : γ} {d : δ} (h : S c d) :
    EndAlike E S (xs.foldlM f c) (ys.foldlM g d) := by
  induction hxs generalizing c d with
  | nil => exact .ok h
  | cons hxy _ ih =>
    rw [List.foldlM_cons, List.foldlM_cons]
    exact (hstep _ _ _ _ h hxy).bind fun _ _ hnext => ih hnext

end EndAlike

/-- Two causes are of one kind: they are built by the same constructor. -/
def Cause.SameVariant (a b : Cause) : Prop := a.ctorIdx = b.ctorIdx

def Diagnostic.Alike (L : Location → Location → Prop) (d e : Diagnostic) : Prop :=
  d.cause.SameVariant e.cause ∧ L d.location e.location

end FourVin
