import Mathlib.Tactic.Common

/-!
# Programs that can fail

A program changes a state and ends with a value, or it fails. Its weakest precondition asks for
a postcondition where it ends, and that it fails in no other way than the ones that are allowed.
-/

namespace AflPlusPlus.CheckedPrograms

variable {σ ε α β : Type}

abbrev Program (σ ε α : Type) := StateT σ (Except ε) α

def fail (e : ε) : Program σ ε α := fun _ => .error e

def wp (allowed : ε → Prop) (p : Program σ ε α) (Q : α → σ → Prop) (s : σ) : Prop :=
  match p s with
  | .ok (a, t) => Q a t
  | .error e => allowed e

variable {allowed : ε → Prop} {p : Program σ ε α} {Q R : α → σ → Prop} {s : σ}

@[simp] theorem wp_pure {a : α} : wp allowed (pure a) Q s = Q a s := rfl

@[simp] theorem wp_fail {e : ε} : wp allowed (fail e) Q s = allowed e := rfl

@[simp] theorem wp_get {Q : σ → σ → Prop} :
    wp allowed (get : Program σ ε σ) Q s = Q s s := rfl

@[simp] theorem wp_set {t : σ} {Q : PUnit → σ → Prop} :
    wp allowed (set t : Program σ ε PUnit) Q s = Q ⟨⟩ t := rfl

@[simp] theorem wp_modify {g : σ → σ} {Q : PUnit → σ → Prop} :
    wp allowed (modify g : Program σ ε PUnit) Q s = Q ⟨⟩ (g s) := rfl

theorem wp_bind {f : α → Program σ ε β} {Q : β → σ → Prop} :
    wp allowed (p >>= f) Q s = wp allowed p (fun a t => wp allowed (f a) Q t) s := by
  unfold wp
  simp only [bind, StateT.bind, Except.bind]
  cases p s <;> rfl

theorem wp_ite {c : Prop} [Decidable c] {q : Program σ ε α} (hp : c → wp allowed p Q s)
    (hq : ¬c → wp allowed q Q s) : wp allowed (if c then p else q) Q s := by
  split
  · next h => exact hp h
  · next h => exact hq h

theorem wp_mono (h : wp allowed p Q s) (hQR : ∀ a t, Q a t → R a t) : wp allowed p R s := by
  unfold wp at h ⊢
  cases hp : p s with
  | ok r =>
    rw [hp] at h
    exact hQR r.1 r.2 h
  | error e =>
    rw [hp] at h
    exact h

/-- A part of a program is replaced by what is known of it. -/
theorem wp_cut {f : α → Program σ ε β} {S : β → σ → Prop} (h : wp allowed p Q s)
    (hf : ∀ a t, Q a t → wp allowed (f a) S t) : wp allowed (p >>= f) S s := by
  rw [wp_bind]
  exact wp_mono h hf

theorem wp_of_ok {a : α} {t : σ} (h : wp allowed p Q s) (hp : p s = .ok (a, t)) : Q a t := by
  unfold wp at h
  rwa [hp] at h

theorem wp_of_error {e : ε} (h : wp allowed p Q s) (hp : p s = .error e) : allowed e := by
  unfold wp at h
  rwa [hp] at h

/-- What holds of every end of the program may be assumed of the end. -/
theorem wp_of_forall (h : wp allowed p Q s) (hR : ∀ a t, p s = .ok (a, t) → R a t) :
    wp allowed p (fun a t => Q a t ∧ R a t) s := by
  unfold wp at h ⊢
  cases hp : p s with
  | ok r =>
    rw [hp] at h
    exact ⟨h, hR r.1 r.2 hp⟩
  | error e =>
    rw [hp] at h
    exact h

/-! ## Runs -/

theorem bind_ok {f : α → Program σ ε β} {a : α} {t : σ} (h : p s = .ok (a, t)) :
    (p >>= f) s = f a t := by
  simp only [bind, StateT.bind, Except.bind, h]

theorem wp_ok_iff {a : α} {t : σ} (h : p s = .ok (a, t)) : wp allowed p Q s ↔ Q a t := by
  rw [wp, h]

theorem wp_error_iff {e : ε} (h : p s = .error e) : wp allowed p Q s ↔ allowed e := by
  rw [wp, h]

theorem bind_error {f : α → Program σ ε β} {e : ε} (h : p s = .error e) :
    (p >>= f) s = .error e := by
  simp only [bind, StateT.bind, Except.bind, h]

/-! ## Loops -/

end AflPlusPlus.CheckedPrograms
