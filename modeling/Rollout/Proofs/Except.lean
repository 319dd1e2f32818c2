/-!
Steps that may fail: what is known where they do not.
-/

namespace Rollout

variable {ε δ α β : Type}

instance decidableEqExcept [DecidableEq ε] [DecidableEq α] : DecidableEq (Except ε α)
  | .error d, .error e => decidable_of_iff (d = e) ⟨congrArg _, Except.error.inj⟩
  | .ok a, .ok b => decidable_of_iff (a = b) ⟨congrArg _, Except.ok.inj⟩
  | .error _, .ok _ => .isFalse nofun
  | .ok _, .error _ => .isFalse nofun

theorem bind_eq_ok {x : Except ε α} {f : α → Except ε β} {b : β} :
    (x >>= f) = .ok b ↔ ∃ a, x = .ok a ∧ f a = .ok b := by
  cases x with
  | error e => exact ⟨nofun, fun ⟨_, h, _⟩ => nomatch h⟩
  | ok a =>
      constructor
      · exact fun h => ⟨a, rfl, h⟩
      · rintro ⟨_, ha, h⟩
        cases ha
        exact h

theorem map_eq_ok {x : Except ε α} {f : α → β} {b : β} :
    x.map f = .ok b ↔ ∃ a, x = .ok a ∧ f a = b := by
  cases x with
  | error e => exact ⟨nofun, fun ⟨_, h, _⟩ => nomatch h⟩
  | ok a =>
      constructor
      · exact fun h => ⟨a, rfl, Except.ok.inj h⟩
      · rintro ⟨_, ha, h⟩
        cases ha
        exact congrArg Except.ok h

theorem map_eq_error {x : Except ε α} {f : α → β} {e : ε} :
    x.map f = .error e ↔ x = .error e := by
  cases x with
  | error d =>
      constructor
      · exact fun h => congrArg _ (Except.error.inj h)
      · exact fun h => congrArg _ (Except.error.inj h)
  | ok a => exact ⟨nofun, nofun⟩

theorem mapError_eq_ok {x : Except ε α} {f : ε → δ} {a : α} :
    x.mapError f = .ok a ↔ x = .ok a := by
  cases x with
  | error e => exact ⟨nofun, nofun⟩
  | ok b => exact ⟨fun h => congrArg _ (Except.ok.inj h), fun h => congrArg _ (Except.ok.inj h)⟩

section Guard

variable {σ : Type} {p : Prop} [Decidable p] {d e : ε} {a x : α} {s t u : σ}

/-- A step that checks one thing first fails exactly if this is the case. -/
theorem fst_guard_eq_error :
    (if p then (Except.error d, s) else (.ok a, t)).1 = .error e ↔ p ∧ e = d := by
  split
  · next hp =>
      constructor
      · intro h
        cases h
        exact ⟨hp, rfl⟩
      · rintro ⟨-, rfl⟩
        rfl
  · next hp => exact ⟨nofun, fun h => absurd h.1 hp⟩

/-- Where it fails, it leaves what it leaves then. -/
theorem snd_guard_of_error (h : (if p then (Except.error d, s) else (.ok a, t)).1 = .error e) :
    (if p then (Except.error d, s) else (.ok a, t)).2 = s := by
  rw [if_pos (fst_guard_eq_error.mp h).1]

theorem guard_eq_ok :
    (if p then (Except.error d, s) else (.ok a, t)) = (.ok x, u) ↔ ¬ p ∧ x = a ∧ u = t := by
  split
  · next hp => exact ⟨nofun, fun h => absurd hp h.1⟩
  · next hp =>
      constructor
      · intro h
        cases h
        exact ⟨hp, rfl, rfl⟩
      · rintro ⟨-, rfl, rfl⟩
        rfl

end Guard

/-- Two steps fail together, or their results are related. -/
def Together (r : α → β → Prop) (x : Except ε α) (y : Except ε β) : Prop :=
  (∃ e e', x = .error e ∧ y = .error e') ∨ ∃ a b, x = .ok a ∧ y = .ok b ∧ r a b

theorem Together.mono {r q : α → β → Prop} {x : Except ε α} {y : Except ε β}
    (h : Together r x y) (hrq : ∀ a b, r a b → q a b) : Together q x y := by
  rcases h with h | ⟨a, b, ha, hb, hab⟩
  · exact .inl h
  · exact .inr ⟨a, b, ha, hb, hrq a b hab⟩

theorem Together.bind {γ κ : Type} {r : α → β → Prop} {q : γ → κ → Prop} {x : Except ε α}
    {y : Except ε β} {f : α → Except ε γ} {g : β → Except ε κ} (h : Together r x y)
    (hf : ∀ a b, r a b → Together q (f a) (g b)) : Together q (x >>= f) (y >>= g) := by
  rcases h with ⟨e, e', rfl, rfl⟩ | ⟨a, b, rfl, rfl, hab⟩
  · exact .inl ⟨e, e', rfl, rfl⟩
  · exact hf a b hab

/-- What each step keeps is kept by all of them. -/
theorem foldlM_induction {f : β → α → Except ε β} {P : β → Prop} {l : List α} {b r : β}
    (hstep : ∀ a ∈ l, ∀ b c, P b → f b a = .ok c → P c) (hb : P b) (h : l.foldlM f b = .ok r) :
    P r := by
  induction l generalizing b with
  | nil =>
      cases h
      exact hb
  | cons a l ih =>
      rw [List.forall_mem_cons] at hstep
      rw [List.foldlM_cons, bind_eq_ok] at h
      obtain ⟨c, hc, hr⟩ := h
      exact ih hstep.2 (hstep.1 b c hb hc) hr

end Rollout
