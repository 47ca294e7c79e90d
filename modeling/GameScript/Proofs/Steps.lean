/-! # Steps one after the other

Rules of the parser and steps of a running program both change a state and may stop. What a sequence
of two of them does is told by what each of them does. -/

namespace GameScript

variable {ε σ α β : Type}

theorem bind_ok {p : EStateM ε σ α} {f : α → EStateM ε σ β} {c c'' : σ} {b : β}
    (h : (p >>= f) c = .ok b c'') : ∃ a c', p c = .ok a c' ∧ f a c' = .ok b c'' := by
  change EStateM.bind p f c = _ at h
  unfold EStateM.bind at h
  split at h
  · exact ⟨_, _, ‹_›, h⟩
  · cases h

theorem bind_error {p : EStateM ε σ α} {f : α → EStateM ε σ β} {c c'' : σ} {e : ε}
    (h : (p >>= f) c = .error e c'') :
    p c = .error e c'' ∨ ∃ a c', p c = .ok a c' ∧ f a c' = .error e c'' := by
  change EStateM.bind p f c = _ at h
  unfold EStateM.bind at h
  split at h
  · exact .inr ⟨_, _, ‹_›, h⟩
  · cases h
    exact .inl ‹_›

theorem bind_eq_of_ok {p : EStateM ε σ α} {f : α → EStateM ε σ β} {c c' : σ} {a : α}
    (h : p c = .ok a c') : (p >>= f) c = f a c' := by
  change EStateM.bind p f c = _
  unfold EStateM.bind
  rw [h]

theorem bind_eq_of_error {p : EStateM ε σ α} {f : α → EStateM ε σ β} {c c' : σ} {e : ε}
    (h : p c = .error e c') : (p >>= f) c = .error e c' := by
  change EStateM.bind p f c = _
  unfold EStateM.bind
  rw [h]

theorem pure_ok {a b : α} {c c' : σ} (h : (pure a : EStateM ε σ α) c = .ok b c') :
    a = b ∧ c = c' := by
  cases h
  exact ⟨rfl, rfl⟩

theorem get_bind (f : σ → EStateM ε σ β) (c : σ) :
    ((get : EStateM ε σ σ) >>= f) c = f c c := rfl

/-! ## Room for steps -/

/-- A call of a function takes three steps more than the block it runs, and so does the comparison of
two arrays or the text of one. What holds without room, and with more room whenever it holds with up to
three steps less, holds with any room. -/
@[elab_as_elim]
theorem room_induction {P : Nat → Prop} (zero : P 0) (one : P 0 → P 1) (two : P 0 → P 1 → P 2)
    (more : ∀ room, P room → P (room + 1) → P (room + 2) → P (room + 3)) : ∀ room, P room
  | 0 => zero
  | 1 => one zero
  | 2 => two zero (one zero)
  | room + 3 =>
    more room (room_induction zero one two more room) (room_induction zero one two more (room + 1))
      (room_induction zero one two more (room + 2))

end GameScript
