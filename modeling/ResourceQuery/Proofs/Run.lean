/-!
# Runs of stateful steps

How a sequence of steps that carry a state and may fail runs: it succeeds just if its first step
does and the steps behind it do from where the first one stopped.
-/

namespace ResourceQuery.Run

variable {ε σ α β : Type} {step : EStateM ε σ α} {next : α → EStateM ε σ β} {state middle : σ}

theorem bind_ok {a : α} (h : step state = .ok a middle) :
    (step >>= next) state = next a middle := by
  show EStateM.bind step next state = _
  simp [EStateM.bind, h]

theorem bind_error {error : ε} (h : step state = .error error middle) :
    (step >>= next) state = .error error middle := by
  show EStateM.bind step next state = _
  simp [EStateM.bind, h]

theorem bind_eq_ok {b : β} {last : σ} :
    (step >>= next) state = .ok b last ↔
      ∃ a middle, step state = .ok a middle ∧ next a middle = .ok b last := by
  cases h : step state with
  | ok a middle =>
    rw [bind_ok h]
    constructor
    · exact fun hb ↦ ⟨a, middle, rfl, hb⟩
    · rintro ⟨a, middle, ha, hb⟩
      cases ha
      exact hb
  | error error middle =>
    rw [bind_error h]
    constructor
    · exact fun hb ↦ nomatch hb
    · rintro ⟨a, middle, ha, -⟩
      cases ha

theorem pure_eq_ok {a b : α} {last : σ} :
    (pure a : EStateM ε σ α) state = .ok b last ↔ a = b ∧ state = last := by
  show EStateM.Result.ok a state = _ ↔ _
  simp

/-- Steps with the same outcome may stand for each other. -/
theorem bind_congr {other : EStateM ε σ α} {there : σ} (h : step state = other there) :
    (step >>= next) state = (other >>= next) there := by
  show EStateM.bind step next state = EStateM.bind other next there
  simp only [EStateM.bind, h]

/-- What is made of the result of a step. -/
theorem map_ok {f : α → β} {a : α} (h : step state = .ok a middle) :
    (do return f (← step)) state = .ok (f a) middle := by
  rw [bind_ok h]
  rfl

theorem map_eq_ok {f : α → β} {b : β} {last : σ} :
    (do return f (← step)) state = .ok b last ↔ ∃ a, step state = .ok a last ∧ f a = b := by
  rw [bind_eq_ok]
  constructor
  · rintro ⟨a, middle, ha, hb⟩
    obtain ⟨rfl, rfl⟩ := pure_eq_ok.mp hb
    exact ⟨a, ha, rfl⟩
  · rintro ⟨a, ha, rfl⟩
    exact ⟨a, last, ha, rfl⟩

end ResourceQuery.Run
