import IntervalAutomata.Limits

/-! # Outcomes of constructions

The outcome of a construction is a plain `Except`: reports do not change it, and a sequence goes on
exactly when its first part succeeds. -/

namespace IntervalAutomata

/-- Events are kept in order however a sequence is bracketed. -/
instance {ε : Type} : LawfulMonad (Journal ε) :=
  LawfulMonad.mk' _ (fun j => congrArg (Journal.mk j.value) (List.append_nil j.events))
    (fun _ _ => rfl)
    fun j _ _ => congrArg (Journal.mk _) (List.append_assoc j.events _ _)

namespace Build

variable {α β : Type}

@[simp] theorem outcome_pure (x : α) : (pure x : Build α).outcome = .ok x := rfl

@[simp] theorem outcome_throw (err : BuildError) : (throw err : Build α).outcome = .error err := rfl

@[simp] theorem outcome_lift (j : Journal Event α) : (liftM j : Build α).outcome = .ok j.value := rfl

theorem outcome_bind (b : Build α) (f : α → Build β) :
    (b >>= f).outcome = b.outcome.bind fun x => (f x).outcome := by
  show ((ExceptT.run b) >>= fun r => ExceptT.bindCont f r).value = _
  rw [Journal.value_bind]
  show (ExceptT.bindCont f b.outcome).value = _
  cases b.outcome <;> rfl

theorem outcome_bind_eq_ok {b : Build α} {f : α → Build β} {y : β} :
    (b >>= f).outcome = .ok y ↔ ∃ x, b.outcome = .ok x ∧ (f x).outcome = .ok y := by
  rw [outcome_bind]
  cases b.outcome with
  | error err => simp [Except.bind]
  | ok x => simp [Except.bind]

theorem outcome_pure_eq_ok {x y : α} : (pure x : Build α).outcome = .ok y ↔ x = y :=
  ⟨Except.ok.inj, congrArg _⟩

/-- A report on the way changes nothing. -/
theorem outcome_reported {e : Event} {x y : α} :
    (do report e; return x : Build α).outcome = .ok y ↔ x = y :=
  ⟨Except.ok.inj, congrArg _⟩

theorem exists_outcome_eq_ok {b : Build α} (h : b.outcome.toOption.isSome = true) :
    ∃ x, b.outcome = .ok x := by
  cases hb : b.outcome with
  | error err =>
    rw [hb] at h
    cases h
  | ok x => exact ⟨x, rfl⟩

theorem value_getD {b : Build α} {x : α} (default : α) (h : b.outcome = .ok x) :
    (b.getD default).value = x := by
  rw [getD, h]
  rfl

/-! ## Errors of sequences -/

variable {b : Build α} {f : α → Build β} {errors : BuildError → Prop} {x : α}

/-- Whatever the construction fails with is one of these errors. -/
def FailsWith (errors : BuildError → Prop) (b : Build α) : Prop :=
  ∀ err, b.outcome = .error err → errors err

theorem failsWith_of_ok (h : b.outcome = .ok x) : b.FailsWith errors := fun _ herr =>
  nomatch h.symm.trans herr

theorem failsWith_pure (x : α) : (pure x : Build α).FailsWith errors := failsWith_of_ok rfl

theorem FailsWith.bind (hb : b.FailsWith errors)
    (hf : ∀ x, b.outcome = .ok x → (f x).FailsWith errors) : (b >>= f).FailsWith errors := by
  intro err herr
  rw [outcome_bind] at herr
  cases hx : b.outcome with
  | error err' =>
    rw [hx] at herr
    exact Except.error.inj herr ▸ hb err' hx
  | ok x =>
    rw [hx] at herr
    exact hf x hx err herr

end Build

@[simp] theorem outcome_exceedsStates {α : Type} (limit : Nat) :
    (Limits.exceedsStates limit : Build α).outcome = .error (.stateLimit limit) := rfl

/-- Only a ceiling below the count stops anything. -/
theorem Limits.checkStates_cases (limits : Limits) (count : Nat) :
    (limits.checkStates count).outcome = .ok () ∧ (∀ n, limits.maxStates = some n → count ≤ n) ∨
    ∃ n, (limits.checkStates count).outcome = .error (.stateLimit n) ∧
      limits.maxStates = some n ∧ n < count := by
  unfold Limits.checkStates
  split
  · rename_i n hn
    split
    · exact .inr ⟨n, rfl, hn, ‹_›⟩
    · exact .inl ⟨rfl, fun n' hn' =>
        Option.some.inj (hn.symm.trans hn') ▸ Nat.le_of_not_lt ‹_›⟩
  · rename_i hn
    exact .inl ⟨rfl, fun n' hn' => nomatch hn.symm.trans hn'⟩

theorem Limits.outcome_checkStates {limits : Limits} {count : Nat}
    (h : ∀ n, limits.maxStates = some n → count ≤ n) : (limits.checkStates count).outcome = .ok () := by
  obtain ⟨hok, -⟩ | ⟨n, -, hn, hlt⟩ := limits.checkStates_cases count
  · exact hok
  · exact absurd (h n hn) (Nat.not_le_of_lt hlt)

theorem Limits.checkStates_eq_ok {limits : Limits} {n count : Nat} (hn : limits.maxStates = some n)
    {u : Unit} (h : (limits.checkStates count).outcome = .ok u) : count ≤ n := by
  obtain ⟨-, hle⟩ | ⟨_, herr, -⟩ := limits.checkStates_cases count
  · exact hle n hn
  · cases h.symm.trans herr

theorem Limits.checkStates_failsWith {limits : Limits} {errors : BuildError → Prop} {k : Nat}
    (hstates : ∀ n, limits.maxStates = some n → errors (.stateLimit n)) :
    (limits.checkStates k).FailsWith errors := by
  unfold checkStates
  split
  · rename_i n hn
    split
    · rintro _ ⟨⟩
      exact hstates n hn
    · exact Build.failsWith_pure _
  · exact Build.failsWith_pure _

theorem exceedsStates_bind {α β : Type} (limit : Nat) (f : α → Build β) :
    (Limits.exceedsStates limit >>= f) = Limits.exceedsStates limit := by
  unfold Limits.exceedsStates
  rw [bind_assoc]
  rfl

end IntervalAutomata
