import LayeredConfig.Proofs.Outcome
import LayeredConfig.Yaml.Drafts

/-!
# What a conversion gives

Conversions of documents claim lines on the way. What is said of one holds whatever was claimed before:
that all it gives satisfies a predicate (`Yields`), and also when it gives something at all (`Gives`). Where
the lines that are claimed matter, it is said of some of them (`YieldsFrom`). All are put together along the
conversion's own steps.
-/

namespace LayeredConfig.Yaml

variable {α β : Type} {x : Conversion α} {f : α → Conversion β} {P P' : Prop} {Q : α → Prop} {R : β → Prop}

/-- Whatever a conversion gives satisfies `Q`. -/
def Yields (x : Conversion α) (Q : α → Prop) : Prop := ∀ claimed r, x claimed = .ok r → Q r.1

namespace Yields

theorem pure {a : α} (h : Q a) : Yields (pure a) Q := by
  rintro claimed _ ⟨⟩
  exact h

theorem throw {e : LoadError} : Yields (throw e : Conversion α) Q := nofun

theorem mono (hx : Yields x Q) {Q' : α → Prop} (weaker : ∀ a, Q a → Q' a) : Yields x Q' :=
  fun claimed r done => weaker _ (hx claimed r done)

theorem bind (hx : Yields x Q) (next : ∀ a, Q a → Yields (f a) R) : Yields (x >>= f) R := by
  intro claimed r done
  obtain ⟨a, s, first, second⟩ := Outcome.run_bind_eq_ok.1 done
  exact next a (hx claimed (a, s) first) s r second

/-- What goes on after a step of which nothing is asked. -/
theorem after (next : ∀ a, Yields (f a) R) : Yields (x >>= f) R :=
  .bind (Q := fun _ => True) (fun _ _ _ => trivial) fun a _ => next a

theorem lift {y : Except LoadError α} (h : ∀ a, y = .ok a → Q a) : Yields (liftM y) Q := by
  cases y with
  | error e => exact nofun
  | ok a => exact .pure (h a rfl)

/-- What goes on after a check. -/
theorem check {p : Prop} [Decidable p] {e : LoadError} {g : PUnit → Conversion β}
    (h : ¬p → Yields (g ⟨⟩) R) :
    Yields (if p then (MonadExcept.throw e : Conversion PUnit) >>= g else g ⟨⟩) R := by
  split
  · exact nofun
  · rename_i passed
    exact h passed

end Yields

/-- Whatever a conversion gives from some claimed lines satisfies `Q` with the lines that are claimed then. -/
def YieldsFrom (claimed : Claimed) (x : Conversion α) (Q : α → Claimed → Prop) : Prop :=
  ∀ r, x claimed = .ok r → Q r.1 r.2

namespace YieldsFrom

variable {claimed : Claimed} {Q : α → Claimed → Prop} {R : β → Claimed → Prop}

theorem pure {a : α} (h : Q a claimed) : YieldsFrom claimed (pure a) Q := by
  rintro _ ⟨⟩
  exact h

theorem throw {e : LoadError} : YieldsFrom claimed (throw e : Conversion α) Q := nofun

theorem mono (hx : YieldsFrom claimed x Q) {Q' : α → Claimed → Prop}
    (weaker : ∀ a claimed', Q a claimed' → Q' a claimed') :
    YieldsFrom claimed x Q' := fun r done => weaker _ _ (hx r done)

theorem bind (hx : YieldsFrom claimed x Q) (next : ∀ a claimed', Q a claimed' → YieldsFrom claimed' (f a) R) :
    YieldsFrom claimed (x >>= f) R := by
  intro r done
  obtain ⟨a, claimed', first, second⟩ := Outcome.run_bind_eq_ok.1 done
  exact next a claimed' (hx (a, claimed') first) r second

theorem lift {y : Except LoadError α} (next : ∀ a, y = .ok a → YieldsFrom claimed (f a) R) :
    YieldsFrom claimed ((liftM y : Conversion α) >>= f) R := by
  cases y with
  | error e => exact nofun
  | ok a => exact next a rfl

theorem modifyGet {g : Claimed → α × Claimed} (h : Q (g claimed).1 (g claimed).2) :
    YieldsFrom claimed (modifyGet g : Conversion α) Q := by
  rintro _ ⟨⟩
  exact h

/-- What goes on after a check. -/
theorem check {p : Prop} [Decidable p] {e : LoadError} {g : PUnit → Conversion β} (h : YieldsFrom claimed (g ⟨⟩) R) :
    YieldsFrom claimed (if p then (MonadExcept.throw e : Conversion PUnit) >>= g else g ⟨⟩) R := by
  split
  · exact nofun
  · exact h

end YieldsFrom

/-- A conversion succeeds iff `P`, and then with a result that satisfies `Q`. -/
structure Gives (x : Conversion α) (P : Prop) (Q : α → Prop) : Prop where
  succeeds : ∀ claimed, (∃ r, x claimed = .ok r) ↔ P
  result : Yields x Q

namespace Gives

theorem pure {a : α} (h : Q a) : Gives (pure a) True Q :=
  ⟨fun claimed => iff_of_true ⟨(a, claimed), rfl⟩ trivial, .pure h⟩

theorem throw {e : LoadError} : Gives (throw e : Conversion α) False Q :=
  ⟨fun _ => iff_of_false nofun id, .throw⟩

theorem lift {a : α} {y : Except LoadError α} (h : y = .ok a) (next : Gives (f a) P R) :
    Gives ((liftM y : Conversion α) >>= f) P R := by
  subst h
  exact next

theorem modifyGet (g : Claimed → α × Claimed) : Gives (modifyGet g : Conversion α) True fun _ => True :=
  ⟨fun claimed => iff_of_true ⟨g claimed, rfl⟩ trivial, fun _ _ _ => trivial⟩

theorem bind (h : Gives x P Q) (next : ∀ a, Q a → Gives (f a) P' R) : Gives (x >>= f) (P ∧ P') R := by
  refine ⟨fun claimed => ⟨?_, ?_⟩, h.result.bind fun a ha => (next a ha).result⟩
  · rintro ⟨r, done⟩
    obtain ⟨a, s, first, second⟩ := Outcome.run_bind_eq_ok.1 done
    exact ⟨(h.succeeds claimed).1 ⟨_, first⟩, ((next a (h.result _ _ first)).succeeds s).1 ⟨r, second⟩⟩
  · rintro ⟨p, p'⟩
    obtain ⟨⟨a, s⟩, first⟩ := (h.succeeds claimed).2 p
    obtain ⟨r, second⟩ := ((next a (h.result _ _ first)).succeeds s).2 p'
    exact ⟨r, Outcome.run_bind_eq_ok.2 ⟨a, s, first, second⟩⟩

theorem congr (h : Gives x P Q) (same : P ↔ P') {Q' : α → Prop} (weaker : ∀ a, Q a → Q' a) : Gives x P' Q' :=
  ⟨fun claimed => (h.succeeds claimed).trans same, h.result.mono weaker⟩

/-- What goes on after a check. -/
theorem check {p : Prop} [Decidable p] {e : LoadError} {g : PUnit → Conversion β} (h : Gives (g ⟨⟩) P R) :
    Gives (if p then (MonadExcept.throw e : Conversion PUnit) >>= g else g ⟨⟩) (¬p ∧ P) R := by
  refine ⟨fun claimed => ?_, .check fun _ => h.result⟩
  by_cases hp : p
  · rw [if_pos hp]
    exact iff_of_false nofun fun h => h.1 hp
  · rw [if_neg hp, and_iff_right hp]
    exact h.succeeds claimed

end Gives

end LayeredConfig.Yaml
