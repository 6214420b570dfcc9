import Mathlib.Data.List.Basic

/-!
# Steps that may fail

When a sequence of steps in `Except` succeeds, and what an error of the sequence says of a step.
-/

namespace LayeredConfig.Outcome

variable {ε α β : Type}

theorem bind_eq_ok {x : Except ε α} {f : α → Except ε β} {b : β} :
    (x >>= f) = .ok b ↔ ∃ a, x = .ok a ∧ f a = .ok b := by
  cases x <;> simp [Bind.bind, Except.bind]

theorem bind_eq_error {x : Except ε α} {f : α → Except ε β} {e : ε} :
    (x >>= f) = .error e ↔ x = .error e ∨ ∃ a, x = .ok a ∧ f a = .error e := by
  cases x <;> simp [Bind.bind, Except.bind]

theorem pure_eq_ok {a b : α} : (pure a : Except ε α) = .ok b ↔ a = b :=
  ⟨fun h => by cases h; rfl, fun h => by rw [h]; rfl⟩

/-- What goes on after a check succeeds iff the check passes and it does. -/
theorem check_eq_ok {p : Prop} [Decidable p] {e : ε} {f : PUnit → Except ε β} {b : β} :
    (if p then (throw e : Except ε PUnit) >>= f else f ⟨⟩) = .ok b ↔ ¬p ∧ f ⟨⟩ = .ok b := by
  by_cases hp : p
  · rw [if_pos hp]
    exact ⟨fun h => (by cases h), fun h => absurd hp h.1⟩
  · rw [if_neg hp]
    exact ⟨fun h => ⟨hp, h⟩, And.right⟩

/-- A sequence of two steps with a state succeeds iff the first does and then the second. -/
theorem run_bind_eq_ok {σ : Type} {x : StateT σ (Except ε) α} {f : α → StateT σ (Except ε) β} {s : σ}
    {r : β × σ} : (x >>= f) s = .ok r ↔ ∃ a s', x s = .ok (a, s') ∧ f a s' = .ok r := by
  change (x s >>= fun p => f p.1 p.2) = .ok r ↔ _
  rw [bind_eq_ok, Prod.exists]

theorem run'_eq_ok {σ : Type} {x : StateT σ (Except ε) α} {s : σ} {a : α} :
    x.run' s = .ok a ↔ ∃ s', x s = .ok (a, s') := by
  rw [StateT.run']
  cases x s with
  | error e => exact iff_of_false nofun fun ⟨_, h⟩ => nomatch h
  | ok r => exact ⟨fun h => by cases h; exact ⟨r.2, rfl⟩, fun ⟨_, h⟩ => by cases h; rfl⟩

theorem map_eq_ok {f : α → β} {x : Except ε α} {b : β} : x.map f = .ok b ↔ ∃ a, x = .ok a ∧ f a = b := by
  cases x <;> simp [Except.map]

theorem mapError_eq_ok {ε' : Type} {g : ε → ε'} {x : Except ε α} {a : α} :
    x.mapError g = .ok a ↔ x = .ok a := by
  cases x <;> simp [Except.mapError]

theorem isSome_toOption {x : Except ε α} : x.toOption.isSome ↔ ∃ a, x = .ok a := by
  cases x <;> simp [Except.toOption]

theorem toOption_eq_some {x : Except ε α} {a : α} : x.toOption = some a ↔ x = .ok a := by
  cases x <;> simp [Except.toOption]

/-- All steps succeed, with these results. -/
theorem mapM_eq_ok {f : α → Except ε β} {l : List α} {bs : List β} :
    l.mapM f = .ok bs ↔ l.map f = bs.map .ok := by
  induction l generalizing bs with
  | nil =>
    rw [List.mapM_nil, pure_eq_ok, List.map_nil, eq_comm, eq_comm (a := []), List.map_eq_nil_iff]
  | cons a l ih =>
    rw [List.mapM_cons, bind_eq_ok]
    constructor
    · rintro ⟨b, hb, h⟩
      obtain ⟨bs', hbs, h⟩ := bind_eq_ok.1 h
      rw [← pure_eq_ok.1 h, List.map_cons, List.map_cons, hb, ih.1 hbs]
    · intro h
      cases bs with
      | nil => cases h
      | cons b bs =>
        rw [List.map_cons, List.map_cons, List.cons.injEq] at h
        exact ⟨b, h.1, bind_eq_ok.2 ⟨bs, ih.2 h.2, rfl⟩⟩

theorem mapM_congr {f g : α → Except ε β} {l : List α} (h : ∀ a ∈ l, f a = g a) :
    l.mapM f = l.mapM g := by
  induction l with
  | nil => rfl
  | cons a l ih =>
    rw [List.mapM_cons, List.mapM_cons, h a List.mem_cons_self,
      ih fun x hx => h x (List.mem_cons_of_mem a hx)]

/-- A step of a sequence that succeeds gives one of the results. -/
theorem exists_of_mapM_eq_ok {f : α → Except ε β} {l : List α} {bs : List β}
    (h : l.mapM f = .ok bs) {a : α} (ha : a ∈ l) : ∃ b, f a = .ok b := by
  have ha : f a ∈ l.map f := List.mem_map_of_mem ha
  rw [mapM_eq_ok.1 h] at ha
  obtain ⟨b, -, hb⟩ := List.mem_map.1 ha
  exact ⟨b, hb.symm⟩

theorem mapM_mono {f f' : α → Except ε β} (hf : ∀ a b, f a = .ok b → f' a = .ok b) {l : List α}
    {bs : List β} (h : l.mapM f = .ok bs) : l.mapM f' = .ok bs := by
  rw [← h]
  refine mapM_congr fun a ha => ?_
  obtain ⟨b, hb⟩ := exists_of_mapM_eq_ok h ha
  rw [hb, hf a b hb]

theorem mem_of_mapM_eq_ok {f : α → Except ε β} {l : List α} {bs : List β}
    (h : l.mapM f = .ok bs) {b : β} (hb : b ∈ bs) : ∃ a ∈ l, f a = .ok b := by
  have hb : Except.ok b ∈ bs.map (Except.ok (ε := ε)) := List.mem_map_of_mem hb
  rw [← mapM_eq_ok.1 h] at hb
  exact List.mem_map.1 hb

theorem mem_iff_of_mapM_eq_ok {f : α → Except ε β} {l : List α} {bs : List β}
    (h : l.mapM f = .ok bs) {b : β} : b ∈ bs ↔ ∃ a ∈ l, f a = .ok b := by
  refine ⟨mem_of_mapM_eq_ok h, fun ⟨a, ha, hb⟩ => ?_⟩
  have hb : Except.ok b ∈ l.map f := hb ▸ List.mem_map_of_mem ha
  rw [mapM_eq_ok.1 h] at hb
  exact (List.mem_map_of_injective fun _ _ => Except.ok.inj).1 hb

theorem mapM_take {f : α → Except ε β} {l : List α} {bs : List β} (h : l.mapM f = .ok bs) (n : Nat) :
    (l.take n).mapM f = .ok (bs.take n) := by
  rw [mapM_eq_ok, List.map_take, List.map_take, mapM_eq_ok.1 h]

/-- What holds of every result of a step holds of the results of all. -/
theorem forall_of_mapM_eq_ok {Q : β → Prop} {f : α → Except ε β} (hf : ∀ a b, f a = .ok b → Q b)
    {l : List α} {bs : List β} (h : l.mapM f = .ok bs) : ∀ b ∈ bs, Q b := by
  intro b hb
  obtain ⟨a, -, ha⟩ := mem_of_mapM_eq_ok h hb
  exact hf a b ha

/-- If each step succeeds, the sequence does. -/
theorem mapM_of_forall {f : α → Except ε β} {l : List α} (h : ∀ a ∈ l, ∃ b, f a = .ok b) :
    ∃ bs, l.mapM f = .ok bs := by
  induction l with
  | nil => exact ⟨[], rfl⟩
  | cons a l ih =>
    obtain ⟨b, hb⟩ := h a List.mem_cons_self
    obtain ⟨bs, hbs⟩ := ih fun x hx => h x (List.mem_cons_of_mem a hx)
    refine ⟨b :: bs, ?_⟩
    rw [List.mapM_cons, hb, hbs]
    rfl

/-- If the results are those of a function, the sequence gives them in order. -/
theorem mapM_eq_map {f : α → Except ε β} {g : α → β} {l : List α}
    (h : ∀ a ∈ l, f a = .ok (g a)) : l.mapM f = .ok (l.map g) := by
  rw [mapM_eq_ok, List.map_map]
  exact List.map_congr_left h

/-- A sequence whose steps follow those of another has the corresponding results. -/
theorem mapM_map_eq_ok {α' β' : Type} {f : α → Except ε β} {f' : α' → Except ε β'} {g : α → α'}
    {g' : β → β'} (h : ∀ a b, f a = .ok b → f' (g a) = .ok (g' b)) {l : List α} {bs : List β}
    (hl : l.mapM f = .ok bs) : (l.map g).mapM f' = .ok (bs.map g') := by
  rw [mapM_eq_ok] at hl ⊢
  induction l generalizing bs with
  | nil =>
    cases bs with
    | nil => rfl
    | cons b bs => cases hl
  | cons a l ih =>
    cases bs with
    | nil => cases hl
    | cons b bs =>
      rw [List.map_cons, List.map_cons, List.cons.injEq] at hl
      simp only [List.map_cons]
      rw [h a b hl.1, ih hl.2]

/-- The error of a sequence is the error of one of its steps. -/
theorem exists_of_mapM_eq_error {f : α → Except ε β} {l : List α} {e : ε}
    (h : l.mapM f = .error e) : ∃ a ∈ l, f a = .error e := by
  induction l with
  | nil => cases h
  | cons a l ih =>
    rw [List.mapM_cons] at h
    rcases bind_eq_error.1 h with h | ⟨b, -, h⟩
    · exact ⟨a, List.mem_cons_self, h⟩
    · rcases bind_eq_error.1 h with h | ⟨bs, -, h⟩
      · obtain ⟨x, hx, he⟩ := ih h
        exact ⟨x, List.mem_cons_of_mem a hx, he⟩
      · cases h

/-- Two sequences of steps end with the same error, or with results that correspond. -/
inductive Alike {ε α β : Type} (Q : α → β → Prop) : Except ε α → Except ε β → Prop
  | ok {a : α} {b : β} : Q a b → Alike Q (.ok a) (.ok b)
  | error (e : ε) : Alike Q (.error e) (.error e)

theorem Alike.bind {α' β' : Type} {Q : α → β → Prop} {Q' : α' → β' → Prop} {x : Except ε α}
    {y : Except ε β} {f : α → Except ε α'} {g : β → Except ε β'} (h : Alike Q x y)
    (next : ∀ a b, Q a b → Alike Q' (f a) (g b)) : Alike Q' (x >>= f) (y >>= g) := by
  cases h with
  | ok hab => exact next _ _ hab
  | error e => exact .error e

/-- What goes on in the same way from results that correspond ends in the same way. -/
theorem Alike.bind_eq {γ : Type} {Q : α → β → Prop} {x : Except ε α} {y : Except ε β}
    {f : α → Except ε γ} {g : β → Except ε γ} (h : Alike Q x y)
    (next : ∀ a b, x = .ok a → Q a b → f a = g b) : x >>= f = y >>= g := by
  cases h with
  | ok hab => exact next _ _ rfl hab
  | error e => rfl

end LayeredConfig.Outcome
