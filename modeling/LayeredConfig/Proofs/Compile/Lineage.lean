import LayeredConfig.Compile.Lineage
import LayeredConfig.Proofs.Outcome
import LayeredConfig.Proofs.Tree.Handles
import Mathlib.Data.List.Forall2
import Mathlib.Data.List.Nodup

/-!
# The walk along a lineage

What the walk reads of a configuration is the environments by name and what each inherits from
(`lineage_congr`), and it leads through environments only (`lineage_inside`), no one twice
(`nodup_lineage`). So two walks that meet corresponding environments go on in step
(`lineage_alike`).
-/

namespace LayeredConfig.Configuration

variable {c c' : Configuration}

theorem length_filter_lt {target : String} {remaining : List (String × Handle)}
    {found : String × Handle} (h : remaining.find? (·.1 == target) = some found) :
    (remaining.filter (·.1 != target)).length < remaining.length := by
  rw [List.length_filter_lt_length_iff_exists]
  exact ⟨found, List.mem_of_find?_eq_some h, by simpa using List.find?_some h⟩

section Step

variable {h : Handle} {name target : String} {visited : List String}
  {remaining : List (String × Handle)} (hi : c.inheritsOf h = .environment target)

include hi

/-- The walk goes on from the environment inherited from. -/
theorem lineageFrom_of_found {found : String × Handle}
    (hf : remaining.find? (·.1 == target) = some found) :
    c.lineageFrom name h visited remaining = (do
      let ancestors ← c.lineageFrom target found.2 (visited ++ [target])
        (remaining.filter (·.1 != target))
      pure (ancestors ++ [h])) := by
  rw [lineageFrom, hi]
  dsimp only
  split
  · rename_i next same
    rw [hf] at same
    cases same
    rfl
  · rename_i missing
    rw [hf] at missing
    cases missing

/-- The walk ends where the environment inherited from does not remain. -/
theorem lineageFrom_of_missing (hf : remaining.find? (·.1 == target) = none) :
    c.lineageFrom name h visited remaining =
      if visited.contains target then .error (.inheritanceCycle (visited ++ [target]))
      else .error (.missingInherited name target) := by
  rw [lineageFrom, hi]
  dsimp only
  split
  · rename_i found
    rw [hf] at found
    cases found
  · rfl

end Step

theorem lineageFrom_congr {h : Handle} {remaining : List (String × Handle)}
    (same : ∀ x, x = h ∨ x ∈ remaining.map Prod.snd → c'.inheritsOf x = c.inheritsOf x)
    (name : String) (visited : List String) :
    c'.lineageFrom name h visited remaining = c.lineageFrom name h visited remaining := by
  rw [lineageFrom, lineageFrom, same h (Or.inl rfl)]
  cases c.inheritsOf h with
  | nothing => rfl
  | invalid => rfl
  | environment target =>
    dsimp only
    split
    · rename_i next found
      have shorter := length_filter_lt found
      rw [lineageFrom_congr fun x hx => same x (Or.inr ?_)]
      rcases hx with rfl | hx
      · exact List.mem_map_of_mem (List.mem_of_find?_eq_some found)
      · exact (List.filter_sublist.map _).subset hx
    · rfl
termination_by remaining.length
decreasing_by exact shorter

/-- The names of the environments and their handles. -/
def named (c : Configuration) : List (String × Handle) :=
  c.environments.top.children.rootLabels.map fun e => (e.data.key, e.handle)

theorem map_snd_named (c : Configuration) :
    c.named.map Prod.snd = c.environments.top.children.rootLabels.map (·.handle) := List.map_map

/-- The walk starts from the first environment of the name. -/
theorem lineage_of_found {name : String} {found : String × Handle}
    (hf : c.named.find? (·.1 == name) = some found) :
    c.lineage name = c.lineageFrom name found.2 [name] (c.named.filter (·.1 != name)) := by
  unfold named at hf ⊢
  simp only [lineage, hf]

theorem lineage_of_missing {name : String} (hf : c.named.find? (·.1 == name) = none) :
    c.lineage name = .error (.unknownEnvironment name) := by
  unfold named at hf
  simp only [lineage, hf]

theorem lineage_congr (environments : c'.named = c.named)
    (same : ∀ x ∈ c.environments.top.children.rootLabels.map (·.handle),
      c'.inheritsOf x = c.inheritsOf x)
    (name : String) : c'.lineage name = c.lineage name := by
  unfold lineage
  rw [show c'.environments.top.children.rootLabels.map (fun e => (e.data.key, e.handle)) =
    c.environments.top.children.rootLabels.map (fun e => (e.data.key, e.handle)) from environments]
  dsimp only
  split
  · rename_i h found
    refine lineageFrom_congr (fun x hx => same x ?_) _ _
    rw [← map_snd_named]
    rcases hx with rfl | hx
    · exact List.mem_map_of_mem (List.mem_of_find?_eq_some found)
    · exact (List.filter_sublist.map _).subset hx
  · rfl

/-! ## Two walks in step -/

/-- Environments found under a name in two configurations correspond. -/
def Found (R : Handle → Handle → Prop) (all all' : List (String × Handle)) (name : String) : Prop :=
  Option.Rel (fun e e' => R e.2 e'.2) (all.find? (·.1 == name)) (all'.find? (·.1 == name))

variable {R : Handle → Handle → Prop} {all all' : List (String × Handle)}

theorem find?_filter_ne (name target : String) :
    (all.filter (·.1 != target)).find? (·.1 == name) =
      if name = target then none else all.find? (·.1 == name) := by
  rw [List.find?_filter]
  split
  · rename_i same
    subst same
    refine List.find?_eq_none.2 fun e _ => ?_
    simp
  · rename_i other
    congr 1
    funext e
    by_cases here : e.1 = name
    · simp [here, other]
    · simp [here]

theorem Found.filter {name : String} (h : Found R all all' name) (target : String) :
    Found R (all.filter (·.1 != target)) (all'.filter (·.1 != target)) name := by
  unfold Found
  rw [find?_filter_ne, find?_filter_ne]
  split
  · exact .none
  · exact h

section InStep

variable (inherits : ∀ {h h'}, R h h' → c'.inheritsOf h' = c.inheritsOf h)

include inherits

/-- Walks from corresponding environments end alike. The environments that remain become fewer with
every step. -/
theorem lineageFrom_alike {h h' : Handle} {remaining remaining' : List (String × Handle)}
    (next : ∀ {h h' target}, R h h' → c.inheritsOf h = .environment target →
      Found R remaining remaining' target)
    (here : R h h') (name : String) (visited : List String) :
    Outcome.Alike (List.Forall₂ R) (c.lineageFrom name h visited remaining)
      (c'.lineageFrom name h' visited remaining') := by
  cases target : c.inheritsOf h with
  | nothing =>
    rw [lineageFrom, lineageFrom, inherits here, target]
    exact .ok (.cons here .nil)
  | invalid =>
    rw [lineageFrom, lineageFrom, inherits here, target]
    exact .error _
  | environment name =>
    have target' := (inherits here).trans target
    have found := next here target
    unfold Found at found
    cases first : remaining.find? (·.1 == name) <;> cases second : remaining'.find? (·.1 == name) <;>
      rw [first, second] at found <;> cases found
    · rw [lineageFrom_of_missing target first, lineageFrom_of_missing target' second]
      split <;> exact .error _
    · rename_i x y there
      have shorter := length_filter_lt first
      rw [lineageFrom_of_found target first, lineageFrom_of_found target' second]
      exact .bind (lineageFrom_alike (fun here target => (next here target).filter _) there _ _)
        fun _ _ above => .ok (List.rel_append above (.cons here .nil))
termination_by remaining.length
decreasing_by exact shorter

theorem lineage_alike {name : String} (start : Found R c.named c'.named name)
    (next : ∀ {h h' target}, R h h' → c.inheritsOf h = .environment target →
      Found R c.named c'.named target) :
    Outcome.Alike (List.Forall₂ R) (c.lineage name) (c'.lineage name) := by
  have started := start
  unfold Found at started
  cases first : c.named.find? (·.1 == name) <;> cases second : c'.named.find? (·.1 == name) <;>
    rw [first, second] at started <;> cases started
  · rw [lineage_of_missing first, lineage_of_missing second]
    exact .error _
  · rename_i here
    rw [lineage_of_found first, lineage_of_found second]
    exact lineageFrom_alike inherits (fun here target => (next here target).filter _) here _ _

end InStep

theorem mem_lineageFrom {name : String} {h : Handle} {visited : List String}
    {remaining : List (String × Handle)} {hs : List Handle}
    (hl : c.lineageFrom name h visited remaining = .ok hs) {x : Handle} (hx : x ∈ hs) :
    x = h ∨ x ∈ remaining.map Prod.snd := by
  rw [lineageFrom] at hl
  cases hi : c.inheritsOf h with
  | nothing =>
    rw [hi] at hl
    cases hl
    exact Or.inl (List.mem_singleton.1 hx)
  | invalid =>
    rw [hi] at hl
    cases hl
  | environment target =>
    rw [hi] at hl
    dsimp only at hl
    split at hl
    · rename_i next found
      obtain ⟨ancestors, ha, hl⟩ := Outcome.bind_eq_ok.1 hl
      cases hl
      have shorter := length_filter_lt found
      rcases List.mem_append.1 hx with hx | hx
      · right
        rcases mem_lineageFrom ha hx with rfl | hx
        · exact List.mem_map_of_mem (List.mem_of_find?_eq_some found)
        · exact (List.filter_sublist.map _).subset hx
      · exact Or.inl (List.mem_singleton.1 hx)
    · split at hl <;> cases hl
termination_by remaining.length
decreasing_by exact shorter

theorem exists_ancestors {name : String} {h : Handle} {visited : List String}
    {remaining : List (String × Handle)} {hs : List Handle}
    (hl : c.lineageFrom name h visited remaining = .ok hs) : ∃ ancestors, hs = ancestors ++ [h] := by
  rw [lineageFrom] at hl
  cases hi : c.inheritsOf h with
  | nothing =>
    rw [hi] at hl
    cases hl
    exact ⟨[], rfl⟩
  | invalid =>
    rw [hi] at hl
    cases hl
  | environment target =>
    rw [hi] at hl
    dsimp only at hl
    split at hl
    · obtain ⟨ancestors, -, hl⟩ := Outcome.bind_eq_ok.1 hl
      exact ⟨ancestors, (Outcome.pure_eq_ok.1 hl).symm⟩
    · split at hl <;> cases hl

/-- A lineage holds the environment itself. -/
theorem lineage_ne_nil {name : String} {hs : List Handle} (hl : c.lineage name = .ok hs) :
    hs ≠ [] := by
  unfold lineage at hl
  dsimp only at hl
  split at hl
  · obtain ⟨ancestors, rfl⟩ := exists_ancestors hl
    exact List.append_ne_nil_of_right_ne_nil _ (List.cons_ne_nil _ _)
  · cases hl

/-- A lineage consists of environments. -/
theorem lineage_inside {name : String} {hs : List Handle} (hl : c.lineage name = .ok hs)
    {x : Handle} (hx : x ∈ hs) : x ∈ c.environments.top.children.rootLabels.map (·.handle) := by
  unfold lineage at hl
  dsimp only at hl
  split at hl
  · rename_i h found
    rw [← map_snd_named]
    rcases mem_lineageFrom hl hx with rfl | hx
    · exact List.mem_map_of_mem (List.mem_of_find?_eq_some found)
    · exact (List.filter_sublist.map _).subset hx
  · cases hl

theorem contains_of_lineage {name : String} {hs : List Handle} (hl : c.lineage name = .ok hs)
    {x : Handle} (hx : x ∈ hs) : c.environments.contains x := by
  obtain ⟨e, he, rfl⟩ := List.mem_map.1 (lineage_inside hl hx)
  exact Tree.contains_iff.2 (List.mem_cons_of_mem _ (List.mem_map_of_mem
    (List.mem_append_left _ (Forest.mem_preorder_of_mem_rootLabels he))))

/-- Where handles are distinct, no environment that remains has the handle of the one found. -/
theorem not_mem_filter_of_find? {target : String} {remaining : List (String × Handle)}
    {found : String × Handle} (distinct : (remaining.map Prod.snd).Nodup)
    (h : remaining.find? (·.1 == target) = some found) :
    found.2 ∉ (remaining.filter (·.1 != target)).map Prod.snd := by
  intro again
  obtain ⟨e, he, same⟩ := List.mem_map.1 again
  obtain ⟨he, other⟩ := List.mem_filter.1 he
  have named := List.find?_some h
  rw [List.inj_on_of_nodup_map distinct he (List.mem_of_find?_eq_some h) same, bne, named] at other
  cases other

theorem nodup_lineageFrom {name : String} {h : Handle} {visited : List String}
    {remaining : List (String × Handle)} {hs : List Handle}
    (distinct : (remaining.map Prod.snd).Nodup) (new : h ∉ remaining.map Prod.snd)
    (hl : c.lineageFrom name h visited remaining = .ok hs) : hs.Nodup := by
  rw [lineageFrom] at hl
  cases hi : c.inheritsOf h with
  | nothing =>
    rw [hi] at hl
    cases hl
    exact List.nodup_singleton h
  | invalid =>
    rw [hi] at hl
    cases hl
  | environment target =>
    rw [hi] at hl
    dsimp only at hl
    split at hl
    · rename_i next found
      obtain ⟨ancestors, ha, hl⟩ := Outcome.bind_eq_ok.1 hl
      cases hl
      have shorter := length_filter_lt found
      have inside := List.mem_of_find?_eq_some found
      have fewer := List.filter_sublist (p := fun e : String × Handle => e.1 != target)
        (l := remaining) |>.map Prod.snd
      rw [List.nodup_append]
      refine ⟨nodup_lineageFrom (fewer.nodup distinct) (not_mem_filter_of_find? distinct found) ha,
        List.nodup_singleton h, ?_⟩
      rintro x hx _ hy rfl
      rw [List.mem_singleton.1 hy] at hx
      rcases mem_lineageFrom ha hx with rfl | hx
      · exact new (List.mem_map_of_mem inside)
      · exact new (fewer.subset hx)
    · split at hl <;> cases hl
termination_by remaining.length
decreasing_by exact shorter

theorem nodup_handles_named (sound : c.environments.Sound) :
    (c.named.map Prod.snd).Nodup := by
  rw [map_snd_named]
  have below : (c.environments.top.children.preorder.map (·.handle)).Nodup := by
    have distinct := sound.distinct
    rw [Tree.forest, Forest.ofRose, Forest.handles_cons, List.nodup_cons] at distinct
    simpa [Forest.handles, Forest.preorder] using distinct.2
  exact ((Forest.rootLabels_sublist_preorder _).map _).nodup below

/-- A lineage visits no environment twice. -/
theorem nodup_lineage (distinct : (c.named.map Prod.snd).Nodup) {name : String} {hs : List Handle}
    (hl : c.lineage name = .ok hs) : hs.Nodup := by
  unfold lineage at hl
  dsimp only at hl
  split at hl
  · rename_i h found
    exact nodup_lineageFrom ((List.filter_sublist.map _).nodup distinct)
      (not_mem_filter_of_find? distinct found) hl
  · cases hl

end LayeredConfig.Configuration
