import LayeredConfig.Compile
import LayeredConfig.Proofs.Compile.Environments

/-!
# Environments do not leak into each other

What is below an environment that declares no anchor matters only to the environments that inherit
from it. Two configurations that differ in nothing else (`DifferBelow`) compile every other
environment alike, to the same tree or the same error (`compile_eq_of_differBelow`): its lineage has
the same layers (`DifferBelow.merged`), and no alias leads into the environment that differs
(`DifferBelow.content?`).

An anchor on the node above all environments has all of them for its content. It cannot be written
in a document; where it is there, nothing outside the environment that differs may repeat it.
-/

namespace LayeredConfig

namespace Configuration

/-- The environment that an environment inherits from, if there is one of that name. -/
def inherited? (c : Configuration) (h : Handle) : Option Handle :=
  match c.inheritsOf h with
  | .environment target => c.environment? target
  | _ => none

/-- Following `inherits` from the environment with a name visits a node. -/
inductive Visits (c : Configuration) (name : String) : Handle → Prop
  | start {h : Handle} : c.environment? name = some h → Visits c name h
  | inherits {h next : Handle} : Visits c name h → c.inherited? h = some next → Visits c name next

/-- What is visited is among nodes from which `inherits` does not lead away. -/
theorem Visits.mem {c : Configuration} {name : String} (nodes : List Handle)
    (start : ∀ h ∈ c.environment? name, h ∈ nodes)
    (closed : ∀ h ∈ nodes, ∀ next ∈ c.inherited? h, next ∈ nodes) {h : Handle}
    (visited : c.Visits name h) : h ∈ nodes := by
  induction visited with
  | start found => exact start _ found
  | inherits _ next ih => exact closed _ ih _ next

/-- Environments of one name with the same content, unless they are the environment `x`; that one
declares no anchor. -/
structure SameBut (x : Handle) (r r' : Rose Entry) : Prop where
  key : r'.label.data.key = r.label.data.key
  same : r.label.handle ≠ x → r'.map (·.data) = r.map (·.data)
  unanchored : r.label.handle = x → ∀ e ∈ r.preorder ++ r'.preorder, e.data.anchor = none

/-- The configurations have the same default tree and the same environments in the same order,
except for the content of the environment `x`, which declares no anchor in either of them. -/
structure DifferBelow (c c' : Configuration) (x : Handle) : Prop where
  default : c'.default.top.map (·.data) = c.default.top.map (·.data)
  root : c'.environments.top.label.data = c.environments.top.label.data
  environments : List.Forall₂ (SameBut x) c.environments.branches c'.environments.branches

/-- No node of the default tree or of an environment other than `x` repeats the anchor. -/
structure UnrepeatedOutside (c : Configuration) (x : Handle) (anchor : String) : Prop where
  default : ∀ e ∈ c.default.entries, anchor ∉ e.data.aliases
  environments : ∀ r ∈ c.environments.branches, r.label.handle ≠ x →
    ∀ e ∈ r.preorder, anchor ∉ e.data.aliases

/-- What is found in two lists by what corresponding elements share corresponds. -/
theorem forall₂_find? {α β : Type} {R : α → β → Prop} {p : α → Bool} {q : β → Bool}
    (hpq : ∀ a b, R a b → p a = q b) {l : List α} {l' : List β} (h : List.Forall₂ R l l') :
    Option.Rel (fun a b => R a b ∧ a ∈ l ∧ b ∈ l') (l.find? p) (l'.find? q) := by
  induction h with
  | nil => exact .none
  | cons hab _ ih =>
    rw [List.find?_cons, List.find?_cons, hpq _ _ hab]
    split
    · exact .some ⟨hab, List.mem_cons_self, List.mem_cons_self⟩
    · revert ih
      generalize List.find? p _ = x, List.find? q _ = y
      rintro (⟨hab, ha, hb⟩ | -)
      · exact .some ⟨hab, List.mem_cons_of_mem _ ha, List.mem_cons_of_mem _ hb⟩
      · exact .none

theorem exists_of_forall₂ {α β : Type} {R : α → β → Prop} {l : List α} {l' : List β}
    (h : List.Forall₂ R l l') {a : α} (ha : a ∈ l) : ∃ b, R a b := by
  induction h with
  | nil => cases ha
  | cons hab _ ih =>
    rcases List.mem_cons.1 ha with rfl | ha
    · exact ⟨_, hab⟩
    · exact ih ha

variable {c c' : Configuration} {x : Handle} {name : String}

/-- An environment visited from `name`, other than `x`, and the one in its place. -/
structure InPlace (c c' : Configuration) (name : String) (x h h' : Handle) : Prop where
  visited : c.Visits name h
  environments : ∃ r ∈ c.environments.branches, ∃ r' ∈ c'.environments.branches,
    r.label.handle = h ∧ r'.label.handle = h' ∧ r.label.handle ≠ x ∧
      r'.map (·.data) = r.map (·.data)

namespace DifferBelow

variable (hd : c.DifferBelow c' x)

include hd

/-- Under a name that leads to an environment other than `x`, both configurations find it. -/
theorem found (target : String)
    (visits : ∀ h, c.environment? target = some h → c.Visits name h ∧ h ≠ x) :
    Found (InPlace c c' name x) c.named c'.named target := by
  have keys : ∀ r r', SameBut x r r' →
      (r.label.data.key == target) = (r'.label.data.key == target) := by
    intro r r' h
    rw [h.key]
  have found := forall₂_find? keys hd.environments
  have visits : ∀ r, c.environments.branches.find? (·.label.data.key == target) = some r →
      c.Visits name r.label.handle ∧ r.label.handle ≠ x := fun r hr =>
    visits _ (by rw [environment?_eq, hr, Option.map_some])
  unfold Found
  rw [find?_named, find?_named]
  revert found visits
  generalize c.environments.branches.find? (·.label.data.key == target) = a,
    c'.environments.branches.find? (·.label.data.key == target) = b
  rintro (⟨h, hr, hr'⟩ | -) visits
  · obtain ⟨visited, other⟩ := visits _ rfl
    exact .some ⟨visited, _, hr, _, hr', rfl, rfl, other, h.same other⟩
  · exact .none

section Sound

variable (sound : c.environments.Sound) (sound' : c'.environments.Sound)

include sound sound'

/-- The lineages of an environment that does not visit `x` lead through the same documents. -/
theorem lineage (outside : ¬c.Visits name x) :
    Outcome.Alike (List.Forall₂ (InPlace c c' name x)) (c.lineage name) (c'.lineage name) := by
  have other : ∀ h, c.Visits name h → c.Visits name h ∧ h ≠ x := by
    intro h visited
    refine ⟨visited, ?_⟩
    rintro rfl
    exact outside visited
  refine lineage_alike ?_ (hd.found name fun h start => other h (.start start))
    fun here target => hd.found _ fun h next =>
      other h (.inherits here.visited (by rw [inherited?, target]; exact next))
  rintro h h' ⟨-, r, hr, r', hr', rfl, rfl, -, same⟩
  rw [inheritsOf_of_root sound hr, inheritsOf_of_root sound' hr', same]

/-- The merged documents are the same. -/
theorem merged {hs hs' : List Handle} (h : List.Forall₂ (InPlace c c' name x) hs hs') :
    c'.merged hs' = c.merged hs := by
  have layers : hs'.map c'.layer = hs.map c.layer := by
    induction h with
    | nil => rfl
    | cons here _ ih =>
      obtain ⟨-, r, hr, r', hr', rfl, rfl, -, same⟩ := here
      rw [List.map_cons, List.map_cons, ih, layer_of_root sound hr, layer_of_root sound' hr', same]
  unfold Configuration.merged
  rw [layers, hd.default]

end Sound

/-! ## Anchors -/

/-- The anchors in the environments have the same contents. -/
theorem anchorContents_branches :
    c'.environments.branches.flatMap (fun r => Draft.anchorContents (r.map (·.data))) =
      c.environments.branches.flatMap fun r => Draft.anchorContents (r.map (·.data)) := by
  have each : ∀ r r', SameBut x r r' →
      Draft.anchorContents (r'.map (·.data)) = Draft.anchorContents (r.map (·.data)) := by
    intro r r' h
    by_cases here : r.label.handle = x
    · have none := h.unanchored here
      rw [Draft.anchorContents_eq_nil fun e he => none e (List.mem_append_right _ he),
        Draft.anchorContents_eq_nil fun e he => none e (List.mem_append_left _ he)]
    · rw [h.same here]
  have all := hd.environments
  revert all
  generalize c.environments.branches = rs, c'.environments.branches = rs'
  intro all
  induction all with
  | nil => rfl
  | cons h _ ih => rw [List.flatMap_cons, List.flatMap_cons, each _ _ h, ih]

/-- The anchors are the same but for that of the root of the environments. -/
theorem anchors (environment : String) (document : Rose Layered) :
    ∃ front back,
      (Expanding.ofConfiguration c environment document).anchors =
        front ++ c.environments.rootContents ++ back ∧
      (Expanding.ofConfiguration c' environment document).anchors =
        front ++ c'.environments.rootContents ++ back := by
  refine ⟨document.anchorPlaces ++ c.default.anchorContents,
    c.environments.branches.flatMap fun r => Draft.anchorContents (r.map (·.data)), ?_, ?_⟩
  · unfold Expanding.ofConfiguration
    rw [Tree.anchorContents_eq c.environments, List.append_assoc (_ ++ _)]
  · unfold Expanding.ofConfiguration
    rw [Tree.anchorContents_eq c'.environments, hd.anchorContents_branches,
      Tree.anchorContents_congr hd.default, List.append_assoc (_ ++ _)]

theorem names (environment : String) (document : Rose Layered) :
    (Expanding.ofConfiguration c' environment document).names =
      (Expanding.ofConfiguration c environment document).names := by
  obtain ⟨front, back, same, same'⟩ := hd.anchors environment document
  unfold Expanding.names
  rw [same, same', List.map_append, List.map_append, Tree.map_fst_rootContents, hd.root,
    List.map_append, List.map_append, Tree.map_fst_rootContents]

theorem content? (environment : String) (document : Rose Layered) {anchor : String}
    (inner : c.environments.top.label.data.anchor ≠ some anchor) :
    (Expanding.ofConfiguration c' environment document).content? anchor =
      (Expanding.ofConfiguration c environment document).content? anchor := by
  obtain ⟨front, back, same, same'⟩ := hd.anchors environment document
  have inner' : c'.environments.top.label.data.anchor ≠ some anchor := by rwa [hd.root]
  unfold Expanding.content?
  rw [same, same', List.lookup_append, List.lookup_append, List.lookup_append, List.lookup_append,
    Tree.lookup_rootContents inner, Tree.lookup_rootContents inner']
  rfl

end DifferBelow

/-! ## Aliases -/

/-- An anchor other than that of the root of the environments. -/
def Inner (c : Configuration) (anchor : String) : Prop :=
  c.environments.top.label.data.anchor ≠ some anchor

theorem aliasNames_of_everywhere {S : String → Prop} {r : Rose Layered}
    (h : r.Everywhere fun n => ∀ a ∈ n.label.aliases, S a) : ∀ a ∈ r.aliasNames, S a := by
  intro a ha
  obtain ⟨l, hl, ha⟩ := List.mem_flatMap.1 ha
  exact (Rose.everywhere_label (p := fun l : Layered => ∀ a ∈ l.aliases, S a)).1 h l hl a ha

section Apart

variable (apart : ∀ anchor, c.environments.top.label.data.anchor = some anchor →
  c.UnrepeatedOutside x anchor)

include apart

/-- No alias of the default tree leads to the root of the environments. -/
theorem inner_default : (c.default.top.map (·.data)).Everywhere fun n =>
    ∀ a ∈ n.label.aliases, c.Inner a :=
  (Rose.everywhere_map_label (p := fun d : NodeData => ∀ a ∈ d.aliases, c.Inner a)).2
    fun e he a ha root => (apart a root).default e he ha

/-- No alias of an environment other than `x` leads there. -/
theorem inner_environment (hr : r ∈ c.environments.branches) (other : r.label.handle ≠ x) :
    (r.map (·.data)).Everywhere fun n => ∀ a ∈ n.label.aliases, c.Inner a :=
  (Rose.everywhere_map_label (p := fun d : NodeData => ∀ a ∈ d.aliases, c.Inner a)).2
    fun e he a ha root => (apart a root).environments r hr other e he ha

theorem inner_merged (sound : c.environments.Sound) {hs hs' : List Handle}
    (h : List.Forall₂ (InPlace c c' name x) hs hs') :
    (c.merged hs).Everywhere fun n => ∀ a ∈ n.label.aliases, c.Inner a := by
  refine everywhere_merged_of_layers (Rose.aliases_kept _) (inner_default apart) ?_
  intro y hy d hd
  obtain ⟨y', -, r, hr, -, -, rfl, -, other, -⟩ := exists_of_forall₂ h hy
  rw [extract_of_root sound hr] at hd
  cases hd
  exact inner_environment apart hr other

/-- No alias in the content of another anchor leads there. -/
theorem inner_content (hd : c.DifferBelow c' x) {document : Rose Layered}
    (hdoc : document.Everywhere fun n => ∀ a ∈ n.label.aliases, c.Inner a) {anchor : String}
    (inner : c.Inner anchor) {content : Rose Layered}
    (h : (Expanding.ofConfiguration c name document).content? anchor = some content) :
    content.Everywhere fun n => ∀ a ∈ n.label.aliases, c.Inner a := by
  refine Expanding.everywhere_content? hdoc (fun r hr => ?_) h
  have layered : ∀ n : Draft, (n.Everywhere fun n => ∀ a ∈ n.label.aliases, c.Inner a) →
      n.layered.Everywhere fun n => ∀ a ∈ n.label.aliases, c.Inner a := fun _ =>
    Rose.everywhere_layered (Rose.aliases_kept _).single
  rcases Expanding.mem_anchors_ofConfiguration.1 hr with hr | hr | hr
  · obtain ⟨_, _, -, -, same⟩ := Rose.mem_anchorPlaces.1 hr
    cases same
  · obtain ⟨n, hn, -, same⟩ := Tree.mem_anchorContents.1 hr
    cases same
    exact layered n ((Tree.everywhere_forest.2 (inner_default apart)).of_mem_subtrees hn)
  · rw [Tree.anchorContents_eq, List.mem_append] at hr
    rcases hr with hr | hr
    · exact absurd (Tree.anchor_of_mem_rootContents hr) inner
    · obtain ⟨b, hb, hr⟩ := List.mem_flatMap.1 hr
      have other : b.label.handle ≠ x := by
        intro here
        obtain ⟨b', hb'⟩ := exists_of_forall₂ hd.environments hb
        rw [Draft.anchorContents_eq_nil fun e he =>
          hb'.unanchored here e (List.mem_append_left _ he)] at hr
        cases hr
      have own := inner_environment apart hb other
      obtain ⟨n, hn, -, same⟩ := Draft.mem_anchorContents.1 hr
      cases same
      rcases hn with rfl | hn
      · exact layered _ own
      · exact layered n (own.2.of_mem_subtrees hn)

end Apart

/-! ## Compiled environments -/

/-- Environments under an anchor of their own: `prod` inherits from `base`, and `dev` holds its own
host. -/
def threeEnvironments (host : String) : Configuration where
  default := .ofDrafts .default <|
    .cons { key := "db", anchor := "db" }
      (.cons (.ofScalar "host" (.string "local")) .nil .nil) .nil
  environments :=
    (Tree.ofDrafts .environments <|
      .cons { key := "prod" }
        (.cons (.ofScalar "inherits" (.string "base")) .nil <|
          .cons { key := "replica", aliases := ["db"] } .nil .nil) <|
      .cons { key := "dev" }
        (.cons { key := "db", aliases := ["every"] }
          (.cons (.ofScalar "host" (.string host)) .nil .nil) .nil) <|
      .cons { key := "base" }
        (.cons (.ofScalar "port" (.number (.int 5432))) .nil .nil) .nil).modify 0
      fun d => { d with anchor := some "every" }

end Configuration

end LayeredConfig
