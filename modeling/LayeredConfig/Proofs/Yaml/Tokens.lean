import LayeredConfig.Proofs.Yaml.Steps

/-!
# The tokens of a written document

By induction on the forest that is written: each node leads from the start of its lines to the
content below them (`emits_node`), so the tokens of a whole document are those of its items
(`tokensOf_written`).
-/

namespace LayeredConfig.Yaml

open Quoting (Inscription)

variable {cs R X tail : List Char} {blocks after : List Nat} {bare dashes : Bool}
  {opening children : List (Nat × TokenKind)} {d : NodeData} {leaf : Bool} {lines : List String}

/-! ## What can be read as it was written -/

/-- A node whose text is read as it was written. -/
structure Scannable (dashes : Bool) (d : NodeData) (leaf : Bool) : Prop where
  key : dashes = false → Quoting.Legible d.key ∧ (Quoting.scalar d.key).toList.length ≤ 1024
  anchor : ∀ a ∈ d.anchor, IsName a
  aliases : ∀ a ∈ d.aliases, IsName a
  value : d.type.isScalar →
    Inscription (scalarRead d.value).toList (scalarStyle d.value) (scalarText d.value).toList
  comment : ∀ l ∈ commentLines d.comment, IsComment l
  leaf : d.type.isScalar → leaf = true

/-- A forest whose text is read as it was written. -/
def AllScannable (dashes : Bool) : Forest NodeData → Prop
  | .nil => True
  | .cons d cs ss =>
    Scannable dashes d cs.isEmpty ∧ AllScannable (d.type = .array) cs ∧ AllScannable dashes ss

/-- What a form tells of its node. -/
inductive Shape (d : NodeData) (leaf : Bool) : Form → Prop
  | aliased (a : String) (type : ValueType) (listed : a ∈ d.aliases) (bottom : leaf = true) :
    Shape d leaf (.aliased a type)
  | scalar (type : d.type.isScalar) (bottom : leaf = true) : Shape d leaf (.scalar d.value)
  | emptyMapping (bottom : leaf = true) : Shape d leaf .emptyMapping
  | emptySequence (bottom : leaf = true) : Shape d leaf .emptySequence
  | mapping (type : d.type = .object) (merges : leaf = true → d.aliases ≠ []) :
    Shape d leaf (.mapping d.aliases)
  | sequence (type : d.type = .array) (inner : leaf = false) : Shape d leaf .sequence

theorem shape_formOf (h : d.type.isScalar → leaf = true) : Shape d leaf (formOf d leaf) := by
  cases type : d.type with
  | string | boolean | number =>
    have scalar : d.type.isScalar := by rw [type]; rfl
    rw [formOf_scalar (by rw [type]; rfl)]
    cases aliases : d.aliases with
    | nil => exact .scalar scalar (h scalar)
    | cons a as => exact .aliased _ _ (by rw [aliases]; exact List.mem_cons_self) (h scalar)
  | object =>
    cases leaf with
    | false => simpa [formOf, type] using Shape.mapping type (by simp)
    | true =>
      rcases aliases : d.aliases with - | ⟨a, - | ⟨b, more⟩⟩
      · simpa [formOf, type, aliases] using Shape.emptyMapping rfl
      · cases anchor : d.anchor with
        | none => simpa [formOf, type, aliases, anchor] using Shape.aliased _ _ (by rw [aliases]; simp) rfl
        | some b =>
          simpa [formOf, type, aliases, anchor] using @Shape.mapping d true type (by rw [aliases]; simp)
      · simpa [formOf, type, aliases] using @Shape.mapping d true type (by rw [aliases]; simp)
  | array =>
    cases leaf with
    | false => simpa [formOf, type] using Shape.sequence type rfl
    | true =>
      cases aliases : d.aliases with
      | nil => cases anchor : d.anchor <;> simpa [formOf, type, aliases, anchor] using Shape.emptySequence rfl
      | cons a as =>
        cases anchor : d.anchor with
        | none => simpa [formOf, type, aliases, anchor] using Shape.aliased _ _ (by rw [aliases]; simp) rfl
        | some b => simpa [formOf, type, aliases, anchor] using Shape.emptySequence rfl

/-! ## The first line -/

/-- A line that begins with content. -/
def HasInk (l : String) : Prop := ∃ x w, l.toList = x :: w ∧ isGap x = false ∧ x ≠ '#'

theorem HasInk.append {l : String} (h : HasInk l) (l' : String) : HasInk (l ++ l') := by
  obtain ⟨x, w, same, ink, sign⟩ := h
  exact ⟨x, w ++ l'.toList, by simp [same], ink, sign⟩

/-- A key as it is written. -/
theorem Scannable.inscription (h : Scannable dashes d leaf) (keyed : dashes = false) :
    Inscription d.key.toList (Quoting.styleOf d.key) (Quoting.scalar d.key).toList :=
  Quoting.inscription_scalar (h.key keyed).1

theorem Scannable.hasInk_key (h : Scannable dashes d leaf) (keyed : dashes = false) :
    HasInk (Quoting.scalar d.key) := by
  obtain ⟨x, w, same, ink, sign⟩ := (h.inscription keyed).begins
  exact ⟨x, w, same, ink, sign⟩

/-- What stands in front of a value on its line. -/
def leadIn (dashes : Bool) (key : String) : String := if dashes then "- " else Quoting.scalar key ++ ": "

theorem Scannable.hasInk_leadIn (h : Scannable dashes d leaf) (text : String) :
    HasInk (leadIn dashes d.key ++ text) := by
  cases dashes with
  | true => exact ⟨'-', ' ' :: text.toList, by simp [leadIn], rfl, by decide⟩
  | false => exact ((h.hasInk_key rfl).append ": ").append text

theorem ownLines_inline {text : String} (h : (formOf d leaf).written d.anchor lines = .inline text) :
    ownLines dashes d leaf lines = [leadIn dashes d.key ++ text] := by
  cases dashes <;> simp [ownLines, h, Written.underDash, Written.underKey, leadIn]

theorem ownLines_header {header : String} {body : List String}
    (h : (formOf d leaf).written d.anchor lines = .block header body) (nonempty : header.isEmpty = false) :
    ownLines dashes d leaf lines = (leadIn dashes d.key ++ header) :: body.map (indentation ++ ·) := by
  cases dashes <;> simp [ownLines, h, Written.underDash, Written.underKey, leadIn, nonempty]

theorem ownLines_key {body : List String} (h : (formOf d leaf).written d.anchor lines = .block "" body) :
    ownLines false d leaf lines = (Quoting.scalar d.key ++ ":") :: body.map (indentation ++ ·) := by
  simp [ownLines, h, Written.underKey]

theorem ownLines_dash {first : String} {rest : List String}
    (h : (formOf d leaf).written d.anchor lines = .block "" (first :: rest)) :
    ownLines true d leaf lines = if first.startsWith "#" then "-" :: (first :: rest).map (indentation ++ ·)
      else ("- " ++ first) :: rest.map (indentation ++ ·) := by
  simp [ownLines, h, Written.underDash]

/-! ## Steps of a node -/

variable {line column : Nat}

/-- The block that a node begins where it is the first one. -/
def blockStart (dashes : Bool) : TokenKind := if dashes then .blockSequenceStart else .blockMappingStart

/-- A key or dash at the margin of the text is a key, and no mark of a document. -/
def Margin (column : Nat) (dashes : Bool) (key : String) : Prop :=
  column = 0 → dashes = false ∧ Unmarked 0 (Quoting.scalar key).toList

variable (cs) in
/-- **In front of a value.** -/
theorem emits_leadIn (h : Scannable dashes d leaf) (margin : Margin column dashes d.key)
    (opens : Opens column [(line, blockStart dashes)] blocks bare after opening) {x : Char}
    (ink : isGap x = false) (sign : x ≠ '#') : ∃ column' allowed' bare', column + 2 ≤ column' ∧
      (dashes = true → column' = column + 2 ∧ allowed' = true) ∧
      Emits cs ⟨(leadIn dashes d.key).toList ++ x :: X, line, column, true, blocks, bare, false⟩
        (opening ++ leadTokens dashes line d.key) ⟨x :: X, line, column', allowed', after, bare', false⟩ := by
  cases dashes with
  | true =>
    have inside : column ≠ 0 := fun h => absurd (margin h).1 (by decide)
    have blank : isBlank x = false := by
      simp only [isGap, Bool.or_eq_false_iff] at ink
      exact ink.1
    have dash : Emits cs ⟨'-' :: (List.replicate 1 ' ' ++ x :: X), line, column, true, blocks, bare, false⟩
        (opening ++ [(0, .blockEntry)])
        ⟨x :: X, line, column + 1 + 1, true, after, isBreak x || isFlow x, false⟩ :=
      Fetches.stay 0 ink sign (.inr (by rw [opens.top_eq]; omega))
        (fetches_blockEntry opens blank sign (by simp) inside) (by simp)
    have text : (leadIn true d.key).toList ++ x :: X = '-' :: (List.replicate 1 ' ' ++ x :: X) := by simp [leadIn]
    rw [text]
    exact ⟨column + 2, true, _, Nat.le_refl _, fun _ => ⟨rfl, rfl⟩, dash⟩
  | false =>
    have edge : Unmarked column (Quoting.scalar d.key).toList := fun h => (margin h).2 rfl
    have key := emits_key_value cs (X := X) (h.inscription rfl) edge (h.key rfl).2 opens ink sign
    have text : (leadIn false d.key).toList ++ x :: X = (Quoting.scalar d.key).toList ++ ':' :: ' ' :: x :: X := by
      simp [leadIn]
    rw [text]
    exact ⟨column + (Quoting.scalar d.key).toList.length + 2, false, true, by omega,
      fun dashed => absurd dashed Bool.false_ne_true, key⟩

variable (cs) in
/-- **A value on its line.** -/
theorem emits_value (h : Scannable dashes d leaf) {form : Form} (shape : Shape d leaf form) {text : String}
    (inline : form.written d.anchor lines = .inline text) {j k : Nat} (below : Below tail j k R)
    (nonempty : after ≠ []) (outer : (j : Int) ≤ Spot.top after) (block : Nat) :
    HasInk text ∧ ∀ (column : Nat) (allowed bare : Bool), Spot.top after + 1 < column →
      Emits cs ⟨text.toList ++ tail, line, column, allowed, after, bare, false⟩
        (form.tokens line block d.anchor children ++ closings after j)
        (Spot.below R (line + 1 + k) j after) := by
  have anchored {text : String} (ink : HasInk text) {out : List (Nat × TokenKind)}
      (emits : ∀ (column : Nat) (allowed bare : Bool), Spot.top after + 1 < column →
        Emits cs ⟨text.toList ++ tail, line, column, allowed, after, bare, false⟩ (out ++ closings after j)
          (Spot.below R (line + 1 + k) j after)) :
      HasInk (Form.anchored d.anchor text) ∧ ∀ (column : Nat) (allowed bare : Bool), Spot.top after + 1 < column →
        Emits cs ⟨(Form.anchored d.anchor text).toList ++ tail, line, column, allowed, after, bare, false⟩
          (anchorTokens d.anchor ++ out ++ closings after j) (Spot.below R (line + 1 + k) j after) := by
    obtain ⟨x, w, starts, gap, sign⟩ := id ink
    refine ⟨?_, fun column allowed bare inner => ?_⟩
    · cases d.anchor with
      | none => exact ink
      | some a =>
        have same : (Form.anchored (some a) text).toList = '&' :: (Form.anchored (some a) text).toList.tail := by
          simp only [Form.anchored, Option.elim]
          split <;> simp [String.toList_append]
        exact ⟨'&', _, same, rfl, by decide⟩
    · rw [List.append_assoc]
      exact emits_anchored h.anchor starts gap sign inner fun column allowed inner => emits column allowed bare inner
  cases shape with
  | aliased a type listed bottom =>
    obtain rfl : "*" ++ a = text := by simpa [Form.written] using inline
    refine ⟨⟨'*', a.toList, by simp, rfl, by decide⟩, fun column allowed bare inner => ?_⟩
    exact emits_alias (h.aliases a listed) below outer inner
  | scalar type bottom =>
    obtain rfl : Form.anchored d.anchor (scalarText d.value) = text := by simpa [Form.written] using inline
    have ins := h.value type
    obtain ⟨x, w, starts, ink, sign⟩ := ins.begins
    refine anchored ⟨x, w, starts, ink, sign⟩ fun column allowed bare inner => ?_
    obtain ⟨T, rfl, lead⟩ := below
    have value : Emits cs ⟨(scalarText d.value).toList ++ '\n' :: (List.replicate j ' ' ++ T), line, column,
      allowed, after, bare, false⟩ _ _ := emits_scalar ins lead outer inner
    simpa using value
  | emptyMapping bottom =>
    obtain rfl : Form.anchored d.anchor "\x7b\x7d" = text := by simpa [Form.written] using inline
    exact anchored ⟨'{', ['}'], rfl, rfl, by decide⟩ fun column allowed bare inner =>
      emits_emptyMapping nonempty below outer inner
  | emptySequence bottom =>
    obtain rfl : Form.anchored d.anchor "[]" = text := by simpa [Form.written] using inline
    exact anchored ⟨'[', [']'], rfl, rfl, by decide⟩ fun column allowed bare inner =>
      emits_emptySequence nonempty below outer inner
  | mapping type merges => cases inline
  | sequence type inner => cases inline

/-! ## Blocks -/

theorem startsWith_sign (l : String) : l.startsWith "#" = (l.toList.head? == some '#') := by
  rw [Bool.eq_iff_iff, String.startsWith_string_iff, beq_iff_eq]
  cases l.toList <;> simp [List.prefix_cons_iff, eq_comm]

theorem HasInk.startsWith {l : String} (h : HasInk l) : l.startsWith "#" = false := by
  obtain ⟨x, w, same, -, sign⟩ := h
  simp [startsWith_sign, same, sign]

theorem IsComment.startsWith {l : String} (h : IsComment l) : l.startsWith "#" = true := by
  obtain ⟨body, same, -⟩ := h
  simp [startsWith_sign, same]

/-- Lines with comments first, then content. -/
structure Opening (ls comments : List String) (l : String) (rest : List String) : Prop where
  split : ls = comments ++ l :: rest
  comment : ∀ c ∈ comments, IsComment c
  ink : HasInk l

theorem Opening.below {ls comments rest : List String} {l : String} (h : Opening ls comments l rest) (j : Nat)
    (tail : List Char) : Below (under j tail ls) j comments.length (l.toList ++ under j tail rest) := by
  obtain ⟨x, w, same, ink, sign⟩ := h.ink
  rw [h.split]
  exact below_comments j tail h.comment same ink sign

/-- The lines of a block from the line `first` on lead from their first content to what is below
them. -/
def EmitsBlock (cs : List Char) (body : List String) (first block : Nat) (out : List (Nat × TokenKind)) :
    Prop :=
  ∃ comments l rest, Opening body comments l rest ∧ block = first + comments.length ∧
    ∀ (j j' k : Nat) (R tail : List Char) (blocks : List Nat) (bare : Bool), Spot.top blocks < j → j ≠ 0 →
      Below tail j' k R → j' < j →
        Emits cs ⟨l.toList ++ under j tail rest, block, j, true, blocks, bare, false⟩ (out ++ closings blocks j')
          (Spot.below R (first + body.length + k) j' blocks)

/-- **A node with a block.** -/
theorem emits_blockNode (h : Scannable dashes d leaf) (margin : Margin column dashes d.key)
    (opens : Opens column [(line, blockStart dashes)] blocks bare after opening) {body : List String}
    (written : (formOf d leaf).written d.anchor lines = .block (Form.anchored d.anchor "") body)
    {block : Nat} {out : List (Nat × TokenKind)}
    (emits : EmitsBlock cs body (line + Form.inset dashes d.anchor body) block out) {j k : Nat}
    (below : Below tail j k R) (outer : j ≤ column) :
    ∃ l rest, ownLines dashes d leaf lines = l :: rest ∧ HasInk l ∧
      Emits cs ⟨l.toList ++ under column tail rest, line, column, true, blocks, bare, false⟩
        (opening ++ leadTokens dashes line d.key ++ (anchorTokens d.anchor ++ out) ++ closings after j)
        (Spot.below R (line + (rest.length + 1) + k) j after) := by
  obtain ⟨comments, l, rest, open', rfl, emits⟩ := emits
  have top := opens.top_eq
  have emits := fun bare => emits (column + 2) j k R tail after bare (by omega) (by omega) below (by omega)
  have start := open'.below (column + 2) tail
  obtain ⟨x, w, same', ink, sign⟩ := id open'.ink
  cases anchor : d.anchor with
  | some a =>
    have header : Form.anchored d.anchor "" = "&" ++ a := by rw [anchor]; rfl
    have first : line + Form.inset dashes d.anchor body = line + 1 := by simp [Form.inset, anchor]
    rw [header] at written
    rw [first] at emits
    refine ⟨_, _, ownLines_header written (by simp), h.hasInk_leadIn _, ?_⟩
    obtain ⟨column', allowed', bare', further, -, lead⟩ := emits_leadIn cs (X := a.toList ++
      under (column + 2) tail body) h margin opens (x := '&') rfl (by decide)
    have name := h.anchor a anchor
    have anchored : Emits cs ⟨'&' :: (a.toList ++ under (column + 2) tail body), line, column', allowed', after,
        bare', false⟩ [(0, .anchor (String.ofList a.toList))]
        ⟨l.toList ++ under (column + 2) tail rest, line + 1 + comments.length, column + 2, true,
          after, bare', false⟩ := by
      obtain ⟨T, text, -⟩ := id start
      rw [text] at start ⊢
      exact Fetches.descends start (by omega) (fetches_anchor name.1 name.2 rfl (by omega)) (by simp; omega)
    have all := lead.trans (anchored.trans (emits bare'))
    have lines : line + 1 + body.length = line + (body.length + 1) := by omega
    rw [under_indented, List.length_map, ← lines]
    simpa [anchorTokens] using all
  | none =>
    have header : Form.anchored d.anchor "" = "" := by rw [anchor]; rfl
    rw [header] at written
    cases dashes with
    | false =>
      have first : line + Form.inset false d.anchor body = line + 1 := by simp [Form.inset]
      rw [first] at emits
      refine ⟨_, _, ownLines_key written, (h.hasInk_key rfl).append ":", ?_⟩
      have key := emits_key_block cs (h.inscription rfl) (fun h => (margin h).2 rfl) (h.key rfl).2 opens start
        (by omega)
      have lines : line + 1 + body.length = line + (body.length + 1) := by omega
      rw [under_indented, List.length_map, ← lines]
      simpa [anchorTokens, leadTokens] using key.trans (emits true)
    | true =>
      have inside : column ≠ 0 := fun h => absurd (margin h).1 (by decide)
      rcases comments with - | ⟨c, comments⟩
      · have same : body = l :: rest := open'.split
        have first : line + Form.inset true d.anchor body = line := by
          simp [Form.inset, anchor, same, open'.ink.startsWith]
        rw [first] at emits
        rw [same] at written
        refine ⟨_, _, (ownLines_dash written).trans (by rw [open'.ink.startsWith]; rfl),
          ⟨'-', ' ' :: l.toList, by simp, rfl, by decide⟩, ?_⟩
        obtain ⟨column', allowed', bare', -, exact', lead⟩ := emits_leadIn cs (X := w ++
          under (column + 2) tail rest) h margin opens ink sign
        obtain ⟨rfl, rfl⟩ := exact' rfl
        have all := lead.trans (by simpa [same'] using emits bare')
        have lines : line + body.length = line + (rest.length + 1) := by rw [same, List.length_cons]
        rw [under_indented, List.length_map, ← lines]
        simpa [anchorTokens, leadIn, same'] using all
      · have same : body = c :: (comments ++ l :: rest) := open'.split
        have sign := (open'.comment c List.mem_cons_self).startsWith
        have first : line + Form.inset true d.anchor body = line + 1 := by simp [Form.inset, anchor, same, sign]
        rw [first] at emits
        rw [same] at written
        refine ⟨_, _, (ownLines_dash written).trans (by rw [sign]; rfl), ⟨'-', [], rfl, rfl, by decide⟩, ?_⟩
        have dash : Emits cs ⟨'-' :: under (column + 2) tail body, line, column, true, blocks, bare, false⟩
            (opening ++ [(0, .blockEntry)])
            ⟨l.toList ++ under (column + 2) tail rest, line + 1 + (c :: comments).length, column + 2, true, after, true,
              false⟩ := by
          obtain ⟨T, text, -⟩ := id start
          rw [text] at start ⊢
          exact Fetches.descends start (by omega)
            (fetches_blockEntry (k := 0) (x := '\n') opens rfl (by decide) (fun _ => rfl) inside) (by simp)
        have all := dash.trans (emits true)
        have lines : line + 1 + body.length = line + (body.length + 1) := by omega
        rw [under_indented, ← same, List.length_map, ← lines]
        simpa [anchorTokens, leadTokens] using all

theorem closings_cons {j j' : Nat} (inner : j' < j) :
    closings (j :: blocks) j' = (0, .blockEnd) :: closings blocks j' := by
  simp [closings, inner]

theorem below_cons {j j' : Nat} (inner : j' < j) :
    Spot.below R line j' (j :: blocks) = Spot.below R line j' blocks := by
  simp [Spot.below, inner]

theorem closings_same (j : Nat) : closings (j :: blocks) j = [] := by simp [closings]

theorem below_same (j : Nat) : Spot.below R line j (j :: blocks) = ⟨R, line, j, true, j :: blocks, false, false⟩ := by
  simp [Spot.below]

/-- The lines of a forest from `line` on lead from their first content to what is below them. -/
def EmitsForest (cs : List Char) (dashes : Bool) (f : Forest NodeData) : Prop :=
  ∃ comments l rest, Opening (linesOf dashes f) comments l rest ∧ comments.length = leadingComments f ∧
    ∀ (line j j' k : Nat) (R tail : List Char) (blocks after : List Nat) (bare : Bool)
      (opening : List (Nat × TokenKind)),
      Opens j [(line + leadingComments f, blockStart dashes)] blocks bare after opening →
      (∀ d ∈ f.rootLabels, Margin j dashes d.key) → Below tail j' k R → j' ≤ j →
        Emits cs ⟨l.toList ++ under j tail rest, line + leadingComments f, j, true, blocks, bare, false⟩
          (opening ++ tokensIn dashes (items dashes line f) ++ closings after j')
          (Spot.below R (line + (linesOf dashes f).length + k) j' after)

theorem margin_inner {j : Nat} (inner : j ≠ 0) (key : String) : Margin j dashes key := fun h => absurd h inner

/-- A block of the children of a node. -/
theorem emitsBlock_children {f : Forest NodeData} (h : EmitsForest cs dashes f) (first : Nat) :
    EmitsBlock cs (linesOf dashes f) first (first + leadingComments f)
      ((first + leadingComments f, blockStart dashes) ::
        (tokensIn dashes (items dashes first f) ++ [(0, .blockEnd)])) := by
  obtain ⟨comments, l, rest, open', length, emits⟩ := h
  refine ⟨comments, l, rest, open', by rw [length], fun j j' k R tail blocks bare deeper inner below outer => ?_⟩
  have all := emits first j j' k R tail blocks (j :: blocks) bare _ (.begin bare deeper)
    (fun d _ => margin_inner inner d.key) below (by omega)
  rw [closings_cons outer, below_cons outer] at all
  simpa using all

/-- The block of a node that merges no others. -/
theorem emitsBlock_below {below : Forest NodeData} (children : EmitsForest cs (d.type = .array) below)
    (lines : (formOf d below.isEmpty).mergeLines = []) (dashes : Bool) (line : Nat) :
    EmitsBlock cs (linesOf (d.type = .array) below) (blockLine dashes line d below)
      (itemOf dashes line d below).block
      (((itemOf dashes line d below).block, blockStart (d.type = .array)) ::
        (tokensIn (d.type = .array) (items (d.type = .array) (blockLine dashes line d below) below) ++
          [(0, .blockEnd)])) := by
  have block : (itemOf dashes line d below).block = blockLine dashes line d below + leadingComments below := by
    simp [itemOf, lines]
  rw [block]
  exact emitsBlock_children children (blockLine dashes line d below)

theorem mergeLine_eq {names : List String} (nonempty : names ≠ []) : ∃ l, mergeLine names = [l] ∧ HasInk l := by
  rcases names with - | ⟨a, - | ⟨b, names⟩⟩
  · exact absurd rfl nonempty
  · exact ⟨_, rfl, '<', '<' :: ':' :: ' ' :: '*' :: a.toList, by simp, rfl, by decide⟩
  · refine ⟨_, rfl, '<', '<' :: ':' :: ' ' :: '[' ::
      ((", ".intercalate ((a :: b :: names).map ("*" ++ ·))).toList ++ [']']),
      ?_, rfl, by decide⟩
    rw [String.toList_append, String.toList_append]
    simp

/-- A block that merges others. -/
theorem emitsBlock_merge {names : List String} (name : ∀ a ∈ names, IsName a) (nonempty : names ≠ [])
    {f : Forest NodeData} (h : f ≠ .nil → EmitsForest cs false f) (first : Nat) :
    EmitsBlock cs (mergeLine names ++ linesOf false f) first first ((first, .blockMappingStart) ::
      (mergeTokens first names ++ tokensIn false (items false (first + 1) f) ++ [(0, .blockEnd)])) := by
  obtain ⟨l, merged, ink⟩ := mergeLine_eq nonempty
  rw [merged]
  refine ⟨[], l, linesOf false f, ⟨rfl, by simp, ink⟩, rfl,
    fun j j' k R tail blocks bare deeper inner below outer => ?_⟩
  cases f with
  | nil =>
    have all := emits_merge cs first name merged inner (.begin bare deeper) below (by omega)
    rw [closings_cons outer, below_cons outer] at all
    simpa [linesOf, tokensIn, items, under] using all
  | cons d below' ss =>
    obtain ⟨comments, l', rest, open', length, emits⟩ := h (by simp)
    have line := emits_merge cs first name merged inner (.begin bare deeper)
      (open'.below j tail) (Nat.le_refl j)
    rw [closings_same, below_same, length] at line
    have children := emits (first + 1) j j' k R tail (j :: blocks) (j :: blocks) false [] (.resume blocks)
      (fun d _ => margin_inner inner d.key) below (by omega)
    rw [closings_cons outer, below_cons outer] at children
    have lines : first + ([l] ++ linesOf false (.cons d below' ss)).length + k =
        first + 1 + (linesOf false (.cons d below' ss)).length + k := by
      rw [List.length_append, List.length_singleton]; omega
    rw [lines]
    simpa using line.trans children

/-! ## Forests -/

/-- **A node.** Its lines lead to what is below them. -/
theorem emits_node {below : Forest NodeData} (h : Scannable dashes d below.isEmpty)
    (margin : Margin column dashes d.key)
    (opens : Opens column [(line, blockStart dashes)] blocks bare after opening)
    (children : below ≠ .nil → EmitsForest cs (d.type = .array) below)
    {j k : Nat} (ends : Below tail j k R) (outer : j ≤ column) :
    ∃ l rest, ownLines dashes d below.isEmpty (linesOf (d.type = .array) below) = l :: rest ∧ HasInk l ∧
      Emits cs ⟨l.toList ++ under column tail rest, line, column, true, blocks, bare, false⟩
        (opening ++ (itemOf dashes line d below).tokens dashes (tokensIn (formOf d below.isEmpty).isSequence
          (items (d.type = .array) (blockLine dashes line d below +
            (formOf d below.isEmpty).mergeLines.length) below)) ++ closings after j)
        (Spot.below R (line + (rest.length + 1) + k) j after) := by
  have shape := shape_formOf h.leaf
  have top := opens.top_eq
  have nonempty : after ≠ [] := by cases opens <;> simp
  -- A value on the line of the node.
  have inline {text : String}
      (written : (formOf d below.isEmpty).written d.anchor (linesOf (d.type = .array) below) = .inline text)
      (out : List (Nat × TokenKind)) :
      ∃ l rest, ownLines dashes d below.isEmpty (linesOf (d.type = .array) below) = l :: rest ∧ HasInk l ∧
        Emits cs ⟨l.toList ++ under column tail rest, line, column, true, blocks, bare, false⟩
          (opening ++ (itemOf dashes line d below).tokens dashes out ++ closings after j)
          (Spot.below R (line + (rest.length + 1) + k) j after) := by
    obtain ⟨⟨x, w, starts, ink, sign⟩, value⟩ := emits_value cs h shape written ends nonempty
      (by rw [top]; omega) (itemOf dashes line d below).block
    obtain ⟨column', allowed', bare', further, -, lead⟩ := emits_leadIn cs (X := w ++ tail) h margin opens ink
      sign
    have value := value column' allowed' bare' (by rw [top]; omega)
    rw [starts] at value
    refine ⟨_, _, ownLines_inline written, h.hasInk_leadIn text, ?_⟩
    simpa [under, starts, Item.tokens] using lead.trans value
  -- A block below it.
  have blocked {body : List String} {out : List (Nat × TokenKind)}
      (same : (formOf d below.isEmpty).body (linesOf (d.type = .array) below) = body)
      (written : (formOf d below.isEmpty).written d.anchor (linesOf (d.type = .array) below) =
        .block (Form.anchored d.anchor "") body)
      (emits : EmitsBlock cs body (blockLine dashes line d below) (itemOf dashes line d below).block out)
      {tokens : List (Nat × TokenKind)}
      (told : (itemOf dashes line d below).tokens dashes tokens =
        leadTokens dashes line d.key ++ (anchorTokens d.anchor ++ out)) :
      ∃ l rest, ownLines dashes d below.isEmpty (linesOf (d.type = .array) below) = l :: rest ∧ HasInk l ∧
        Emits cs ⟨l.toList ++ under column tail rest, line, column, true, blocks, bare, false⟩
          (opening ++ (itemOf dashes line d below).tokens dashes tokens ++ closings after j)
          (Spot.below R (line + (rest.length + 1) + k) j after) := by
    rw [blockLine, same] at emits
    obtain ⟨l, rest, split, ink, all⟩ := emits_blockNode h margin opens written emits ends outer
    exact ⟨l, rest, split, ink, by simpa [told] using all⟩
  generalize same : formOf d below.isEmpty = form at shape
  cases shape with
  | aliased | scalar | emptyMapping | emptySequence => exact inline (by rw [same]; rfl) _
  | mapping type merges =>
    have mapping : decide (d.type = .array) = false := by rw [type]; rfl
    by_cases merged : d.aliases = []
    · have some : below ≠ .nil := by
        rintro rfl
        exact merges rfl merged
      have lines : (formOf d below.isEmpty).mergeLines = [] := by rw [same, merged]; rfl
      refine blocked (by rw [same, merged]; rfl) (by rw [same, merged]; rfl)
        (emitsBlock_below (children some) lines dashes line) ?_
      simp [Item.tokens, same, Form.tokens, Form.isSequence, mapping, mergeTokens, blockStart, merged,
        Form.mergeLines, mergeLine]
    · obtain ⟨l, single, -⟩ := mergeLine_eq merged
      have lines : (formOf d below.isEmpty).mergeLines = [l] := by rw [same, ← single]; rfl
      have block : (itemOf dashes line d below).block = blockLine dashes line d below := by simp [itemOf, lines]
      rw [mapping] at children
      have emits := emitsBlock_merge h.aliases merged children (blockLine dashes line d below)
      have body : (formOf d below.isEmpty).body (linesOf (d.type = .array) below) =
          mergeLine d.aliases ++ linesOf false below := by simp [same, mapping, Form.body]
      refine blocked body (by simp [same, mapping, Form.written]) (by rw [block]; exact emits) ?_
      simp [Item.tokens, same, Form.tokens, Form.isSequence, mapping, block, Form.mergeLines, single]
  | sequence type inner =>
    have dash : decide (d.type = .array) = true := by rw [type]; rfl
    have some : below ≠ .nil := by
      rintro rfl
      cases inner
    have lines : (formOf d below.isEmpty).mergeLines = [] := by rw [same]; rfl
    refine blocked (by rw [same]; rfl) (by rw [same]; rfl)
      (emitsBlock_below (children some) lines dashes line) ?_
    simp [Item.tokens, same, Form.tokens, Form.isSequence, dash, blockStart, Form.mergeLines]

/-- A node has a first line, which does not depend on where the node stands. -/
theorem exists_ownLines {below : Forest NodeData} (h : Scannable dashes d below.isEmpty)
    (children : below ≠ .nil → EmitsForest cs (d.type = .array) below) :
    ∃ l rest, ownLines dashes d below.isEmpty (linesOf (d.type = .array) below) = l :: rest ∧ HasInk l := by
  have opens : Opens 1 [(0, blockStart dashes)] [] false [1] [(0, blockStart dashes)] := .begin false (by decide)
  have ends : Below ['\n'] 0 0 [] := ⟨[], rfl, .stop rfl⟩
  obtain ⟨l, rest, own, ink, -⟩ := emits_node h (margin_inner (j := 1) (by decide) d.key) opens
    children ends (Nat.zero_le 1)
  exact ⟨l, rest, own, ink⟩

variable (cs) in
/-- **A forest.** Its lines lead to what is below them. -/
theorem emits_forest {f : Forest NodeData} (h : AllScannable dashes f) (nonempty : f ≠ .nil) :
    EmitsForest cs dashes f := by
  induction f generalizing dashes with
  | nil => exact absurd rfl nonempty
  | cons d below ss ihc ihs =>
    obtain ⟨here, inner, others⟩ := h
    have children (some : below ≠ .nil) := ihc inner some
    obtain ⟨l, rest, own, ink⟩ := exists_ownLines here children
    refine ⟨commentLines d.comment, l, rest ++ linesOf dashes ss, ⟨?_, here.comment, ink⟩, rfl, ?_⟩
    · rw [linesOf, own, List.append_assoc, List.cons_append]
    intro line j j' k R tail blocks after bare opening opens margin ends outer
    obtain ⟨o, rfl⟩ : ∃ o, after = j :: o := by cases opens <;> exact ⟨_, rfl⟩
    have node {tail R : List Char} {j' k : Nat} (ends : Below tail j' k R) (outer : j' ≤ j) :
        Emits cs
          ⟨l.toList ++ under j tail rest, line + leadingComments (.cons d below ss), j, true, blocks, bare, false⟩
          (opening ++ (itemOf dashes (line + leadingComments (.cons d below ss)) d below).tokens dashes
            (tokensIn (formOf d below.isEmpty).isSequence (items (d.type = .array) (blockLine dashes
              (line + leadingComments (.cons d below ss)) d below + (formOf d below.isEmpty).mergeLines.length)
                below)) ++ closings (j :: o) j')
          (Spot.below R (line + leadingComments (.cons d below ss) + (rest.length + 1) + k) j' (j :: o)) := by
      obtain ⟨l', rest', own', -, all⟩ :=
        emits_node here (margin d (by simp [Forest.rootLabels])) opens children ends outer
      obtain ⟨rfl, rfl⟩ : l = l' ∧ rest = rest' := by simpa [own] using own'
      exact all
    have told : tokensIn dashes (items dashes line (.cons d below ss)) =
        (itemOf dashes (line + leadingComments (.cons d below ss)) d below).tokens dashes
          (tokensIn (formOf d below.isEmpty).isSequence (items (d.type = .array) (blockLine dashes
            (line + leadingComments (.cons d below ss)) d below + (formOf d below.isEmpty).mergeLines.length) below)) ++
          tokensIn dashes (items dashes (line + leadingComments (.cons d below ss) + (rest.length + 1)) ss) := by
      rw [items, own]
      rfl
    have lines : (linesOf dashes (.cons d below ss)).length =
        leadingComments (.cons d below ss) + (rest.length + 1) + (linesOf dashes ss).length := by
      simp only [linesOf, own, leadingComments, List.length_append, List.length_cons]
    rw [told, lines, under_append]
    cases ss with
    | nil =>
      have all := node ends outer
      simpa [linesOf, under, items, tokensIn, Nat.add_assoc] using all
    | cons d' below' ss =>
      obtain ⟨comments', l', rest', open', length', emits'⟩ := ihs others (by simp)
      have first := node (open'.below j tail) (Nat.le_refl j)
      rw [closings_same, below_same, length'] at first
      have more := emits' (line + leadingComments (.cons d below (.cons d' below' ss)) + (rest.length + 1)) j j' k R
        tail (j :: o) (j :: o) false [] (.resume o)
        (fun e he => margin e (by rw [Forest.rootLabels]; exact List.mem_cons_of_mem _ he)) ends outer
      simpa [Nat.add_assoc] using first.trans more

/-! ## The whole text -/

theorem toList_joinLines (l : String) (rest : List String) :
    (joinLines (l :: rest)).toList = l.toList ++ under 0 ['\n'] rest := by
  induction rest generalizing l with
  | nil => simp [joinLines, under]
  | cons l' rest ih =>
    have := ih l'
    simp only [joinLines, String.toList_append] at this
    simp only [joinLines, String.intercalate_cons_cons, String.toList_append, List.append_assoc, this, under]
    rfl

/-- Nothing waits once no key may begin. -/
theorem release_all {l : Lexer} (h : ∀ p ∈ l.places, p.possible = false) :
    l.release = (l.waiting, { l with waiting := [], released := l.released + l.waiting.length }) := by
  have go (ts : List Token) (released : Nat) : Lexer.release.go l ts released = (ts, [], released + ts.length) := by
    induction ts generalizing released with
    | nil => rfl
    | cons t ts ih =>
      have decided : { l with released }.undecided = false := by
        simp only [Lexer.undecided, List.any_eq_false]
        intro p hp
        simp [h p hp]
      rw [Lexer.release.go, decided, ih]
      simp [Nat.add_comm, Nat.add_left_comm]
  rw [Lexer.release, go]

/-- Behind the last token everything is released. -/
theorem tokens_ended {l : Lexer} (h : ∀ p ∈ l.places, p.possible = false) (ended : l.ended = true) (fuel : Nat) :
    l.tokens (fuel + 1) = l.waiting := by
  have fresh : l.dropStaleKeys = some l := by
    have same : (l.places.map fun p => if (p.possible && !l.inFlow && (decide (p.mark.line < l.mark.line) ||
        decide (p.mark.index + 1024 < l.mark.index))) = true then { p with possible := false } else p) = l.places :=
      (List.map_congr_left (g := id) fun p hp => by simp [h p hp]).trans (List.map_id _)
    have none : (l.places.any fun p => (p.possible && !l.inFlow && (decide (p.mark.line < l.mark.line) ||
        decide (p.mark.index + 1024 < l.mark.index))) && p.required) = false := by
      rw [List.any_eq_false]
      intro p hp
      simp [h p hp]
    rw [Lexer.dropStaleKeys]
    simp only [none, same, Bool.false_eq_true, if_false]
  rw [Lexer.tokens, fresh]
  dsimp only
  rw [release_all h]
  simp [ended]

/-- The end of the text closes the outermost block. -/
theorem tokensHere_end {n : Noise} (fits : n.Fits cs ⟨[], line, 0, true, [0], false, false⟩) (fuel : Nat) :
    ∃ ts, (Spot.lexer ⟨[], line, 0, true, [0], false, false⟩ n).tokensHere (fuel + 1) = ts ∧
      ts.map (shown cs) = n.waiting.map (shown cs) ++ [(0, .blockEnd), (0, .streamEnd)] := by
  have optional : (n.place.possible && n.place.required) = false := by
    cases possible : n.place.possible
    · rfl
    · simp [fits.place.optional possible]
  have fetched : (Spot.lexer ⟨[], line, 0, true, [0], false, false⟩ n).fetchHere = some
      { cursor := ⟨[], ⟨n.index, line, 0⟩, n.fresh⟩
        waiting := n.waiting ++ [⟨⟨n.index, line, 0⟩, .blockEnd⟩, ⟨⟨n.index, line, 0⟩, .streamEnd⟩]
        released := n.released, keyAllowed := false, places := [{ n.place with possible := false }]
        adjacent := n.adjacent, mappingOpen := n.mappingOpen, ended := true } := by
    rw [Lexer.fetchHere, if_pos (by rfl)]
    simp [Lexer.fetchStreamEnd, Spot.lexer, Lexer.mark, optional, Lexer.unroll, Lexer.inFlow, Spot.indent,
      Spot.indents, Spot.stack, Lexer.unrollFrom, Lexer.dropKey, Lexer.place, Lexer.setPlace, Lexer.push, Spot.top]
  refine ⟨_, rfl, ?_⟩
  rw [Lexer.tokensHere, fetched]
  dsimp only
  rw [tokens_ended (by simp) rfl]
  simp [shown]

/-- **The tokens of a written document.** -/
theorem tokensOf_written {f : Forest NodeData} (h : AllScannable false f) (nonempty : f ≠ .nil)
    (bare : leadingComments f = 0) (margin : ∀ d ∈ f.rootLabels, Margin 0 false d.key) :
    (tokensOf (joinLines (linesOf false f))).map (shown (joinLines (linesOf false f)).toList) =
      (0, .streamStart) :: (0, .blockMappingStart) ::
        (tokensIn false (items false 0 f) ++ [(0, .blockEnd), (0, .streamEnd)]) := by
  generalize same : (joinLines (linesOf false f)).toList = cs
  obtain ⟨comments, l, rest, open', length, emits⟩ := emits_forest cs h nonempty
  rw [bare, List.length_eq_zero_iff] at length
  subst length
  have text : cs = l.toList ++ under 0 ['\n'] rest := by
    rw [← same, open'.split, List.nil_append, toList_joinLines]
  obtain ⟨x, w, starts, ink, sign⟩ := open'.ink
  have document := emits 0 0 0 0 [] ['\n'] [] [0] false _ (.begin false (by decide)) margin ⟨[], rfl, .stop rfl⟩
    (Nat.le_refl 0)
  rw [bare, ← text, closings_same, below_same, List.append_nil] at document
  let start : Noise :=
    { index := 0, fresh := true, waiting := [⟨{}, .streamStart⟩], released := 0, place := {}, inner := {},
      adjacent := 0, mappingOpen := false }
  have fits : start.Fits cs ⟨cs, 0, 0, true, [], false, false⟩ :=
    ⟨⟨rfl, rfl⟩, KeyPlace.idle_default 0, KeyPlace.idle_default 0⟩
  have begins : tokensOf (joinLines (linesOf false f)) =
      Lexer.tokens (cs.length + 3 + 1) (Spot.lexer ⟨cs, 0, 0, true, [], false, false⟩ start) := by
    rw [tokensOf, same]
    rfl
  have stays : Skips cs ⟨cs, 0, 0, true, [], false, false⟩ ⟨cs, 0, 0, true, [], false, false⟩ := by
    have := skips_spaces cs 0 (w ++ under 0 ['\n'] rest) ink sign 0 0 true [] false false
    rwa [← List.cons_append, ← starts, ← text] at this
  obtain ⟨ts, n, fits', run, told⟩ := stays.tokens
    (fun n => ⟨[], by rw [List.append_nil]; exact unroll_inside rfl (by simp [Spot.top]) n, fun _ => rfl⟩)
    ⟨rfl, rfl⟩ fits
  obtain ⟨steps, n', ts', fits'', run', told', length'⟩ := document n fits'
  obtain ⟨fuel, enough⟩ : ∃ fuel, cs.length + 3 = fuel + 1 + steps := ⟨cs.length + 2 - steps, by
    simp only [List.length_nil] at length'; omega⟩
  obtain ⟨ts'', run'', told''⟩ := tokensHere_end fits'' fuel
  rw [begins, run, enough, run', run'', List.map_append, List.map_append, told'', ← List.append_assoc (ts'.map _),
    ← List.map_append, told', ← List.append_assoc, ← List.append_assoc, ← List.map_append, told]
  simp [start, shown, blockStart]

end LayeredConfig.Yaml
