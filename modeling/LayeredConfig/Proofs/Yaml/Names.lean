import LayeredConfig.Proofs.Outcome
import LayeredConfig.Proofs.Yaml.Steps
import Mathlib.Data.List.TakeWhile

/-!
# The names that a text declares

An anchor token has a name: at least one character, and only such as anchors have
(`proper_tokensOf`). Every step of the lexer keeps that of the tokens that wait.
-/

namespace LayeredConfig.Yaml

/-! ## Attempts -/

/-- Whatever an attempt gives satisfies `P`. -/
def Always {α : Type} (P : α → Prop) (x : Option α) : Prop := ∀ a ∈ x, P a

namespace Always

variable {α β : Type} {P : α → Prop} {Q : β → Prop} {x y : Option α} {f : α → Option β}

theorem some {a : α} (h : P a) : Always P (some a) := by
  rintro _ ⟨⟩
  exact h

theorem none : Always P none := nofun

theorem ite {p : Prop} [Decidable p] (hx : Always P x) (hy : Always P y) : Always P (if p then x else y) := by
  split
  · exact hx
  · exact hy

theorem bind (hx : Always P x) (h : ∀ a, P a → Always Q (f a)) : Always Q (x >>= f) := by
  intro b hb
  obtain ⟨a, ha, hb⟩ := Option.bind_eq_some_iff.1 hb
  exact h a (hx a ha) b hb

theorem after (h : ∀ a, Always Q (f a)) : Always Q (x >>= f) :=
  bind (P := fun _ => True) (fun _ _ => trivial) fun a _ => h a

theorem none_bind : Always Q ((Option.none : Option α) >>= f) := nofun

end Always

/-! ## Tokens -/

/-- A token that declares nothing, or a name. -/
def TokenKind.Proper : TokenKind → Prop
  | .anchor name => IsName name
  | _ => True

theorem Cursor.mem_span {c : Cursor} {p : Char → Bool} {x : Char} (h : x ∈ (c.span p).1) : p x := by
  have inside := List.mem_takeWhile_imp h
  simp only [Bool.and_eq_true] at inside
  exact inside.1

namespace Lexer

/-- The tokens that wait declare names. -/
def Proper (l : Lexer) : Prop := ∀ t ∈ l.waiting, t.kind.Proper

variable {l l' : Lexer} {kind : TokenKind}

theorem Proper.push (h : l.Proper) (proper : kind.Proper) (m : Mark) : (l.push kind m).Proper := by
  intro t ht
  rcases List.mem_append.1 ht with ht | ht
  · exact h t ht
  · rw [List.mem_singleton.1 ht]
    exact proper

theorem Proper.insert (h : l.Proper) (proper : kind.Proper) (number : Nat) (m : Mark) :
    (l.insert number kind m).Proper := by
  intro t ht
  rcases List.mem_append.1 ht with ht | ht
  · exact h t (List.mem_of_mem_take ht)
  · rcases List.mem_cons.1 ht with rfl | ht
    · exact proper
    · exact h t (List.mem_of_mem_drop ht)

/-! ## Indentation -/

theorem Proper.roll (h : l.Proper) (proper : kind.Proper) (column : Int) (number : Option Nat) (m : Mark) :
    (l.roll column number kind m).Proper := by
  unfold Lexer.roll
  split
  · exact h
  · cases number with
    | some number =>
      cases l.indents <;> dsimp only <;> split_ifs <;> first | exact h | exact Proper.insert h proper number m
    | none => cases l.indents <;> dsimp only <;> split_ifs <;> first | exact h | exact Proper.push h proper m

theorem mem_unrollFrom {column : Int} {m : Mark} {is : List Indent} {indent : Int} {ends : List Token}
    (h : ∀ t ∈ ends, t.kind.Proper) : ∀ t ∈ (unrollFrom column m is indent ends).2.2, t.kind.Proper := by
  induction is generalizing indent ends with
  | nil => exact h
  | cons i is ih =>
    rw [unrollFrom]
    split
    · refine ih ?_
      split
      · exact List.forall_mem_append.2 ⟨h, List.forall_mem_singleton.2 trivial⟩
      · exact h
    · exact h

theorem Proper.unroll (h : l.Proper) (column : Int) : (l.unroll column).Proper := by
  unfold Lexer.unroll
  split
  · exact h
  · exact List.forall_mem_append.2 ⟨h, mem_unrollFrom (List.forall_mem_nil _)⟩

theorem Proper.saveKey (h : l.Proper) : l.saveKey.Proper := by
  unfold Lexer.saveKey
  split <;> exact h

theorem Proper.rollBare (h : l.Proper) : l.rollBare.Proper := by
  unfold Lexer.rollBare
  split <;> exact h

theorem Proper.closePair (h : l.Proper) : l.closePair.Proper := by
  unfold Lexer.closePair
  split
  · exact Proper.push h (by trivial) _
  · exact h

theorem Proper.skipSpaces (h : l.Proper) (fuel : Nat) (found : Bool) : (l.skipSpaces fuel found).1.Proper := by
  induction fuel generalizing l found with
  | zero => exact h
  | succ fuel ih =>
    rw [Lexer.skipSpaces]
    split_ifs
    · exact ih (by exact h) _
    · exact ih (by exact h) _
    · exact ih (by exact h) _
    · exact h

theorem always_dropKey (h : l.Proper) : Always Proper l.dropKey := .ite .none (.some (by exact h))

theorem always_dropStaleKeys (h : l.Proper) : Always Proper l.dropStaleKeys := .ite .none (.some (by exact h))

theorem always_skipToLineEnd (h : l.Proper) (tabs : Bool) : Always (fun x => x.1.Proper) (l.skipToLineEnd tabs) := by
  intro x hx
  obtain ⟨y, -, rfl⟩ := Option.map_eq_some_iff.1 hx
  exact h

theorem always_skipBlanks (h : l.Proper) (fuel : Nat) : Always Proper (skipBlanks? fuel l) := by
  induction fuel generalizing l with
  | zero => exact .some h
  | succ fuel ih =>
    rw [skipBlanks?]
    refine .ite ?_ (.ite (ih (by exact h)) (.ite (ih (by exact h)) (.ite (ih (by exact h)) (.some h))))
    split
    · exact .ite (ih (by exact h)) .none
    · exact .none

/-! ## Steps -/

theorem always_fetchStreamEnd (h : l.Proper) : Always Proper l.fetchStreamEnd := by
  refine .ite .none_bind (.bind (always_dropKey (Proper.unroll (by exact h) _)) fun l hl => .some ?_)
  exact Proper.push hl (by trivial) _

theorem always_fetchDocumentMark (h : l.Proper) (proper : kind.Proper) : Always Proper (l.fetchDocumentMark kind) :=
  .bind (always_dropKey (h.unroll _)) fun _ hl => .some (Proper.push hl proper _)

theorem always_fetchAnchor (h : l.Proper) {name : String → TokenKind} (proper : ∀ a, IsName a → (name a).Proper) :
    Always Proper (l.fetchAnchor name) := by
  unfold Lexer.fetchAnchor
  dsimp only
  split
  · exact .none
  · rename_i nonempty
    refine .some (Proper.push h.saveKey (proper _ ⟨?_, fun c hc => ?_⟩) _)
    · rw [String.toList_ofList]
      simpa using nonempty
    · rw [String.toList_ofList] at hc
      exact Cursor.mem_span hc

theorem always_fetchTag (h : l.Proper) : Always Proper l.fetchTag :=
  .after fun _ => .ite (.some (Proper.push h.saveKey (by trivial) _)) .none

theorem always_fetchFlowStart (h : l.Proper) (proper : kind.Proper) : Always Proper (l.fetchFlowStart kind) := by
  have begun : l.saveKey.rollBare.Proper := h.saveKey.rollBare
  unfold Lexer.fetchFlowStart
  generalize l.saveKey.rollBare = l at begun
  dsimp only
  split
  · exact .none_bind
  · exact .bind (always_skipToLineEnd (by exact begun) _) fun _ hx => .some (Proper.push hx proper _)

theorem always_fetchFlowEnd (h : l.Proper) (proper : kind.Proper) : Always Proper (l.fetchFlowEnd kind) := by
  refine .bind (always_dropKey h) fun l hl => .bind (always_skipToLineEnd ?_ _) fun x hx => .some ?_
  · refine Proper.closePair ?_
    split <;> exact hl
  · refine Proper.push ?_ proper _
    split <;> exact hx

theorem always_fetchFlowEntry (h : l.Proper) : Always Proper l.fetchFlowEntry := by
  refine .bind (always_dropKey h) fun l hl => ?_
  have closed : (closePair { l with keyAllowed := true }).Proper := Proper.closePair (by exact hl)
  dsimp only
  generalize closePair { l with keyAllowed := true } = l at closed
  exact .bind (always_skipToLineEnd (by exact closed) _) fun _ hx => .some (Proper.push hx (by trivial) _)

theorem always_fetchBlockEntry (h : l.Proper) : Always Proper l.fetchBlockEntry := by
  refine .ite .none_bind (.ite .none_bind (.bind (always_skipToLineEnd (Proper.roll (by exact h) (by trivial) _ _ _) _)
    fun x hx => .ite .none_bind (.bind (always_skipToLineEnd hx _) fun y hy => .bind (always_dropKey ?_) fun l hl =>
      .some (Proper.push hl (by trivial) _))))
  split
  · exact hy.rollBare
  · exact hy

theorem always_fetchKey (h : l.Proper) : Always Proper l.fetchKey := by
  refine .ite .none_bind (.bind (always_dropKey ?_) fun l hl => ?_)
  · split
    · exact h
    · exact Proper.roll h (by trivial) _ _ _
  · have spaced := Proper.skipSpaces (show Proper (skipInk { l with keyAllowed := !l.inFlow }) from hl)
    dsimp only
    split
    · exact .none_bind
    · exact .some (Proper.push (spaced _ _) (by trivial) _)

theorem always_fetchValue (h : l.Proper) : Always Proper l.fetchValue := by
  unfold Lexer.fetchValue
  extract_lets place start begun ending marking
  have ended (l : Lexer) (h : l.Proper) : Always Proper (ending l) := .some (Proper.push h (by trivial) _)
  have marked (l : Lexer) (h : l.Proper) : Always Proper (marking l) := by
    dsimp only [marking]
    split
    · refine .ite .none_bind (ended _ ?_)
      refine Proper.rollBare (Proper.roll ?_ (by trivial) _ _ _)
      split
      · exact Proper.insert (Proper.insert h (by trivial) _ _) (by trivial) _ _
      · exact Proper.insert h (by trivial) _ _
    · have paired : (if l.pairOpen then l.push .flowMappingStart l.mark else l).Proper := by
        split
        · exact Proper.push h (by trivial) _
        · exact h
      generalize (if l.pairOpen then l.push .flowMappingStart l.mark else l) = l at paired
      refine .ite .none_bind (ended _ ?_)
      refine Proper.rollBare ?_
      split
      · exact paired
      · exact Proper.roll paired (by trivial) _ _ _
  refine .ite (.bind (always_skipToLineEnd (by exact h) _) fun x hx => ?_) (marked _ (by exact h))
  exact .ite .none_bind (marked _ hx)

/-! ## Scalars -/

/-- A token that declares nothing or a name. -/
abbrev ProperToken (r : Token × Cursor) : Prop := r.1.kind.Proper

theorem always_quotedScalar (single : Bool) (s : Surrounding) (c : Cursor) :
    Always ProperToken (c.quotedScalar? single s) :=
  .after fun _ => .after fun _ => .ite (.some trivial) .none

theorem always_plainScalar (s : Surrounding) (c : Cursor) : Always ProperToken (c.plainScalar? s) := by
  refine .ite .none fun r hr => ?_
  obtain ⟨x, -, rfl⟩ := Option.map_eq_some_iff.1 hr
  trivial

theorem always_blockScalar (literal : Bool) (indent : Int) (c : Cursor) :
    Always ProperToken (c.blockScalar? literal indent) := by
  refine .after fun ⟨chomping, increment, c⟩ => .after fun ⟨c, _⟩ => .ite .none_bind (.ite .none_bind ?_)
  exact .ite (.some trivial) (.ite .none_bind (.some trivial))

theorem always_fetchQuoted (h : l.Proper) (single : Bool) : Always Proper (l.fetchQuoted single) :=
  .bind (always_quotedScalar _ _ _) fun _ token => .bind (always_skipBlanks (by exact h.saveKey) _) fun _ hl =>
    .some (Proper.push hl token _)

theorem always_fetchPlain (h : l.Proper) : Always Proper l.fetchPlain :=
  .bind (always_plainScalar _ _) fun _ token => .some (Proper.push (by exact h.saveKey) token _)

theorem always_fetchBlockScalar (h : l.Proper) (literal : Bool) : Always Proper (l.fetchBlockScalar literal) :=
  .bind (always_blockScalar _ _ _) fun _ token => .some (Proper.push (by exact h.saveKey) token _)

theorem always_tagDirective (h : l.Proper) : Always (fun r => r.1.Proper ∧ r.2.Proper) l.tagDirective? := by
  refine .after fun ⟨handle, c⟩ => ?_
  dsimp -zeta only
  extract_lets l₁ c₁ ending
  have ended (c : Cursor) : Always (fun r : TokenKind × Lexer => r.1.Proper ∧ r.2.Proper) (ending c) :=
    .after fun _ => .ite (.some ⟨trivial, by exact h⟩) .none
  exact .ite (ended _) (.ite .none_bind (.ite (.after ended) (ended _)))

theorem always_skipVersionNumber (h : l.Proper) : Always Proper l.skipVersionNumber :=
  .ite .none (.some (by exact h))

theorem always_fetchDirective (h : l.Proper) : Always Proper l.fetchDirective := by
  refine .bind (always_dropKey (h.unroll _)) fun l hl => ?_
  extract_lets l₁ start ending
  have ended (x : TokenKind × Lexer) (hx : x.1.Proper ∧ x.2.Proper) : Always Proper (ending x) :=
    .bind (always_skipToLineEnd hx.2 _) fun _ hl => .ite (.some (Proper.push (by exact hl) hx.1 _)) .none
  have h₁ : l₁.Proper := hl
  clear_value ending start l₁
  generalize l₁.skipInk.cursor.span isNameChar = x
  obtain ⟨name, c⟩ := x
  refine .ite .none_bind ?_
  have h₂ : ({ l₁ with cursor := { c with fresh := false } } : Lexer).Proper := h₁
  dsimp only
  generalize ({ l₁ with cursor := { c with fresh := false } } : Lexer) = l at h₂
  refine .ite ?_ (.ite (.bind (always_tagDirective h₂) ended) (ended _ ⟨trivial, by exact h₁⟩))
  refine .bind (always_skipVersionNumber (by exact h₂)) fun l hl => .ite .none_bind ?_
  exact .bind (always_skipVersionNumber (by exact hl)) fun l hl => ended _ ⟨trivial, hl⟩

/-! ## All tokens -/

theorem always_fetchAt (h : l.Proper) : Always Proper l.fetchAt :=
  .ite (always_fetchFlowStart h trivial) <| .ite (always_fetchFlowStart h trivial) <|
    .ite (always_fetchFlowEnd h trivial) <| .ite (always_fetchFlowEnd h trivial) <| .ite (always_fetchFlowEntry h) <|
    .ite (always_fetchBlockEntry h) <| .ite (always_fetchKey h) <| .ite (always_fetchValue h) <|
    .ite (always_fetchAnchor h fun _ _ => trivial) <| .ite (always_fetchAnchor h fun _ => id) <|
    .ite (always_fetchTag h) <| .ite (always_fetchBlockScalar h _) <| .ite (always_fetchBlockScalar h _) <|
    .ite (always_fetchQuoted h _) <| .ite (always_fetchQuoted h _) <| .ite .none (always_fetchPlain h)

/-- **A step of the lexer.** It keeps that the tokens that wait declare names. -/
theorem always_fetch (h : l.Proper) : Always Proper l.fetch := by
  refine .bind (always_skipBlanks h _) fun l hl => .bind (always_dropStaleKeys hl) fun l hl => ?_
  have unrolled := hl.unroll l.column
  dsimp only
  generalize l.unroll l.column = l at unrolled
  refine .ite (always_fetchStreamEnd unrolled) <| .ite (always_fetchDirective unrolled) <|
    .ite (always_fetchDocumentMark unrolled trivial) <| .ite ?_ <| .ite .none (always_fetchAt unrolled)
  exact .bind (always_fetchDocumentMark unrolled trivial) fun l hl =>
    .bind (always_skipToLineEnd hl _) fun x hx => .ite (.some hx) .none

theorem proper_release (h : l.Proper) : (∀ t ∈ l.release.1, t.kind.Proper) ∧ l.release.2.Proper := by
  have go (ts : List Token) (hts : ∀ t ∈ ts, t.kind.Proper) (released : Nat) :
      (∀ t ∈ (release.go l ts released).1, t.kind.Proper) ∧ ∀ t ∈ (release.go l ts released).2.1, t.kind.Proper := by
    induction ts generalizing released with
    | nil => exact ⟨List.forall_mem_nil _, List.forall_mem_nil _⟩
    | cons t ts ih =>
      obtain ⟨ht, hts⟩ := List.forall_mem_cons.1 hts
      rw [release.go]
      split
      · exact ⟨List.forall_mem_nil _, List.forall_mem_cons.2 ⟨ht, hts⟩⟩
      · exact ⟨List.forall_mem_cons.2 ⟨ht, (ih hts _).1⟩, (ih hts _).2⟩
  exact go l.waiting h l.released

theorem proper_tokens (h : l.Proper) (fuel : Nat) : ∀ t ∈ l.tokens fuel, t.kind.Proper := by
  induction fuel generalizing l with
  | zero => exact List.forall_mem_nil _
  | succ fuel ih =>
    rw [tokens]
    split
    · exact List.forall_mem_nil _
    · rename_i l₁ dropped
      obtain ⟨out, kept⟩ := proper_release (always_dropStaleKeys h l₁ dropped)
      dsimp only
      split
      · exact out
      · split
        · exact out
        · rename_i l₂ fetched
          exact List.forall_mem_append.2 ⟨out, ih (always_fetch kept l₂ fetched)⟩

end Lexer

/-- **Anchors have names.** -/
theorem proper_tokensOf (text : String) : ∀ t ∈ tokensOf text, t.kind.Proper := by
  refine Lexer.proper_tokens (Lexer.Proper.push ?_ (by trivial) _) _
  exact List.forall_mem_nil _

end LayeredConfig.Yaml
