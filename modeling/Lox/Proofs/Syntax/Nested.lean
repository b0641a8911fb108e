import Lox.Proofs.Scan.Segments
import Lox.Syntax.Prefix

/-!
# Texts with parentheses

The prefix form of an expression is a text of nested groups: a group has a head
and parts, separated by single spaces, between parentheses.  If heads and atoms
contain neither spaces nor parentheses, such a text can be read in one way only.
-/

namespace Lox

/-- An atom, or a head and its parts between parentheses. -/
inductive Nested where
  | atom (text : List Char)
  | group (head : List Char) (parts : List Nested)

def isSolid (c : Char) : Bool := c != ' ' && c != '(' && c != ')'

def Solid (text : List Char) : Prop := text ≠ [] ∧ ∀ c ∈ text, isSolid c = true

namespace Nested

mutual

def text : Nested → List Char
  | atom text => text
  | group head parts => '(' :: head ++ (texts parts ++ [')'])

def texts : List Nested → List Char
  | [] => []
  | part :: parts => ' ' :: part.text ++ texts parts

end

mutual

def Legible : Nested → Prop
  | atom text => Solid text
  | group head parts => Solid head ∧ AllLegible parts

def AllLegible : List Nested → Prop
  | [] => True
  | part :: parts => part.Legible ∧ AllLegible parts

end

def Ends (rest : List Char) : Prop := ∀ c ∈ rest.head?, isSolid c = false

theorem ends_texts (parts : List Nested) (rest : List Char) :
    Ends (texts parts ++ ')' :: rest) := by
  intro c hc
  cases parts with
  | nil =>
      cases hc
      rfl
  | cons part parts =>
      cases hc
      rfl

theorem atom_split {first second rest rest' : List Char} (hfirst : Solid first)
    (hsecond : Solid second) (hrest : Ends rest) (hrest' : Ends rest')
    (heq : first ++ rest = second ++ rest') : first = second ∧ rest = rest' := by
  have hsame : first = second := by
    rw [← Segment.takeWhile_append_of_head hfirst.2 hrest, heq,
      Segment.takeWhile_append_of_head hsecond.2 hrest']
  rw [hsame] at heq
  exact ⟨hsame, List.append_cancel_left heq⟩

theorem atom_ne_group {first head rest rest' : List Char} {parts : List Nested}
    (hfirst : Solid first) : first ++ rest ≠ (group head parts).text ++ rest' := by
  intro heq
  rcases List.exists_cons_of_ne_nil hfirst.1 with ⟨c, cs, rfl⟩
  rw [text] at heq
  injection heq with hc _
  rw [hc] at hfirst
  exact absurd (hfirst.2 '(' List.mem_cons_self) (by decide)

mutual

theorem text_split : (first second : Nested) → first.Legible → second.Legible →
    {rest rest' : List Char} → Ends rest → Ends rest' →
    first.text ++ rest = second.text ++ rest' → first = second ∧ rest = rest'
  | .atom first, .atom second, hfirst, hsecond, _, _, hrest, hrest', heq => by
      rcases atom_split hfirst hsecond hrest hrest' heq with ⟨rfl, hsame⟩
      exact ⟨rfl, hsame⟩
  | .atom first, .group head parts, hfirst, _, _, _, _, _, heq =>
      absurd heq (atom_ne_group hfirst)
  | .group head parts, .atom second, _, hsecond, _, _, _, _, heq =>
      absurd heq.symm (atom_ne_group hsecond)
  | .group head parts, .group head' parts', hfirst, hsecond, rest, rest', _, _, heq => by
      rw [text, text] at heq
      simp only [List.cons_append, List.append_assoc, List.nil_append, List.cons.injEq,
        true_and] at heq
      rcases atom_split hfirst.1 hsecond.1 (ends_texts parts rest) (ends_texts parts' rest') heq
        with ⟨rfl, hparts⟩
      rcases texts_split parts parts' hfirst.2 hsecond.2 hparts with ⟨rfl, hsame⟩
      exact ⟨rfl, hsame⟩

theorem texts_split : (first second : List Nested) → AllLegible first → AllLegible second →
    {rest rest' : List Char} → texts first ++ ')' :: rest = texts second ++ ')' :: rest' →
    first = second ∧ rest = rest'
  | [], [], _, _, _, _, heq => by
      cases heq
      exact ⟨rfl, rfl⟩
  | [], _ :: _, _, _, _, _, heq => by cases heq
  | _ :: _, [], _, _, _, _, heq => by cases heq
  | part :: parts, part' :: parts', hfirst, hsecond, rest, rest', heq => by
      rw [texts, texts] at heq
      simp only [List.cons_append, List.append_assoc, List.cons.injEq, true_and] at heq
      rcases text_split part part' hfirst.1 hsecond.1 (ends_texts parts rest)
        (ends_texts parts' rest') heq with ⟨rfl, hparts⟩
      rcases texts_split parts parts' hfirst.2 hsecond.2 hparts with ⟨rfl, hsame⟩
      exact ⟨rfl, hsame⟩

end

theorem text_injective {first second : Nested} (hfirst : first.Legible) (hsecond : second.Legible)
    (heq : first.text = second.text) : first = second := by
  have hend : Ends [] := by
    intro c hc
    cases hc
  have hsame : first.text ++ [] = second.text ++ [] := by rw [heq]
  exact (text_split first second hfirst hsecond hend hend hsame).1

end Nested

/-!
# The groups of an expression
-/

mutual

def Expr.nested : Expr → Nested
  | .assign target value =>
      .group ['='] [.atom target.name.lexeme.toList, value.nested]
  | .binary left operator right
  | .logical left operator right =>
      .group operator.lexeme.toList [left.nested, right.nested]
  | .call callee _ arguments => .group "call".toList (callee.nested :: Expr.nesteds arguments)
  | .conditional condition thenBranch elseBranch =>
      .group ['?', ':'] [condition.nested, thenBranch.nested, elseBranch.nested]
  | .get object name => .group ['.'] [object.nested, .atom name.lexeme.toList]
  | .grouping inner => .group "group".toList [inner.nested]
  | .literal value => .atom value.print.toList
  | .set object name value =>
      .group ['='] [object.nested, .atom name.lexeme.toList, value.nested]
  | .superRef _ method => .group "super".toList [.atom method.lexeme.toList]
  | .thisRef _ => .atom "this".toList
  | .unary operator right => .group operator.lexeme.toList [right.nested]
  | .var name => .atom name.name.lexeme.toList
  | .misfit form => .atom form.describe.toList

def Expr.nesteds : List Expr → List Nested
  | [] => []
  | e :: es => e.nested :: Expr.nesteds es

end

theorem intercalate_cons (first : List Char) (others : List (List Char)) :
    [' '].intercalate (first :: others) = first ++ others.flatMap (' ' :: ·) := by
  induction others generalizing first with
  | nil => simp
  | cons second others ih =>
      rw [List.intercalate_cons_cons, ih, List.flatMap_cons]
      simp

theorem toList_parenthesize (name : String) (parts : List String) :
    (parenthesize name parts).toList =
      '(' :: name.toList ++ ((parts.map String.toList).flatMap (' ' :: ·) ++ [')']) := by
  unfold parenthesize
  rw [String.toList_append, String.toList_append, String.toList_intercalate, List.map_cons]
  have hspace : " ".toList = [' '] := rfl
  rw [hspace, intercalate_cons]
  simp

mutual

theorem Expr.toList_prefixForm : (e : Expr) → e.prefixForm.toList = e.nested.text
  | .assign target value => by
      rw [Expr.prefixForm, toList_parenthesize, Expr.nested]
      simp [Nested.text, Nested.texts, value.toList_prefixForm]
  | .binary left operator right => by
      rw [Expr.prefixForm, toList_parenthesize, Expr.nested]
      simp [Nested.text, Nested.texts, left.toList_prefixForm, right.toList_prefixForm]
  | .call callee paren arguments => by
      rw [Expr.prefixForm, toList_parenthesize, Expr.nested]
      simp [Nested.text, Nested.texts, callee.toList_prefixForm, Expr.toList_prefixForms arguments]
  | .conditional condition thenBranch elseBranch => by
      rw [Expr.prefixForm, toList_parenthesize, Expr.nested]
      simp [Nested.text, Nested.texts, condition.toList_prefixForm, thenBranch.toList_prefixForm,
        elseBranch.toList_prefixForm]
  | .get object name => by
      rw [Expr.prefixForm, toList_parenthesize, Expr.nested]
      simp [Nested.text, Nested.texts, object.toList_prefixForm]
  | .grouping inner => by
      rw [Expr.prefixForm, toList_parenthesize, Expr.nested]
      simp [Nested.text, Nested.texts, inner.toList_prefixForm]
  | .literal value => by rw [Expr.prefixForm, Expr.nested, Nested.text]
  | .logical left operator right => by
      rw [Expr.prefixForm, toList_parenthesize, Expr.nested]
      simp [Nested.text, Nested.texts, left.toList_prefixForm, right.toList_prefixForm]
  | .set object name value => by
      rw [Expr.prefixForm, toList_parenthesize, Expr.nested]
      simp [Nested.text, Nested.texts, object.toList_prefixForm, value.toList_prefixForm]
  | .superRef keyword method => by
      rw [Expr.prefixForm, toList_parenthesize, Expr.nested]
      simp [Nested.text, Nested.texts]
  | .thisRef keyword => by rw [Expr.prefixForm, Expr.nested, Nested.text]
  | .unary operator right => by
      rw [Expr.prefixForm, toList_parenthesize, Expr.nested]
      simp [Nested.text, Nested.texts, right.toList_prefixForm]
  | .var name => by rw [Expr.prefixForm, Expr.nested, Nested.text]
  | .misfit form => by rw [Expr.prefixForm, Expr.nested, Nested.text]

theorem Expr.toList_prefixForms : (es : List Expr) →
    ((Expr.prefixForms es).map String.toList).flatMap (' ' :: ·) =
      Nested.texts (Expr.nesteds es)
  | [] => by rw [Expr.prefixForms, Expr.nesteds, Nested.texts]; rfl
  | e :: es => by
      rw [Expr.prefixForms, Expr.nesteds, Nested.texts, List.map_cons, List.flatMap_cons,
        e.toList_prefixForm, Expr.toList_prefixForms es]

end

end Lox
