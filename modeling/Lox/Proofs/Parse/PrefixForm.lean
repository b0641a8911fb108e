import Lox.Proofs.Number.Text
import Lox.Proofs.Parse.Sound
import Lox.Proofs.Scan.Separated
import Lox.Proofs.Syntax.Nested
import Lox.Proofs.Syntax.Relabel

/-!
# The prefix form is unambiguous

The prefix form of an expression that was read from a source can be read back:
its groups are found by their parentheses, the head of a group tells the
operation, and the first token of an atom tells a name from a constant.  Lines
are lost, and of a constant only its text is left.  Strings have to be left out,
since they are shown without quotes and may contain anything.
-/

namespace Lox

/-!
# Tokens and their texts
-/

theorem TokenKind.isWord_ofWord (word : String) : (ofWord word).isWord = true := by
  by_cases hname : ofWord word = .identifier
  · rw [hname]
    rfl
  · have hkeywords : ∀ entry ∈ keywords, entry.2.isWord = true := by decide
    exact hkeywords _ (mem_keywords_of_ofWord rfl hname)

theorem isSolid_of_holds {p : Char → Bool} {c : Char} (hc : p c = true) (hspace : p ' ' = false)
    (hleft : p '(' = false) (hright : p ')' = false) : isSolid c = true := by
  have hne : ∀ d, p d = false → c ≠ d := by
    intro d hd heq
    rw [heq, hd] at hc
    cases hc
  simp [isSolid, hne _ hspace, hne _ hleft, hne _ hright]

theorem solid_of_isWord {text : List Char} (hword : IsWord text) : Solid text := by
  rcases hword with ⟨c, cs, rfl, hc, hcs⟩
  constructor
  · exact List.cons_ne_nil _ _
  · rw [List.forall_mem_cons]
    constructor
    · exact isSolid_of_holds hc rfl rfl rfl
    · exact fun d hd => isSolid_of_holds (hcs d hd) rfl rfl rfl

theorem solid_of_operator {text : List Char} {kind : TokenKind} (hmem : (text, kind) ∈ operators)
    (hleft : kind ≠ .leftParen) (hright : kind ≠ .rightParen) : Solid text := by
  have hsolid : ∀ entry ∈ operators,
      entry.2 ≠ .leftParen → entry.2 ≠ .rightParen → Solid entry.1 := by
    simp [operators, Solid, isSolid]
  exact hsolid _ hmem hleft hright

theorem solid_of_numeric {text : List Char} (hnumeric : Numeric text) : Solid text := by
  rcases hnumeric with ⟨⟨c, hc, _⟩, hall⟩
  constructor
  · intro hnil
    rw [hnil] at hc
    cases hc
  · exact fun d hd => isSolid_of_holds (hall d hd) (by simp [isNumeric]) (by simp [isNumeric])
      (by simp [isNumeric])

namespace Token

def Lexical (t : Token) : Prop := Segment.Rule (.token t.kind t.lexeme.toList t.literal)

theorem lexical_of_mem_scan {source : String} {t : Token} (hmem : t ∈ (scan source).tokens) :
    t.Lexical := by
  have hcontent : t.content ∈ (Segment.all source.toList).filterMap Segment.content? := by
    rw [← scan_contents]
    exact List.mem_map_of_mem hmem
  rcases List.mem_filterMap.mp hcontent with ⟨segment, hsegment, hsame⟩
  rcases (Segment.tiles_all _).leads hsegment with ⟨rest, hleads⟩
  cases segment with
  | token kind lexeme literal =>
      injection hsame with hsame
      simp only [content, Prod.mk.injEq] at hsame
      rcases hsame with ⟨hkind, hlexeme, hliteral⟩
      unfold Lexical
      rw [← hkind, ← hlexeme, ← hliteral, String.toList_ofList]
      exact hleads.rule rfl
  | _ => cases hsame

def ofText : List Char → Token
  | [] => .endOfInput 0
  | c :: rest => ((Segment.cut c rest).1.token? 0).getD (.endOfInput 0)

namespace Lexical

variable {t : Token} (hlexical : t.Lexical)

include hlexical

theorem ofText_lexeme : ofText t.lexeme.toList = t.withoutLine := by
  rcases Segment.cut_of_leads hlexical.leads with ⟨c, rest, htext, hcut⟩
  rw [List.append_nil] at htext
  change t.lexeme.toList = c :: rest at htext
  rw [htext, ofText, hcut, Segment.token?, String.ofList_toList]
  rfl

theorem genuine : t.Genuine := by
  intro hword
  have hkind := (hlexical.leads.word_of_isWord hword).1.1
  rw [String.ofList_toList] at hkind
  exact hkind

theorem sort :
    ((t.lexeme.toList, t.kind) ∈ operators ∧ t.literal = .nil) ∨
      ((t.kind.isWord = true ∧ IsWord t.lexeme.toList) ∧ t.literal = .nil) ∨
      (t.kind = .number ∧ ∃ digits e, t.literal = .number (Number.ofDecimal digits e)) ∨
      (t.kind = .string ∧ ∃ text, t.literal = .text text) := by
  unfold Lexical at hlexical
  generalize hsegment : Segment.token t.kind t.lexeme.toList t.literal = segment at hlexical
  cases hlexical with
  | operator hmem =>
      injection hsegment with hkind hlexeme hliteral
      rw [hkind, hlexeme]
      exact Or.inl ⟨hmem, hliteral⟩
  | whole _ _ =>
      injection hsegment with hkind _ hliteral
      exact Or.inr (Or.inr (Or.inl ⟨hkind, _, _, hliteral⟩))
  | decimal _ _ _ _ =>
      injection hsegment with hkind _ hliteral
      exact Or.inr (Or.inr (Or.inl ⟨hkind, _, _, hliteral⟩))
  | word hword =>
      injection hsegment with hkind hlexeme hliteral
      rw [hkind, hlexeme]
      exact Or.inr (Or.inl ⟨⟨TokenKind.isWord_ofWord _, hword⟩, hliteral⟩)
  | string _ =>
      injection hsegment with hkind _ hliteral
      exact Or.inr (Or.inr (Or.inr ⟨hkind, _, hliteral⟩))
  | comment _ => cases hsegment
  | blank _ => cases hsegment

/-- The only tokens with spaces or parentheses are parentheses and strings. -/
theorem solid (hkind : t.kind ∉ [.leftParen, .rightParen, .number, .string]) :
    Solid t.lexeme.toList := by
  simp only [List.mem_cons, List.not_mem_nil, or_false, not_or] at hkind
  rcases hkind with ⟨hleft, hright, hnumber, hstring⟩
  rcases hlexical.sort with ⟨hoperator, _⟩ | ⟨⟨_, hword⟩, _⟩ | ⟨hsame, _⟩ | ⟨hsame, _⟩
  · exact solid_of_operator hoperator hleft hright
  · exact solid_of_isWord hword
  · exact absurd hsame hnumber
  · exact absurd hsame hstring

theorem eq_rightParen (hkind : t.kind = .rightParen) : t.withoutLine = ofText [')'] := by
  rcases hlexical.sort with ⟨hoperator, _⟩ | ⟨⟨hword, _⟩, _⟩ | ⟨hsame, _⟩ | ⟨hsame, _⟩
  · rw [hkind] at hoperator
    have htext : t.lexeme.toList = [')'] := by simpa [operators] using hoperator
    rw [← hlexical.ofText_lexeme, htext]
  · rw [hkind] at hword
    cases hword
  · rw [hkind] at hsame
    cases hsame
  · rw [hkind] at hsame
    cases hsame

end Lexical

theorem kind_ofText_of_isDigit {c : Char} (hc : c.isDigit = true) (rest : List Char) :
    (ofText (c :: rest)).kind = .number := by
  rw [ofText, Segment.cut_of_not_special (Segment.not_special_of_isDigit hc), if_pos hc]
  unfold Segment.digits
  split
  · split
    · rfl
    · rfl
  · rfl

end Token

/-!
# Constants
-/

def Literal.isPlain : Literal → Bool
  | .number x => !x.isInfinite
  | .text _ => false
  | _ => true

theorem kind_ofText_of_numeric {text : List Char} (hnumeric : Numeric text) :
    (Token.ofText text).kind = .number := by
  rcases hnumeric.1 with ⟨c, hc, hdigit⟩
  cases text with
  | nil => cases hc
  | cons d rest =>
      cases hc
      exact Token.kind_ofText_of_isDigit hdigit rest

namespace Literal

/-- A constant whose text is in one piece, and starts with a token that is a constant. -/
def Telling (value : Literal) : Prop :=
  Solid value.print.toList ∧
    (Token.ofText value.print.toList).kind ∈ [.kwNil, .kwTrue, .kwFalse, .number]

theorem telling_nil : Literal.nil.Telling :=
  ⟨solid_of_isWord (by decide), by decide +kernel⟩

theorem telling_bool (value : Bool) : (Literal.bool value).Telling := by
  cases value with
  | false => exact ⟨solid_of_isWord (by decide), by decide +kernel⟩
  | true => exact ⟨solid_of_isWord (by decide), by decide +kernel⟩

theorem telling_number {digits : Nat} {e : Int}
    (hfinite : (Number.ofDecimal digits e).isInfinite = false) :
    (Literal.number (Number.ofDecimal digits e)).Telling := by
  have hnumeric := Number.numeric_print (Number.isNaN_ofDecimal digits e) hfinite
    (Number.negative_ofDecimal digits e)
  constructor
  · exact solid_of_numeric hnumeric
  · rw [Literal.print, kind_ofText_of_numeric hnumeric]
    decide

end Literal

theorem Token.Lexical.telling {token : Token} (htoken : token.Lexical)
    (hplain : token.literal.isPlain = true) : token.literal.Telling := by
  rcases htoken.sort with ⟨_, hnil⟩ | ⟨_, hnil⟩ | ⟨_, digits, e, hnumber⟩ | ⟨_, text, htext⟩
  · rw [hnil]
    exact Literal.telling_nil
  · rw [hnil]
    exact Literal.telling_nil
  · rw [hnumber, Literal.isPlain, Bool.not_eq_true'] at hplain
    rw [hnumber]
    exact Literal.telling_number hplain
  · rw [htext] at hplain
    cases hplain

theorem telling_of_constant {token : Token} {value : Literal} (htoken : token.Lexical)
    (hvalue : token.constant? = some value) (hplain : value.isPlain = true) : value.Telling := by
  unfold Token.constant? at hvalue
  split at hvalue
  · cases hvalue
    exact Literal.telling_bool false
  · cases hvalue
    exact Literal.telling_bool true
  · cases hvalue
    exact Literal.telling_nil
  · cases hvalue
    exact htoken.telling hplain
  · cases hvalue
    exact htoken.telling hplain
  · cases hvalue

namespace Expr

mutual

def constants : Expr → List Literal
  | .assign _ value => value.constants
  | .binary left _ right => left.constants ++ right.constants
  | .call callee _ arguments => callee.constants ++ allConstants arguments
  | .conditional condition thenBranch elseBranch =>
      condition.constants ++ (thenBranch.constants ++ elseBranch.constants)
  | .get object _ => object.constants
  | .grouping inner => inner.constants
  | .literal value => [value]
  | .logical left _ right => left.constants ++ right.constants
  | .set object _ value => object.constants ++ value.constants
  | .superRef _ _ => []
  | .thisRef _ => []
  | .unary _ right => right.constants
  | .var _ => []
  | .misfit _ => []

def allConstants : List Expr → List Literal
  | [] => []
  | e :: es => e.constants ++ allConstants es

end

mutual

/-- An expression with the texts of its constants in their places. -/
def worded : Expr → Expr
  | .assign target value => .assign target value.worded
  | .binary left operator right => .binary left.worded operator right.worded
  | .call callee paren arguments => .call callee.worded paren (wordeds arguments)
  | .conditional condition thenBranch elseBranch =>
      .conditional condition.worded thenBranch.worded elseBranch.worded
  | .get object name => .get object.worded name
  | .grouping inner => .grouping inner.worded
  | .literal value => .literal (.text value.print)
  | .logical left operator right => .logical left.worded operator right.worded
  | .set object name value => .set object.worded name value.worded
  | .superRef keyword method => .superRef keyword method
  | .thisRef keyword => .thisRef keyword
  | .unary operator right => .unary operator right.worded
  | .var name => .var name
  | .misfit form => .misfit form

def wordeds : List Expr → List Expr
  | [] => []
  | e :: es => e.worded :: wordeds es

end

/-!
# Reading groups
-/

/-- What an atom stands for: a name, the object of a method, or else a constant. -/
def ofAtom (text : List Char) : Expr :=
  match (Token.ofText text).kind with
  | .identifier => .var ⟨Token.ofText text, 0⟩
  | .kwThis => .thisRef ⟨Token.ofText text, 0⟩
  | _ => .literal (.text (String.ofList text))

def label : Expr → Token
  | .var name => name.name
  | _ => .endOfInput 0

/-- The operation with this head and these parts; a name is read as a variable. -/
def ofParts (head : Token) (parts : List Expr) : Expr :=
  match head.kind, parts with
  | .equal, [name, value] => .assign ⟨name.label, 0⟩ value
  | .equal, [object, name, value] => .set object name.label value
  | .dot, [object, name] => .get object name.label
  | .question, [condition, thenBranch, elseBranch] =>
      .conditional condition thenBranch elseBranch
  | .kwSuper, [method] => .superRef ⟨head, 0⟩ method.label
  | .identifier, first :: others =>
      if head.lexeme = "group" then .grouping first
      else .call first (Token.ofText [')']) others
  | .kwAnd, [left, right] | .kwOr, [left, right] => .logical left head right
  | _, [left, right] => .binary left head right
  | _, [right] => .unary head right
  | _, _ => .misfit (.constant .nil)

end Expr

mutual

def Nested.expr : Nested → Expr
  | .atom text => .ofAtom text
  | .group head parts => .ofParts (Token.ofText head) (Nested.exprs parts)

def Nested.exprs : List Nested → List Expr
  | [] => []
  | part :: parts => part.expr :: Nested.exprs parts

end

/-!
# Printed expressions are read back
-/

namespace Expr

/-- An expression that is read back from its groups, up to lines and constants. -/
def ReadsBack (e : Expr) : Prop :=
  e.nested.Legible ∧ e.nested.expr = (e.relabel Token.withoutLine).worded

def AllReadBack (es : List Expr) : Prop :=
  Nested.AllLegible (nesteds es) ∧
    Nested.exprs (nesteds es) = wordeds (relabels Token.withoutLine es)

section Atoms

variable {text : List Char}

theorem ofAtom_of_identifier (hkind : (Token.ofText text).kind = .identifier) :
    ofAtom text = .var ⟨Token.ofText text, 0⟩ := by
  unfold ofAtom
  rw [hkind]

theorem ofAtom_of_this (hkind : (Token.ofText text).kind = .kwThis) :
    ofAtom text = .thisRef ⟨Token.ofText text, 0⟩ := by
  unfold ofAtom
  rw [hkind]

theorem ofAtom_of_constant
    (hkind : (Token.ofText text).kind ∈ [.kwNil, .kwTrue, .kwFalse, .number]) :
    ofAtom text = .literal (.text (String.ofList text)) := by
  unfold ofAtom
  simp only [List.mem_cons, List.not_mem_nil, or_false] at hkind
  rcases hkind with hkind | hkind | hkind | hkind <;> rw [hkind]

end Atoms

theorem readsBack_var {name : Token} (hname : name.Lexical) (hkind : name.kind = .identifier) :
    (Expr.var ⟨name, 0⟩).ReadsBack := by
  constructor
  · exact hname.solid (by rw [hkind]; decide)
  · have htoken := hname.ofText_lexeme
    rw [nested, Nested.expr, ofAtom_of_identifier (by rw [htoken]; exact hkind), htoken]
    rfl

theorem readsBack_this {keyword : Token} (hkeyword : keyword.Lexical)
    (hkind : keyword.kind = .kwThis) : (Expr.thisRef ⟨keyword, 0⟩).ReadsBack := by
  constructor
  · exact solid_of_isWord (by decide)
  · have htoken := hkeyword.ofText_lexeme
    rw [hkeyword.genuine.lexeme_this hkind] at htoken
    rw [nested, Nested.expr, ofAtom_of_this (by rw [htoken]; exact hkind), htoken]
    rfl

theorem readsBack_literal {token : Token} {value : Literal} (htoken : token.Lexical)
    (hvalue : token.constant? = some value) (hplain : value.isPlain = true) :
    (Expr.literal value).ReadsBack := by
  rcases telling_of_constant htoken hvalue hplain with ⟨hsolid, hkind⟩
  constructor
  · exact hsolid
  · rw [nested, Nested.expr, ofAtom_of_constant hkind, String.ofList_toList]
    rfl

section Groups

variable {head : Token}

theorem ofParts_of_super (hkind : head.kind = .kwSuper) (method : Expr) :
    ofParts head [method] = .superRef ⟨head, 0⟩ method.label := by
  unfold ofParts
  rw [hkind]

theorem ofParts_of_unary (hkind : head.kind = .bang ∨ head.kind = .minus) (right : Expr) :
    ofParts head [right] = .unary head right := by
  unfold ofParts
  rcases hkind with hkind | hkind <;> rw [hkind]

theorem ofParts_of_level {level : Grammar.Level} (hkind : head.kind ∈ level.operators)
    (left right : Expr) : ofParts head [left, right] = level.node left head right := by
  unfold ofParts
  cases level <;>
    simp only [Grammar.Level.operators, List.mem_cons, List.not_mem_nil, or_false] at hkind
  case factor => rcases hkind with hkind | hkind <;> rw [hkind] <;> rfl
  case term => rcases hkind with hkind | hkind <;> rw [hkind] <;> rfl
  case comparison => rcases hkind with hkind | hkind | hkind | hkind <;> rw [hkind] <;> rfl
  case equality => rcases hkind with hkind | hkind <;> rw [hkind] <;> rfl
  case logicAnd => rw [hkind]; rfl
  case logicOr => rw [hkind]; rfl

end Groups

theorem readsBack_super {keyword method : Token} (hkeyword : keyword.Lexical)
    (hkind : keyword.kind = .kwSuper) (hmethod : method.Lexical)
    (hname : method.kind = .identifier) :
    (Expr.superRef ⟨keyword, 0⟩ method).ReadsBack := by
  rcases readsBack_var hmethod hname with ⟨hlegible, hread⟩
  rw [nested] at hlegible hread
  constructor
  · exact ⟨solid_of_isWord (by decide), hlegible, trivial⟩
  · have htoken := hkeyword.ofText_lexeme
    rw [hkeyword.genuine.lexeme_super hkind] at htoken
    rw [nested, Nested.expr, Nested.exprs, Nested.exprs, hread, htoken]
    have hhead : keyword.withoutLine.kind = .kwSuper := hkind
    exact ofParts_of_super hhead _

theorem readsBack_grouping {inner : Expr} (hinner : inner.ReadsBack) :
    (Expr.grouping inner).ReadsBack := by
  rcases hinner with ⟨hlegible, hread⟩
  constructor
  · exact ⟨solid_of_isWord (by decide), hlegible, trivial⟩
  · rw [nested, Nested.expr, Nested.exprs, Nested.exprs, hread]
    rfl

theorem readsBack_assign {name : Token} {value : Expr} (hname : name.Lexical)
    (hkind : name.kind = .identifier) (hvalue : value.ReadsBack) :
    (Expr.assign ⟨name, 0⟩ value).ReadsBack := by
  rcases readsBack_var hname hkind with ⟨hlegible, hread⟩
  rcases hvalue with ⟨hlegibleValue, hreadValue⟩
  rw [nested] at hlegible hread
  constructor
  · exact ⟨by simp [Solid, isSolid], hlegible, hlegibleValue, trivial⟩
  · rw [nested, Nested.expr, Nested.exprs, Nested.exprs, Nested.exprs, hread, hreadValue]
    rfl

theorem readsBack_set {object value : Expr} {name : Token} (hobject : object.ReadsBack)
    (hname : name.Lexical) (hkind : name.kind = .identifier) (hvalue : value.ReadsBack) :
    (Expr.set object name value).ReadsBack := by
  rcases readsBack_var hname hkind with ⟨hlegible, hread⟩
  rcases hobject with ⟨hlegibleObject, hreadObject⟩
  rcases hvalue with ⟨hlegibleValue, hreadValue⟩
  rw [nested] at hlegible hread
  constructor
  · exact ⟨by simp [Solid, isSolid], hlegibleObject, hlegible, hlegibleValue, trivial⟩
  · rw [nested, Nested.expr, Nested.exprs, Nested.exprs, Nested.exprs, Nested.exprs, hread,
      hreadObject, hreadValue]
    rfl

theorem readsBack_get {object : Expr} {name : Token} (hobject : object.ReadsBack)
    (hname : name.Lexical) (hkind : name.kind = .identifier) :
    (Expr.get object name).ReadsBack := by
  rcases readsBack_var hname hkind with ⟨hlegible, hread⟩
  rcases hobject with ⟨hlegibleObject, hreadObject⟩
  rw [nested] at hlegible hread
  constructor
  · exact ⟨by simp [Solid, isSolid], hlegibleObject, hlegible, trivial⟩
  · rw [nested, Nested.expr, Nested.exprs, Nested.exprs, Nested.exprs, hread, hreadObject]
    rfl

theorem readsBack_conditional {condition thenBranch elseBranch : Expr}
    (hcondition : condition.ReadsBack) (hthen : thenBranch.ReadsBack)
    (helse : elseBranch.ReadsBack) :
    (Expr.conditional condition thenBranch elseBranch).ReadsBack := by
  rcases hcondition with ⟨hlegible, hread⟩
  rcases hthen with ⟨hlegibleThen, hreadThen⟩
  rcases helse with ⟨hlegibleElse, hreadElse⟩
  constructor
  · exact ⟨by simp [Solid, isSolid], hlegible, hlegibleThen, hlegibleElse, trivial⟩
  · rw [nested, Nested.expr, Nested.exprs, Nested.exprs, Nested.exprs, Nested.exprs, hread,
      hreadThen, hreadElse]
    rfl

theorem readsBack_call {callee : Expr} {paren : Token} {arguments : List Expr}
    (hcallee : callee.ReadsBack) (hparen : paren.Lexical) (hkind : paren.kind = .rightParen)
    (harguments : AllReadBack arguments) : (Expr.call callee paren arguments).ReadsBack := by
  rcases hcallee with ⟨hlegible, hread⟩
  rcases harguments with ⟨hlegibles, hreads⟩
  constructor
  · exact ⟨solid_of_isWord (by decide), hlegible, hlegibles⟩
  · rw [nested, Nested.expr, Nested.exprs, hread, hreads, relabel, worded]
    dsimp only
    rw [hparen.eq_rightParen hkind]
    rfl

theorem allReadBack_cons {e : Expr} {es : List Expr} (hfirst : e.ReadsBack)
    (hrest : AllReadBack es) : AllReadBack (e :: es) := by
  rcases hfirst with ⟨hlegible, hread⟩
  rcases hrest with ⟨hlegibles, hreads⟩
  constructor
  · exact ⟨hlegible, hlegibles⟩
  · rw [nesteds, Nested.exprs, hread, hreads]
    rfl

theorem readsBack_unary {operator : Token} {right : Expr} (hoperator : operator.Lexical)
    (hkind : operator.kind = .bang ∨ operator.kind = .minus) (hright : right.ReadsBack) :
    (Expr.unary operator right).ReadsBack := by
  rcases hright with ⟨hlegible, hread⟩
  constructor
  · have hsolid : Solid operator.lexeme.toList := by
      apply hoperator.solid
      rcases hkind with hkind | hkind <;> rw [hkind] <;> decide
    exact ⟨hsolid, hlegible, trivial⟩
  · rw [nested, Nested.expr, Nested.exprs, Nested.exprs, hread, hoperator.ofText_lexeme]
    have hhead : operator.withoutLine.kind = .bang ∨ operator.withoutLine.kind = .minus := hkind
    exact ofParts_of_unary hhead _

theorem readsBack_node {level : Grammar.Level} {left right : Expr} {operator : Token}
    (hoperator : operator.Lexical) (hkind : operator.kind ∈ level.operators)
    (hleft : left.ReadsBack) (hright : right.ReadsBack) :
    (level.node left operator right).ReadsBack := by
  rcases hleft with ⟨hlegible, hread⟩
  rcases hright with ⟨hlegibleRight, hreadRight⟩
  have hnested : (level.node left operator right).nested =
      .group operator.lexeme.toList [left.nested, right.nested] := by
    cases level <;> rfl
  have houtline : ((level.node left operator right).relabel Token.withoutLine).worded =
      level.node (left.relabel Token.withoutLine).worded operator.withoutLine
        (right.relabel Token.withoutLine).worded := by
    cases level <;> rfl
  unfold ReadsBack
  rw [hnested, houtline]
  constructor
  · have hsolid : Solid operator.lexeme.toList := by
      apply hoperator.solid
      have hkinds : ∀ kind ∈ level.operators,
          kind ∉ [.leftParen, .rightParen, .number, .string] := by
        cases level <;> decide
      exact hkinds _ hkind
    exact ⟨hsolid, hlegible, hlegibleRight, trivial⟩
  · rw [Nested.expr, Nested.exprs, Nested.exprs, Nested.exprs, hread, hreadRight,
      hoperator.ofText_lexeme]
    have hhead : operator.withoutLine.kind ∈ level.operators := hkind
    exact ofParts_of_level hhead _ _

def ReadFrom (e : Expr) (source : String) : Prop :=
  (parseExpression (scan source).tokens).reports = [] ∧
    (parseExpression (scan source).tokens).result = some e

/-- An expression with neither strings nor infinite numbers in it. -/
def IsPlain (e : Expr) : Prop := ∀ value ∈ e.constants, value.isPlain = true

end Expr

namespace Grammar

def Phrase.constants : Phrase → List Literal
  | .expr _ tree => tree.constants
  | .arguments trees => Expr.allConstants trees

theorem Level.constants_node (level : Level) (left : Expr) (operator : Token) (right : Expr) :
    (level.node left operator right).constants = left.constants ++ right.constants := by
  cases level <;> rfl

def Phrase.ReadsBack : Phrase → Prop
  | .expr _ tree => tree.ReadsBack
  | .arguments trees => Expr.AllReadBack trees

theorem derives_readsBack {greedy : Bool} {phrase : Phrase} {ts : List Token}
    (hderives : Derives greedy phrase ts) (hts : ∀ t ∈ ts, t.Lexical)
    (hplain : ∀ value ∈ phrase.constants, value.isPlain = true) : phrase.ReadsBack := by
  induction hderives with
  | constant hvalue =>
      exact Expr.readsBack_literal (hts _ (by simp)) hvalue (hplain _ List.mem_cons_self)
  | this hkind => exact Expr.readsBack_this (hts _ (by simp)) hkind
  | super hkind _ hmethod =>
      exact Expr.readsBack_super (hts _ (by simp)) hkind (hts _ (by simp)) hmethod
  | name hkind => exact Expr.readsBack_var (hts _ (by simp)) hkind
  | grouping _ _ _ ih =>
      exact Expr.readsBack_grouping (ih (fun t ht => hts t (by simp [ht])) hplain)
  | lift _ _ ih => exact ih hts hplain
  | emptyCall _ hright _ ih =>
      rcases List.forall_mem_append.mp hplain with ⟨hplainCallee, _⟩
      have hcallee := ih (fun t ht => hts t (by simp [ht])) hplainCallee
      exact Expr.readsBack_call hcallee (hts _ (by simp)) hright ⟨trivial, rfl⟩
  | call _ hright _ _ _ ihCallee ihArguments =>
      rcases List.forall_mem_append.mp hplain with ⟨hplainCallee, hplainArguments⟩
      have hcallee := ihCallee (fun t ht => hts t (by simp [ht])) hplainCallee
      have harguments := ihArguments (fun t ht => hts t (by simp [ht])) hplainArguments
      exact Expr.readsBack_call hcallee (hts _ (by simp)) hright harguments
  | property _ hname _ ih =>
      have hobject := ih (fun t ht => hts t (by simp [ht])) hplain
      exact Expr.readsBack_get hobject (hts _ (by simp)) hname
  | unary hoperator _ ih =>
      have hoperand := ih (fun t ht => hts t (by simp [ht])) hplain
      exact Expr.readsBack_unary (hts _ (by simp)) hoperator hoperand
  | @chain level _ operator left right _ _ _ hoperator _ _ _ ihLeft ihRight =>
      rw [Phrase.constants, Level.constants_node] at hplain
      rcases List.forall_mem_append.mp hplain with ⟨hplainLeft, hplainRight⟩
      have hleft := ihLeft (fun t ht => hts t (by simp [ht])) hplainLeft
      have hright := ihRight (fun t ht => hts t (by simp [ht])) hplainRight
      exact Expr.readsBack_node (hts _ (by simp)) hoperator hleft hright
  | conditional _ _ _ _ _ ihCondition ihThen ihElse =>
      rcases List.forall_mem_append.mp hplain with ⟨hplainCondition, hplainBranches⟩
      rcases List.forall_mem_append.mp hplainBranches with ⟨hplainThen, hplainElse⟩
      have hcondition := ihCondition (fun t ht => hts t (by simp [ht])) hplainCondition
      have hthen := ihThen (fun t ht => hts t (by simp [ht])) hplainThen
      have helse := ihElse (fun t ht => hts t (by simp [ht])) hplainElse
      exact Expr.readsBack_conditional hcondition hthen helse
  | assign hname _ _ ih =>
      have hvalue := ih (fun t ht => hts t (by simp [ht])) hplain
      exact Expr.readsBack_assign (hts _ (by simp)) hname hvalue
  | set _ hname _ _ _ ihObject ihValue =>
      rcases List.forall_mem_append.mp hplain with ⟨hplainObject, hplainValue⟩
      have hobject := ihObject (fun t ht => hts t (by simp [ht])) hplainObject
      have hvalue := ihValue (fun t ht => hts t (by simp [ht])) hplainValue
      exact Expr.readsBack_set hobject (hts _ (by simp)) hname hvalue
  | lastArgument _ ih =>
      rcases List.forall_mem_append.mp hplain with ⟨hplainFirst, _⟩
      exact Expr.allReadBack_cons (ih hts hplainFirst) ⟨trivial, rfl⟩
  | moreArguments _ _ _ ihFirst ihRest =>
      rcases List.forall_mem_append.mp hplain with ⟨hplainFirst, hplainRest⟩
      have hfirst := ihFirst (fun t ht => hts t (by simp [ht])) hplainFirst
      have hrest := ihRest (fun t ht => hts t (by simp [ht])) hplainRest
      exact Expr.allReadBack_cons hfirst hrest

end Grammar

theorem Expr.readsBack_of_readFrom {e : Expr} {source : String} (hread : e.ReadFrom source)
    (hplain : e.IsPlain) : e.ReadsBack := by
  rcases hread with ⟨hsilent, hresult⟩
  rcases expression_of_silent hsilent with ⟨tree, hparse, hderives⟩
  rw [hparse] at hresult
  cases hresult
  exact Grammar.derives_readsBack hderives (fun t ht => Token.lexical_of_mem_scan ht) hplain

/--
The prefix form is unambiguous.  If two expressions that have been read from sources
have the same prefix form, and neither contains a string or an infinite number, they
are the same up to the lines of tokens, and their constants have the same texts.
-/
theorem prefixForm_unambiguous {first second : Expr} {source source' : String}
    (hfirst : first.ReadFrom source) (hsecond : second.ReadFrom source')
    (hplain : first.IsPlain) (hplain' : second.IsPlain)
    (hsame : first.prefixForm = second.prefixForm) :
    (first.relabel Token.withoutLine).worded = (second.relabel Token.withoutLine).worded := by
  rcases Expr.readsBack_of_readFrom hfirst hplain with ⟨hlegible, hread⟩
  rcases Expr.readsBack_of_readFrom hsecond hplain' with ⟨hlegible', hread'⟩
  have htext : first.nested.text = second.nested.text := by
    rw [← first.toList_prefixForm, ← second.toList_prefixForm, hsame]
  rw [← hread, ← hread', Nested.text_injective hlegible hlegible' htext]

/-- Spaces, lines and the places of a number do not show in the prefix form. -/
theorem prefixForm_unambiguous_layout :
    ∃ first second : Expr,
      (first.ReadFrom "a.f(1.50) ? -x : nil" ∧ second.ReadFrom "a\n.f(01.5)\n  ? - x : nil") ∧
        (first.IsPlain ∧ second.IsPlain) ∧
        first.prefixForm = "(?: (call (. a f) 1.5) (- x) nil)" ∧
        first.prefixForm = second.prefixForm ∧
        (first.relabel Token.withoutLine).worded = (second.relabel Token.withoutLine).worded := by
  have hread : ∀ source, (parseExpression (scan source).tokens).reports = [] →
      (parseExpression (scan source).tokens).result.map
          (fun e => (e.prefixForm, e.constants.all Literal.isPlain)) =
        some ("(?: (call (. a f) 1.5) (- x) nil)", true) →
      ∃ e : Expr, e.ReadFrom source ∧ e.IsPlain ∧
        e.prefixForm = "(?: (call (. a f) 1.5) (- x) nil)" := by
    intro source hsilent hresult
    rcases expression_of_silent hsilent with ⟨tree, hparse, _⟩
    rw [hparse, Option.map_some, Option.some_inj, Prod.mk.injEq, List.all_eq_true] at hresult
    exact ⟨tree, ⟨hsilent, by rw [hparse]⟩, hresult.2, hresult.1⟩
  rcases hread "a.f(1.50) ? -x : nil" (by decide +kernel) (by decide +kernel) with
    ⟨first, hfirst, hplain, hform⟩
  rcases hread "a\n.f(01.5)\n  ? - x : nil" (by decide +kernel) (by decide +kernel) with
    ⟨second, hsecond, hplain', hform'⟩
  have hsame := hform.trans hform'.symm
  exact ⟨first, second, ⟨hfirst, hsecond⟩, ⟨hplain, hplain'⟩, hform, hsame,
    prefixForm_unambiguous hfirst hsecond hplain hplain' hsame⟩

end Lox
