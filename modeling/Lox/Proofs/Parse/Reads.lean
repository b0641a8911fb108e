import Lox.Proofs.Grammar

/-!
# What a silent parser reads

`p.Reads ts Q` says that the parser `p`, if it reports nothing on the tokens
`ts`, has a result that satisfies `Q` together with the tokens left.  Giving up
without a report is therefore excluded.  The rules of this module follow the
combinators, so that a parser is treated in the order in which it reads.
-/

namespace Lox
namespace Parser

def Reads (p : Parser α) (ts : List Token) (Q : α → List Token → Prop) : Prop :=
  (p ts).reports = [] → ∃ value rest, p ts = ⟨[], some value, rest⟩ ∧ Q value rest

/-!
# Combinators
-/

theorem bind_of_some {p : Parser α} {next : α → Parser β} {ts rest : List Token}
    {reports : List Report} {value : α} (hp : p ts = ⟨reports, some value, rest⟩) :
    (p >>= next) ts = ⟨reports ++ (next value rest).reports, (next value rest).result,
      (next value rest).rest⟩ := by
  show andThen p next ts = _
  simp only [andThen, hp]

theorem bind_of_none {p : Parser α} {next : α → Parser β} {ts rest : List Token}
    {reports : List Report} (hp : p ts = ⟨reports, none, rest⟩) :
    (p >>= next) ts = ⟨reports, none, rest⟩ := by
  show andThen p next ts = _
  simp only [andThen, hp]

theorem bind_of_result {p : Parser α} {next : α → Parser β} {ts rest : List Token} {value : α}
    (hp : p ts = ⟨[], some value, rest⟩) : (p >>= next) ts = next value rest :=
  bind_of_some hp

theorem map_of_result {p : Parser α} (f : α → β) {ts rest : List Token} {value : α}
    (hp : p ts = ⟨[], some value, rest⟩) : (f <$> p) ts = ⟨[], some (f value), rest⟩ :=
  bind_of_result hp

theorem reports_of_bind {p : Parser α} {next : α → Parser β} {ts : List Token}
    (hsilent : ((p >>= next) ts).reports = []) : (p ts).reports = [] := by
  change (andThen p next ts).reports = [] at hsilent
  simp only [andThen] at hsilent
  split at hsilent
  · exact hsilent
  · exact (List.append_eq_nil_iff.mp hsilent).left

theorem Reads.bind {p : Parser α} {next : α → Parser β} {ts : List Token}
    {Q : β → List Token → Prop}
    (hp : p.Reads ts fun value rest => (next value).Reads rest Q) : (p >>= next).Reads ts Q := by
  intro hsilent
  rcases hp (reports_of_bind hsilent) with ⟨value, rest, hresult, hnext⟩
  rw [bind_of_result hresult] at hsilent ⊢
  exact hnext hsilent

theorem Reads.imp {p : Parser α} {ts : List Token} {P Q : α → List Token → Prop}
    (hp : p.Reads ts P) (hPQ : ∀ value rest, P value rest → Q value rest) : p.Reads ts Q := by
  intro hsilent
  rcases hp hsilent with ⟨value, rest, hresult, hP⟩
  exact ⟨value, rest, hresult, hPQ value rest hP⟩

theorem Reads.ok {value : α} {ts : List Token} {Q : α → List Token → Prop}
    (hQ : Q value ts) : (Parser.ok value).Reads ts Q :=
  fun _ => ⟨value, ts, rfl, hQ⟩

theorem Reads.map {p : Parser α} {f : α → β} {ts : List Token} {Q : β → List Token → Prop}
    (hp : p.Reads ts fun value rest => Q (f value) rest) : (f <$> p).Reads ts Q :=
  Reads.bind (hp.imp fun _ _ hQ => Reads.ok hQ)

theorem Reads.fail {violation : Violation} {ts : List Token} {Q : α → List Token → Prop} :
    (Parser.fail violation : Parser α).Reads ts Q := by
  intro hsilent
  cases hsilent

theorem Reads.reportHere {violation : Violation} {ts : List Token}
    {Q : Unit → List Token → Prop} : (Parser.reportHere violation).Reads ts Q := by
  intro hsilent
  cases hsilent

theorem Reads.reportAt {token : Token} {violation : Violation} {ts : List Token}
    {Q : Unit → List Token → Prop} : (Parser.reportAt token violation).Reads ts Q := by
  intro hsilent
  cases hsilent

theorem peek_result (ts : List Token) :
    peek ts = ⟨[], some (ts.head?.map Token.kind), ts⟩ := rfl

theorem Reads.peek {ts : List Token} {Q : Option TokenKind → List Token → Prop}
    (hQ : Q (ts.head?.map Token.kind) ts) : Parser.peek.Reads ts Q :=
  fun _ => ⟨_, ts, rfl, hQ⟩

/-!
# Single tokens
-/

theorem accept_of_mem {kinds : List TokenKind} {token : Token} (rest : List Token)
    (hkind : token.kind ∈ kinds) :
    accept kinds (token :: rest) = ⟨[], some (some token), rest⟩ := by
  simp only [accept, if_pos hkind]

theorem accept_of_not_mem {kinds : List TokenKind} {ts : List Token}
    (hkind : ∀ token ∈ ts.head?, token.kind ∉ kinds) :
    accept kinds ts = ⟨[], some none, ts⟩ := by
  cases ts with
  | nil => rfl
  | cons token rest => simp only [accept, if_neg (hkind token rfl)]

theorem head_cases (kinds : List TokenKind) (ts : List Token) :
    (∀ token ∈ ts.head?, token.kind ∉ kinds) ∨
      ∃ token rest, ts = token :: rest ∧ token.kind ∈ kinds := by
  cases ts with
  | nil => exact Or.inl fun _ htoken => by cases htoken
  | cons token rest =>
      by_cases hkind : token.kind ∈ kinds
      · exact Or.inr ⟨token, rest, rfl, hkind⟩
      · exact Or.inl fun token' htoken => by cases htoken; exact hkind

theorem Reads.accept {kinds : List TokenKind} {ts : List Token}
    {Q : Option Token → List Token → Prop}
    (hnone : (∀ token ∈ ts.head?, token.kind ∉ kinds) → Q none ts)
    (hsome : ∀ token rest, ts = token :: rest → token.kind ∈ kinds → Q (some token) rest) :
    (Parser.accept kinds).Reads ts Q := by
  intro _
  rcases head_cases kinds ts with hkind | ⟨token, rest, rfl, hkind⟩
  · exact ⟨none, ts, accept_of_not_mem hkind, hnone hkind⟩
  · exact ⟨some token, rest, accept_of_mem rest hkind, hsome token rest rfl hkind⟩

theorem expect_of_kind {kind : TokenKind} {token : Token} (what : String) (rest : List Token)
    (hkind : token.kind = kind) :
    expect kind what (token :: rest) = ⟨[], some token, rest⟩ :=
  bind_of_result (accept_of_mem rest (by simp [hkind]))

theorem Reads.expect {kind : TokenKind} {what : String} {ts : List Token}
    {Q : Token → List Token → Prop}
    (hQ : ∀ token rest, ts = token :: rest → token.kind = kind → Q token rest) :
    (Parser.expect kind what).Reads ts Q := by
  apply Reads.bind
  apply Reads.accept
  · intro _
    exact Reads.fail
  · intro token rest hts hkind
    exact Reads.ok (hQ token rest hts (by simpa using hkind))

theorem Reads.unlessNext {kind : TokenKind} {p : Parser α} {ts : List Token}
    {Q : Option α → List Token → Prop}
    (hnext : ts.head?.map Token.kind = some kind → Q none ts)
    (hp : p.Reads ts fun value rest => Q (some value) rest) :
    (Parser.unlessNext kind p).Reads ts Q := by
  apply Reads.bind
  apply Reads.peek
  by_cases hkind : ts.head?.map Token.kind = some kind
  · simp only [if_pos hkind]
    exact Reads.ok (hnext hkind)
  · simp only [if_neg hkind]
    exact Reads.map hp

/-!
# Items between commas
-/

/-- A parser that reads items one at a time, from fewer than `n` tokens. -/
def ReadsItem (n : Nat) (p : Parser α) (item : α → List Token → Prop) : Prop :=
  ∀ ts : List Token, ts.length < n →
    p.Reads ts fun tree rest => ∃ us, ts = us ++ rest ∧ us ≠ [] ∧ item tree us

variable {n : Nat} {p : Parser α} {item : α → List Token → Prop}

theorem moreItems_reads (hp : ReadsItem n p item) (what : String) (bound : Nat) :
    ∀ (count : Nat) (ts : List Token), ts.length < bound → ts.length ≤ n →
      (moreItems p what bound count).Reads ts fun trees rest =>
        (trees = [] ∧ rest = ts) ∨
          ∃ comma us, comma.kind = .comma ∧ ts = comma :: us ++ rest ∧
            Grammar.Separated item trees us ∧ count + trees.length ≤ maxArguments := by
  induction bound with
  | zero =>
      intro _ ts hbound
      exact absurd hbound (Nat.not_lt_zero _)
  | succ bound ih =>
      intro count ts hbound hlength
      apply Reads.bind
      apply Reads.accept
      · intro _
        exact Reads.ok (Or.inl ⟨rfl, rfl⟩)
      · intro comma ts' hts hcomma
        subst hts
        simp only [List.length_cons] at hbound hlength
        by_cases hcount : maxArguments ≤ count
        · simp only [if_pos hcount]
          exact Reads.bind Reads.reportHere
        · simp only [if_neg hcount]
          refine Reads.bind ((hp ts' (by omega)).imp ?_)
          rintro tree ts'' ⟨us, rfl, hne, htree⟩
          have hpos := List.length_pos_iff.mpr hne
          simp only [List.length_append] at hbound hlength
          apply Reads.bind
          refine (ih (count + 1) ts'' (by omega) (by omega)).imp ?_
          rintro trees rest (⟨rfl, rfl⟩ | ⟨comma', vs, hcomma', rfl, htrees, hbounded⟩)
          · refine Reads.ok (Or.inr ⟨comma, us, by simpa using hcomma, rfl, .last htree, ?_⟩)
            simp only [List.length_singleton]
            omega
          · refine Reads.ok (Or.inr ⟨comma, us ++ comma' :: vs, by simpa using hcomma,
              by simp, .more hcomma' htree htrees, ?_⟩)
            simp only [List.length_cons]
            omega

theorem items_reads (hp : ReadsItem n p item) (what : String) (bound : Nat) (ts : List Token)
    (hbound : ts.length < bound) (hlength : ts.length < n) :
    (items p what bound).Reads ts fun trees rest =>
      (trees = [] ∧ rest = ts) ∨
        ∃ us, ts = us ++ rest ∧ Grammar.Separated item trees us ∧
          trees.length ≤ maxArguments := by
  apply Reads.bind
  apply Reads.peek
  by_cases hnext : ts.head?.map Token.kind = some .rightParen
  · simp only [if_pos hnext]
    exact Reads.ok (Or.inl ⟨rfl, rfl⟩)
  · simp only [if_neg hnext]
    refine Reads.bind ((hp ts hlength).imp ?_)
    rintro tree ts' ⟨us, rfl, hne, htree⟩
    simp only [List.length_append] at hbound hlength
    apply Reads.bind
    refine (moreItems_reads hp what bound 1 ts' (by omega) (by omega)).imp ?_
    rintro trees rest (⟨rfl, rfl⟩ | ⟨comma, vs, hcomma, rfl, htrees, hbounded⟩)
    · exact Reads.ok (Or.inr ⟨us, rfl, .last htree, by simp [maxArguments]⟩)
    · refine Reads.ok (Or.inr ⟨us ++ comma :: vs, by simp, .more hcomma htree htrees, ?_⟩)
      simp only [List.length_cons]
      omega

end Parser
end Lox
