import GameScript.Proofs.Json.Equality
import GameScript.Proofs.Session.Matching

/-! # Sources in other spellings

Most kinds of token have several spellings. Parsing looks at kinds and literals, running at kinds and
at the names of identifiers, so a source does the same in every spelling: only where a diagnostic
quotes a token is the spelling shown. -/

namespace GameScript

/-- The same token in another spelling. An identifier has one spelling only. -/
@[mk_iff] structure Token.Respelled (t t' : Token) : Prop where
  kind : t.kind = t'.kind
  literal : t.literal = t'.literal
  line : t.line = t'.line
  name : t.kind = .identifier → t.lexeme = t'.lexeme

instance (t t' : Token) : Decidable (t.Respelled t') := decidable_of_iff' _ (Token.respelled_iff t t')

/-- What a diagnostic is about, whatever the spelling of its token. -/
def Origin.unspelled : Origin → Origin
  | .token _ => .token ""
  | origin => origin

/-- The same diagnostic of the same sort on the same line. The text differs at most in the lexeme of a
token that it quotes. -/
structure Diagnostic.Respelled (d d' : Diagnostic) : Prop where
  line : d.line = d'.line
  origin : d.origin.unspelled = d'.origin.unspelled
  text : d.text = d'.text ∨ ∃ before after t t', Token.Respelled t t' ∧
    d.text = before ++ "'" ++ t.text ++ "'" ++ after ∧
    d'.text = before ++ "'" ++ t'.text ++ "'" ++ after

namespace Token.Respelled

variable {t t' : Token}

theorem same (t : Token) : t.Respelled t := ⟨rfl, rfl, rfl, fun _ => rfl⟩

/-- An identifier in another spelling is the same identifier. -/
theorem eq_of_identifier (h : t.Respelled t') (hk : t.kind = .identifier) : t = t' := by
  have hname := h.name hk
  obtain ⟨hkind, hliteral, hline, -⟩ := h
  cases t
  cases t'
  simp only [Token.mk.injEq]
  exact ⟨hkind, hname, hliteral, hline⟩

/-- Running looks at the lexemes of names, which are the same, and at kinds. -/
theorem neutral : Neutral Eq Token.Respelled where
  name h := by rw [h]
  kind h := h.kind

/-- Parsing looks at kinds and literals, and makes names of identifiers only. -/
theorem respects : Parse.Respects Token.Respelled (Node.Matches Eq Token.Respelled)
    (Node.Matches Eq Token.Respelled) :=
  Node.Matches.respects (fun _ _ h => h.kind) (fun _ _ h => h.literal) fun _ _ h hk =>
    h.eq_of_identifier hk

end Token.Respelled

namespace Diagnostic.Respelled

theorem same (d : Diagnostic) : d.Respelled d := ⟨rfl, rfl, .inl rfl⟩

/-- The same problem at a token in another spelling. -/
theorem atToken {t t' : Token} (h : t.Respelled t') (message : String) :
    (Diagnostic.atToken t message).Respelled (Diagnostic.atToken t' message) := by
  unfold Diagnostic.atToken
  rw [← h.kind, ← h.line]
  split
  · exact same _
  · refine ⟨rfl, rfl, .inr ⟨"[line " ++ t.line.displayBare ++ "] Error at ", ": " ++ message, t, t', h, ?_⟩⟩
    constructor <;> exact String.toList_inj.mp (by simp [Diagnostic.text])

/-- The diagnostic of an operator whose operands are no numbers quotes the operator. -/
theorem operands_text (line : Json) (lexeme : String) (left right : Tag) :
    Diagnostic.text ⟨line, .runtime .typeMismatch,
        (Fault.operandsNotNumbers lexeme left right).message⟩ =
      "[line " ++ line.displayBare ++ "] Runtime error (TypeMismatch): Operands of " ++ "'" ++ lexeme ++
        "'" ++ (" must be numbers, got " ++ left.text ++ " and " ++ right.text ++ ".") := by
  have hmessage : (Fault.operandsNotNumbers lexeme left right).message = "Operands of '" ++ lexeme ++
      "' must be numbers, got " ++ left.text ++ " and " ++ right.text ++ "." := rfl
  rw [hmessage]
  apply String.toList_inj.mp
  simp [Diagnostic.text, ErrorName.text]

/-- The same error at a token in another spelling. Only the message about the operands of an operator
quotes it. -/
theorem fault {cause cause' : Fault} {token token' : Option Token}
    (hcause : Fault.Matches Token.Respelled cause cause')
    (htoken : Option.Rel (fun t t' => t = t' ∨ Token.Respelled t t') token token') :
    (cause.diagnostic token).Respelled (cause'.diagnostic token') := by
  have hline : (token.map fun t => t.line).getD (.int 0) = (token'.map fun t => t.line).getD (.int 0) := by
    cases htoken with
    | none => rfl
    | some h =>
      rcases h with rfl | h
      · rfl
      · exact h.line
  unfold Fault.diagnostic
  rw [hline]
  generalize (token'.map fun t => t.line).getD (.int 0) = line
  cases hcause with
  | same => exact same _
  | operator left right h =>
    exact ⟨rfl, rfl, .inr ⟨_, _, _, _, h, operands_text .., operands_text ..⟩⟩

/-- Diagnostics in other spellings are reported alike. -/
theorem reported : Reported Eq Token.Respelled Diagnostic.Respelled where
  isSyntax := by
    intro d d' h
    have horigin := h.origin
    generalize d.origin = origin at horigin ⊢
    generalize d'.origin = origin' at horigin ⊢
    cases origin <;> cases origin' <;> first | rfl | cases horigin
  fault := fault

end Diagnostic.Respelled

namespace Session

/-- The same session up to the spelling of tokens in functions and in diagnostics. -/
abbrev Respelled (s s' : Session) : Prop := s.Matches Eq Token.Respelled Diagnostic.Respelled s'

/-- Two sources without lexical errors whose tokens differ in their spelling only do the same to a
session. They end the same, print and read the same, and leave the same names, arrays and functions,
up to the spelling of tokens inside functions. The same diagnostics are reported, one for one, up to
the lexemes that they quote. -/
theorem run_respelled (session : Session) (source source' : String)
    (hscan : (Scan.ofSource source).diagnostics = [])
    (hscan' : (Scan.ofSource source').diagnostics = [])
    (h : List.Forall₂ Token.Respelled (Scan.ofSource source).allTokens
      (Scan.ofSource source').allTokens) :
    Outcome.Matches Token.Respelled (session.run source).1 (session.run source').1 ∧
      (session.run source).2.Respelled (session.run source').2 := by
  have hlength : (Scan.ofSource source).tokens.length = (Scan.ofSource source').tokens.length := by
    simpa [Scan.allTokens] using h.length_eq
  have htokens : List.Forall₂ Token.Respelled (Scan.ofSource source).tokens
      (Scan.ofSource source').tokens := by
    have htake := List.forall₂_take_append _ _ _ h
    rwa [Scan.allTokens, ← hlength, List.take_left] at htake
  have hfinish : Token.Respelled (Scan.ofSource source).finish (Scan.ofSource source').finish := by
    have hdrop := List.forall₂_drop_append _ _ _ h
    rw [Scan.allTokens, ← hlength, List.drop_left] at hdrop
    cases hdrop with
    | cons hfinish _ => exact hfinish
  obtain ⟨hstatements, hreported⟩ :=
    parseTokens_related Token.Respelled.respects session.limits htokens hfinish
  have hdiagnostics : List.Forall₂ Diagnostic.Respelled (parseSource session.limits source).diagnostics
      (parseSource session.limits source').diagnostics := by
    simp only [parseSource, hscan, hscan', List.nil_append]
    refine hreported.imp fun d d' hd => ?_
    obtain ⟨token, token', message, ht, rfl, rfl⟩ := hd
    exact .atToken ht message
  have refl : session.Respelled session :=
    .same (fun _ => rfl) Token.Respelled.same Diagnostic.Respelled.same session
  exact refl.run Token.Respelled.neutral Diagnostic.Respelled.reported hstatements hdiagnostics

def english : String := "var x = nil;\nprint x != true and x > nil;"

def hiligaynon : String := "basi x ituon_sa waay;\nsulat x lain korik kag x mas_dako waay;"

/-- A program in two languages, which fails at the same operator in both. -/
theorem english_respelled :
    (Scan.ofSource english).diagnostics = [] ∧ (Scan.ofSource hiligaynon).diagnostics = [] ∧
      List.Forall₂ Token.Respelled (Scan.ofSource english).allTokens
        (Scan.ofSource hiligaynon).allTokens ∧
      ∀ session : Session,
        Outcome.Matches Token.Respelled (session.run english).1 (session.run hiligaynon).1 ∧
          (session.run english).2.Respelled (session.run hiligaynon).2 := by
  have hscan : (Scan.ofSource english).diagnostics = [] := List.isEmpty_iff.mp (by decide +kernel)
  have hscan' : (Scan.ofSource hiligaynon).diagnostics = [] := List.isEmpty_iff.mp (by decide +kernel)
  have htokens : List.Forall₂ Token.Respelled (Scan.ofSource english).allTokens
      (Scan.ofSource hiligaynon).allTokens := by
    decide +kernel
  exact ⟨hscan, hscan', htokens, fun session => run_respelled session _ _ hscan hscan' htokens⟩

end Session

end GameScript
