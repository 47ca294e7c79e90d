import GameScript.Proofs.Grammar.Splitting
import GameScript.Proofs.Matching.Evaluator
import GameScript.Proofs.Matching.Parser
import GameScript.Proofs.Scanner

/-! # Programs that stand on other lines

Lines are kept for diagnostics alone. Tokens that differ in their lines parse to trees that do, and a
source after the end of another one parses to its own trees with all lines moved down. -/

namespace GameScript

variable {L : Json → Json → Prop}

/-- A line, or the one so many lines below it. -/
def Moved (k : Int) (line line' : Json) : Prop := line' = line ∨ Below k line line'

/-- The same diagnostic but for its line. -/
def Diagnostic.Relined (L : Json → Json → Prop) (d d' : Diagnostic) : Prop :=
  ∃ line, L d.line line ∧ d' = { d with line }

theorem Token.relined_eq : Token.Relined Eq = Eq := by
  funext t t'
  apply propext
  constructor
  · intro h
    obtain ⟨line, rfl, rfl⟩ := h
    rfl
  · intro h
    obtain rfl := h
    exact ⟨t.line, rfl, rfl⟩

theorem Diagnostic.relined_eq : Diagnostic.Relined Eq = Eq := by
  funext d d'
  apply propext
  constructor
  · intro h
    obtain ⟨line, rfl, rfl⟩ := h
    rfl
  · intro h
    obtain rfl := h
    exact ⟨d.line, rfl, rfl⟩

theorem Token.Relined.text {t t' : Token} (h : t.Relined L t') : t.text = t'.text := by
  obtain ⟨line, -, rfl⟩ := h
  rfl

theorem Token.Relined.same (hL : ∀ line, L line line) (t : Token) : t.Relined L t :=
  ⟨t.line, hL _, rfl⟩

theorem Token.Relined.mono {L' : Json → Json → Prop} (hL : ∀ line line', L line line' → L' line line')
    {t t' : Token} (h : t.Relined L t') : t.Relined L' t' := by
  obtain ⟨line, hline, rfl⟩ := h
  exact ⟨line, hL _ _ hline, rfl⟩

/-- Running never looks at lines. -/
theorem Token.Relined.neutral : Neutral (Token.Relined L) (Token.Relined L) where
  name := by
    intro t _ h
    obtain ⟨line, -, rfl⟩ := h
    rfl
  kind := by
    intro t _ h
    obtain ⟨line, -, rfl⟩ := h
    rfl

/-- Neither does parsing. -/
theorem Token.Relined.respects : Parse.Respects (Token.Relined L)
    (Node.Matches (Token.Relined L) (Token.Relined L))
    (Node.Matches (Token.Relined L) (Token.Relined L)) := by
  refine Node.Matches.respects ?_ ?_ fun _ _ h _ => h
  · intro t _ h
    obtain ⟨line, -, rfl⟩ := h
    rfl
  · intro t _ h
    obtain ⟨line, -, rfl⟩ := h
    rfl

/-- The same trees on other lines. -/
abbrev RelinedAll (L : Json → Json → Prop) : List Node → List Node → Prop :=
  MatchesAll (Token.Relined L) (Token.Relined L)

/-! ## A source after another one -/

theorem parseSource_break {limits : Limits} {source more : String}
    (h : (parseSource limits source).diagnostics = [])
    (hmore : (parseSource limits more).diagnostics = []) :
    ∃ lowered, parseSource limits (source ++ "\n" ++ more) =
        ⟨(parseSource limits source).statements ++ lowered, []⟩ ∧
      ∀ L, (∀ line line', Below (1 + source.toList.count '\n') line line' → L line line') →
        RelinedAll L (parseSource limits more).statements lowered := by
  obtain ⟨hscan, hparse⟩ := List.append_eq_nil_iff.mp h
  obtain ⟨hscan', hparse'⟩ := List.append_eq_nil_iff.mp hmore
  obtain ⟨lowered, htokens, hlow, hfinish, hclean⟩ := Scan.ofSource_break more hscan hscan'
  have related := parseTokens_related Token.Relined.respects limits hlow hfinish
  -- what was clean on the first lines is clean further down
  have hbelow : (parseTokens limits lowered (Scan.ofSource (source ++ "\n" ++ more)).finish).diagnostics
      = [] := by
    have hreport := related.2
    rw [hparse', List.forall₂_nil_left_iff] at hreport
    exact hreport
  have hne : ∀ token ∈ lowered, token.kind ≠ .eof := by
    intro token ht
    apply Scan.ofSource_ne_eof (source ++ "\n" ++ more)
    rw [htokens]
    exact List.mem_append_right _ ht
  have both := parseTokens_append rfl (Scan.ofSource_ne_eof source) rfl hne hparse hbelow
  refine ⟨(parseTokens limits lowered (Scan.ofSource (source ++ "\n" ++ more)).finish).statements,
    ?_, ?_⟩
  · simp only [parseSource, htokens, hclean, both, List.append_nil]
  · intro L hL
    have hlow' := hlow.imp fun _ _ ht => Token.Relined.mono hL ht
    exact (parseTokens_related Token.Relined.respects limits hlow' (hfinish.mono hL)).1

end GameScript
