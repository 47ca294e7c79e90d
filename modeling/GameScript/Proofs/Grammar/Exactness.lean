import GameScript.Proofs.Grammar.Completeness
import GameScript.Proofs.Grammar.Depth
import GameScript.Proofs.Grammar.Soundness

/-! # The parser accepts exactly the programs of the grammar

The grammar as documented does not say which conditional an `else` belongs to. Whatever derives from
it also derives with every `else` at the nearest conditional, and then in one way only, which is the
one that the parser finds. -/

namespace GameScript.Grammar

/-! ## The nearest conditional -/

/-- A rule for `else` that asks for less allows more. -/
theorem Builds.weaken {nearest nearest' : Prop} (hn : nearest' → nearest) {form : Form}
    {ts : List Token} {node : Node} (h : Builds nearest form ts node) :
    Builds nearest' form ts node := by
  induction h with
  | function hk hn ho hp hm hc hb _ he ih => exact .function hk hn ho hp hm hc hb ih he
  | declared hk hv => exact .declared hk hv
  | statement _ ih => exact .statement ih
  | forLoop hk ho h₁ h₂ hs h₃ hc _ ih => exact .forLoop hk ho h₁ h₂ hs h₃ hc ih
  | ifThen hk ho hd hc _ ih => exact .ifThen hk ho hd hc ih
  | ifElse hk ho hd hc _ hopen hw _ ih ih' =>
    exact .ifElse hk ho hd hc ih (fun h => hopen (hn h)) hw ih'
  | print hk hd hs => exact .print hk hd hs
  | giveBack hk hv hs => exact .giveBack hk hv hs
  | whileLoop hk ho hd hc _ ih => exact .whileLoop hk ho hd hc ih
  | block ho _ hc ih => exact .block ho ih hc
  | simple h => exact .simple h
  | none => exact .none
  | more _ _ ih ih' => exact .more ih ih'

/-- An open statement takes an `else` that comes after it, at its nearest conditional. -/
theorem Builds.takeElse {ts ts' : List Token} {node elseBranch : Node} {word : Token} {isOpen : Bool}
    (h : Builds True (.statement true) ts node) (hw : word.kind = .else)
    (he : Builds True (.statement isOpen) ts' elseBranch) :
    ∃ isOpen' node', Builds True (.statement isOpen') (ts ++ word :: ts') node' := by
  generalize hform : Form.statement true = form at h
  induction h with
  | forLoop hk ho h₁ h₂ hs h₃ hc _ ih =>
    cases hform
    obtain ⟨isOpen', body, hb⟩ := ih rfl
    exact ⟨isOpen', _, by simpa using Builds.forLoop hk ho h₁ h₂ hs h₃ hc hb⟩
  | @ifThen keyword opening closing ts ts' condition thenBranch isOpen' hk ho hd hc hb ih =>
    cases isOpen' with
    | false =>
      refine ⟨isOpen, .ifElse condition thenBranch elseBranch, ?_⟩
      simpa using Builds.ifElse hk ho hd hc hb (fun _ => rfl) hw he
    | true =>
      obtain ⟨isOpen', body, hb⟩ := ih rfl
      exact ⟨true, _, by simpa using Builds.ifThen hk ho hd hc hb⟩
  | ifElse hk ho hd hc hthen hopen hw' _ _ ih =>
    cases hform
    obtain ⟨isOpen', body, hb⟩ := ih rfl
    exact ⟨isOpen', _, by simpa using Builds.ifElse hk ho hd hc hthen hopen hw' hb⟩
  | whileLoop hk ho hd hc _ ih =>
    cases hform
    obtain ⟨isOpen', body, hb⟩ := ih rfl
    exact ⟨isOpen', _, by simpa using Builds.whileLoop hk ho hd hc hb⟩
  | _ => cases hform

/-- The tokens of a phrase have a tree in which every `else` is at the nearest conditional. -/
def Reassociates : Form → List Token → Prop
  | .declaration, ts => ∃ node, Builds True .declaration ts node
  | .statement _, ts => ∃ isOpen node, Builds True (.statement isOpen) ts node
  | .declarations, ts => ∃ nodes, Builds True .declarations ts (.sequence nodes)

theorem Builds.reassociates {nearest : Prop} {form : Form} {ts : List Token} {node : Node}
    (h : Builds nearest form ts node) : Reassociates form ts := by
  induction h with
  | function hk hn ho hp hm hc hb _ he ih =>
    obtain ⟨nodes, hbody⟩ := ih
    exact ⟨_, .function hk hn ho hp hm hc hb hbody he⟩
  | declared hk hv => exact ⟨_, .declared hk hv⟩
  | statement _ ih =>
    obtain ⟨isOpen, node, hs⟩ := ih
    exact ⟨node, .statement hs⟩
  | forLoop hk ho h₁ h₂ hs h₃ hc _ ih =>
    obtain ⟨isOpen, body, hb⟩ := ih
    exact ⟨isOpen, _, .forLoop hk ho h₁ h₂ hs h₃ hc hb⟩
  | ifThen hk ho hd hc _ ih =>
    obtain ⟨isOpen, body, hb⟩ := ih
    exact ⟨true, _, .ifThen hk ho hd hc hb⟩
  | @ifElse keyword opening closing word ts ts' ts'' condition _ _ _ _ hk ho hd hc _ _ hw _ ih ih' =>
    obtain ⟨isOpen, thenBranch, hthen⟩ := ih
    obtain ⟨isOpen', elseBranch, helse⟩ := ih'
    cases isOpen with
    | false => exact ⟨isOpen', _, .ifElse hk ho hd hc hthen (fun _ => rfl) hw helse⟩
    | true =>
      -- the first branch takes the `else`, and this conditional is left without one
      obtain ⟨isOpen, branch, hb⟩ := hthen.takeElse hw helse
      exact ⟨true, _, .ifThen hk ho hd hc hb⟩
  | print hk hd hs => exact ⟨false, _, .print hk hd hs⟩
  | giveBack hk hv hs => exact ⟨false, _, .giveBack hk hv hs⟩
  | whileLoop hk ho hd hc _ ih =>
    obtain ⟨isOpen, body, hb⟩ := ih
    exact ⟨isOpen, _, .whileLoop hk ho hd hc hb⟩
  | block ho _ hc ih =>
    obtain ⟨nodes, hbody⟩ := ih
    exact ⟨false, _, .block ho hbody hc⟩
  | simple h => exact ⟨false, _, .simple h⟩
  | none => exact ⟨[], .none⟩
  | more _ _ ih ih' =>
    obtain ⟨node, hb⟩ := ih
    obtain ⟨nodes, hbs⟩ := ih'
    exact ⟨node :: nodes, .more hb hbs⟩

/-- The grammar with and without the rule for `else` has the same programs. -/
theorem exists_program_iff (tokens : List Token) :
    (∃ trees, Program True tokens trees) ↔ ∃ trees, Program False tokens trees :=
  ⟨fun ⟨trees, h⟩ => ⟨trees, Builds.weaken nofun h⟩, fun ⟨_, h⟩ => Builds.reassociates h⟩

/-! ## Exactness -/

theorem parseTokens_complete {limits : Limits} {tokens : List Token} {trees : List Node}
    {finish : Token} (h : Program True tokens trees) (hf : finish.kind = .eof)
    (hd : 16 * tokens.length + 21 ≤ limits.parsing) :
    parseTokens limits tokens finish = ⟨trees, []⟩ := by
  unfold parseTokens
  rw [Parse.program_complete h hf hd]

theorem parseTokens_sound {limits : Limits} {tokens : List Token} {trees : List Node}
    {finish : Token} (hf : finish.kind = .eof) (ht : ∀ token ∈ tokens, token.kind ≠ .eof)
    (h : parseTokens limits tokens finish = ⟨trees, []⟩) : Program True tokens trees := by
  unfold parseTokens at h
  split at h
  · next hp =>
    simp only [ParsedProgram.mk.injEq] at h
    obtain ⟨rfl, hr⟩ := h
    exact Parse.program_sound hf ht hp hr
  · simp [Cursor.report] at h

/-- The steps that may be open suffice: there are sixteen for every token, or it is not reported that
a declaration nests too deeply. -/
def Suffices (limits : Limits) (tokens : List Token) (finish : Token) : Prop :=
  16 * tokens.length + 21 ≤ limits.parsing ∨
    ∀ d ∈ (parseTokens limits tokens finish).diagnostics, d.message ≠ Parse.tooDeepMessage

/-- A program parses to its trees with any limit that suffices. -/
theorem parseTokens_of_program {limits : Limits} {tokens : List Token} {trees : List Node}
    {finish : Token} (h : Program True tokens trees) (hf : finish.kind = .eof)
    (hs : Suffices limits tokens finish) : parseTokens limits tokens finish = ⟨trees, []⟩ := by
  rcases hs with hle | hd
  · exact parseTokens_complete h hf hle
  · let higher : Limits := { limits with parsing := max limits.parsing (16 * tokens.length + 21) }
    have hhigher : parseTokens higher tokens finish = ⟨trees, []⟩ :=
      parseTokens_complete h hf (Nat.le_max_right _ _)
    have hle : limits.parsing ≤ higher.parsing := Nat.le_max_left _ _
    rcases parseTokens_deepens hle tokens finish with he | ⟨d, hmem, hm⟩
    · rw [he, hhigher]
    · exact absurd hm (hd d hmem)

/-- Tokens parse to trees without a report exactly if they derive from the grammar, with every `else`
at the nearest conditional and with these trees. They parse without a report exactly if they derive
from the grammar at all. -/
theorem parseTokens_exact (limits : Limits) (tokens : List Token) (finish : Token)
    (hf : finish.kind = .eof) (ht : ∀ token ∈ tokens, token.kind ≠ .eof)
    (hs : Suffices limits tokens finish) :
    ((parseTokens limits tokens finish).diagnostics = [] ↔ ∃ trees, Program False tokens trees) ∧
      ∀ trees, parseTokens limits tokens finish = ⟨trees, []⟩ ↔ Program True tokens trees := by
  have exact : ∀ trees, parseTokens limits tokens finish = ⟨trees, []⟩ ↔ Program True tokens trees :=
    fun trees => ⟨parseTokens_sound hf ht, fun h => parseTokens_of_program h hf hs⟩
  refine ⟨?_, exact⟩
  rw [← exists_program_iff]
  constructor
  · intro hnil
    refine ⟨_, (exact (parseTokens limits tokens finish).statements).mp ?_⟩
    rw [← hnil]
  · intro h
    obtain ⟨trees, h⟩ := h
    rw [(exact trees).mpr h]

/-- A token by its kind and text, on the first line. -/
def word (kind : TokenKind) (lexeme : String) : Token := ⟨kind, .string lexeme, .null, .int 1⟩

/-- A name on the first line. -/
def name (lexeme : String) : Token := word .identifier lexeme

/-- The tokens of `if (a) if (b) c = d[e] = f - g - h; else i;`. -/
def nestedConditionals : List Token :=
  [word .if "if", word .leftParen "(", name "a", word .rightParen ")", word .if "if",
    word .leftParen "(", name "b", word .rightParen ")", name "c", word .equal "=", name "d",
    word .leftBracket "[", name "e", word .rightBracket "]", word .equal "=", name "f",
    word .minus "-", name "g", word .minus "-", name "h", word .semicolon ";", word .else "else",
    name "i", word .semicolon ";"]

/-- Their tree: the `else` is at the inner conditional, assignments nest to the right and
differences to the left. -/
def nestedTree : Node :=
  let minus (left right : Node) : Node := .binary left (word .minus "-") right
  let value := minus (minus (.variable (name "f")) (.variable (name "g"))) (.variable (name "h"))
  let element :=
    .indexSet (.variable (name "d")) (word .leftBracket "[") (.variable (name "e")) value
  .ifElse (.variable (name "a"))
    (.ifElse (.variable (name "b")) (.expression (.assign (name "c") element))
      (.expression (.variable (name "i"))))
    .absent

theorem nestedConditionals_exact :
    parseTokens .standard nestedConditionals (.finish 1) = ⟨[nestedTree], []⟩ ∧
      Program True nestedConditionals [nestedTree] :=
  ⟨rfl, ((parseTokens_exact .standard nestedConditionals (.finish 1) rfl (by decide)
    (.inl (by decide))).2 _).mp rfl⟩

end GameScript.Grammar
