import GameScript.Proofs.Grammar.Completeness

/-! # An expression by itself

Statements end at a semicolon or a closing brace, and no expression has such a token. So the tokens of
an expression are a program only with a semicolon after them. -/

namespace GameScript

/-- A token that only declarations and statements have. -/
def Token.IsEnding (token : Token) : Prop := token.kind = .semicolon ∨ token.kind = .rightBrace

namespace Grammar

theorem Derives.not_isEnding {symbol : Symbol} {ts : List Token} {node : Node}
    (h : Derives symbol ts node) : ∀ token ∈ ts, ¬token.IsEnding := by
  have other {token : Token} {kind : TokenKind} (hk : token.kind = kind)
      (hne : kind ≠ .semicolon ∧ kind ≠ .rightBrace) : ¬token.IsEnding := by
    rintro (he | he)
    · exact hne.1 (hk.symm.trans he)
    · exact hne.2 (hk.symm.trans he)
  induction h with
  | assignName hn he _ ih =>
    simp only [List.forall_mem_cons]
    exact ⟨other hn (by decide), other he (by decide), ih⟩
  | assignElement _ ho _ hc he _ ih ih' ih'' =>
    simp only [List.forall_mem_append, List.forall_mem_cons]
    exact ⟨ih, other ho (by decide), ih', other hc (by decide), other he (by decide), ih''⟩
  | value _ ih => exact ih
  | operators _ _ ih ih' =>
    simp only [List.forall_mem_append]
    exact ⟨ih, ih'⟩
  | chainEnd => simp
  | @chainStep level operator _ _ _ _ _ hk _ _ ih ih' =>
    have hoperator : ¬operator.IsEnding := by
      rintro (he | he) <;> rw [he] at hk <;> cases level <;> simp [symbols] at hk
    simp only [List.forall_mem_append, List.forall_mem_cons]
    exact ⟨hoperator, ih, ih'⟩
  | sign ho _ ih =>
    simp only [List.forall_mem_cons]
    exact ⟨ho.elim (other · (by decide)) (other · (by decide)), ih⟩
  | unsigned _ ih => exact ih
  | call _ _ ih ih' =>
    simp only [List.forall_mem_append]
    exact ⟨ih, ih'⟩
  | suffixesEnd => simp
  | suffixCall ho _ _ hc _ ih ih' =>
    simp only [List.forall_mem_append, List.forall_mem_cons]
    exact ⟨other ho (by decide), ih, other hc (by decide), ih'⟩
  | suffixIndex ho _ hc _ ih ih' =>
    simp only [List.forall_mem_append, List.forall_mem_cons]
    exact ⟨other ho (by decide), ih, other hc (by decide), ih'⟩
  | falsehood hk | truth hk | nothing hk | reference hk =>
    simp only [List.forall_mem_singleton]
    exact other hk (by decide)
  | constant hk =>
    simp only [List.forall_mem_singleton]
    exact hk.elim (other · (by decide)) (other · (by decide))
  | grouping ho _ hc ih | array ho _ hc ih =>
    simp only [List.forall_mem_append, List.forall_mem_cons]
    exact ⟨other ho (by decide), ih, other hc (by decide), by simp⟩
  | item _ ih => exact ih
  | moreItems _ hc _ ih ih' =>
    simp only [List.forall_mem_append, List.forall_mem_cons]
    exact ⟨ih, other hc (by decide), ih'⟩
  | noItems => simp
  | someItems _ ih => exact ih

/-- A phrase of a program that is not empty has a token at which a statement ends. -/
def HasEnding : Form → List Token → Prop
  | .declarations, ts => ts = [] ∨ ∃ token ∈ ts, token.IsEnding
  | _, ts => ∃ token ∈ ts, token.IsEnding

theorem Builds.hasEnding {nearest : Prop} {form : Form} {ts : List Token} {node : Node}
    (h : Builds nearest form ts node) : HasEnding form ts := by
  induction h with
  | @function _ _ _ _ _ ending _ _ _ _ _ _ _ _ _ _ _ _ he _ => exact ⟨ending, by simp, .inr he⟩
  | declared _ hv =>
    cases hv with
    | @bare _ semicolon _ hs => exact ⟨semicolon, by simp, .inl hs⟩
    | @initialized _ _ semicolon _ _ _ _ _ hs => exact ⟨semicolon, by simp, .inl hs⟩
  | statement _ ih => exact ih
  | @forLoop _ _ semicolon _ _ _ _ _ _ _ _ _ _ _ _ _ _ hs => exact ⟨semicolon, by simp, .inl hs⟩
  | ifThen _ _ _ _ _ ih | whileLoop _ _ _ _ _ ih =>
    obtain ⟨token, ht, he⟩ := ih
    exact ⟨token, by simp [ht], he⟩
  | ifElse _ _ _ _ _ _ _ _ ih =>
    obtain ⟨token, ht, he⟩ := ih
    exact ⟨token, by simp [ht], he⟩
  | @print _ semicolon _ _ _ _ hs => exact ⟨semicolon, by simp, .inl hs⟩
  | @giveBack _ semicolon _ _ _ _ hs => exact ⟨semicolon, by simp, .inl hs⟩
  | @block _ closing _ _ _ _ hc => exact ⟨closing, by simp, .inr hc⟩
  | simple h =>
    cases h with
    | @mk semicolon _ _ _ hs => exact ⟨semicolon, by simp, .inl hs⟩
  | none => exact .inl rfl
  | more _ _ ih =>
    obtain ⟨token, ht, he⟩ := ih
    exact .inr ⟨token, by simp [ht], he⟩

/-- The tokens of an expression are no program. -/
theorem Derives.not_program {ts : List Token} {node : Node} (h : Derives .expression ts node)
    {nearest : Prop} {trees : List Node} : ¬Program nearest ts trees := by
  intro hp
  rcases hp.hasEnding with rfl | ⟨token, ht, he⟩
  · obtain ⟨_, _, hts, -⟩ := Parse.derives_starts h
    cases hts
  · exact h.not_isEnding token ht he

/-- With a semicolon they are the program of one statement. -/
theorem Derives.program {ts : List Token} {node : Node} (h : Derives .expression ts node)
    {nearest : Prop} {semicolon : Token} (hs : semicolon.kind = .semicolon) :
    Program nearest (ts ++ [semicolon]) [.expression node] := by
  have hsimple : Builds nearest .declaration (ts ++ [semicolon]) (.expression node) :=
    .statement (.simple (.mk h hs))
  have hall := Builds.more hsimple .none
  rwa [List.append_nil] at hall

end Grammar

end GameScript
