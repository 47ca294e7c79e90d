import GameScript.Proofs.Grammar.Completeness
import GameScript.Proofs.Grammar.Soundness

/-! # Where one program ends and the next begins

Two programs that parse without a report parse as one, to the statements of both, however deeply the
declarations of either nest. A declaration looks past its end for an `else` only, and no program
begins with one. -/

namespace GameScript.Parse

/-- A loop over declarations that has read everything reads the same before whatever does not begin
with an `else`, and goes on there. So does a loop that ends in another way. -/
theorem declarationLoop_replays {depth : Nat} {done last : List Node} {c c' : Cursor}
    (hc : c.finish.kind = .eof) (h : declarationLoop atEnd depth done c = .ok last c')
    (hr : c'.reported = c.reported) (hnil : c'.rest = []) :
    ∃ nodes, last = nodes ++ done ∧ ∀ {ended}, Ends ended → ∀ before rest finish reported,
      finish.kind = .eof → Avoids (· = .else) rest →
      declarationLoop ended depth before ⟨c.rest ++ rest, finish, reported⟩ =
        declarationLoop ended depth (nodes ++ before) ⟨rest, finish, reported⟩ := by
  have proceeds := Ends.atEnd.proceeds depth
  generalize hn : c.rest.length = n
  -- each round reads a token, so the induction is on how many are left
  induction n using Nat.strongRecOn generalizing done c with
  | _ n ih =>
    unfold declarationLoop at h
    rw [repeatWhile_eq proceeds done hc] at h
    obtain ⟨next, c₁, h₁, h₂⟩ := bind_ok h
    have l₁ := ((proceeds.advances done).ok h₁).1
    obtain ⟨ended, c₀, he, hs⟩ := bind_ok h₁
    cases he
    split at hs
    · obtain ⟨rfl, rfl⟩ := pure_ok hs
      obtain ⟨rfl, rfl⟩ := pure_ok h₂
      refine ⟨[], rfl, fun _ before rest finish reported _ _ => ?_⟩
      rw [hnil]
      rfl
    · obtain ⟨node?, c₂, hd, hp⟩ := bind_ok hs
      obtain ⟨rfl, rfl⟩ := pure_ok hp
      have l₂ := (Advances.repeatWhile proceeds.advances _).ok h₂
      have e₁ : c₂.reported = c.reported := by
        have hle := l₂.1.reported
        rw [hr] at hle
        exact hle.eq_of_length_le l₁.reported.length_le
      obtain ⟨ts₁, hts, ⟨node, rfl, hb⟩, again⟩ := (Reads.declaration depth).reads hc hd e₁
      obtain ⟨nodes, rfl, hgo⟩ := ih _ (hn ▸ proceeds.reads hc h₁) (l₁.finish ▸ hc) h₂
        (hr.trans e₁.symm) rfl
      refine ⟨nodes ++ [node], by simp, fun hends before rest finish reported hf ha => ?_⟩
      have alike : Alike isElse c₂.rest (c₂.rest ++ rest) := by
        cases c₂.rest with
        | nil => exact .inr fun token ht => ht.elim nofun (ha token)
        | cons token rest' => exact .cons token _ _
      have one := again (c₂.rest ++ rest) finish reported hf alike
      have begun := hends.goesOn (ts₁ ++ (c₂.rest ++ rest)) ((builds_starts hb).append _) finish
        reported hf
      have round := declarationLoop_next (c := ⟨ts₁ ++ (c₂.rest ++ rest), finish, reported⟩) hends hf
        begun one before
      rw [hts, List.append_assoc, round, hgo hends _ rest finish reported hf ha, List.append_assoc]
      rfl

/-- A loop over declarations comes through the tokens of a program without a report. -/
theorem program_replays {depth : Nat} {tokens : List Token} {finish : Token} {trees : List Node}
    {c : Cursor} (hf : finish.kind = .eof) (ht : ∀ token ∈ tokens, token.kind ≠ .eof)
    (h : program depth ⟨tokens, finish, []⟩ = .ok trees c) (hr : c.reported = [])
    {ended : Parse Bool} (hends : Ends ended) (before : List Node) {rest : List Token} {finish' : Token}
    (reported : List Diagnostic) (hf' : finish'.kind = .eof) (ha : Avoids (· = .else) rest) :
    declarationLoop ended depth before ⟨tokens ++ rest, finish', reported⟩ =
      declarationLoop ended depth (trees.reverse ++ before) ⟨rest, finish', reported⟩ := by
  have ended := program_ends hf h
  obtain ⟨done, c₁, h₁, h₂⟩ := bind_ok h
  obtain ⟨rfl, rfl⟩ := pure_ok h₂
  have l₁ := ((Advances.repeatWhile (Ends.atEnd.proceeds depth).advances []).ok h₁).1
  have hnil : c₁.rest = [] := rest_of_atEnd ht l₁ ended
  obtain ⟨nodes, rfl, replay⟩ := declarationLoop_replays hf h₁ hr hnil
  simpa using replay hends before rest finish' reported hf' ha

/-- Programs that parse without a report parse as one program, to the trees of both. -/
theorem program_append {depth : Nat} {tokens tokens' : List Token} {finish finish' : Token}
    {trees trees' : List Node} {c c' : Cursor}
    (hf : finish.kind = .eof) (ht : ∀ token ∈ tokens, token.kind ≠ .eof)
    (hf' : finish'.kind = .eof) (ht' : ∀ token ∈ tokens', token.kind ≠ .eof)
    (h : program depth ⟨tokens, finish, []⟩ = .ok trees c) (hr : c.reported = [])
    (h' : program depth ⟨tokens', finish', []⟩ = .ok trees' c') (hr' : c'.reported = []) :
    program depth ⟨tokens ++ tokens', finish', []⟩ = .ok (trees ++ trees') ⟨[], finish', []⟩ := by
  -- the second program begins with a declaration, if it is not empty
  have avoids : Avoids (· = .else) (tokens' ++ []) :=
    avoids_declarations (program_sound hf' ht' h' hr') .nil
  have first := program_replays hf ht h hr .atEnd [] [] hf' avoids
  have second := program_replays hf' ht' h' hr' .atEnd (trees.reverse ++ []) [] hf' .nil
  have whole : declarationLoop atEnd depth [] ⟨tokens ++ tokens', finish', []⟩ =
      .ok (trees'.reverse ++ (trees.reverse ++ [])) ⟨[], finish', []⟩ := by
    rw [List.append_nil] at first
    rw [first, ← List.append_nil tokens', second]
    exact Consumes.loopDone depth _ finish' [] hf'
  have parsed : program depth ⟨tokens ++ tokens', finish', []⟩ =
      .ok (trees'.reverse ++ (trees.reverse ++ [])).reverse ⟨[], finish', []⟩ := bind_eq_of_ok whole
  simpa using parsed

end GameScript.Parse

namespace GameScript

/-- A program that parses without a report was read to its end. -/
theorem parseTokens_clean {limits : Limits} {tokens : List Token} {finish : Token}
    (h : (parseTokens limits tokens finish).diagnostics = []) :
    ∃ c, Parse.program limits.parsing ⟨tokens, finish, []⟩ =
      .ok (parseTokens limits tokens finish).statements c ∧ c.reported = [] := by
  unfold parseTokens at h ⊢
  split at h
  · next statements c hp =>
    rw [hp]
    exact ⟨c, rfl, h⟩
  · simp [Cursor.report] at h

theorem parseTokens_append {limits : Limits} {tokens tokens' : List Token} {finish finish' : Token}
    (hf : finish.kind = .eof) (ht : ∀ token ∈ tokens, token.kind ≠ .eof)
    (hf' : finish'.kind = .eof) (ht' : ∀ token ∈ tokens', token.kind ≠ .eof)
    (h : (parseTokens limits tokens finish).diagnostics = [])
    (h' : (parseTokens limits tokens' finish').diagnostics = []) :
    parseTokens limits (tokens ++ tokens') finish' =
      ⟨(parseTokens limits tokens finish).statements ++
        (parseTokens limits tokens' finish').statements, []⟩ := by
  obtain ⟨c, hp, hr⟩ := parseTokens_clean h
  obtain ⟨c', hp', hr'⟩ := parseTokens_clean h'
  have both := Parse.program_append hf ht hf' ht' hp hr hp' hr'
  rw [parseTokens, both]

end GameScript
