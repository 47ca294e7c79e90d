import GameScript.Proofs.Grammar.Completeness
import GameScript.Proofs.Scanner

/-! # Calls of what calls give

One loop reads all the calls that stand one after the other, so however many there are, they take no
more open steps than one. Their tree is as deep as they are many, though: a source can be parsed
whose tree is too deep for everything that is done with trees. -/

namespace GameScript

/-! ## Sources -/

/-- What is left of a statement before some number of calls without arguments. -/
def callsLeft : Nat → List Char
  | 0 => [';']
  | n + 1 => '(' :: ')' :: callsLeft n

/-- A program that calls a function, then what the call gives, and so on. -/
def manyCalls (n : Nat) : String := String.ofList ('f' :: callsLeft n)

namespace ManyCalls

def mark (kind : TokenKind) (text : String) : Token := ⟨kind, .string text, .null, .int 1⟩

/-- The tokens of the calls. -/
def calls : Nat → List Token
  | 0 => []
  | n + 1 => mark .leftParen "(" :: mark .rightParen ")" :: calls n

/-- The tree of calls of something. -/
def tree (target : Node) : Nat → Node
  | 0 => target
  | n + 1 => tree (.call target (mark .rightParen ")") (.sequence [])) n

/-- The function that is called first. -/
def callee : Node := .variable (mark .identifier "f")

theorem ofPieces_callsLeft (n : Nat) :
    Scan.ofPieces 1 (Piece.ofSource (callsLeft n)) =
      ⟨calls n ++ [mark .semicolon ";"], [], 1⟩ := by
  induction n with
  | zero => rfl
  | succ n ih =>
    have hpieces : Piece.ofSource (callsLeft (n + 1)) =
        .token .leftParen ['('] .null :: .token .rightParen [')'] .null ::
          Piece.ofSource (callsLeft n) := by
      rw [callsLeft, Piece.ofSource_cons]
      exact congrArg _ (Piece.ofSource_cons ')' (callsLeft n))
    rw [hpieces]
    simp only [Scan.ofPieces, Piece.lineFeeds, Piece.text]
    rw [show (1 : Int) + (['('].count '\n' : Nat) + ([')'].count '\n' : Nat) = 1 from rfl, ih]
    rfl

theorem ofSource_manyCalls (n : Nat) :
    Scan.ofSource (manyCalls n) =
      ⟨mark .identifier "f" :: (calls n ++ [mark .semicolon ";"]), [], 1⟩ := by
  have hword : Piece.first 'f' (callsLeft n) = (.token .identifier ['f'] .null, callsLeft n) := by
    cases n <;> rfl
  unfold Scan.ofSource manyCalls
  rw [String.toList_ofList, Piece.ofSource_cons, hword]
  simp only [Scan.ofPieces, Piece.lineFeeds, Piece.text]
  rw [show (1 : Int) + (['f'].count '\n' : Nat) = 1 from rfl, ofPieces_callsLeft]
  rfl

theorem return_notMem (n : Nat) : '\r' ∉ (manyCalls n).toList := by
  have hleft : '\r' ∉ callsLeft n := by
    induction n with
    | zero => decide
    | succ n ih => simpa [callsLeft] using ih
  simpa [manyCalls] using hleft

/-! ## Trees -/

/-- A semicolon ends calls, and all else. -/
theorem finished_semicolon (rest : List Token) : Parse.Finished (mark .semicolon ";" :: rest) :=
  .closed rest rfl

theorem suffixLoop_calls {depth : Nat} (hd : 14 ≤ depth) (target : Node) (n : Nat)
    (rest : List Token) :
    Parse.Consumes (Parse.suffixLoop depth target) (calls n) (tree target n)
      (mark .semicolon ";" :: rest) := by
  induction n generalizing target with
  | zero =>
    refine .noSuffix depth target ((finished_semicolon rest).mono fun kind hk => ?_)
    exact .inr (hk.mono (Nat.zero_le 6))
  | succ n ih =>
    exact .loopRound (.suffixLoop depth) (.callSuffix target rfl .none (Nat.zero_le _) rfl hd) (ih _)

/-- An expression of calls takes as many open steps as one without any. -/
theorem expression_calls (depth n : Nat) (rest : List Token) :
    Parse.Consumes (Parse.expression (depth + 30)) (mark .identifier "f" :: calls n) (tree callee n)
      (mark .semicolon ";" :: rest) := by
  have hfinished := finished_semicolon rest
  have hname : Parse.Complete .primary [mark .identifier "f"] callee :=
    Parse.derives_complete (.reference rfl)
  have suffixed : Parse.Consumes (Parse.suffixed (depth + 17)) (mark .identifier "f" :: calls n)
      (tree callee n) (mark .semicolon ";" :: rest) :=
    (hname (depth + 16) _ (Nat.le_add_left _ _)).head
      (suffixLoop_calls (Nat.le_add_left_of_le (by decide)) callee n rest)
  have operators := suffixed.call (depth + 17) ⟨_, _, rfl, rfl⟩ (hfinished.mono fun _ => .inr)
  have assignment : Parse.Consumes (Parse.assignment (depth + 29)) (mark .identifier "f" :: calls n)
      (tree callee n) (mark .semicolon ";" :: rest) :=
    operators.map (.otherwise (hfinished.mono fun kind hk => .inl (by simpa using hk)) (.pure _ _))
  exact assignment

theorem declaration_calls (depth n : Nat) :
    Parse.Consumes (Parse.declaration (depth + 37))
      (mark .identifier "f" :: (calls n ++ [mark .semicolon ";"]))
      (some (.expression (tree callee n))) [] := by
  have simple : Parse.Consumes (Parse.expressionStatement (Parse.expression (depth + 34)))
      (mark .identifier "f" :: calls n ++ [mark .semicolon ";"]) (.expression (tree callee n)) [] :=
    (expression_calls (depth + 4) n []).bind (.discard rfl nofun (.pure _ _))
  have statement : Parse.Consumes (Parse.statement (depth + 36))
      (mark .identifier "f" :: (calls n ++ [mark .semicolon ";"])) (.expression (tree callee n)) [] :=
    .otherwise (.cons (by decide)) simple
  exact .recovering (.otherwise (.cons (by decide)) statement)

/-- Any number of calls is parsed within the same bound. -/
theorem parseSource_manyCalls {limits : Limits} (h : 37 ≤ limits.parsing) (n : Nat) :
    parseSource limits (manyCalls n) = ⟨[.expression (tree callee n)], []⟩ := by
  obtain ⟨depth, hdepth⟩ : ∃ d, limits.parsing = d + 37 := ⟨limits.parsing - 37, by omega⟩
  have declaration := declaration_calls depth n
  rw [← hdepth] at declaration
  have round : Parse.Consumes
      (Parse.anotherDeclaration Parse.atEnd (Parse.declaration limits.parsing) [])
      (mark .identifier "f" :: (calls n ++ [mark .semicolon ";"]))
      (some [.expression (tree callee n)]) [] :=
    .look (Parse.Ends.atEnd.goesOn _ ⟨_, _, rfl, rfl⟩) (declaration.map (.pure _ _))
  have program : Parse.Consumes (Parse.program limits.parsing)
      (mark .identifier "f" :: (calls n ++ [mark .semicolon ";"]) ++ [])
      [.expression (tree callee n)] [] :=
    (Parse.Consumes.loopRound (Parse.Ends.atEnd.proceeds limits.parsing) round
      (.loopDone limits.parsing _)).map (.pure _ _)
  rw [List.append_nil] at program
  have hparsed := program (Token.finish 1) [] rfl
  rw [List.append_nil] at hparsed
  unfold parseSource parseTokens
  rw [ofSource_manyCalls]
  dsimp only [Scan.finish]
  rw [hparsed]
  rfl

/-- The tree of calls is as deep as they are many. -/
theorem depth_tree (own list : Nat) (h : 1 ≤ own) (target : Node) (n : Nat) :
    n + target.depth own list ≤ (tree target n).depth own list := by
  induction n generalizing target with
  | zero => exact Nat.le_of_eq (Nat.zero_add _)
  | succ n ih =>
    have hcall : target.depth own list + own ≤
        (Node.call target (mark .rightParen ")") (.sequence [])).depth own list := by
      rw [Node.depth]
      exact Nat.add_le_add_right (Nat.le_max_left _ _) own
    have hrest := ih (.call target (mark .rightParen ")") (.sequence []))
    rw [tree]
    omega

end ManyCalls

end GameScript
